/-
Likes, favourites, comments and likes of comments, with the counters that are stored beside them.

Modelled from `app/modules/content/service.py` (`like_item`, `unlike_item`), `content/repository.py` (`lock_active`),
`content/counters.py` (`write_through_bump`, `bump_content_counter`, `read_count`, `reconcile_counts`),
`content/read_api.py` (`bookmark_count`, `bump_bookmark_count`), `app/modules/interaction/service.py` (`add_favorite`,
`remove_favorite`), `app/modules/comment/service.py` (`create_comment`, `delete_comment`, `like_comment`,
`unlike_comment`) and `comment/counters.py` (`bump_like_count`, `reconcile_comment_likes`), statement by statement over
the row store of `Lib.Sql`.

The counters are written through (`counters_write_through`, the default). The id of an item or a comment is its row
number; `uuid` gives the order of the items' ids, which only `reconcile_counts` uses. Texts, the time of a comment, and
the other columns of an item are left out, and so is what a handler builds from a comment for its answer. The check of
a foreign key only makes a session wait longer and is left out too.
-/
import Mathlib.Data.List.Sort
import LkmService.Lib.Discipline

namespace LkmService.Counters

open Session Sql

/-! ## Tables -/

/-- a row of `content_items`: `deleted` is `deleted_at is not None` -/
structure ContentItem where
  likeCount : ℕ := 0
  commentCount : ℕ := 0
  bookmarkCount : ℕ := 0
  countsReconciledAt : Option ℕ := none
  deleted : Bool := false
deriving DecidableEq, Repr

/-- a row of `content_likes` -/
structure ContentLike where
  contentId : ℕ
  userId : ℕ
deriving DecidableEq, Repr

/-- a row of `interaction_favorites` -/
structure InteractionFavorite where
  contentId : ℕ
  userId : ℕ
deriving DecidableEq, Repr

/-- a row of `content_comments`; the number of a row is its creation order -/
structure ContentComment where
  contentId : ℕ
  userId : ℕ
  floorNumber : ℕ
  parentId : Option ℕ := none
  likeCount : ℕ := 0
  deleted : Bool := false
deriving DecidableEq, Repr

/-- a row of `content_comment_likes` -/
structure ContentCommentLike where
  commentId : ℕ
  userId : ℕ
deriving DecidableEq, Repr

/-- f"item:{id}" and f"comment:{id}" -/
inductive EventRef where
  | item (n : ℕ)
  | comment (m : ℕ)
deriving DecidableEq, Repr

/-- what goes to the outbox for the points worker -/
structure PointsEvent where
  userId : ℕ
  event : String
  refId : EventRef
deriving DecidableEq, Repr

inductive Tbl where
  | items | likes | favorites | comments | commentLikes | outbox
deriving DecidableEq, Repr

open Tbl

abbrev Row : Tbl → Type
  | .items => ContentItem
  | .likes => ContentLike
  | .favorites => InteractionFavorite
  | .comments => ContentComment
  | .commentLikes => ContentCommentLike
  | .outbox => PointsEvent

/-- entries of the primary keys of the three detail tables -/
inductive Index where
  | like (contentId userId : ℕ)
  | favorite (contentId userId : ℕ)
  | commentLike (commentId userId : ℕ)
deriving DecidableEq, Repr

/-- nothing happens outside the tables -/
inductive Fx : Type → Type

instance : Effects Fx Unit := ⟨fun _ x _ => nomatch x⟩

inductive Exn where
  | contentNotFound
  | commentNotFound
  /-- a unique index refuses the row -/
  | integrityError
  /-- the flush of a changed row object finds no row -/
  | staleData
  /-- a loop of the model has come to its bound; the source's loop goes on -/
  | unfinished
deriving DecidableEq, Repr

abbrev Store := Db Row Index Unit

abbrev State := Snap Row Unit

abbrev Held := Own Row Index

abbrev Op (α : Type) := Prog (Stmt Row Index Fx) Exn α

/-! ## Counters -/

/-- the keys of `_COLUMNS` -/
inductive Field where
  | likeCount | commentCount | bookmarkCount
deriving DecidableEq, Repr

/-- `greatest(col + delta, 0)` -/
def greatest (col : ℕ) (delta : ℤ) : ℕ := (col + delta).toNat

def ContentItem.get (r : ContentItem) : Field → ℕ
  | .likeCount => r.likeCount
  | .commentCount => r.commentCount
  | .bookmarkCount => r.bookmarkCount

def ContentItem.bump (r : ContentItem) (delta : ℤ) : Field → ContentItem
  | .likeCount => { r with likeCount := greatest r.likeCount delta }
  | .commentCount => { r with commentCount := greatest r.commentCount delta }
  | .bookmarkCount => { r with bookmarkCount := greatest r.bookmarkCount delta }

/-- an item that is deleted is written too -/
def writeThroughBump (n : ℕ) (field : Field) (delta : ℤ) : Op ℕ := do
  match ← updateRow items n (fun _ => true) fun r => r.bump delta field with
  | none => Prog.raise .contentNotFound
  | some r => pure (r.get field)

/-- `counters_write_through` is on -/
def bumpContentCounter (n : ℕ) (field : Field) (delta : ℤ) : Op ℕ := writeThroughBump n field delta

def readCount (n : ℕ) (field : Field) : Op ℕ := do
  match (← select items fun m _ => m == n).head? with
  | none => Prog.raise .contentNotFound
  | some q => pure (q.2.get field)

/-- `bump_like_count` -/
def bumpLikeCount (m : ℕ) (delta : ℤ) : Op ℕ := do
  match ← updateRow comments m (fun _ => true) fun c => { c with likeCount := greatest c.likeCount delta } with
  | none => Prog.raise .commentNotFound
  | some c => pure c.likeCount

/-! ## Likes -/

def lockActive (n : ℕ) : Op Unit := do
  match ← lockRow items n fun r => !r.deleted with
  | none => Prog.raise .contentNotFound
  | some _ => pure ()

/-- `create`: a row whose primary key is taken is refused -/
def create (t : Tbl) (k : Index) (clash : Row t → Bool) (r : Row t) : Op Unit := do
  match ← insertUnique t k clash r with
  | none => Prog.raise .integrityError
  | some _ => pure ()

def enqueueEvent (userId : ℕ) (event : String) (refId : EventRef) : Op Unit := do
  let _ ← insert outbox { userId := userId, event := event, refId := refId }
  pure ()

/-- the primary key of `content_likes` -/
def ContentLike.is (n u : ℕ) (r : ContentLike) : Bool := r.contentId == n && r.userId == u

def likeItem (n u : ℕ) : Op ℕ := do
  lockActive n
  match (← select likes fun _ r => r.is n u).head? with
  | some _ => readCount n .likeCount
  | none => do
    create likes (.like n u) (·.is n u) { contentId := n, userId := u }
    enqueueEvent u "like" (.item n)
    bumpContentCounter n .likeCount 1

def unlikeItem (n u : ℕ) : Op ℕ := do
  lockActive n
  match (← select likes fun _ r => r.is n u).head? with
  | none => readCount n .likeCount
  | some q => do
    let _ ← deleteRow likes q.1
    bumpContentCounter n .likeCount (-1)

/-! ## Favourites -/

/-- the primary key of `interaction_favorites` -/
def InteractionFavorite.is (n u : ℕ) (r : InteractionFavorite) : Bool := r.contentId == n && r.userId == u

/-- the stored count of an item that is not deleted -/
def currentBookmarkCount (n : ℕ) : Op ℕ := do
  match (← select items fun m r => m == n && !r.deleted).head? with
  | none => Prog.raise .contentNotFound
  | some q => pure q.2.bookmarkCount

/-- `_bump_bookmark`: unlike the other counters, only of an item that is not deleted -/
def bumpBookmark (n : ℕ) (delta : ℤ) : Op ℕ := do
  match ← updateRow items n (fun r => !r.deleted) fun r => r.bump delta .bookmarkCount with
  | none => Prog.raise .contentNotFound
  | some r => pure r.bookmarkCount

/-- the `FavoriteState` of the answer: whether it is a favourite, and the count -/
def addFavorite (u n : ℕ) : Op (Bool × ℕ) := do
  let count ← currentBookmarkCount n
  match (← select favorites fun _ r => r.is n u).head? with
  | some _ => pure (true, count)
  | none => do
    match ← insertUnique favorites (.favorite n u) (·.is n u) { contentId := n, userId := u } with
    | none => pure (true, count)
    | some _ => do
      let count ← bumpBookmark n 1
      pure (true, count)

/-- DELETE … WHERE over the candidate rows `ns`; the answer is the number of rows deleted -/
def hardDelete (p : InteractionFavorite → Bool) : List ℕ → Op ℕ
  | [] => pure 0
  | m :: ms => do
    let hit ← deleteIf favorites m p
    let k ← hardDelete p ms
    pure (k + if hit then 1 else 0)

def removeFavorite (u n : ℕ) : Op (Bool × ℕ) := do
  let count ← currentBookmarkCount n
  let rows ← select favorites fun _ r => r.is n u
  let removed ← hardDelete (·.is n u) (rows.map Prod.fst)
  if removed = 0 then pure (false, count)
  else do
    let count ← bumpBookmark n (-1)
    pure (false, count)

/-! ## Comments -/

/-- `_assert_comment_in_item`: the comment is not deleted and belongs to the item -/
def assertCommentInItem (n m : ℕ) : Op ContentComment := do
  match (← select comments fun m' c => m' == m && c.contentId == n && !c.deleted).head? with
  | none => Prog.raise .commentNotFound
  | some q => pure q.2

/-- the largest floor of the rows, 0 when there are none -/
def maxFloor (rows : List (ℕ × ContentComment)) : ℕ := rows.foldr (fun q f => max q.2.floorNumber f) 0

/-- `max_floor_number`: deleted comments count -/
def maxFloorNumber (n : ℕ) : Op ℕ := do
  let rows ← select comments fun _ c => c.contentId == n
  pure (maxFloor rows)

/-- the check of `info.parent_id` -/
def checkParent (n : ℕ) : Option ℕ → Op Unit
  | none => pure ()
  | some m => do
    let _ ← assertCommentInItem n m
    pure ()

/-- the answer is the new comment's number -/
def createComment (n u : ℕ) (parentId : Option ℕ) : Op ℕ := do
  lockActive n
  checkParent n parentId
  let floor ← maxFloorNumber n
  let m ← insert comments { contentId := n, userId := u, floorNumber := floor + 1, parentId := parentId }
  let _ ← bumpContentCounter n .commentCount 1
  enqueueEvent u "comment" (.comment m)
  pure m

/-- `soft_delete`: the flush writes `deleted_at` by the primary key alone -/
def softDelete (m : ℕ) : Op Unit := do
  match ← updateRow comments m (fun _ => true) fun c => { c with deleted := true } with
  | none => Prog.raise .staleData
  | some _ => pure ()

def deleteComment (n m : ℕ) : Op Unit := do
  let _ ← assertCommentInItem n m
  softDelete m
  let _ ← bumpContentCounter n .commentCount (-1)
  pure ()

/-- the primary key of `content_comment_likes` -/
def ContentCommentLike.is (m u : ℕ) (r : ContentCommentLike) : Bool := r.commentId == m && r.userId == u

def likeComment (n m u : ℕ) : Op ℕ := do
  lockActive n
  let comment ← assertCommentInItem n m
  match (← select commentLikes fun _ r => r.is m u).head? with
  | some _ => pure comment.likeCount
  | none => do
    create commentLikes (.commentLike m u) (·.is m u) { commentId := m, userId := u }
    enqueueEvent u "like" (.comment m)
    bumpLikeCount m 1

def unlikeComment (n m u : ℕ) : Op ℕ := do
  lockActive n
  let comment ← assertCommentInItem n m
  match (← select commentLikes fun _ r => r.is m u).head? with
  | none => pure comment.likeCount
  | some q => do
    let _ ← deleteRow commentLikes q.1
    bumpLikeCount m (-1)

/-! ## Reconciliation -/

/-- a row of the window query: the stored counts and the counts of the details, in one snapshot -/
structure Window where
  id : ℕ
  current : ℕ × ℕ × ℕ
  real : ℕ × ℕ × ℕ
deriving DecidableEq, Repr

/-- the rows that a statement sees -/
abbrev Rows := (t : Tbl) → List (ℕ × Row t)

/-- the three subqueries: likes, comments that are not deleted, favourites -/
def realCounts (l : Rows) (n : ℕ) : ℕ × ℕ × ℕ :=
  ((l likes).countP fun q => q.2.contentId == n,
    (l comments).countP fun q => q.2.contentId == n && !q.2.deleted,
    (l favorites).countP fun q => q.2.contentId == n)

/-- the next `batchSize` items after `lastId` in the order of the ids -/
def window (uuid : ℕ → ℕ) (batchSize : ℕ) (onlyUnconverged : Bool) (lastId : ℕ) (l : Rows) : List Window :=
  let due := (l items).filter fun q =>
    decide (lastId < uuid q.1) && (!onlyUnconverged || q.2.countsReconciledAt.isNone)
  ((due.insertionSort fun a b => uuid a.1 ≤ uuid b.1).take batchSize).map fun q =>
    ⟨q.1, (q.2.likeCount, q.2.commentCount, q.2.bookmarkCount), realCounts l q.1⟩

def realCommentLikes (l : Rows) (m : ℕ) : ℕ := (l commentLikes).countP fun q => q.2.commentId == m

/-- the rows that meet the condition of the UPDATE in its snapshot, with their subquery -/
def driftedComments (ids : List ℕ) (l : Rows) : List (ℕ × ℕ) :=
  ((l comments).filter fun q => ids.contains q.2.contentId && q.2.likeCount != realCommentLikes l q.1).map
    fun q => (q.1, realCommentLikes l q.1)

/-- a row that had to be waited for is checked again; the subquery keeps its value in the statement's snapshot -/
def correctComments (ids : List ℕ) : List (ℕ × ℕ) → Op ℕ
  | [] => pure 0
  | q :: qs => do
    let hit ← updateRow comments q.1 (fun c => ids.contains c.contentId && c.likeCount != q.2)
      fun c => { c with likeCount := q.2 }
    let k ← correctComments ids qs
    pure (k + if hit.isSome then 1 else 0)

def reconcileCommentLikes (ids : List ℕ) : Op ℕ := do
  if ids.isEmpty then pure 0
  else do
    let rows ← query (driftedComments ids)
    correctComments ids rows

/-- the loop over the rows of a window; the answer is the number of corrections and the rows found converged.
`pending` tells which items have a delta in Redis that is still to be flushed. -/
def correctItems (pending : ℕ → Bool) (now : ℕ) : List Window → Op (ℕ × List ℕ)
  | [] => pure (0, [])
  | row :: rows =>
    if row.real = row.current then do
      let (affected, converged) ← correctItems pending now rows
      pure (affected, row.id :: converged)
    else if pending row.id then correctItems pending now rows
    else do
      let _ ← updateRow items row.id (fun _ => true) fun r =>
        { r with likeCount := row.real.1, commentCount := row.real.2.1, bookmarkCount := row.real.2.2,
                 countsReconciledAt := some now }
      let (affected, converged) ← correctItems pending now rows
      pure (affected + 1, converged)

/-- the settings of a run -/
structure Reconcile where
  uuid : ℕ → ℕ
  pending : ℕ → Bool := fun _ => false
  batchSize : ℕ := 500
  onlyUnconverged : Bool := true
  now : ℕ

/-- the windows of the `while True`, at most `fuel` of them -/
def reconcileWindows (s : Reconcile) : ℕ → ℕ → Op (ℕ × ℕ × List ℕ)
  | 0, _ => Prog.raise .unfinished
  | fuel + 1, lastId => do
    let rows ← query (window s.uuid s.batchSize s.onlyUnconverged lastId)
    match rows.getLast? with
    | none => pure (0, 0, [])
    | some last => do
      let _ ← reconcileCommentLikes (rows.map (·.id))
      let (affected, converged) ← correctItems s.pending s.now rows
      let (scanned', affected', converged') ← reconcileWindows s fuel (s.uuid last.id)
      pure (rows.length + scanned', affected + affected', converged ++ converged')

/-- the UPDATE of the rows found converged -/
def markConverged (now : ℕ) (ns : List ℕ) : Op ℕ :=
  updateAll items (fun _ => true) (fun r => { r with countsReconciledAt := some now }) ns

/-- the answer is `(scanned, affected)` -/
def reconcileCounts (s : Reconcile) (fuel : ℕ) : Op (ℕ × ℕ) := do
  let (scanned, affected, converged) ← reconcileWindows s fuel 0
  let _ ← markConverged s.now converged
  pure (scanned, affected)

/-! ## Requests -/

inductive Request where
  | likeItem (n u : ℕ)
  | unlikeItem (n u : ℕ)
  | addFavorite (u n : ℕ)
  | removeFavorite (u n : ℕ)
  | createComment (n u : ℕ) (parentId : Option ℕ)
  | deleteComment (n m : ℕ)
  | likeComment (n m u : ℕ)
  | unlikeComment (n m u : ℕ)
  | reconcileCounts (s : Reconcile) (fuel : ℕ)

/-- a program whose answer is not looked at -/
def discard {α : Type} (p : Op α) : Op Unit := do
  let _ ← p
  pure ()

def Request.body : Request → Op Unit
  | .likeItem n u => discard (Counters.likeItem n u)
  | .unlikeItem n u => discard (Counters.unlikeItem n u)
  | .addFavorite u n => discard (Counters.addFavorite u n)
  | .removeFavorite u n => discard (Counters.removeFavorite u n)
  | .createComment n u parentId => discard (Counters.createComment n u parentId)
  | .deleteComment n m => Counters.deleteComment n m
  | .likeComment n m u => discard (Counters.likeComment n m u)
  | .unlikeComment n m u => discard (Counters.unlikeComment n m u)
  | .reconcileCounts s fuel => discard (Counters.reconcileCounts s fuel)

def Request.prog (r : Request) : Op Unit := transaction r.body

/-- every session serves one request, over the tables `d` -/
def init (d : Store) (requests : ℕ → Request) : World (Stmt Row Index Fx) Store Exn Unit :=
  start d fun i => (requests i).prog

end LkmService.Counters
