/-
Writing the materialized timelines: fan-out of new content, back-fill on a follow, removal on an unfollow.

Modelled from `app/modules/feed/fanout.py` (`fanout_batch`, `_load_state`, `_fanout_item`, `_audience`, `backfill_author`,
`backfill_board`, `remove_author_items`, `remove_board_items`), `feed/tasks.py` (`fanout_feed_items`),
`interaction/service.py` (`follow_user`, `unfollow_user`, `follow_board`, `unfollow_board`) and
`interaction/repository.py` over the row store of `Lib.Sql`.

The two kinds of follows are one table each of the same shape (`Dim`). A content transaction writes rows whose
`created_at` was stamped before. What the cached lists answer is a parameter of a request: `cached`, and `isBigv`.

Some columns are there for the conditions below only, and no code of the source reads or writes them: `since` and
`fetched` of a watermark, `via` of a feed row, and `removal` of a follow.
-/
import LkmService.Lib.Unique
import LkmService.Feed.Timeline

namespace LkmService.Feed

open Session Sql Keyset

/-! ## Tables -/

/-- what is followed: an author or a board -/
inductive Dim where
  | author
  | board
deriving DecidableEq, Repr

def Dim.other : Dim → Dim
  | .author => .board
  | .board => .author

/-- `author_id` or `board_id` of an item -/
def FeedItem.column (it : FeedItem) : Dim → Option ℕ
  | .author => it.authorId
  | .board => it.boardId

/-- a row of one of the sources; `published` is the condition of the source on its status -/
structure Content where
  item : FeedItem
  published : Bool
deriving DecidableEq, Repr

/-- a row of `feed_items`: its user and the columns copied from the item. `via` are the follows through which a fan-out
has chosen the user. -/
structure FeedItemMaterialized where
  userId : ℕ
  item : FeedItem
  via : List Dim := []
deriving DecidableEq, Repr

/-- the watermark of a source. `since` is where it began, `fetched` what the batch that saved it had read. -/
structure FeedFanoutState where
  source : Source
  lastCreatedAt : ℕ
  lastId : Option ℕ := none
  since : ℕ
  fetched : List FeedItem := []
deriving DecidableEq, Repr

/-- what a removal went by: the follows that spare a row, and the rows it found -/
structure Removal where
  keep : List ℕ
  seen : List ℕ
deriving DecidableEq, Repr

/-- a row of `user_follows` or `board_follows`; `deleted` is `deleted_at is not None` -/
structure Follow where
  followerId : ℕ
  targetId : ℕ
  deleted : Bool := false
  removal : Option Removal := none
deriving DecidableEq, Repr

inductive Tbl where
  | content
  | feedItems
  | fanoutState
  | follows (d : Dim)
deriving DecidableEq, Repr

open Tbl

abbrev Row : Tbl → Type
  | .content => Content
  | .feedItems => FeedItemMaterialized
  | .fanoutState => FeedFanoutState
  | .follows _ => Follow

/-- an entry of a primary key or of a unique index -/
inductive Index where
  | content (s : Source) (id : ℕ)
  | feedItem (user : ℕ) (s : Source) (id : ℕ)
  | state (s : Source)
  | follow (d : Dim) (follower target : ℕ)
deriving DecidableEq, Repr

def index : (t : Tbl) → Row t → Option Index
  | .content, c => some (.content c.item.itemType c.item.id)
  | .feedItems, r => some (.feedItem r.userId r.item.itemType r.item.id)
  | .fanoutState, st => some (.state st.source)
  | .follows d, f => some (.follow d f.followerId f.targetId)

inductive Exn where
  /-- the unique index refuses the row -/
  | integrityError
  /-- the flush of a changed row object finds no row -/
  | staleData
  | cannotFollowSelf
  | targetNotFound
deriving DecidableEq, Repr

abbrev Store := Db Row Index Unit

abbrev Op (α : Type) := Prog (Stmt Row Index (Discipline.NoFx Unit)) Exn α

/-- the row goes in unless its entry is there -/
def insertRow (t : Tbl) (k : Index) (r : Row t) : Op (Option ℕ) := insertUnique t k (fun r' => index t r' = some k) r

/-- the flush of a new row object -/
def create (t : Tbl) (k : Index) (r : Row t) : Op ℕ := do
  match ← insertRow t k r with
  | some n => pure n
  | none => .raise .integrityError

/-- the flush of a changed row object: by primary key -/
def update (t : Tbl) (n : ℕ) (f : Row t → Row t) : Op Unit := do
  match ← updateRow t n (fun _ => true) f with
  | some _ => pure ()
  | none => .raise .staleData

/-! ## Content -/

inductive ContentWrite where
  | create (item : FeedItem) (published : Bool)
  | setPublished (s : Source) (id : ℕ) (published : Bool)
deriving DecidableEq, Repr

def contentWrite : ContentWrite → Op Unit
  | .create item published => do
    let _ ← create content (.content item.itemType item.id) ⟨item, published⟩
    pure ()
  | .setPublished s id published => do
    let rows ← select content fun _ c => decide (c.item.itemType = s ∧ c.item.id = id)
    match rows.head? with
    | some (n, _) => update content n fun c => { c with published := published }
    | none => pure ()

def contentWrites : List ContentWrite → Op Unit
  | [] => pure ()
  | w :: ws => do
    contentWrite w
    contentWrites ws

/-! ## Fan-out -/

/-- `after_conditions`: the item comes after the watermark -/
def Beyond (st : FeedFanoutState) (it : FeedItem) : Prop :=
  match st.lastId with
  | none => st.lastCreatedAt < it.createdAt
  | some id => st.lastCreatedAt < it.createdAt ∨ (st.lastCreatedAt = it.createdAt ∧ id < it.id)

instance (st : FeedFanoutState) (it : FeedItem) : Decidable (Beyond st it) := by
  unfold Beyond
  split <;> infer_instance

/-- in ascending order of `(created_at, id)` -/
def ascending (items : List FeedItem) : List FeedItem := items.insertionSort fun a b => a.key ≤ b.key

/-- the source's items after its watermark -/
def fetchAfter (s : Source) (st : FeedFanoutState) (limit : ℕ) : Op (List FeedItem) := do
  let rows ← select content fun _ c => c.published && decide (c.item.itemType = s ∧ Beyond st c.item)
  pure ((ascending (rows.map fun q => q.2.item)).take limit)

/-- `_load_state` -/
def loadState (s : Source) (now : ℕ) : Op (ℕ × FeedFanoutState) := do
  let rows ← select fanoutState fun _ st => decide (st.source = s)
  match rows.head? with
  | some q => pure q
  | none =>
    let st : FeedFanoutState := { source := s, lastCreatedAt := now, since := now }
    let n ← create fanoutState (.state s) st
    pure (n, st)

/-- `list_follower_ids` of an author or a board -/
def listFollowerIds (d : Dim) (target limit : ℕ) : Op (List ℕ) := do
  let rows ← select (follows d) fun _ f => decide (f.targetId = target) && !f.deleted
  pure ((rows.map fun q => q.2.followerId).take limit)

/-- one of the two parts of `_audience`, as a set -/
def audience (cap : ℕ) (d : Dim) (it : FeedItem) : Op (List ℕ) :=
  match it.column d with
  | none => pure []
  | some target => do
    let ids ← listFollowerIds d target (cap + 1)
    pure ids.dedup

/-- a dimension with more followers than the cap is left out -/
def capped (cap : ℕ) (ids : List ℕ) : List ℕ := if cap < ids.length then [] else ids

/-- INSERT … ON CONFLICT DO NOTHING of one row for each of the users -/
def insertRows (row : ℕ → FeedItemMaterialized) : List ℕ → Op Unit
  | [] => pure ()
  | uid :: uids => do
    let r := row uid
    let _ ← insertRow feedItems (.feedItem r.userId r.item.itemType r.item.id) r
    insertRows row uids

/-- `_fanout_item` -/
def fanoutItem (cap : ℕ) (it : FeedItem) : Op Unit := do
  if it.authorId = none ∧ it.boardId = none then pure ()
  else
    let authorFollowers ← audience cap .author it
    let boardFollowers ← audience cap .board it
    let authorFollowers := capped cap authorFollowers
    let boardFollowers := capped cap boardFollowers
    let followers := (authorFollowers ++ boardFollowers).dedup.insertionSort (· ≤ ·)
    insertRows (fun uid =>
      { userId := uid
        item := it
        via := (if uid ∈ authorFollowers then [.author] else []) ++ if uid ∈ boardFollowers then [.board] else [] })
      followers

def fanoutItems (cap : ℕ) : List FeedItem → Op Unit
  | [] => pure ()
  | it :: its => do
    fanoutItem cap it
    fanoutItems cap its

/-- the loop of `fanout_batch` over the sources -/
def fanoutSources (cap limit : ℕ) (now : Source → ℕ) : List Source → Op ℕ
  | [] => pure 0
  | s :: ss => do
    let (n, st) ← loadState s (now s)
    let items ← fetchAfter s st limit
    match items.getLast? with
    | none => fanoutSources cap limit now ss
    | some last => do
      fanoutItems cap items
      update fanoutState n fun r =>
        { r with
          lastCreatedAt := last.createdAt
          lastId := some last.id
          fetched := items }
      let processed ← fanoutSources cap limit now ss
      pure (items.length + processed)

def fanoutBatch (cap limit : ℕ) (now : Source → ℕ) : Op ℕ := fanoutSources cap limit now followSources

/-! ## Follows -/

def getPair (d : Dim) (follower target : ℕ) : Op (Option (ℕ × Follow)) := do
  let rows ← select (follows d) fun _ f => decide (f.followerId = follower ∧ f.targetId = target)
  pure rows.head?

/-- `follow` of the two repositories -/
def follow (d : Dim) (follower target : ℕ) : Op Bool := do
  match ← getPair d follower target with
  | none => do
    let _ ← create (follows d) (.follow d follower target) { followerId := follower, targetId := target }
    pure true
  | some (n, row) =>
    if row.deleted then do
      update (follows d) n fun f => { f with deleted := false }
      pure true
    else pure false

/-- `unfollow` of the two repositories; the number of the row stands for `True` -/
def unfollow (d : Dim) (follower target : ℕ) : Op (Option ℕ) := do
  match ← getPair d follower target with
  | none => pure none
  | some (n, row) =>
    if row.deleted then pure none
    else do
      update (follows d) n fun f => { f with deleted := true }
      pure (some n)

/-- the newest published items of an author or a discussion board -/
def fetchBy (d : Dim) (s : Source) (target limit : ℕ) : Op (List FeedItem) := do
  let authorIds := if d = .author then {target} else ∅
  let boardIds := if d = .board then {target} else ∅
  let rows ← select content fun _ c => c.published && decide (c.item.itemType = s) && conditions s authorIds (some boardIds) c.item
  pure (page FeedItem.key none limit (rows.map fun q => q.2.item))

def fetchAll (d : Dim) (target limit : ℕ) : List Source → Op (List FeedItem)
  | [] => pure []
  | s :: ss => do
    let items ← fetchBy d s target limit
    let rest ← fetchAll d target limit ss
    pure (items ++ rest)

/-- INSERT … ON CONFLICT DO NOTHING of one row for each of the items -/
def insertItems (row : FeedItem → FeedItemMaterialized) : List FeedItem → Op Unit
  | [] => pure ()
  | it :: its => do
    let r := row it
    let _ ← insertRow feedItems (.feedItem r.userId r.item.itemType r.item.id) r
    insertItems row its

/-- `backfill_author`; authors above the cap are left to the reads -/
def backfillAuthor (follower author limit : ℕ) (isBigv : Bool) : Op Unit := do
  if isBigv then pure ()
  else
    let items ← fetchAll .author author limit followSources
    insertItems (fun it =>
      { userId := follower
        item := { it with authorId := some (it.authorId.getD author) } }) items

/-- `backfill_board` -/
def backfillBoard (follower board limit : ℕ) : Op Unit := do
  let items ← fetchBy .board .discussion board limit
  insertItems (fun it => { userId := follower, item := it }) items

/-- the row is of the target, and no follow in `keep` spares it -/
def removable (d : Dim) (follower target : ℕ) (keep : List ℕ) (r : FeedItemMaterialized) : Bool :=
  decide (r.userId = follower ∧ r.item.column d = some target) && !(r.item.column d.other).any (· ∈ keep)

def deleteRows (p : FeedItemMaterialized → Bool) : List ℕ → Op Unit
  | [] => pure ()
  | n :: ns => do
    let _ ← deleteIf feedItems n p
    deleteRows p ns

/-- `remove_author_items` and `remove_board_items`; the answer is the rows that the statement has found -/
def removeItems (d : Dim) (follower target : ℕ) (keep : List ℕ) : Op (List ℕ) := do
  let rows ← select feedItems fun _ r => decide (r.userId = follower ∧ r.item.column d = some target)
  deleteRows (removable d follower target keep)
    ((rows.filter fun q => removable d follower target keep q.2).map Prod.fst)
  pure (rows.map Prod.fst)

/-- `get_following_ids` and `get_followed_board_ids`: what the cache holds, or the rows of the table -/
def followedIds (d : Dim) (user : ℕ) (cached : Option (List ℕ)) : Op (List ℕ) :=
  match cached with
  | some ids => pure ids
  | none => do
    let rows ← select (follows d) fun _ f => decide (f.followerId = user) && !f.deleted
    pure (rows.map fun q => q.2.targetId)

/-- `follow_user` and `follow_board` -/
def followTarget (d : Dim) (follower target : ℕ) (targetExists isBigv : Bool) (backfillLimit : ℕ) : Op Unit := do
  if d = .author ∧ follower = target then .raise .cannotFollowSelf
  else if targetExists = false then .raise .targetNotFound
  else do
    let created ← follow d follower target
    if created = true ∧ 0 < backfillLimit then
      match d with
      | .author => backfillAuthor follower target backfillLimit isBigv
      | .board => backfillBoard follower target backfillLimit
    else pure ()

/-- `unfollow_user` and `unfollow_board` -/
def unfollowTarget (d : Dim) (follower target : ℕ) (cached : Option (List ℕ)) : Op Unit := do
  if d = .author ∧ follower = target then .raise .cannotFollowSelf
  else do
    match ← unfollow d follower target with
    | none => pure ()
    | some n => do
      let keep ← followedIds d.other follower cached
      let seen ← removeItems d follower target keep
      update (follows d) n fun f => { f with removal := some ⟨keep, seen⟩ }

/-! ## Transactions -/

/-- a content transaction, or the task `fanout_feed_items` -/
inductive Job where
  | content (writes : List ContentWrite)
  | fanout (limit : ℕ) (now : Source → ℕ)

def Job.prog (cap : ℕ) : Job → Op ℕ
  | .content writes => transaction do
    contentWrites writes
    pure 0
  | .fanout limit now => transaction (fanoutBatch cap limit now)

inductive Call where
  | job (j : Job)
  | follow (d : Dim) (follower target : ℕ) (targetExists isBigv : Bool) (backfillLimit : ℕ)
  | unfollow (d : Dim) (follower target : ℕ) (cached : Option (List ℕ))

def Call.prog (cap : ℕ) : Call → Op ℕ
  | .job j => j.prog cap
  | .follow d follower target targetExists isBigv backfillLimit => transaction do
    followTarget d follower target targetExists isBigv backfillLimit
    pure 0
  | .unfollow d follower target cached => transaction do
    unfollowTarget d follower target cached
    pure 0

end LkmService.Feed
