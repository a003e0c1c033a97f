/-
A run of the reconciliation of counts with nobody else at work, with every column that it reads or must not touch.

Modelled from `reconcile_counts` in `content/counters.py` and `reconcile_comment_likes` in `comment/counters.py`, statement by
statement over whole tables; `Counters.Model` has the same statements between those of other sessions, without the columns of
time. Ids are UUIDs of version 7, so that none is nil. `visited` keeps the ids of the windows in their order. `pending` tells
which items have a delta in Redis that is not flushed yet. What `_record_oscillation` counts and logs is left out.
-/
import LkmService.Lib.Uuid
import Mathlib.Data.List.Sort
import Mathlib.Data.Fin.Basic
import Mathlib.Order.Fin.Basic

namespace LkmService.Reconcile

/-! ## Tables -/

abbrev Counts := ℤ × ℤ × ℤ

/-- `counts` are those of likes, comments and bookmarks -/
structure ContentItem where
  id : Uuid
  counts : Counts
  countsReconciledAt : Option ℤ
  updatedAt : ℤ
deriving DecidableEq

structure ContentLike where
  contentId : Uuid
  userId : Uuid

structure InteractionFavorite where
  contentId : Uuid
  userId : Uuid

structure ContentComment where
  id : Uuid
  contentId : Uuid
  likeCount : ℤ
  deletedAt : Option ℤ
deriving DecidableEq

structure ContentCommentLike where
  commentId : Uuid
  userId : Uuid

structure Db where
  items : List ContentItem
  likes : List ContentLike
  favorites : List InteractionFavorite
  comments : List ContentComment
  commentLikes : List ContentCommentLike
  keyed : (items.map ContentItem.id).Nodup
  proper : ∀ r ∈ items, r.id ≠ 0

/-- an UPDATE of the items, whose ids stay -/
def Db.setItems (d : Db) (f : ContentItem → ContentItem) (hf : ∀ r, (f r).id = r.id) : Db where
  items := d.items.map f
  likes := d.likes
  favorites := d.favorites
  comments := d.comments
  commentLikes := d.commentLikes
  keyed := by
    have hids : ContentItem.id ∘ f = ContentItem.id := funext hf
    rw [List.map_map, hids]
    exact d.keyed
  proper := by
    intro r hr
    obtain ⟨q, hq, rfl⟩ := List.mem_map.1 hr
    rw [hf]
    exact d.proper q hq

/-! ## Statements -/

/-- the settings of a run; `now` is the time of its transaction -/
structure Settings where
  batchSize : ℕ := 500
  onlyUnconverged : Bool := true
  pending : Uuid → Bool := fun _ => false
  now : ℤ

/-- the subqueries of the likes, of the comments that are not deleted and of the favourites -/
def realCounts (d : Db) (n : Uuid) : Counts :=
  (d.likes.countP fun r => r.contentId = n, d.comments.countP fun r => r.contentId = n ∧ r.deletedAt = none,
    d.favorites.countP fun r => r.contentId = n)

def realCommentLikes (d : Db) (m : Uuid) : ℤ := d.commentLikes.countP fun r => r.commentId = m

def inScope (s : Settings) (r : ContentItem) : Bool := !s.onlyUnconverged || r.countsReconciledAt.isNone

/-- a row of the window -/
structure Window where
  id : Uuid
  current : Counts
  real : Counts
deriving DecidableEq

def toWindow (d : Db) (r : ContentItem) : Window := { id := r.id, current := r.counts, real := realCounts d r.id }

/-- `ORDER BY id LIMIT batch_size` -/
def window (s : Settings) (lastId : Uuid) (d : Db) : List Window :=
  (((d.items.filter fun r => decide (lastId < r.id) && inScope s r).insertionSort fun a b => a.id ≤ b.id).take s.batchSize).map
    (toWindow d)

/-- `reconcile_comment_likes`: the comments of these items whose count differs -/
def reconcileCommentLikes (ids : List Uuid) (d : Db) : Db :=
  { d with comments := d.comments.map fun c =>
      if c.contentId ∈ ids ∧ c.likeCount ≠ realCommentLikes d c.id then { c with likeCount := realCommentLikes d c.id } else c }

/-- the UPDATE of one row, which keeps `updated_at` -/
def correct (now : ℤ) (row : Window) (d : Db) : Db :=
  d.setItems (fun r => if r.id = row.id then { r with counts := row.real, countsReconciledAt := some now } else r) fun r => by
    split_ifs <;> rfl

/-- the UPDATE of the rows that were found converged, which keeps `updated_at` too -/
def mark (now : ℤ) (ids : List Uuid) (d : Db) : Db :=
  d.setItems (fun r => if r.id ∈ ids then { r with countsReconciledAt := some now } else r) fun r => by split_ifs <;> rfl

/-! ## A run -/

structure Run where
  db : Db
  visited : List Uuid := []
  scanned : ℕ := 0
  affected : ℕ := 0
  corrected : List Uuid := []
  converged : List Uuid := []

/-- one turn of the loop over a window -/
def Run.visit (s : Settings) (run : Run) (row : Window) : Run :=
  if row.real = row.current then { run with converged := run.converged ++ [row.id] }
  else if s.pending row.id then run
  else
    { run with
      db := correct s.now row run.db
      corrected := run.corrected ++ [row.id]
      affected := run.affected + 1 }

/-- the rows of a window that is not empty -/
def Run.batch (s : Settings) (rows : List Window) (run : Run) : Run :=
  let ids := rows.map Window.id
  let run := rows.foldl (Run.visit s) { run with db := reconcileCommentLikes ids run.db }
  { run with visited := run.visited ++ ids, scanned := run.scanned + rows.length }

/-- the `while True`, of at most `fuel` turns -/
def windows (s : Settings) : ℕ → Uuid → Run → Option Run
  | 0, _, _ => none
  | fuel + 1, lastId, run =>
    match (window s lastId run.db).getLast? with
    | none => some run
    | some last => windows s fuel last.id (run.batch s (window s lastId run.db))

/-- `reconcile_counts`; there are never more windows than items, and one that is empty -/
def reconcileCounts (s : Settings) (d : Db) : Option Run :=
  (windows s (d.items.length + 1) 0 { db := d }).map fun run => { run with db := mark s.now run.converged run.db }

end LkmService.Reconcile
