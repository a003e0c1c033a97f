/-
The quotas on postings: letters, bottles and wishes of the treehole (`treehole/services/common.py` `_rate_limit`, `letters.py`,
`bottles.py`, `wishes.py`) and the discussions of a board (`content/service.py` `check_post_allowed`, `create_item`,
`delete_item`; `content/repository.py` `count_daily_discussions`), statement by statement over the row store of `Lib.Sql`.

Each creation counts rows and inserts one, without a lock. The clock readings of a request are its own. A letter that is removed
is deleted for good and a content item is marked; here both are marked, and no statement sees a row of the treehole that is.

`checkedAt` and `counted` are no columns: they keep of a row the time of the count before it and what was counted. The other
columns are left out, with what a deletion takes along from other tables. What `check_post_allowed` looks at before the count, and
what can stop a creation after it, is `refused` of the request. Times are in microseconds.
-/
import LkmService.Lib.Quota
import LkmService.Lib.Text

namespace LkmService.Quotas

open Session Sql Sql.Discipline

/-! ## Rows -/

inductive Kind where
  | letter | bottle | wish
deriving DecidableEq

inductive Tbl where
  /-- `treehole_letters`, `treehole_bottles`, `treehole_wishes` -/
  | treehole (kind : Kind)
  | items
deriving DecidableEq

open Tbl

inductive ContentType where
  | discussion | article | columnPost | blogPost | qa
deriving DecidableEq

structure Posting where
  ownerId : String
  createdAt : ℤ
  deleted : Bool := false
  checkedAt : ℤ
  counted : ℕ
deriving DecidableEq

structure ContentItem where
  authorId : ℕ
  boardId : ℕ
  contentType : ContentType
  createdAt : ℤ
  deleted : Bool := false
  checkedAt : ℤ
  /-- none where nothing is counted -/
  counted : Option ℕ
deriving DecidableEq

abbrev Row : Tbl → Type
  | .treehole _ => Posting
  | .items => ContentItem

inductive Index
deriving DecidableEq

inductive Exn where
  | badRequest
  | invalidInput
  | notFound
  | forbidden
  | dailyPostLimitReached
  | contentNotFound
  /-- raised by what is not modelled -/
  | refused
deriving DecidableEq

abbrev Store := Db Row Index Unit

abbrev Op (α : Type) := Prog (Stmt Row Index (NoFx Unit)) Exn α

/-! ## The treehole -/

def minute : ℤ := 60000000

/-- `_rate_limit`: the answer is what has been counted -/
def rateLimit (kind : Kind) (owner : String) (now : ℤ) (limit : ℕ) : Op ℕ := do
  let rows ← select (treehole kind) fun _ r => !r.deleted && (decide (r.ownerId = owner) && decide (now - minute < r.createdAt))
  if limit ≤ rows.length then Prog.raise .badRequest else pure rows.length

/-- the default of `_rate_limit` -/
def rateDefault : ℕ := 3

def add (kind : Kind) (owner : String) (checkedAt createdAt : ℤ) (counted : ℕ) : Op Unit := do
  let _ ← insert (treehole kind) { ownerId := owner, createdAt := createdAt, checkedAt := checkedAt, counted := counted }
  pure ()

/-- the times of a form as `_dt` gives them -/
structure LetterInput where
  content : Text
  scheduledAt : Option ℤ := none
  sealUntil : Option ℤ := none

/-- not before `t` -/
def isBy (t : ℤ) (time : Option ℤ) : Bool := time.any fun s => decide (s ≤ t)

def createLetter (body : LetterInput) (owner : String) (checkedAt now : ℤ) : Op Unit := do
  let counted ← rateLimit .letter owner checkedAt rateDefault
  if isBy now body.scheduledAt then Prog.raise .invalidInput
  else if isBy (body.scheduledAt.getD now) body.sealUntil then Prog.raise .invalidInput
  else if Text.strip body.content = [] then Prog.raise .invalidInput
  else add .letter owner checkedAt now counted

def createBottle (text : Text) (owner : String) (checkedAt now : ℤ) : Op Unit := do
  let counted ← rateLimit .bottle owner checkedAt rateDefault
  if Text.strip text = [] then Prog.raise .invalidInput else add .bottle owner checkedAt now counted

def createWish (text : Text) (owner : String) (checkedAt now : ℤ) : Op Unit := do
  let counted ← rateLimit .wish owner checkedAt rateDefault
  if Text.strip text = [] then Prog.raise .invalidInput else add .wish owner checkedAt now counted

/-- DELETE by the primary key -/
def delete (kind : Kind) (n : ℕ) : Op Unit := do
  let _ ← updateRow (treehole kind) n (fun r => !r.deleted) fun r => { r with deleted := true }
  pure ()

/-- bottles are not removed; `foreign` is the answer to who does not own the posting -/
def remove (kind : Kind) (foreign : Exn) (n : ℕ) (owner : String) : Op Unit := do
  match (← select (treehole kind) fun m r => decide (m = n) && !r.deleted).head? with
  | none => Prog.raise .notFound
  | some q => if q.2.ownerId = owner then delete kind n else Prog.raise foreign

def removeLetter (n : ℕ) (owner : String) : Op Unit := remove .letter .forbidden n owner

def removeWish (n : ℕ) (owner : String) : Op Unit := remove .wish .notFound n owner

/-! ## Content items -/

/-- the types whose creation is checked -/
def ContentType.isCommunity : ContentType → Bool
  | .article => false
  | _ => true

/-- `count_daily_discussions` -/
def countDailyDiscussions (author board : ℕ) (since : ℤ) : Op ℕ := do
  let rows ← select items fun _ r => !r.deleted && (decide (r.authorId = author) && decide (r.boardId = board) &&
    decide (r.contentType = .discussion) && decide (since ≤ r.createdAt))
  pure rows.length

/-- the limits of the boards, 0 for none -/
abbrev Limits := ℕ → ℕ

variable (limits : Limits)

/-- `check_post_allowed`, with what it has counted -/
def checkPostAllowed (refused : Bool) (board user : ℕ) (now : ℤ) : Op (Option ℕ) :=
  if refused then Prog.raise .refused
  else if limits board = 0 then pure none
  else do
    let count ← countDailyDiscussions user board (now - now % Quota.day)
    if limits board ≤ count then Prog.raise .dailyPostLimitReached else pure (some count)

structure ItemForm where
  contentType : ContentType
  board : ℕ
  refused : Bool := false
  /-- by what follows the check of the board -/
  refusedLater : Bool := false

def addItem (f : ItemForm) (author : ℕ) (checkedAt createdAt : ℤ) (counted : Option ℕ) : Op Unit :=
  if f.refusedLater then Prog.raise .refused
  else do
    let _ ← insert items
      { authorId := author, boardId := f.board, contentType := f.contentType, createdAt := createdAt, checkedAt := checkedAt,
        counted := counted }
    pure ()

def createItem (f : ItemForm) (author : ℕ) (checkedAt createdAt : ℤ) : Op Unit := do
  let counted ← if f.contentType.isCommunity then checkPostAllowed limits f.refused f.board author checkedAt else pure none
  addItem f author checkedAt createdAt counted

/-- `delete_item`; the flush writes `deleted_at` by the primary key alone -/
def deleteItem (n : ℕ) : Op Unit := do
  match (← select items fun m r => decide (m = n) && !r.deleted).head? with
  | none => Prog.raise .contentNotFound
  | some _ => do
    let _ ← updateRow items n (fun _ => true) fun r => { r with deleted := true }
    pure ()

/-! ## Requests -/

/-- the two readings of the clock of a creation -/
structure Readings where
  checkedAt : ℤ
  createdAt : ℤ
  ordered : checkedAt ≤ createdAt

inductive Request where
  | createLetter (body : LetterInput) (owner : String) (at_ : Readings)
  | createBottle (text : Text) (owner : String) (at_ : Readings)
  | createWish (text : Text) (owner : String) (at_ : Readings)
  | removeLetter (n : ℕ) (owner : String)
  | removeWish (n : ℕ) (owner : String)
  | createItem (f : ItemForm) (author : ℕ) (at_ : Readings)
  | deleteItem (n : ℕ)

def Request.body : Request → Op Unit
  | .createLetter body owner at_ => Quotas.createLetter body owner at_.checkedAt at_.createdAt
  | .createBottle text owner at_ => Quotas.createBottle text owner at_.checkedAt at_.createdAt
  | .createWish text owner at_ => Quotas.createWish text owner at_.checkedAt at_.createdAt
  | .removeLetter n owner => Quotas.removeLetter n owner
  | .removeWish n owner => Quotas.removeWish n owner
  | .createItem f author at_ => Quotas.createItem limits f author at_.checkedAt at_.createdAt
  | .deleteItem n => Quotas.deleteItem n

def Request.prog (r : Request) : Op Unit := transaction (r.body limits)

/-- every session serves one request, over the tables `d` -/
def init (d : Store) (requests : ℕ → Request) : World (Stmt Row Index (NoFx Unit)) Store Exn Unit :=
  start d fun i => (requests i).prog limits

end LkmService.Quotas
