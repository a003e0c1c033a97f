/-
The creation of notifications and their marking as read (`notification/service.py` `create_notification`, `mark_read`;
`notification/repository.py` `lock_aggregate_key`, `find_recent_unread`), statement by statement over the row store of `Lib.Sql`.

A transaction creates one or more notifications, as the handler of an event does, or marks some as read. The number of a row is its
id. Every reading of the clock is a step of its own; `ext` is the last one. The objects of a session that it has loaded or added
are not read again: a SELECT gives back the object that there is (`loaded`). The payloads of the callers have no field `count`, and
so it stands beside the other fields. Times are in microseconds.

`events` is no table: it keeps the calls, each with the notification that it has come into.
-/
import Mathlib.Data.List.Sort
import LkmService.Lib.Discipline
import LkmService.Lib.OrderedDict

namespace LkmService.Notifications

open Session Sql

variable {V : Type}

/-! ## Rows -/

/-- what is aggregated -/
structure Key where
  userId : ℕ
  type : String
  actorId : Option ℕ
  targetId : Option ℕ
deriving DecidableEq

/-- the fields of a payload -/
abbrev Payload (V : Type) := List (String × V)

structure Notification (V : Type) where
  key : Key
  payload : Payload V
  /-- `payload["count"]` -/
  count : Option ℕ := none
  readAt : Option ℤ := none
  createdAt : ℤ
deriving DecidableEq

structure Event (V : Type) where
  key : Key
  payload : Payload V
  into : ℕ
deriving DecidableEq

inductive Tbl where
  | notifications | events
deriving DecidableEq

open Tbl

abbrev Row (V : Type) : Tbl → Type
  | .notifications => Notification V
  | .events => Event V

inductive Exn where
  /-- a flush whose UPDATE finds no row -/
  | staleData
  /-- raised by what comes after -/
  | refused
deriving DecidableEq

/-- the clock shows `t` -/
inductive Clock : Type → Type where
  | read (t : ℤ) : Clock ℤ

instance : Effects Clock ℤ where
  exec := fun
    | _, .read t, _ => (t, t)

/-- the keys are those of the advisory locks -/
abbrev Store (V : Type) := Db (Row V) ℕ ℤ

abbrev Op (V α : Type) := Prog (Stmt (Row V) ℕ Clock) Exn α

/-! ## Creation -/

/-- the arguments of `create_notification`; `now` and `later` are its readings of the clock -/
structure Call (V : Type) where
  key : Key
  payload : Option (Payload V) := none
  /-- each field once -/
  keyed : OrderedDict.Keyed (payload.getD [])
  window : ℤ
  now : ℤ
  later : ℤ

def Call.fields (c : Call V) : Payload V := c.payload.getD []

def Call.aggregates (c : Call V) : Bool := c.key.actorId.isSome && c.key.targetId.isSome && decide (0 < c.window)

/-- the condition of `find_recent_unread` -/
def candidate (key : Key) (since : ℤ) (r : Notification V) : Bool :=
  decide (r.key = key) && r.readAt.isNone && decide (since ≤ r.createdAt)

/-- `ORDER BY created_at DESC, id DESC` -/
def newer (a b : ℕ × Notification V) : Prop := b.2.createdAt < a.2.createdAt ∨ a.2.createdAt = b.2.createdAt ∧ b.1 ≤ a.1

instance : DecidableRel (newer (V := V)) := fun _ _ => inferInstanceAs (Decidable (_ ∨ _))

/-- LIMIT 1 FOR UPDATE over the candidate rows; one that is found changed after a wait is passed over -/
def lockNext (p : Notification V → Bool) : List ℕ → Op V (Option (ℕ × Notification V))
  | [] => pure none
  | n :: ns => do
    match ← lockRow notifications n p with
    | some r => pure (some (n, r))
    | none => lockNext p ns

def findRecentUnread (key : Key) (since : ℤ) : Op V (Option (ℕ × Notification V)) := do
  let l ← select notifications fun _ r => candidate key since r
  lockNext (candidate key since) ((l.insertionSort newer).map Prod.fst)

/-- what the call makes of the notification that it finds -/
def Call.merged (c : Call V) (now : ℤ) (existing r : Notification V) : Notification V :=
  { r with payload := OrderedDict.update existing.payload c.fields, count := some (existing.count.getD 1 + 1), createdAt := now }

def mergeInto (c : Call V) (now : ℤ) (n : ℕ) (existing : Notification V) : Op V (ℕ × Notification V) := do
  match ← updateRow notifications n (fun _ => true) (c.merged now existing) with
  | none => Prog.raise .staleData
  | some _ => do
    let _ ← insert events { key := c.key, payload := c.fields, into := n }
    pure (n, c.merged now existing existing)

def Call.new (c : Call V) (now : ℤ) : Notification V := { key := c.key, payload := c.fields, createdAt := now }

def add (c : Call V) : Op V (ℕ × Notification V) := do
  let now ← perform (.read c.later)
  let n ← insert notifications (c.new now)
  let _ ← insert events { key := c.key, payload := c.fields, into := n }
  pure (n, c.new now)

/-- the objects of a session -/
abbrev Loaded (V : Type) := List (ℕ × Notification V)

variable (digest : Key → ℕ)

/-- the answer is the notification as the session has it -/
def createNotification (loaded : Loaded V) (c : Call V) : Op V (ℕ × Notification V) :=
  if c.aggregates then do
    lockKey (digest c.key)
    let now ← perform (.read c.now)
    match ← findRecentUnread c.key (now - c.window) with
    | some q => mergeInto c now q.1 ((loaded.lookup q.1).getD q.2)
    | none => add c
  else add c

def createAll (loaded : Loaded V) : List (Call V) → Op V Unit
  | [] => pure ()
  | c :: calls => do
    let q ← createNotification digest loaded c
    createAll (q :: loaded) calls

/-! ## Reading -/

def markRead (userId : ℕ) (ids : List ℕ) (all_ : Bool) (now : ℤ) : Op V ℕ :=
  if !all_ && ids.isEmpty then pure 0
  else do
    let p : Notification V → Bool := fun r => decide (r.key.userId = userId) && r.readAt.isNone
    let l ← select notifications fun n r => p r && (all_ || decide (n ∈ ids))
    updateAll notifications p (fun r => { r with readAt := some now }) (l.map Prod.fst)

/-! ## Requests -/

inductive Request (V : Type) where
  | create (calls : List (Call V)) (fails : Bool)
  | markRead (userId : ℕ) (ids : List ℕ) (all_ : Bool) (now : ℤ)

def Request.body : Request V → Op V Unit
  | .create calls fails => do
    createAll digest [] calls
    if fails then Prog.raise .refused else pure ()
  | .markRead userId ids all_ now => do
    let _ ← Notifications.markRead userId ids all_ now
    pure ()

def Request.prog (r : Request V) : Op V Unit := transaction (r.body digest)

/-- every session serves one request -/
def init (d : Store V) (requests : ℕ → Request V) : World (Stmt (Row V) ℕ Clock) (Store V) Exn Unit :=
  start d fun i => (requests i).prog digest

end LkmService.Notifications
