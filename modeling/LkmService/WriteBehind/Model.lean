/-
Write-behind counters: bumps go to Redis, flushes take what has gathered there and write it to the rows.

Modelled from `core/counters.py` (`bump_counter`, `pending_delta`, `drain_counters`) and
`app/modules/content/counters.py` (`bump_content_counter`, `write_through_bump`, `flush_counters`) over the row store of
`Lib.Sql`; Redis is the state beside the tables, each of its commands one step. The number of a row is its id. The keys
that a SCAN yields are a parameter of the flush: any list.

Some fields count what has happened, and no code of the source reads them: `bumped` and `taken` beside the keys of Redis,
and `bumped`, `floored` and `settled` of a row.
-/
import LkmService.Lib.Discipline
import LkmService.WriteBehind.Keys

namespace LkmService.WriteBehind

open Session Sql

/-! ## Redis -/

structure Redis where
  val : Text → Option ℤ := fun _ => none
  /-- what INCRBY has added to a key -/
  bumped : Text → ℤ := fun _ => 0
  /-- the session, the key and the value of every GETDEL that found one -/
  taken : List (ℕ × Text × ℤ) := []

inductive Fx : Type → Type where
  | incrby (key : Text) (delta : ℤ) : Fx Unit
  | get (key : Text) : Fx (Option ℤ)
  | getdel (key : Text) : Fx (Option ℤ)

def Redis.exec {β : Type} (i : ℕ) (x : Fx β) (e : Redis) : β × Redis :=
  match x with
  | .incrby key delta =>
    ((), { e with
      val := Function.update e.val key (some ((e.val key).getD 0 + delta))
      bumped := Function.update e.bumped key (e.bumped key + delta) })
  | .get key => (e.val key, e)
  | .getdel key =>
    match e.val key with
    | none => (none, e)
    | some raw => (some raw, { e with
        val := Function.update e.val key none
        taken := (i, key, raw) :: e.taken })

instance : Effects Fx Redis := ⟨Redis.exec⟩

/-! ## Rows -/

/-- the columns of `_COLUMNS` -/
inductive Field where
  | likeCount
  | commentCount
  | bookmarkCount
deriving DecidableEq, Repr

def Field.text : Field → Text
  | .likeCount => "like_count".toList
  | .commentCount => "comment_count".toList
  | .bookmarkCount => "bookmark_count".toList

/-- the column that a name stands for -/
def column (field : Text) : Option Field := [Field.likeCount, .commentCount, .bookmarkCount].find? fun f => f.text = field

/-- a row of `content_items`. For each column: what bumps have added to it directly, what the floor has added, and the
sessions whose takings have been written to it -/
structure ContentItem where
  count : Field → ℤ
  bumped : Field → ℤ := fun _ => 0
  floored : Field → ℤ := fun _ => 0
  settled : Field → List ℕ := fun _ => []

/-- `greatest(col + delta, 0)` -/
def floorAdd (value delta : ℤ) : ℤ := max (value + delta) 0

def ContentItem.add (field : Field) (delta : ℤ) (r : ContentItem) : ContentItem :=
  { r with
    count := Function.update r.count field (floorAdd (r.count field) delta)
    floored := Function.update r.floored field (r.floored field + (floorAdd (r.count field) delta - (r.count field + delta))) }

inductive Tbl where
  | items
deriving DecidableEq, Repr

open Tbl

abbrev Row : Tbl → Type
  | .items => ContentItem

inductive Exn where
  | valueError
  | contentNotFound
deriving DecidableEq, Repr

abbrev Store := Db Row Empty Redis

abbrev Op (α : Type) := Prog (Stmt Row Empty Fx) Exn α

/-! ## Bumps -/

variable (env : Text)

/-- `counter_key`, which may raise -/
def keyOf (field : Field) (objId : Uuid) : Op Text :=
  match counterKey env field.text objId with
  | none => .raise .valueError
  | some key => pure key

/-- `bump_counter`; `redis` is whether there is a client -/
def bumpCounter (redis : Bool) (field : Field) (objId : Uuid) (delta : ℤ) : Op Bool := do
  let key ← keyOf env field objId
  if redis then do
    perform (.incrby key delta)
    pure true
  else pure false

def pendingDelta (redis : Bool) (field : Field) (objId : Uuid) : Op ℤ := do
  let key ← keyOf env field objId
  if redis then do
    let raw ← perform (.get key)
    pure (raw.getD 0)
  else pure 0

def writeThroughBump (itemId : Uuid) (field : Field) (delta : ℤ) : Op ℤ := do
  match ← updateRow items itemId.val (fun _ => true) fun r =>
    { r.add field delta with bumped := Function.update r.bumped field (r.bumped field + delta) } with
  | none => .raise .contentNotFound
  | some r => pure (r.count field)

def bumpContentCounter (writeThrough redis : Bool) (itemId : Uuid) (field : Field) (delta : ℤ) : Op ℤ := do
  if writeThrough then writeThroughBump itemId field delta
  else
    let rows ← select items fun n _ => decide (n = itemId.val)
    match rows.head? with
    | none => .raise .contentNotFound
    | some (_, r) =>
      if ← bumpCounter env redis field itemId delta then do
        let pending ← pendingDelta env redis field itemId
        pure (r.count field + pending)
      else writeThroughBump itemId field delta

/-! ## Flushes -/

/-- a dictionary of differences, in the order of its first insertions -/
abbrev Drained := List ((Text × Uuid) × ℤ)

/-- `drained[k] = drained.get(k, 0) + delta` -/
def addTo (k : Text × Uuid) (delta : ℤ) : Drained → Drained
  | [] => [(k, delta)]
  | (k', v) :: l => if k' = k then (k', v + delta) :: l else (k', v) :: addTo k delta l

/-- the loop of `drain_counters` over the keys of the SCAN -/
def drainKeys : List Text → Drained → Op Drained
  | [], drained => pure drained
  | key :: keys, drained =>
    match parseCounterKey key with
    | none => drainKeys keys drained
    | some parsed => do
      match ← perform (.getdel key) with
      | none => drainKeys keys drained
      | some delta => drainKeys keys (if delta = 0 then drained else addTo parsed delta drained)

def drainCounters (redis : Bool) (scanned : List Text) : Op Drained := if redis then drainKeys scanned [] else pure []

/-- the loop of `flush_counters` over what has been taken by session `i` -/
def applyDrained (i : ℕ) : Drained → Op ℕ
  | [] => pure 0
  | ((field, itemId), delta) :: l =>
    match column field with
    | none => applyDrained i l
    | some f =>
      if delta = 0 then applyDrained i l
      else do
        let r ← updateRow items itemId.val (fun _ => true) fun r =>
          { r.add f delta with settled := Function.update r.settled f (i :: r.settled f) }
        let applied ← applyDrained i l
        pure (applied + if r.isSome then 1 else 0)

def flushCounters (i : ℕ) (redis : Bool) (scanned : List Text) : Op ℕ := do
  let drained ← drainCounters redis scanned
  applyDrained i drained

/-! ## Transactions -/

inductive Call where
  | bump (writeThrough redis : Bool) (itemId : Uuid) (field : Field) (delta : ℤ)
  | flush (redis : Bool) (scanned : List Text)

def Call.prog (i : ℕ) : Call → Op ℤ
  | .bump writeThrough redis itemId field delta => transaction (bumpContentCounter env writeThrough redis itemId field delta)
  | .flush redis scanned => transaction do
    let applied ← flushCounters i redis scanned
    pure applied

end LkmService.WriteBehind
