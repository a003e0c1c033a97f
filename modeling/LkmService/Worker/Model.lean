/-
The consumers of the message bus: `core/worker.py` (`_dispatch_with_dedup`, `_on_payload`) and
`core/db/event_processed.py`.

A session is one delivery of a message to one subscription. The handler is arbitrary: it runs any number of statements of
its own and then returns or raises. What the deliveries do is noted in a log: the calls and the ends of handlers, the
skipped events, and whether the message was acknowledged.

The hash function of the advisory lock is an argument (`Env`).
-/
import LkmService.Lib.Sql

namespace LkmService.Worker

open Session Sql

/-! ## Tables and notes -/

/-- a row of `event_processed`; its primary key is both columns -/
@[ext] structure EventProcessed where
  scope : String
  eventId : String
deriving DecidableEq, Repr

inductive Tbl where
  | processed
deriving DecidableEq, Repr

open Tbl

abbrev Row : Tbl → Type
  | .processed => EventProcessed

/-- the advisory locks, and the entries of the primary key -/
inductive Key where
  | lock (h : ℤ)
  | entry (scope eventId : String)
deriving DecidableEq, Repr

inductive Mark where
  | start
  | success
  | failure
  | skip
  | ack
  | nack
deriving DecidableEq, Repr

/-- a note of a delivery; `key` is none for a message without an event id -/
structure Note where
  mark : Mark
  session : ℕ
  scope : String
  key : Option String
deriving DecidableEq, Repr

structure Ext where
  log : List Note := []

inductive Fx : Type → Type where
  /-- a statement of the handler's own -/
  | work : Fx Unit
  | note (m : Mark) (scope : String) (key : Option String) : Fx Unit

instance : Effects Fx Ext where
  exec i x e :=
    match x with
    | .work => ((), e)
    | .note m scope key => ((), { log := ⟨m, i, scope, key⟩ :: e.log })

structure Env where
  hashtextextended : String → ℤ

/-- IntegrityError of the insert, and whatever the handler raises -/
inductive Exn where
  | integrityError
  | handlerError
deriving DecidableEq, Repr

abbrev Store := Db Row Key Ext

abbrev Op (α : Type) := Prog (Stmt Row Key Fx) Exn α

/-! ## Deliveries -/

/-- a delivery of a message to the subscription `scope`; `eventId` is `payload.get("event_id")` when that is a text,
`work` and `ok` say how many statements the handler runs and whether it returns -/
structure Delivery where
  scope : String
  eventId : Option String
  work : ℕ
  ok : Bool

/-- the event id that is deduplicated: an empty one is not -/
def Delivery.key (d : Delivery) : Option String :=
  match d.eventId with
  | some e => if e = "" then none else some e
  | none => none

def note (m : Mark) (d : Delivery) : Op Unit := perform (.note m d.scope d.key)

def work : ℕ → Op Unit
  | 0 => pure ()
  | n + 1 => do
    perform .work
    work n

def handler (d : Delivery) : Op Unit := do
  note .start d
  work d.work
  if d.ok then note .success d
  else do
    note .failure d
    Prog.raise .handlerError

/-- `already_processed` -/
def alreadyProcessed (scope eventId : String) : Op Bool := do
  let rows ← select processed fun _ r => r.scope == scope && r.eventId == eventId
  pure !rows.isEmpty

/-- `record_processed`: it ends the transaction of its session -/
def recordProcessed (scope eventId : String) : Op Bool := do
  match ← insertUnique processed (.entry scope eventId) (fun r => r.scope == scope && r.eventId == eventId)
      ⟨scope, eventId⟩ with
  | some _ => do
    commit
    pure true
  | none => do
    rollback
    if ← alreadyProcessed scope eventId then pure false else Prog.raise .integrityError

/-- `try: … finally: rollback` -/
def closing (p : Op Unit) : Op Unit := p.andThen fun r => (rollback : Op Unit).andThen fun _ => .done r

/-- the key of the advisory lock of an event in a scope -/
def Env.lock (env : Env) (scope eventId : String) : Key := .lock (env.hashtextextended (scope ++ ":" ++ eventId))

/-- `_dispatch_with_dedup` -/
def dispatchWithDedup (env : Env) (d : Delivery) : Op Unit :=
  match d.key with
  | none => handler d
  | some e => closing do
    lockKey (env.lock d.scope e)
    if ← alreadyProcessed d.scope e then do
      note .skip d
      rollback
    else do
      handler d
      let _ ← recordProcessed d.scope e

/-- a delivery is acknowledged when the dispatch returns, and negatively acknowledged when it raises -/
def consume (env : Env) (d : Delivery) : Op Unit :=
  (dispatchWithDedup env d).andThen fun
    | .ok _ => note .ack d
    | .error _ => note .nack d

/-- all deliveries, before the first of them -/
def init (env : Env) (deliveries : ℕ → Delivery) : World (Stmt Row Key Fx) Store Exn Unit :=
  start { ext := {} } fun i => consume env (deliveries i)

end LkmService.Worker
