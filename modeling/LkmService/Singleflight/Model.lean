/-
The requests that one process merges by key (`core/singleflight.py`).

A section under `_guard` holds no `await`, so it is one step, and so is everything that a caller does between two
awaits: it joins (`join`) up to its `await` on the task, and it leaves in the `finally` when the task has ended (`resume`)
or when it is cancelled (`cancel`). The loader runs in a task of its own, which ends at any time (`finish`); its done
callback runs in a later pass of the event loop (`callback`), and any other step may come between the two.

`now` counts the steps and is no data of the program; it says whether a loader was running after a caller joined.
-/
import Mathlib.Data.List.Basic
import Mathlib.Logic.Function.Basic
import Mathlib.Tactic.Common
import Mathlib.Data.Int.Basic

namespace LkmService.Singleflight

/-! ## Model -/

/-- how a task ends -/
inductive Outcome (Value Error : Type) where
  | value (v : Value)
  | raised (e : Error)
  | cancelled
deriving DecidableEq

abbrev FlightId := ℕ

abbrev CallerId := ℕ

structure Flight (Key Loader Value Error : Type) where
  key : Key
  /-- what the leader's task runs -/
  loader : Loader
  refs : ℤ
  /-- when the task ended, and how -/
  finished : Option (ℕ × Outcome Value Error)
  /-- the done callback is still to run -/
  callbackDue : Bool
deriving DecidableEq

/-- a caller at its `await` -/
structure Waiting (Key : Type) where
  caller : CallerId
  key : Key
  flight : FlightId
  joined : ℕ
deriving DecidableEq

/-- what `run` ended with -/
inductive Got (Value Error : Type) where
  | outcome (o : Outcome Value Error)
  /-- the caller itself was cancelled -/
  | cancelled
  /-- `on_role` raised -/
  | roleRaised (e : Error)
deriving DecidableEq

structure Return (Key Value Error : Type) extends Waiting Key where
  got : Got Value Error
deriving DecidableEq

structure State (Key Loader Value Error : Type) where
  now : ℕ
  nextFlight : FlightId
  nextCaller : CallerId
  flights : FlightId → Option (Flight Key Loader Value Error)
  /-- `_flights` -/
  table : Key → Option FlightId
  waiting : List (Waiting Key)
  log : List (Return Key Value Error)

inductive Op (Key Loader Value Error : Type) where
  | join (key : Key) (loader : Loader) (roleError : Option Error)
  | finish (f : FlightId) (o : Outcome Value Error)
  | callback (f : FlightId)
  | resume (c : CallerId)
  | cancel (c : CallerId)

variable {Key Loader Value Error : Type} [DecidableEq Key]

def init : State Key Loader Value Error := ⟨0, 0, 0, fun _ => none, fun _ => none, [], []⟩

/-- `_flights.pop(key, None)` if the entry is this flight -/
def pop (table : Key → Option FlightId) (key : Key) (f : FlightId) : Key → Option FlightId :=
  if table key = some f then Function.update table key none else table

/-- the `finally` of `run`: the caller lets go of its flight -/
def leave (s : State Key Loader Value Error) (w : Waiting Key) (got : Got Value Error) : State Key Loader Value Error :=
  match s.flights w.flight with
  | none => s
  | some flight =>
    let refs := flight.refs - 1
    { s with
      flights := Function.update s.flights w.flight (some { flight with refs := refs })
      table := if refs ≤ 0 ∧ flight.finished.isSome then pop s.table w.key w.flight else s.table
      waiting := s.waiting.filter (·.caller ≠ w.caller)
      log := s.log ++ [⟨w, got⟩] }

/-- the section under `_guard`: the flight of the key, a new one if there is none -/
def enter (s : State Key Loader Value Error) (key : Key) (loader : Loader) : State Key Loader Value Error × FlightId :=
  match s.table key with
  | some f => (s, f)
  | none =>
    ({ s with
        nextFlight := s.nextFlight + 1
        flights := Function.update s.flights s.nextFlight (some ⟨key, loader, 0, none, false⟩)
        table := Function.update s.table key (some s.nextFlight) }, s.nextFlight)

/-- the caller is counted and waits -/
def hold (s : State Key Loader Value Error) (key : Key) (f : FlightId) : State Key Loader Value Error :=
  { s with
    nextCaller := s.nextCaller + 1
    flights := Function.update s.flights f ((s.flights f).map fun flight => { flight with refs := flight.refs + 1 })
    waiting := s.waiting ++ [⟨s.nextCaller, key, f, s.now⟩] }

/-- `on_role` may raise, and a task that is done is not waited for -/
def join (s : State Key Loader Value Error) (key : Key) (loader : Loader) (roleError : Option Error) :
    State Key Loader Value Error :=
  let (entered, f) := enter s key loader
  let held := hold entered key f
  match roleError, (held.flights f).bind Flight.finished with
  | some e, _ => leave held ⟨s.nextCaller, key, f, s.now⟩ (.roleRaised e)
  | none, some (_, o) => leave held ⟨s.nextCaller, key, f, s.now⟩ (.outcome o)
  | none, none => held

def step (s : State Key Loader Value Error) (op : Op Key Loader Value Error) : State Key Loader Value Error :=
  let s := { s with now := s.now + 1 }
  match op with
  | .join key loader roleError => join s key loader roleError
  | .finish f o =>
    match s.flights f with
    | some ⟨key, loader, refs, none, _⟩ =>
      { s with flights := Function.update s.flights f (some ⟨key, loader, refs, some (s.now, o), true⟩) }
    | _ => s
  | .callback f =>
    -- `_on_task_done`
    match s.flights f with
    | some ⟨key, loader, refs, finished, true⟩ =>
      { s with
        flights := Function.update s.flights f (some ⟨key, loader, refs, finished, false⟩)
        table := if refs ≤ 0 then pop s.table key f else s.table }
    | _ => s
  | .resume c =>
    match s.waiting.find? (·.caller = c) with
    | none => s
    | some w =>
      match (s.flights w.flight).bind Flight.finished with
      | none => s
      | some (_, o) => leave s w (.outcome o)
  | .cancel c =>
    match s.waiting.find? (·.caller = c) with
    | none => s
    | some w => leave s w .cancelled

def run (s : State Key Loader Value Error) (ops : List (Op Key Loader Value Error)) : State Key Loader Value Error :=
  ops.foldl step s

end LkmService.Singleflight
