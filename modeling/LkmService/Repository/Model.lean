/-
The versioned update of the repositories (`core/db/repository.py` `update_cas`, `_version_snapshot`), statement by statement over
the row store of `Lib.Sql`, with the object of the session that it is called on.

The session does not flush on its own: what has been assigned to the object is written by the flush within `update_cas`, which
comes before the look at the number of rows, or by the commit. A conflict is raised and caught by the endpoint, so here it is an
outcome. The models that have a version keep it out of reach of everything else, and so it is not among the columns; neither is
the key.

`history` is no column: it keeps the writes that have made the row what it is.
-/
import LkmService.Lib.Discipline
import LkmService.Lib.Versioned

namespace LkmService.Repository

open Session Sql Sql.Discipline Versions

variable {Col Val : Type} [DecidableEq Col] [DecidableEq Val]

/-! ## Rows and objects -/

/-- the columns that a statement names; of two values of one column the first counts -/
abbrev Values (Col Val : Type) := List (Col × Val)

/-- the columns after an UPDATE -/
def overlay (values : Values Col Val) (old : Col → Val) : Col → Val := fun c => (values.lookup c).getD (old c)

structure Record (Col Val : Type) where
  attrs : Versioned (Col → Val)
  history : List (Edit (Values Col Val)) := []

def Record.write (e : Edit (Values Col Val)) (r : Record Col Val) : Record Col Val where
  attrs := e.apply overlay r.attrs
  history := r.history ++ [e]

/-- a loaded object: the row as it was read, and what has been assigned since -/
structure Obj (Col Val : Type) where
  loaded : Record Col Val
  pending : Values Col Val := []

def Obj.get (obj : Obj Col Val) (c : Col) : Val := overlay obj.pending obj.loaded.attrs.value c

/-- an assignment of the loaded value is no change -/
def Obj.set (c : Col) (v : Val) (obj : Obj Col Val) : Obj Col Val where
  loaded := obj.loaded
  pending :=
    (if v = obj.loaded.attrs.value c then [] else [(c, v)]) ++ obj.pending.filter fun p => decide (p.1 ≠ c)

inductive Tbl where
  | rows
deriving DecidableEq

open Tbl

abbrev Row (Col Val : Type) (_ : Tbl) : Type := Record Col Val

inductive Index
deriving DecidableEq

inductive Exn where
  | notFound
  /-- a flush whose UPDATE finds no row, and a refresh of a row that is gone -/
  | staleData
  /-- raised by what comes after -/
  | refused
deriving DecidableEq

abbrev Store (Col Val : Type) := Db (Row Col Val) Index Unit

abbrev Op (Col Val α : Type) := Prog (Stmt (Row Col Val) Index (NoFx Unit)) Exn α

/-! ## The call -/

/-- a call of `update_cas`; the stamps are the values of the columns that every UPDATE sets unless it names them -/
structure Call (Col Val : Type) where
  expectedVersion : Option ℕ
  values : Values Col Val
  stamp : Values Col Val := []
  flushStamp : Values Col Val := []

def Call.edit (i : ℕ) (c : Call Col Val) : Edit (Values Col Val) where
  author := i
  kind := .compareAndSet c.expectedVersion
  delta := c.values ++ c.stamp

/-- what a flush writes -/
def flushed (i : ℕ) (obj : Obj Col Val) (stamp : Values Col Val) : List (Edit (Values Col Val)) :=
  if obj.pending.isEmpty then [] else [{ author := i, kind := .plain, delta := obj.pending ++ stamp }]

/-- what a conflict reports -/
structure Current (Col Val : Type) where
  id : ℕ
  version : Option ℕ
  fields : List (Col × Val)
deriving DecidableEq

inductive Outcome (Col Val : Type) where
  | updated
  | conflict (current : Current Col Val)
deriving DecidableEq

/-- what a repository declares, and what the mapper does -/
structure Mapping (Col Val : Type) where
  versionSnapshotFields : List Col
  /-- keys and times become texts -/
  jsonable : Val → Val
  /-- what the UPDATE of a call makes of the attributes loaded, before they are read again -/
  synchronize : Call Col Val → Record Col Val → Record Col Val

def rowOf (n : ℕ) : Op Col Val (Option (Record Col Val)) := do
  let l ← select rows fun m _ => decide (m = n)
  pure (l.head?.map Prod.snd)

/-- `get_or_raise` -/
def getOrRaise (n : ℕ) : Op Col Val (Obj Col Val) := do
  match ← rowOf n with
  | none => Prog.raise .notFound
  | some r => pure { loaded := r }

/-- the object is loaded anew -/
def refresh (n : ℕ) : Op Col Val (Obj Col Val) := do
  match ← rowOf n with
  | none => Prog.raise .staleData
  | some r => pure { loaded := r }

/-- by the primary key alone -/
def flush (i n : ℕ) (obj : Obj Col Val) (stamp : Values Col Val) : Op Col Val (Obj Col Val) :=
  match flushed i obj stamp with
  | [] => pure obj
  | e :: _ => do
    match ← updateRow rows n (fun _ => true) (Record.write e) with
    | none => Prog.raise .staleData
    | some _ => pure { loaded := obj.loaded.write e }

variable (m : Mapping Col Val)

def Mapping.current (n : ℕ) (r : Record Col Val) : Current Col Val where
  id := n
  version := some r.attrs.version
  fields := m.versionSnapshotFields.map fun c => (c, m.jsonable (r.attrs.value c))

/-- `_version_snapshot`; the row is read into the object -/
def versionSnapshot (n : ℕ) (obj : Obj Col Val) : Op Col Val (Current Col Val × Obj Col Val) := do
  match ← rowOf n with
  | none => pure ({ id := n, version := none, fields := [] }, obj)
  | some r => pure (m.current n r, { loaded := r })

def updateCas (i n : ℕ) (obj : Obj Col Val) (c : Call Col Val) : Op Col Val (Outcome Col Val × Obj Col Val) := do
  let hit ← updateRow rows n (fun r => c.expectedVersion.all fun v => decide (r.attrs.version = v)) (Record.write (c.edit i))
  let obj ← flush i n { obj with loaded := m.synchronize c obj.loaded } c.flushStamp
  match hit with
  | none => do
    let q ← versionSnapshot m n obj
    pure (.conflict q.1, q.2)
  | some _ => do
    let obj ← refresh n
    pure (.updated, obj)

/-! ## Sessions -/

inductive Action (Col Val : Type) where
  | assign (c : Col) (v : Val)
  | call (c : Call Col Val)

/-- a session loads one row, works on it, and commits unless something fails -/
structure Script (Col Val : Type) where
  row : ℕ
  actions : List (Action Col Val)
  /-- of the flush at the commit -/
  stamp : Values Col Val := []
  fails : Bool := false

/-- a call with its outcome, and the object before and after it -/
structure Report (Col Val : Type) where
  call : Call Col Val
  before : Obj Col Val
  outcome : Outcome Col Val
  after : Obj Col Val

structure Answer (Col Val : Type) where
  reports : List (Report Col Val)
  /-- before the flush at the commit -/
  last : Obj Col Val

def perform (i n : ℕ) : List (Action Col Val) → Obj Col Val → Op Col Val (Answer Col Val)
  | [], obj => pure { reports := [], last := obj }
  | .assign c v :: actions, obj => perform i n actions (obj.set c v)
  | .call c :: actions, obj => do
    let q ← updateCas m i n obj c
    let answer ← perform i n actions q.2
    pure { answer with reports := { call := c, before := obj, outcome := q.1, after := q.2 } :: answer.reports }

def Script.body (i : ℕ) (s : Script Col Val) : Op Col Val (Answer Col Val) := do
  let obj ← getOrRaise s.row
  let answer ← perform m i s.row s.actions obj
  let _ ← flush i s.row answer.last s.stamp
  if s.fails then Prog.raise .refused else pure answer

def Script.prog (i : ℕ) (s : Script Col Val) : Op Col Val (Answer Col Val) := transaction (s.body m i)

def init (d : Store Col Val) (scripts : ℕ → Script Col Val) :
    World (Stmt (Row Col Val) Index (NoFx Unit)) (Store Col Val) Exn (Answer Col Val) :=
  start d fun i => (scripts i).prog m i

/-! ## What a session writes -/

/-- the edits of a call: its own if it has hit, and that of its flush -/
def Report.edits (i : ℕ) (x : Report Col Val) : List (Edit (Values Col Val)) :=
  (match x.outcome with
    | .updated => [x.call.edit i]
    | .conflict _ => []) ++ flushed i x.before x.call.flushStamp

def Script.edits (i : ℕ) (s : Script Col Val) (answer : Answer Col Val) : List (Edit (Values Col Val)) :=
  answer.reports.flatMap (Report.edits i) ++ flushed i answer.last s.stamp

end LkmService.Repository
