/-
Cached lists over a collection (`core/cache.py`: `collection_version`, `bump_collection_version` and `cached_read`).

A list is cached under the version number of its collection. A write gives the collection a new number inside of its
transaction and commits later. A collection is any table with a loader: the rules of the moderation and the counts of the
content take one query, the lists of the columns and of the articles two.
- The caller is session `2 * i`, and session `2 * i + 1` is the task that it starts when no flight is under way. A key may
  be evicted, or the number lost, at any time; these are sessions of their own.
- The keys of lists are never invalidated, so that the comparison of the tokens always succeeds and is left out. Whether
  the task may fill (it has the lock, or locks are off, and the load has taken less than a minute) is left to the request.
- `log`: the writes that have been committed, in that order. `began`: how many there were when what a task will hand over
  was read. `sources`: the states that a loader has seen.
-/
import LkmService.Lib.Rely

namespace LkmService.Cache

open Session

/-! ## Collections -/

/-- `S`: the rows; `P`: the parameters of the list; `V`: the payload -/
structure Collection (S P V : Type) where
  /-- the queries of the loader after the first -/
  more : P → ℕ
  view : P → List S → V

/-- `none` is `v0` -/
abbrev Version := Option ℕ

/-- `make_key` of the prefix, the version and the parameters -/
abbrev ListKey (P : Type) := Version × P

/-- a committed state, and the writes that it includes -/
structure Snapshot (S : Type) where
  rows : S
  log : List ℕ

structure Loaded (S V : Type) where
  value : V
  first : Snapshot S
  rest : List (Snapshot S)

/-- how many writes the oldest of the states includes -/
def Loaded.since {S V : Type} (x : Loaded S V) : ℕ := x.first.log.length

def Loaded.sources {S V : Type} (x : Loaded S V) : List (Snapshot S) := x.first :: x.rest

inductive ListExn where
  | loaderFailed
  | cancelled
  /-- the transaction of a write is rolled back -/
  | rolledBack
deriving DecidableEq, Repr

abbrev ListOutcome (S V : Type) := Except ListExn (Loaded S V)

inductive ListTask (S P V : Type) where
  | idle
  | running (p : ℕ) (key : ListKey P)
  | done (outcome : ListOutcome S V)

structure Lists (S P V : Type) where
  db : Snapshot S
  version : Version := none
  value : ListKey P → Option (Loaded S V) := fun _ => none
  /-- changes of the value of a key -/
  changes : ListKey P → ℕ := fun _ => 0
  /-- `_flights` of each process: the number of the task -/
  flights : ℕ → ListKey P → Option ℕ := fun _ _ => none
  refs : ℕ → ℕ := fun _ => 0
  task : ℕ → ListTask S P V := fun _ => .idle
  began : ℕ → Option ℕ := fun _ => none

/-- the task of session `i`, or the one that it would start -/
def slot (i : ℕ) : ℕ := i / 2

variable {S P V : Type} [DecidableEq P]

namespace Lists

/-- the writes that have been committed -/
def commits (s : Lists S P V) : ℕ := s.db.log.length

/-- INCR -/
def incr (s : Lists S P V) : Lists S P V := { s with version := some (s.version.getD 0 + 1) }

def lose (s : Lists S P V) : Lists S P V := { s with version := none }

def commit (i : ℕ) (change : S → S) (s : Lists S P V) : Lists S P V :=
  { s with db := { rows := change s.db.rows, log := s.db.log ++ [slot i] } }

def evict (key : ListKey P) (s : Lists S P V) : Lists S P V :=
  { s with
    value := Function.update s.value key none
    changes := Function.update s.changes key (s.changes key + 1) }

def store (key : ListKey P) (x : Loaded S V) (s : Lists S P V) : Lists S P V :=
  { s with
    value := Function.update s.value key (some x)
    changes := Function.update s.changes key (s.changes key + 1) }

/-- task `t` has read what it will hand over, from after `n` writes -/
def setBegan (t n : ℕ) (s : Lists S P V) : Lists S P V := { s with began := Function.update s.began t (some n) }

def setFlight (p : ℕ) (key : ListKey P) (t : Option ℕ) (s : Lists S P V) : Lists S P V :=
  { s with flights := Function.update s.flights p (Function.update (s.flights p) key t) }

def isDone (t : ℕ) (s : Lists S P V) : Bool :=
  match s.task t with
  | .done _ => true
  | _ => false

/-- `_flights.pop(key)`, if it is the flight of task `t`, which is done and awaited by nobody -/
def reclaim (p : ℕ) (key : ListKey P) (t : ℕ) (s : Lists S P V) : Lists S P V :=
  if s.refs t = 0 ∧ s.isDone t = true ∧ s.flights p key = some t then s.setFlight p key none else s

def finish (t : ℕ) (outcome : ListOutcome S V) (s : Lists S P V) : Lists S P V :=
  { s with task := Function.update s.task t (.done outcome) }

end Lists

/-! ## Statements -/

inductive ListCmd (S P V : Type) : Type → Type where
  | getVersion : ListCmd S P V Version
  | incrVersion : ListCmd S P V Unit
  | loseVersion : ListCmd S P V Unit
  | evict (key : ListKey P) : ListCmd S P V Unit
  | commit (change : S → S) : ListCmd S P V Unit
  | get (key : ListKey P) : ListCmd S P V (Option (Loaded S V))
  /-- GET of a task before it loads, which hands over what it finds -/
  | getAgain (key : ListKey P) : ListCmd S P V (Option (Loaded S V))
  /-- one query of a loader -/
  | select : ListCmd S P V (Snapshot S)
  | watch (key : ListKey P) : ListCmd S P V ℕ
  /-- MULTI, SET, EXEC; `false`: WatchError -/
  | set (key : ListKey P) (watched : ℕ) (x : Loaded S V) : ListCmd S P V Bool
  /-- the critical section of `singleflight.run`: the task to wait for -/
  | enter (p : ℕ) (key : ListKey P) : ListCmd S P V ℕ
  | awaitTask (t : ℕ) : ListCmd S P V (ListOutcome S V)
  | leave (p : ℕ) (key : ListKey P) (t : ℕ) : ListCmd S P V Unit
  /-- the task begins once it has been started -/
  | begin : ListCmd S P V (ℕ × ListKey P)
  | finish (outcome : ListOutcome S V) : ListCmd S P V Unit
  /-- `_on_task_done` -/
  | onTaskDone (p : ℕ) (key : ListKey P) : ListCmd S P V Unit

def ListCmd.exec {β : Type} (i : ℕ) (c : ListCmd S P V β) (s : Lists S P V) : Option (β × Lists S P V) :=
  match c with
  | .getVersion => some (s.version, s)
  | .incrVersion => some ((), s.incr)
  | .loseVersion => some ((), s.lose)
  | .evict key => some ((), s.evict key)
  | .commit change => some ((), s.commit i change)
  | .get key => some (s.value key, s)
  | .getAgain key =>
    match s.value key with
    | some x => some (some x, s.setBegan (slot i) x.since)
    | none => some (none, s)
  | .select => some (s.db, s.setBegan (slot i) ((s.began (slot i)).getD s.commits))
  | .watch key => some (s.changes key, s)
  | .set key watched x => if s.changes key = watched then some (true, s.store key x) else some (false, s)
  | .enter p key =>
    match s.flights p key with
    | some t => some (t, { s with refs := Function.update s.refs t (s.refs t + 1) })
    | none => some (slot i, { s.setFlight p key (some (slot i)) with
        refs := Function.update s.refs (slot i) 1
        task := Function.update s.task (slot i) (.running p key) })
  | .awaitTask t =>
    match s.task t with
    | .done outcome => some (outcome, s)
    | _ => none
  | .leave p key t => some ((), { s with refs := Function.update s.refs t (s.refs t - 1) }.reclaim p key t)
  | .begin =>
    match s.task (slot i) with
    | .running p key => some ((p, key), s)
    | _ => none
  | .finish outcome => some ((), s.finish (slot i) outcome)
  | .onTaskDone p key => some ((), s.reclaim p key (slot i))

/-- A task that is cancelled is done, and its callback runs. A caller that is lost keeps its reference. -/
def dropList (i : ℕ) (s : Lists S P V) : Lists S P V :=
  if i % 2 = 0 then s
  else
    match s.task (slot i) with
    | .running p key => (s.finish (slot i) (.error .cancelled)).reclaim p key (slot i)
    | _ => s

instance : Machine (ListCmd S P V) (Lists S P V) where
  exec := ListCmd.exec
  drop := dropList

abbrev ListPrg (S P V α : Type) := Prog (ListCmd S P V) ListExn α

/-! ## The cache -/

/-- the queries of a loader -/
def selects : ℕ → ListPrg S P V (List (Snapshot S))
  | 0 => pure []
  | n + 1 => do
    let snapshot ← Prog.call .select
    let others ← selects n
    pure (snapshot :: others)

def loader (c : Collection S P V) (params : P) (fails : Bool) : ListPrg S P V (Loaded S V) := do
  let first ← Prog.call .select
  let rest ← selects (c.more params)
  if fails then .raise .loaderFailed
  else pure { value := c.view params ((first :: rest).map Snapshot.rows), first := first, rest := rest }

/-- `_set_if_not_invalidated` -/
def fillList (key : ListKey P) (x : Loaded S V) : ListPrg S P V Unit := do
  let watched ← Prog.call (.watch key)
  let current ← Prog.call (.get key)
  match current with
  | some _ => pure ()
  | none => do
    let _ ← Prog.call (.set key watched x)
    pure ()

/-- a read of the list in process `proc`; `fills` and `fails` are of its task -/
structure ListRead (P : Type) where
  proc : ℕ
  params : P
  fills : Bool := true
  fails : Bool := false

/-- `_load_and_fill` -/
def loadAndFillList (c : Collection S P V) (r : ListRead P) (key : ListKey P) : ListPrg S P V (Loaded S V) := do
  let again ← Prog.call (.getAgain key)
  match again with
  | some x => pure x
  | none => do
    let x ← loader c key.2 r.fails
    if r.fills then do
      fillList key x
      pure x
    else pure x

/-- the task of a flight -/
def listFlight (c : Collection S P V) (r : ListRead P) : ListPrg S P V (Option (Loaded S V)) := do
  let (p, key) ← Prog.call .begin
  (loadAndFillList c r key).andThen fun outcome => do
    Prog.call (.finish outcome)
    Prog.call (.onTaskDone p key)
    pure none

/-- `singleflight.run` -/
def listSingleflight (r : ListRead P) (key : ListKey P) : ListPrg S P V (Loaded S V) := do
  let t ← Prog.call (.enter r.proc key)
  let outcome ← Prog.call (.awaitTask t)
  Prog.call (.leave r.proc key t)
  .done outcome

def cachedList (r : ListRead P) (key : ListKey P) : ListPrg S P V (Loaded S V) := do
  let cached ← Prog.call (.get key)
  match cached with
  | some x => pure x
  | none => listSingleflight r key

def collectionVersion : ListPrg S P V Version := Prog.call .getVersion

def bumpCollectionVersion : ListPrg S P V Unit := Prog.call .incrVersion

/-- a list: the version, then the cache -/
def readList (r : ListRead P) : ListPrg S P V (Loaded S V) := do
  let version ← collectionVersion
  cachedList r (version, r.params)

/-! ## Requests -/

/-- a write of the collection; `commits`: its transaction is committed -/
structure ListWrite (S : Type) where
  change : S → S
  commits : Bool := true

def ListWrite.prog (w : ListWrite S) : ListPrg S P V Unit := do
  bumpCollectionVersion
  if w.commits then Prog.call (.commit w.change) else .raise .rolledBack

inductive ListRequest (S P : Type) where
  | read (r : ListRead P)
  | write (w : ListWrite S)
  /-- the key has expired -/
  | evict (key : ListKey P)
  | loseVersion

def ListRequest.caller : ListRequest S P → ListPrg S P V (Option (Loaded S V))
  | .read r => do
    let x ← readList r
    pure (some x)
  | .write w => do
    w.prog
    pure none
  | .evict key => do
    Prog.call (.evict key)
    pure none
  | .loseVersion => do
    Prog.call .loseVersion
    pure none

def ListRequest.task (c : Collection S P V) : ListRequest S P → ListPrg S P V (Option (Loaded S V))
  | .read r => listFlight c r
  | _ => pure none

/-- the callers and their tasks -/
def listSession (c : Collection S P V) (requests : ℕ → ListRequest S P) (n : ℕ) : ListPrg S P V (Option (Loaded S V)) :=
  if n % 2 = 0 then (requests (n / 2)).caller else (requests (n / 2)).task c

abbrev ListRun (S P V : Type) [DecidableEq P] := World (ListCmd S P V) (Lists S P V) ListExn (Option (Loaded S V))

/-- all sessions, before their first statement -/
def initLists (c : Collection S P V) (base : S) (requests : ℕ → ListRequest S P) : ListRun S P V :=
  start { db := { rows := base, log := [] } } (listSession c requests)

end LkmService.Cache
