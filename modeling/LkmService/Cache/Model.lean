/-
The read cache (`core/cache.py`) and the flights of one process (`core/singleflight.py`).

Shared are the Redis keys and, for each process, the table of its flights. One Redis command is one statement, and so is
one MULTI/EXEC; `WATCH` is the number of changes that the two keys have had. Between any two statements time may pass
(`advance`). Time is counted in milliseconds.

The caller of `cached_read` is session `2 * i`; session `2 * i + 1` is the task that it starts when no flight is under
way. Tokens are drawn anew each time, so the number of the invalidation stands for its token.

`epoch`, `began` and `readAt` are no data of the program: `epoch` counts the invalidations of a key that have been
completed, and a value keeps the count at which its loader began. Whether the lock of the key was got (`l2_lock`) is left
to the request, and so is the jitter of the expiry. A Redis command that fails leaves a store out; that case is not
modelled, and an invalidation whose transaction has failed is not a completed one.
-/
import LkmService.Lib.Rely

namespace LkmService.Cache

open Session

/-! ## The shared state -/

abbrev Key := String

abbrev Proc := ℕ

/-- `_INVALIDATION_GUARD_TTL_S` -/
def guardTtl : ℕ := 60 * 1000

/-- `_NULL_MARKER` -/
def nullMarker : String := "\x00__CACHE_NULL__"

/-- what a key holds -/
inductive Raw where
  | json (value : String)
  /-- no JSON, or `null` -/
  | unreadable
deriving DecidableEq, Repr

def Raw.loads : Raw → Option String
  | .json value => some value
  | .unreadable => none

structure Entry where
  raw : Raw
  expires : ℕ
  readAt : ℕ
deriving DecidableEq, Repr

/-- what is at `_invalidation_key` -/
structure Guard where
  token : ℕ
  expires : ℕ
deriving DecidableEq, Repr

inductive Exn where
  | loaderFailed
  | cancelled
deriving DecidableEq, Repr

abbrev Outcome := Except Exn (Option String)

inductive Task where
  | idle
  | running (p : Proc) (key : Key)
  | done (outcome : Outcome)

def Task.isDone : Task → Bool
  | .done _ => true
  | _ => false

structure Shared where
  now : ℕ
  value : Key → Option Entry
  guard : Key → Option Guard
  /-- changes of the value and the guard of a key -/
  changes : Key → ℕ
  epoch : Key → ℕ
  /-- `_flights` of each process: the number of the task -/
  flights : Proc → Key → Option ℕ
  refs : ℕ → ℕ
  task : ℕ → Task
  /-- which loader a task is in -/
  loading : ℕ → Option (Proc × Key)

namespace Shared

variable (s : Shared)

/-- GET of the key -/
def get (key : Key) : Option Raw := (s.value key).bind fun e => if s.now < e.expires then some e.raw else none

def guardAlive (key : Key) : Bool := (s.guard key).any fun g => decide (s.now < g.expires)

/-- GET of the invalidation key -/
def token (key : Key) : Option ℕ := (s.guard key).bind fun g => if s.now < g.expires then some g.token else none

/-- MULTI, for each key SET of the invalidation key, DEL of the keys, EXEC -/
def invalidate (keys : List Key) : Shared :=
  { s with
    value := fun k => if k ∈ keys then none else s.value k
    guard := fun k => if k ∈ keys then some { token := s.epoch k + 1, expires := s.now + guardTtl } else s.guard k
    changes := fun k => if k ∈ keys then s.changes k + 1 else s.changes k
    epoch := fun k => if k ∈ keys then s.epoch k + 1 else s.epoch k }

def store (key : Key) (value : String) (ttl began : ℕ) : Shared :=
  { s with
    value := Function.update s.value key (some { raw := .json value, expires := s.now + ttl, readAt := began })
    changes := Function.update s.changes key (s.changes key + 1) }

def setFlight (p : Proc) (key : Key) (t : Option ℕ) : Shared :=
  { s with flights := Function.update s.flights p (Function.update (s.flights p) key t) }

/-- `_flights.pop(key)`, if it is the flight of task `t`, which is done and awaited by nobody -/
def reclaim (p : Proc) (key : Key) (t : ℕ) : Shared :=
  if s.refs t = 0 ∧ (s.task t).isDone ∧ s.flights p key = some t then s.setFlight p key none else s

/-- a task that ends -/
def finish (t : ℕ) (outcome : Outcome) : Shared :=
  { s with
    task := Function.update s.task t (.done outcome)
    loading := Function.update s.loading t none }

end Shared

/-! ## Statements -/

inductive Cmd : Type → Type where
  | monotonic : Cmd ℕ
  | get (key : Key) : Cmd (Option Raw)
  /-- GET of the invalidation key; `began`: to store what a loader has read that began at this count -/
  | getGuard (key : Key) (began : Option ℕ) : Cmd (Option ℕ)
  | watch (key : Key) : Cmd ℕ
  /-- MULTI, SET, EXEC; `false`: WatchError -/
  | set (key : Key) (watched : ℕ) (value : String) (ttl began : ℕ) : Cmd Bool
  | invalidate (keys : List Key) : Cmd Unit
  /-- the critical section of `singleflight.run`: the task to wait for -/
  | enter (p : Proc) (key : Key) : Cmd ℕ
  | awaitTask (t : ℕ) : Cmd Outcome
  | leave (p : Proc) (key : Key) (t : ℕ) : Cmd Unit
  /-- the task begins once it has been started -/
  | begin (p : Proc) (key : Key) : Cmd Unit
  /-- the time, and the count of the invalidations, at which the loader begins -/
  | startLoader (p : Proc) (key : Key) : Cmd (ℕ × ℕ)
  | endLoader : Cmd Unit
  | finish (outcome : Outcome) : Cmd Unit
  /-- `_on_task_done` -/
  | onTaskDone (p : Proc) (key : Key) : Cmd Unit
  | advance (dt : ℕ) : Cmd Unit

/-- the task of session `i`, or the one that it would start -/
def taskOf (i : ℕ) : ℕ := i / 2

def Cmd.exec {β : Type} (i : ℕ) (c : Cmd β) (s : Shared) : Option (β × Shared) :=
  match c with
  | .monotonic => some (s.now, s)
  | .get key => some (s.get key, s)
  | .getGuard key _ => some (s.token key, s)
  | .watch key => some (s.changes key, s)
  | .set key watched value ttl began =>
    if s.changes key = watched then some (true, s.store key value ttl began) else some (false, s)
  | .invalidate keys => some ((), s.invalidate keys)
  | .enter p key =>
    match s.flights p key with
    | some t => some (t, { s with refs := Function.update s.refs t (s.refs t + 1) })
    | none => some (taskOf i, { s.setFlight p key (some (taskOf i)) with
        refs := Function.update s.refs (taskOf i) 1
        task := Function.update s.task (taskOf i) (.running p key) })
  | .awaitTask t =>
    match s.task t with
    | .done outcome => some (outcome, s)
    | _ => none
  | .leave p key t => some ((), { s with refs := Function.update s.refs t (s.refs t - 1) }.reclaim p key t)
  | .begin p key =>
    match s.task (taskOf i) with
    | .running p' key' => if p' = p ∧ key' = key then some ((), s) else none
    | _ => none
  | .startLoader p key =>
    some ((s.now, s.epoch key), { s with loading := Function.update s.loading (taskOf i) (some (p, key)) })
  | .endLoader => some ((), { s with loading := Function.update s.loading (taskOf i) none })
  | .finish outcome => some ((), s.finish (taskOf i) outcome)
  | .onTaskDone p key => some ((), s.reclaim p key (taskOf i))
  | .advance dt => some ((), { s with now := s.now + dt })

/-- A task that is cancelled is done, and its callback runs. A caller that is lost keeps its reference. -/
def dropSession (i : ℕ) (s : Shared) : Shared :=
  if i % 2 = 0 then s
  else
    match s.task (taskOf i) with
    | .running p key => (s.finish (taskOf i) (.error .cancelled)).reclaim p key (taskOf i)
    | _ => s

instance : Machine Cmd Shared where
  exec := Cmd.exec
  drop := dropSession

abbrev Prg (α : Type) := Prog Cmd Exn α

/-! ## The cache -/

def cacheGet (key : Key) : Prg (Option String) := do
  let raw ← Prog.call (.get key)
  pure (raw.bind Raw.loads)

/-- the marker stands for `None` -/
def unmark (value : String) : Option String := if value = nullMarker then none else some value

/-- `_set_if_not_invalidated` -/
def setIfNotInvalidated (key : Key) (value : String) (ttl : ℕ) (token : Option ℕ) (startedAt began : ℕ) : Prg Unit := do
  let now ← Prog.call .monotonic
  if now - startedAt ≥ guardTtl then pure ()
  else do
    let watched ← Prog.call (.watch key)
    let currentToken ← Prog.call (.getGuard key (some began))
    let currentValue ← Prog.call (.get key)
    if currentToken ≠ token then pure ()
    else if (currentValue.bind Raw.loads).isSome then pure ()
    else do
      let _ ← Prog.call (.set key watched value ttl began)
      pure ()

/-- `cache_invalidate`: one transaction for each of the two backends -/
def cacheInvalidate (isSecondary : Key → Bool) (keys : List Key) : Prg Unit :=
  match keys with
  | [] => pure ()
  | key :: _ => do
    Prog.call (.invalidate (keys.filter fun k => isSecondary k == isSecondary key))
    let other := keys.filter fun k => isSecondary k != isSecondary key
    if other = [] then pure () else Prog.call (.invalidate other)

/-- a call of `cached_read` -/
structure Read where
  proc : Proc
  key : Key
  ttl : ℕ
  nullTtl : Option ℕ
  /-- `held or not settings.cache_lock_enabled` -/
  canFill : Bool
  /-- what the loader ends with -/
  loaded : Outcome
  /-- the caller is cancelled while it waits -/
  cancelled : Bool := false

def fill (r : Read) (token : Option ℕ) (startedAt began : ℕ) (value : Option String) : Prg Unit :=
  if r.canFill then
    match value, r.nullTtl with
    | some value, _ => setIfNotInvalidated r.key value r.ttl token startedAt began
    | none, some nullTtl => setIfNotInvalidated r.key nullMarker nullTtl token startedAt began
    | none, none => pure ()
  else pure ()

def readGuard (r : Read) : Prg (Option ℕ) := if r.canFill then Prog.call (.getGuard r.key none) else pure none

/-- from the token on -/
def load (r : Read) : Prg (Option String) := do
  let token ← readGuard r
  let (startedAt, began) ← Prog.call (.startLoader r.proc r.key)
  Prog.call .endLoader
  match r.loaded with
  | .error e => .raise e
  | .ok value => do
    fill r token startedAt began value
    pure value

/-- `_load_and_fill` -/
def loadAndFill (r : Read) : Prg (Option String) := do
  match ← cacheGet r.key with
  | some value => pure (unmark value)
  | none => load r

/-- the task of a flight -/
def flight (r : Read) : Prg (Option String) := do
  Prog.call (.begin r.proc r.key)
  (loadAndFill r).andThen fun outcome => do
    Prog.call (.finish outcome)
    Prog.call (.onTaskDone r.proc r.key)
    pure none

/-- `singleflight.run` -/
def singleflightRun (r : Read) : Prg (Option String) := do
  let t ← Prog.call (.enter r.proc r.key)
  if r.cancelled then do
    Prog.call (.leave r.proc r.key t)
    .raise .cancelled
  else do
    let outcome ← Prog.call (.awaitTask t)
    Prog.call (.leave r.proc r.key t)
    .done outcome

def cachedRead (r : Read) : Prg (Option String) := do
  match ← cacheGet r.key with
  | some value => pure (unmark value)
  | none => singleflightRun r

/-! ## Requests -/

inductive Request where
  | cachedRead (r : Read)
  | cacheInvalidate (keys : List Key)
  /-- time passes -/
  | wait (dt : ℕ)

def Request.caller (isSecondary : Key → Bool) : Request → Prg (Option String)
  | .cachedRead r => Cache.cachedRead r
  | .cacheInvalidate keys => do
    Cache.cacheInvalidate isSecondary keys
    pure none
  | .wait dt => do
    Prog.call (.advance dt)
    pure none

def Request.task : Request → Prg (Option String)
  | .cachedRead r => flight r
  | _ => pure none

/-- the callers and their tasks -/
def session (isSecondary : Key → Bool) (requests : ℕ → Request) (n : ℕ) : Prg (Option String) :=
  if n % 2 = 0 then (requests (n / 2)).caller isSecondary else (requests (n / 2)).task

end LkmService.Cache
