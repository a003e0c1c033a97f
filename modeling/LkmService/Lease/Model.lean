/-
Leases on a key of Redis: the leader of the outbox relay, the lock of a cache key and the lock of a migration.

Modelled from `_acquire_lease`, `_renew_lease`, `_release_lease` and the token of `run_outbox_loop` in `core/outbox_relay.py`,
`_acquire`, `_wait_for_lock` and `_release` in `core/cache_lock.py`, and `acquire_migration_lock`, `_renew_loop` and
`_delete_if_owner` in `core/db/migration_lock.py`. A call sends one command after the other, with anything in between; a
command is atomic, and its answer may be lost. A token is the number of the call that drew it, for `uuid4` does not repeat. An
instance is whoever acquires a lease: it may stop waiting for a call, which then goes on without it. Redis is 6.0.9 or later,
where a transaction on a key that has expired since WATCH is aborted.
-/
import LkmService.Lib.Redis
import LkmService.Lib.Trace
import Mathlib.Logic.Function.Basic

namespace LkmService.Lease

abbrev Token := ℕ

/-! ## Calls -/

/-- `again`: the command is sent again while the key is taken; `tries`: how often the transaction is tried -/
inductive Op where
  | acquire (again : Bool)
  | renew (tries : ℕ)
  | renewScript
  | release (tries : ℕ)
deriving DecidableEq, Repr

/-- `_acquire_lease` -/
def acquireLease : Op := .acquire false

/-- `_renew_lease` -/
def renewLease : Op := .renew 3

/-- `_release_lease` -/
def releaseLease : Op := .release 3

/-- `_acquire` and `_wait_for_lock` -/
def acquireLock : Op := .acquire true

/-- `_release` -/
def releaseLock : Op := .release 1

/-- `acquire_migration_lock` -/
def acquireMigrationLock : Op := .acquire true

/-- a turn of `_renew_loop` -/
def renewLoop : Op := .renewScript

/-- `_delete_if_owner` -/
def deleteIfOwner : Op := .release 3

/-- `success` is a token or `True`, `failure` is `None` in place of a token, or `False`; `nothing` comes of what returns
nothing in any case -/
inductive Answer where
  | success
  | failure
  | nothing
deriving DecidableEq, Repr

inductive Stage where
  | ready (tries : ℕ)
  | watched (k : Redis.Watch) (tries : ℕ)
  | matched (k : Redis.Watch) (tries : ℕ)
  | ended (answer : Answer)
deriving DecidableEq, Repr

structure Call where
  op : Op
  token : Token
  ttl : ℕ
  owner : ℕ
  stage : Stage
deriving DecidableEq, Repr

/-- what a call returns that has not done what it is for -/
def Op.failed : Op → Answer
  | .acquire _ => .failure
  | .renew _ => .failure
  | .renewScript => .nothing
  | .release _ => .nothing

def Op.tries : Op → ℕ
  | .renew tries => tries
  | .release tries => tries
  | _ => 1

def Op.isAcquire : Op → Bool
  | .acquire _ => true
  | _ => false

/-- the transaction that EXEC runs, and what the call returns -/
def Call.exec (call : Call) (r : Redis Token) : Redis Token × Stage :=
  match call.op with
  | .renew _ => (r.expire call.ttl, .ended .success)
  | .release _ => (r.delete, .ended .nothing)
  | _ => (r, .ended call.op.failed)

/-- the next command of a call -/
def Call.command (call : Call) (r : Redis Token) : Redis Token × Stage :=
  match call.stage with
  | .ready tries =>
    match call.op with
    | .acquire again =>
      if (r.setNx call.token call.ttl).1 then ((r.setNx call.token call.ttl).2, .ended .success)
      else (r, if again then .ready tries else .ended .failure)
    | .renewScript => ((r.compareExpire call.token call.ttl).2, .ended .nothing)
    | _ => (r, .watched r.watch (tries - 1))
  | .watched k tries => if r.get = some call.token then (r, .matched k tries) else (r, .ended call.op.failed)
  | .matched k tries =>
    if k.aborts r then (r, if tries = 0 then .ended call.op.failed else .ready tries) else call.exec r
  | .ended answer => (r, .ended answer)

/-! ## Instances -/

/-- when a lease was last acquired or renewed: the token, and what the key held right after -/
structure Success where
  token : Token
  stored : Option Token
deriving DecidableEq, Repr

/-- `token` is what the instance takes for its lease; `current` is the call that it waits for -/
structure Instance where
  token : Option Token := none
  current : Option ℕ := none
  last : Option Success := none

/-- the instance goes on when its call is over -/
def Instance.resume (call : Call) (r : Redis Token) (stage : Stage) (inst : Instance) : Instance :=
  match stage with
  | .ended answer =>
    match call.op, answer with
    | .acquire _, .success =>
      { token := some call.token, current := none, last := some { token := call.token, stored := r.get } }
    | .renew _, .success => { inst with current := none, last := some { token := call.token, stored := r.get } }
    | .renew _, _ => { inst with token := none, current := none }
    | _, _ => { inst with current := none }
  | _ => inst

structure World where
  redis : Redis Token := {}
  calls : ℕ → Option Call := fun _ => none
  next : ℕ := 0
  insts : ℕ → Instance := fun _ => {}

def World.update (w : World) (i : ℕ) (f : Instance → Instance) : World :=
  { w with insts := Function.update w.insts i (f (w.insts i)) }

def World.call (w : World) (i : ℕ) (op : Op) (token : Token) (seconds : ℕ) : World :=
  { w with
    calls := Function.update w.calls w.next
      (some { op := op, token := token, ttl := 1000 * max 1 seconds, owner := i, stage := .ready op.tries })
    next := w.next + 1 }

/-- a call of an instance that waits for none: a lease is acquired by one that has none, and renewed or released by one that
has; one that releases no longer takes it for its own -/
def World.start (w : World) (i : ℕ) (op : Op) (seconds : ℕ) : World :=
  match (w.insts i).current, op, (w.insts i).token with
  | none, .acquire again, none =>
    (w.call i (.acquire again) w.next seconds).update i fun inst => { inst with current := some w.next }
  | none, .release tries, some t =>
    (w.call i (.release tries) t seconds).update i fun inst => { inst with token := none, current := some w.next }
  | none, .renew tries, some t =>
    (w.call i (.renew tries) t seconds).update i fun inst => { inst with current := some w.next }
  | none, .renewScript, some t =>
    (w.call i .renewScript t seconds).update i fun inst => { inst with current := some w.next }
  | _, _, _ => w

inductive Move where
  | wait (n : ℕ)
  | start (i : ℕ) (op : Op) (seconds : ℕ)
  /-- the next command of a call; an answer that is lost is an exception, at which the call fails -/
  | command (c : ℕ) (lost : Bool)
  /-- the instance stops waiting for its call -/
  | drop (i : ℕ)
  /-- the instance no longer takes a lease for its own -/
  | forget (i : ℕ)

/-- the stage after a command whose answer may be lost -/
def Call.after (call : Call) (r : Redis Token) (lost : Bool) : Stage :=
  if lost then .ended call.op.failed else (call.command r).2

def World.command (w : World) (c : ℕ) (call : Call) (lost : Bool) : World :=
  let r := (call.command w.redis).1
  let stage := call.after w.redis lost
  let w' := { w with redis := r, calls := Function.update w.calls c (some { call with stage := stage }) }
  if (w.insts call.owner).current = some c then w'.update call.owner (Instance.resume call r stage) else w'

def Call.running (call : Call) : Bool :=
  match call.stage with
  | .ended _ => false
  | _ => true

def step (w : World) : Move → World
  | .wait n => { w with redis := w.redis.wait n }
  | .start i op seconds => w.start i op seconds
  | .command c lost =>
    match w.calls c with
    | some call => if call.running then w.command c call lost else w
    | none => w
  | .drop i => w.update i fun inst => { inst with current := none }
  | .forget i => w.update i fun inst => { inst with token := none, current := none }

end LkmService.Lease
