/-
The sliding-window limiter.

Modelled from `core/redis_limiter.py`: the script that trims, counts, adds and sets the expiry, over keys that hold a
sorted set and may expire, and `RedisRateLimiter.check` around it. Redis reads its clock (`TIME`) in microseconds and
expires keys by the millisecond; a score is a rational number of seconds. An empty sorted set is no key.
-/
import Mathlib.Data.Rat.Floor
import LkmService.Lib.Uuid

namespace LkmService.Limiter

/-! ## Redis -/

/-- a sorted set, its members with their scores, and the millisecond after which it is gone -/
structure Zset where
  scores : List (Uuid × ℚ)
  expireAt : Option ℤ := none
deriving DecidableEq

abbrev Redis := String → Option Zset

/-- `TIME`, in seconds: `tonumber(t[1]) + tonumber(t[2]) / 1000000` -/
def seconds (us : ℕ) : ℚ := (us / 1000000 : ℕ) + (us % 1000000 : ℕ) / 1000000

/-- a key that has expired is read as no key -/
def live (us : ℕ) (z : Option Zset) : Option Zset := z.filter fun z => z.expireAt.all fun e => decide (((us / 1000 : ℕ) : ℤ) ≤ e)

def zremrangebyscore (lo hi : ℚ) (z : Option Zset) : Option Zset :=
  z.bind fun z =>
    let scores := z.scores.filter fun m => ¬ (lo ≤ m.2 ∧ m.2 ≤ hi)
    if scores = [] then none else some { z with scores := scores }

def zcard (z : Option Zset) : ℕ := z.elim 0 fun z => z.scores.length

/-- a member that is there already gets the new score -/
def zadd (score : ℚ) (member : Uuid) : Option Zset → Zset
  | none => { scores := [(member, score)] }
  | some z => { z with scores := (z.scores.filter fun m => m.1 ≠ member) ++ [(member, score)] }

/-- an expiry that does not lie ahead deletes the key -/
def expire (us : ℕ) (secs : ℤ) (z : Zset) : Option Zset :=
  if secs ≤ 0 then none else some { z with expireAt := some ((us / 1000 : ℕ) + secs * 1000) }

/-! ## The script -/

/-- a check; `us` is the time at which the script runs, `member` the id that it is given -/
structure Check where
  key : String
  maxCount : ℤ
  window : ℚ
  member : Uuid
  us : ℕ
deriving DecidableEq

def Check.now (c : Check) : ℚ := seconds c.us

/-- the script on the value of its key -/
def allowScript (c : Check) (z : Option Zset) : Bool × Option Zset :=
  let z := zremrangebyscore 0 (c.now - c.window) (live c.us z)
  if c.maxCount ≤ zcard z then (false, z) else (true, expire c.us ⌈c.window⌉ (zadd c.now c.member z))

def eval (c : Check) (r : Redis) : Bool × Redis :=
  ((allowScript c (r c.key)).1, Function.update r c.key (allowScript c (r c.key)).2)

/-- the checks of a run with their answers -/
def historyFrom (r : Redis) : List Check → List (Check × Bool)
  | [] => []
  | c :: cs => (c, (eval c r).1) :: historyFrom (eval c r).2 cs

def history (cs : List Check) : List (Check × Bool) := historyFrom (fun _ => none) cs

/-! ## Around the script -/

/-- what becomes of the call: Redis is not there, it answers, or an exception is raised before or after the script ran -/
inductive Reach where
  | absent
  | answers
  | fails (ran : Bool)
deriving DecidableEq

structure Call where
  check : Check
  failOpen : Bool
  reach : Reach
deriving DecidableEq

/-- `RedisRateLimiter.check` -/
def Call.perform (c : Call) (r : Redis) : Bool × Redis :=
  match c.reach with
  | .absent => (c.failOpen, r)
  | .answers => eval c.check r
  | .fails ran => (c.failOpen, if ran then (eval c.check r).2 else r)

def callsFrom (r : Redis) : List Call → List (Call × Bool)
  | [] => []
  | c :: cs => (c, (c.perform r).1) :: callsFrom (c.perform r).2 cs

end LkmService.Limiter
