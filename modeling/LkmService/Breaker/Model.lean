/-
The circuit breaker in front of the calls to the AUTH process.

Modelled from `auth/circuit_breaker.py` (`CircuitBreaker`) and `auth/user_http.py` (`_request`). The methods of the
breaker run under its lock and are single moves; a call asks `allow`, is in progress while its request runs, and ends
with the outcome of that. The settings are read anew at every use and stay the same here.

Ghost data, which nothing reads: whether a call in progress was let through by a breaker that was not closed, and how
many failures have been recorded since the last success.
-/
import Mathlib.Algebra.Field.Rat
import Mathlib.Algebra.Order.Ring.Rat
import Mathlib.Data.NNRat.Defs
import Mathlib.Logic.Function.Basic

namespace LkmService.Breaker

/-! ## The breaker -/

inductive BreakerState where
  | closed
  | isOpen
  | halfOpen
deriving DecidableEq, Repr

structure Settings where
  authHttpCircuitFailures : ℤ
  authHttpCircuitResetS : ℚ

def Settings.failureThreshold (cfg : Settings) : ℤ := max 1 cfg.authHttpCircuitFailures

def Settings.resetSeconds (cfg : Settings) : ℚ := max 0 cfg.authHttpCircuitResetS

structure CircuitBreaker where
  state : BreakerState := .closed
  failures : ℕ := 0
  openedAt : ℚ := 0
  probing : Bool := false
deriving DecidableEq

variable (cfg : Settings)

def CircuitBreaker.allow (clock : ℚ) (b : CircuitBreaker) : Bool × CircuitBreaker :=
  match b.state with
  | .closed => (true, b)
  | .isOpen =>
    if cfg.resetSeconds ≤ clock - b.openedAt then (true, { b with state := .halfOpen, probing := true })
    else (false, b)
  | .halfOpen => if b.probing then (false, b) else (true, { b with probing := true })

def CircuitBreaker.recordSuccess (_ : CircuitBreaker) : CircuitBreaker := {}

def CircuitBreaker.recordFailure (clock : ℚ) (b : CircuitBreaker) : CircuitBreaker :=
  match b.state with
  | .halfOpen => { b with state := .isOpen, probing := false, openedAt := clock }
  | _ =>
    let b := { b with failures := b.failures + 1 }
    if cfg.failureThreshold ≤ b.failures then { b with state := .isOpen, openedAt := clock } else b

/-! ## Calls -/

/-- what a request can raise -/
inductive Exc where
  | transport
  | decoding
  | tooManyRedirects
  | invalidUrl
  | cookieConflict
  | cancelled
  | other
deriving DecidableEq, Repr

/-- the subclasses of `httpx.HTTPError` -/
def Exc.isHTTPError : Exc → Bool
  | .transport | .decoding | .tooManyRedirects => true
  | _ => false

/-- how a request ends that was let through; one that never starts has raised -/
inductive Outcome where
  | response (statusCode : ℕ)
  | raised (e : Exc)
deriving DecidableEq, Repr

/-- how `_request` ends -/
inductive Result where
  | response (statusCode : ℕ)
  | userHttpUnavailable
  | raised (e : Exc)
deriving DecidableEq, Repr

/-- what the outcome records: a success, a failure, or nothing -/
def Outcome.recorded : Outcome → Option Bool
  | .response statusCode => some (decide (statusCode < 500))
  | .raised e => if e.isHTTPError then some false else none

def Outcome.result : Outcome → Result
  | .response statusCode => .response statusCode
  | .raised e => if e.isHTTPError then .userHttpUnavailable else .raised e

inductive Phase where
  | idle
  | inProgress (probe : Bool)
  | ended (r : Result)
deriving DecidableEq, Repr

/-! ## The system -/

structure World where
  breaker : CircuitBreaker := {}
  clock : ℚ := 0
  calls : ℕ → Phase := fun _ => .idle
  consecutive : ℕ := 0

inductive Move where
  | tick (d : ℚ≥0)
  /-- call `i` asks the breaker -/
  | begin (i : ℕ)
  /-- the request of call `i` ends -/
  | finish (i : ℕ) (o : Outcome)
  | reset

def World.record (w : World) : Option Bool → World
  | some true => { w with breaker := w.breaker.recordSuccess, consecutive := 0 }
  | some false => { w with breaker := w.breaker.recordFailure cfg w.clock, consecutive := w.consecutive + 1 }
  | none => w

def step (w : World) : Move → World
  | .tick d => { w with clock := w.clock + d }
  | .begin i =>
    if w.calls i = .idle then
      let (allowed, breaker) := w.breaker.allow cfg w.clock
      let phase := if allowed then .inProgress (decide (w.breaker.state ≠ .closed)) else .ended .userHttpUnavailable
      { w with breaker := breaker, calls := Function.update w.calls i phase }
    else w
  | .finish i o =>
    match w.calls i with
    | .inProgress _ => { w.record cfg o.recorded with calls := Function.update w.calls i (.ended o.result) }
    | _ => w
  | .reset => { w with breaker := {}, consecutive := 0 }

end LkmService.Breaker
