/-
The metrics relay: worker instances publish their counters, the API process adds the growth to its own.

Modelled from `core/metrics_relay.py`: `snapshot` and `publish_snapshot` of an instance, `_parse_payload`,
`_apply_counter`, and `collect_once` of the API process key by key, so that instances may count, publish and expire
between two reads of a round. Gauges are not summed and are left out. A dictionary is a function to `Option`; numbers are
rational. An instance that restarts is another instance.

Ghost data, which nothing reads: what each instance has contributed to the baseline of a counter, whether it is part of
the present one, what it has contributed to the present round, and the instances that have counted.
-/
import Mathlib.Algebra.Order.Ring.Rat
import Mathlib.Data.NNRat.Defs
import Mathlib.Data.Finset.Insert
import LkmService.Lib.OrderedDict

namespace LkmService.Metrics

open OrderedDict

/-! ## The relayed metrics -/

inductive Kind where
  | gauge
  | counter
deriving DecidableEq, Repr

structure RelaySpec where
  name : String
  kind : Kind
  labelnames : List String

def RELAYED : List RelaySpec :=
  [⟨"outbox_pending_count", .gauge, []⟩, ⟨"outbox_leader_total", .counter, ["event"]⟩,
    ⟨"notify_failed_total", .counter, []⟩, ⟨"user_snap_cache_total", .counter, ["layer", "result"]⟩,
    ⟨"user_snap_singleflight_total", .counter, ["role"]⟩, ⟨"cache_lock_total", .counter, ["result"]⟩,
    ⟨"content_index_events_total", .counter, ["action"]⟩, ⟨"counts_reconcile_repeated_total", .counter, []⟩,
    ⟨"audit_events_total", .counter, ["action"]⟩, ⟨"event_contract_violations_total", .counter, ["fn", "side"]⟩]

def specByName (name : String) : Option RelaySpec := RELAYED.find? fun spec => spec.name = name

/-- the name of a metric with its label values -/
abbrev Key := String × List String

abbrev Samples := List (Key × ℚ)

/-- `_parse_payload`: items of unknown metrics or with another number of labels are dropped -/
def parsePayload (items : Samples) : Samples :=
  items.filter fun item => (specByName item.1.1).any fun spec => spec.labelnames.length = item.1.2.length

def isCounter (k : Key) : Bool := (specByName k.1).any fun spec => spec.kind = .counter

/-! ## The API process -/

structure Reporter where
  remoteTotals : Key → Option ℚ := fun _ => none
  /-- what has been added to the counters of the process -/
  relayed : Key → ℚ := fun _ => 0
  /-- the totals of the present round -/
  counterTotals : Key → Option ℚ := fun _ => none

/-- `counter_totals[key] = counter_totals.get(key, 0.0) + value`, item by item -/
def addItems (totals : Key → Option ℚ) : Samples → Key → Option ℚ
  | [] => totals
  | (k, value) :: items => addItems (Function.update totals k (some ((totals k).getD 0 + value))) items

/-- `_apply_counter`; `refused`: the counter raises. The answer is the new baseline and the new counter. -/
def applyCounter (refused : Bool) (last : Option ℚ) (relayed total : ℚ) : Option ℚ × ℚ :=
  let delta := total - last.getD 0
  if delta ≤ 0 then (some total, relayed)
  else if refused then (last, relayed)
  else (some total, relayed + delta)

def Reporter.apply (refused : Key → Bool) (r : Reporter) : Reporter where
  remoteTotals k := (r.counterTotals k).elim (r.remoteTotals k) fun total =>
    (applyCounter (refused k) (r.remoteTotals k) (r.relayed k) total).1
  relayed k := (r.counterTotals k).elim (r.relayed k) fun total =>
    (applyCounter (refused k) (r.remoteTotals k) (r.relayed k) total).2

/-! ## The system -/

structure World where
  /-- the counters of each instance -/
  own : ℕ → Samples := fun _ => []
  /-- the snapshot keys -/
  snaps : ℕ → Option Samples := fun _ => none
  reporter : Reporter := {}
  instances : Finset ℕ := ∅
  /-- the value with which the instance was part of a baseline last -/
  last : ℕ → Key → ℚ := fun _ _ => 0
  inBase : ℕ → Key → Bool := fun _ _ => false
  read : ℕ → Key → Option ℚ := fun _ _ => none

/-- how the read of one snapshot key ends; the payload of a damaged one is not a list -/
inductive Fate where
  | answers
  | fails
  | damaged
deriving DecidableEq, Repr

inductive Move where
  | inc (i : ℕ) (k : Key) (d : ℚ≥0)
  | publish (i : ℕ)
  | expire (i : ℕ)
  /-- the scan of the present round comes to the key of instance `i` -/
  | readKey (i : ℕ) (fate : Fate)
  /-- the scan has ended and the totals are applied -/
  | finish (refused : Key → Bool)
  /-- the scan has raised, or Redis was not there -/
  | abort

def valueOf (samples : Samples) (k : Key) : ℚ := (get? samples k).getD 0

/-- the counters in what is read at the key of an instance -/
def World.counters (w : World) (i : ℕ) : Samples :=
  (w.snaps i).elim [] fun items => (parsePayload items).filter fun item => isCounter item.1

/-- the total of the round becomes the baseline of the counter -/
def World.rebases (w : World) (refused : Key → Bool) (k : Key) : Bool :=
  (w.reporter.counterTotals k).any fun total => decide (total - (w.reporter.remoteTotals k).getD 0 ≤ 0) || !refused k

def step (w : World) : Move → World
  | .inc i k d =>
    { w with own := Function.update w.own i (put (w.own i) k (valueOf (w.own i) k + d)), instances := insert i w.instances }
  | .publish i => { w with snaps := Function.update w.snaps i (some (w.own i)) }
  | .expire i => { w with snaps := Function.update w.snaps i none }
  | .readKey i .answers =>
    { w with
      reporter := { w.reporter with counterTotals := addItems w.reporter.counterTotals (w.counters i) }
      read := Function.update w.read i fun k => (get? (w.counters i) k).or (w.read i k) }
  | .readKey _ _ => w
  | .finish refused =>
    { w with
      reporter := w.reporter.apply refused
      last := fun i k => if w.rebases refused k then (w.read i k).getD (w.last i k) else w.last i k
      inBase := fun i k => if w.rebases refused k then (w.read i k).isSome else w.inBase i k
      read := fun _ _ => none }
  | .abort => { w with reporter := { w.reporter with counterTotals := fun _ => none }, read := fun _ _ => none }

end LkmService.Metrics
