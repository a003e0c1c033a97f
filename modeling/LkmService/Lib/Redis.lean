/-
One key of Redis, with a time to live, and the transactions that watch it. Times are milliseconds.

- `live`: the entry, until its time is over.
- `setNx`, `expire`, `delete`, `compareExpire`: `SET NX`, `EXPIRE`, `DEL` and the script that compares before `EXPIRE`.
- `watch`, `Watch.aborts`: EXEC does nothing if the key was written to after WATCH, or if its time ran out since.
- `Watch.Holds`: what GET has answered after WATCH; `Watch.Holds.get_eq`: where EXEC goes through it is still so.
-/
import Mathlib.Data.Nat.Notation
import Mathlib.Tactic.Common

namespace LkmService

structure Redis.Entry (V : Type) where
  value : V
  deadline : ℕ
deriving DecidableEq, Repr

/-- `version` counts the writes to the key -/
structure Redis (V : Type) where
  now : ℕ := 0
  entry : Option (Redis.Entry V) := none
  version : ℕ := 0

namespace Redis

variable {V : Type} {r : Redis V} {v : V} {n : ℕ}

def live (r : Redis V) : Option (Entry V) := r.entry.filter fun e => decide (r.now < e.deadline)

def get (r : Redis V) : Option V := r.live.map Entry.value

def wait (n : ℕ) (r : Redis V) : Redis V := { r with now := r.now + n }

def write (entry : Option (Entry V)) (r : Redis V) : Redis V := { r with entry := entry, version := r.version + 1 }

def setNx (v : V) (ttl : ℕ) (r : Redis V) : Bool × Redis V :=
  if r.live.isSome then (false, r) else (true, r.write (some { value := v, deadline := r.now + ttl }))

def expire (ttl : ℕ) (r : Redis V) : Redis V :=
  match r.live with
  | some e => r.write (some { e with deadline := r.now + ttl })
  | none => r

def delete (r : Redis V) : Redis V := if r.live.isSome then r.write none else r

/-- `if get(k) == v then return expire(k, ttl) else return 0` -/
def compareExpire [DecidableEq V] (v : V) (ttl : ℕ) (r : Redis V) : Bool × Redis V :=
  if r.get = some v then (true, r.expire ttl) else (false, r)

/-- what the server keeps of a WATCH -/
structure Watch where
  version : ℕ
  expired : Bool
deriving DecidableEq, Repr

/-- the key is there, but its time is over -/
def gone (r : Redis V) : Bool := r.entry.isSome && r.live.isNone

def watch (r : Redis V) : Watch := { version := r.version, expired := r.gone }

def Watch.aborts (k : Watch) (r : Redis V) : Bool := decide (k.version ≠ r.version) || (!k.expired && r.gone)

/-! ## Lemmas -/

theorem live_eq_some {e : Entry V} : r.live = some e ↔ r.entry = some e ∧ r.now < e.deadline := by
  rw [live, Option.filter_eq_some_iff, decide_eq_true_eq]

theorem live_eq_none_of_gone (h : r.gone = true) : r.live = none := by
  rw [gone, Bool.and_eq_true] at h
  exact Option.isNone_iff_eq_none.1 h.2

theorem gone_wait (h : r.gone = true) : (r.wait n).gone = true := by
  rw [gone, Bool.and_eq_true, Option.isNone_iff_eq_none] at h ⊢
  refine ⟨h.1, Option.eq_none_iff_forall_ne_some.2 fun e he => ?_⟩
  obtain ⟨hentry, hlt⟩ := live_eq_some.1 he
  have hlive : r.live = some e := live_eq_some.2 ⟨hentry, Nat.lt_of_le_of_lt (Nat.le_add_right r.now n) hlt⟩
  rw [hlive] at h
  cases h.2

theorem get_eq_some : r.get = some v ↔ ∃ e, r.live = some e ∧ e.value = v := Option.map_eq_some_iff

/-- a step of the key: time goes by, or there is a new version -/
inductive After (r : Redis V) : Redis V → Prop
  | wait (n : ℕ) : After r (r.wait n)
  | write (entry : Option (Entry V)) : After r (r.write entry)
  | same : After r r

theorem after_setNx (ttl : ℕ) : After r (r.setNx v ttl).2 := by
  unfold setNx
  split_ifs
  · exact .same
  · exact .write _

theorem after_expire (ttl : ℕ) : After r (r.expire ttl) := by
  unfold expire
  split
  · exact .write _
  · exact .same

theorem after_delete : After r r.delete := by
  unfold delete
  split_ifs
  · exact .write _
  · exact .same

theorem after_compareExpire [DecidableEq V] (ttl : ℕ) : After r (r.compareExpire v ttl).2 := by
  unfold compareExpire
  split_ifs
  · exact after_expire ttl
  · exact .same

/-! ## Watching -/

/-- the key has not been seen by the watch before it was there -/
structure Watch.Since (k : Watch) (r : Redis V) : Prop where
  le : k.version ≤ r.version
  expired : k.version = r.version → k.expired = true → r.gone = true

/-- GET has answered `v`, and it is so unless there is a new version -/
structure Watch.Holds (k : Watch) (v : V) (r : Redis V) : Prop where
  le : k.version ≤ r.version
  value : k.version = r.version → r.entry.map Entry.value = some v ∧ k.expired = false

theorem since_watch (r : Redis V) : r.watch.Since r := ⟨Nat.le_refl _, fun _ h => h⟩

theorem Watch.Since.after {k : Watch} {r' : Redis V} (h : k.Since r) (hr : After r r') : k.Since r' := by
  cases hr with
  | wait n => exact ⟨h.le, fun hv he => gone_wait (h.expired hv he)⟩
  | write entry => exact ⟨Nat.le_succ_of_le h.le, fun hv => absurd hv (Nat.ne_of_lt (Nat.lt_succ_of_le h.le))⟩
  | same => exact h

theorem Watch.Holds.after {k : Watch} {r' : Redis V} (h : k.Holds v r) (hr : After r r') : k.Holds v r' := by
  cases hr with
  | wait n => exact ⟨h.le, h.value⟩
  | write entry => exact ⟨Nat.le_succ_of_le h.le, fun hv => absurd hv (Nat.ne_of_lt (Nat.lt_succ_of_le h.le))⟩
  | same => exact h

theorem Watch.Since.holds {k : Watch} (h : k.Since r) (hget : r.get = some v) : k.Holds v r := by
  obtain ⟨e, he, rfl⟩ := get_eq_some.1 hget
  refine ⟨h.le, fun hv => ⟨?_, ?_⟩⟩
  · rw [(live_eq_some.1 he).1]
    rfl
  · by_contra hexpired
    have hgone := h.expired hv (by simpa using hexpired)
    rw [live_eq_none_of_gone hgone] at he
    cases he

/-- where EXEC goes through the key still has the value that was read -/
theorem Watch.Holds.get_eq {k : Watch} (h : k.Holds v r) (hexec : k.aborts r = false) : r.get = some v := by
  rw [Watch.aborts, Bool.or_eq_false_iff, decide_eq_false_iff_not, not_not] at hexec
  obtain ⟨hentry, hexpired⟩ := h.value hexec.1
  obtain ⟨e, he, rfl⟩ := Option.map_eq_some_iff.1 hentry
  refine get_eq_some.2 ⟨e, ?_, rfl⟩
  have hgone : r.gone = false := by simpa [hexpired] using hexec.2
  by_contra hlive
  have hnone : r.live = none := by
    rcases hl : r.live with _ | e'
    · rfl
    · obtain rfl : e = e' := Option.some.inj (he.symm.trans (live_eq_some.1 hl).1)
      exact absurd hl hlive
  rw [gone, he, hnone] at hgone
  cases hgone

theorem get_setNx {ttl : ℕ} (hpos : 0 < ttl) (h : (r.setNx v ttl).1 = true) : (r.setNx v ttl).2.get = some v := by
  unfold setNx at h ⊢
  split_ifs at h ⊢
  refine get_eq_some.2 ⟨_, live_eq_some.2 ⟨rfl, ?_⟩, rfl⟩
  exact Nat.lt_add_of_pos_right hpos

theorem get_expire {ttl : ℕ} (hpos : 0 < ttl) : (r.expire ttl).get = r.get := by
  unfold expire
  rcases hlive : r.live with _ | e
  · rfl
  · have hnew : (r.write (some { e with deadline := r.now + ttl })).live = some { e with deadline := r.now + ttl } :=
      live_eq_some.2 ⟨rfl, Nat.lt_add_of_pos_right hpos⟩
    simp only [get, hlive, hnew]
    rfl

end Redis

end LkmService
