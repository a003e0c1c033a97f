/-
A copy of a source that is refreshed key by key.

A refresh reads what the source has for its key and writes the copy later, and nothing ties the two together. One counter
stamps the changes of the source and the beginnings of the refreshes.
- `changed k`, `wrote k`: the stamps of the last change of `k`, and of the latest refresh that has written its copy.
- `Inv`: a copy that has been written by a refresh from after the last change is right.
- `Onward`: how the others move the stamps.
- `Known`: what a refresh has read still holds, if there has been no change since it began.
- `inv_write`: a refresh may write what it knows to be right, unless it has been overtaken both by a change and by a
  refresh from after that.
-/
import Mathlib.Logic.Function.Basic
import Mathlib.Tactic.Common
import Mathlib.Order.Lattice
import Mathlib.Order.Nat

namespace LkmService

structure Projection (S K V : Type) where
  source : S
  copy : K → V
  tick : ℕ := 2
  changed : K → ℕ := fun _ => 0
  wrote : K → ℕ := fun _ => 1

namespace Projection

variable {S K V D : Type}

/-- a refresh begins; its stamp is the old counter -/
def begin (p : Projection S K V) : Projection S K V := { p with tick := p.tick + 1 }

def change (touched : K → Bool) (s : S) (p : Projection S K V) : Projection S K V :=
  { p with
    source := s
    tick := p.tick + 1
    changed := fun k => if touched k then p.tick else p.changed k }

def write [DecidableEq K] (k : K) (v : V) (began : ℕ) (p : Projection S K V) : Projection S K V :=
  { p with
    copy := Function.update p.copy k v
    wrote := Function.update p.wrote k (max (p.wrote k) began) }

/-- what the source has for a key, and the values that are right for it -/
structure Inv (data : S → K → D) (right : K → D → V → Prop) (p : Projection S K V) : Prop where
  changed : ∀ k, p.changed k < p.tick
  wrote : ∀ k, 0 < p.wrote k ∧ p.wrote k < p.tick
  fresh : ∀ k, p.changed k < p.wrote k → right k (data p.source k) (p.copy k)

/-- the moves of the others -/
structure Onward (data : S → K → D) (p q : Projection S K V) : Prop where
  tick : p.tick ≤ q.tick
  changed : ∀ k, (q.changed k = p.changed k ∧ data q.source k = data p.source k) ∨ p.tick ≤ q.changed k
  wrote : ∀ k, p.wrote k ≤ q.wrote k

structure Known (data : S → K → D) (k : K) (began : ℕ) (Φ : D → Prop) (p : Projection S K V) : Prop where
  before : began < p.tick
  holds : p.changed k < began → Φ (data p.source k)

variable {data : S → K → D} {right : K → D → V → Prop} {p q u : Projection S K V} {k : K} {v : V} {began : ℕ} {Φ Ψ : D → Prop}

theorem Onward.refl (p : Projection S K V) : Onward data p p := ⟨le_rfl, fun _ => .inl ⟨rfl, rfl⟩, fun _ => le_rfl⟩

theorem Onward.trans (h : Onward data p q) (h' : Onward data q u) : Onward data p u := by
  refine ⟨h.tick.trans h'.tick, fun k => ?_, fun k => (h.wrote k).trans (h'.wrote k)⟩
  rcases h'.changed k with ⟨hsame, hdata⟩ | hlater
  · rcases h.changed k with ⟨hsame', hdata'⟩ | hlater
    · exact .inl ⟨hsame.trans hsame', hdata.trans hdata'⟩
    · exact .inr (hsame ▸ hlater)
  · exact .inr (h.tick.trans hlater)

theorem Known.onward (h : Known data k began Φ p) (ho : Onward data p q) : Known data k began Φ q := by
  refine ⟨h.before.trans_le ho.tick, fun hq => ?_⟩
  have hbefore := h.before
  rcases ho.changed k with ⟨hsame, hdata⟩ | hlater
  · rw [hdata]
    exact h.holds (hsame ▸ hq)
  · omega

/-- a second look at the source -/
theorem Known.imp (h : Known data k began Φ p) (hΦ : Φ (data p.source k) → Ψ (data p.source k)) : Known data k began Ψ p :=
  ⟨h.before, fun hq => hΦ (h.holds hq)⟩

/-! ## The steps -/

theorem known_begin (h : Φ (data p.source k)) : Known data k p.tick Φ p.begin := ⟨Nat.lt_succ_self _, fun _ => h⟩

theorem inv_begin (h : Inv data right p) : Inv data right p.begin where
  changed k := (h.changed k).trans (Nat.lt_succ_self _)
  wrote k := ⟨(h.wrote k).1, (h.wrote k).2.trans (Nat.lt_succ_self _)⟩
  fresh := h.fresh

theorem onward_begin (p : Projection S K V) : Onward data p p.begin :=
  ⟨Nat.le_succ _, fun _ => .inl ⟨rfl, rfl⟩, fun _ => le_rfl⟩

section Change

variable {touched : K → Bool} {s : S}

theorem changed_change (k : K) : (p.change touched s).changed k = if touched k then p.tick else p.changed k := rfl

theorem inv_change (h : Inv data right p) (htouched : ∀ k, touched k = false → data s k = data p.source k) :
    Inv data right (p.change touched s) := by
  refine ⟨fun k => ?_, fun k => ⟨(h.wrote k).1, (h.wrote k).2.trans (Nat.lt_succ_self _)⟩, fun k hk => ?_⟩
  · rw [changed_change]
    change _ < p.tick + 1
    have hchanged := h.changed k
    split <;> omega
  · rw [changed_change] at hk
    change _ < p.wrote k at hk
    have hwrote := (h.wrote k).2
    split at hk
    · omega
    next hnot =>
      change right k (data s k) (p.copy k)
      rw [htouched k (by simpa using hnot)]
      exact h.fresh k hk

theorem onward_change (htouched : ∀ k, touched k = false → data s k = data p.source k) :
    Onward data p (p.change touched s) := by
  refine ⟨Nat.le_succ _, fun k => ?_, fun _ => le_rfl⟩
  rw [changed_change]
  split
  · exact .inr le_rfl
  next hnot => exact .inl ⟨rfl, htouched k (by simpa using hnot)⟩

end Change

section Write

variable [DecidableEq K]

theorem wrote_write_self (p : Projection S K V) (k : K) (v : V) (began : ℕ) :
    (p.write k v began).wrote k = max (p.wrote k) began := Function.update_self ..

theorem wrote_write_of_ne {k' : K} (h : k' ≠ k) : (p.write k v began).wrote k' = p.wrote k' := Function.update_of_ne h ..

/-- a stale value is not written over a later one -/
theorem inv_write (h : Inv data right p) (hv : Known data k began (fun d => right k d v) p)
    (hok : p.changed k < began ∨ p.wrote k ≤ began) : Inv data right (p.write k v began) := by
  refine ⟨h.changed, fun k' => ?_, fun k' hk' => ?_⟩
  · have hwrote := h.wrote k'
    by_cases hk : k' = k
    · subst hk
      have hbefore := hv.before
      rw [wrote_write_self]
      change _ ∧ _ < p.tick
      omega
    · rw [wrote_write_of_ne hk]
      exact hwrote
  · change p.changed k' < _ at hk'
    by_cases hk : k' = k
    · subst hk
      rw [wrote_write_self] at hk'
      have hcurrent : p.changed k' < began := by omega
      simpa only [write, Function.update_self] using hv.holds hcurrent
    · rw [wrote_write_of_ne hk] at hk'
      simpa only [write, Function.update_of_ne hk] using h.fresh k' hk'

theorem onward_write (p : Projection S K V) (k : K) (v : V) (began : ℕ) : Onward data p (p.write k v began) := by
  refine ⟨le_rfl, fun _ => .inl ⟨rfl, rfl⟩, fun k' => ?_⟩
  by_cases hk : k' = k
  · subst hk
    rw [wrote_write_self]
    exact le_max_left _ _
  · rw [wrote_write_of_ne hk]

end Write

end Projection

end LkmService
