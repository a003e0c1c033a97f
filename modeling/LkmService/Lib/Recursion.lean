/-
A recursive query: WITH RECURSIVE t AS (seed UNION ALL SELECT … JOIN t).

`recursive next fuel working` puts the working table into the result and goes on with the rows that the recursive term
makes of it, until it makes none. On a cycle that never ends; `none` says that it has not ended within the fuel.
- `mem_recursive`: the result is what can be reached from the seed.
- `recursive_isSome`: where every step goes up in a bounded rank, the query ends.
-/
import Mathlib.Logic.Relation
import Mathlib.Tactic.Common

namespace LkmService.Recursion

open Relation

variable {α : Type} {next : List α → List α} {r : α → α → Prop} {fuel : ℕ} {working l : List α} {y : α}

def recursive (next : List α → List α) : ℕ → List α → Option (List α)
  | _, [] => some []
  | 0, _ :: _ => none
  | fuel + 1, x :: xs => (recursive next fuel (next (x :: xs))).map ((x :: xs) ++ ·)

/-- **What is reached.** `r` is the step that the recursive term takes from one row of the working table. -/
theorem mem_recursive (hnext : ∀ l y, y ∈ next l ↔ ∃ x ∈ l, r x y) (h : recursive next fuel working = some l) :
    y ∈ l ↔ ∃ x ∈ working, ReflTransGen r x y := by
  induction fuel generalizing working l with
  | zero =>
    cases working with
    | nil =>
      obtain rfl : [] = l := Option.some.inj h
      simp
    | cons x xs => cases h
  | succ fuel ih =>
    cases working with
    | nil =>
      obtain rfl : [] = l := Option.some.inj h
      simp
    | cons x xs =>
      obtain ⟨rest, hrest, rfl⟩ := Option.map_eq_some_iff.1 h
      rw [List.mem_append, ih hrest]
      constructor
      · rintro (hy | ⟨z, hz, hzy⟩)
        · exact ⟨y, hy, .refl⟩
        · obtain ⟨w, hw, hwz⟩ := (hnext _ z).1 hz
          exact ⟨w, hw, .head hwz hzy⟩
      · rintro ⟨w, hw, hwy⟩
        rcases ReflTransGen.cases_head_iff.1 hwy with rfl | ⟨z, hwz, hzy⟩
        · exact Or.inl hw
        · exact Or.inr ⟨z, (hnext _ z).2 ⟨w, hw, hwz⟩, hzy⟩

/-- **It ends.** The rows in the working table have come at least as far up as there have been rounds. -/
theorem recursive_isSome {p : α → Prop} (rank : α → ℕ) (bound : ℕ)
    (hnext : ∀ l y, y ∈ next l → ∃ x ∈ l, r x y) (hup : ∀ x y, p x → r x y → p y ∧ rank x < rank y)
    (hbound : ∀ x, p x → rank x < bound) {k : ℕ} (hfuel : bound ≤ fuel + k)
    (hworking : ∀ x ∈ working, p x ∧ k ≤ rank x) : (recursive next fuel working).isSome := by
  induction fuel generalizing working k with
  | zero =>
    cases working with
    | nil => rfl
    | cons x xs =>
      obtain ⟨hp, hk⟩ := hworking x List.mem_cons_self
      have := hbound x hp
      omega
  | succ fuel ih =>
    cases working with
    | nil => rfl
    | cons x xs =>
      have hrest : (recursive next fuel (next (x :: xs))).isSome := by
        refine ih (k := k + 1) (by omega) fun y hy => ?_
        obtain ⟨z, hz, hzy⟩ := hnext _ y hy
        obtain ⟨hpz, hkz⟩ := hworking z hz
        obtain ⟨hpy, hlt⟩ := hup z y hpz hzy
        exact ⟨hpy, by omega⟩
      rw [recursive, Option.isSome_map]
      exact hrest

end LkmService.Recursion
