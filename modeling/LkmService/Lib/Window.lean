/-
Sliding windows. A log of times is built by a rule that lets a time in while fewer than `N` logged times lie in the
window of length `W` that ends with it.

- `inside W t log`: the logged times of the window that ends with `t`.
- `Admitted N W log`: each time of the log was let in by those before it.
- `length_within_le`: no stretch shorter than `W` has more than `N` of them.
-/
import Mathlib.Algebra.Order.Group.Defs
import Mathlib.Algebra.Order.Ring.Int
import Mathlib.Data.Int.Order.Basic

namespace LkmService.Window

variable {T : Type*} [AddCommGroup T] [LinearOrder T] [IsOrderedAddMonoid T] {N : ℤ} {W s t : T} {log : List T}

def inside (W t : T) (log : List T) : List T := log.filter fun s => t - W < s

def admits (N : ℤ) (W t : T) (log : List T) : Bool := decide (((inside W t log).length : ℤ) < N)

def Admitted (N : ℤ) (W : T) (log : List T) : Prop :=
  ∀ pre t post, log = pre ++ t :: post → admits N W t pre = true

omit [IsOrderedAddMonoid T] in
theorem inside_append (log log' : List T) : inside W t (log ++ log') = inside W t log ++ inside W t log' :=
  List.filter_append ..

/-- a window that ends later has no earlier times -/
theorem inside_inside (h : s ≤ t) (log : List T) : inside W t (inside W s log) = inside W t log := by
  unfold inside
  rw [List.filter_filter]
  refine List.filter_congr fun a _ => ?_
  have hst : s - W ≤ t - W := sub_le_sub_right h W
  by_cases ha : t - W < a
  · simp [ha, lt_of_le_of_lt hst ha]
  · simp [ha]

omit [IsOrderedAddMonoid T] in
theorem Admitted.nil : Admitted N W ([] : List T) := by
  intro pre t post h
  simp at h

omit [IsOrderedAddMonoid T] in
theorem Admitted.snoc (h : Admitted N W log) (ht : admits N W t log = true) : Admitted N W (log ++ [t]) := by
  intro pre s post heq
  rcases List.eq_nil_or_concat post with rfl | ⟨post, u, rfl⟩
  · obtain ⟨rfl, hs⟩ := List.append_inj' heq rfl
    obtain rfl : t = s := by simpa using hs
    exact ht
  · rw [List.concat_eq_append, ← List.cons_append, ← List.append_assoc] at heq
    obtain ⟨hlog, -⟩ := List.append_inj' heq rfl
    exact h pre s post hlog

/-- the last element of a list that meets a condition -/
theorem exists_last {S : Type*} {log : List S} (p : S → Bool) (h : log.filter p ≠ []) :
    ∃ pre t post, log = pre ++ t :: post ∧ p t = true ∧ post.filter p = [] := by
  induction log with
  | nil => simp at h
  | cons a log ih =>
    by_cases hrest : log.filter p = []
    · refine ⟨[], a, log, rfl, ?_, hrest⟩
      by_contra ha
      simp [ha, hrest] at h
    · obtain ⟨pre, t, post, rfl, ht, hpost⟩ := ih hrest
      exact ⟨a :: pre, t, post, rfl, ht, hpost⟩

omit [IsOrderedAddMonoid T] in
/-- **The bound.** A stretch whose times lie less than `W` apart holds at most `N` times of an admitted log. -/
theorem length_within_le (h : Admitted N W log) (p : T → Bool)
    (hp : ∀ s t, p s = true → p t = true → t - W < s) : ((log.filter p).length : ℤ) ≤ max N 0 := by
  by_cases hnone : log.filter p = []
  · simp [hnone]
  · obtain ⟨pre, t, post, rfl, ht, hpost⟩ := exists_last p hnone
    have hadmits : ((inside W t pre).length : ℤ) < N := by simpa [admits] using h pre t post rfl
    -- all of the stretch before its last time counted when that was let in
    have hsub : (pre.filter p).length ≤ (inside W t pre).length := by
      unfold inside
      rw [← List.countP_eq_length_filter, ← List.countP_eq_length_filter]
      exact List.countP_mono_left fun s _ hs => by simpa using hp s t hs ht
    have hlength : ((pre ++ t :: post).filter p).length = (pre.filter p).length + 1 := by
      simp [ht, hpost]
    omega

end LkmService.Window
