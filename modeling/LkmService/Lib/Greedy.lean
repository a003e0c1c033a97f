/-
A greedy choice under a constraint that more elements can only break.

`greedy has ok chosen candidates` goes through the candidates in order and takes one when the choice so far does not
have it already and the constraint still holds with it. `greedy_maximal`: at the end every candidate is had, or would
break the constraint. `greedy_ok` and `greedy_nodup` say what the choice keeps.
-/
import Mathlib.Data.List.Basic
import Mathlib.Data.List.Nodup
import Mathlib.Tactic.Common

namespace LkmService.Greedy

variable {α : Type} {has : List α → α → Bool} {ok : List α → Bool} {chosen candidates : List α} {x : α}

/-- the loop: the candidates in order, each taken or passed over for good -/
def greedy (has : List α → α → Bool) (ok : List α → Bool) : List α → List α → List α
  | chosen, [] => chosen
  | chosen, x :: candidates =>
    if has chosen x = false ∧ ok (chosen ++ [x]) = true then greedy has ok (chosen ++ [x]) candidates
    else greedy has ok chosen candidates

theorem greedy_cons : greedy has ok chosen (x :: candidates) =
    if has chosen x = false ∧ ok (chosen ++ [x]) = true then greedy has ok (chosen ++ [x]) candidates
    else greedy has ok chosen candidates := rfl

/-- what is chosen stays chosen -/
theorem subset_greedy : chosen ⊆ greedy has ok chosen candidates := by
  induction candidates generalizing chosen with
  | nil => exact fun _ h => h
  | cons x candidates ih =>
    rw [greedy_cons]
    split_ifs
    · exact fun y hy => ih (List.mem_append_left _ hy)
    · exact ih

theorem mem_of_mem_greedy (h : x ∈ greedy has ok chosen candidates) : x ∈ chosen ∨ x ∈ candidates := by
  induction candidates generalizing chosen with
  | nil => exact Or.inl h
  | cons y candidates ih =>
    rw [greedy_cons] at h
    split_ifs at h
    · rcases ih h with hx | hx
      · rcases List.mem_append.1 hx with hx | hx
        · exact Or.inl hx
        · exact Or.inr (List.mem_cons.2 (Or.inl (by simpa using hx)))
      · exact Or.inr (List.mem_cons_of_mem _ hx)
    · exact (ih h).imp id (List.mem_cons_of_mem _)

variable (has ok) in
theorem greedy_ok (h : ok chosen = true) : ok (greedy has ok chosen candidates) = true := by
  induction candidates generalizing chosen with
  | nil => exact h
  | cons x candidates ih =>
    rw [greedy_cons]
    split_ifs with hx
    · exact ih hx.2
    · exact ih h

/-- nothing is chosen twice when what is chosen is had -/
theorem greedy_nodup (hhas : ∀ l : List α, ∀ y ∈ l, y ∈ chosen ∨ y ∈ candidates → has l y = true)
    (h : chosen.Nodup) : (greedy has ok chosen candidates).Nodup := by
  induction candidates generalizing chosen with
  | nil => exact h
  | cons x candidates ih =>
    rw [greedy_cons]
    split_ifs with hx
    · have hnew : x ∉ chosen := by
        intro hmem
        have := hhas chosen x hmem (Or.inl hmem)
        rw [hx.1] at this
        cases this
      refine ih (fun l y hy hfrom => hhas l y hy ?_) ?_
      · rcases hfrom with hfrom | hfrom
        · rcases List.mem_append.1 hfrom with hfrom | hfrom
          · exact Or.inl hfrom
          · exact Or.inr (List.mem_cons.2 (Or.inl (by simpa using hfrom)))
        · exact Or.inr (List.mem_cons_of_mem _ hfrom)
      · exact List.nodup_append.2 ⟨h, by simp, by
          intro y hy z hz hyz
          rw [List.mem_singleton] at hz
          subst hyz hz
          exact hnew hy⟩
    · exact ih (fun l y hy hfrom => hhas l y hy (hfrom.imp id (List.mem_cons_of_mem _))) h

variable (has ok chosen) in
/-- **Greedy is maximal.** When a larger choice has more and breaks the constraint sooner, and an element that is taken
is had, the choice has each candidate or cannot take it. -/
theorem greedy_maximal (hmono : ∀ l l' : List α, l ⊆ l' → ∀ y, has l y = true → has l' y = true)
    (hanti : ∀ l l' : List α, l ⊆ l' → ok l' = true → ok l = true) (hx : x ∈ candidates)
    (htake : ∀ l : List α, x ∈ l → has l x = true) :
    has (greedy has ok chosen candidates) x = true ∨ ok (greedy has ok chosen candidates ++ [x]) = false := by
  induction candidates generalizing chosen with
  | nil => simp at hx
  | cons y candidates ih =>
    rcases List.mem_cons.1 hx with rfl | hx
    · rw [greedy_cons]
      split_ifs with hcan
      · exact Or.inl (htake _ (subset_greedy (by simp)))
      · rcases hhas : has chosen x with _ | _
        · have hbreak : ok (chosen ++ [x]) = false := by simpa [hhas] using hcan
          right
          by_contra hok
          have hsub : chosen ++ [x] ⊆ greedy has ok chosen candidates ++ [x] :=
            List.append_subset.2 ⟨fun z hz => List.mem_append_left _ (subset_greedy hz), List.subset_append_right _ _⟩
          have := hanti _ _ hsub (by simpa using hok)
          rw [hbreak] at this
          cases this
        · exact Or.inl (hmono _ _ subset_greedy _ hhas)
    · rw [greedy_cons]
      split_ifs
      · exact ih (chosen ++ [y]) hx
      · exact ih chosen hx

end LkmService.Greedy
