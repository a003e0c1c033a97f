/-
Lists in the strict order of a key.

- `pairwise_sorted`: a list whose keys differ, once it is sorted.
- `eq_of_mem_iff`: two such lists with the same members are the same.
- `le_getLast`: the last one has the greatest key.
-/
import Mathlib.Data.List.Sort

namespace LkmService.Sorted

variable {α κ : Type} [LinearOrder κ] {key : α → κ} {l l' : List α} {a : α}

theorem pairwise_sorted (h : (l.map key).Nodup) : (l.insertionSort fun a b => key a ≤ key b).Pairwise fun a b => key a < key b := by
  have hperm := (List.perm_insertionSort (fun a b => key a ≤ key b) l).map key
  have hne : (l.insertionSort fun a b => key a ≤ key b).Pairwise fun a b => key a ≠ key b :=
    List.pairwise_map.1 (hperm.nodup_iff.2 h)
  have hle : (l.insertionSort fun a b => key a ≤ key b).Pairwise fun a b => key a ≤ key b := List.pairwise_insertionSort _ _
  exact hle.imp₂ (fun _ _ hle hne => lt_of_le_of_ne hle hne) hne

theorem nodup (h : l.Pairwise fun a b => key a < key b) : l.Nodup := h.imp fun hlt heq => absurd (heq ▸ hlt) (lt_irrefl _)

theorem eq_of_mem_iff (h : l.Pairwise fun a b => key a < key b) (h' : l'.Pairwise fun a b => key a < key b)
    (hmem : ∀ a, a ∈ l ↔ a ∈ l') : l = l' := by
  have hperm : l.Perm l' := (List.perm_ext_iff_of_nodup (nodup h) (nodup h')).2 hmem
  exact hperm.eq_of_pairwise (fun a b _ _ hab hba => absurd hab (not_lt_of_gt hba)) h h'

theorem le_getLast (h : l.Pairwise fun a b => key a < key b) {last : α} (hlast : l.getLast? = some last) (ha : a ∈ l) :
    key a ≤ key last := by
  obtain ⟨init, rfl⟩ := List.getLast?_eq_some_iff.1 hlast
  rcases List.mem_append.1 ha with ha | ha
  · exact le_of_lt ((List.pairwise_append.1 h).2.2 a ha last List.mem_cons_self)
  · rw [List.mem_singleton.1 ha]

end LkmService.Sorted
