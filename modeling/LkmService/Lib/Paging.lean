/-
Pages of a list by number, and a walk in windows.

- `slice`, `pages`: the rows of a page, and how many pages there are.
- `flatten_slices`: the pages give the list. `length_slice`: every page before the last is full.
- `window`, `windows`: the first rows beyond a key, and the walk that goes on from the last one of each window.
  `windows_eq`: the walk gives the list.
-/
import Mathlib.Data.List.Sort
import Mathlib.Data.List.Flatten

namespace LkmService.Paging

variable {α : Type}

/-! ## Pages by number -/

/-- the pages are numbered from 1; what is below counts as the first -/
def offset (page size : ℕ) : ℕ := (page - 1) * size

def slice (l : List α) (page size : ℕ) : List α := (l.drop (offset page size)).take size

/-- rounded up -/
def pages (total size : ℕ) : ℕ := if size = 0 then (if total = 0 then 0 else 1) else (total + size - 1) / size

variable {l : List α} {page size : ℕ}

theorem pages_eq (h : 0 < size) (total : ℕ) : pages total size = (total + size - 1) / size := by
  rw [pages, if_neg (by omega)]

theorem le_pages (h : 0 < size) (total : ℕ) : total ≤ pages total size * size := by
  rw [pages_eq h]
  have hmod := Nat.mod_lt (total + size - 1) h
  have hdiv := Nat.div_add_mod (total + size - 1) size
  rw [Nat.mul_comm] at hdiv
  omega

theorem lt_of_lt_pages {total : ℕ} (h : 0 < size) (hp : page < pages total size) : page * size < total := by
  rw [pages_eq h, Nat.lt_div_iff_mul_lt h] at hp
  omega

/-- by induction on the number of pages, with the first page taken off -/
theorem flatten_chunks (k : ℕ) (h : l.length ≤ k * size) :
    ((List.range k).map fun p => (l.drop (p * size)).take size).flatten = l := by
  induction k generalizing l with
  | zero =>
    have hnil : l = [] := List.length_eq_zero_iff.1 (by omega)
    simp [hnil]
  | succ k ih =>
    have hrest : (l.drop size).length ≤ k * size := by
      rw [Nat.succ_mul] at h
      rw [List.length_drop]
      omega
    rw [List.range_succ_eq_map, List.map_cons, List.flatten_cons, List.map_map]
    have hmap : ((fun p => (l.drop (p * size)).take size) ∘ Nat.succ) = fun p => ((l.drop size).drop (p * size)).take size := by
      funext p
      rw [Function.comp_apply, List.drop_drop, Nat.succ_mul, Nat.add_comm]
    rw [hmap, ih hrest, Nat.zero_mul, List.drop_zero, List.take_append_drop]

/-- **Pages.** The pages one after the other are the list. -/
theorem flatten_slices (h : 0 < size) (l : List α) :
    ((List.range (pages l.length size)).map fun p => slice l (p + 1) size).flatten = l :=
  flatten_chunks _ (le_pages h l.length)

/-- every page before the last is full -/
theorem length_slice (h : 0 < size) (hpos : 1 ≤ page) (hp : page < pages l.length size) : (slice l page size).length = size := by
  have hlt := lt_of_lt_pages h hp
  have hpage : page * size = (page - 1) * size + size := by
    calc page * size = (page - 1 + 1) * size := by rw [Nat.sub_add_cancel hpos]
      _ = (page - 1) * size + size := Nat.succ_mul _ _
  simp only [slice, offset, List.length_take, List.length_drop]
  omega

/-- there is nothing after the last page -/
theorem slice_eq_nil (h : 0 < size) (hp : pages l.length size < page) : slice l page size = [] := by
  have hle := le_pages h l.length
  have hmul : pages l.length size * size ≤ (page - 1) * size := Nat.mul_le_mul_right size (by omega)
  rw [slice, offset, List.drop_eq_nil_of_le (by omega), List.take_nil]

theorem map_slice {β : Type} (f : α → β) : (slice l page size).map f = slice (l.map f) page size := by
  rw [slice, List.map_take, List.map_drop]
  rfl

theorem mem_of_mem_slice {a : α} (h : a ∈ slice l page size) : a ∈ l := List.mem_of_mem_drop (List.mem_of_mem_take h)

/-- what is in the list is on one of its pages -/
theorem exists_slice {a : α} (h : 0 < size) (ha : a ∈ l) : ∃ page, 1 ≤ page ∧ page ≤ pages l.length size ∧ a ∈ slice l page size := by
  rw [← flatten_slices h l, List.mem_flatten] at ha
  obtain ⟨s, hs, ha⟩ := ha
  obtain ⟨p, hp, rfl⟩ := List.mem_map.1 hs
  exact ⟨p + 1, by omega, List.mem_range.1 hp, ha⟩

/-! ## Windows -/

section Windows

variable (key : α → ℕ)

/-- the first rows beyond a key; `none` is below all -/
def window (l : List α) (after : Option ℕ) (limit : ℕ) : List α :=
  (l.filter fun a => after.all fun k => decide (k < key a)).take limit

/-- window after window, until one is empty -/
def windows (l : List α) (limit : ℕ) : ℕ → Option ℕ → List α
  | 0, _ => []
  | fuel + 1, after =>
    match (window key l after limit).getLast? with
    | none => []
    | some last => window key l after limit ++ windows l limit fuel (some (key last))

variable {key}

/-- of an ascending list, what is beyond the key of a row comes after it -/
theorem filter_beyond {pre post : List α} {a : α} (h : (pre ++ a :: post).Pairwise fun x y => key x < key y) :
    (pre ++ a :: post).filter (fun x => decide (key a < key x)) = post := by
  obtain ⟨-, hpost, hcross⟩ := List.pairwise_append.1 h
  have hbefore : pre.filter (fun x => decide (key a < key x)) = [] := by
    refine List.filter_eq_nil_iff.2 ?_
    intro x hx
    have := hcross x hx a List.mem_cons_self
    simp only [decide_eq_true_eq]
    omega
  have hafter : post.filter (fun x => decide (key a < key x)) = post := by
    refine List.filter_eq_self.2 ?_
    intro x hx
    exact decide_eq_true ((List.pairwise_cons.1 hpost).1 x hx)
  rw [List.filter_append, hbefore, List.filter_cons_of_neg (by simp), hafter, List.nil_append]

/-- by induction on the rows that are left; `pre` are those that have been seen -/
theorem windows_rest {limit fuel : ℕ} (hlimit : 0 < limit) {pre rest : List α}
    (h : (pre ++ rest).Pairwise fun x y => key x < key y) (hfuel : rest.length < fuel) :
    windows key (pre ++ rest) limit fuel (pre.getLast?.map key) = rest := by
  induction fuel generalizing pre rest with
  | zero => omega
  | succ fuel ih =>
    have hrest : (pre ++ rest).filter (fun a => (pre.getLast?.map key).all fun k => decide (k < key a)) = rest := by
      rcases List.eq_nil_or_concat' pre with rfl | ⟨pre, a, rfl⟩
      · simp
      · have hsplit : pre ++ [a] ++ rest = pre ++ a :: rest := by simp
        rw [hsplit] at h ⊢
        simpa using filter_beyond h
    have hwindow : window key (pre ++ rest) (pre.getLast?.map key) limit = rest.take limit := by rw [window, hrest]
    rw [windows, hwindow]
    rcases hlast : (rest.take limit).getLast? with _ | last
    · have hnil : rest.take limit = [] := List.getLast?_eq_none_iff.1 hlast
      rcases List.take_eq_nil_iff.1 hnil with hzero | hnil
      · omega
      · exact hnil.symm
    · have hne : rest ≠ [] := by
        rintro rfl
        simp at hlast
      have hsplit : pre ++ rest = (pre ++ rest.take limit) ++ rest.drop limit := by
        rw [List.append_assoc, List.take_append_drop]
      have hend : (pre ++ rest.take limit).getLast?.map key = some (key last) := by
        rw [List.getLast?_append, hlast]
        rfl
      have hlength : (rest.drop limit).length < fuel := by
        have := List.length_pos_iff.2 hne
        rw [List.length_drop]
        omega
      have hih : windows key ((pre ++ rest.take limit) ++ rest.drop limit) limit fuel ((pre ++ rest.take limit).getLast?.map key) =
          rest.drop limit := ih (hsplit ▸ h) hlength
      rw [hend, ← hsplit] at hih
      dsimp only
      rw [hih, List.take_append_drop]

/-- **Windows.** The walk gives every row of an ascending list once. -/
theorem windows_eq {limit fuel : ℕ} (hlimit : 0 < limit) (h : l.Pairwise fun x y => key x < key y) (hfuel : l.length < fuel) :
    windows key l limit fuel none = l :=
  windows_rest hlimit (show (([] : List α) ++ l).Pairwise _ from h) hfuel

end Windows

end LkmService.Paging
