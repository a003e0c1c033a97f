/-
What a worklist computes: everything that can be reached from its start.

`worklist next fuel result pending` takes the pending elements from the front, skips those it has, and puts the
successors of a new one in front. `mem_worklist_iff`: with fuel for every element of a finite universe and its
successors, the result is what can be reached along `next`. `loop` is the same with `none` for a run that has not ended;
`loop_eq` says that it ends.
-/
import Mathlib.Algebra.GroupWithZero.Nat
import Mathlib.Data.List.Basic
import Mathlib.Logic.Relation
import Mathlib.Tactic.Common

namespace LkmService.Worklist

variable {α : Type} [DecidableEq α] {next : α → List α} {univ result pending : List α} {fuel : ℕ} {x y : α}

def worklist (next : α → List α) : ℕ → List α → List α → List α
  | 0, result, _ => result
  | _ + 1, result, [] => result
  | fuel + 1, result, x :: pending =>
    if x ∈ result then worklist next fuel result pending
    else worklist next fuel (x :: result) (next x ++ pending)

/-- the worklist, `none` while something is pending -/
def loop (next : α → List α) : ℕ → List α → List α → Option (List α)
  | _, result, [] => some result
  | 0, _, _ :: _ => none
  | fuel + 1, result, x :: pending =>
    if x ∈ result then loop next fuel result pending else loop next fuel (x :: result) (next x ++ pending)

/-- the steps that are left at most: the pending elements and the successors of those not taken yet -/
def work (next : α → List α) (univ result pending : List α) : ℕ :=
  pending.length + ((univ.filter (· ∉ result)).map fun x => (next x).length).sum

variable (next pending) in
/-- taking an element of the universe leaves less to do -/
theorem work_take (hx : x ∈ univ) (hn : x ∉ result) :
    work next univ (x :: result) (next x ++ pending) + 1 ≤ work next univ result (x :: pending) := by
  have hrest : ∀ l : List α, ((l.filter (· ∉ x :: result)).map fun y => (next y).length).sum ≤
      ((l.filter (· ∉ result)).map fun y => (next y).length).sum := by
    intro l
    induction l with
    | nil => simp
    | cons y l ih =>
      by_cases hy : y ∈ result
      · simpa [hy] using ih
      · by_cases hxy : y = x
        · simp [hn, hxy] at ih ⊢
          omega
        · simpa [hy, hxy] using ih
  have hsum : ∀ l : List α, x ∈ l → (next x).length + ((l.filter (· ∉ x :: result)).map fun y => (next y).length).sum ≤
      ((l.filter (· ∉ result)).map fun y => (next y).length).sum := by
    intro l hl
    induction l with
    | nil => simp at hl
    | cons y l ih =>
      by_cases hxy : y = x
      · subst hxy
        have := hrest l
        simp [hn] at this ⊢
        omega
      · have := ih ((List.mem_cons.1 hl).resolve_left fun h => hxy h.symm)
        by_cases hy : y ∈ result
        · simpa [hy, hxy] using this
        · simp [hy, hxy] at this ⊢
          omega
  have := hsum univ hx
  simp only [work, List.length_append, List.length_cons]
  omega

/-- on any finite graph nothing is pending after that many steps -/
theorem loop_eq (hfuel : work next univ result pending ≤ fuel) (hpending : ∀ x ∈ pending, x ∈ univ)
    (huniv : ∀ x ∈ univ, ∀ y ∈ next x, y ∈ univ) :
    loop next fuel result pending = some (worklist next fuel result pending) := by
  induction fuel generalizing result pending with
  | zero =>
    have hnone : pending.length = 0 := by
      simp only [work] at hfuel
      omega
    obtain rfl := List.length_eq_zero_iff.1 hnone
    rfl
  | succ fuel ih =>
    rcases pending with _ | ⟨x, pending⟩
    · rfl
    · rw [loop, worklist]
      have hrest : ∀ y ∈ pending, y ∈ univ := fun y hy => hpending y (List.mem_cons_of_mem _ hy)
      split_ifs with hx
      · refine ih ?_ hrest
        simp only [work, List.length_cons] at hfuel ⊢
        omega
      · have hxu := hpending x List.mem_cons_self
        refine ih ?_ fun y hy => ?_
        · have := work_take next pending hxu hx
          omega
        · rcases List.mem_append.1 hy with hy | hy
          · exact huniv x hxu y hy
          · exact hrest y hy

/-- once it has ended, more steps change nothing -/
theorem loop_mono {fuel' : ℕ} {out : List α} (h : loop next fuel result pending = some out) (hle : fuel ≤ fuel') :
    loop next fuel' result pending = some out := by
  induction fuel generalizing fuel' result pending with
  | zero =>
    rcases pending with _ | ⟨x, pending⟩
    · rw [← h, loop, loop]
    · cases h
  | succ fuel ih =>
    obtain ⟨fuel', rfl⟩ : ∃ k, fuel' = k + 1 := ⟨fuel' - 1, by omega⟩
    rcases pending with _ | ⟨x, pending⟩
    · rw [← h, loop, loop]
    · rw [loop] at h ⊢
      split_ifs at h ⊢ with hx
      · exact ih h (by omega)
      · exact ih h (by omega)

/-- nothing is taken twice -/
theorem nodup_worklist (h : result.Nodup) : (worklist next fuel result pending).Nodup := by
  induction fuel generalizing result pending with
  | zero => exact h
  | succ fuel ih =>
    rcases pending with _ | ⟨x, pending⟩
    · exact h
    · simp only [worklist]
      split_ifs with hx
      · exact ih h
      · exact ih (List.nodup_cons.2 ⟨hx, h⟩)

/-- nothing but what can be reached -/
theorem mem_of_mem_worklist (h : y ∈ worklist next fuel result pending) :
    y ∈ result ∨ ∃ x ∈ pending, Relation.ReflTransGen (fun a b => b ∈ next a) x y := by
  induction fuel generalizing result pending with
  | zero => exact Or.inl h
  | succ fuel ih =>
    rcases pending with _ | ⟨x, pending⟩
    · exact Or.inl h
    · simp only [worklist] at h
      split_ifs at h with hx
      · rcases ih h with hr | ⟨z, hz, hreach⟩
        · exact Or.inl hr
        · exact Or.inr ⟨z, List.mem_cons_of_mem _ hz, hreach⟩
      · rcases ih h with hr | ⟨z, hz, hreach⟩
        · rcases List.mem_cons.1 hr with rfl | hr
          · exact Or.inr ⟨y, List.mem_cons_self, .refl⟩
          · exact Or.inl hr
        · rcases List.mem_append.1 hz with hz | hz
          · exact Or.inr ⟨x, List.mem_cons_self, .head hz hreach⟩
          · exact Or.inr ⟨z, List.mem_cons_of_mem _ hz, hreach⟩

/-- with enough fuel, what is pending is taken, and the successors of all that is taken are taken -/
theorem worklist_closed (hfuel : work next univ result pending ≤ fuel) (hpending : ∀ x ∈ pending, x ∈ univ)
    (huniv : ∀ x ∈ univ, ∀ y ∈ next x, y ∈ univ) (hinv : ∀ x ∈ result, ∀ y ∈ next x, y ∈ result ∨ y ∈ pending) :
    (∀ x, x ∈ result ∨ x ∈ pending → x ∈ worklist next fuel result pending) ∧
      ∀ x ∈ worklist next fuel result pending, ∀ y ∈ next x, y ∈ worklist next fuel result pending := by
  induction fuel generalizing result pending with
  | zero =>
    have hnil : pending = [] := by
      have : pending.length = 0 := by
        simp only [work] at hfuel
        omega
      exact List.length_eq_zero_iff.1 this
    subst hnil
    exact ⟨fun x hx => by simpa [worklist] using hx, fun x hx y hy => by simpa [worklist] using hinv x hx y hy⟩
  | succ fuel ih =>
    rcases pending with _ | ⟨x, pending⟩
    · exact ⟨fun x hx => by simpa [worklist] using hx, fun x hx y hy => by simpa [worklist] using hinv x hx y hy⟩
    · by_cases hx : x ∈ result
      · have hw : work next univ result pending ≤ fuel := by
          simp only [work, List.length_cons] at hfuel ⊢
          omega
        have hrec := ih hw (fun z hz => hpending z (List.mem_cons_of_mem _ hz)) fun z hz y hy => ?_
        · simp only [worklist, if_pos hx]
          refine ⟨fun z hz => hrec.1 z ?_, hrec.2⟩
          rcases hz with hz | hz
          · exact Or.inl hz
          · rcases List.mem_cons.1 hz with rfl | hz
            · exact Or.inl hx
            · exact Or.inr hz
        · rcases hinv z hz y hy with hy | hy
          · exact Or.inl hy
          · rcases List.mem_cons.1 hy with rfl | hy
            · exact Or.inl hx
            · exact Or.inr hy
      · have hxu := hpending x List.mem_cons_self
        have hw : work next univ (x :: result) (next x ++ pending) ≤ fuel := by
          have := work_take next pending hxu hx
          omega
        have hrec := ih hw (fun z hz => ?_) fun z hz y hy => ?_
        · simp only [worklist, if_neg hx]
          refine ⟨fun z hz => hrec.1 z ?_, hrec.2⟩
          rcases hz with hz | hz
          · exact Or.inl (List.mem_cons_of_mem _ hz)
          · rcases List.mem_cons.1 hz with rfl | hz
            · exact Or.inl List.mem_cons_self
            · exact Or.inr (List.mem_append_right _ hz)
        · rcases List.mem_append.1 hz with hz | hz
          · exact huniv x hxu z hz
          · exact hpending z (List.mem_cons_of_mem _ hz)
        · rcases List.mem_cons.1 hz with rfl | hz
          · exact Or.inr (List.mem_append_left _ hy)
          · rcases hinv z hz y hy with hy | hy
            · exact Or.inl (List.mem_cons_of_mem _ hy)
            · rcases List.mem_cons.1 hy with rfl | hy
              · exact Or.inl List.mem_cons_self
              · exact Or.inr (List.mem_append_right _ hy)

/-- a worklist that starts with nothing taken computes what can be reached from what is pending -/
theorem mem_worklist_iff (hfuel : work next univ [] pending ≤ fuel) (hpending : ∀ x ∈ pending, x ∈ univ)
    (huniv : ∀ x ∈ univ, ∀ y ∈ next x, y ∈ univ) :
    y ∈ worklist next fuel [] pending ↔ ∃ x ∈ pending, Relation.ReflTransGen (fun a b => b ∈ next a) x y := by
  refine ⟨fun h => (mem_of_mem_worklist h).resolve_left (by simp), ?_⟩
  rintro ⟨x, hx, hreach⟩
  obtain ⟨hstart, hclosed⟩ := worklist_closed hfuel hpending huniv (by simp)
  induction hreach with
  | refl => exact hstart x (Or.inr hx)
  | tail _ hstep ih => exact hclosed _ ih _ hstep

/-- of the roots those in `univ` are pending, the last one first -/
theorem mem_worklist_roots {roots : List α} (huniv : ∀ x ∈ univ, ∀ y ∈ next x, y ∈ univ) :
    y ∈ worklist next ((roots.filter (· ∈ univ)).reverse.length + (univ.map fun x => (next x).length).sum) []
      (roots.filter (· ∈ univ)).reverse ↔ ∃ x ∈ roots, x ∈ univ ∧ Relation.ReflTransGen (fun a b => b ∈ next a) x y := by
  have hfuel : work next univ [] (roots.filter (· ∈ univ)).reverse ≤
      (roots.filter (· ∈ univ)).reverse.length + (univ.map fun x => (next x).length).sum := by
    simp [work]
  rw [mem_worklist_iff hfuel (fun x hx => by simpa using And.right (by simpa using hx)) huniv]
  constructor
  · rintro ⟨x, hx, hreach⟩
    have hboth : x ∈ roots ∧ x ∈ univ := by simpa using hx
    exact ⟨x, hboth.1, hboth.2, hreach⟩
  · rintro ⟨x, hx, huniv, hreach⟩
    exact ⟨x, by simpa using ⟨hx, huniv⟩, hreach⟩

end LkmService.Worklist
