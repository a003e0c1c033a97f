/-
Runs of a state machine whose moves are data: `step : S → M → S` is total, and a run is a list of moves.

- `run`: the state after a list of moves.
- `Along`: every move of the run meets a condition in the state it is made in.
- `run_inv`, `along_of_inv`: the induction rule for invariants, and what they say of every move of a run.
-/
import Mathlib.Data.List.Induction

namespace LkmService.Trace

variable {S M : Type*} {step : S → M → S} {ok : S → M → Prop} {I : S → Prop} {s : S} {m : M} {as bs ms : List M}

def run (step : S → M → S) (s : S) (ms : List M) : S := ms.foldl step s

@[simp] theorem run_nil (step : S → M → S) (s : S) : run step s [] = s := rfl

theorem run_cons (step : S → M → S) (s : S) (m : M) (ms : List M) : run step s (m :: ms) = run step (step s m) ms := rfl

theorem run_append (step : S → M → S) (s : S) (as bs : List M) : run step s (as ++ bs) = run step (run step s as) bs :=
  List.foldl_append

theorem run_snoc (step : S → M → S) (s : S) (ms : List M) (m : M) : run step s (ms ++ [m]) = step (run step s ms) m := by
  rw [run_append]
  rfl

def Along (step : S → M → S) (ok : S → M → Prop) (s : S) (ms : List M) : Prop :=
  ∀ pre m post, ms = pre ++ m :: post → ok (run step s pre) m

theorem along_nil : Along step ok s [] := by
  intro pre m post h
  simp at h

theorem along_cons : Along step ok s (m :: ms) ↔ ok s m ∧ Along step ok (step s m) ms := by
  constructor
  · intro h
    refine ⟨h [] m ms rfl, fun pre m' post heq => ?_⟩
    exact h (m :: pre) m' post (by rw [heq, List.cons_append])
  · rintro ⟨hm, h⟩ pre m' post heq
    cases pre with
    | nil =>
      obtain ⟨rfl, rfl⟩ := List.cons.inj heq
      exact hm
    | cons a pre =>
      obtain ⟨rfl, rfl⟩ := List.cons.inj heq
      exact h pre m' post rfl

instance decidableAlong [∀ s m, Decidable (ok s m)] : ∀ (s : S) (ms : List M), Decidable (Along step ok s ms)
  | _, [] => isTrue along_nil
  | s, m :: ms =>
    have := decidableAlong (step s m) ms
    decidable_of_iff (ok s m ∧ Along step ok (step s m) ms) along_cons.symm

theorem along_append : Along step ok s (as ++ bs) ↔ Along step ok s as ∧ Along step ok (run step s as) bs := by
  induction as generalizing s with
  | nil => simp [along_nil]
  | cons a as ih => rw [List.cons_append, along_cons, along_cons, ih, run_cons, and_assoc]

theorem Along.prefix (h : Along step ok s (as ++ bs)) : Along step ok s as := (along_append.1 h).1

/-- an invariant that the moves of the run keep -/
theorem run_inv (h : Along step ok s ms) (hs : I s) (hstep : ∀ s m, I s → ok s m → I (step s m)) :
    I (run step s ms) := by
  induction ms generalizing s with
  | nil => exact hs
  | cons m ms ih =>
    obtain ⟨hm, hrest⟩ := along_cons.1 h
    exact ih hrest (hstep s m hs hm)

theorem along_true : Along step (fun _ _ => True) s ms := fun _ _ _ _ => trivial

/-- what an invariant says of a move it says of every move of a run -/
theorem along_of_inv (hs : I s) (hstep : ∀ s m, I s → I (step s m)) (hok : ∀ s m, I s → ok s m) :
    Along step ok s ms := by
  intro pre m post _
  have htrue : Along step (fun _ _ => True) s pre := along_true
  exact hok _ m (run_inv htrue hs fun s m hI _ => hstep s m hI)

end LkmService.Trace
