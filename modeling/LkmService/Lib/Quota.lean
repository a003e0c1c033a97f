/-
Quotas on what is created: a limit, what a count at some time takes in, and the windows that the limit is meant for.

- `Quota`: a count takes in all that shares a window with what is created after it.
- `sliding`, `daily`: the windows of one length at every phase, and the days of the calendar.
- `Quota.Kept`: no window has more rows than the limit. `Kept.create`: a row that is created by who has counted all and found
  less than the limit keeps it; `Kept.same`: so does a change of what the quota does not look at.
-/
import LkmService.Lib.Count

namespace LkmService.Sql

/-- `counts now c`: a count at `now` takes in what was created at `c`; `within w c`: `c` lies in the window `w` -/
structure Quota where
  limit : ℕ
  counts : ℤ → ℤ → Bool
  within : ℤ → ℤ → Bool
  covers : ∀ now c c' w, now ≤ c → within w c = true → within w c' = true → counts now c' = true

namespace Quota

/-- the windows of length `W`, each by its start -/
def sliding (limit : ℕ) (W : ℤ) : Quota where
  limit := limit
  counts now c := decide (now - W < c)
  within a c := decide (a ≤ c ∧ c < a + W)
  covers now c c' a hle hc hc' := by
    rw [decide_eq_true_eq] at hc hc' ⊢
    omega

/-- a day in microseconds -/
abbrev day : ℤ := 86400000000

/-- the days, each by its number -/
def daily (limit : ℕ) : Quota where
  limit := limit
  counts now c := decide (now - now % day ≤ c)
  within k c := decide (c / day = k)
  covers now c c' k hle hc hc' := by
    simp only [decide_eq_true_eq, day] at hc hc' ⊢
    omega

variable {T : Type} {Row : T → Type} {K X : Type} {σ τ : Snap Row X}

section Kept

variable (q : Quota) (t : T) (mine : Row t → Bool) (created : Row t → ℤ)

/-- no window has more rows than the limit -/
def Kept (σ : Snap Row X) : Prop := ∀ w, (σ.matching t fun r => mine r && q.within w (created r)).ncard ≤ q.limit

/-- the rows that a count at `now` takes in -/
noncomputable def counted (now : ℤ) (σ : Snap Row X) : ℕ := (σ.matching t fun r => mine r && q.counts now (created r)).ncard

end Kept

variable {q : Quota} {t : T} {mine : Row t → Bool} {created : Row t → ℤ} {m : ℕ} {now : ℤ} {r : Row t} {o : Own Row K}

theorem Kept.create (h : q.Kept t mine created σ) (hfresh : σ.Fresh o) (hnone : σ.com t m = none) (hnew : τ.com t m = some r)
    (hrest : ∀ m', m' ≠ m → τ.com t m' = σ.com t m') (hnow : now ≤ created r)
    (hcount : q.counted t mine created now σ < q.limit) : q.Kept t mine created τ := by
  intro w
  have hsplit := Snap.ncard_matching (p := fun r => mine r && q.within w (created r)) (Snap.matching_finite hfresh _) hrest
  rw [hnone, hnew, Option.any_none, Option.any_some] at hsplit
  cases hw : q.within w (created r) with
  | false =>
    have := h w
    simp only [hw, Bool.and_false, Bool.toNat_false] at hsplit
    omega
  | true =>
    -- all that was created in the window has been counted
    have hsub : σ.matching t (fun r => mine r && q.within w (created r)) ⊆
        σ.matching t fun r => mine r && q.counts now (created r) := by
      intro m' hm'
      simp only [Snap.matching, Set.mem_ofPred_eq, Option.any_eq_true, Bool.and_eq_true] at hm' ⊢
      obtain ⟨r', hr', hmine, hw'⟩ := hm'
      exact ⟨r', hr', hmine, q.covers now _ _ w hnow hw hw'⟩
    have hle := Set.ncard_le_ncard hsub (Snap.matching_finite hfresh _)
    have htop := Bool.toNat_le (mine r && q.within w (created r))
    rw [counted] at hcount
    omega

/-- what the quota looks at stays -/
theorem Kept.same (h : q.Kept t mine created σ)
    (hsame : ∀ m w, (τ.com t m).any (fun r => mine r && q.within w (created r)) =
      (σ.com t m).any fun r => mine r && q.within w (created r)) : q.Kept t mine created τ := by
  intro w
  have hset : τ.matching t (fun r => mine r && q.within w (created r)) =
      σ.matching t fun r => mine r && q.within w (created r) := by
    refine Set.ext fun m => ?_
    simp only [Snap.matching, Set.mem_ofPred_eq, hsame]
  rw [hset]
  exact h w

end Quota

end LkmService.Sql
