/-
The invariant of balances and ledger, what a session may rely on, and what it may have written.

- `Sound strict σ u`: the balance of user `u` is the sum of the user's ledger rows, and each row carries the running
  sum. With `strict`, no two rows of the user have the same ref.
- `BalHeld o σ u`: the session holds the user's balance row, or the index entry of a new one. While it does, nobody
  else writes the user's ledger.
- `Lawful`: what the session sees (`σ.merge o`) is sound for every user, and it writes only where it holds the balance.
-/
import Mathlib.Algebra.BigOperators.Group.Finset.Basic
import Mathlib.Algebra.Order.Ring.Int
import LkmService.Points.Model

namespace LkmService.Points

open Session Sql Tbl

abbrev State := Snap Row Unit

abbrev Held := Own Row Index

variable {strict : Prop} {σ τ υ : State} {u : ℕ}

/-! ## The sums of a user's ledger -/

/-- the points that ledger row `n` moves for user `u` -/
def deltaOf (σ : State) (u n : ℕ) : ℤ :=
  match σ.com ledger n with
  | some r => if r.userId = u then r.delta else 0
  | none => 0

/-- the sum of the user's first ledger rows, up to number `n` -/
def sumBelow (σ : State) (u n : ℕ) : ℤ := ∑ m ∈ Finset.range n, deltaOf σ u m

/-- all ledger rows of the user have a number below `n` -/
def Bound (σ : State) (u n : ℕ) : Prop := ∀ m r, σ.com ledger m = some r → r.userId = u → m < n

/-- the two states have the same ledger rows of the user -/
def SameLedger (σ τ : State) (u : ℕ) : Prop :=
  ∀ n r, r.userId = u → (σ.com ledger n = some r ↔ τ.com ledger n = some r)

theorem SameLedger.symm (h : SameLedger σ τ u) : SameLedger τ σ u := fun n r hr => (h n r hr).symm

theorem deltaOf_of_none {n : ℕ} (h : ∀ r, σ.com ledger n = some r → r.userId ≠ u) : deltaOf σ u n = 0 := by
  unfold deltaOf
  split
  · next r hr => rw [if_neg (h r hr)]
  · rfl

theorem deltaOf_of_some {n : ℕ} {r : PointsLedger} (h : σ.com ledger n = some r) (hu : r.userId = u) :
    deltaOf σ u n = r.delta := by
  simp only [deltaOf, h, if_pos hu]

theorem SameLedger.deltaOf (h : SameLedger σ τ u) (n : ℕ) : deltaOf σ u n = deltaOf τ u n := by
  by_cases hx : ∃ r, σ.com ledger n = some r ∧ r.userId = u
  · obtain ⟨r, hr, hu⟩ := hx
    rw [deltaOf_of_some hr hu, deltaOf_of_some ((h n r hu).1 hr) hu]
  · rw [deltaOf_of_none fun r hr hu => hx ⟨r, hr, hu⟩,
      deltaOf_of_none fun r hr hu => hx ⟨r, (h n r hu).2 hr, hu⟩]

theorem SameLedger.sumBelow (h : SameLedger σ τ u) (n : ℕ) : sumBelow σ u n = sumBelow τ u n :=
  Finset.sum_congr rfl fun m _ => h.deltaOf m

theorem SameLedger.bound (h : SameLedger σ τ u) {n : ℕ} (hb : Bound σ u n) : Bound τ u n :=
  fun m r hr hu => hb m r ((h m r hu).2 hr) hu

/-- a new ledger row `n` of the user adds its points to every sum that it is below -/
theorem sumBelow_insert {n : ℕ} {r : PointsLedger} (hn : τ.com ledger n = some r) (hu : r.userId = u)
    (hσ : ∀ r', σ.com ledger n = some r' → r'.userId ≠ u) (hsame : ∀ m, m ≠ n → τ.com ledger m = σ.com ledger m)
    (N : ℕ) : sumBelow τ u N = sumBelow σ u N + if n < N then r.delta else 0 := by
  induction N with
  | zero => simp [sumBelow]
  | succ N ih =>
    have hstep : ∀ υ : State, Points.sumBelow υ u (N + 1) = Points.sumBelow υ u N + deltaOf υ u N :=
      fun υ => Finset.sum_range_succ _ _
    rw [hstep, hstep, ih]
    rcases Nat.lt_trichotomy n N with h | h | h
    · have : deltaOf τ u N = deltaOf σ u N := by simp only [deltaOf, hsame N (by omega)]
      rw [if_pos h, if_pos (by omega), this]
      omega
    · subst h
      rw [if_neg (by omega), if_pos (by omega), deltaOf_of_some hn hu, deltaOf_of_none hσ]
    · have : deltaOf τ u N = deltaOf σ u N := by simp only [deltaOf, hsame N (by omega)]
      rw [if_neg (by omega), if_neg (by omega), this]
      omega

/-! ## Soundness of one user -/

structure Sound (strict : Prop) (σ : State) (u : ℕ) : Prop where
  balance : ∀ b x, σ.com balances b = some x → x.userId = u → ∀ N, Bound σ u N → x.balance = sumBelow σ u N
  /-- only a user with a balance row has ledger rows -/
  owner : ∀ n r, σ.com ledger n = some r → r.userId = u → ∃ b x, σ.com balances b = some x ∧ x.userId = u
  running : ∀ n r, σ.com ledger n = some r → r.userId = u → r.balanceAfter = sumBelow σ u (n + 1)
  debit : ∀ n r, σ.com ledger n = some r → r.userId = u → r.delta < 0 → r.allowNegative = false → 0 ≤ r.balanceAfter
  refs : strict → ∀ n n' r r', σ.com ledger n = some r → σ.com ledger n' = some r' → r.userId = u → r'.userId = u →
    r.refType = r'.refType → r.refId = r'.refId → n = n'

/-- soundness of a user depends on the user's rows only -/
theorem Sound.congr (h : Sound strict σ u) (hl : SameLedger σ τ u)
    (hb : ∀ b x, x.userId = u → (σ.com balances b = some x ↔ τ.com balances b = some x)) : Sound strict τ u where
  balance b x hx hu N hN := by
    rw [← hl.sumBelow]
    exact h.balance b x ((hb b x hu).2 hx) hu N (hl.symm.bound hN)
  owner n r hr hu := by
    obtain ⟨b, x, hx, hxu⟩ := h.owner n r ((hl n r hu).2 hr) hu
    exact ⟨b, x, (hb b x hxu).1 hx, hxu⟩
  running n r hr hu := by
    rw [← hl.sumBelow]
    exact h.running n r ((hl n r hu).2 hr) hu
  debit n r hr hu := h.debit n r ((hl n r hu).2 hr) hu
  refs hs n n' r r' hr hr' hu hu' := h.refs hs n n' r r' ((hl n r hu).2 hr) ((hl n' r' hu').2 hr') hu hu'

/-- a new ledger row together with the new balance keeps the user sound -/
theorem Sound.insert {n b : ℕ} {r : PointsLedger} {x : UserBalance} (h : Sound strict σ u)
    (hx : σ.com balances b = some x) (hxu : x.userId = u)
    (hone : ∀ b' x', σ.com balances b' = some x' → x'.userId = u → b' = b)
    (hb : τ.com balances b = some { x with balance := x.balance + r.delta })
    (hbs : ∀ b', b' ≠ b → τ.com balances b' = σ.com balances b')
    (hn : τ.com ledger n = some r) (hru : r.userId = u) (hN : Bound σ u n)
    (hls : ∀ m, m ≠ n → τ.com ledger m = σ.com ledger m) (hafter : r.balanceAfter = x.balance + r.delta)
    (hdebit : r.delta < 0 → r.allowNegative = false → 0 ≤ r.balanceAfter)
    (hrefs : strict → ∀ m r', σ.com ledger m = some r' → r'.userId = u → ¬ (r'.refType = r.refType ∧ r'.refId = r.refId)) :
    Sound strict τ u := by
  have hσ : ∀ r', σ.com ledger n = some r' → r'.userId ≠ u := fun r' hr' hu' => Nat.lt_irrefl n (hN n r' hr' hu')
  have hsum := sumBelow_insert hn hru hσ hls
  have hbal : x.balance = sumBelow σ u n := h.balance b x hx hxu n hN
  have hold : ∀ m r', τ.com ledger m = some r' → r'.userId = u → m = n ∧ r' = r ∨ m < n ∧ σ.com ledger m = some r' := by
    intro m r' hr' hu'
    by_cases hmn : m = n
    · subst hmn
      rw [hn, Option.some.injEq] at hr'
      exact Or.inl ⟨rfl, hr'.symm⟩
    · rw [hls m hmn] at hr'
      exact Or.inr ⟨hN m r' hr' hu', hr'⟩
  refine ⟨fun b' x' hx' hu' N hNτ => ?_, fun _ _ _ _ => ⟨b, _, hb, hxu⟩, fun m r' hr' hu' => ?_,
    fun m r' hr' hu' => ?_, fun hs m m' r₁ r₂ h₁ h₂ hu₁ hu₂ ht hi => ?_⟩
  · by_cases hbb : b' = b
    · subst hbb
      rw [hb, Option.some.injEq] at hx'
      have hlt : n < N := hNτ n r hn hru
      have hbN : Bound σ u N := fun m r' hr' hu' => Nat.lt_trans (hN m r' hr' hu') hlt
      rw [← hx', hsum N, if_pos hlt, ← h.balance b' x hx hxu N hbN]
    · rw [hbs b' hbb] at hx'
      exact absurd (hone b' x' hx' hu') hbb
  · rcases hold m r' hr' hu' with ⟨rfl, rfl⟩ | ⟨hlt, hm⟩
    · have hbn : Bound σ u (m + 1) := fun k r'' hk hu'' => Nat.lt_succ_of_lt (hN k r'' hk hu'')
      rw [hafter, hsum (m + 1), if_pos (Nat.lt_succ_self m), ← h.balance b x hx hxu (m + 1) hbn]
    · rw [hsum (m + 1), if_neg (by omega), Int.add_zero]
      exact h.running m r' hm hu'
  · rcases hold m r' hr' hu' with ⟨rfl, rfl⟩ | ⟨-, hm⟩
    · exact hdebit
    · exact h.debit m r' hm hu'
  · rcases hold m r₁ h₁ hu₁ with ⟨rfl, rfl⟩ | ⟨-, hm⟩ <;> rcases hold m' r₂ h₂ hu₂ with ⟨rfl, rfl⟩ | ⟨-, hm'⟩
    · rfl
    · exact absurd ⟨ht.symm, hi.symm⟩ (hrefs hs m' r₂ hm' hu₂)
    · exact absurd ⟨ht, hi⟩ (hrefs hs m r₁ hm hu₁)
    · exact h.refs hs m m' r₁ r₂ hm hm' hu₁ hu₂ ht hi

/-- a first balance row of zero points -/
theorem Sound.open {b : ℕ} (h : Sound strict σ u) (hno : ∀ b' x', σ.com balances b' = some x' → x'.userId ≠ u)
    (hb : τ.com balances b = some ⟨u, 0⟩) (hbs : ∀ b', b' ≠ b → τ.com balances b' = σ.com balances b')
    (hls : ∀ m, τ.com ledger m = σ.com ledger m) : Sound strict τ u := by
  have hnone : ∀ m r, τ.com ledger m = some r → r.userId ≠ u := by
    intro m r hr hu
    rw [hls] at hr
    obtain ⟨b', x', hx', hu'⟩ := h.owner m r hr hu
    exact hno b' x' hx' hu'
  refine ⟨fun b' x' hx' hu' N _ => ?_, fun m r hr hu => absurd hu (hnone m r hr),
    fun m r hr hu => absurd hu (hnone m r hr), fun m r hr hu => absurd hu (hnone m r hr),
    fun _ m _ r _ hr _ hu => absurd hu (hnone m r hr)⟩
  have hsum : sumBelow τ u N = 0 := Finset.sum_eq_zero fun m _ => deltaOf_of_none (hnone m)
  rw [hsum]
  by_cases hbb : b' = b
  · subst hbb
    rw [hb, Option.some.injEq] at hx'
    exact hx' ▸ rfl
  · rw [hbs b' hbb] at hx'
    exact absurd hu' (hno b' x' hx')

end LkmService.Points
