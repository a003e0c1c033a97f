/-
What a session may rely on while it holds balances, what it may have written, and that its commit keeps the invariant.
-/
import LkmService.Points.Invariant

namespace LkmService.Points

open Session Sql Tbl

variable {strict : Prop} {o o' : Held} {σ τ υ : State} {u : ℕ}

structure Inv (strict : Prop) (σ : State) : Prop where
  sound : ∀ u, Sound strict σ u
  one : ∀ b b' x x', σ.com balances b = some x → σ.com balances b' = some x' → x.userId = x'.userId → b = b'

theorem Inv.bump (h : Inv strict σ) (t : Tbl) (n : ℕ) : Inv strict (σ.bump t n) where
  sound u := { h.sound u with }
  one := h.one

/-! ## Holding a balance -/

/-- the session holds the user's balance row, or the index entry of one that it has inserted -/
def BalHeld (o : Held) (σ : State) (u : ℕ) : Prop :=
  (∃ b x, o.row balances b ≠ none ∧ σ.com balances b = some x ∧ x.userId = u) ∨
    o.key (.balance u) ∧ ∀ b x, σ.com balances b = some x → x.userId ≠ u

theorem BalHeld.sub (hs : o.Sub o') (h : BalHeld o σ u) : BalHeld o' σ u :=
  h.imp (fun ⟨b, x, hb, hc, hu⟩ => ⟨b, x, hs.row _ _ hb, hc, hu⟩) fun ⟨hk, hn⟩ => ⟨hs.key _ hk, hn⟩

/-- no two sessions hold the balance of one user -/
theorem BalHeld.exclusive (hd : o'.Disjoint o) (hi : Inv strict σ) (h' : BalHeld o' σ u) (h : BalHeld o σ u) :
    False := by
  rcases h' with ⟨b', x', hb', hc', hu'⟩ | ⟨hk', hn'⟩ <;> rcases h with ⟨b, x, hb, hc, hu⟩ | ⟨hk, hn⟩
  · have := hi.one b' b x' x hc' hc (hu'.trans hu.symm)
    subst this
    exact hb (hd.row _ _ hb')
  · exact hn b' x' hc' hu'
  · exact hn' b x hc hu
  · exact hd.key _ hk' hk

structure Rely (o : Held) (σ τ : State) : Prop where
  balances : ∀ b x, σ.com balances b = some x → ∃ x', τ.com balances b = some x' ∧ x'.userId = x.userId
  ledger : ∀ n r, σ.com ledger n = some r → τ.com ledger n = some r
  key_free : ∀ u, o.key (.balance u) → (∀ b x, σ.com Tbl.balances b = some x → x.userId ≠ u) →
    ∀ b x, τ.com Tbl.balances b = some x → x.userId ≠ u
  held : ∀ u, BalHeld o σ u → ∀ n r, τ.com Tbl.ledger n = some r → r.userId = u → σ.com Tbl.ledger n = some r

theorem Rely.refl (o : Held) (σ : State) : Rely o σ σ :=
  ⟨fun _ x h => ⟨x, h, rfl⟩, fun _ _ h => h, fun _ _ h => h, fun _ _ _ _ h _ => h⟩

theorem Rely.balHeld (h : Rely o σ τ) (hb : BalHeld o σ u) : BalHeld o τ u := by
  rcases hb with ⟨b, x, hb, hc, hu⟩ | ⟨hk, hn⟩
  · obtain ⟨x', hc', hu'⟩ := h.balances b x hc
    exact Or.inl ⟨b, x', hb, hc', hu'.trans hu⟩
  · exact Or.inr ⟨hk, h.key_free u hk hn⟩

theorem Rely.trans (h : Rely o σ τ) (h' : Rely o τ υ) : Rely o σ υ where
  balances b x hx := by
    obtain ⟨x₁, hx₁, hu₁⟩ := h.balances b x hx
    obtain ⟨x₂, hx₂, hu₂⟩ := h'.balances b x₁ hx₁
    exact ⟨x₂, hx₂, hu₂.trans hu₁⟩
  ledger n r hr := h'.ledger n r (h.ledger n r hr)
  key_free u hk hn := h'.key_free u hk (h.key_free u hk hn)
  held u hb n r hr hu := h.held u hb n r (h'.held u (h.balHeld hb) n r hr hu) hu

theorem Rely.sub (hs : o.Sub o') (h : Rely o' σ τ) : Rely o σ τ where
  balances := h.balances
  ledger := h.ledger
  key_free u hk := h.key_free u (hs.key _ hk)
  held u hb := h.held u (hb.sub hs)

theorem Rely.bump (o : Held) (σ : State) (t : Tbl) (n : ℕ) : Rely o σ (σ.bump t n) := { Rely.refl o σ with }

theorem Rely.sameLedger (h : Rely o σ τ) (hb : BalHeld o σ u) : SameLedger σ τ u :=
  fun n r hr => ⟨h.ledger n r, fun hτ => h.held u hb n r hτ hr⟩

/-! ## Lawful writes -/

structure Lawful (strict : Prop) (o : Held) (σ : State) : Prop where
  ledger_row : ∀ n v, o.row ledger n = some v → σ.com ledger n = none ∧ ∃ r, v = some r ∧ BalHeld o σ r.userId
  balance_row : ∀ b v, o.row balances b = some v → ∃ x, v = some x ∧
    ((∃ x₀, σ.com balances b = some x₀ ∧ x₀.userId = x.userId) ∨
      σ.com balances b = none ∧ o.key (.balance x.userId) ∧ ∀ b' x', σ.com balances b' = some x' → x'.userId ≠ x.userId)
  own_one : ∀ b b' x x', o.row balances b = some (some x) → o.row balances b' = some (some x') →
    x.userId = x'.userId → b = b'
  sound : ∀ u, Sound strict (σ.merge o) u

theorem Lawful.empty (h : Inv strict σ) : Lawful strict {} σ where
  ledger_row n v hv := by simp at hv
  balance_row b v hv := by simp at hv
  own_one b b' x x' hx := by simp at hx
  sound := h.sound

section

variable (h : Lawful strict o σ)

include h

/-- a balance row that the session owns is held -/
theorem Lawful.held {b : ℕ} {x : UserBalance} (hb : o.row balances b = some (some x)) : BalHeld o σ x.userId := by
  obtain ⟨x', hx, ⟨x₀, hc, hu⟩ | ⟨-, hk, hn⟩⟩ := h.balance_row b _ hb
  · simp only [Option.some.injEq] at hx
    subst hx
    exact Or.inl ⟨b, x₀, by simp [hb], hc, hu⟩
  · simp only [Option.some.injEq] at hx
    subst hx
    exact Or.inr ⟨hk, hn⟩

/-- in what the session sees a user has one balance row -/
theorem Lawful.one (hi : Inv strict σ) (b b' : ℕ) (x x' : UserBalance) (hb : (σ.merge o).com balances b = some x)
    (hb' : (σ.merge o).com balances b' = some x') (hu : x.userId = x'.userId) : b = b' := by
  -- an owned row beside a committed one
  have hmix : ∀ b b' (x x' : UserBalance), o.row balances b = some (some x) → σ.com balances b' = some x' →
      x.userId = x'.userId → b = b' := by
    intro b b' x x' ho hc hu
    obtain ⟨x₁, h₁, ⟨x₀, hc₀, hu₀⟩ | ⟨-, -, hn⟩⟩ := h.balance_row b _ ho
    · simp only [Option.some.injEq] at h₁
      subst h₁
      exact hi.one b b' x₀ x' hc₀ hc (hu₀.trans hu)
    · simp only [Option.some.injEq] at h₁
      subst h₁
      exact absurd hu.symm (hn b' x' hc)
  rcases Snap.merge_cases hb with ho | ⟨-, hc⟩ <;> rcases Snap.merge_cases hb' with ho' | ⟨-, hc'⟩
  · exact h.own_one b b' x x' ho ho' hu
  · exact hmix b b' x x' ho hc' hu
  · exact (hmix b' b x' x ho' hc hu.symm).symm
  · exact hi.one b b' x x' hc hc' hu

/-- what a session has written stays lawful while the others move -/
theorem Lawful.later (hi : Inv strict σ) (hτ : Inv strict τ) (hr : Rely o σ τ)
    (hcom : ∀ t n, o.row t n ≠ none → τ.com t n = σ.com t n) : Lawful strict o τ := by
  have hcom' : ∀ t n v, o.row t n = some v → τ.com t n = σ.com t n := fun t n v hv => hcom t n (by simp [hv])
  refine ⟨fun n v hv => ?_, fun b v hv => ?_, h.own_one, fun u => ?_⟩
  · obtain ⟨hc, r, hvr, hb⟩ := h.ledger_row n v hv
    exact ⟨(hcom' _ _ _ hv).trans hc, r, hvr, hr.balHeld hb⟩
  · obtain ⟨x, hx, ⟨x₀, hc, hu⟩ | ⟨hc, hk, hn⟩⟩ := h.balance_row b v hv
    · exact ⟨x, hx, Or.inl ⟨x₀, (hcom' _ _ _ hv).trans hc, hu⟩⟩
    · exact ⟨x, hx, Or.inr ⟨(hcom' _ _ _ hv).trans hc, hk, hr.key_free _ hk hn⟩⟩
  · by_cases hb : BalHeld o σ u
    · refine (h.sound u).congr (fun n r hru => ?_) fun b x hxu => ?_
      · rcases ho : o.row ledger n with _ | v
        · rw [Snap.merge_of_none ho, Snap.merge_of_none ho]
          exact hr.sameLedger hb n r hru
        · rw [Snap.merge_of_some ho, Snap.merge_of_some ho]
      · rcases ho : o.row balances b with _ | v
        · -- all rows of a held balance are owned
          have hnone : ∀ υ : State, Inv strict υ → BalHeld o υ u → υ.com balances b ≠ some x := by
            intro υ hυ hbυ hx
            rcases hbυ with ⟨b', x', hb', hc', hu'⟩ | ⟨-, hn⟩
            · have := hυ.one b b' x x' hx hc' (hxu.trans hu'.symm)
              subst this
              exact hb' ho
            · exact hn b x hx hxu
          rw [Snap.merge_of_none ho, Snap.merge_of_none ho]
          exact ⟨fun hx => absurd hx (hnone σ hi hb), fun hx => absurd hx (hnone τ hτ (hr.balHeld hb))⟩
        · rw [Snap.merge_of_some ho, Snap.merge_of_some ho]
    · -- nothing of the user is owned, before and after
      have hrow : ∀ n v, o.row ledger n = some v → ∃ r, v = some r ∧ r.userId ≠ u := by
        intro n v hv
        obtain ⟨-, r, hvr, hb'⟩ := h.ledger_row n v hv
        exact ⟨r, hvr, fun he => hb (he ▸ hb')⟩
      have hbal : ∀ b v, o.row balances b = some v → (∃ x, v = some x ∧ x.userId ≠ u) ∧
          ∀ x, σ.com balances b = some x → x.userId ≠ u := by
        intro b v hv
        obtain ⟨x, hx, hcase⟩ := h.balance_row b v hv
        subst hx
        have hne : x.userId ≠ u := fun he => hb (he ▸ h.held hv)
        refine ⟨⟨x, rfl, hne⟩, fun x₀ hx₀ => ?_⟩
        rcases hcase with ⟨x₁, hc, hu₁⟩ | ⟨hc, -⟩
        · rw [hc, Option.some.injEq] at hx₀
          exact hx₀ ▸ hu₁ ▸ hne
        · rw [hc] at hx₀; simp at hx₀
      refine (hτ.sound u).congr (fun n r hru => ?_) fun b x hxu => ?_
      · rcases ho : o.row ledger n with _ | v
        · rw [Snap.merge_of_none ho]
        · obtain ⟨r', rfl, hne⟩ := hrow n v ho
          rw [Snap.merge_of_some ho, hcom' _ _ _ ho, (h.ledger_row n _ ho).1]
          refine ⟨fun hx => by simp at hx, fun hx => ?_⟩
          simp only [Option.some.injEq] at hx
          exact absurd (hx ▸ hru) hne
      · rcases ho : o.row balances b with _ | v
        · rw [Snap.merge_of_none ho]
        · obtain ⟨⟨x', rfl, hne⟩, hold⟩ := hbal b v ho
          rw [Snap.merge_of_some ho, hcom' _ _ _ ho]
          refine ⟨fun hx => absurd hxu (hold x hx), fun hx => ?_⟩
          simp only [Option.some.injEq] at hx
          exact absurd (hx ▸ hxu) hne

/-! ## The commit -/

theorem Lawful.inv (hi : Inv strict σ) : Inv strict (σ.merge o) := ⟨h.sound, h.one hi⟩

theorem Lawful.rely (hi : Inv strict σ) (hd : o'.Disjoint o) : Rely o' σ (σ.merge o) where
  balances b x hx := by
    rcases ho : o.row balances b with _ | v
    · exact ⟨x, by rwa [Snap.merge_of_none ho], rfl⟩
    · obtain ⟨x', rfl, ⟨x₀, hc, hu⟩ | ⟨hc, -⟩⟩ := h.balance_row b v ho
      · rw [hx, Option.some.injEq] at hc
        exact ⟨x', Snap.merge_of_some ho σ, by rw [hc, hu]⟩
      · rw [hx] at hc; simp at hc
  ledger n r hr := by
    rcases ho : o.row ledger n with _ | v
    · rwa [Snap.merge_of_none ho]
    · have := (h.ledger_row n v ho).1
      rw [hr] at this; simp at this
  key_free u hk hn b x hx hu := by
    rcases Snap.merge_cases hx with ho | ⟨-, hc⟩
    · obtain ⟨x', hx', ⟨x₀, hc, hu₀⟩ | ⟨-, hk', -⟩⟩ := h.balance_row b _ ho <;>
        simp only [Option.some.injEq] at hx' <;> subst hx'
      · exact hn b x₀ hc (hu₀.trans hu)
      · exact hd.key _ hk (hu ▸ hk')
    · exact hn b x hc hu
  held u hb n r hr hu := by
    rcases Snap.merge_cases hr with ho | ⟨-, hc⟩
    · obtain ⟨-, r', hr', hb'⟩ := h.ledger_row n _ ho
      simp only [Option.some.injEq] at hr'
      subst hr'
      exact (BalHeld.exclusive hd hi hb (hu ▸ hb')).elim
    · exact hc

end

end LkmService.Points
