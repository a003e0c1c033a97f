/-
The writes of a transaction that moves points, and that each of them is lawful: the lock of a balance row, a first
balance row, and a new ledger row together with the new balance.
-/
import LkmService.Points.Lawful

namespace LkmService.Points

open Session Sql Tbl

variable {strict : Prop} {o o' : Held} {σ τ : State} {u : ℕ}

/-- lawfulness depends on the balance and ledger rows, and on the held index entries -/
theorem Lawful.congr (h : Lawful strict o σ) (hrow : ∀ t, t = balances ∨ t = ledger → o'.row t = o.row t)
    (hkey : ∀ k, o.key k → o'.key k) (hcom : ∀ t, t = balances ∨ t = ledger → τ.com t = σ.com t) :
    Lawful strict o' τ := by
  have hrb := hrow balances (Or.inl rfl)
  have hrl := hrow ledger (Or.inr rfl)
  have hcb := hcom balances (Or.inl rfl)
  have hcl := hcom ledger (Or.inr rfl)
  refine ⟨fun n v hv => ?_, fun b v hv => ?_, fun b b' x x' hb hb' => ?_, fun u => ?_⟩
  · rw [hrl] at hv
    obtain ⟨hc, r, hr, hheld⟩ := h.ledger_row n v hv
    rw [hcl]
    refine ⟨hc, r, hr, hheld.imp (fun ⟨b, x, hb, hx, hu⟩ => ⟨b, x, ?_, ?_, hu⟩) fun ⟨hk, hn⟩ => ⟨hkey _ hk, ?_⟩⟩
    · rwa [hrb]
    · rwa [hcb]
    · rwa [hcb]
  · rw [hrb] at hv
    obtain ⟨x, hx, hcase⟩ := h.balance_row b v hv
    rw [hcb]
    exact ⟨x, hx, hcase.imp id fun ⟨hc, hk, hn⟩ => ⟨hc, hkey _ hk, hn⟩⟩
  · rw [hrb] at hb hb'
    exact h.own_one b b' x x' hb hb'
  · refine (h.sound u).congr (fun n r _ => ?_) fun b x _ => ?_
    · rw [Snap.merge_com, Snap.merge_com, hrl, hcl]
    · rw [Snap.merge_com, Snap.merge_com, hrb, hcb]

theorem Lawful.bump (h : Lawful strict o σ) (t : Tbl) (n : ℕ) : Lawful strict o (σ.bump t n) :=
  h.congr (fun _ _ => rfl) (fun _ hk => hk) fun _ _ => rfl

theorem Lawful.take (h : Lawful strict o σ) (k : Index) : Lawful strict (o.take k) σ :=
  h.congr (fun _ _ => rfl) (fun _ hk => Or.inr hk) fun _ _ => rfl

/-- rows of the other tables are written freely -/
theorem Lawful.put_other (h : Lawful strict o σ) {t : Tbl} (hb : t ≠ balances) (hl : t ≠ ledger) (n : ℕ)
    (v : Option (Row t)) : Lawful strict (o.put t n v) σ := by
  refine h.congr (fun t' ht => Own.put_row_other t n v ?_) (fun _ hk => hk) fun _ _ => rfl
  rcases ht with rfl | rfl
  · exact hb.symm
  · exact hl.symm

/-- locking a balance row -/
theorem Lawful.lock (h : Lawful strict o σ) (hi : Inv strict σ) {b : ℕ} {x : UserBalance}
    (hx : o.view σ balances b = some x) : Lawful strict (o.put balances b (some x)) σ := by
  have hview : ∀ t n, (σ.merge (o.put balances b (some x))).com t n = (σ.merge o).com t n := by
    intro t n
    by_cases hn : t = balances ∧ n = b
    · obtain ⟨rfl, rfl⟩ := hn
      rw [Snap.merge_of_some (Own.put_row_self ..)]
      exact hx.symm
    · rw [Snap.merge_com, Snap.merge_com, Own.put_row_of_ne _ _ _ fun ht hm => hn ⟨ht, hm⟩]
  have hone := h.one hi
  refine ⟨fun n v hv => ?_, fun b' v hv => ?_, fun b₁ b₂ x₁ x₂ h₁ h₂ hu => ?_, fun u => ?_⟩
  · rw [Own.put_row_other _ _ _ (by decide)] at hv
    obtain ⟨hc, r, hr, hheld⟩ := h.ledger_row n v hv
    exact ⟨hc, r, hr, hheld.sub (Own.sub_put ..)⟩
  · rw [Own.put_row_same] at hv
    split_ifs at hv with hb
    · subst hb
      rw [Option.some.injEq] at hv
      refine ⟨x, hv.symm, ?_⟩
      rcases ho : o.row balances b' with _ | w
      · rw [Own.view_of_none ho] at hx
        exact Or.inl ⟨x, hx, rfl⟩
      · rw [Own.view_of_row ho] at hx
        obtain ⟨x', hx', hcase⟩ := h.balance_row b' w ho
        rw [hx, Option.some.injEq] at hx'
        exact hx' ▸ hcase
    · exact h.balance_row b' v hv
  · exact hone b₁ b₂ x₁ x₂ ((hview _ _).symm.trans (Snap.merge_of_some h₁ σ))
      ((hview _ _).symm.trans (Snap.merge_of_some h₂ σ)) hu
  · exact (h.sound u).congr (fun n r _ => by rw [hview]) fun b' x' _ => by rw [hview]

/-- a first balance row of a user who has none -/
theorem Lawful.open (h : Lawful strict o σ) {b : ℕ} (hf : o.row balances b = none ∧ σ.com balances b = none)
    (hno : ∀ b' x', o.view σ balances b' = some x' → x'.userId ≠ u) :
    Lawful strict ((o.put balances b (some ⟨u, 0⟩)).take (.balance u)) σ := by
  have hview : ∀ t n, (t = balances → n ≠ b) →
      (σ.merge ((o.put balances b (some ⟨u, 0⟩)).take (.balance u))).com t n = (σ.merge o).com t n := by
    intro t n hn
    rw [Snap.merge_com, Snap.merge_com, Own.take_row, Own.put_row_of_ne _ _ _ hn]
  have hself : (σ.merge ((o.put balances b (some ⟨u, 0⟩)).take (.balance u))).com balances b = some ⟨u, 0⟩ :=
    Snap.merge_of_some (Own.put_row_self ..) σ
  -- nobody has a committed balance row of the user
  have hcom : ∀ b' x', σ.com balances b' = some x' → x'.userId ≠ u := by
    intro b' x' hx' hu
    rcases ho : o.row balances b' with _ | v
    · exact hno b' x' ((Own.view_of_none ho).trans hx') hu
    · obtain ⟨x, hx, ⟨x₀, hc, hu₀⟩ | ⟨hc, -⟩⟩ := h.balance_row b' v ho
      · rw [hx', Option.some.injEq] at hc
        exact hno b' x ((Own.view_of_row ho).trans hx) (hu₀.symm.trans (hc ▸ hu))
      · rw [hx'] at hc; simp at hc
  refine ⟨fun n v hv => ?_, fun b' v hv => ?_, fun b₁ b₂ x₁ x₂ h₁ h₂ hu => ?_, fun u' => ?_⟩
  · rw [Own.take_row, Own.put_row_other _ _ _ (by decide)] at hv
    obtain ⟨hc, r, hr, hheld⟩ := h.ledger_row n v hv
    exact ⟨hc, r, hr, hheld.sub ((Own.sub_put ..).trans (Own.sub_take ..))⟩
  · rw [Own.take_row, Own.put_row_same] at hv
    split_ifs at hv with hb
    · subst hb
      rw [Option.some.injEq] at hv
      exact ⟨⟨u, 0⟩, hv.symm, Or.inr ⟨hf.2, Or.inl rfl, hcom⟩⟩
    · obtain ⟨x, hx, hcase⟩ := h.balance_row b' v hv
      exact ⟨x, hx, hcase.imp id fun ⟨hc, hk, hn⟩ => ⟨hc, Or.inr hk, hn⟩⟩
  · rw [Own.take_row, Own.put_row_same] at h₁ h₂
    split_ifs at h₁ h₂ with hb₁ hb₂ hb₂
    · rw [hb₁, hb₂]
    · simp only [Option.some.injEq] at h₁
      subst h₁
      exact absurd hu.symm (hno b₂ x₂ (Own.view_of_row h₂))
    · simp only [Option.some.injEq] at h₂
      subst h₂
      exact absurd hu (hno b₁ x₁ (Own.view_of_row h₁))
    · exact h.own_one b₁ b₂ x₁ x₂ h₁ h₂ hu
  · by_cases hu : u' = u
    · subst hu
      exact (h.sound u').open hno hself (fun b' hb' => hview _ _ fun _ => hb') fun m => hview _ _ fun ht => by
        simp at ht
    · refine (h.sound u').congr (fun n r _ => by rw [hview _ _ fun ht => by simp at ht]) fun b' x' hx' => ?_
      by_cases hb' : b' = b
      · subst hb'
        rw [hself, Snap.merge_of_none hf.1, hf.2]
        refine ⟨fun hx => by simp at hx, fun hx => ?_⟩
        simp only [Option.some.injEq] at hx
        exact absurd (hx'.symm.trans (hx ▸ rfl)) hu
      · rw [hview _ _ fun _ => hb']

/-- a new ledger row, together with the new balance in the user's held balance row -/
theorem Lawful.move (h : Lawful strict o σ) (hi : Inv strict σ) {b n : ℕ} {x : UserBalance} {r : PointsLedger}
    (hx : o.row balances b = some (some x)) (hru : r.userId = x.userId) (hafter : r.balanceAfter = x.balance + r.delta)
    (hf : ∀ m, n ≤ m → σ.com ledger m = none ∧ o.row ledger m = none)
    (hdebit : r.delta < 0 → r.allowNegative = false → 0 ≤ r.balanceAfter)
    (hrefs : strict → ∀ m r', o.view σ ledger m = some r' → r'.hasRef r.userId r.refType r.refId = false) :
    Lawful strict ((o.put balances b (some { x with balance := x.balance + r.delta })).put ledger n (some r)) σ := by
  have hbal : ∀ m, ((o.put balances b (some { x with balance := x.balance + r.delta })).put ledger n (some r)).row
      balances m = if m = b then some (some { x with balance := x.balance + r.delta }) else o.row balances m :=
    fun m => by rw [Own.put_row_other _ _ _ (by decide), Own.put_row_same]
  have hled : ∀ m, ((o.put balances b (some { x with balance := x.balance + r.delta })).put ledger n (some r)).row
      ledger m = if m = n then some (some r) else o.row ledger m :=
    fun m => by rw [Own.put_row_same, Own.put_row_other _ _ _ (by decide)]
  set p := (o.put balances b (some { x with balance := x.balance + r.delta })).put ledger n (some r) with hp
  have hsub : o.Sub p := (Own.sub_put ..).trans (Own.sub_put ..)
  refine ⟨fun m v hv => ?_, fun b' v hv => ?_, fun b₁ b₂ x₁ x₂ h₁ h₂ hu => ?_, fun u => ?_⟩
  · rw [hled] at hv
    split_ifs at hv with hm
    · rw [Option.some.injEq] at hv
      exact ⟨(hf m (by omega)).1, r, hv.symm, hru ▸ (h.held hx).sub hsub⟩
    · obtain ⟨hc, r', hr', hheld⟩ := h.ledger_row m v hv
      exact ⟨hc, r', hr', hheld.sub hsub⟩
  · rw [hbal] at hv
    split_ifs at hv with hb
    · subst hb
      rw [Option.some.injEq] at hv
      obtain ⟨x', hx', hcase⟩ := h.balance_row b' _ hx
      rw [Option.some.injEq] at hx'
      subst hx'
      exact ⟨_, hv.symm, hcase⟩
    · exact h.balance_row b' v hv
  · -- an owned row has the user it had before
    have huser : ∀ b' x', p.row balances b' = some (some x') → ∃ x₀, o.row balances b' = some (some x₀) ∧
        x₀.userId = x'.userId := by
      intro b' x' hv
      rw [hbal] at hv
      split_ifs at hv with hb
      · subst hb
        simp only [Option.some.injEq] at hv
        exact ⟨x, hx, by rw [← hv]⟩
      · exact ⟨x', hv, rfl⟩
    obtain ⟨y₁, hy₁, hu₁⟩ := huser b₁ x₁ h₁
    obtain ⟨y₂, hy₂, hu₂⟩ := huser b₂ x₂ h₂
    exact h.own_one b₁ b₂ y₁ y₂ hy₁ hy₂ (hu₁.trans (hu.trans hu₂.symm))
  · have hbs : ∀ b', b' ≠ b → (σ.merge p).com balances b' = (σ.merge o).com balances b' := by
      intro b' hb'
      rw [Snap.merge_com, Snap.merge_com, hbal, if_neg hb']
    have hls : ∀ m, m ≠ n → (σ.merge p).com ledger m = (σ.merge o).com ledger m := by
      intro m hm
      rw [Snap.merge_com, Snap.merge_com, hled, if_neg hm]
    have hb : (σ.merge p).com balances b = some { x with balance := x.balance + r.delta } :=
      Snap.merge_of_some (by rw [hbal, if_pos rfl]) σ
    have hn : (σ.merge p).com ledger n = some r := Snap.merge_of_some (by rw [hled, if_pos rfl]) σ
    have hxm : (σ.merge o).com balances b = some x := Snap.merge_of_some hx σ
    have hnone : (σ.merge o).com ledger n = none := by
      rw [Snap.merge_of_none (hf n (Nat.le_refl n)).2, (hf n (Nat.le_refl n)).1]
    by_cases hu : u = x.userId
    · subst hu
      refine (h.sound _).insert hxm rfl (fun b' x' hx' hu' => h.one hi b' b x' x hx' hxm hu') hb hbs hn hru
        (fun m r' hr' _ => ?_) hls hafter hdebit fun hs m r' hr' hu' => ?_
      · by_contra hm
        rw [Snap.merge_of_none (hf m (by omega)).2, (hf m (by omega)).1] at hr'
        simp at hr'
      · rintro ⟨ht, hid⟩
        have := hrefs hs m r' hr'
        simp [PointsLedger.hasRef, hru, hu', ht, hid] at this
    · refine (h.sound u).congr (fun m r' hr' => ?_) fun b' x' hx' => ?_
      · by_cases hm : m = n
        · subst hm
          rw [hn, hnone]
          refine ⟨fun h' => by simp at h', fun h' => ?_⟩
          simp only [Option.some.injEq] at h'
          exact absurd (hr'.symm.trans (h' ▸ hru)) hu
        · rw [hls m hm]
      · by_cases hb' : b' = b
        · subst hb'
          rw [hb, hxm]
          refine ⟨fun h' => ?_, fun h' => ?_⟩ <;> simp only [Option.some.injEq] at h' <;>
            exact absurd (hx'.symm.trans (h' ▸ rfl)) hu
        · rw [hbs b' hb']

end LkmService.Points
