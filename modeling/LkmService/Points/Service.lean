/-
What each function of the points service does for the transaction it is part of.

The rules hold under every discipline that includes the one of balances and ledger (`Covers`), so that other modules,
whose transactions call `reward` and `spend`, use them too. Each says of a function that it keeps what the session has
written lawful, and what it adds (`Onward`). Between the change of a balance and its ledger row the session's writes are
not lawful: they are `Ahead` of what would be.
-/
import LkmService.Points.Writes

namespace LkmService.Points

open Session Sql Sql.Discipline Tbl

/-- the discipline includes the one of balances and ledger, and asks less of the others when a session owns less -/
structure Covers (D : Discipline Row Index Fx Unit) (strict : Prop) : Prop where
  inv : ∀ {σ}, D.inv σ → Inv strict σ
  rely : ∀ {i o σ τ}, D.rely i o σ τ → Rely o σ τ
  sub : ∀ {i} {o o' : Held} {σ τ}, o.Sub o' → D.rely i o' σ τ → D.rely i o σ τ

variable {D : Discipline Row Index Fx Unit} {strict : Prop} {i : ℕ} {o o' o'' p : Held} {σ τ υ : State} {u : ℕ}

/-! ## Between two calls -/

structure Ready (D : Discipline Row Index Fx Unit) (strict : Prop) (o : Held) (σ : State) : Prop where
  inv : D.inv σ
  fresh : σ.Fresh o
  lawful : Lawful strict o σ

/-- the session owns the user's balance row -/
def Locked (o : Held) (u : ℕ) : Prop := ∃ b x, o.row balances b = some (some x) ∧ x.userId = u

def HasBalance (o : Held) (σ : State) (u : ℕ) : Prop := ∃ b x, o.view σ balances b = some x ∧ x.userId = u

theorem Locked.hasBalance (h : Locked o u) (σ : State) : HasBalance o σ u := by
  obtain ⟨b, x, hb, hu⟩ := h
  exact ⟨b, x, Own.view_of_row hb, hu⟩

theorem Locked.balHeld (h : Locked o u) (hl : Lawful strict o σ) : BalHeld o σ u := by
  obtain ⟨b, x, hb, rfl⟩ := h
  exact hl.held hb

/-- a part of a transaction that has written only in the tables `W` -/
structure Onward (D : Discipline Row Index Fx Unit) (strict : Prop) (W : Tbl → Prop) (i : ℕ) (o : Held) (σ : State)
    (o' : Held) (τ : State) : Prop where
  sub : o.Sub o'
  later : D.Later i o σ τ
  ready : Ready D strict o' τ
  locked : ∀ u, Locked o u → Locked o' u
  same : ∀ t, ¬ W t → o'.row t = o.row t

section

variable (hD : Covers D strict)

include hD

theorem Ready.later (h : Ready D strict o σ) (hl : D.Later i o σ τ) : Ready D strict o τ :=
  ⟨hl.inv, hl.fresh, h.lawful.later (hD.inv h.inv) (hD.inv hl.inv) (hD.rely hl.rely) hl.com⟩

theorem Onward.of_later {W : Tbl → Prop} (h : Ready D strict o σ) (hl : D.Later i o σ τ) :
    Onward D strict W i o σ o τ :=
  ⟨Own.Sub.refl o, hl, h.later hD hl, fun _ hu => hu, fun _ _ => rfl⟩

theorem Onward.trans {W : Tbl → Prop} (h : Onward D strict W i o σ o' τ) (h' : Onward D strict W i o' τ o'' υ) :
    Onward D strict W i o σ o'' υ where
  sub := h.sub.trans h'.sub
  later := h.later.trans (h'.later.sub h.sub (hD.sub h.sub h'.later.rely))
  ready := h'.ready
  locked u hu := h'.locked u (h.locked u hu)
  same t ht := (h'.same t ht).trans (h.same t ht)

/-- a row is in the view of the session as long as nobody changes its user -/
theorem HasBalance.later (h : HasBalance o σ u) (hl : D.Later i o σ τ) : HasBalance o τ u := by
  obtain ⟨b, x, hv, hu⟩ := h
  rcases ho : o.row balances b with _ | v
  · rw [Own.view_of_none ho] at hv
    obtain ⟨x', hx', hu'⟩ := (hD.rely hl.rely).balances b x hv
    exact ⟨b, x', (Own.view_of_none ho).trans hx', hu'.trans hu⟩
  · rw [Own.view_of_row ho] at hv
    exact ⟨b, x, (Own.view_of_row ho).trans hv, hu⟩

/-- while a session holds the balance of a user, the user's ledger stays what the session sees -/
theorem BalHeld.sameView (hb : BalHeld o σ u) (hl : D.Later i o σ τ) : SameLedger (σ.merge o) (τ.merge o) u := by
  intro n r hr
  rcases ho : o.row ledger n with _ | v
  · rw [Snap.merge_of_none ho, Snap.merge_of_none ho]
    exact (hD.rely hl.rely).sameLedger hb n r hr
  · rw [Snap.merge_of_some ho, Snap.merge_of_some ho]

end

theorem Onward.hasBalance {W : Tbl → Prop} (hD : Covers D strict) (h : Onward D strict W i o σ o' τ)
    (hb : HasBalance o σ u) : HasBalance o' τ u := by
  obtain ⟨b, x, hv, hu⟩ := hb
  rcases ho : o.row balances b with _ | v
  · rw [Own.view_of_none ho] at hv
    obtain ⟨x', hx', hu'⟩ := (hD.rely h.later.rely).balances b x hv
    rcases ho' : o'.row balances b with _ | w
    · exact ⟨b, x', (Own.view_of_none ho').trans hx', hu'.trans hu⟩
    · obtain ⟨y, rfl, ⟨x₀, hc, hu₀⟩ | ⟨hc, -⟩⟩ := h.ready.lawful.balance_row b w ho'
      · rw [hx', Option.some.injEq] at hc
        exact ⟨b, y, Own.view_of_row ho', by rw [← hu₀, ← hc, hu', hu]⟩
      · rw [hx'] at hc; simp at hc
  · rw [Own.view_of_row ho] at hv
    exact (h.locked u ⟨b, x, hv ▸ ho, hu⟩).hasBalance τ

theorem Ready.empty (hD : Covers D strict) (h : D.inv σ) (hf : σ.Fresh ({} : Held)) : Ready D strict {} σ :=
  ⟨h, hf, Lawful.empty (hD.inv h)⟩

theorem Onward.mono {W V : Tbl → Prop} (hW : ∀ t, W t → V t) (h : Onward D strict W i o σ o' τ) :
    Onward D strict V i o σ o' τ :=
  { h with same := fun t ht => h.same t fun hx => ht (hW t hx) }

/-! ## Balance rows -/

theorem wp_getBalance {Q : Except Exn (Option (ℕ × UserBalance)) → Held → State → Prop}
    (hnone : ∀ τ, D.Later i o σ τ → (∀ b x, o.view τ balances b = some x → x.userId ≠ u) → Q (.ok none) o τ)
    (hsome : ∀ τ b x, D.Later i o σ τ → o.view τ balances b = some x → x.userId = u → Q (.ok (some (b, x))) o τ) :
    D.wp i (getBalance u) Q o σ := by
  refine wp_selectHead (f := pure) (fun τ hl h => wp_pure (hnone τ hl fun b x hv => ?_))
    fun τ b x hl hv hp => wp_pure (hsome τ b x hl hv (by simpa using hp))
  have := h b x hv
  simpa using this

/-- a statement that never raises -/
abbrev Never (_ : Exn) (_ : Held) (_ : State) : Prop := False

theorem ensureBalance_ends (hD : Covers D strict) (h : Ready D strict o σ) :
    D.wp i (ensureBalance u)
      (ReturnsOr (fun _ o' τ => Onward D strict (· = balances) i o σ o' τ ∧ HasBalance o' τ u) Never) o σ := by
  refine wp_bind (wp_getBalance (fun τ₁ h₁ _ => ?_) fun τ b x hl hv hu => ?_)
  · have hr₁ := h.later hD h₁
    -- inserted, or met by a row that another session has committed
    refine wp_bind (wp_insertUnique (fun τ₂ b x h₂ hv hclash => ?_) fun τ₂ h₂ hno => ?_)
    · have hb : HasBalance o τ₂ u := ⟨b, x, hv, by simpa using hclash⟩
      refine wp_bind (wp_getBalance (fun τ₃ h₃ hnone => ?_) fun τ₃ b x h₃ hv hu => wp_done ?_)
      · obtain ⟨b, x, hv, hu⟩ := hb.later hD h₃
        exact absurd hu (hnone b x hv)
      · exact ⟨Onward.of_later hD h (h₁.trans (h₂.trans h₃)), b, x, hv, hu⟩
    · have hr₂ := hr₁.later hD h₂
      set q := (o.put balances (τ₂.next balances) (some ⟨u, 0⟩)).take (.balance u) with hq
      have hlaw : Lawful strict q τ₂ := by
        refine hr₂.lawful.open (hr₂.fresh balances _ (Nat.le_refl _)).symm fun b x hv hu => ?_
        have := hno b x hv
        simp [hu] at this
      have hon : Onward D strict (· = balances) i o σ q (τ₂.bump balances (τ₂.next balances)) := by
        refine ⟨(Own.sub_put ..).trans (Own.sub_take ..), (h₁.trans h₂).bump _ _,
          ⟨D.grow_inv _ _ _ h₂.inv, (hr₂.fresh.put _ _ _).take _, hlaw.bump _ _⟩, ?_, fun t ht => ?_⟩
        · rintro u' ⟨b, x, hb, hu⟩
          exact ⟨b, x, Own.put_row_of_some _ (hr₂.fresh balances _ (Nat.le_refl _)).2 hb, hu⟩
        · exact Own.put_row_other _ _ _ ht
      have hown : q.row balances (τ₂.next balances) = some (some ⟨u, 0⟩) := by rw [hq, Own.take_row, Own.put_row_self]
      refine wp_bind (wp_getBalance (fun τ₃ h₃ hnone => ?_) fun τ₃ b x h₃ hv hu => wp_done ?_)
      · exact absurd rfl (hnone _ _ (Own.view_of_row hown))
      · exact ⟨hon.trans hD (Onward.of_later hD hon.ready h₃), b, x, hv, hu⟩
  · exact wp_done ⟨Onward.of_later hD h hl, b, x, hv, hu⟩

theorem lockForUpdate_ends (hD : Covers D strict) (h : Ready D strict o σ) (hb : HasBalance o σ u) :
    D.wp i (lockForUpdate u)
      (ReturnsOr (fun _ o' τ => Onward D strict (· = balances) i o σ o' τ ∧ Locked o' u) Never) o σ := by
  refine wp_bind (wp_getBalance (fun τ h₁ hno => ?_) fun τ₁ b x h₁ hv hu => ?_)
  · obtain ⟨b, x, hv, hu⟩ := hb.later hD h₁
    exact absurd hu (hno b x hv)
  · refine wp_bind (wp_lockRow (fun τ₂ h₂ hno => ?_) fun τ₂ y h₂ hv' hu' => wp_done ?_)
    · -- the row is still there, with the same user
      exfalso
      rcases ho : o.row balances b with _ | v
      · rw [Own.view_of_none ho] at hv
        obtain ⟨x', hx', hu'⟩ := (hD.rely h₂.rely).balances b x hv
        have := hno x' ((Own.view_of_none ho).trans hx')
        simp [hu', hu] at this
      · rw [Own.view_of_row ho] at hv
        have := hno x ((Own.view_of_row ho).trans hv)
        simp [hu] at this
    · have hr₂ := h.later hD (h₁.trans h₂)
      have hn : b < τ₂.next balances := by
        by_contra hn
        have hf := hr₂.fresh balances b (by omega)
        rw [Own.view_of_none hf.2, hf.1] at hv'
        simp at hv'
      have hfresh := hr₂.fresh.put balances b (some y)
      rw [Snap.bump_of_lt hn] at hfresh
      refine ⟨⟨Own.sub_put .., h₁.trans h₂, ⟨h₂.inv, hfresh, hr₂.lawful.lock (hD.inv h₂.inv) hv'⟩, ?_,
        fun t ht => Own.put_row_other _ _ _ ht⟩, b, y, Own.put_row_self .., by simpa using hu'⟩
      rintro u' ⟨b', x', hb', hx'⟩
      refine ⟨b', x', ?_, hx'⟩
      rw [Own.put_row_same]
      split_ifs with hbb
      · subst hbb
        rw [Own.view_of_row hb'] at hv'
        rw [hv']
      · exact hb'

/-! ## Ahead of a ledger row -/

/-- `p` is `o` with other balances in the same balance rows -/
structure Ahead (o p : Held) : Prop where
  key : p.key = o.key
  row : ∀ t, t ≠ balances → p.row t = o.row t
  user : ∀ b, (p.row balances b).map (Option.map UserBalance.userId) =
    (o.row balances b).map (Option.map UserBalance.userId)

theorem Ahead.refl (o : Held) : Ahead o o := ⟨rfl, fun _ _ => rfl, fun _ => rfl⟩

theorem Ahead.put (h : Ahead o p) {b : ℕ} {x y : UserBalance} (hx : p.row balances b = some (some x))
    (hu : y.userId = x.userId) : Ahead o (p.put balances b (some y)) where
  key := h.key
  row t ht := (Own.put_row_other _ _ _ ht).trans (h.row t ht)
  user b' := by
    rw [← h.user, Own.put_row_same]
    split_ifs with hb
    · subst hb
      simp [hx, hu]
    · rfl

theorem Ahead.none_iff (h : Ahead o p) (t : Tbl) (n : ℕ) : p.row t n = none ↔ o.row t n = none := by
  by_cases ht : t = balances
  · subst ht
    have := h.user n
    rw [← Option.map_eq_none_iff (f := Option.map UserBalance.userId), this, Option.map_eq_none_iff]
  · rw [h.row t ht]

theorem Ahead.sub (h : Ahead o p) : o.Sub p where
  row t n hn := fun hp => hn ((h.none_iff t n).1 hp)
  key k hk := by rwa [h.key]

theorem Ahead.later (hD : Covers D strict) (h : Ahead o p) (hl : D.Later i p σ τ) : D.Later i o σ τ :=
  hl.sub h.sub (hD.sub h.sub hl.rely)

theorem Ahead.view (h : Ahead o p) {b : ℕ} {x : UserBalance} (hx : p.view σ balances b = some x) :
    ∃ x', (σ.merge o).com balances b = some x' ∧ x'.userId = x.userId := by
  have hu := h.user b
  rcases hp : p.row balances b with _ | v
  · rw [Own.view_of_none hp] at hx
    exact ⟨x, by rwa [Snap.merge_of_none ((h.none_iff _ _).1 hp)], rfl⟩
  · rw [Own.view_of_row hp] at hx
    subst hx
    rw [hp] at hu
    obtain ⟨w, hw, hwu⟩ := Option.map_eq_some_iff.1 hu.symm
    obtain ⟨x', rfl, hx'⟩ := Option.map_eq_some_iff.1 hwu
    exact ⟨x', Snap.merge_of_some hw σ, hx'⟩

/-- the row of a user whose balance the session owns is the only one in its view -/
theorem Ahead.only (hD : Covers D strict) (hr : Ready D strict o σ) (h : Ahead o p) {b b' : ℕ} {x x' : UserBalance}
    (hx : p.row balances b = some (some x)) (hx' : p.view σ balances b' = some x') (hu : x'.userId = x.userId) :
    b' = b := by
  obtain ⟨y, hy, hyu⟩ := h.view (σ := σ) (Own.view_of_row hx)
  obtain ⟨y', hy', hyu'⟩ := h.view hx'
  exact hr.lawful.one (hD.inv hr.inv) b' b y' y hy' hy (hyu'.trans (hu.trans hyu.symm))

/-- a change is refused where it would leave the balance below zero -/
theorem applyDelta_ends (hD : Covers D strict) (hr : Ready D strict o σ) (h : Ahead o p) {b : ℕ} {x : UserBalance}
    (hx : p.row balances b = some (some x)) (hu : x.userId = u) (delta : ℤ) (allowNegative : Bool) :
    D.wp i (applyDelta u delta allowNegative) (ReturnsOr
      (fun a p' τ => p' = p.put balances b (some { x with balance := x.balance + delta }) ∧ D.Later i o σ τ ∧
        a = x.balance + delta ∧ (allowNegative = false → 0 ≤ x.balance + delta))
      fun e p' τ => e = .insufficientBalance ∧ p' = p ∧ D.Later i o σ τ ∧ allowNegative = false ∧
        x.balance + delta < 0) p σ := by
  refine wp_bind (wp_getBalance (fun τ _ hno => ?_) fun τ₁ b₁ x₁ h₁ hv₁ hu₁ => ?_)
  · exact absurd hu (hno b x (Own.view_of_row hx))
  have h₁' := h.later hD h₁
  obtain rfl := h.only hD (hr.later hD h₁') hx hv₁ (hu₁.trans hu.symm)
  refine wp_bind (wp_updateRow (fun τ hl hmiss => wp_raise _ ?_) fun τ₂ y h₂ hv hp => ?_)
  · have hmiss := hmiss x (Own.view_of_row hx)
    simp only [hu, beq_self_eq_true, Bool.true_and, Bool.or_eq_false_iff, decide_eq_false_iff_not, not_le] at hmiss
    exact ⟨rfl, rfl, h₁'.trans (h.later hD hl), hmiss⟩
  obtain rfl : y = x := by
    rw [Own.view_of_row hx, Option.some.injEq] at hv
    exact hv.symm
  have h₂' := h₁'.trans (h.later hD h₂)
  set p' := p.put balances b₁ (some { y with balance := y.balance + delta }) with hp'
  have ha : Ahead o p' := h.put hx rfl
  have hx' : p'.row balances b₁ = some (some { y with balance := y.balance + delta }) := Own.put_row_self ..
  refine wp_bind (wp_getBalance (fun τ₃ h₃ hno => ?_) fun τ₃ b₃ x₃ h₃ hv₃ hu₃ => wp_done ?_)
  · exact (hno b₁ _ (Own.view_of_row hx') hu).elim
  · have h₃' := h₂'.trans (ha.later hD h₃)
    obtain rfl := ha.only hD (hr.later hD h₃') hx' hv₃ (hu₃.trans hu.symm)
    rw [Own.view_of_row hx', Option.some.injEq] at hv₃
    refine ⟨rfl, h₃', by rw [← hv₃], fun hn => ?_⟩
    simpa [hu, hn] using hp

/-! ## Ledger rows -/

theorem getByRef_ends (refType refId : String) :
    D.wp i (getByRef u refType refId) (ReturnsOr (fun e o' τ => o' = o ∧ D.Later i o σ τ ∧
      match e with
      | some r => ∃ n, o.view τ ledger n = some r ∧ r.hasRef u refType refId = true
      | none => ∀ n r, o.view τ ledger n = some r → r.hasRef u refType refId = false) Never) o σ :=
  wp_selectHead (f := fun x => pure (x.map Prod.snd)) (fun _ hl hno => wp_done ⟨rfl, hl, hno⟩)
    fun _ n _ hl hv hp => wp_done ⟨rfl, hl, n, hv, hp⟩

theorem hasRef_iff {r : PointsLedger} {refType refId : String} :
    r.hasRef u refType refId = true ↔ r.userId = u ∧ r.refType = refType ∧ r.refId = refId := by
  simp [PointsLedger.hasRef, and_assoc]

/-- nobody else adds a row of a user whose balance the session holds -/
theorem BalHeld.noRef (hD : Covers D strict) (hb : BalHeld o σ u) (hl : D.Later i o σ τ) {refType refId : String}
    (hno : ∀ m r, o.view σ ledger m = some r → r.hasRef u refType refId = false) (m : ℕ) (r : PointsLedger)
    (hv : o.view τ ledger m = some r) : r.hasRef u refType refId = false := by
  by_contra hr
  have hru := (hasRef_iff.1 (by simpa using hr)).1
  exact hr (hno m r ((hb.sameView hD hl m r hru).2 hv))

/-- the ledger row of a reward: it was there before, or it is the only new row and the only one with the ref -/
inductive Granted (o o' : Held) (τ : State) (entry new : PointsLedger) : Prop where
  | existing (n : ℕ) (hrow : o'.row ledger = o.row ledger) (hv : o'.view τ ledger n = some entry)
      (href : entry.hasRef new.userId new.refType new.refId = true) (hdelta : entry.delta = new.delta)
  | added (n : ℕ) (hnew : entry = new) (hrow : ∀ m, o'.row ledger m = if m = n then some (some new) else o.row ledger m)
      (hfree : o.row ledger n = none ∧ τ.com ledger n = none)
      (hsole : ∀ m r, o'.view τ ledger m = some r → r.hasRef new.userId new.refType new.refId = true → m = n)

/-- the balance is moved and the ledger row added -/
theorem move_onward (hD : Covers D strict) (h : Ready D strict o σ) {b n : ℕ} {x : UserBalance} {r : PointsLedger}
    (hn : n = σ.next ledger) (hx : o.row balances b = some (some x)) (hru : r.userId = x.userId)
    (hafter : r.balanceAfter = x.balance + r.delta)
    (hdebit : r.delta < 0 → r.allowNegative = false → 0 ≤ r.balanceAfter)
    (hrefs : strict → ∀ m r', o.view σ ledger m = some r' → r'.hasRef r.userId r.refType r.refId = false) (k : Index) :
    Onward D strict (fun t => t = balances ∨ t = ledger) i o σ
      (((o.put balances b (some { x with balance := x.balance + r.delta })).put ledger n (some r)).take k)
      (σ.bump ledger n) := by
  subst hn
  have hlaw := h.lawful.move (hD.inv h.inv) hx hru hafter (fun m hm => h.fresh ledger m hm) hdebit hrefs
  have hb : b < σ.next balances := by
    by_contra hb
    have := (h.fresh balances b (by omega)).2
    rw [hx] at this
    simp at this
  have hfresh := h.fresh.put balances b (some { x with balance := x.balance + r.delta })
  rw [Snap.bump_of_lt hb] at hfresh
  refine ⟨((Own.sub_put ..).trans (Own.sub_put ..)).trans (Own.sub_take ..),
    (Later.refl h.inv h.fresh).bump _ _, ⟨D.grow_inv _ _ _ h.inv, (hfresh.put _ _ _).take _, (hlaw.take k).bump _ _⟩,
    ?_, fun t ht => ?_⟩
  · rintro u ⟨b', y, hy, hu⟩
    rw [Locked, Own.take_row]
    by_cases hbb : b' = b
    · subst hbb
      rw [hx] at hy
      simp only [Option.some.injEq] at hy
      refine ⟨b', _, by rw [Own.put_row_other _ _ _ (by decide), Own.put_row_self], ?_⟩
      rw [← hu, ← hy]
    · refine ⟨b', y, ?_, hu⟩
      rw [Own.put_row_other _ _ _ (by decide), Own.put_row_same, if_neg hbb, hy]
  · simp only [not_or] at ht
    rw [Own.take_row, Own.put_row_other _ _ _ ht.2, Own.put_row_other _ _ _ ht.1]

/-- the balance of a reward that has been granted, which is below zero only where that is allowed -/
structure Holding (o' : Held) (u : ℕ) (after : ℤ) (allowNegative : Bool) : Prop where
  row : ∃ b, o'.row balances b = some (some ⟨u, after⟩)
  floor : allowNegative = false → 0 ≤ after

/-- the balance that the session owns does not cover the change -/
def Short (o' : Held) (u : ℕ) (delta : ℤ) (allowNegative : Bool) : Prop :=
  allowNegative = false ∧ ∃ b x, o'.row balances b = some (some x) ∧ x.userId = u ∧ x.balance + delta < 0

/-- why a reward is refused, and what the session owns then -/
inductive Refused (o' : Held) (τ : State) (u : ℕ) (delta : ℤ) (refType refId : String) (allowNegative : Bool) : Prop where
  | duplicate (n : ℕ) (r : PointsLedger) (hv : o'.view τ ledger n = some r) (href : r.hasRef u refType refId = true)
      (hdelta : r.delta ≠ delta)
  | insufficient (h : Short o' u delta allowNegative)

theorem reward_ends (hD : Covers D strict) (h : Ready D strict o σ) (u : ℕ) (delta : ℤ)
    (reason refType refId : String) (allowNegative : Bool) (now : ℤ) :
    D.wp i (reward u delta reason refType refId allowNegative now) (ReturnsOr
      (fun entry o' τ => Onward D strict (fun t => t = balances ∨ t = ledger) i o σ o' τ ∧ ∃ after, Granted o o' τ entry
        { userId := u, delta := delta, balanceAfter := after, reason := reason, refType := refType, refId := refId,
          createdAt := now, allowNegative := allowNegative } ∧
        (o'.row ledger = o.row ledger ∨ Holding o' u after allowNegative))
      fun _ o' τ => Onward D strict (· = balances) i o σ o' τ ∧ Refused o' τ u delta refType refId allowNegative) o σ := by
  refine wp_seqOr (ensureBalance_ends hD h) (fun _ o₁ τ₁ hr => ?_) fun _ _ _ hf => hf.elim
  obtain ⟨h₁, hb₁⟩ := hr
  refine wp_seqOr (lockForUpdate_ends hD h₁.ready hb₁) (fun _ o₂ τ₂ hr => ?_) fun _ _ _ hf => hf.elim
  obtain ⟨h₂, hl₂⟩ := hr
  have h₀₂ := h₁.trans hD h₂
  refine wp_seqOr (getByRef_ends refType refId) (fun e o₃ τ₃ hr => ?_) fun _ _ _ hf => hf.elim
  obtain ⟨rfl, h₃, hcase⟩ := hr
  have h₀₃ := h₀₂.trans hD (Onward.of_later (W := (· = balances)) hD h₂.ready h₃)
  have hrow : o₃.row ledger = o.row ledger := h₀₃.same ledger (by simp)
  have h₀₃' := h₀₃.mono (V := fun t => t = balances ∨ t = ledger) fun t ht => Or.inl ht
  obtain ⟨b, x, hx, hu⟩ := hl₂
  rcases e with _ | e
  · -- no row with the ref: the balance moves, then the row is added
    dsimp only at hcase ⊢
    refine wp_seqOr (applyDelta_ends hD h₀₃.ready (Ahead.refl _) hx hu delta allowNegative)
      (fun after p τ₄ hr => ?_) fun _ p τ₄ hr => ?_
    case refine_2 =>
      obtain ⟨_, rfl, h₄, hno, hlt⟩ := hr
      exact ⟨h₀₃.trans hD (Onward.of_later hD h₀₃.ready h₄), .insufficient ⟨hno, b, x, hx, hu, hlt⟩⟩
    obtain ⟨rfl, h₄, hafter, hneg⟩ := hr
    have hr₄ := h₀₃.ready.later hD h₄
    have ha := (Ahead.refl o₃).put (y := { x with balance := x.balance + delta }) hx rfl
    have hheld : BalHeld o₃ τ₃ u := Locked.balHeld ⟨b, x, hx, hu⟩ h₀₃.ready.lawful
    have hno : ∀ τ, D.Later i o₃ τ₃ τ → ∀ m r, o₃.view τ ledger m = some r → r.hasRef u refType refId = false :=
      fun τ hl => hheld.noRef hD hl hcase
    set new : PointsLedger :=
      { userId := u, delta := delta, balanceAfter := after, reason := reason, refType := refType, refId := refId,
        createdAt := now, allowNegative := allowNegative } with hnew
    have hview : ∀ (τ : State) m, (o₃.put balances b (some { x with balance := x.balance + delta })).view τ ledger m =
        o₃.view τ ledger m := fun τ m => by rw [Own.view, Own.view, Own.put_row_other _ _ _ (by decide)]
    refine wp_bind (wp_insertUnique (fun τ₅ m r h₅ hv hclash => ?_) fun τ₅ h₅ _ => ?_)
    · rw [hview] at hv
      have := hno τ₅ (h₄.trans (ha.later hD h₅)) m r hv
      simp [this, hnew] at hclash
    · have h₅' := h₄.trans (ha.later hD h₅)
      have hr₅ := h₀₃.ready.later hD h₅'
      have hmove := move_onward (i := i) hD hr₅ (r := new) rfl hx hu.symm hafter
        (fun _ hn => by rw [hnew]; simpa [hafter] using hneg hn) (fun _ => hno τ₅ h₅')
        (.ref new.userId new.refType new.refId new.createdAt)
      set o₄ := ((o₃.put balances b (some { x with balance := x.balance + new.delta })).put ledger (τ₅.next ledger)
        (some new)).take (.ref new.userId new.refType new.refId new.createdAt) with ho₄
      have hon := (h₀₃'.trans hD (Onward.of_later hD h₀₃.ready h₅')).trans hD hmove
      have hled : ∀ m, o₄.row ledger m = if m = τ₅.next ledger then some (some new) else o₃.row ledger m := by
        intro m
        rw [ho₄, Own.take_row, Own.put_row_same, Own.put_row_other _ _ _ (by decide)]
      have hheld₄ : BalHeld o₄ (τ₅.bump ledger (τ₅.next ledger)) u :=
        Locked.balHeld (hmove.locked u ⟨b, x, hx, hu⟩) hmove.ready.lawful
      have hsole : ∀ τ, D.Later i o₄ (τ₅.bump ledger (τ₅.next ledger)) τ → ∀ m r, o₄.view τ ledger m = some r →
          r.hasRef u refType refId = true → m = τ₅.next ledger := by
        intro τ hl m r hv hr
        by_contra hm
        have hv' := ((hheld₄.sameView hD hl) m r (hasRef_iff.1 hr).1).2 hv
        rw [Snap.merge_com, hled, if_neg hm] at hv'
        have := hno τ₅ h₅' m r hv'
        rw [hr] at this
        simp at this
      have hown₄ : o₄.row ledger (τ₅.next ledger) = some (some new) := (hled _).trans (if_pos rfl)
      refine wp_seqOr (getByRef_ends refType refId) (fun e o₆ τ₆ hr => ?_) fun _ _ _ hf => hf.elim
      obtain ⟨rfl, h₆, hcase₆⟩ := hr
      rcases e with _ | e
      · have := hcase₆ _ new (Own.view_of_row hown₄)
        simp [hnew, PointsLedger.hasRef] at this
      · obtain ⟨m, hv, hr⟩ := hcase₆
        obtain rfl := hsole τ₆ h₆ m e hv hr
        obtain rfl : new = e := by
          rw [Own.view_of_row ((hled _).trans (if_pos rfl)), Option.some.injEq] at hv
          exact hv
        dsimp only
        rw [if_pos rfl]
        refine wp_done ⟨hon.trans hD (Onward.of_later hD hon.ready h₆), after,
          .added (τ₅.next ledger) rfl (fun m => ?_) ?_ fun m r hv hr => ?_, Or.inr ⟨⟨b, ?_⟩, fun hn => hafter ▸ hneg hn⟩⟩
        · rw [hled, hrow]
        · rw [← hrow]
          have hf := hr₅.fresh ledger _ (Nat.le_refl _)
          refine ⟨hf.2, (h₆.com ledger _ ?_).trans hf.1⟩
          simp [hled]
        · exact hsole τ₆ h₆ m r hv hr
        · rw [ho₄, Own.take_row, Own.put_row_other _ _ _ (by decide), Own.put_row_self, hafter, ← hu]
  · obtain ⟨n, hv, hr⟩ := hcase
    dsimp only
    split_ifs with hd
    · exact wp_done ⟨h₀₃', 0, .existing n hrow hv hr hd, Or.inl hrow⟩
    · exact wp_raise _ ⟨h₀₃, .duplicate n e hv hr hd⟩

theorem reward_spec (hD : Covers D strict) (h : Ready D strict o σ) (u : ℕ) (delta : ℤ)
    (reason refType refId : String) (allowNegative : Bool) (now : ℤ) :
    D.wp i (reward u delta reason refType refId allowNegative now) (Returns fun entry o' τ =>
      Onward D strict (fun t => t = balances ∨ t = ledger) i o σ o' τ ∧ ∃ after, Granted o o' τ entry
        { userId := u, delta := delta, balanceAfter := after, reason := reason, refType := refType, refId := refId,
          createdAt := now, allowNegative := allowNegative }) o σ :=
  wp_returns_mono (wp_returnsOr (reward_ends hD h u delta reason refType refId allowNegative now))
    fun _ _ _ ⟨hon, after, hgranted, _⟩ => ⟨hon, after, hgranted⟩

end LkmService.Points
