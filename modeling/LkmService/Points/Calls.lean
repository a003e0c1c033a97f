/-
What `spend`, `transfer`, the check-in and the task bonuses do, and whole requests.

A transfer looks for an earlier row under its ref on the sender's side only. Where the ledger rows are to be unique by
ref, a condition of the discipline on `check` says that the recipient has none either.
-/
import LkmService.Points.Service

namespace LkmService.Points

open Session Sql Sql.Discipline Tbl

variable {D : Discipline Row Index Fx Unit} {strict : Prop} {i : ℕ} {o o' p : Held} {σ τ υ : State} {u : ℕ}

abbrev PointsTbl (t : Tbl) : Prop := t = balances ∨ t = ledger

/-! ## Spending and transfers -/

theorem spend_spec (hD : Covers D strict) (h : Ready D strict o σ) (u : ℕ) (amount : ℤ)
    (reason refType refId : String) (now : ℤ) :
    D.wp i (spend u amount reason refType refId now) (Returns fun entry o' τ =>
      Onward D strict PointsTbl i o σ o' τ ∧ ∃ after, Granted o o' τ entry
        { userId := u, delta := -amount, balanceAfter := after, reason := reason, refType := refType, refId := refId,
          createdAt := now, allowNegative := false }) o σ := by
  unfold spend
  split_ifs with ha
  · exact wp_fail _
  · exact reward_spec hD h u (-amount) reason refType refId false now

/-- the ledger row of a balance that has been moved before -/
theorem addLedger_ends (hD : Covers D strict) (h : Ready D strict o σ) (ha : Ahead o p) {b : ℕ} {x : UserBalance}
    {r : PointsLedger} (hx : o.row balances b = some (some x)) (hru : r.userId = x.userId)
    (hafter : r.balanceAfter = x.balance + r.delta)
    (hdebit : r.delta < 0 → r.allowNegative = false → 0 ≤ r.balanceAfter)
    (hrefs : strict → ∀ m r', o.view σ ledger m = some r' → r'.hasRef r.userId r.refType r.refId = false) :
    D.wp i (addLedger r) (ReturnsOr
      (fun r' p' τ => r' = r ∧ ∃ n k, p' = (p.put ledger n (some r)).take k ∧ o.row ledger n = none ∧
        Onward D strict PointsTbl i o σ
          (((o.put balances b (some { x with balance := x.balance + r.delta })).put ledger n (some r)).take k) τ)
      fun _ p' τ => p' = p ∧ D.Later i o σ τ) p σ := by
  refine wp_bind (wp_insertUnique (fun τ _ _ hl _ _ => wp_raise _ ⟨rfl, ha.later hD hl⟩) fun τ hl _ => wp_done ?_)
  have hl' := ha.later hD hl
  have hr := h.later hD hl'
  have hheld : BalHeld o σ r.userId := Locked.balHeld ⟨b, x, hx, hru.symm⟩ h.lawful
  refine ⟨rfl, τ.next ledger, _, rfl, (hr.fresh ledger _ (Nat.le_refl _)).2, (Onward.of_later hD h hl').trans hD ?_⟩
  exact move_onward hD hr rfl hx hru hafter hdebit (fun hs => hheld.noRef hD hl' (hrefs hs)) _

theorem good_refl' (h : D.inv σ) : D.Good i o σ σ := ⟨h, D.act_refl i σ h, fun _ _ _ _ => D.rely_refl _ _ _⟩

/-- the two rows of a transfer: they were there before, or they are the only new rows -/
inductive Transferred (fromId toId : ℕ) (amount : ℤ) (refType refId : String) (o o' : Held) (τ : State)
    (out inn : PointsLedger) : Prop where
  | repeated (n n' : ℕ) (hrow : o'.row ledger = o.row ledger) (hout : o'.view τ ledger n = some out)
      (hin : o'.view τ ledger n' = some inn) (hfrom : out.hasRef fromId refType refId = true)
      (hto : inn.hasRef toId refType refId = true) (hdelta : out.delta = -amount ∧ inn.delta = amount)
  | moved (n n' : ℕ) (hne : n ≠ n') (hrow : ∀ m, o'.row ledger m =
        if m = n' then some (some inn) else if m = n then some (some out) else o.row ledger m)
      (hfree : τ.com ledger n = none ∧ τ.com ledger n' = none) (hfrom : out.hasRef fromId refType refId = true)
      (hto : inn.hasRef toId refType refId = true) (hdelta : out.delta = -amount ∧ inn.delta = amount)
      (hsole : ∀ m r, o'.view τ ledger m = some r → r.hasRef fromId refType refId = true → m = n)

/-- why a transfer raises: it is none, or it is a new one, or the two rows under its ref are not those of a transfer -/
inductive NotTransferred (fromId toId : ℕ) (amount : ℤ) (refType refId : String) (o' : Held) (τ : State) : Prop where
  | invalid (h : amount ≤ 0 ∨ fromId = toId)
  | unsent (hheld : BalHeld o' τ fromId) (hno : ∀ n r, τ.com ledger n = some r → r.hasRef fromId refType refId = false)
  | unreceived (hheld : BalHeld o' τ toId) (hno : ∀ n r, τ.com ledger n = some r → r.hasRef toId refType refId = false)
  | mismatch (n n' : ℕ) (out inn : PointsLedger) (hout : o'.view τ ledger n = some out)
      (hin : o'.view τ ledger n' = some inn) (hfrom : out.hasRef fromId refType refId = true)
      (hto : inn.hasRef toId refType refId = true) (hdelta : ¬ (out.delta = -amount ∧ inn.delta = amount))

/-- the ledger rows of a session are new, so what it does not see is not committed -/
theorem Lawful.noRef_com (hl : Lawful strict o σ) {refType refId : String}
    (hno : ∀ n r, o.view σ ledger n = some r → r.hasRef u refType refId = false) (n : ℕ) (r : PointsLedger)
    (hr : σ.com ledger n = some r) : r.hasRef u refType refId = false := by
  rcases ho : o.row ledger n with _ | v
  · exact hno n r (by rw [Own.view_of_none ho, hr])
  · obtain ⟨hnone, -⟩ := hl.ledger_row n v ho
    rw [hnone] at hr
    cases hr

theorem transfer_ends [Lockless D] (hD : Covers D strict) (h : Ready D strict o σ) {fromId toId : ℕ} {amount : ℤ}
    {refType refId : String} (outAt inAt : ℤ)
    (hok : ∀ o τ, D.ok i (.check toId refType refId) o τ → strict →
      ∀ n r, o.view τ ledger n = some r → r.hasRef toId refType refId = false) :
    D.wp i (transfer fromId toId amount refType refId outAt inAt) (ReturnsOr
      (fun q o' τ => Onward D strict PointsTbl i o σ o' τ ∧ Locked o' fromId ∧ Locked o' toId ∧
        Transferred fromId toId amount refType refId o o' τ q.1 q.2)
      fun _ o' τ => NotTransferred fromId toId amount refType refId o' τ) o σ := by
  unfold transfer
  split_ifs with hamount hne
  · exact wp_raise _ (.invalid (Or.inl hamount))
  · exact wp_raise _ (.invalid (Or.inr hne))
  have hbal : ∀ t : Tbl, t = balances → PointsTbl t := fun t ht => Or.inl ht
  refine wp_seqOr (ensureBalance_ends hD h) (fun _ o₁ τ₁ hr => ?_) fun _ _ _ hf => hf.elim
  obtain ⟨h₁, hb₁⟩ := hr
  refine wp_seqOr (ensureBalance_ends hD h₁.ready) (fun _ o₂ τ₂ hr => ?_) fun _ _ _ hf => hf.elim
  obtain ⟨h₂, hb₂⟩ := hr
  have hboth : ∀ u, u = fromId ∨ u = toId → HasBalance o₂ τ₂ u := by
    rintro u (rfl | rfl)
    · exact h₂.hasBalance hD hb₁
    · exact hb₂
  refine wp_seqOr (lockForUpdate_ends hD h₂.ready (hboth _ (by omega))) (fun _ o₃ τ₃ hr => ?_)
    fun _ _ _ hf => hf.elim
  obtain ⟨h₃, hl₃⟩ := hr
  have hmax : HasBalance o₃ τ₃ (max fromId toId) := h₃.hasBalance hD (hboth _ (by omega))
  refine wp_seqOr (lockForUpdate_ends hD h₃.ready hmax) (fun _ o₄ τ₄ hr => ?_) fun _ _ _ hf => hf.elim
  obtain ⟨h₄, hl₄⟩ := hr
  have hlocked : ∀ u, u = fromId ∨ u = toId → Locked o₄ u := by
    intro u hu
    rcases (show u = min fromId toId ∨ u = max fromId toId by omega) with rfl | rfl
    · exact h₄.locked _ hl₃
    · exact hl₄
  have hon := (((h₁.trans hD h₂).trans hD h₃).trans hD h₄)
  have hrow₄ : o₄.row ledger = o.row ledger := hon.same ledger (by decide)
  replace hon := hon.mono hbal
  refine wp_seqOr (getByRef_ends refType refId) (fun e o₅ τ₅ hr => ?_) fun _ _ _ hf => hf.elim
  obtain ⟨rfl, h₅, hfrom⟩ := hr
  have hon₅ := hon.trans hD (Onward.of_later hD hon.ready h₅)
  rcases e with _ | existingOut
  · dsimp only at hfrom ⊢
    refine wp_bind (wp_perform fun τ₆ h₆ hchk => ⟨good_refl' h₆.inv, ?_⟩)
    change D.wp i _ _ _ τ₆
    have hr₆ := hon₅.ready.later hD h₆
    have hon₆ := hon₅.trans hD (Onward.of_later hD hon₅.ready h₆)
    -- the sender has no row under the ref, and the recipient is asked to have none
    obtain ⟨a, x, hx, hxu⟩ := hlocked fromId (Or.inl rfl)
    obtain ⟨b, y, hy, hyu⟩ := hlocked toId (Or.inr rfl)
    have hab : b ≠ a := by
      rintro rfl
      rw [hx, Option.some.injEq, Option.some.injEq] at hy
      exact hne (hxu.symm.trans (hy ▸ hyu))
    have hheldx : BalHeld o₅ τ₆ fromId := Locked.balHeld ⟨a, x, hx, hxu⟩ hr₆.lawful
    have hheldy : BalHeld o₅ τ₆ toId := Locked.balHeld ⟨b, y, hy, hyu⟩ hr₆.lawful
    have hnox := (Locked.balHeld ⟨a, x, hx, hxu⟩ hon₅.ready.lawful).noRef hD h₆ hfrom
    have hnoy := hok o₅ τ₆ hchk
    -- wherever it raises, the sender is held and has no row under the ref
    have hunsent : ∀ (p' : Held) (τ : State), D.Later i o₅ τ₆ τ → o₅.Sub p' →
        NotTransferred fromId toId amount refType refId p' τ := by
      intro p' τ hl hsub
      have hr := hr₆.later hD hl
      exact .unsent ((Locked.balHeld ⟨a, x, hx, hxu⟩ hr.lawful).sub hsub)
        (hr.lawful.noRef_com (hheldx.noRef hD hl hnox))
    -- both balances, then both rows
    refine wp_seqOr (applyDelta_ends hD hr₆ (Ahead.refl _) hx hxu (-amount) false)
      (fun fromAfter p₇ τ₇ hr => ?_) fun _ p' τ hr => ?_
    case refine_2 =>
      obtain ⟨_, hp', hl, _⟩ := hr
      exact hunsent p' τ hl (hp' ▸ Own.Sub.refl _)
    obtain ⟨hp₇, h₇, hfa, hpos⟩ := hr
    have ha₇ : Ahead o₅ p₇ := hp₇ ▸ (Ahead.refl o₅).put hx rfl
    have hy₇ : p₇.row balances b = some (some y) := by
      rw [hp₇, Own.put_row_same, if_neg hab, hy]
    have hr₇ := hr₆.later hD h₇
    refine wp_seqOr (applyDelta_ends hD hr₇ ha₇ hy₇ hyu amount true) (fun toAfter p₈ τ₈ hr => ?_) fun _ _ _ hr => ?_
    case refine_2 =>
      obtain ⟨_, _, _, hno, _⟩ := hr
      cases hno
    obtain ⟨hp₈, h₈, hta, _⟩ := hr
    have ha₈ : Ahead o₅ p₈ := hp₈ ▸ ha₇.put hy₇ rfl
    have h₇₈ := h₇.trans h₈
    have hr₈ := hr₆.later hD h₇₈
    refine wp_seqOr (addLedger_ends hD hr₈ ha₈ hx hxu.symm hfa (fun _ _ => by simpa [hfa] using hpos rfl)
      fun _ => hheldx.noRef hD h₇₈ hnox) (fun out p₉ τ₉ hr => ?_) fun _ p' τ hr => ?_
    case refine_2 =>
      obtain ⟨hp', hl⟩ := hr
      exact hunsent p' τ (h₇₈.trans hl) (hp' ▸ ha₈.sub)
    obtain ⟨hout, n, k, hp₉, hn, h₉⟩ := hr
    set q := ((o₅.put balances a (some { x with balance := x.balance + -amount })).put ledger n _).take k with hq
    have hyq : q.row balances b = some (some y) := by
      rw [hq, Own.take_row, Own.put_row_other _ _ _ (by decide), Own.put_row_same, if_neg hab, hy]
    have hpq : p₉ = q.put balances b (some { y with balance := y.balance + amount }) := by
      rw [hp₉, hp₈, hp₇, Own.put_comm _ _ _ _ _ _ (by decide)]
      rfl
    have hledq : ∀ m, q.row ledger m = if m = n then some (some out) else o₅.row ledger m := by
      intro m
      rw [hq, Own.take_row, Own.put_row_same, Own.put_row_other _ _ _ (by decide), hout]
    have haq : Ahead q p₉ := hpq ▸ (Ahead.refl q).put hyq rfl
    have hon₆₉ := (Onward.of_later (W := PointsTbl) hD hr₆ h₇₈).trans hD h₉
    have hnoq : strict → ∀ m r', q.view τ₉ ledger m = some r' → r'.hasRef toId refType refId = false := by
      intro hs m r' hv
      by_contra hr
      obtain ⟨hru, -, -⟩ := hasRef_iff.1 (by simpa using hr)
      refine hr (hheldy.noRef hD hon₆₉.later (hnoy hs) m r' ?_)
      rw [Own.view, hledq] at hv
      split_ifs at hv with hm
      · -- the row that was just added is the sender's
        simp only [Option.getD_some, Option.some.injEq] at hv
        rw [← hv, hout] at hru
        exact absurd hru hne
      · exact hv
    refine wp_seqOr (addLedger_ends hD h₉.ready haq hyq hyu.symm hta (fun hn _ => absurd hn (by simp; omega)) hnoq)
      (fun inn p τ₁₀ hr => wp_done ?_) fun _ p' τ hr => ?_
    case refine_2 =>
      obtain ⟨hp', hl⟩ := hr
      exact hunsent p' τ (hon₆₉.later.trans (hl.sub hon₆₉.sub (hD.sub hon₆₉.sub hl.rely)))
        (hp' ▸ hon₆₉.sub.trans haq.sub)
    obtain ⟨hin, n', k', hp, hn', h₁₀⟩ := hr
    have hpe : p = ((q.put balances b (some { y with balance := y.balance + amount })).put ledger n' _).take k' :=
      hp.trans (by rw [hpq])
    have hon₆₁₀ := hon₆₉.trans hD h₁₀
    rw [← hpe] at hon₆₁₀
    have hlast := hon₆.trans hD hon₆₁₀
    have hnn : n ≠ n' := by
      rintro rfl
      rw [hledq, if_pos rfl] at hn'
      cases hn'
    have hrow : ∀ m, p.row ledger m =
        if m = n' then some (some inn) else if m = n then some (some out) else o.row ledger m := by
      intro m
      rw [hpe, Own.take_row, Own.put_row_same, Own.put_row_other _ _ _ (by decide), hledq, hin, hrow₄]
    have hfree : ∀ m, m = n ∨ m = n' → τ₁₀.com ledger m = none := by
      rintro m (rfl | rfl)
      · exact (hlast.ready.lawful.ledger_row m _ ((hrow m).trans (by rw [if_neg hnn, if_pos rfl]))).1
      · exact (hlast.ready.lawful.ledger_row m _ ((hrow m).trans (if_pos rfl))).1
    refine ⟨hlast, hon₆₁₀.locked _ (hlocked fromId (Or.inl rfl)), hon₆₁₀.locked _ (hlocked toId (Or.inr rfl)),
      .moved n n' hnn hrow ⟨hfree n (Or.inl rfl), hfree n' (Or.inr rfl)⟩ (by simp [hout, PointsLedger.hasRef])
        (by simp [hin, PointsLedger.hasRef]) ⟨by rw [hout], by rw [hin]⟩ fun m r hv hr => ?_⟩
    by_contra hm
    rw [Own.view, hrow, if_neg hm] at hv
    split_ifs at hv with hm'
    · -- the other new row is the recipient's
      simp only [Option.getD_some, Option.some.injEq] at hv
      obtain ⟨hru, -, -⟩ := hasRef_iff.1 hr
      rw [← hv, hin] at hru
      exact absurd hru.symm hne
    · rw [← hrow₄] at hv
      have := hheldx.noRef hD hon₆₁₀.later hnox m r hv
      rw [hr] at this
      cases this
  · refine wp_seqOr (getByRef_ends refType refId) (fun e o₆ τ₆ hr => ?_) fun _ _ _ hf => hf.elim
    obtain ⟨rfl, h₆, hto⟩ := hr
    have hon₆ := hon₅.trans hD (Onward.of_later hD hon₅.ready h₆)
    obtain ⟨n, hv, hr⟩ := hfrom
    have hv₆ : o₆.view τ₆ ledger n = some existingOut := by
      rcases ho : o₆.row ledger n with _ | w
      · rw [Own.view_of_none ho] at hv ⊢
        exact (hD.rely h₆.rely).ledger n _ hv
      · rw [Own.view_of_row ho] at hv ⊢
        exact hv
    rcases e with _ | existingIn
    · refine wp_raise _ (.unreceived ((hlocked toId (Or.inr rfl)).balHeld hon₆.ready.lawful) ?_)
      exact hon₆.ready.lawful.noRef_com hto
    · obtain ⟨n', hv', hr'⟩ := hto
      dsimp only
      split_ifs with hd
      · exact wp_done ⟨hon₆, hlocked fromId (Or.inl rfl), hlocked toId (Or.inr rfl), .repeated n n' hrow₄ hv₆ hv' hr hr' hd⟩
      · exact wp_raise _ (.mismatch n n' _ _ hv₆ hv' hr hr' hd)

theorem transfer_spec [Lockless D] (hD : Covers D strict) (h : Ready D strict o σ) {fromId toId : ℕ} {amount : ℤ}
    {refType refId : String} (outAt inAt : ℤ)
    (hok : ∀ o τ, D.ok i (.check toId refType refId) o τ → strict →
      ∀ n r, o.view τ ledger n = some r → r.hasRef toId refType refId = false) :
    D.wp i (transfer fromId toId amount refType refId outAt inAt)
      (Returns fun _ o' τ => Onward D strict PointsTbl i o σ o' τ) o σ :=
  wp_returns_mono (wp_returnsOr (transfer_ends hD h outAt inAt hok)) fun _ _ _ => And.left

/-! ## Tasks and the check-in -/

/-- what a call owes: whatever it writes, the transaction stays lawful -/
abbrev Moves (D : Discipline Row Index Fx Unit) (strict : Prop) (i : ℕ) (o : Held) (σ : State) {α : Type} :
    α → Held → State → Prop := fun _ o' τ => Onward D strict (fun _ => True) i o σ o' τ

section

variable (hD : Covers D strict)

include hD

theorem wp_moves {α γ : Type} {p : Op γ} {f : γ → Op α} (h : D.wp i p (Returns (Moves D strict i o σ)) o σ)
    (hf : ∀ a o' τ, Ready D strict o' τ → D.wp i (f a) (Returns (Moves D strict i o' τ)) o' τ) :
    D.wp i (p >>= f) (Returns (Moves D strict i o σ)) o σ :=
  wp_seq h fun a o' τ ho => wp_returns_mono (hf a o' τ ho.ready) fun _ _ _ h' => ho.trans hD h'

theorem wp_moves_pure {α : Type} (h : Ready D strict o σ) (a : α) :
    D.wp i (pure a : Op α) (Returns (Moves D strict i o σ)) o σ :=
  wp_return (Onward.of_later hD h (Later.refl h.inv h.fresh))

/-- a write to a row of another table -/
theorem Onward.write (h : Ready D strict o σ) (hl : D.Later i o σ τ) {t : Tbl} (hb : t ≠ balances) (hg : t ≠ ledger)
    {n : ℕ} {r : Row t} (hv : o.view τ t n = some r) (w : Option (Row t)) :
    Onward D strict (fun _ => True) i o σ (o.put t n w) τ := by
  have hr := h.later hD hl
  have hn : n < τ.next t := by
    by_contra hn
    have hf := hr.fresh t n (by omega)
    rw [Own.view_of_none hf.2, hf.1] at hv
    simp at hv
  have hfresh := hr.fresh.put t n w
  rw [Snap.bump_of_lt hn] at hfresh
  refine ⟨Own.sub_put .., hl, ⟨hl.inv, hfresh, hr.lawful.put_other hb hg n w⟩, ?_, fun _ ht => (ht trivial).elim⟩
  rintro u ⟨b, x, hx, hu⟩
  exact ⟨b, x, by rwa [Own.put_row_other _ _ _ hb.symm], hu⟩

/-- a new row of another table -/
theorem Onward.add (h : Ready D strict o σ) (hl : D.Later i o σ τ) {t : Tbl} (hb : t ≠ balances) (hg : t ≠ ledger)
    (w : Option (Row t)) :
    Onward D strict (fun _ => True) i o σ (o.put t (τ.next t) w) (τ.bump t (τ.next t)) := by
  have hr := h.later hD hl
  refine ⟨Own.sub_put .., hl.bump _ _, ⟨D.grow_inv _ _ _ hl.inv, hr.fresh.put _ _ _,
    (hr.lawful.put_other hb hg _ w).bump _ _⟩, ?_, fun _ ht => (ht trivial).elim⟩
  rintro u ⟨b, x, hx, hu⟩
  exact ⟨b, x, by rwa [Own.put_row_other _ _ _ hb.symm], hu⟩

/-- a new row of another table with its index entry -/
theorem Onward.insert (h : Ready D strict o σ) (hl : D.Later i o σ τ) {t : Tbl} (hb : t ≠ balances) (hg : t ≠ ledger)
    (w : Option (Row t)) (k : Index) :
    Onward D strict (fun _ => True) i o σ ((o.put t (τ.next t) w).take k) (τ.bump t (τ.next t)) := by
  have ha := Onward.add hD h hl hb hg w
  exact ⟨ha.sub.trans (Own.sub_take ..), ha.later, ⟨ha.ready.inv, ha.ready.fresh.take k, ha.ready.lawful.take k⟩,
    ha.locked, ha.same⟩

theorem updateRow_moves (h : Ready D strict o σ) {t : Tbl} (hb : t ≠ balances) (hg : t ≠ ledger) {n : ℕ}
    {q : Row t → Bool} {f : Row t → Row t} :
    D.wp i (updateRow t n q f : Op (Option (Row t))) (Returns (Moves D strict i o σ)) o σ :=
  wp_updateRow (fun _ hl _ => Onward.of_later hD h hl) fun _ _ hl hv _ => Onward.write hD h hl hb hg hv _

theorem reward_moves (h : Ready D strict o σ) {u : ℕ} {delta : ℤ} {reason refType refId : String}
    {allowNegative : Bool} {now : ℤ} :
    D.wp i (reward u delta reason refType refId allowNegative now) (Returns (Moves D strict i o σ)) o σ :=
  wp_returns_mono (reward_spec hD h u delta reason refType refId allowNegative now)
    fun _ _ _ h => h.1.mono fun _ _ => trivial

theorem getProgress_moves (h : Ready D strict o σ) {u task : ℕ} {today : String} :
    D.wp i (getProgress u task today) (Returns (Moves D strict i o σ)) o σ :=
  wp_selectHead (f := pure) (fun _ hl _ => wp_return (Onward.of_later hD h hl))
    fun _ _ _ hl _ _ => wp_return (Onward.of_later hD h hl)

theorem ensureProgress_moves (h : Ready D strict o σ) {u task : ℕ} {today : String} :
    D.wp i (ensureProgress u task today) (Returns (Moves D strict i o σ)) o σ := by
  refine wp_moves hD (getProgress_moves hD h) fun up o₁ τ₁ h₁ => ?_
  rcases up with _ | up
  · refine wp_moves hD (wp_insertUnique (fun _ _ _ hl _ _ => Onward.of_later hD h₁ hl)
      fun _ hl _ => Onward.insert hD h₁ hl (by decide) (by decide) _ _) fun _ o₂ τ₂ h₂ => ?_
    refine wp_moves hD (getProgress_moves hD h₂) fun up o₃ τ₃ h₃ => ?_
    rcases up with _ | up
    · exact wp_fail _
    · exact wp_moves_pure hD h₃ _
  · exact wp_moves_pure hD h₁ _

theorem advanceTask_moves (h : Ready D strict o σ) {u : ℕ} {event today : String} {now : ℤ} {task : ℕ} {t : Task} :
    D.wp i (advanceTask u event today now task t) (Returns (Moves D strict i o σ)) o σ := by
  refine wp_moves hD (ensureProgress_moves hD h) fun ⟨n, up⟩ o₁ τ₁ h₁ => ?_
  dsimp only
  split_ifs
  · exact wp_moves hD (reward_moves hD h₁) fun _ _ _ h₂ => wp_moves_pure hD h₂ _
  · exact wp_moves_pure hD h₁ _
  · exact wp_moves_pure hD h₁ _

theorem advanceEach_moves (h : Ready D strict o σ) {u : ℕ} {event today : String} {now : ℕ → ℤ}
    (ts : List (ℕ × Task)) :
    D.wp i (advanceEach u event today now ts) (Returns (Moves D strict i o σ)) o σ := by
  induction ts generalizing o σ with
  | nil => exact wp_moves_pure hD h _
  | cons t ts ih =>
    exact wp_moves hD (advanceTask_moves hD h) fun _ _ _ h₁ => wp_moves hD (ih h₁) fun _ _ _ h₂ => wp_moves_pure hD h₂ _

theorem advanceTasks_moves (h : Ready D strict o σ) {u : ℕ} {event today : String} {now : ℕ → ℤ} :
    D.wp i (advanceTasks u event today now) (Returns (Moves D strict i o σ)) o σ := by
  unfold advanceTasks
  split
  · exact wp_moves_pure hD h _
  · exact wp_moves hD (wp_select fun _ hl _ _ _ => Onward.of_later hD h hl) fun _ _ _ h₁ => advanceEach_moves hD h₁ _

theorem flushProgress_moves (h : Ready D strict o σ) (ups : List (ℕ × UserTaskProgress)) :
    D.wp i (flushProgress ups) (Returns (Moves D strict i o σ)) o σ := by
  induction ups generalizing o σ with
  | nil => exact wp_moves_pure hD h _
  | cons up ups ih => exact wp_moves hD (updateRow_moves hD h (by decide) (by decide)) fun _ _ _ h₁ => ih h₁

theorem lockStat_moves (h : Ready D strict o σ) {u : ℕ} :
    D.wp i (lockStat u) (Returns (Moves D strict i o σ)) o σ := by
  refine wp_bind (wp_select fun τ hl l _ _ => ?_)
  have h₁ := Onward.of_later (W := fun _ => True) hD h hl
  dsimp only
  split
  · exact wp_return h₁
  · refine wp_bind (wp_lockRow (fun _ hl' _ => ?_) fun _ _ hl' hv _ => ?_)
    · exact wp_return (h₁.trans hD (Onward.of_later hD h₁.ready hl'))
    · exact wp_return (h₁.trans hD (Onward.write hD h₁.ready hl' (by decide) (by decide) hv _))

theorem ensureStat_moves (h : Ready D strict o σ) {u : ℕ} :
    D.wp i (ensureStat u) (Returns (Moves D strict i o σ)) o σ := by
  refine wp_moves hD (lockStat_moves hD h) fun s o₁ τ₁ h₁ => ?_
  rcases s with _ | s
  · refine wp_moves hD (wp_insertUnique (fun _ _ _ hl _ _ => Onward.of_later hD h₁ hl)
      fun _ hl _ => Onward.insert hD h₁ hl (by decide) (by decide) _ _) fun _ o₂ τ₂ h₂ => ?_
    refine wp_moves hD (lockStat_moves hD h₂) fun s o₃ τ₃ h₃ => ?_
    rcases s with _ | s
    · exact wp_fail _
    · exact wp_moves_pure hD h₃ _
  · exact wp_moves_pure hD h₁ _

theorem doCheckin_moves (h : Ready D strict o σ) {c : Checkin} :
    D.wp i (doCheckin c) (Returns (Moves D strict i o σ)) o σ := by
  refine wp_moves hD (ensureStat_moves hD h) fun ⟨n, stat⟩ o₁ τ₁ h₁ => ?_
  dsimp only
  split_ifs
  all_goals
    first
    | exact wp_moves_pure hD h₁ _
    | refine wp_moves hD (reward_moves hD h₁) fun _ _ _ h₂ => ?_
      refine wp_moves hD (advanceTasks_moves hD h₂) fun _ _ _ h₃ => ?_
      refine wp_moves hD (updateRow_moves hD h₃ (by decide) (by decide)) fun _ _ _ h₄ => ?_
      exact wp_moves hD (flushProgress_moves hD h₄ _) fun _ _ _ h₅ => wp_moves_pure hD h₅ _

theorem applyPointReward_moves (h : Ready D strict o σ) {u : ℕ} {event refId : String} {now : ℤ} :
    D.wp i (applyPointReward u event refId now) (Returns (Moves D strict i o σ)) o σ := by
  unfold applyPointReward
  split_ifs
  · exact wp_moves hD (reward_moves hD h) fun _ _ _ h₁ => wp_moves_pure hD h₁ _
  · exact wp_moves_pure hD h _

theorem applyTaskSideEffects_moves (h : Ready D strict o σ) {u : ℕ} {event refId today : String} {now : ℕ → ℤ} :
    D.wp i (applyTaskSideEffects u event refId today now) (Returns (Moves D strict i o σ)) o σ := by
  unfold applyTaskSideEffects
  split
  · exact wp_moves_pure hD h _
  · refine wp_moves hD (ensureStat_moves hD h) fun ⟨n, stat⟩ o₁ τ₁ h₁ => ?_
    dsimp only
    split_ifs
    · exact wp_moves_pure hD h₁ _
    · refine wp_moves hD (advanceTasks_moves hD h₁) fun _ _ _ h₂ => ?_
      refine wp_moves hD (updateRow_moves hD h₂ (by decide) (by decide)) fun _ _ _ h₃ => ?_
      exact flushProgress_moves hD h₃ _

end

/-! ## Requests -/

/-- the discipline asks of a transfer that the recipient has no row under the ref -/
def Checks (D : Discipline Row Index Fx Unit) (strict : Prop) : Prop :=
  ∀ i toId refType refId o τ, D.ok i (.check toId refType refId) o τ → strict →
    ∀ n r, o.view τ ledger n = some r → r.hasRef toId refType refId = false

variable [Lockless D]

theorem call_moves (hD : Covers D strict) (hok : Checks D strict) (h : Ready D strict o σ) {c : Call} :
    D.wp i (call c) (Returns (Moves D strict i o σ)) o σ := by
  cases c with
  | reward => exact wp_moves hD (reward_moves hD h) fun _ _ _ h₁ => wp_moves_pure hD h₁ _
  | spend =>
    refine wp_moves hD (wp_returns_mono (spend_spec hD h _ _ _ _ _ _) fun _ _ _ h => h.1.mono fun _ _ => trivial) ?_
    exact fun _ _ _ h₁ => wp_moves_pure hD h₁ _
  | transfer =>
    refine wp_moves hD (wp_returns_mono (transfer_spec hD h _ _ (hok i _ _ _)) fun _ _ _ h => h.mono fun _ _ => trivial) ?_
    exact fun _ _ _ h₁ => wp_moves_pure hD h₁ _
  | checkin => exact wp_moves hD (doCheckin_moves hD h) fun _ _ _ h₁ => wp_moves_pure hD h₁ _
  | event => exact applyPointReward_moves hD h
  | taskEvent => exact applyTaskSideEffects_moves hD h

theorem callAll_moves (hD : Covers D strict) (hok : Checks D strict) (h : Ready D strict o σ) (cs : List Call) :
    D.wp i (callAll cs) (Returns (Moves D strict i o σ)) o σ := by
  induction cs generalizing o σ with
  | nil => exact wp_moves_pure hD h _
  | cons c cs ih => exact wp_moves hD (call_moves hD hok h) fun _ _ _ h₁ => ih h₁

/-- a request keeps the discipline when its commit does -/
theorem request_safe (hD : Covers D strict) (hok : Checks D strict) (h : Ready D strict {} σ) (r : Request)
    (hcommit : ∀ o τ, Ready D strict o τ → D.Good i o τ (τ.merge o)) :
    D.wp i (request r) (fun _ _ _ => True) {} σ := by
  refine wp_andThen (wp_mono (callAll_moves hD hok h r.calls) ?_)
  rintro (e | _) o τ ho
  · exact wp_bind (wp_rollback fun _ _ => wp_raise _ trivial)
  · dsimp only
    split_ifs
    · exact wp_commit fun υ hl => ⟨hcommit o υ (ho.ready.later hD hl), trivial⟩
    · exact wp_rollback fun _ _ => trivial

end LkmService.Points
