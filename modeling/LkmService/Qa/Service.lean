/-
What each operation of the qa module does to the question it works on.

Every operation starts and ends `Fit`. Between the payment of a share and the mark of the answer, or between a refund
and the new status, the writes of the session are not lawful; the last write makes them so again.
-/
import LkmService.Qa.Lawful

namespace LkmService.Qa

open Session Sql Sql.Discipline Points Tbl

variable {env : Env} {i : ℕ} {o o' p : Held} {σ τ υ : State} {q a : ℕ} {r : QAQuestion} {x : QAAnswer}

/-! ## Locks -/

/-- the session owns the row of an open question -/
def OpenHere (o : Held) (q : ℕ) (r : QAQuestion) : Prop := o.row questions q = some (some r) ∧ r.status = .isOpen

theorem OpenHere.holds (h : OpenHere o q r) : Holds o q := by simp [Holds, h.1]

theorem Fit.kept {r₀ : QAQuestion} (h : Fit env o σ) (ho : OpenHere o q r) (hr : σ.com questions q = some r₀) : Keeps r₀ r := by
  obtain ⟨r', hr', hk⟩ := h.qa.question_row q _ ho.1
  rw [Option.some.injEq] at hr'
  exact hr' ▸ hk r₀ hr

/-- a question that is open for the session is open -/
theorem Fit.isOpen (h : Fit env o σ) (ho : OpenHere o q r) (r₀ : QAQuestion) (hr : σ.com questions q = some r₀) :
    r₀.status = .isOpen := by
  by_contra hover
  have he := (h.kept ho hr).frozen hover
  exact hover (he ▸ ho.2)

theorem Fit.lock (h : Fit env o σ) (hv : o.view σ questions q = some r) : Fit env (o.put questions q (some r)) σ := by
  have hmerge : ∀ t n, (σ.merge (o.put questions q (some r))).com t n = (σ.merge o).com t n := by
    intro t n
    by_cases hn : t = questions ∧ n = q
    · obtain ⟨rfl, rfl⟩ := hn
      rw [Snap.merge_of_some (Own.put_row_self ..)]
      exact hv.symm
    · rw [Snap.merge_com, Snap.merge_com, Own.put_row_of_ne _ _ _ fun ht hm => hn ⟨ht, hm⟩]
  have hl := Later.refl (i := 0) h.ready.inv h.ready.fresh
  refine ⟨(Onward.write covers h.ready hl (by decide) (by decide) hv _).ready, ?_⟩
  refine h.qa.step (Adds.nothing (Own.put_row_other _ _ _ (by decide))) (fun _ _ hf => hf.elim) (fun q' hq' => ?_)
    ⟨r, Own.put_row_self .., fun r₀ hr₀ => ?_⟩ (fun m => Or.inl (by rw [Own.put_row_other _ _ _ (by decide)])) ?_
  · rw [Own.put_row_same, if_neg hq']
  · rcases ho : o.row questions q with _ | v
    · rw [Own.view_of_none ho, hr₀, Option.some.injEq] at hv
      exact hv ▸ Keeps.refl r₀
    · rw [Own.view_of_row ho] at hv
      subst hv
      obtain ⟨r', hr', hk⟩ := h.qa.question_row q _ ho
      rw [Option.some.injEq] at hr'
      exact hr' ▸ hk r₀ hr₀
  · exact (h.qa.escrow q).congr ⟨hmerge _ _, fun m x _ _ => by rw [hmerge], fun n r _ => by rw [hmerge]⟩

theorem getLocked_spec (h : Fit env o σ) :
    (discipline env).wp i (getLocked q) (Returns fun res o' τ => Fit env o' τ ∧
      ∀ r, res = some r → o'.row questions q = some (some r)) o σ :=
  wp_lockRow (fun _ hl _ => ⟨h.later hl, by simp⟩) fun _ _ hl hv _ =>
    ⟨(h.later hl).lock hv, fun _ hr => by rw [← Option.some.inj hr]; exact Own.put_row_self ..⟩

/-! ## Payments -/

/-- the ledger row that a payment has added, if there was one to add -/
def Paid (o o' : Held) : Option PointsLedger → Prop
  | none => o'.row ledger = o.row ledger
  | some new => ∃ n, o.row ledger n = none ∧ ∀ m, o'.row ledger m = if m = n then some (some new) else o.row ledger m

theorem Paid.adds {new : Option PointsLedger} (h : Paid o o' new) (hn : NewRows o' σ) :
    ∃ rows : ℕ → PointsLedger → Prop, Adds o o' σ rows ∧
      (∀ n r, rows n r → new = some r) ∧ ∀ r, new = some r → ∃ n, rows n r := by
  rcases new with _ | new
  · exact ⟨_, Adds.nothing h, fun _ _ hf => hf.elim, by simp⟩
  · obtain ⟨n, ho, hrow⟩ := h
    have hc : σ.com ledger n = none := (hn n _ ((hrow n).trans (if_pos rfl))).1
    refine ⟨_, Adds.row ⟨ho, hc⟩ hrow, fun m r hr => by rw [hr.2], fun r hr => ⟨n, rfl, ?_⟩⟩
    exact (Option.some.inj hr).symm

theorem Paid.congr {new : Option PointsLedger} (h : Paid o p new) (hled : o'.row ledger = p.row ledger) : Paid o o' new := by
  rcases new with _ | new
  · exact hled.trans h
  · obtain ⟨n, hn, hrow⟩ := h
    exact ⟨n, hn, fun m => by rw [hled, hrow]⟩

/-- the rows that a payment adds, as the entries that they carry -/
theorem Paid.carries {new : Option PointsLedger} {entry : ℕ → ℤ → String → String → Prop} (h : Paid o o' new)
    (hn : NewRows o' σ) (hnew : ∀ u δ t j, (∃ r', new = some r' ∧ Carries u δ t j r') ↔ entry u δ t j) :
    ∃ rows : ℕ → PointsLedger → Prop, Adds o o' σ rows ∧
      ∀ u δ t j, (∃ n r', rows n r' ∧ Carries u δ t j r') ↔ entry u δ t j := by
  obtain ⟨rows, hadd, hrows, hex⟩ := h.adds hn
  refine ⟨rows, hadd, fun u δ t j => ?_⟩
  rw [← hnew]
  constructor
  · rintro ⟨n, r', hn, hc⟩
    exact ⟨r', hrows n r' hn, hc⟩
  · rintro ⟨r', hr', hc⟩
    obtain ⟨n, hn⟩ := hex r' hr'
    exact ⟨n, r', hn, hc⟩

/-- a reward under a ref that has no row yet -/
theorem reward_paidEnds (h : Ready (discipline env) True o σ) {u : ℕ} {delta : ℤ} {reason refType refId : String}
    {allowNegative : Bool} {now : ℤ} (hno : ∀ τ, (discipline env).Later i o σ τ → ∀ n r, (τ.merge o).com ledger n = some r →
      r.hasRef u refType refId = false) :
    (discipline env).wp i (reward u delta reason refType refId allowNegative now) (ReturnsOr
      (fun _ o' τ => Onward (discipline env) True PointsTbl i o σ o' τ ∧ ∃ new, Paid o o' (some new) ∧
        Carries u delta refType refId new)
      fun _ o' τ => Onward (discipline env) True (· = balances) i o σ o' τ ∧ Short o' u delta allowNegative) o σ := by
  have hview : ∀ (o' : Held) (τ : State) n r, (discipline env).Later i o σ τ → o'.row ledger = o.row ledger →
      o'.view τ ledger n = some r → r.hasRef u refType refId = false := by
    intro o' τ n r hl hrow hv
    refine hno τ hl n r ?_
    rw [← hv]
    change (o.row ledger n).getD _ = (o'.row ledger n).getD _
    rw [hrow]
  refine wp_mono (reward_ends covers h _ _ _ _ _ _ _) ?_
  rintro (e | entry) o' τ
  · rintro ⟨hon, ⟨n, r, hv, href, -⟩ | hshort⟩
    · have := hview o' τ n r hon.later (hon.same _ (by decide)) hv
      rw [href] at this
      cases this
    · exact ⟨hon, hshort⟩
  · rintro ⟨hon, after, hg, -⟩
    refine ⟨hon, ?_⟩
    rcases hg with ⟨n, hrow, hv, href, -⟩ | ⟨n, -, hrow, hfree, -⟩
    · have := hview o' τ n entry hon.later hrow hv
      rw [href] at this
      cases this
    · exact ⟨_, ⟨n, hfree.1, hrow⟩, rfl, rfl, rfl, rfl⟩

theorem reward_paid (h : Ready (discipline env) True o σ) {u : ℕ} {delta : ℤ} {reason refType refId : String} {allowNegative : Bool}
    {now : ℤ} (hno : ∀ τ, (discipline env).Later i o σ τ → ∀ n r, (τ.merge o).com ledger n = some r →
      r.hasRef u refType refId = false) :
    (discipline env).wp i (reward u delta reason refType refId allowNegative now) (Returns fun _ o' τ =>
      Onward (discipline env) True PointsTbl i o σ o' τ ∧ ∃ new, Paid o o' (some new) ∧
        Carries u delta refType refId new) o σ :=
  wp_returnsOr (reward_paidEnds h hno)

theorem payShare_spec (h : Fit env o σ) (ho : OpenHere o q r) (hx : (σ.merge o).com answers a = some x)
    (hxq : x.questionId = q) (hnot : x.isAccepted = false) (rewardAt : ℤ) :
    (discipline env).wp i (payShare env q a r x rewardAt) (Returns fun d o' τ =>
      Onward (discipline env) True PointsTbl i o σ o' τ ∧ d = r.bountyDistributed + r.bountyPerPerson ∧
        ∃ new, Paid o o' new ∧ ∀ u δ t j, (∃ r', new = some r' ∧ Carries u δ t j r') ↔
          0 < r.bountyPerPerson ∧ u = x.authorId ∧ δ = (r.bountyPerPerson : ℤ) ∧ t = "qa_accept" ∧
            j = env.answerRef q a) o σ := by
  unfold payShare
  split_ifs with hpos
  · refine wp_seq (reward_paid h.ready fun τ hl n r' hn => ?_) fun _ o' τ ⟨hon, new, hpaid, hc⟩ => wp_return ?_
    · -- a row under the ref would mean that the answer is accepted
      by_contra href
      obtain ⟨-, ht, hi⟩ := hasRef_iff.1 (by simpa using href)
      have hdue := ((h.later hl).qa.escrow q).rows n r' hn (.share a ht hi)
      obtain ⟨y, hy, hyq, hacc⟩ := hdue.accepted ht hi
      rw [((Fit.same hl ho.holds).answers a x hxq).1 hx, Option.some.injEq] at hy
      rw [← hy, hnot] at hacc
      simp at hacc
    · refine ⟨hon, rfl, some new, hpaid, fun u δ t j => ⟨?_, ?_⟩⟩
      · rintro ⟨r', hr', hu, hδ, ht, hj⟩
        obtain ⟨hu', hδ', ht', hj'⟩ := hc
        rw [Option.some.injEq] at hr'
        subst hr'
        exact ⟨hpos, hu ▸ hu', hδ ▸ hδ', ht ▸ ht', hj ▸ hj'⟩
      · rintro ⟨-, rfl, rfl, rfl, rfl⟩
        exact ⟨new, rfl, hc⟩
  · have hzero : r.bountyPerPerson = 0 := by omega
    refine wp_return ⟨Onward.of_later covers h.ready (Later.refl h.ready.inv h.ready.fresh), by omega, none, rfl, ?_⟩
    intro u δ t j
    simp [hzero]

/-! ## Accepting -/

theorem countAccepted_spec :
    (discipline env).wp i (countAccepted q) (Returns fun n o' τ => o' = o ∧ (discipline env).Later i o σ τ ∧
      n = (accepted (τ.merge o) q).ncard) o σ := by
  refine wp_bind (wp_select fun τ hl l hmem hs => wp_return ⟨rfl, hl, length_eq_ncard hs fun m => ?_⟩)
  constructor
  · rintro ⟨y, hy, hq, hacc⟩
    exact ⟨y, (hmem m y).2 ⟨hy, by simp [hq, hacc]⟩⟩
  · rintro ⟨y, hy⟩
    obtain ⟨hv, hp⟩ := (hmem m y).1 hy
    simp only [Bool.and_eq_true, beq_iff_eq] at hp
    exact ⟨y, hv, hp.1, hp.2⟩

/-- the last two writes of an acceptance make the session's writes lawful again -/
theorem Fit.accept {new : Option PointsLedger} {d : ℕ} (h : Fit env o σ) (ho : OpenHere o q r)
    (hx : (σ.merge o).com answers a = some x) (hxq : x.questionId = q) (hnot : x.isAccepted = false)
    (hroom : (accepted (σ.merge o) q).ncard < r.bountyPeople) (hd : d = r.bountyDistributed + r.bountyPerPerson)
    (hpaid : Paid o p new) (hnew : ∀ u δ t j, (∃ r', new = some r' ∧ Carries u δ t j r') ↔
      0 < r.bountyPerPerson ∧ u = x.authorId ∧ δ = (r.bountyPerPerson : ℤ) ∧ t = "qa_accept" ∧ j = env.answerRef q a)
    (hques : p.row questions = o.row questions) (hans : p.row answers = o.row answers)
    (hready : Ready (discipline env) True ((p.put answers a (some { x with isAccepted := true })).put questions q
      (some { r with bountyDistributed := d, acceptedAnswerId := some a })) σ) :
    Fit env ((p.put answers a (some { x with isAccepted := true })).put questions q
      (some { r with bountyDistributed := d, acceptedAnswerId := some a })) σ := by
  subst hd
  set o' := (p.put answers a (some { x with isAccepted := true })).put questions q
    (some { r with bountyDistributed := r.bountyDistributed + r.bountyPerPerson, acceptedAnswerId := some a }) with ho'
  have hled : o'.row ledger = p.row ledger := by
    rw [ho', Own.put_row_other _ _ _ (by decide), Own.put_row_other _ _ _ (by decide)]
  obtain ⟨rows, hadd, hcarry⟩ := (hpaid.congr hled).carries (newRows hready.lawful) hnew
  have hq' : o'.row questions q = some (some { r with
      bountyDistributed := r.bountyDistributed + r.bountyPerPerson, acceptedAnswerId := some a }) := Own.put_row_self ..
  have ha' : ∀ m, o'.row answers m = if m = a then some (some { x with isAccepted := true }) else o.row answers m := by
    intro m
    rw [ho', Own.put_row_other _ _ _ (by decide), Own.put_row_same, hans]
  refine ⟨hready, h.qa.step hadd (fun n r' hn q' hr' => ?_) (fun q' hne => ?_) ⟨_, hq', fun r₀ hr₀ => ?_⟩ (fun m => ?_) ?_⟩
  · -- the new row is about this question
    obtain ⟨-, -, -, ht, hj⟩ := (hcarry ..).1 ⟨n, r', hn, rfl, rfl, rfl, rfl⟩
    exact hr'.unique (.share a ht hj)
  · rw [ho', Own.put_row_same, if_neg hne, Own.put_row_other _ _ _ (by decide), hques]
  · have hk₀ := h.kept ho hr₀
    exact ⟨hk₀.author, hk₀.people, hk₀.perPerson, hk₀.total, fun hover => absurd (h.isOpen ho r₀ hr₀) hover⟩
  · rw [ha']
    split_ifs with hm
    · subst hm
      refine Or.inr ⟨_, rfl, hxq, fun y hy => ?_, fun y hy => ?_, fun _ r₀ hr₀ => h.isOpen ho r₀ hr₀⟩
      · rw [hx, Option.some.injEq] at hy
        exact hy ▸ hxq
      · rcases hrow : o.row answers m with _ | v
        · rw [Snap.merge_of_none hrow, hy, Option.some.injEq] at hx
          exact ⟨by rw [hx], by rw [hx], fun _ => rfl⟩
        · obtain ⟨x₁, rfl, -, hs⟩ := h.qa.answer_row m v hrow
          rw [Snap.merge_of_some hrow, Option.some.injEq] at hx
          subst hx
          exact ⟨(hs y hy).question, (hs y hy).author, fun _ => rfl⟩
    · exact Or.inl rfl
  · refine (h.qa.escrow q).accept (Snap.merge_of_some ho.1 σ) ho.2 hx hxq hnot hroom (Snap.merge_of_some hq' σ)
      (Snap.merge_of_some ((ha' a).trans (if_pos rfl)) σ) (fun m hm => ?_) (fun n r' _ => hadd.rows n r') hcarry
    rw [Snap.merge_com, Snap.merge_com, ha', if_neg hm]

theorem acceptAnswer_spec (h : Fit env o σ) (askerId : ℕ) (now rewardAt : ℤ) :
    (discipline env).wp i (acceptAnswer env q a askerId now rewardAt) (Returns fun _ o' τ => Fit env o' τ ∧
      ∃ r, OpenHere o' q r) o σ := by
  refine wp_seq (getLocked_spec h) fun res o₁ τ₁ ⟨h₁, hrow⟩ => ?_
  rcases res with _ | r
  · exact wp_fail _
  dsimp only
  split_ifs with hasker hopen hexp
  · exact wp_fail _
  · exact wp_fail _
  · exact wp_fail _
  have ho : OpenHere o₁ q r := ⟨hrow r rfl, not_not.1 hopen⟩
  refine wp_bind (wp_select fun τ₂ h₂ l hmem _ => ?_)
  rcases l with _ | ⟨⟨n, x⟩, l⟩
  · exact wp_fail _
  obtain ⟨hv, hp⟩ := (hmem n x).1 List.mem_cons_self
  obtain ⟨rfl, hxq⟩ : n = a ∧ x.questionId = q := by simpa using hp
  have hfit₂ := h₁.later h₂
  dsimp only [List.head?_cons]
  split_ifs with hacc hself
  · exact wp_return ⟨hfit₂, r, ho⟩
  · exact wp_fail _
  refine wp_seq countAccepted_spec fun k o₂ τ₃ ⟨he, h₃, hk⟩ => ?_
  subst he
  split_ifs with hroom
  · exact wp_fail _
  have hfit₃ := hfit₂.later h₃
  have hx₃ := ((Fit.same h₃ ho.holds).answers n x hxq).1 hv
  have hnot : x.isAccepted = false := by simpa using hacc
  refine wp_seq (payShare_spec hfit₃ ho hx₃ hxq hnot rewardAt) fun d p τ₄ ⟨hon, hd, new, hpaid, hnew⟩ => ?_
  have hpx : ∀ τ, (discipline env).Later i p τ₄ τ → p.view τ answers n = some x := by
    intro τ hl
    have hrow : p.view τ answers n = (τ.merge o₂).com answers n := by
      change (p.row answers n).getD _ = (o₂.row answers n).getD _
      rw [hon.same answers (by decide)]
    rw [hrow]
    have hl' := hon.later.trans (hl.sub hon.sub (covers.sub hon.sub hl.rely))
    exact ((Fit.same hl' ho.holds).answers n x hxq).1 hx₃
  have hpq : p.row questions q = some (some r) := by rw [hon.same questions (by decide)]; exact ho.1
  refine wp_bind (wp_updateRow (fun τ₅ h₅ hno => ?_) fun τ₅ y h₅ hv₅ _ => ?_)
  · have := hno x (hpx τ₅ h₅)
    simp at this
  obtain rfl : y = x := by
    rw [hpx τ₅ h₅, Option.some.injEq] at hv₅
    exact hv₅.symm
  have hon₅ := (hon.mono fun _ _ => trivial).trans covers
    (Onward.write covers hon.ready h₅ (t := answers) (by decide) (by decide) hv₅ (some { y with isAccepted := true }))
  set p₅ := p.put answers n (some { y with isAccepted := true }) with hp₅
  have hp₅q : p₅.row questions q = some (some r) := by rw [hp₅, Own.put_row_other _ _ _ (by decide)]; exact hpq
  refine wp_bind (wp_updateOwned rfl hp₅q fun τ₆ h₆ => wp_return ?_)
  have hon₆ := hon₅.trans covers (Onward.write covers hon₅.ready h₆ (t := questions) (by decide) (by decide)
    (Own.view_of_row hp₅q) (some { r with bountyDistributed := d, acceptedAnswerId := some n }))
  have hfit₆ := hfit₃.later hon₆.later
  have hsame := Fit.same hon₆.later ho.holds
  have hroom₆ : (accepted (τ₆.merge o₂) q).ncard < r.bountyPeople := by
    rw [hsame.agrees.accepted, ← hk]
    omega
  refine ⟨hfit₆.accept ho ((hsame.answers n y hxq).1 hx₃) hxq hnot hroom₆ hd hpaid hnew (hon.same _ (by decide))
    (hon.same _ (by decide)) hon₆.ready, _, Own.put_row_self .., ho.2⟩

/-! ## Settling -/

/-- a refund that is not paid is one that the asker's balance does not cover -/
theorem payRefund_ends (h : Fit env o σ) (ho : OpenHere o q r) (rewardAt : ℤ) :
    (discipline env).wp i (payRefund env q r rewardAt) (ReturnsOr
      (fun _ o' τ => Onward (discipline env) True PointsTbl i o σ o' τ ∧
        ∃ new, Paid o o' new ∧ ∀ u δ t j, (∃ r', new = some r' ∧ Carries u δ t j r') ↔
          r.bountyDistributed < r.bountyTotal ∧ u = r.authorId ∧ δ = (r.bountyTotal : ℤ) - r.bountyDistributed ∧
            t = "qa_refund" ∧ j = env.str q)
      fun _ o' τ => Onward (discipline env) True (· = balances) i o σ o' τ ∧ r.bountyDistributed < r.bountyTotal ∧
        Short o' r.authorId (r.bountyTotal - r.bountyDistributed) false) o σ := by
  unfold payRefund
  split_ifs with hpos
  · refine wp_seqOr (reward_paidEnds h.ready fun τ hl n r' hn => ?_) (fun _ o' τ ⟨hon, new, hpaid, hc⟩ => wp_done ?_)
      fun _ o' τ ⟨hon, hshort⟩ => ⟨hon, by omega, hshort⟩
    · -- a row under the ref would mean that the question is no longer open
      by_contra href
      obtain ⟨-, ht, hi⟩ := hasRef_iff.1 (by simpa using href)
      have hdue := ((h.later hl).qa.escrow q).rows n r' hn (.refund ht hi)
      exact (hdue.over ht (Snap.merge_of_some ho.1 τ)).1 ho.2
    · refine ⟨hon, some new, hpaid, fun u δ t j => ⟨?_, ?_⟩⟩
      · rintro ⟨r', hr', hu, hδ, ht, hj⟩
        obtain ⟨hu', hδ', ht', hj'⟩ := hc
        rw [Option.some.injEq] at hr'
        subst hr'
        exact ⟨by omega, hu ▸ hu', hδ ▸ hδ', ht ▸ ht', hj ▸ hj'⟩
      · rintro ⟨-, rfl, rfl, rfl, rfl⟩
        exact ⟨new, rfl, hc⟩
  · refine wp_done ⟨Onward.of_later covers h.ready (Later.refl h.ready.inv h.ready.fresh), none, rfl, ?_⟩
    intro u δ t j
    constructor
    · rintro ⟨_, hn, -⟩
      simp at hn
    · rintro ⟨hlt, -⟩
      omega

theorem Fit.settle {new : Option PointsLedger} {s : QuestionStatus} (h : Fit env o σ) (ho : OpenHere o q r)
    (hs : s ≠ .isOpen) (hpaid : Paid o p new) (hnew : ∀ u δ t j, (∃ r', new = some r' ∧ Carries u δ t j r') ↔
      r.bountyDistributed < r.bountyTotal ∧ u = r.authorId ∧ δ = (r.bountyTotal : ℤ) - r.bountyDistributed ∧
        t = "qa_refund" ∧ j = env.str q)
    (hques : p.row questions = o.row questions) (hans : p.row answers = o.row answers)
    (hready : Ready (discipline env) True (p.put questions q (some { r with status := s })) σ) :
    Fit env (p.put questions q (some { r with status := s })) σ := by
  set o' := p.put questions q (some { r with status := s }) with ho'
  have hled : o'.row ledger = p.row ledger := by rw [ho', Own.put_row_other _ _ _ (by decide)]
  have hans' : o'.row answers = o.row answers := by rw [ho', Own.put_row_other _ _ _ (by decide), hans]
  obtain ⟨rows, hadd, hcarry⟩ := (hpaid.congr hled).carries (newRows hready.lawful) hnew
  have hq' : o'.row questions q = some (some { r with status := s }) := Own.put_row_self ..
  refine ⟨hready, h.qa.step hadd (fun n r' hn q' hr' => ?_) (fun q' hne => ?_) ⟨_, hq', fun r₀ hr₀ => ?_⟩
    (fun m => Or.inl (by rw [hans'])) ?_⟩
  · obtain ⟨-, -, -, ht, hj⟩ := (hcarry ..).1 ⟨n, r', hn, rfl, rfl, rfl, rfl⟩
    exact hr'.unique (.refund ht hj)
  · rw [ho', Own.put_row_same, if_neg hne, hques]
  · have hk₀ := h.kept ho hr₀
    exact ⟨hk₀.author, hk₀.people, hk₀.perPerson, hk₀.total, fun hover => absurd (h.isOpen ho r₀ hr₀) hover⟩
  · refine (h.qa.escrow q).settle (Snap.merge_of_some ho.1 σ) ho.2 hs (Snap.merge_of_some hq' σ) ?_
      (fun n r' _ => hadd.rows n r') hcarry
    funext m
    rw [Snap.merge_com, Snap.merge_com, hans']

/-- the row of a question once it is settled -/
def QAQuestion.settled (r : QAQuestion) : QAQuestion :=
  { r with status := if r.acceptedAnswerId.isSome then .accepted else .closed }

theorem settleQuestion_ends (h : Fit env o σ) (ho : OpenHere o q r) (rewardAt : ℤ) :
    (discipline env).wp i (settleQuestion env q r rewardAt) (ReturnsOr
      (fun _ o' τ => Fit env o' τ ∧ o.Sub o' ∧ (discipline env).Later i o σ τ ∧
        (∀ q', o'.row questions q' = if q' = q then some (some (QAQuestion.settled r)) else o.row questions q') ∧
        ∀ n r', o'.row ledger n = some (some r') → o.row ledger n = some (some r') ∨ 0 ≤ r'.delta)
      fun _ o' τ => Onward (discipline env) True (· = balances) i o σ o' τ ∧ r.bountyDistributed < r.bountyTotal ∧
        Short o' r.authorId (r.bountyTotal - r.bountyDistributed) false) o σ := by
  refine wp_seqOr (payRefund_ends h ho rewardAt) (fun _ p τ₁ ⟨hon, new, hpaid, hnew⟩ => ?_) fun _ _ _ he => he
  have hques : p.row questions = o.row questions := hon.same _ (by decide)
  have hpq : p.row questions q = some (some r) := by rw [hques]; exact ho.1
  refine wp_bind (wp_updateOwned rfl hpq fun τ₂ h₂ => wp_done ?_)
  have hon₂ := (hon.mono fun _ _ => trivial).trans covers (Onward.write covers hon.ready h₂ (t := questions)
    (by decide) (by decide) (Own.view_of_row hpq)
    (some { r with status := if r.acceptedAnswerId.isSome then .accepted else .closed }))
  refine ⟨(h.later hon₂.later).settle ho (by split_ifs <;> simp) hpaid hnew hques (hon.same _ (by decide)) hon₂.ready,
    hon₂.sub, hon₂.later, fun q' => ?_, fun n r' hn => ?_⟩
  · rw [Own.put_row_same, hques]
    rfl
  · rw [Own.put_row_other _ _ _ (by decide)] at hn
    rcases new with _ | new
    · exact Or.inl (hpaid ▸ hn)
    · obtain ⟨m, -, hrow⟩ := hpaid
      rw [hrow] at hn
      split_ifs at hn
      · obtain rfl : new = r' := by simpa using hn
        obtain ⟨hlt, -, hdelta, -⟩ := (hnew _ _ _ _).1 ⟨new, rfl, rfl, rfl, rfl, rfl⟩
        exact Or.inr (by omega)
      · exact Or.inl hn

theorem settleQuestion_spec (h : Fit env o σ) (ho : OpenHere o q r) (rewardAt : ℤ) :
    (discipline env).wp i (settleQuestion env q r rewardAt) (Returns fun _ o' τ => Fit env o' τ ∧
      ∀ q', q' ≠ q → o'.row questions q' = o.row questions q') o σ :=
  wp_returns_mono (wp_returnsOr (settleQuestion_ends h ho rewardAt)) fun _ _ _ ⟨hfit, _, _, hrow, _⟩ =>
    ⟨hfit, fun q' hne => by rw [hrow, if_neg hne]⟩

theorem closeQuestion_spec (h : Fit env o σ) (askerId : ℕ) (acceptedAnswerId : Option ℕ) (now acceptAt refundAt : ℤ) :
    (discipline env).wp i (closeQuestion env q askerId acceptedAnswerId now acceptAt refundAt)
      (Returns fun _ o' τ => Fit env o' τ) o σ := by
  have hsettle : ∀ {o σ r}, Fit env o σ → OpenHere o q r →
      (discipline env).wp i (settleQuestion env q r refundAt) (Returns fun _ o' τ => Fit env o' τ) o σ :=
    fun h ho => wp_returns_mono (settleQuestion_spec h ho refundAt) fun _ _ _ h => h.1
  refine wp_seq (getLocked_spec h) fun res o₁ τ₁ ⟨h₁, hrow⟩ => ?_
  rcases res with _ | r
  · exact wp_fail _
  dsimp only
  split_ifs with hasker hopen
  · exact wp_fail _
  · exact wp_fail _
  have ho : OpenHere o₁ q r := ⟨hrow r rfl, not_not.1 hopen⟩
  rcases acceptedAnswerId with _ | a
  · exact hsettle h₁ ho
  dsimp only
  split_ifs with hsame
  · exact hsettle h₁ ho
  refine wp_seq (acceptAnswer_spec h₁ askerId now acceptAt) fun _ o₂ τ₂ ⟨h₂, r₂, ho₂⟩ => ?_
  refine wp_bind (wp_select fun τ₃ h₃ l hmem _ => ?_)
  rcases l with _ | ⟨⟨n, r₃⟩, l⟩
  · exact wp_fail _
  obtain ⟨hv, hp⟩ := (hmem n r₃).1 List.mem_cons_self
  obtain rfl : n = q := by simpa using hp
  rw [Own.view_of_row ho₂.1, Option.some.injEq] at hv
  exact hsettle (h₂.later h₃) (hv ▸ ho₂)

/-! ## Asking and answering -/

theorem createAnswer_spec (h : Fit env o σ) (authorId : ℕ) (now : ℤ) :
    (discipline env).wp i (createAnswer q authorId now) (Returns fun _ o' τ => Fit env o' τ) o σ := by
  refine wp_seq (getLocked_spec h) fun res o₁ τ₁ ⟨h₁, hrow⟩ => ?_
  rcases res with _ | r
  · exact wp_fail _
  dsimp only
  split_ifs with hself hopen hexp
  · exact wp_fail _
  · exact wp_fail _
  · exact wp_fail _
  have ho : OpenHere o₁ q r := ⟨hrow r rfl, not_not.1 hopen⟩
  refine wp_bind (wp_insert fun τ₂ h₂ => wp_return ?_)
  have hfit := h₁.later h₂
  have hf := hfit.ready.fresh answers _ (Nat.le_refl _)
  set m := τ₂.next answers with hm
  set x : QAAnswer := { questionId := q, authorId := authorId } with hx
  have hready := (Onward.add covers h₁.ready h₂ (t := answers) (by decide) (by decide) (some x)).ready
  have hrow' : ∀ n, (o₁.put answers m (some x)).row answers n = if n = m then some (some x) else o₁.row answers n :=
    fun n => Own.put_row_same ..
  have hqa : QaLawful env (o₁.put answers m (some x)) τ₂ := by
    refine hfit.qa.step (q := q) (Adds.nothing (Own.put_row_other _ _ _ (by decide))) (fun _ _ hf => hf.elim)
      (fun q' _ => by rw [Own.put_row_other _ _ _ (by decide)]) ?_ (fun n => ?_) ?_
    · refine ⟨r, by rw [Own.put_row_other _ _ _ (by decide)]; exact ho.1, fun r₀ hr₀ => ?_⟩
      obtain ⟨r', hr', hk⟩ := hfit.qa.question_row q _ ho.1
      rw [Option.some.injEq] at hr'
      exact hr' ▸ hk r₀ hr₀
    · rw [hrow']
      split_ifs with hn
      · subst hn
        refine Or.inr ⟨x, rfl, rfl, fun y hy => ?_, fun y hy => ?_, fun hacc => by simp [hx] at hacc⟩
        · rw [Snap.merge_of_none hf.2, hf.1] at hy
          simp at hy
        · rw [hf.1] at hy
          simp at hy
      · exact Or.inl rfl
    · refine (hfit.qa.escrow q).congr ⟨?_, fun n y hy hacc => ?_, fun n r' _ => ?_⟩
      · rw [Snap.merge_com, Snap.merge_com, Own.put_row_other _ _ _ (by decide)]
      · rw [Snap.merge_com, Snap.merge_com, hrow']
        split_ifs with hn
        · subst hn
          rw [hf.2]
          simp only [Option.getD_none, hf.1, reduceCtorEq, Option.getD_some, Option.some.injEq, false_iff]
          rintro rfl
          simp [hx] at hacc
        · rfl
      · rw [Snap.merge_com, Snap.merge_com, Own.put_row_other _ _ _ (by decide)]
  exact ⟨hready, hqa.bump _ _⟩

theorem createQuestion_spec (h : Fit env o σ) (authorId : ℕ) (info : QuestionCreate) (now rewardAt : ℤ) :
    (discipline env).wp i (createQuestion env authorId info now rewardAt) (Returns fun _ o' τ => Fit env o' τ) o σ := by
  refine wp_bind (wp_insert fun τ₁ h₁ => ?_)
  have hfit₁ := h.later h₁
  have hf := hfit₁.ready.fresh questions _ (Nat.le_refl _)
  set q := τ₁.next questions with hq
  set total := info.bountyPeople * info.bountyPerPerson with htotal
  set r : QAQuestion :=
    { authorId := authorId, bountyPeople := info.bountyPeople, bountyPerPerson := info.bountyPerPerson,
      bountyTotal := total, bountyExpiresAt := if 0 < total then some (now + info.bountyDays * day) else none } with hr
  have hon₁ := Onward.add covers h.ready h₁ (t := questions) (by decide) (by decide) (some r)
  set p := o.put questions q (some r) with hp
  have hpled : p.row ledger = o.row ledger := Own.put_row_other _ _ _ (by decide)
  have hpq : p.row questions q = some (some r) := Own.put_row_self ..
  -- the question is committed nowhere as long as the session owns its row
  have hnone : ∀ τ, (discipline env).Later i p (τ₁.bump questions q) τ → τ.com questions q = none :=
    fun τ hl => (hl.com_eq hpq).trans hf.1
  have hbase : ∀ τ, (discipline env).Later i p (τ₁.bump questions q) τ → (discipline env).Later i o σ τ :=
    fun τ hl => hon₁.later.trans (hl.sub hon₁.sub (covers.sub hon₁.sub hl.rely))
  have hfinal : ∀ (o' : Held) (τ : State) (new : Option PointsLedger), (discipline env).Later i o σ τ →
      τ.com questions q = none → Paid o o' new →
      (∀ u δ t j, (∃ r', new = some r' ∧ Carries u δ t j r') ↔
        0 < r.bountyTotal ∧ u = r.authorId ∧ δ = -(r.bountyTotal : ℤ) ∧ t = "qa_question" ∧ j = env.str q) →
      o'.row questions = p.row questions → o'.row answers = o.row answers →
      Ready (discipline env) True o' τ → Fit env o' τ := by
    intro o' τ new hl hn hpaid hnew hques hans hready
    obtain ⟨rows, hadd, hcarry⟩ := hpaid.carries (newRows hready.lawful) hnew
    have hq' : o'.row questions q = some (some r) := by rw [hques, hpq]
    refine ⟨hready, (h.later hl).qa.step hadd (fun n r' hn q' hr' => ?_) (fun q' hne => ?_) ⟨r, hq', fun r₀ hr₀ => ?_⟩
      (fun m => Or.inl (by rw [hans])) ?_⟩
    · obtain ⟨-, -, -, ht, hj⟩ := (hcarry ..).1 ⟨n, r', hn, rfl, rfl, rfl, rfl⟩
      exact hr'.unique (.escrow ht hj)
    · rw [hques, hp, Own.put_row_same, if_neg hne]
    · rw [hn] at hr₀
      simp at hr₀
    · refine ((h.later hl).qa.escrow q).create ?_ (Snap.merge_of_some hq' τ) ?_ rfl htotal rfl
        (fun n r' _ => hadd.rows n r') hcarry
      · rw [Snap.merge_of_none hf.2, hn]
      · funext m
        rw [Snap.merge_com, Snap.merge_com, hans]
  dsimp only
  split_ifs with hpos
  · unfold spend
    have hnot : ¬ (total : ℤ) ≤ 0 := by omega
    rw [if_neg hnot]
    refine wp_seq (reward_paid hon₁.ready fun τ hl n r' hn => ?_) fun _ o' τ ⟨hon, new, hpaid, hc⟩ => wp_return ?_
    · -- a row under the ref would mean that there is such a question
      by_contra href
      obtain ⟨-, ht, hi⟩ := hasRef_iff.1 (by simpa using href)
      rw [Snap.merge_com, hpled, ← Snap.merge_com] at hn
      refine (((h.later (hbase τ hl)).qa.escrow q).rows n r' hn (.escrow ht hi)).asked ?_
      rw [Snap.merge_of_none hf.2, hnone τ hl]
    · refine hfinal o' τ (some new) (hbase τ hon.later) (hnone τ hon.later) ?_ (fun u δ t j => ⟨?_, ?_⟩)
        (hon.same _ (by decide)) ?_ hon.ready
      · obtain ⟨n, hn, hrow⟩ := hpaid
        exact ⟨n, hpled ▸ hn, fun m => by rw [hrow, hpled]⟩
      · rintro ⟨r', hr', hu, hδ, ht, hj⟩
        obtain ⟨hu', hδ', ht', hj'⟩ := hc
        rw [Option.some.injEq] at hr'
        subst hr'
        exact ⟨hpos, hu ▸ hu', hδ ▸ hδ', ht ▸ ht', hj ▸ hj'⟩
      · rintro ⟨-, rfl, rfl, rfl, rfl⟩
        exact ⟨new, rfl, hc⟩
      · rw [hon.same _ (by decide), hp, Own.put_row_other _ _ _ (by decide)]
  · have hl := Later.refl (i := i) hon₁.ready.inv hon₁.ready.fresh
    refine wp_return (hfinal p _ none (hbase _ hl) (hnone _ hl) hpled (fun u δ t j => ?_) rfl ?_ hon₁.ready)
    · constructor
      · rintro ⟨_, hn, -⟩
        simp at hn
      · rintro ⟨hlt, -⟩
        exact absurd hlt hpos
    · rw [hp, Own.put_row_other _ _ _ (by decide)]

/-! ## Due questions -/

/-- of the candidates `qs` the session has locked the rows `rs`, all of them open -/
structure LockedDue (env : Env) (i : ℕ) (o : Held) (σ : State) (qs : List ℕ) (rs : List (ℕ × QAQuestion)) (o' : Held)
    (τ : State) : Prop where
  fit : Fit env o' τ
  sub : o.Sub o'
  later : (discipline env).Later i o σ τ
  list : (rs.map Prod.fst).Sublist qs
  here : ∀ p ∈ rs, OpenHere o' p.1 p.2
  com : ∀ p ∈ rs, o.row questions p.1 = none → τ.com questions p.1 = some p.2
  same : ∀ q', q' ∉ rs.map Prod.fst → o'.row questions q' = o.row questions q'
  ledger : o'.row ledger = o.row ledger

theorem LockedDue.nil (h : Fit env o σ) (qs : List ℕ) : LockedDue env i o σ qs [] o σ :=
  ⟨h, Own.Sub.refl _, Later.refl h.ready.inv h.ready.fresh, List.nil_sublist _, by simp, by simp, fun _ _ => rfl, rfl⟩

theorem lockDue_ends (h : Fit env o σ) (now : ℤ) (limit : ℕ) {qs : List ℕ} (hnodup : qs.Nodup) :
    (discipline env).wp i (lockDue now limit qs) (ReturnsOr (LockedDue env i o σ qs) Never) o σ := by
  induction qs generalizing o σ limit with
  | nil =>
    have : lockDue now limit [] = pure [] := by cases limit <;> rfl
    rw [this]
    exact wp_done (LockedDue.nil h [])
  | cons q qs ih =>
    rcases limit with _ | limit
    · exact wp_done (LockedDue.nil h _)
    obtain ⟨hq, hqs⟩ := List.nodup_cons.1 hnodup
    refine wp_bind (wp_tryLockRow (fun τ hl => ?_) fun τ r hl hv hp => ?_)
    · refine wp_mono (ih (h.later hl) (limit + 1) hqs) ?_
      rintro (e | rs) o' υ hrest
      · exact hrest
      · exact { hrest with later := hl.trans hrest.later, list := hrest.list.cons q }
    · have hfit := (h.later hl).lock hv
      refine wp_seqOr (ih hfit limit hqs) (fun rs o' υ hrest => wp_done ?_) fun _ _ _ hf => hf.elim
      have hqrs : q ∉ rs.map Prod.fst := fun hm => hq (hrest.list.subset hm)
      have hput : ∀ p ∈ rs, p.1 ≠ q := fun p hp he => hqrs (he ▸ List.mem_map_of_mem hp)
      refine ⟨hrest.fit, (Own.sub_put ..).trans hrest.sub,
        hl.trans (hrest.later.sub (Own.sub_put ..) (covers.sub (Own.sub_put ..) hrest.later.rely)),
        hrest.list.cons_cons q, ?_, ?_, fun q' hq' => ?_, ?_⟩
      · refine List.forall_mem_cons.2 ⟨⟨?_, ?_⟩, hrest.here⟩
        · rw [hrest.same q hqrs, Own.put_row_self]
        · simp only [QAQuestion.due, decide_eq_true_eq] at hp
          exact hp.1
      · refine List.forall_mem_cons.2 ⟨fun hnone => ?_, fun p hp' hnone => hrest.com p hp' ?_⟩
        · rw [Own.view_of_none hnone] at hv
          rw [hrest.later.com questions q (by simp)]
          exact hv
        · rw [Own.put_row_same, if_neg (hput p hp'), hnone]
      · simp only [List.map_cons, List.mem_cons, not_or] at hq'
        rw [hrest.same q' hq'.2, Own.put_row_same, if_neg hq'.1]
      · rw [hrest.ledger, Own.put_row_other _ _ _ (by decide)]

theorem lockDue_spec (h : Fit env o σ) (now : ℤ) (limit : ℕ) {qs : List ℕ} (hnodup : qs.Nodup) :
    (discipline env).wp i (lockDue now limit qs) (Returns fun rs o' τ => Fit env o' τ ∧
      (rs.map Prod.fst).Sublist qs ∧ (∀ p ∈ rs, OpenHere o' p.1 p.2) ∧
      ∀ q', q' ∉ qs → o'.row questions q' = o.row questions q') o σ :=
  wp_returns_mono (wp_returnsOr (lockDue_ends h now limit hnodup)) fun _ _ _ h =>
    ⟨h.fit, h.list, h.here, fun q' hq' => h.same q' fun hm => hq' (h.list.subset hm)⟩

theorem settleAll_spec (h : Fit env o σ) (refundAt : ℕ → ℤ) {rs : List (ℕ × QAQuestion)}
    (hnodup : (rs.map Prod.fst).Nodup) (hopen : ∀ p ∈ rs, OpenHere o p.1 p.2) :
    (discipline env).wp i (settleAll env refundAt rs) (Returns fun _ o' τ => Fit env o' τ) o σ := by
  induction rs generalizing o σ with
  | nil => exact wp_return h
  | cons p rs ih =>
    obtain ⟨q, r⟩ := p
    rw [List.map_cons, List.nodup_cons] at hnodup
    refine wp_seq (settleQuestion_spec h (hopen _ List.mem_cons_self) (refundAt q)) fun _ o' τ ⟨hf, hsame⟩ => ?_
    refine ih hf hnodup.2 fun p hp => ?_
    obtain ⟨hrow, hst⟩ := hopen p (List.mem_cons_of_mem _ hp)
    have hne : p.1 ≠ q := by
      intro he
      refine hnodup.1 (List.mem_map.2 ⟨p, hp, he⟩)
    exact ⟨(hsame _ hne).trans hrow, hst⟩

theorem expireDueQuestions_spec (h : Fit env o σ) (now : ℤ) (limit : ℕ) (refundAt : ℕ → ℤ) :
    (discipline env).wp i (expireDueQuestions env now limit refundAt) (Returns fun _ o' τ => Fit env o' τ) o σ := by
  have hlock : (discipline env).wp i (expiredForUpdate now limit) (Returns fun rs o' τ => Fit env o' τ ∧
      (rs.map Prod.fst).Nodup ∧ ∀ p ∈ rs, OpenHere o' p.1 p.2) o σ := by
    refine wp_bind (wp_select fun τ hl l _ hs => ?_)
    have hnodup : ((l.insertionSort dueBefore).map Prod.fst).Nodup :=
      ((List.perm_insertionSort dueBefore l).map Prod.fst).nodup_iff.2 (nodup_numbers hs)
    refine wp_returns_mono (lockDue_spec (h.later hl) now limit hnodup) fun rs o' υ ⟨hf, hsub, hopen, _⟩ => ?_
    exact ⟨hf, hsub.nodup hnodup, hopen⟩
  exact wp_seq hlock fun rs o' τ ⟨hf, hnodup, hopen⟩ => settleAll_spec hf refundAt hnodup hopen

/-! ## Requests -/

theorem grant_spec (h : Fit env o σ) {u : ℕ} {delta : ℤ} {reason refType refId : String} {allowNegative : Bool}
    {now : ℤ} (hother : refType ∉ qaRefTypes) :
    (discipline env).wp i (reward u delta reason refType refId allowNegative now)
      (Returns fun _ o' τ => Fit env o' τ) o σ := by
  refine wp_returns_mono (reward_spec covers h.ready _ _ _ _ _ _ _) fun entry o' τ ⟨hon, after, hg⟩ => ?_
  have hfit := h.later hon.later
  have hques := hon.same questions (by decide)
  have hans := hon.same answers (by decide)
  rcases hg with ⟨n, hrow, -⟩ | ⟨n, -, hrow, hfree, -⟩
  · exact ⟨hon.ready, hfit.qa.grant (Adds.nothing hrow) (fun _ _ hf => hf.elim) hques hans⟩
  · refine ⟨hon.ready, hfit.qa.grant (Adds.row hfree hrow) (fun m r hr q habout => ?_) hques hans⟩
    obtain ⟨-, rfl⟩ := hr
    exact hother habout.refType

theorem call_spec (h : Fit env o σ) (c : Call) :
    (discipline env).wp i (call env c) (Returns fun _ o' τ => Fit env o' τ) o σ := by
  cases c with
  | createQuestion => exact createQuestion_spec h _ _ _ _
  | createAnswer => exact createAnswer_spec h _ _
  | acceptAnswer => exact wp_returns_mono (acceptAnswer_spec h _ _ _) fun _ _ _ h => h.1
  | closeQuestion => exact closeQuestion_spec h _ _ _ _ _
  | expireDueQuestions => exact expireDueQuestions_spec h _ _ _
  | grant u delta reason refType refId allowNegative now other =>
    exact wp_seq (grant_spec h other) fun _ _ _ h => wp_return h

theorem request_safe (h : Fit env {} σ) (r : Request) :
    (discipline env).wp i (request env r) (fun _ _ _ => True) {} σ := by
  refine wp_andThen (wp_mono (call_spec h r.call) ?_)
  rintro (e | _) o τ ho
  · exact wp_bind (wp_rollback fun _ _ => wp_raise _ trivial)
  · dsimp only
    split_ifs
    · exact wp_commit fun υ hl => ⟨(Fit.later ho hl).good, trivial⟩
    · exact wp_rollback fun _ _ => trivial

end LkmService.Qa
