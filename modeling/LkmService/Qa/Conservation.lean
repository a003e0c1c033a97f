/-
The bounty of a question is conserved in every run: what the asker has paid is what has been paid out, what is still
held, and what has been refunded.

A share is paid for each accepted answer, and none is taken back (`payouts_stand`). A user with two accepted answers is
paid twice (`two_shares`).
-/
import Mathlib.Tactic.Ring
import LkmService.Points.Ledger
import LkmService.Qa.Service

namespace LkmService.Qa

open Session Sql Sql.Discipline Points Tbl

variable {env : Env} {σ τ : State} {q a u : ℕ} {r : QAQuestion} {δ : ℤ} {t i : String}

/-! ## Rows under a ref -/

/-- the ledger has one row under the ref, and it carries the entry -/
def OneRow (σ : State) (u : ℕ) (δ : ℤ) (refType refId : String) : Prop :=
  ∃ n, (∃ e, σ.com ledger n = some e ∧ Carries u δ refType refId e) ∧
    ∀ n' e, σ.com ledger n' = some e → e.refType = refType → e.refId = refId → n' = n

def NoRow (σ : State) (refType refId : String) : Prop :=
  ∀ n e, σ.com ledger n = some e → ¬ (e.refType = refType ∧ e.refId = refId)

/-- the points that row `n` moves under a ref -/
def movedBy (σ : State) (refType refId : String) (n : ℕ) : ℤ :=
  match σ.com ledger n with
  | some e => if e.refType = refType ∧ e.refId = refId then e.delta else 0
  | none => 0

/-- the points moved under a ref, over the whole ledger -/
def moved (σ : State) (refType refId : String) : ℤ := ∑ n ∈ Finset.range (σ.next ledger), movedBy σ refType refId n

/-- the shares paid for the answers of a question -/
def paidOut (env : Env) (σ : State) (q : ℕ) : ℤ :=
  ∑ a ∈ Finset.range (σ.next answers), moved σ "qa_accept" (env.answerRef q a)

theorem movedBy_of_no {n : ℕ} (h : ∀ e, σ.com ledger n = some e → ¬ (e.refType = t ∧ e.refId = i)) :
    movedBy σ t i n = 0 := by
  unfold movedBy
  split
  · next e he => rw [if_neg (h e he)]
  · rfl

theorem NoRow.moved (h : NoRow σ t i) : moved σ t i = 0 := Finset.sum_eq_zero fun n _ => movedBy_of_no (h n)

theorem OneRow.moved (h : OneRow σ u δ t i) (hf : ∀ n, σ.next ledger ≤ n → σ.com ledger n = none) :
    moved σ t i = δ := by
  obtain ⟨n, ⟨e, he, -, rfl, ht, hi⟩, huniq⟩ := h
  have hn : n ∈ Finset.range (σ.next ledger) := by
    rw [Finset.mem_range]
    by_contra hn
    rw [hf n (by omega)] at he
    simp at he
  have hother : ∀ m ∈ Finset.range (σ.next ledger), m ≠ n → movedBy σ t i m = 0 :=
    fun m _ hm => movedBy_of_no fun e' he' ⟨ht', hi'⟩ => hm (huniq m e' he' ht' hi')
  rw [Qa.moved, Finset.sum_eq_single_of_mem n hn hother]
  simp only [movedBy, he, ht, hi, and_self, if_true]

/-! ## Conservation of one bounty -/

structure Conserved (env : Env) (σ : State) (q : ℕ) (r : QAQuestion) : Prop where
  distributed : r.bountyDistributed = r.bountyPerPerson * (accepted σ q).ncard
  bounded : r.bountyDistributed ≤ r.bountyTotal
  people : (accepted σ q).ncard ≤ r.bountyPeople
  /-- the author of an accepted answer is credited one share for it -/
  share : ∀ a x, σ.com answers a = some x → x.questionId = q → x.isAccepted = true → 0 < r.bountyPerPerson →
    OneRow σ x.authorId r.bountyPerPerson "qa_accept" (env.answerRef q a)
  no_share : ∀ a, a ∉ accepted σ q → NoRow σ "qa_accept" (env.answerRef q a)
  /-- the asker is refunded once the question is no longer open, and once -/
  refund : r.status ≠ .isOpen → r.bountyDistributed < r.bountyTotal →
    OneRow σ r.authorId (r.bountyTotal - r.bountyDistributed) "qa_refund" (env.str q)
  no_refund : r.status = .isOpen ∨ r.bountyDistributed = r.bountyTotal → NoRow σ "qa_refund" (env.str q)
  /-- taken = paid out + held + refunded -/
  points : -moved σ "qa_question" (env.str q) = paidOut env σ q +
    (if r.status = .isOpen then (r.bountyTotal : ℤ) - r.bountyDistributed else 0) + moved σ "qa_refund" (env.str q)

/-- a due entry has one row -/
theorem Escrow.oneRow (h : Escrow env σ q) (hi : Inv True σ) (hd : Due env σ q u δ t i) : OneRow σ u δ t i := by
  obtain ⟨n, e, he, hc⟩ := h.complete u δ t i hd
  refine ⟨n, ⟨e, he, hc⟩, fun n' e' he' ht' hi' => ?_⟩
  obtain ⟨hu, -, ht, hid⟩ := hc
  have hdue := h.rows n' e' he' (hd.about ht' hi')
  have hu' := (hd.unique hdue ht' hi').1
  exact (hi.sound u).refs trivial n' n e' e he' he hu' hu (ht'.trans ht.symm) (hi'.trans hid.symm)

/-- an entry that is not due has no row -/
theorem Escrow.noRow (h : Escrow env σ q) (habout : ∀ e : PointsLedger, e.refType = t → e.refId = i → About env q e)
    (hd : ∀ u δ, ¬ Due env σ q u δ t i) : NoRow σ t i := by
  intro n e he ⟨ht, hi⟩
  have hdue := h.rows n e he (habout e ht hi)
  rw [ht, hi] at hdue
  exact hd _ _ hdue

theorem Escrow.conserved (h : Escrow env σ q) (hi : Inv True σ) (hf : σ.Fresh ({} : Held))
    (hq : σ.com questions q = some r) : Conserved env σ q r := by
  have hled : ∀ n, σ.next ledger ≤ n → σ.com ledger n = none := fun n hn => (hf ledger n hn).1
  have hdist := h.distributed r hq
  have hpeople := h.people r hq
  have hbound : r.bountyDistributed ≤ r.bountyTotal := by
    rw [hdist, h.total r hq, Nat.mul_comm]
    exact Nat.mul_le_mul_right _ hpeople
  have hshare : ∀ a x, σ.com answers a = some x → x.questionId = q → x.isAccepted = true → 0 < r.bountyPerPerson →
      OneRow σ x.authorId r.bountyPerPerson "qa_accept" (env.answerRef q a) :=
    fun a x ha hx hacc hpos => h.oneRow hi (.share r a x hq ha hx hacc hpos)
  have hnoShare : ∀ a, a ∉ accepted σ q ∨ r.bountyPerPerson = 0 → NoRow σ "qa_accept" (env.answerRef q a) := by
    refine fun a ha => h.noRow (fun e ht hi => .share a ht hi) fun u δ hd => ?_
    rcases ha with ha | hzero
    · exact ha (hd.accepted rfl rfl)
    · have := hd.shared rfl hq
      omega
  have hrefund : r.status ≠ .isOpen → r.bountyDistributed < r.bountyTotal →
      OneRow σ r.authorId (r.bountyTotal - r.bountyDistributed) "qa_refund" (env.str q) :=
    fun hover hlt => h.oneRow hi (.refund r hq hover hlt)
  have hnoRefund : r.status = .isOpen ∨ r.bountyDistributed = r.bountyTotal → NoRow σ "qa_refund" (env.str q) := by
    refine fun hr => h.noRow (fun e ht hi => .refund ht hi) fun u δ hd => ?_
    obtain ⟨hover, hlt⟩ := hd.over rfl hq
    rcases hr with hr | hr
    · exact hover hr
    · omega
  -- the three sums
  have htaken : moved σ "qa_question" (env.str q) = -(r.bountyTotal : ℤ) := by
    rcases Nat.eq_zero_or_pos r.bountyTotal with hz | hpos
    · refine (NoRow.moved (h.noRow (fun e ht hi => .escrow ht hi) fun u δ hd => ?_)).trans (by simp [hz])
      have := hd.escrowed rfl hq
      omega
    · exact (h.oneRow hi (.escrow r hq hpos)).moved hled
  have hpaid : paidOut env σ q = (r.bountyDistributed : ℤ) := by
    classical
    have hone : ∀ a, moved σ "qa_accept" (env.answerRef q a) = if a ∈ accepted σ q then (r.bountyPerPerson : ℤ) else 0 := by
      intro a
      split_ifs with ha
      · rcases Nat.eq_zero_or_pos r.bountyPerPerson with hz | hpos
        · rw [(hnoShare a (Or.inr hz)).moved, hz, Nat.cast_zero]
        · obtain ⟨x, hx, hxq, hacc⟩ := ha
          exact (hshare a x hx hxq hacc hpos).moved hled
      · exact (hnoShare a (Or.inl ha)).moved
    have hset : ((Finset.range (σ.next answers)).filter (· ∈ accepted σ q) : Set ℕ) = accepted σ q := by
      ext a
      simp only [Finset.coe_filter, Finset.mem_range, Set.mem_ofPred_eq, and_iff_right_iff_imp]
      rintro ⟨x, hx, -⟩
      by_contra ha
      rw [(hf answers a (by omega)).1] at hx
      simp at hx
    have hcard : (accepted σ q).ncard = ((Finset.range (σ.next answers)).filter (· ∈ accepted σ q)).card := by
      rw [← hset, Set.ncard_coe_finset]
      congr 1
      ext a
      simp [hset]
    rw [paidOut, Finset.sum_congr rfl fun a _ => hone a, ← Finset.sum_filter, Finset.sum_const, ← hcard, hdist,
      nsmul_eq_mul]
    push_cast
    ring
  refine ⟨hdist, hbound, hpeople, hshare, fun a ha => hnoShare a (Or.inl ha), hrefund, hnoRefund, ?_⟩
  rw [htaken, hpaid]
  by_cases hopen : r.status = .isOpen
  · rw [if_pos hopen, (hnoRefund (Or.inl hopen)).moved]
    ring
  · rw [if_neg hopen]
    rcases Nat.lt_or_ge r.bountyDistributed r.bountyTotal with hlt | hge
    · rw [(hrefund hopen hlt).moved hled]
      ring
    · rw [(hnoRefund (Or.inr (by omega))).moved, show r.bountyDistributed = r.bountyTotal by omega]
      ring

/-! ## Closed questions -/

/-- nothing moves for the question any more -/
structure Frozen (env : Env) (σ τ : State) (q : ℕ) : Prop where
  question : τ.com questions q = σ.com questions q
  accepted : accepted τ q = Qa.accepted σ q
  rows : ∀ n e, About env q e → (σ.com ledger n = some e ↔ τ.com ledger n = some e)

theorem QAct.accepted_subset (h : QAct σ τ) (q : ℕ) : accepted σ q ⊆ accepted τ q := by
  rintro a ⟨x, hx, hxq, ha⟩
  obtain ⟨x', hx', hs⟩ := h.answers a x hx
  exact ⟨x', hx', hs.question.trans hxq, hs.accepted ha⟩

theorem frozen_of_act (h : QAct σ τ) (hσ : Escrow env σ q) (hτ : Escrow env τ q) (hi : Inv True τ)
    (hq : σ.com questions q = some r) (hover : r.status ≠ .isOpen) : Frozen env σ τ q := by
  obtain ⟨r', hq', hk⟩ := h.questions q r hq
  have hr := hk.frozen hover
  subst hr
  have hacc : accepted τ q = accepted σ q := by
    refine Set.Subset.antisymm ?_ (h.accepted_subset q)
    rintro a ⟨x, hx, hxq, ha⟩
    exact h.closed q r' a x hq hover hx hxq ha
  refine ⟨hq'.trans hq.symm, hacc, fun n e he => ⟨h.ledger n e, fun hn => ?_⟩⟩
  -- the row's entry was due before, so it had a row
  have hdue : Due env σ q e.userId e.delta e.refType e.refId := by
    have hd := hτ.rows n e hn he
    generalize e.userId = u, e.delta = δ, e.refType = t, e.refId = i at hd
    cases hd with
    | escrow r₁ hr₁ hpos =>
      rw [hq', Option.some.injEq] at hr₁
      exact hr₁ ▸ .escrow r' hq (hr₁ ▸ hpos)
    | share r₁ a x hr₁ hx hxq ha hpos =>
      rw [hq', Option.some.injEq] at hr₁
      subst hr₁
      obtain ⟨x₀, hx₀, hxq₀, ha₀⟩ := h.closed q r' a x hq hover hx hxq ha
      obtain ⟨x₁, hx₁, hs⟩ := h.answers a x₀ hx₀
      rw [hx, Option.some.injEq] at hx₁
      subst hx₁
      rw [hs.author]
      exact .share r' a x₀ hq hx₀ hxq₀ ha₀ hpos
    | refund r₁ hr₁ hov hpos =>
      rw [hq', Option.some.injEq] at hr₁
      exact hr₁ ▸ .refund r' hq hover (hr₁ ▸ hpos)
  obtain ⟨n', e', he', hc⟩ := hσ.complete _ _ _ _ hdue
  have hn' := h.ledger n' e' he'
  have heq := (hi.sound e.userId).refs trivial n n' e e' hn hn' rfl hc.1 hc.2.2.1.symm hc.2.2.2.symm
  subst heq
  rw [hn, Option.some.injEq] at hn'
  exact hn' ▸ he'

/-! ## The runs -/

/-- the committed state after a schedule -/
def after (env : Env) (requests : ℕ → Request) (ms : List Move) : State := (run (init env requests) ms).st.snap

theorem safe_init (env : Env) (requests : ℕ → Request) : (discipline env).protocol.Safe (init env requests) := by
  have hq := com_store [] questions (by decide)
  have ha := com_store [] answers (by decide)
  have hl := com_store [] ledger (by decide)
  have hinv : (discipline env).inv (store []).snap := by
    refine ⟨inv_store [], fun q => ?_⟩
    have hacc : accepted (store []).snap q = ∅ := by simp [accepted, ha]
    refine ⟨?_, fun u d t i hd => absurd (hq q) hd.asked, ?_, ?_, ?_, hacc ▸ Set.finite_empty, fun _ => hacc⟩ <;>
      simp [hq, hl]
  have hf : (store []).snap.Fresh ({} : Held) := by
    intro t n h
    have := (store []).fresh t n h
    exact ⟨congrArg Cell.committed this, rfl⟩
  refine safe_start hinv (fun _ => trivial) (own_store []) fun i => request_safe ?_ (requests i)
  exact ⟨Ready.empty covers hinv hf, QaLawful.empty hinv.2⟩

theorem legal_init (env : Env) (requests : ℕ → Request) (ms : List Move) :
    (discipline env).protocol.Legal (init env requests) ms :=
  legal_of_ok (fun _ _ _ _ => trivial) (fun _ _ _ => trivial) _ _

theorem inv_after (env : Env) (requests : ℕ → Request) (ms : List Move) : (discipline env).inv (after env requests ms) :=
  ((discipline env).protocol.run_inv (safe_init env requests) (legal_init env requests ms)).1

theorem fresh_after (env : Env) (requests : ℕ → Request) (ms : List Move) :
    (after env requests ms).Fresh ({} : Held) := by
  intro t n h
  have := (run (init env requests) ms).st.fresh t n h
  exact ⟨congrArg Cell.committed this, rfl⟩

theorem act_after (env : Env) (requests : ℕ → Request) (ms ms' : List Move) :
    QAct (after env requests ms) (after env requests (ms ++ ms')) := by
  have hs := (discipline env).protocol.run_safe (safe_init env requests) (legal_init env requests ms)
  have hl := legal_of_ok (D := discipline env) (fun _ _ _ _ => trivial) (fun _ _ _ => trivial)
    (run (init env requests) ms) ms'
  have he : after env requests (ms ++ ms') = (run (run (init env requests) ms) ms').st.snap := by
    rw [after, run_append]
  rw [he]
  exact (discipline env).protocol.run_induct (Φ := fun d => QAct (after env requests ms) d.snap) hs hl
    (fun i d e _ _ ha hk => hk.trans ha) (QAct.refl _)

/-- **Conservation of a bounty.** In every run of questions, answers, acceptances, closings and settlements: what has
been distributed is a share for each accepted answer and within the bounty, the author of an accepted answer is credited
one share for it, the remainder is refunded once when the question is no longer open, and the asker's points are paid
out, held or refunded. Balances agree with the ledger, and for a question that is no longer open nothing moves. -/
theorem bounty_conserved (env : Env) (requests : ℕ → Request) (ms ms' : List Move) (q : ℕ) (r : QAQuestion)
    (hq : (after env requests ms).com questions q = some r) :
    Conserved env (after env requests ms) q r ∧ Balanced (after env requests ms) ∧
      (r.status ≠ .isOpen → Frozen env (after env requests ms) (after env requests (ms ++ ms')) q) := by
  obtain ⟨hp, he⟩ := inv_after env requests ms
  obtain ⟨hp', he'⟩ := inv_after env requests (ms ++ ms')
  have hf := fresh_after env requests ms
  refine ⟨(he q).conserved hp hf hq, hp.balanced fun n hn => (hf ledger n hn).1, fun hover => ?_⟩
  exact frozen_of_act (act_after env requests ms ms') (he q) (he' q) hp' hq hover

/-- **Payouts stand.** From any moment of a run to any later one a question keeps its terms, its accepted answers stay
accepted, and what has been distributed does not get less. -/
theorem payouts_stand (env : Env) (requests : ℕ → Request) (ms ms' : List Move) (q : ℕ) (r : QAQuestion)
    (hq : (after env requests ms).com questions q = some r) :
    ∃ r', (after env requests (ms ++ ms')).com questions q = some r' ∧ Keeps r r' ∧
      accepted (after env requests ms) q ⊆ accepted (after env requests (ms ++ ms')) q ∧ r.bountyDistributed ≤ r'.bountyDistributed := by
  obtain ⟨-, he⟩ := inv_after env requests ms
  obtain ⟨-, he'⟩ := inv_after env requests (ms ++ ms')
  have hact := act_after env requests ms ms'
  obtain ⟨r', hq', hkeeps⟩ := hact.questions q r hq
  refine ⟨r', hq', hkeeps, hact.accepted_subset q, ?_⟩
  rw [(he q).distributed r hq, (he' q).distributed r' hq', hkeeps.perPerson]
  exact Nat.mul_le_mul_left _ (Set.ncard_le_ncard (hact.accepted_subset q) (he' q).finite)

/-! ## Two answers of one user -/

/-- each user with an accepted answer is credited one share -/
def OneShareEach (env : Env) (σ : State) (q : ℕ) : Prop :=
  ∀ a x, σ.com answers a = some x → x.questionId = q → x.isAccepted = true →
    ∀ n n' b b' e e', σ.com ledger n = some e → σ.com ledger n' = some e' → e.userId = x.authorId →
      e'.userId = x.authorId → e.refType = "qa_accept" → e'.refType = "qa_accept" → e.refId = env.answerRef q b →
      e'.refId = env.answerRef q b' → n = n'

/-- ids as runs of a letter -/
def demoEnv : Env where
  str n := String.ofList (List.replicate n 'x')
  str_inj m n h := by
    have := congrArg List.length (String.ofList_injective h)
    simpa using this
  no_colon n h := by
    rw [String.toList_ofList] at h
    exact absurd (List.eq_of_mem_replicate h) (by decide)

/-- user 0 asks for two answers, user 1 gives both, both are accepted, and the question is closed -/
def demoRequests : ℕ → Request
  | 0 => { call := .grant 0 100 "post" "post" "p" false 0 (by decide) }
  | 1 => { call := .createQuestion 0 ⟨3, 10, 7, by decide, by decide, by decide, by decide⟩ 0 1 }
  | 2 => { call := .createAnswer 0 1 2 }
  | 3 => { call := .createAnswer 0 1 3 }
  | 4 => { call := .acceptAnswer 0 0 0 4 4 }
  | 5 => { call := .acceptAnswer 0 1 0 5 5 }
  | _ => { call := .closeQuestion 0 0 none 6 6 6 }

/-- the sessions one after the other -/
def demoMoves (sessions : List ℕ) : List Move := sessions.flatMap fun i => List.replicate 20 (.run i)

/-- a user with two accepted answers is credited two shares -/
theorem two_shares :
    ¬ ∀ (env : Env) (requests : ℕ → Request) (ms : List Move) (q : ℕ), OneShareEach env (after env requests ms) q := by
  intro h
  have := h demoEnv demoRequests (demoMoves [0, 1, 2, 3, 4, 5]) 0 0 ⟨0, 1, true⟩ (by decide +kernel) rfl rfl 2 3 0 1
    { userId := 1, delta := 10, balanceAfter := 10, reason := "qa_accept", refType := "qa_accept", refId := ":",
      createdAt := 4 }
    { userId := 1, delta := 10, balanceAfter := 20, reason := "qa_accept", refType := "qa_accept", refId := ":x",
      createdAt := 5 }
    (by decide +kernel) (by decide +kernel) rfl rfl rfl rfl (by decide +kernel) (by decide +kernel)
  simp at this

theorem bounty_conserved_demo :
    Conserved demoEnv (after demoEnv demoRequests (demoMoves [0, 1, 2, 3, 4, 5, 6])) 0
        { authorId := 0, bountyPeople := 3, bountyPerPerson := 10, bountyTotal := 30, bountyDistributed := 20,
          bountyExpiresAt := some 604800, status := .accepted, acceptedAnswerId := some 1 } ∧
      Balanced (after demoEnv demoRequests (demoMoves [0, 1, 2, 3, 4, 5, 6])) :=
  have h := bounty_conserved demoEnv demoRequests (demoMoves [0, 1, 2, 3, 4, 5, 6]) [] 0 _ (by decide +kernel)
  ⟨h.1, h.2.1⟩

/-- the first answer stays accepted while the second is accepted and the question is closed -/
theorem payouts_stand_demo :
    accepted (after demoEnv demoRequests (demoMoves [0, 1, 2, 3, 4])) 0 ⊆
      accepted (after demoEnv demoRequests (demoMoves [0, 1, 2, 3, 4] ++ demoMoves [5, 6])) 0 := by
  obtain ⟨-, -, -, hsub, -⟩ := payouts_stand demoEnv demoRequests (demoMoves [0, 1, 2, 3, 4]) (demoMoves [5, 6]) 0
    { authorId := 0, bountyPeople := 3, bountyPerPerson := 10, bountyTotal := 30, bountyDistributed := 10,
      bountyExpiresAt := some 604800, acceptedAnswerId := some 0 } (by decide +kernel)
  exact hsub

end LkmService.Qa
