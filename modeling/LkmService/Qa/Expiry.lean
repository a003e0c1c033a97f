/-
Credits, and the job that settles the due questions.

The refunds of a batch are credits of one transaction. One asker whose balance a refund does not bring to zero makes the
transaction raise, and no question of the batch is settled.

- `Batch`: between two settlements: what has been settled, and what is left.
- `Unpaid`: a question of the batch whose refund the asker's balance does not cover.
- `credits_succeed`: credits and batches go through where the balances cover them.
- `credit_refused`: a balance below zero refuses a credit, and keeps the question of another asker from being settled.
-/
import LkmService.Points.Credits
import LkmService.Qa.Conservation

namespace LkmService.Qa

open Session Sql Sql.Discipline Points Tbl

variable {env : Env} {i q : ℕ} {o o' : Held} {σ τ : State} {rs : List (ℕ × QAQuestion)} {r : QAQuestion} {now : ℤ}
  {refundAt : ℕ → ℤ}

/-! ## A batch -/

/-- the session has settled the questions that it holds, but for `rs` -/
structure Batch (env : Env) (rs : List (ℕ × QAQuestion)) (o : Held) (σ : State) : Prop where
  fit : Fit env o σ
  nodup : (rs.map Prod.fst).Nodup
  here : ∀ p ∈ rs, OpenHere o p.1 p.2
  com : ∀ p ∈ rs, σ.com questions p.1 = some p.2
  settled : ∀ q, Holds o q → q ∉ rs.map Prod.fst →
    ∃ r, σ.com questions q = some r ∧ r.status = .isOpen ∧ o.row questions q = some (some (QAQuestion.settled r))
  credits : Credits o

/-- a question of the batch whose refund the asker's balance does not cover -/
def Unpaid (o : Held) (σ : State) : Prop :=
  ∃ q r b x, Holds o q ∧ σ.com questions q = some r ∧ r.bountyDistributed < r.bountyTotal ∧ o.row balances b ≠ none ∧
    σ.com balances b = some x ∧ x.userId = r.authorId ∧ x.balance + ((r.bountyTotal : ℤ) - r.bountyDistributed) < 0

/-- what the job leaves -/
def BatchEnds : Except Exn Unit → Held → State → Prop
  | .ok _, o, σ => ∀ q, Holds o q →
    ∃ r, σ.com questions q = some r ∧ r.status = .isOpen ∧ o.row questions q = some (some (QAQuestion.settled r))
  | .error _, o, σ => Unpaid o σ

theorem stable_batchEnds : Stable (discipline env) i BatchEnds := by
  rintro (e | a) o σ τ - hcom h
  · obtain ⟨q, r, b, x, hq, hr, hlt, hb, hx, hrest⟩ := h
    refine ⟨q, r, b, x, hq, ?_, hlt, hb, ?_, hrest⟩
    · rw [hcom _ _ hq]
      exact hr
    · rw [hcom _ _ hb]
      exact hx
  · intro q hq
    obtain ⟨r, hr, hrest⟩ := h q hq
    refine ⟨r, ?_, hrest⟩
    rw [hcom _ _ hq]
    exact hr

theorem settleAll_ends (h : Batch env rs o σ) :
    (discipline env).wp i (settleAll env refundAt rs) BatchEnds o σ := by
  induction rs generalizing o σ with
  | nil => exact wp_done fun q hq => h.settled q hq List.not_mem_nil
  | cons p rs ih =>
    obtain ⟨q, r⟩ := p
    have hnodup := List.nodup_cons.1 h.nodup
    have hhere := h.here (q, r) List.mem_cons_self
    have hcom := h.com (q, r) List.mem_cons_self
    refine wp_seqOr (settleQuestion_ends h.fit hhere (refundAt q)) (fun _ o' τ ⟨hfit, hsub, hl, hrow, hled⟩ => ?_)
      fun e o' τ ⟨hon, hlt, hshort⟩ => ?_
    · have hother : ∀ p ∈ rs, p.1 ≠ q := fun p hp he => hnodup.1 (List.mem_map.2 ⟨p, hp, he⟩)
      have hstay : ∀ {q' : ℕ} {r' : QAQuestion}, Holds o q' → σ.com questions q' = some r' → τ.com questions q' = some r' :=
        fun hq' hr' => by rw [hl.com _ _ hq']; exact hr'
      refine ih ⟨hfit, hnodup.2, fun p hp => ?_, fun p hp => ?_, fun q' hq' hrest => ?_, fun n r' hn => ?_⟩
      · obtain ⟨hrow', hopen⟩ := h.here p (List.mem_cons_of_mem _ hp)
        exact ⟨by rw [hrow, if_neg (hother p hp), hrow'], hopen⟩
      · exact hstay (h.here p (List.mem_cons_of_mem _ hp)).holds (h.com p (List.mem_cons_of_mem _ hp))
      · by_cases he : q' = q
        · subst he
          exact ⟨r, hstay hhere.holds hcom, hhere.2, by rw [hrow, if_pos rfl]⟩
        · have hheld : Holds o q' := by
            rw [Holds, hrow, if_neg he] at hq'
            exact hq'
          obtain ⟨r', hr', hopen, hset⟩ := h.settled q' hheld (by simpa [he] using hrest)
          exact ⟨r', hstay hheld hr', hopen, by rw [hrow, if_neg he, hset]⟩
      · rcases hled n r' hn with hold | hnew
        · exact h.credits n r' hold
        · exact hnew
    · have hcredits : Credits o' := by
        intro n r' hn
        rw [hon.same ledger (by decide)] at hn
        exact h.credits n r' hn
      obtain ⟨-, b, x, hb, hx, hu, hneg⟩ := hon.ready.short covers hcredits (by omega) hshort
      refine ⟨q, r, b, x, hhere.holds.sub hon.sub, ?_, hlt, hb, hx, hu, hneg⟩
      rw [hon.later.com _ _ hhere.holds]
      exact hcom

theorem expireDueQuestions_ends (h : Fit env {} σ) (now : ℤ) (limit : ℕ) (refundAt : ℕ → ℤ) :
    (discipline env).wp i (expireDueQuestions env now limit refundAt) BatchEnds {} σ := by
  refine wp_seqOr (P := fun rs o τ => Batch env rs o τ) (E := Never) ?_ (fun rs o τ h => settleAll_ends h) fun _ _ _ hf => hf.elim
  refine wp_bind (wp_select fun τ hl l _ hs => ?_)
  have hnodup : ((l.insertionSort dueBefore).map Prod.fst).Nodup :=
    ((List.perm_insertionSort dueBefore l).map Prod.fst).nodup_iff.2 (nodup_numbers hs)
  refine wp_mono (lockDue_ends (h.later hl) now limit hnodup) ?_
  rintro (e | rs) o υ hrest
  · exact hrest
  · refine ⟨hrest.fit, hrest.list.nodup hnodup, hrest.here, fun p hp => hrest.com p hp rfl, fun q hq hno => ?_, ?_⟩
    · exact absurd (hrest.same q hno) hq
    · intro n r hn
      rw [hrest.ledger] at hn
      cases hn

/-! ## The job as a transaction -/

theorem plain_payRefund {rewardAt : ℤ} : Plain (payRefund env q r rewardAt) :=
  plain_ite (plain_bind plain_reward fun _ => plain_pure _) (plain_pure _)

theorem plain_settleAll (rs : List (ℕ × QAQuestion)) : Plain (settleAll env refundAt rs) := by
  induction rs with
  | nil => exact plain_pure _
  | cons p rs ih =>
    refine plain_bind (plain_bind plain_payRefund fun _ => ?_) fun _ => ih
    exact plain_bind (plain_updateRow _ _ _ _) fun _ => plain_pure _

theorem plain_lockDue (limit : ℕ) (qs : List ℕ) : Plain (lockDue now limit qs) := by
  induction qs generalizing limit with
  | nil =>
    have : lockDue now limit [] = pure [] := by cases limit <;> rfl
    rw [this]
    exact plain_pure _
  | cons q qs ih =>
    rcases limit with _ | limit
    · exact plain_pure _
    · refine plain_bind (plain_call rfl) fun row => ?_
      rcases row with _ | row
      · exact ih (limit + 1)
      · exact plain_bind (ih limit) fun _ => plain_pure _

theorem plain_expireDueQuestions {limit : ℕ} : Plain (expireDueQuestions env now limit refundAt) :=
  plain_bind (plain_bind (plain_select _ _) fun _ => plain_lockDue _ _) fun _ => plain_settleAll _

theorem request_eq (c : Call) : request env { call := c } = transaction (call env c) := by
  refine congrArg (call env c).andThen (funext fun r => ?_)
  rcases r with e | a
  · rfl
  · rfl

/-! ## The runs -/

/-- the session has locked the question -/
def locks (env : Env) (requests : ℕ → Request) (ms : List Move) (i q : ℕ) : Prop :=
  Holds ((run (init env requests) ms).st.own i) q

/-- the refund of the question -/
def QAQuestion.refund (r : QAQuestion) : ℤ := (r.bountyTotal : ℤ) - r.bountyDistributed

/-- the askers' balances bear the refunds of the questions that the session has locked -/
def refundsCovered (env : Env) (requests : ℕ → Request) (ms : List Move) (i : ℕ) : Prop :=
  ∀ q x, locks env requests ms i q → (after env requests ms).com questions q = some x → 0 < QAQuestion.refund x →
    0 ≤ balanceOf (after env requests ms) x.authorId + QAQuestion.refund x

/-- the question has been settled between the two states, and its refund paid -/
structure SettledBetween (env : Env) (σ τ : State) (q : ℕ) (r : QAQuestion) : Prop where
  row : τ.com questions q = some (QAQuestion.settled r)
  refunded : 0 < QAQuestion.refund r → NoRow σ "qa_refund" (env.str q) ∧
    OneRow τ r.authorId (QAQuestion.refund r) "qa_refund" (env.str q)

theorem settled_status (r : QAQuestion) : (QAQuestion.settled r).status ≠ .isOpen := by
  unfold QAQuestion.settled
  dsimp only
  split_ifs <;> simp

/-- at the move with which the job answers: where the balances bear the refunds, every question it has locked is settled -/
theorem batch_answers (env : Env) (requests : ℕ → Request) (ms : List Move) (m : Move) (i : ℕ) (now : ℤ) (limit : ℕ)
    (refundAt : ℕ → ℤ) (r : Except Exn Unit) (hrequest : requests i = { call := .expireDueQuestions now limit refundAt })
    (hends : Ends (run (init env requests) ms) m i r) (hcover : refundsCovered env requests ms i) :
    r = .ok () ∧ ∀ q, locks env requests ms i q → ∃ x, (after env requests ms).com questions q = some x ∧
      SettledBetween env (after env requests ms) (after env requests (ms ++ [m])) q x := by
  have hstage : Stage (discipline env) BatchEnds i (run (init env requests) ms) := by
    refine Stage.run (safe_init env requests) (legal_init env requests ms) stable_batchEnds
      (stage_start (p := call env (.expireDueQuestions now limit refundAt)) ?_ plain_expireDueQuestions ?_)
    · rw [hrequest, request_eq]
    · rw [own_store]
      have hinv : (discipline env).inv (store []).snap := inv_after env requests []
      have hf : (store []).snap.Fresh ({} : Held) := fresh_after env requests []
      exact expireDueQuestions_ends ⟨Ready.empty covers hinv hf, QaLawful.empty hinv.2⟩ now limit refundAt
  obtain ⟨rfl, hends, hst⟩ := hstage.answering hends.1 hends.2
  obtain ⟨hp, he⟩ := inv_after env requests ms
  have hf := fresh_after env requests ms
  rcases hst with ⟨⟨a, rfl⟩, hst⟩ | ⟨⟨e, rfl⟩, -⟩
  · refine ⟨rfl, fun q hq => ?_⟩
    obtain ⟨x, hx, hopen, hrow⟩ := hends q hq
    have hτ : after env requests (ms ++ [.run i]) = (after env requests ms).merge ((run (init env requests) ms).st.own i) := by
      rw [after, run_snoc, hst, Db.snap_finish_true]
      rfl
    have hset : (after env requests (ms ++ [.run i])).com questions q = some (QAQuestion.settled x) := by
      rw [hτ]
      exact Snap.merge_of_some hrow _
    refine ⟨x, hx, hset, fun hpos => ⟨?_, ?_⟩⟩
    · exact ((he q).conserved hp hf hx).no_refund (Or.inl hopen)
    · obtain ⟨hp', he'⟩ := inv_after env requests (ms ++ [.run i])
      refine ((he' q).conserved hp' (fresh_after env requests _) hset).refund (settled_status x) ?_
      simp only [QAQuestion.refund] at hpos
      change x.bountyDistributed < x.bountyTotal
      omega
  · obtain ⟨q, x, b, y, hq, hx, hlt, -, hy, hu, hneg⟩ := hends
    have hle := hcover q x hq hx (by simp only [QAQuestion.refund]; omega)
    rw [balanceOf_row hp hf hy hu] at hle
    simp only [QAQuestion.refund] at hle
    omega

/-- user 0 is fined, and then rewarded -/
def fined : ℕ → Points.Request
  | 0 => ⟨[.reward 0 (-10) "penalty" "penalty" "p" true 1], true⟩
  | 1 => Credit.request ⟨0, 5, "post", "post", "q", false, 2, by decide⟩
  | _ => Credit.request ⟨0, 15, "post", "post", "q", false, 2, by decide⟩

theorem post_free : "post" ∉ qaRefTypes := by decide

theorem a_week : 7 ≤ 7 ∧ 7 ≤ 90 := by decide

/-- two questions with a bounty; the first asker is fined before both expire -/
def dueRequests : ℕ → Request
  | 0 => { call := .grant 0 30 "post" "post" "a" false 0 post_free }
  | 1 => { call := .createQuestion 0 ⟨1, 30, 7, by decide, by decide, a_week, by decide⟩ 0 1 }
  | 2 => { call := .grant 1 30 "post" "post" "b" false 2 post_free }
  | 3 => { call := .createQuestion 1 ⟨1, 30, 7, by decide, by decide, a_week, by decide⟩ 2 3 }
  | 4 => { call := .grant 0 (-100) "penalty" "penalty" "c" true 4 (by decide) }
  | _ => { call := .expireDueQuestions 10000000 100 fun _ => 5 }

def finedMoves (i k : ℕ) : List Move := Points.demoMoves [0] ++ moves i k

/-- a user has no row under a ref that no row of the ledger carries -/
theorem not_taken {σ : State} (hf : σ.Fresh o) {u : ℕ} {refType refId : String}
    (h : ∀ n < σ.next ledger, ∀ r ∈ σ.com ledger n, r.hasRef u refType refId = false) : ¬ Taken σ u refType refId := by
  rintro ⟨n, r, hr, href⟩
  have hn : n < σ.next ledger := by
    by_contra hn
    rw [(hf ledger n (by omega)).1] at hr
    cases hr
  rw [h n hn r hr] at href
  cases href

end LkmService.Qa
