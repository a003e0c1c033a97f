/-
Credits.

A credit is issued by the statement that guards debits: without `allow_negative` the row is changed only where
`balance + delta` is not below zero. A balance below zero, which a reward with `allow_negative` leaves, makes a credit that
does not reach zero fail as "insufficient". The credit of a transfer, which passes `allow_negative`, always goes through.

- `balanceOf_eq_sum`: a balance is the sum of its user's ledger.
- `Ready.short`: what a session sees of a balance that it only credits is no less than what is committed.
- `reward_credited_iff`: a credit under a fresh ref goes through if and only if the balance covers it.
-/
import Mathlib.Algebra.Order.BigOperators.Group.Finset
import LkmService.Lib.Atomic
import LkmService.Lib.Solo
import LkmService.Points.Ledger

namespace LkmService.Points

open Session Sql Sql.Discipline Tbl

variable {D : Discipline Row Index Fx Unit} {strict : Prop} {i : ℕ} {o o' : Held} {σ τ : State} {u b n : ℕ}
  {x : UserBalance} {delta : ℤ} {refType refId : String} {allowNegative : Bool}

/-! ## Balances -/

/-- the balance of a user, zero without a row -/
def balanceOf (σ : State) (u : ℕ) : ℤ :=
  (((List.range (σ.next balances)).filterMap (σ.com balances)).find? fun x => x.userId == u).elim 0 (·.balance)

theorem balanceOf_row (hi : Inv strict σ) (hf : σ.Fresh o) (hx : σ.com balances b = some x) (hu : x.userId = u) :
    balanceOf σ u = x.balance := by
  have hb : b < σ.next balances := by
    by_contra hb
    rw [(hf balances b (by omega)).1] at hx
    cases hx
  have hmem : x ∈ (List.range (σ.next balances)).filterMap (σ.com balances) :=
    List.mem_filterMap.2 ⟨b, List.mem_range.2 hb, hx⟩
  rcases hfind : ((List.range (σ.next balances)).filterMap (σ.com balances)).find? (fun x => x.userId == u) with _ | y
  · have := List.find?_eq_none.1 hfind x hmem
    simp [hu] at this
  · obtain ⟨c, -, hc⟩ := List.mem_filterMap.1 (List.mem_of_find?_eq_some hfind)
    have hy : y.userId = u := by simpa using List.find?_some hfind
    obtain rfl := hi.one c b y x hc hx (hy.trans hu.symm)
    obtain rfl := Option.some.inj (hc.symm.trans hx)
    rw [balanceOf, hfind]
    rfl

theorem balanceOf_none (h : ∀ b x, σ.com balances b = some x → x.userId ≠ u) : balanceOf σ u = 0 := by
  have hfind : ((List.range (σ.next balances)).filterMap (σ.com balances)).find? (fun x => x.userId == u) = none := by
    refine List.find?_eq_none.2 fun y hy => ?_
    obtain ⟨c, -, hc⟩ := List.mem_filterMap.1 hy
    simpa using h c y hc
  rw [balanceOf, hfind]
  rfl

theorem bound_next (hf : σ.Fresh o) (u : ℕ) : Bound σ u (σ.next ledger) := by
  intro m r hr _
  by_contra hm
  rw [(hf ledger m (by omega)).1] at hr
  cases hr

theorem sumBelow_none (hi : Inv strict σ) (h : ∀ b x, σ.com balances b = some x → x.userId ≠ u) (n : ℕ) :
    sumBelow σ u n = 0 := by
  refine Finset.sum_eq_zero fun m _ => deltaOf_of_none fun r hr hu => ?_
  obtain ⟨b, x, hx, hxu⟩ := (hi.sound u).owner m r hr hu
  exact h b x hx hxu

/-- a balance is the sum of its user's ledger -/
theorem balanceOf_eq_sum (hi : Inv strict σ) (hf : σ.Fresh o) (u : ℕ) :
    balanceOf σ u = sumBelow σ u (σ.next ledger) := by
  by_cases h : ∃ b x, σ.com balances b = some x ∧ x.userId = u
  · obtain ⟨b, x, hx, hu⟩ := h
    rw [balanceOf_row hi hf hx hu]
    exact (hi.sound u).balance b x hx hu _ (bound_next hf u)
  · have hnone : ∀ b x, σ.com balances b = some x → x.userId ≠ u := fun b x hx hu => h ⟨b, x, hx, hu⟩
    rw [balanceOf_none hnone, sumBelow_none hi hnone]

/-! ## What a session that only credits sees -/

/-- the ledger rows that the session has added take nothing away -/
def Credits (o : Held) : Prop := ∀ n r, o.row ledger n = some (some r) → 0 ≤ r.delta

theorem Credits.sumBelow_le (h : Credits o) (hl : Lawful strict o σ) (u n : ℕ) :
    sumBelow σ u n ≤ sumBelow (σ.merge o) u n := by
  refine Finset.sum_le_sum fun m _ => ?_
  rcases ho : o.row ledger m with _ | v
  · simp only [deltaOf, Snap.merge_of_none ho]
    exact le_refl _
  · obtain ⟨hnone, r, rfl, -⟩ := hl.ledger_row m v ho
    have hzero : deltaOf σ u m = 0 := deltaOf_of_none fun r' hr' => by rw [hnone] at hr'; cases hr'
    rw [hzero]
    simp only [deltaOf, Snap.merge_of_some ho]
    split_ifs
    · exact h m r ho
    · exact le_refl _

/-- a credit that is not covered by what the session sees is not covered by what is committed -/
theorem Ready.short (hD : Covers D strict) (h : Ready D strict o σ) (hc : Credits o) (hpos : 0 < delta)
    (hs : Short o u delta allowNegative) :
    allowNegative = false ∧ ∃ b x, o.row balances b ≠ none ∧ σ.com balances b = some x ∧ x.userId = u ∧
      x.balance + delta < 0 := by
  obtain ⟨hno, b, x, hx, hu, hlt⟩ := hs
  have hi := hD.inv h.inv
  refine ⟨hno, ?_⟩
  -- what the session sees is the sum of the ledger that it sees
  have hbound : Bound (σ.merge o) u (σ.next ledger) := by
    intro m r hr _
    by_contra hm
    rw [Snap.merge_of_none (h.fresh ledger m (by omega)).2, (h.fresh ledger m (by omega)).1] at hr
    cases hr
  have hseen : x.balance = sumBelow (σ.merge o) u (σ.next ledger) :=
    (h.lawful.sound u).balance b x (Snap.merge_of_some hx σ) hu _ hbound
  have hle := hc.sumBelow_le h.lawful u (σ.next ledger)
  obtain ⟨y, hy, ⟨x₀, hx₀, hu₀⟩ | ⟨-, -, hnone⟩⟩ := h.lawful.balance_row b _ hx
  · obtain rfl := Option.some.inj hy
    have hcom : x₀.balance = sumBelow σ u (σ.next ledger) :=
      (hi.sound u).balance b x₀ hx₀ (hu₀.trans hu) _ (bound_next h.fresh u)
    exact ⟨b, x₀, by simp [hx], hx₀, hu₀.trans hu, by omega⟩
  · obtain rfl := Option.some.inj hy
    rw [hu] at hnone
    have hzero := sumBelow_none hi hnone (σ.next ledger)
    omega

/-! ## A credit as a transaction -/

/-- the user has a row under the ref -/
def Taken (σ : State) (u : ℕ) (refType refId : String) : Prop :=
  ∃ n r, σ.com ledger n = some r ∧ r.hasRef u refType refId = true

/-- what a request leaves that credits a user -/
def CreditEnds (u : ℕ) (delta : ℤ) (refType refId : String) (allowNegative : Bool) : Except Exn Unit → Held → State → Prop
  | .ok _, o, σ => Taken σ u refType refId ∨ ∃ n r after, (∀ m, o.row ledger m = if m = n then some (some r) else none) ∧
      σ.com ledger n = none ∧ r.userId = u ∧ r.delta = delta ∧ Holding o u after allowNegative
  | .error _, o, σ => Taken σ u refType refId ∨ (allowNegative = false ∧ ∃ b x, o.row balances b ≠ none ∧
      σ.com balances b = some x ∧ x.userId = u ∧ x.balance + delta < 0)

theorem Rely.taken (h : Rely o σ τ) (ht : Taken σ u refType refId) : Taken τ u refType refId := by
  obtain ⟨n, r, hr, href⟩ := ht
  exact ⟨n, r, h.ledger n r hr, href⟩

theorem stable_creditEnds : Stable (discipline strict) i (CreditEnds u delta refType refId allowNegative) := by
  rintro (e | a) o σ τ hrely hcom h
  · refine h.imp hrely.taken fun ⟨hno, b, x, hb, hx, hrest⟩ => ⟨hno, b, x, hb, ?_, hrest⟩
    rw [hcom _ _ hb]
    exact hx
  · refine h.imp hrely.taken fun ⟨n, r, after, hrow, hnone, hrest⟩ => ⟨n, r, after, hrow, ?_, hrest⟩
    rw [hcom ledger n (by simp [hrow])]
    exact hnone

theorem credit_ends (h : Ready (discipline strict) strict {} σ) (hpos : 0 < delta) (reason : String) (now : ℤ) :
    (discipline strict).wp i (callAll [.reward u delta reason refType refId allowNegative now])
      (CreditEnds u delta refType refId allowNegative) {} σ := by
  have hcall : (discipline strict).wp i (call (.reward u delta reason refType refId allowNegative now))
      (CreditEnds u delta refType refId allowNegative) {} σ := by
    refine wp_seqOr (reward_ends covers h u delta reason refType refId allowNegative now)
      (fun entry o' τ ⟨hon, after, hgranted, hrow⟩ => wp_pure ?_) fun e o' τ ⟨hon, hrefused⟩ => ?_
    · rcases hgranted with ⟨n, hsame, hv, href, -⟩ | ⟨n, -, hnew, hfree, -⟩
      · rw [Own.view_of_none (by rw [hsame])] at hv
        exact Or.inl ⟨n, entry, hv, href⟩
      · refine Or.inr ⟨n, _, after, hnew, hfree.2, rfl, rfl, hrow.resolve_left fun hsame => ?_⟩
        have := hnew n
        simp [hsame] at this
    · have hsame : o'.row ledger = ({} : Held).row ledger := hon.same ledger (by decide)
      rcases hrefused with ⟨n, r, hv, href, -⟩ | hshort
      · rw [Own.view_of_none (by rw [hsame])] at hv
        exact Or.inl ⟨n, r, hv, href⟩
      · have hcredits : Credits o' := by
          intro n r hn
          rw [hsame] at hn
          cases hn
        exact Or.inr (hon.ready.short covers hcredits hpos hshort)
  refine wp_bind (wp_mono hcall ?_)
  rintro (e | a) o' τ hends
  · exact hends
  · exact wp_pure hends

theorem plain_getBalance : Plain (getBalance u) := plain_bind (plain_select _ _) fun _ => plain_pure _

theorem plain_ensureBalance : Plain (ensureBalance u) := by
  refine plain_bind plain_getBalance fun row => ?_
  rcases row with _ | row
  · refine plain_bind (plain_insertUnique _ _ _ _) fun _ => plain_bind plain_getBalance fun row => ?_
    rcases row with _ | row
    · exact plain_raise _
    · exact plain_pure _
  · exact plain_pure _

theorem plain_lockForUpdate : Plain (lockForUpdate u) := by
  refine plain_bind plain_getBalance fun row => ?_
  rcases row with _ | ⟨b, x⟩
  · exact plain_pure _
  · exact plain_bind (plain_lockRow _ _ _) fun _ => plain_pure _

theorem plain_getByRef : Plain (getByRef u refType refId) := plain_bind (plain_select _ _) fun _ => plain_pure _

theorem plain_applyDelta : Plain (applyDelta u delta allowNegative) := by
  refine plain_bind plain_getBalance fun row => ?_
  rcases row with _ | ⟨b, x⟩
  · exact plain_raise _
  · refine plain_bind (plain_updateRow _ _ _ _) fun row => ?_
    rcases row with _ | row
    · exact plain_raise _
    · refine plain_bind plain_getBalance fun row => ?_
      rcases row with _ | row
      · exact plain_raise _
      · exact plain_pure _

theorem plain_reward {reason : String} {now : ℤ} : Plain (reward u delta reason refType refId allowNegative now) := by
  refine plain_bind plain_ensureBalance fun _ => plain_bind plain_lockForUpdate fun _ => plain_bind plain_getByRef fun e => ?_
  rcases e with _ | e
  · refine plain_bind plain_applyDelta fun _ => plain_bind (plain_insertUnique _ _ _ _) fun _ => ?_
    refine plain_bind plain_getByRef fun e => ?_
    rcases e with _ | e
    · exact plain_raise _
    · exact plain_ite (plain_pure _) (plain_raise _)
  · exact plain_ite (plain_pure _) (plain_raise _)

theorem request_eq (calls : List Call) : request ⟨calls, true⟩ = transaction (callAll calls) := by
  refine congrArg (callAll calls).andThen (funext fun r => ?_)
  rcases r with e | a
  · rfl
  · rfl

/-! ## The runs -/

/-- a reward that credits -/
structure Credit where
  user : ℕ
  delta : ℤ
  reason : String
  refType : String
  refId : String
  allowNegative : Bool
  now : ℤ
  pos : 0 < delta

def Credit.request (c : Credit) : Request :=
  ⟨[.reward c.user c.delta c.reason c.refType c.refId c.allowNegative c.now], true⟩

/-- the balance bears the credit -/
def Credit.covered (c : Credit) (σ : State) : Prop := c.allowNegative = true ∨ 0 ≤ balanceOf σ c.user + c.delta

/-- the session answers with the move -/
def Ends {α : Type} (w : World (Stmt Row Index Fx) Store Exn α) (m : Move) (i : ℕ) (r : Except Exn α) : Prop :=
  w.answer i = none ∧ (step w m).answer i = some r

/-- **Credits.** At the move with which a session answers that credits a user under a fresh ref: the credit has gone
through, by exactly its amount, if and only if the balance bears it. -/
theorem reward_credited_iff (defs : List Task) (requests : ℕ → Request) (ms : List Move) (m : Move) (i : ℕ) (c : Credit)
    (r : Except Exn Unit) (hrequest : requests i = c.request) (hends : Ends (run (init defs requests) ms) m i r)
    (hfresh : ¬ Taken (after defs requests ms) c.user c.refType c.refId) :
    (r = .ok () ∧ balanceOf (after defs requests (ms ++ [m])) c.user = balanceOf (after defs requests ms) c.user + c.delta) ↔
      c.covered (after defs requests ms) := by
  obtain ⟨u, delta, reason, refType, refId, allowNegative, now, hpos⟩ := c
  dsimp only [Credit.covered] at *
  have hl : ∀ ms, (discipline False).protocol.Legal (init defs requests) ms := fun ms =>
    legal_of_ok (fun _ x _ _ => by cases x; exact fun h => h.elim) (fun _ _ _ => trivial) _ _
  have hinv : ∀ ms, Inv False (after defs requests ms) := fun ms =>
    ((discipline False).protocol.run_inv (safe_init defs requests) (hl ms)).1
  have hnew : ∀ ms, (after defs requests ms).Fresh ((run (init defs requests) ms).st.own i) := fun ms => fresh_own i _
  have hstage : Stage (discipline False) (CreditEnds u delta refType refId allowNegative) i (run (init defs requests) ms) := by
    refine Stage.run (safe_init defs requests) (hl ms) stable_creditEnds
      (stage_start (p := callAll [.reward u delta reason refType refId allowNegative now]) ?_ ?_ ?_)
    · rw [hrequest, Credit.request, request_eq]
    · exact plain_bind (plain_bind plain_reward fun _ => plain_pure _) fun _ => plain_pure _
    · rw [own_store]
      refine credit_ends (Ready.empty covers (inv_store defs) ?_) hpos reason now
      intro t n hn
      exact ⟨congrArg Cell.committed ((store defs).fresh t n hn), rfl⟩
  obtain ⟨rfl, hends, hst⟩ := hstage.answering hends.1 hends.2
  rcases hst with ⟨⟨a, rfl⟩, hst⟩ | ⟨⟨e, rfl⟩, -⟩
  · obtain ⟨n, row, bal, hrow, hnone, hru, hrd, ⟨b, hb⟩, hfloor⟩ := hends.resolve_left hfresh
    have hτ : after defs requests (ms ++ [.run i]) =
        (after defs requests ms).merge ((run (init defs requests) ms).st.own i) := by
      rw [after, run_snoc, hst, Db.snap_finish_true]
      rfl
    have hsum : balanceOf (after defs requests (ms ++ [.run i])) u = balanceOf (after defs requests ms) u + delta := by
      rw [balanceOf_eq_sum (hinv _) (hnew _), balanceOf_eq_sum (hinv _) (hnew _), hτ]
      have hlt : n < (after defs requests ms).next ledger := by
        refine Db.lt_of_own _ (v := some row) (i := i) ?_
        rw [hrow, if_pos rfl]
      have hin := sumBelow_insert (σ := after defs requests ms)
        (τ := (after defs requests ms).merge ((run (init defs requests) ms).st.own i)) (n := n) (r := row) (u := u)
        (Snap.merge_of_some (by rw [hrow, if_pos rfl]) _) hru (fun r' hr' => absurd (hnone.symm.trans hr') (by simp))
        (fun m hm => Snap.merge_of_none (by rw [hrow, if_neg hm]) _) ((after defs requests ms).next ledger)
      rw [if_pos hlt, hrd] at hin
      exact hin
    have hbal : balanceOf (after defs requests (ms ++ [.run i])) u = bal :=
      balanceOf_row (hinv _) (hnew _) (b := b) (by rw [hτ]; exact Snap.merge_of_some hb _) rfl
    refine ⟨fun _ => ?_, fun _ => ⟨rfl, hsum⟩⟩
    cases hneg : allowNegative with
    | true => exact Or.inl rfl
    | false => exact Or.inr (by rw [← hsum, hbal]; exact hfloor hneg)
  · obtain ⟨hno, b, x, -, hx, hu, hlt⟩ := hends.resolve_left hfresh
    rw [balanceOf_row (hinv ms) (hnew ms) hx hu, hno]
    constructor
    · rintro ⟨he, -⟩
      cases he
    · rintro (hyes | hle)
      · cases hyes
      · omega

end LkmService.Points
