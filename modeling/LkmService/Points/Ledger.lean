/-
Balances agree with the ledger in every state of every run.

The sums hold under every schedule. One row for each ref holds as long as no transfer credits a recipient who has a
row under its ref already: `transfer` looks on the sender's side only (`transfer_repeats_ref`). The ledger only grows
(`append_only`).
-/
import LkmService.Points.Calls

namespace LkmService.Points

open Session Sql Sql.Discipline Tbl

variable {strict : Prop} {σ τ : State}

/-! ## The discipline -/

/-- with `strict`, the runs in which no transfer comes to a recipient who has a row under its ref -/
def discipline (strict : Prop) : Discipline Row Index Fx Unit where
  inv := Inv strict
  rely _ := Rely
  act _ _ _ := True
  ok _ x o σ :=
    match x with
    | .check toId refType refId =>
      strict → ∀ n r, o.view σ ledger n = some r → r.hasRef toId refType refId = false
  rely_refl _ := Rely.refl
  rely_trans _ _ _ _ _ := Rely.trans
  act_refl _ _ _ := trivial
  grow_inv _ t n h := h.bump t n
  grow_act _ _ _ _ _ := trivial
  grow_rely _ o σ t n _ := Rely.bump o σ t n

instance : Lockless (discipline strict) := ⟨fun _ _ _ => trivial⟩

theorem covers : Covers (discipline strict) strict := ⟨id, id, Rely.sub⟩

theorem checks : Checks (discipline strict) strict := fun _ _ _ _ _ _ h => h

theorem inv_store (defs : List Task) : Inv strict (store defs).snap := by
  have hb := com_store defs balances (by decide)
  have hl := com_store defs ledger (by decide)
  refine ⟨fun u => ⟨?_, ?_, ?_, ?_, ?_⟩, ?_⟩ <;> simp [hb, hl]

theorem safe_init (defs : List Task) (requests : ℕ → Request) :
    (discipline strict).protocol.Safe (init defs requests) := by
  refine safe_start (inv_store defs) (fun _ => trivial) (own_store defs) fun i => ?_
  have hf : (store defs).snap.Fresh ({} : Held) := by
    intro t n h
    have := (store defs).fresh t n h
    exact ⟨congrArg Cell.committed this, rfl⟩
  refine request_safe covers checks (Ready.empty covers (inv_store defs) hf) (requests i) fun o τ h => ?_
  exact ⟨h.lawful.inv h.inv, trivial, fun _ _ _ hd => h.lawful.rely h.inv hd⟩

/-! ## The runs -/

/-- balances and ledger agree, and no debit is issued beyond the balance -/
structure Balanced (σ : State) : Prop where
  balance : ∀ b x, σ.com balances b = some x → x.balance = sumBelow σ x.userId (σ.next ledger)
  /-- the user of a ledger row has one balance row -/
  account : ∀ n r, σ.com ledger n = some r → ∃! b, ∃ x, σ.com balances b = some x ∧ x.userId = r.userId
  running : ∀ n r, σ.com ledger n = some r → r.balanceAfter = sumBelow σ r.userId (n + 1)
  debit : ∀ n r, σ.com ledger n = some r → r.delta < 0 → r.allowNegative = false → 0 ≤ r.balanceAfter

/-- a user has one ledger row for each ref -/
def OneRowPerRef (σ : State) : Prop :=
  ∀ n n' r r', σ.com ledger n = some r → σ.com ledger n' = some r' → r'.hasRef r.userId r.refType r.refId = true → n = n'

theorem Inv.balanced (h : Inv strict σ) (hf : ∀ n, σ.next ledger ≤ n → σ.com ledger n = none) : Balanced σ where
  balance b x hx := by
    refine (h.sound x.userId).balance b x hx rfl _ fun m r hr _ => ?_
    by_contra hm
    rw [hf m (by omega)] at hr
    simp at hr
  account n r hr := by
    obtain ⟨b, x, hx, hu⟩ := (h.sound r.userId).owner n r hr rfl
    refine ⟨b, ⟨x, hx, hu⟩, ?_⟩
    rintro b' ⟨x', hx', hu'⟩
    exact h.one b' b x' x hx' hx (hu'.trans hu.symm)
  running n r hr := (h.sound r.userId).running n r hr rfl
  debit n r hr := (h.sound r.userId).debit n r hr rfl

theorem Inv.oneRowPerRef (h : Inv True σ) : OneRowPerRef σ := by
  intro n n' r r' hr hr' href
  obtain ⟨hu, ht, hi⟩ := hasRef_iff.1 href
  exact (h.sound r.userId).refs trivial n n' r r' hr hr' rfl hu ht.symm hi.symm

/-- a transfer that has found no row of the sender under its ref finds none of the recipient either -/
def recipientFresh (w : World (Stmt Row Index Fx) Store Exn Unit) : Move → Bool
  | .run i =>
    match w.prog i with
    | some (.op (.fx (.check toId refType refId)) _) =>
      ((w.st.tab ledger).rows i).all fun q => !q.2.hasRef toId refType refId
    | _ => true
  | .crash _ => true

theorem stepOk_of_recipientFresh (w : World (Stmt Row Index Fx) Store Exn Unit) (m : Move)
    (h : recipientFresh w m = true) : (discipline True).protocol.stepOk w m := by
  refine Protocol.stepOk_of _ (fun _ _ _ _ => trivial) ?_
  rintro β i (c | ⟨⟨toId, refType, refId⟩⟩) k rfl hp
  · exact fun _ => trivial
  · simp only [recipientFresh, hp, List.all_eq_true] at h
    intro _ n r hv
    simpa using h (n, r) (Table.mem_rows.2 hv)

/-- the committed state after a schedule -/
def after (defs : List Task) (requests : ℕ → Request) (ms : List Move) : State := (run (init defs requests) ms).st.snap

theorem legal_init (defs : List Task) (requests : ℕ → Request) (ms : List Move) :
    (discipline False).protocol.Legal (init defs requests) ms :=
  legal_of_ok (fun _ x _ _ => by cases x; exact fun h => h.elim) (fun _ _ _ => trivial) _ _

theorem inv_after (defs : List Task) (requests : ℕ → Request) (ms : List Move) : Inv False (after defs requests ms) :=
  ((discipline False).protocol.run_inv (safe_init defs requests) (legal_init defs requests ms)).1

/-- the sums hold under every schedule -/
theorem balanced (defs : List Task) (requests : ℕ → Request) (ms : List Move) : Balanced (after defs requests ms) :=
  (inv_after defs requests ms).balanced fun n hn => congrArg Cell.committed ((run (init defs requests) ms).st.fresh ledger n hn)

/-- what becomes of the books between two moments -/
structure Appends (σ τ : State) : Prop where
  ledger : ∀ n r, σ.com ledger n = some r → τ.com ledger n = some r
  /-- a balance row stays its user's, and has moved by the user's new ledger rows -/
  balance : ∀ b x, σ.com balances b = some x → ∃ y, τ.com balances b = some y ∧ y.userId = x.userId ∧
    y.balance = x.balance + ∑ n ∈ Finset.range (τ.next Tbl.ledger) with σ.com Tbl.ledger n = none, deltaOf τ x.userId n

/-- **Append only.** From any moment of a run to any later one, no ledger row is changed or removed, and every balance has
moved by the sum of the rows that are new. -/
theorem append_only (defs : List Task) (requests : ℕ → Request) (pre post : List Move) :
    Appends (after defs requests pre) (after defs requests (pre ++ post)) := by
  obtain ⟨i, -, -, hrely⟩ := (discipline False).protocol.run_later pre post (safe_init defs requests)
    (legal_init defs requests _)
  have hledger : ∀ n r, (after defs requests pre).com ledger n = some r →
      (after defs requests (pre ++ post)).com ledger n = some r := hrely.ledger
  refine ⟨hledger, fun b x hx => ?_⟩
  obtain ⟨y, hy, huser⟩ := hrely.balances b x hx
  have hnew := (balanced defs requests (pre ++ post)).balance b y hy
  have hold := ((inv_after defs requests pre).sound x.userId).balance b x hx rfl
    ((after defs requests (pre ++ post)).next ledger) fun m r hr _ => by
      by_contra hm
      have hnone := congrArg Cell.committed ((run (init defs requests) (pre ++ post)).st.fresh ledger m (Nat.le_of_not_lt hm))
      exact Option.some_ne_none r ((hledger m r hr).symm.trans hnone)
  refine ⟨y, hy, huser, ?_⟩
  rw [hnew, hold, huser, Finset.sum_filter, sumBelow, sumBelow, ← Finset.sum_add_distrib]
  refine Finset.sum_congr rfl fun n _ => ?_
  rcases hn : (after defs requests pre).com ledger n with _ | r
  · simp [deltaOf, hn]
  · simp [deltaOf, hn, hledger n r hn]

/-- **Balance equals ledger.** In every run in which no transfer credits a recipient who has a row under its ref: every
balance is the sum of its user's ledger, every ledger row carries the running sum, a user has one row for each ref, and
no debit without `allow_negative` leaves a balance below zero. -/
theorem balance_equals_ledger (defs : List Task) (requests : ℕ → Request) (ms : List Move)
    (h : Along (fun w m => recipientFresh w m = true) (init defs requests) ms) :
    Balanced (after defs requests ms) ∧ OneRowPerRef (after defs requests ms) := by
  refine ⟨balanced defs requests ms, ?_⟩
  have hl : (discipline True).protocol.Legal (init defs requests) ms := h.mono stepOk_of_recipientFresh
  exact ((discipline True).protocol.run_inv (safe_init defs requests) hl).1.oneRowPerRef

/-! ## A transfer to a recipient who has been rewarded under its ref -/

/-- user 1 is rewarded under a ref, user 0 is given points, and transfers some to user 1 under that ref -/
def demoRequests : ℕ → Request
  | 0 => ⟨[.reward 1 5 "post" "post" "p" false 1], true⟩
  | 1 => ⟨[.reward 0 10 "post" "post" "q" false 2], true⟩
  | 2 => ⟨[.transfer 0 1 5 "post" "p" 3 3], true⟩
  | 3 => ⟨[.transfer 0 1 5 "gift" "g" 4 4], true⟩
  | _ => ⟨[.reward 1 5 "post" "post" "p" false 5, .spend 1 20 "shop" "order" "s" 6], true⟩

/-- the sessions one after the other -/
def demoMoves (sessions : List ℕ) : List Move := sessions.flatMap fun i => List.replicate 24 (.run i)

/-- the recipient has two rows under one ref -/
theorem transfer_repeats_ref :
    ¬ ∀ (defs : List Task) (requests : ℕ → Request) (ms : List Move), OneRowPerRef (after defs requests ms) := by
  intro h
  have := h [] demoRequests (demoMoves [0, 1, 2]) 0 3
    { userId := 1, delta := 5, balanceAfter := 5, reason := "post", refType := "post", refId := "p", createdAt := 1 }
    { userId := 1, delta := 5, balanceAfter := 10, reason := "transfer_in", refType := "post", refId := "p",
      createdAt := 3, allowNegative := true }
    (by decide) (by decide) (by decide)
  simp at this

theorem balance_equals_ledger_demo :
    ((after [] demoRequests (demoMoves [0, 1, 3, 4])).com balances 0 = some ⟨1, 10⟩ ∧
      ((after [] demoRequests (demoMoves [0, 1, 3, 4])).com ledger 3).map (·.balanceAfter) = some 10) ∧
    Balanced (after [] demoRequests (demoMoves [0, 1, 3, 4])) ∧
      OneRowPerRef (after [] demoRequests (demoMoves [0, 1, 3, 4])) :=
  ⟨by decide +kernel, balance_equals_ledger [] demoRequests _ (by decide +kernel)⟩

end LkmService.Points
