/-
Every session of `relay_poll` and `archive_published` keeps the discipline of the outbox, whatever the others do
between its statements.
-/
import LkmService.Outbox.Steps

namespace LkmService.Outbox

open Session Sql Sql.Discipline Tbl

variable {P : Type} {env : Env P} {calls : ℕ → Call P} {i : ℕ} {o : Held P} {σ τ : State P}

/-! ## The statements outside the tables -/

theorem good_now (h : Inv calls σ) (t : ℤ) :
    (discipline env calls).Good i o σ { σ with ext := (Effects.exec i (Fx.now t) σ.ext).2 } where
  inv :=
    { places := { h.places with }
      fences := { h.fences with }
      events := { h.events with }
      strict := fun hq => { h.strict hq with } }
  act := { Act.refl env i σ with }
  rely j hj o' _ := { Rely.refl j o' σ with reading := Function.update_of_ne hj _ _ }

theorem good_uuid4 (h : Inv calls σ) :
    (discipline env calls).Good i o σ { σ with ext := (Effects.exec i Fx.uuid4 σ.ext).2 } where
  inv :=
    { places := { h.places with }
      fences :=
        { h.fences with
          token_lt := fun n r t hr ht => Nat.lt_succ_of_lt (h.fences.token_lt n r t hr ht)
          claim_lt := fun j t hj => by
            by_cases hji : j = i
            · subst hji
              have : σ.ext.token = t := by simpa [Effects.exec] using hj
              exact this ▸ Nat.lt_succ_self _
            · have : σ.ext.claim j = some t := by simpa [Effects.exec, Function.update_of_ne hji] using hj
              exact Nat.lt_succ_of_lt (h.fences.claim_lt j t this)
          claim_inj := fun j k t hj hk => by
            -- the new token is above every token in use
            have hold : ∀ m, m ≠ i → Function.update σ.ext.claim i (some σ.ext.token) m = some t →
                σ.ext.claim m = some t := fun m hm he => by rwa [Function.update_of_ne hm] at he
            have hnew : ∀ m, m ≠ i → Function.update σ.ext.claim i (some σ.ext.token) i = some t →
                Function.update σ.ext.claim i (some σ.ext.token) m ≠ some t := by
              intro m hm hi he
              have hlt := h.fences.claim_lt m t (hold m hm he)
              rw [Function.update_self, Option.some.injEq] at hi
              omega
            have hj : Function.update σ.ext.claim i (some σ.ext.token) j = some t := hj
            have hk : Function.update σ.ext.claim i (some σ.ext.token) k = some t := hk
            by_cases hji : j = i <;> by_cases hki : k = i
            · rw [hji, hki]
            · subst hji; exact absurd hk (hnew k hki hj)
            · subst hki; exact absurd hj (hnew j hji hk)
            · exact h.fences.claim_inj j k t (hold j hji hj) (hold k hki hk) }
      events := { h.events with }
      strict := fun hq => { h.strict hq with } }
  act := { Act.refl env i σ with }
  rely j hj o' _ := { Rely.refl j o' σ with claim := Function.update_of_ne hj _ _ }

theorem good_publish (h : Inv calls σ) {n : ℕ} (ok : Bool) (hc : ∃ c cp, σ.com copies c = some cp ∧ cp.row = n) :
    (discipline env calls).Good i o σ { σ with ext := (Effects.exec i (Fx.publish n ok) σ.ext).2 } where
  inv :=
    { places := { h.places with }
      fences :=
        { h.fences with
          published := fun m r hr hs => List.mem_cons_of_mem _ (h.fences.published m r hr hs)
          archived := fun a r hr => List.mem_cons_of_mem _ (h.fences.archived a r hr)
          sent := fun m b hm => by
            rcases List.mem_cons.1 hm with heq | hm
            · simp only [Prod.mk.injEq] at heq
              obtain ⟨rfl, -⟩ := heq
              exact hc
            · exact h.fences.sent m b hm }
      events := { h.events with }
      strict := fun hq => { h.strict hq with } }
  act := { Act.refl env i σ with }
  rely j hj o' _ := { Rely.refl j o' σ with publishes := fun q hq => List.mem_cons_of_mem _ hq }

/-- a row in the outbox has its copy -/
theorem Inv.copy (h : Inv calls σ) {n : ℕ} {r : OutboxMessage P} (hr : σ.com outbox n = some r) :
    ∃ c cp, σ.com copies c = some cp ∧ cp.row = n := by
  rcases live_place hr (h.places.live n r hr) with ⟨hq, -⟩ | ⟨hq, -⟩ <;>
  · obtain ⟨c, cp, hc, hrow, -⟩ := h.places.copied _ _ _ hq
    exact ⟨c, cp, hc, hrow⟩

/-- a claimed row is pending -/
theorem Inv.pending_of_locked (h : Inv calls σ) {n t : ℕ} {r : OutboxMessage P} (hr : σ.com outbox n = some r)
    (hb : r.lockedBy = some t) : r.status = .pending := by
  rcases live_place hr (h.places.live n r hr) with ⟨-, hs⟩ | ⟨-, hs⟩
  · exact hs
  · rw [h.fences.unlocked n r hr hs] at hb
    simp at hb

/-! ## Commits of one row -/

/-- the update of a row that the session has locked -/
theorem wp_updateLocked {n : ℕ} {r : OutboxMessage P} {p : OutboxMessage P → Bool}
    {f : OutboxMessage P → OutboxMessage P} {Q : Except Exn (Option (OutboxMessage P)) → Held P → State P → Prop}
    (hp : p r = true) (hQ : ∀ υ, (discipline env calls).Later i (({} : Held P).put outbox n (some r)) σ υ →
      Q (.ok (some (f r))) (({} : Held P).put outbox n (some (f r))) υ) :
    (discipline env calls).wp i (updateRow outbox n p f) Q (({} : Held P).put outbox n (some r)) σ := by
  refine wp_updateOwned hp (Own.put_row_self _ _ _) fun υ hl => ?_
  rw [Own.put_put]
  exact hQ υ hl

theorem wp_commitRow {n : ℕ} (r : OutboxMessage P) {r' : OutboxMessage P} {Q : Except Exn Unit → Held P → State P → Prop}
    (hc : σ.com outbox n = some r) (hs : RowStep env i σ.ext n (some r) (some r'))
    (hQ : ∀ υ, υ.ext.claim i = σ.ext.claim i → Inv calls υ → υ.com outbox n = some r' → Q (.ok ()) {} υ) :
    (discipline env calls).wp i commit Q (({} : Held P).put outbox n (some r')) σ := by
  refine wp_commit fun ω hl => ?_
  have hr : Rely i (({} : Held P).put outbox n (some r')) σ ω := hl.rely
  have hL : Lawful env calls i (({} : Held P).put outbox n (some r')) ω :=
    Lawful.empty.put_outbox ((hl.com_eq (Own.put_row_self _ _ _)).trans hc) (fun v hv => by simp at hv)
      (hs.mono hr.claim hr.reading hr.publishes)
  have hg := hL.good hl.inv
  exact ⟨hg, hQ _ hr.claim hg.inv (Snap.merge_of_some (Own.put_row_self _ _ _) ω)⟩

theorem wp_fold {n tok : ℕ} {r m : OutboxMessage P} {why : String} {Q : Except Exn Unit → Held P → State P → Prop}
    (hc : σ.com outbox n = some r) (hb : r.lockedBy = some tok) (hclaim : σ.ext.claim i = some tok)
    (hm : m.event = r.event) (hQ : ∀ υ, Q (.ok ()) {} υ) :
    (discipline env calls).wp i (fold n m why) Q (({} : Held P).put outbox n (some r)) σ := by
  refine wp_bind (wp_insert fun τ hl => wp_bind (wp_deleteRow (fun υ hl' hmiss => ?_) fun υ r' hl' _ => ?_))
  · rw [Own.view, Own.put_row_other _ _ _ (by simp), Own.put_row_self] at hmiss
    simp at hmiss
  · refine wp_commit fun ω hl'' => ⟨?_, hQ _⟩
    -- both rows are held from the insert to the commit
    have hfresh := hl.fresh failures _ (Nat.le_refl _)
    have hrow : ω.com outbox n = some r := by
      rw [hl''.com_eq (Own.put_row_self _ _ _), hl'.com outbox n (by simp [Own.put_row_other]), Snap.bump_com,
        hl.com_eq (Own.put_row_self _ _ _), hc]
    have hfail : ω.com failures (τ.next failures) = none := by
      rw [hl''.com failures _ (by simp [Own.put_row_other]), hl'.com failures _ (by simp), Snap.bump_com, hfresh.1]
    have hclaim' : ω.ext.claim i = some tok := by
      rw [Rely.claim hl''.rely, Rely.claim hl'.rely, Snap.bump_ext, Rely.claim hl.rely, hclaim]
    have hlock : Lawful env calls i (({} : Held P).put outbox n (some r)) ω :=
      Lawful.empty.put_outbox hrow (fun v hv => by simp at hv) (.keep _)
    refine Lawful.good ?_ hl''.inv
    exact hlock.fold hrow (fun v hv => by simpa using hv.symm) (hl''.inv.pending_of_locked hrow hb) hclaim' hb hfail
      (by simp [Own.put_row_other]) rfl hm rfl rfl

/-! ## The rounds of a relay -/

theorem wp_claim {rd : Round} {Q : Except Exn (Option (ℕ × OutboxMessage P × ℕ)) → Held P → State P → Prop}
    (hnone : ∀ υ, Q (.ok none) {} υ)
    (hsome : ∀ υ n r tok, υ.ext.claim i = some tok → (∃ c cp, υ.com copies c = some cp ∧ cp.row = n) →
      Q (.ok (some (n, r, tok))) {} υ) :
    (discipline env calls).wp i (claim env rd) Q {} σ := by
  refine wp_bind (wp_perform fun τ₁ h₁ _ => ⟨good_now h₁.inv _, wp_bind (wp_select fun τ₂ h₂ l _ _ => ?_)⟩)
  refine wp_bind (wp_lockFirst h₂.inv h₂.fresh (fun τ₃ _ => wp_pure (hnone τ₃)) fun τ₃ n r h₃ hv hp => ?_)
  refine wp_bind (wp_perform fun τ₄ h₄ _ => ⟨good_uuid4 h₄.inv, ?_⟩)
  have hreading : τ₄.ext.reading i = rd.claimNow := by
    rw [Rely.reading h₄.rely, Rely.reading h₃.rely, Rely.reading h₂.rely]
    exact Function.update_self _ _ _
  have hrow : τ₄.com outbox n = some r := by
    rw [h₄.com_eq (Own.put_row_self _ _ _)]
    exact hv
  refine wp_bind (wp_updateLocked rfl fun υ hl => wp_bind (wp_commitRow r ?_ ?_ fun ω hcl hi hn => wp_pure ?_))
  · exact (hl.com_eq (Own.put_row_self _ _ _)).trans hrow
  · refine .claim r _ _ ((Rely.claim hl.rely).trans (Function.update_self _ _ _)) ?_
    rw [Rely.reading hl.rely]
    exact hreading ▸ hp
  · exact hsome ω n _ _ (hcl.trans ((Rely.claim hl.rely).trans (Function.update_self _ _ _))) (hi.copy hn)

theorem wp_giveBack {n tok : ℕ} {Q : Except Exn Unit → Held P → State P → Prop} (hclaim : σ.ext.claim i = some tok)
    (hQ : ∀ υ, Q (.ok ()) {} υ) : (discipline env calls).wp i (giveBack n tok) Q {} σ := by
  refine wp_bind (wp_lockRow (fun τ _ _ => wp_rollback fun υ _ => hQ υ) fun τ r hl hv _ => ?_)
  have hc : τ.com outbox n = some r := hv
  have hcl : τ.ext.claim i = some tok := (Rely.claim hl.rely).trans hclaim
  show (discipline env calls).wp i (if r.lockedBy = some tok then _ else _) Q _ τ
  by_cases hb : r.lockedBy = some tok
  · rw [if_pos hb]
    refine wp_bind (wp_updateLocked rfl fun υ hl => wp_commitRow r ?_ ?_ fun ω _ _ _ => hQ ω)
    · exact (hl.com_eq (Own.put_row_self _ _ _)).trans hc
    · exact .giveBack r tok ((Rely.claim hl.rely).trans hcl) hb
  · rw [if_neg hb]
    exact wp_rollback fun υ _ => hQ υ

/-- after the publish call of a round the session knows that it has returned True when `ok` is true -/
theorem wp_send {rd : Round} {n : ℕ} {reason : Option String} {Q : Except Exn Bool → Held P → State P → Prop}
    (hcopy : ∃ c cp, σ.com copies c = some cp ∧ cp.row = n)
    (hQ : ∀ υ ok, υ.ext.claim i = σ.ext.claim i → (ok = true → (n, true) ∈ υ.ext.publishes) → Q (.ok ok) {} υ) :
    (discipline env calls).wp i (send rd n reason) Q {} σ := by
  unfold send
  split_ifs with hr
  · refine wp_perform fun τ hl _ => ?_
    obtain ⟨c, cp, hc, hrow⟩ := hcopy
    have hclaim : τ.ext.claim i = σ.ext.claim i := Rely.claim hl.rely
    refine ⟨good_publish hl.inv _ ⟨c, cp, Rely.copies hl.rely c cp hc, hrow⟩, hQ _ _ hclaim fun hok => ?_⟩
    have hok : rd.publish.ok = true := hok
    rw [← hok]
    exact List.mem_cons_self
  · exact wp_pure (hQ σ false rfl fun h => by simp at h)

theorem wp_result {rd : Round} {n tok : ℕ} {reason : Option String} {ok : Bool}
    {Q : Except Exn ℕ → Held P → State P → Prop} (hclaim : σ.ext.claim i = some tok)
    (hok : ok = true → (n, true) ∈ σ.ext.publishes) (hQ : ∀ k υ, Q (.ok k) {} υ) :
    (discipline env calls).wp i (result rd n tok reason ok) Q {} σ := by
  refine wp_bind (wp_lockRow (fun τ _ _ => wp_bind (wp_rollback fun υ _ => wp_pure (hQ 0 υ))) fun τ r hl hv _ => ?_)
  have hc : τ.com outbox n = some r := hv
  have hcl : τ.ext.claim i = some tok := (Rely.claim hl.rely).trans hclaim
  show (discipline env calls).wp i (if r.lockedBy ≠ some tok then _ else _) Q _ τ
  by_cases hb : r.lockedBy = some tok
  · rw [if_neg (not_not.2 hb)]
    cases reason with
    | some why => exact wp_bind (wp_fold hc hb hcl rfl fun υ => wp_pure (hQ 0 υ))
    | none =>
      show (discipline env calls).wp i (if ok = true then _ else _) Q _ τ
      split_ifs with hpub hlast
      · refine wp_bind (wp_updateLocked rfl fun υ hl' => wp_bind (wp_commitRow r ?_ ?_ fun ω _ _ _ => wp_pure (hQ 1 ω)))
        · exact (hl'.com_eq (Own.put_row_self _ _ _)).trans hc
        · exact .publish r tok _ ((Rely.claim hl'.rely).trans hcl) hb
            (Rely.publishes hl'.rely _ (Rely.publishes hl.rely _ (hok hpub)))
      · exact wp_bind (wp_fold hc hb hcl rfl fun υ => wp_pure (hQ 0 υ))
      · refine wp_bind (wp_updateLocked rfl fun υ hl' => wp_bind (wp_commitRow r ?_ ?_ fun ω _ _ _ => wp_pure (hQ 0 ω)))
        · exact (hl'.com_eq (Own.put_row_self _ _ _)).trans hc
        · exact .retry r tok _ ((Rely.claim hl'.rely).trans hcl) hb (by omega)
  · rw [if_pos hb]
    exact wp_bind (wp_rollback fun υ _ => wp_pure (hQ 0 υ))

theorem wp_relayRounds {rds : List Round} {Q : Except Exn ℕ → Held P → State P → Prop} (hQ : ∀ k υ, Q (.ok k) {} υ) :
    (discipline env calls).wp i (relayRounds env rds) Q {} σ := by
  induction rds generalizing Q σ with
  | nil => exact wp_pure (hQ 0 σ)
  | cons rd rds ih =>
    unfold relayRounds
    by_cases hcan : (!rd.canPublish) = true
    · rw [if_pos hcan]
      exact wp_pure (hQ 0 σ)
    · rw [if_neg hcan]
      refine wp_bind (wp_claim (fun υ => wp_pure (hQ 0 υ)) fun υ n r tok hcl hcopy => ?_)
      show (discipline env calls).wp i (if (!rd.canPublishAfter) = true then _ else _) Q _ υ
      by_cases hafter : (!rd.canPublishAfter) = true
      · rw [if_pos hafter]
        exact wp_bind (wp_giveBack hcl fun ω => wp_pure (hQ 0 ω))
      · rw [if_neg hafter]
        refine wp_bind (wp_send hcopy fun ω ok hcl' hok => ?_)
        exact wp_bind (wp_result (hcl'.trans hcl) hok fun k χ => wp_bind (ih fun s ψ => wp_pure (hQ _ ψ)))

theorem wp_relayPoll {rds : List Round} {Q : Except Exn ℕ → Held P → State P → Prop} (hQ : ∀ k υ, Q (.ok k) {} υ) :
    (discipline env calls).wp i (relayPoll env rds) Q {} σ :=
  wp_bind (wp_relayRounds fun k _ => wp_bind (wp_rollback fun υ _ => wp_pure (hQ k υ)))

/-! ## The archive -/

/-- the rows that the batch has locked: committed, published, and owned unchanged -/
def Locked (o : Held P) (σ : State P) (rows : List (ℕ × OutboxMessage P)) : Prop :=
  ∀ n r, (n, r) ∈ rows → o.row outbox n = some (some r) ∧ σ.com outbox n = some r ∧ r.status = .published

theorem Locked.later {rows : List (ℕ × OutboxMessage P)} (h : Locked o σ rows)
    (hl : (discipline env calls).Later i o σ τ) : Locked o τ rows := by
  intro n r hn
  obtain ⟨ho, hc, hs⟩ := h n r hn
  exact ⟨ho, (hl.com_eq ho).trans hc, hs⟩

theorem wp_lockBatch {cutoff : ℤ} {k : ℕ} {ns : List ℕ}
    {Q : Except Exn (List (ℕ × OutboxMessage P)) → Held P → State P → Prop} (hi : Inv calls σ) (hf : σ.Fresh o)
    (hL : Lawful env calls i o σ) (hns : ns.Nodup) (hfree : ∀ n ∈ ns, o.row outbox n = none)
    (hQ : ∀ o' υ rows, (∀ t n v, o.row t n = some v → o'.row t n = some v) → Lawful env calls i o' υ →
      Locked o' υ rows → (rows.map Prod.fst).Nodup → (∀ n ∈ rows.map Prod.fst, n ∈ ns) →
      (discipline env calls).Later i o σ υ → Q (.ok rows) o' υ) :
    (discipline env calls).wp i (lockBatch cutoff k ns) Q o σ := by
  induction ns generalizing k o σ Q with
  | nil =>
    have hnil : lockBatch (P := P) cutoff k [] = pure [] := by cases k <;> rfl
    rw [hnil]
    exact wp_pure (hQ o σ [] (fun _ _ _ h => h) hL (fun _ _ h => by simp at h) List.nodup_nil (by simp)
      (Later.refl hi hf))
  | cons n ns ih =>
    obtain ⟨hn, hns⟩ := List.nodup_cons.1 hns
    cases k with
    | zero =>
      exact wp_pure (hQ o σ [] (fun _ _ _ h => h) hL (fun _ _ h => by simp at h) List.nodup_nil (by simp)
        (Later.refl hi hf))
    | succ k =>
      refine wp_bind (wp_tryLockRow (fun τ hl => ?_) fun τ r hl hv hp => ?_)
      · refine ih hl.inv hl.fresh (hL.later hl) hns (fun m hm => hfree m (List.mem_cons_of_mem _ hm)) ?_
        intro o' υ rows hle hL' hlock hnd hsub hl'
        exact hQ o' υ rows hle hL' hlock hnd (fun m hm => List.mem_cons_of_mem _ (hsub m hm)) (hl.trans hl')
      · have hfn := hfree n List.mem_cons_self
        have hc : τ.com outbox n = some r := by rwa [Own.view_of_none hfn] at hv
        have hpub : r.status = .published := by
          simp only [archivable, Bool.and_eq_true, beq_iff_eq] at hp
          exact hp.1
        have hL₁ : Lawful env calls i (o.put outbox n (some r)) τ :=
          (hL.later hl).put_outbox hc (fun v hv => by simp [hfn] at hv) (.keep _)
        have hfresh : τ.Fresh (o.put outbox n (some r)) := by
          intro t m hm
          obtain ⟨hcm, hom⟩ := hl.fresh t m hm
          refine ⟨hcm, ?_⟩
          rw [Own.put_row_of_ne _ _ _ fun ht hmn => ?_, hom]
          subst ht hmn
          rw [hc] at hcm
          simp at hcm
        refine wp_bind (ih hl.inv hfresh hL₁ hns (fun m hm => ?_) ?_)
        · have hne : m ≠ n := by
            rintro rfl
            exact hn hm
          rw [Own.put_row_of_ne _ _ _ fun _ => hne]
          exact hfree m (List.mem_cons_of_mem _ hm)
        · intro o' υ rows hle hL' hlock hnd hsub hl'
          refine wp_pure (hQ o' υ ((n, r) :: rows) (fun t m v hw => hle t m v (Own.put_row_of_some _ hfn hw)) hL' ?_ ?_
            ?_ (hl.trans (later_of_put hfn hl')))
          · intro m x hm
            rcases List.mem_cons.1 hm with heq | hm
            · simp only [Prod.mk.injEq] at heq
              obtain ⟨rfl, rfl⟩ := heq
              exact ⟨hle _ _ _ (Own.put_row_self _ _ _), (hl'.com_eq (Own.put_row_self _ _ _)).trans hc, hpub⟩
            · exact hlock m x hm
          · exact List.nodup_cons.2 ⟨fun hm => hn (hsub n hm), hnd⟩
          · intro m hm
            rcases List.mem_cons.1 hm with rfl | hm
            · exact List.mem_cons_self
            · exact List.mem_cons_of_mem _ (hsub m hm)

theorem wp_archiveRows {archivedAt : ℤ} {rows : List (ℕ × OutboxMessage P)}
    {Q : Except Exn Unit → Held P → State P → Prop} (hL : Lawful env calls i o σ) (hlock : Locked o σ rows)
    (hnd : (rows.map Prod.fst).Nodup) (hQ : ∀ o' υ, Lawful env calls i o' υ → Q (.ok ()) o' υ) :
    (discipline env calls).wp i (archiveRows archivedAt rows) Q o σ := by
  induction rows generalizing o σ with
  | nil => exact wp_pure (hQ o σ hL)
  | cons q rows ih =>
    obtain ⟨n, r⟩ := q
    obtain ⟨hn, hnd⟩ := List.nodup_cons.1 hnd
    have hlock' : Locked o σ rows := fun m x hm => hlock m x (List.mem_cons_of_mem _ hm)
    obtain ⟨ho, -, -⟩ := hlock n r List.mem_cons_self
    refine wp_bind (wp_insert fun τ hl => wp_bind (wp_deleteRow (fun υ hl' hmiss => ?_) fun υ r' hl' _ => ?_))
    · rw [Own.view, Own.put_row_other _ _ _ (by simp), ho] at hmiss
      simp at hmiss
    · have hfresh := hl.fresh archived _ (Nat.le_refl _)
      have hall := (hl.bump archived (τ.next archived)).trans (later_of_put hfresh.2 hl')
      obtain ⟨-, hc, hs⟩ := (hlock.later hall) n r List.mem_cons_self
      have harch : υ.com archived (τ.next archived) = none := by
        rw [hl'.com archived _ (by simp), Snap.bump_com, hfresh.1]
      refine ih ((hL.later hall).archive hc ho hs harch hfresh.2 rfl rfl) (fun m x hm => ?_) hnd
      obtain ⟨hom, hcm, hsm⟩ := (hlock'.later hall) m x hm
      refine ⟨?_, hcm, hsm⟩
      have hne : m ≠ n := by
        rintro rfl
        exact hn (List.mem_map.2 ⟨(m, x), hm, rfl⟩)
      rw [Own.put_row_of_ne _ _ _ fun _ => hne, Own.put_row_other _ _ _ (by simp), hom]

theorem wp_archivePublished {now retention archivedAt : ℤ} {limit : ℕ} {Q : Except Exn ℕ → Held P → State P → Prop}
    (hQ : ∀ k υ, Q (.ok k) {} υ) :
    (discipline env calls).wp i (archivePublished now retention archivedAt limit) Q {} σ := by
  refine wp_bind (wp_select fun τ hl l _ hsort => ?_)
  have hnd := nodup_numbers hsort
  refine wp_bind (wp_lockBatch hl.inv hl.fresh Lawful.empty hnd (fun _ _ => rfl) ?_)
  intro o' υ rows _ hL hlock hnd _ _
  show (discipline env calls).wp i (if rows = [] then _ else _) Q o' υ
  by_cases hrows : rows = []
  · rw [if_pos hrows]
    exact wp_bind (wp_rollback fun ω _ => wp_pure (hQ 0 ω))
  · rw [if_neg hrows]
    refine wp_bind (wp_archiveRows hL hlock hnd fun o₁ ω hL' => ?_)
    exact wp_bind (wp_commit fun χ hl => ⟨(hL'.later hl).good hl.inv, wp_pure (hQ _ _)⟩)

end LkmService.Outbox
