/-
A grant and its reason (`submit_attempt`, `review_application`, `internal_grant`).

The account rises in a transaction of the service of the accounts, the reason is committed later in that of the request,
and nothing takes the grant back. Of a submission whose connection is lost in between, the account has risen and there is
no certificate; and the other way round, an answer that is sent before the grant is saved lets the reason be committed
alone (`raised_alone`).

- `Written`: what a request has written, and which of it has been asked for.
- `careful`: a session that fails has raised no account, and an answer is not sent for a grant that is not saved.
- `stands_together`: in a run in which every move is careful, when the sessions that have begun have ended, an account was
  raised for a reason that is committed, and what a committed reason gives has been granted.
-/
import LkmService.Exams.Once

namespace LkmService.Exams

open Session Sql Sql.Discipline Auth Tbl

variable {norm : String → String} {policy : Policy} {i n m : ℕ} {o : Held} {σ τ υ : State} {reason : Reason} {user : UserId}

/-! ## Reasons -/

/-- the reason is committed -/
def Justified (σ : State) : Reason → UserId → Prop
  | .certificate n, user =>
    ∃ c e, σ.com certificates n = some c ∧ c.userId = user ∧ σ.com exams c.examId = some e ∧ e.unlocks = true
  | .application n, user => ∃ a, σ.com applications n = some a ∧ a.applicantId = user ∧ a.status = .approved

/-- the session has written the reason -/
def Carried (o : Held) (σ : State) : Reason → UserId → Prop
  | .certificate n, user =>
    ∃ c e, o.row certificates n = some (some c) ∧ c.userId = user ∧ σ.com exams c.examId = some e ∧ e.unlocks = true
  | .application n, user => ∃ a, o.row applications n = some (some a) ∧ a.applicantId = user ∧ a.status = .approved

/-- a grant for the reason has gone through -/
def Granted (s : Service) (reason : Reason) (user : UserId) : Prop := ∃ g ∈ s.log, g.reason = reason ∧ g.user = user

structure Grows (σ τ : State) : Prop where
  exams : τ.com exams = σ.com exams
  justified : ∀ reason user, Justified σ reason user → Justified τ reason user
  log : ∀ g ∈ σ.ext.log, g ∈ τ.ext.log

theorem Grows.refl (σ : State) : Grows σ σ := ⟨rfl, fun _ _ h => h, fun _ h => h⟩

theorem Grows.trans (h : Grows σ τ) (h' : Grows τ υ) : Grows σ υ :=
  ⟨h'.exams.trans h.exams, fun reason user hj => h'.justified reason user (h.justified reason user hj),
    fun g hg => h'.log g (h.log g hg)⟩

theorem Grows.granted (h : Grows σ τ) (hg : Granted σ.ext reason user) : Granted τ.ext reason user := by
  obtain ⟨g, hmem, hreason, huser⟩ := hg
  exact ⟨g, h.log g hmem, hreason, huser⟩

theorem Grows.carried (h : Grows σ τ) : Carried o τ reason user ↔ Carried o σ reason user := by
  cases reason with
  | certificate n => rw [Carried, Carried, h.exams]
  | application n => exact Iff.rfl

/-- an account that changes is raised -/
def Changes (s s' : Service) : Prop :=
  ∀ user, s'.account user ≠ s.account user → ∃ g ∈ s'.log, g.user = user ∧ g.raised = true

theorem Changes.refl (s : Service) : Changes s s := fun _ h => absurd rfl h

theorem Changes.trans {s s' s'' : Service} (h : Changes s s') (h' : Changes s' s'') (hlog : ∀ g ∈ s'.log, g ∈ s''.log) :
    Changes s s'' := by
  intro user huser
  by_cases hsame : s''.account user = s'.account user
  · obtain ⟨g, hg, hrest⟩ := h user (hsame ▸ huser)
    exact ⟨g, hlog g hg, hrest⟩
  · exact h' user hsame

/-! ## The discipline -/

/-- the grant finds nothing to change -/
def harmless (s : Service) (user : UserId) (raise : Raise) : Bool :=
  match raise.on (s.account user) with
  | .ok result => decide (result.2 = 0)
  | .error _ => true

/-- no answer is sent for a grant that is not saved -/
def Saved {β : Type} (x : Fx β) (σ : State) : Prop :=
  match x with
  | .grant user raise _ .unsaved => harmless σ.ext user raise = true
  | _ => True

def backing : Discipline Row Empty Fx Service where
  inv σ := ∀ reason user, Justified σ reason user → Granted σ.ext reason user
  rely i _ σ τ := Grows σ τ ∧ ∀ g ∈ τ.ext.log, g.session = i → g ∈ σ.ext.log
  act i σ τ := Grows σ τ ∧ Changes σ.ext τ.ext ∧ ∀ g ∈ τ.ext.log, g.session ≠ i → g ∈ σ.ext.log
  ok _ x _ σ := Saved x σ
  rely_refl _ _ σ := ⟨Grows.refl σ, fun _ h _ => h⟩
  rely_trans _ _ _ _ _ h h' := ⟨h.1.trans h'.1, fun g hg hi => h.2 g (h'.2 g hg hi) hi⟩
  act_refl _ σ _ := ⟨Grows.refl σ, Changes.refl _, fun _ h _ => h⟩
  grow_inv _ _ _ h := h
  grow_act _ _ _ _ _ := ⟨⟨rfl, fun _ _ h => h, fun _ h => h⟩, Changes.refl _, fun _ h _ => h⟩
  grow_rely _ _ _ _ _ _ := ⟨⟨rfl, fun _ _ h => h, fun _ h => h⟩, fun _ h _ => h⟩

instance : Lockless backing := ⟨fun _ _ _ => trivial⟩

/-! ## What a request has written -/

/-- `owed` is the reason that is written and not asked for yet -/
structure Written (i : ℕ) (owed : Option (Reason × UserId)) (o : Held) (σ : State) : Prop where
  exams : o.row exams = fun _ => none
  certificate : ∀ n v, o.row certificates n = some v → σ.com certificates n = none ∧ ∃ c, v = some c
  application : ∀ n v, o.row applications n = some v → ∃ a a', σ.com applications n = some a ∧ a.status = .pending ∧ v = some a'
  asked : ∀ reason user, Carried o σ reason user → Granted σ.ext reason user ∨ owed = some (reason, user)
  covered : ∀ g ∈ σ.ext.log, g.session = i → g.raised = true →
    Justified σ g.reason g.user ∨ Carried o σ g.reason g.user

variable {owed : Option (Reason × UserId)}

/-- a session that owes nothing has been granted what it carries -/
theorem Written.granted {reason : Reason} {user : UserId} (h : Written i none o σ) (hc : Carried o σ reason user) :
    Granted σ.ext reason user :=
  (h.asked reason user hc).resolve_right fun howed => by cases howed

theorem Written.stays (h : Written i owed o σ) (hrely : Grows σ τ ∧ ∀ g ∈ τ.ext.log, g.session = i → g ∈ σ.ext.log)
    (hcom : ∀ t n, o.row t n ≠ none → τ.com t n = σ.com t n) : Written i owed o τ := by
  obtain ⟨hgrows, hmine⟩ := hrely
  refine ⟨h.exams, fun n v hv => ?_, fun n v hv => ?_, fun reason user hc => ?_, fun g hg hi hraised => ?_⟩
  · rw [hcom certificates n (by rw [hv]; nofun)]
    exact h.certificate n v hv
  · rw [hcom applications n (by rw [hv]; nofun)]
    exact h.application n v hv
  · rcases h.asked reason user (hgrows.carried.1 hc) with hgranted | howed
    · exact .inl (hgrows.granted hgranted)
    · exact .inr howed
  · rcases h.covered g (hmine g hg hi) hi hraised with hjustified | hcarried
    · exact .inl (hgrows.justified _ _ hjustified)
    · exact .inr (hgrows.carried.2 hcarried)

theorem Written.later (h : Written i owed o σ) (hl : backing.Later i o σ τ) : Written i owed o τ :=
  h.stays hl.rely hl.com

theorem Written.bump (h : Written i owed o σ) (t : Tbl) (n : ℕ) : Written i owed o (σ.bump t n) :=
  ⟨h.exams, h.certificate, h.application, h.asked, h.covered⟩

/-- what is not written is not owed -/
theorem Written.settle (h : Written i (some (reason, user)) o σ) (hnot : ¬ Carried o σ reason user) : Written i none o σ := by
  refine ⟨h.exams, h.certificate, h.application, fun r u hc => ?_, h.covered⟩
  rcases h.asked r u hc with hgranted | howed
  · exact .inl hgranted
  · obtain ⟨rfl, rfl⟩ := exec_inj howed
    exact absurd hc hnot

/-- rows that are no reasons -/
theorem Written.put {t : Tbl} (h : Written i owed o σ) (n : ℕ) (v : Option (Row t))
    (ht : t ≠ Tbl.exams ∧ t ≠ certificates ∧ t ≠ applications) : Written i owed (o.put t n v) σ := by
  have hexams : (o.put t n v).row Tbl.exams = o.row Tbl.exams := Own.put_row_other t n v ht.1.symm
  have hcertificates : (o.put t n v).row certificates = o.row certificates := Own.put_row_other t n v ht.2.1.symm
  have happlications : (o.put t n v).row applications = o.row applications := Own.put_row_other t n v ht.2.2.symm
  have hcarried : ∀ reason user, Carried (o.put t n v) σ reason user ↔ Carried o σ reason user := by
    intro reason user
    cases reason with
    | certificate n => rw [Carried, Carried, hcertificates]
    | application n => rw [Carried, Carried, happlications]
  refine ⟨by rw [hexams]; exact h.exams, by rw [hcertificates]; exact h.certificate,
    by rw [happlications]; exact h.application, fun reason user hc => h.asked reason user ((hcarried _ _).1 hc),
    fun g hg hi hraised => ?_⟩
  rcases h.covered g hg hi hraised with hjustified | hc
  · exact .inl hjustified
  · exact .inr ((hcarried _ _).2 hc)

/-- a reason of the session stays one when another row is taken -/
theorem Carried.put {t : Tbl} (h : Carried o σ reason user) (n : ℕ) (v : Option (Row t)) (hn : o.row t n = none) :
    Carried (o.put t n v) σ reason user := by
  cases reason with
  | certificate m =>
    obtain ⟨c, e, hc, hrest⟩ := h
    exact ⟨c, e, Own.put_row_of_some v hn hc, hrest⟩
  | application m =>
    obtain ⟨a, ha, hrest⟩ := h
    exact ⟨a, Own.put_row_of_some v hn ha, hrest⟩

theorem Written.put_certificate (h : Written i none o σ) (c : Certificate) (hown : o.row certificates n = none)
    (hcom : σ.com certificates n = none) :
    Written i (some (.certificate n, c.userId)) (o.put certificates n (some c)) σ := by
  have hself : (o.put certificates n (some c)).row certificates n = some (some c) := Own.put_row_self _ _ _
  have hother : ∀ m, m ≠ n → (o.put certificates n (some c)).row certificates m = o.row certificates m :=
    fun m hm => Own.put_row_of_ne _ _ _ fun _ => hm
  have hexams : (o.put certificates n (some c)).row Tbl.exams = o.row Tbl.exams := Own.put_row_other _ _ _ nofun
  have happlications : (o.put certificates n (some c)).row applications = o.row applications :=
    Own.put_row_other _ _ _ nofun
  refine ⟨by rw [hexams]; exact h.exams, fun m v hv => ?_, by rw [happlications]; exact h.application,
    fun reason user hc => ?_, fun g hg hi hraised => ?_⟩
  · by_cases hm : m = n
    · subst hm
      rw [hself] at hv
      exact ⟨hcom, c, (Option.some.inj hv).symm⟩
    · rw [hother m hm] at hv
      exact h.certificate m v hv
  · cases reason with
    | certificate m =>
      by_cases hm : m = n
      · subst hm
        obtain ⟨c', e, hc', huser, -⟩ := hc
        rw [hself] at hc'
        obtain rfl : c = c' := Option.some.inj (Option.some.inj hc')
        right
        rw [huser]
      · rw [Carried, hother m hm] at hc
        exact .inl (h.granted hc)
    | application m =>
      rw [Carried, happlications] at hc
      exact .inl (h.granted hc)
  · rcases h.covered g hg hi hraised with hjustified | hcarried
    · exact .inl hjustified
    · exact .inr (hcarried.put n _ hown)

theorem Written.put_application (h : Written i none o σ) {a a' : Application} (hown : o.row applications n = none)
    (hcom : σ.com applications n = some a) (hpending : a.status = .pending) :
    Written i (some (.application n, a'.applicantId)) (o.put applications n (some a')) σ := by
  have hself : (o.put applications n (some a')).row applications n = some (some a') := Own.put_row_self _ _ _
  have hother : ∀ m, m ≠ n → (o.put applications n (some a')).row applications m = o.row applications m :=
    fun m hm => Own.put_row_of_ne _ _ _ fun _ => hm
  have hexams : (o.put applications n (some a')).row Tbl.exams = o.row Tbl.exams := Own.put_row_other _ _ _ nofun
  have hcertificates : (o.put applications n (some a')).row certificates = o.row certificates :=
    Own.put_row_other _ _ _ nofun
  refine ⟨by rw [hexams]; exact h.exams, by rw [hcertificates]; exact h.certificate, fun m v hv => ?_,
    fun reason user hc => ?_, fun g hg hi hraised => ?_⟩
  · by_cases hm : m = n
    · subst hm
      rw [hself] at hv
      exact ⟨a, a', hcom, hpending, (Option.some.inj hv).symm⟩
    · rw [hother m hm] at hv
      exact h.application m v hv
  · cases reason with
    | certificate m =>
      rw [Carried, hcertificates] at hc
      exact .inl (h.granted hc)
    | application m =>
      by_cases hm : m = n
      · subst hm
        obtain ⟨b, hb, huser, -⟩ := hc
        rw [hself] at hb
        obtain rfl : a' = b := Option.some.inj (Option.some.inj hb)
        right
        rw [huser]
      · rw [Carried, hother m hm] at hc
        exact .inl (h.granted hc)
  · rcases h.covered g hg hi hraised with hjustified | hcarried
    · exact .inl hjustified
    · exact .inr (hcarried.put n _ hown)

/-! ## Grants -/

/-- what a call does to the log -/
theorem exec_log (s : Service) (i : ℕ) (user : UserId) (raise : Raise) (reason : Reason) (call : Call) :
    (∀ g ∈ s.log, g ∈ (Effects.exec i (Fx.grant user raise reason call) s).2.log) ∧
    (∀ g ∈ (Effects.exec i (Fx.grant user raise reason call) s).2.log,
      g ∈ s.log ∨ g.session = i ∧ g.reason = reason ∧ g.user = user) ∧
    ((call = .unsaved → harmless s user raise = true) →
      (Effects.exec i (Fx.grant user raise reason call) s).1 = true →
      Granted (Effects.exec i (Fx.grant user raise reason call) s).2 reason user) := by
  have hrecord : ∀ (t : Service) (b : Bool), t.log = s.log →
      (∀ g ∈ s.log, g ∈ (t.record ⟨i, user, reason, b⟩).log) ∧
      (∀ g ∈ (t.record ⟨i, user, reason, b⟩).log, g ∈ s.log ∨ g.session = i ∧ g.reason = reason ∧ g.user = user) ∧
      Granted (t.record ⟨i, user, reason, b⟩) reason user := by
    intro t b ht
    have hlog : (t.record ⟨i, user, reason, b⟩).log = s.log ++ [⟨i, user, reason, b⟩] := by rw [Service.record, ht]
    refine ⟨fun g hg => ?_, fun g hg => ?_, ⟨i, user, reason, b⟩, ?_, rfl, rfl⟩
    · rw [hlog]
      exact List.mem_append_left _ hg
    · rw [hlog] at hg
      rcases List.mem_append.1 hg with hold | hnew
      · exact .inl hold
      · obtain rfl := List.mem_singleton.1 hnew
        exact .inr ⟨rfl, rfl, rfl⟩
    · rw [hlog]
      exact List.mem_append_right _ (List.mem_singleton.2 rfl)
  have hsame : (∀ g ∈ s.log, g ∈ (s.ask reason).log) ∧
      (∀ g ∈ (s.ask reason).log, g ∈ s.log ∨ g.session = i ∧ g.reason = reason ∧ g.user = user) :=
    ⟨fun _ h => h, fun _ h => .inl h⟩
  change (∀ g ∈ s.log, g ∈ ((s.ask reason).grant i user raise reason call).2.log) ∧
    (∀ g ∈ ((s.ask reason).grant i user raise reason call).2.log,
      g ∈ s.log ∨ g.session = i ∧ g.reason = reason ∧ g.user = user) ∧
    ((call = .unsaved → harmless s user raise = true) → ((s.ask reason).grant i user raise reason call).1 = true →
      Granted ((s.ask reason).grant i user raise reason call).2 reason user)
  have haccount : (s.ask reason).account = s.account := rfl
  unfold Service.grant
  rw [haccount]
  rcases hr : raise.on (s.account user) with x | result
  · exact ⟨hsame.1, hsame.2, fun _ => nofun⟩
  · cases call with
    | lost => exact ⟨hsame.1, hsame.2, fun _ => nofun⟩
    | unanswered =>
      obtain ⟨hkeep, hnew, -⟩ := hrecord { s.ask reason with account := Function.update s.account user result.1 }
        (decide (result.2 ≠ 0)) rfl
      exact ⟨hkeep, hnew, fun _ => nofun⟩
    | unsaved =>
      dsimp only
      split_ifs with hzero
      · obtain ⟨hkeep, hnew, hgranted⟩ := hrecord (s.ask reason) false rfl
        exact ⟨hkeep, hnew, fun _ _ => hgranted⟩
      · refine ⟨hsame.1, hsame.2, fun hharmless _ => ?_⟩
        have hzero' := hharmless rfl
        rw [harmless, hr] at hzero'
        exact absurd (of_decide_eq_true hzero') hzero
    | answered =>
      obtain ⟨hkeep, hnew, hgranted⟩ := hrecord { s.ask reason with account := Function.update s.account user result.1 }
        (decide (result.2 ≠ 0)) rfl
      exact ⟨hkeep, hnew, fun _ _ => hgranted⟩

/-- a count of zero is one of no change -/
def Raise.Honest (raise : Raise) : Prop := ∀ a b, raise a = .ok (b, 0) → b = a

theorem honest_examUnlock (policy : Policy) (level role : Option String) :
    Raise.Honest fun a => grantExamUnlock policy a level role := by
  intro a b h
  unfold grantExamUnlock applyUpgrades at h
  dsimp only at h
  split_ifs at h
  · exact (congrArg Prod.fst (Except.ok.inj h)).symm
  · exact absurd (congrArg Prod.snd (Except.ok.inj h)) Nat.one_ne_zero
  · exact absurd (congrArg Prod.snd (Except.ok.inj h)) Nat.one_ne_zero
  · exact (congrArg Prod.fst (Except.ok.inj h)).symm

theorem honest_incubation (policy : Policy) : Raise.Honest (grantIncubation policy) := by
  intro a b h
  unfold grantIncubation at h
  dsimp only at h
  split_ifs at h
  · exact absurd (congrArg Prod.snd (Except.ok.inj h)) Nat.one_ne_zero
  · exact absurd (congrArg Prod.snd (Except.ok.inj h)) Nat.one_ne_zero
  · exact (congrArg Prod.fst (Except.ok.inj h)).symm

theorem Raise.Honest.on {raise : Raise} (h : raise.Honest) {account : Option Account} {result : Option Account × ℕ}
    (hr : raise.on account = .ok result) (hzero : result.2 = 0) : result.1 = account := by
  cases account with
  | none =>
    obtain rfl := Except.ok.inj hr
    rfl
  | some a =>
    rcases ha : raise a with x | ⟨b, k⟩
    · rw [Raise.on, ha] at hr
      cases hr
    · rw [Raise.on, ha] at hr
      obtain rfl := Except.ok.inj hr
      have hk : k = 0 := hzero
      subst hk
      exact congrArg some (h a b ha)

/-- what a call does to the accounts -/
theorem exec_account {raise : Raise} (h : raise.Honest) (s : Service) (i : ℕ) (user : UserId) (reason : Reason)
    (call : Call) : Changes s (Effects.exec i (Fx.grant user raise reason call) s).2 := by
  change Changes s ((s.ask reason).grant i user raise reason call).2
  have hsave : ∀ result, raise.on (s.account user) = .ok result →
      Changes s ((s.ask reason).save i user reason result) := by
    intro result hr user' huser'
    have haccount : ((s.ask reason).save i user reason result).account = Function.update s.account user result.1 := rfl
    have hlog : ((s.ask reason).save i user reason result).log =
        s.log ++ [⟨i, user, reason, decide (result.2 ≠ 0)⟩] := rfl
    by_cases hsame : user' = user
    · subst hsame
      refine ⟨⟨i, user', reason, decide (result.2 ≠ 0)⟩, ?_, rfl, ?_⟩
      · rw [hlog]
        exact List.mem_append_right _ (List.mem_singleton.2 rfl)
      · refine decide_eq_true fun hzero => huser' ?_
        rw [haccount, Function.update_self]
        exact h.on hr hzero
    · rw [haccount, Function.update_of_ne hsame] at huser'
      exact absurd rfl huser'
  have hstay : Changes s (s.ask reason) := fun _ hne => absurd rfl hne
  unfold Service.grant
  rcases hr : raise.on ((s.ask reason).account user) with x | result
  · exact hstay
  · cases call with
    | lost => exact hstay
    | unanswered => exact hsave result hr
    | unsaved =>
      dsimp only
      split_ifs
      · exact fun _ hne => absurd rfl hne
      · exact hstay
    | answered => exact hsave result hr

/-- what is owed is asked for -/
theorem wp_grant {raise : Raise} {call : Call} (hhonest : raise.Honest) (h : Written i (some (reason, user)) o σ)
    (hc : Carried o σ reason user) :
    backing.wp i (grantFromBusiness user raise reason call) (Returns fun _ o τ => Written i none o τ) o σ := by
  unfold grantFromBusiness
  refine wp_bind (wp_perform ?_)
  intro τ hl hok
  obtain ⟨hkeep, hnew, hgranted⟩ := exec_log τ.ext i user raise reason call
  have hlater := h.later hl
  have hcarried : Carried o τ reason user := hl.rely.1.carried.2 hc
  have hgrows : Grows τ { τ with ext := (Effects.exec i (Fx.grant user raise reason call) τ.ext).2 } :=
    ⟨rfl, fun _ _ hj => hj, hkeep⟩
  refine ⟨⟨fun r u hj => hgrows.granted (hl.inv r u hj), ⟨hgrows, exec_account hhonest _ _ _ _ _, fun g hg hi => ?_⟩,
    fun j hj _ _ => ⟨hgrows, fun g hg hi => ?_⟩⟩, ?_⟩
  · rcases hnew g hg with hold | ⟨hsession, -⟩
    · exact hold
    · exact absurd hsession hi
  · rcases hnew g hg with hold | ⟨hsession, -⟩
    · exact hold
    · exact absurd (hi.symm.trans hsession) hj
  · dsimp only
    split_ifs with hanswer
    · have hsaved : Granted (Effects.exec i (Fx.grant user raise reason call) τ.ext).2 reason user := by
        refine hgranted ?_ hanswer
        intro hcall
        subst hcall
        exact hok
      refine wp_return ⟨hlater.exams, hlater.certificate, hlater.application, fun r u hc' => ?_, fun g hg hi hraised => ?_⟩
      · left
        rcases hlater.asked r u hc' with hother | howed
        · exact hgrows.granted hother
        · obtain ⟨rfl, rfl⟩ := exec_inj howed
          exact hsaved
      · rcases hnew g hg with hold | ⟨-, hreason, huser⟩
        · exact hlater.covered g hold hi hraised
        · rw [hreason, huser]
          exact .inr hcarried
    · exact wp_fail _

/-! ## Requests -/

theorem startAttempt_written {exam : ℕ} {now : Clock} (h : Written i none {} σ) :
    backing.wp i (startAttempt exam user now) (Returns fun _ => Written i none) {} σ := by
  unfold startAttempt
  refine wp_seq (wp_getOrRaise (P := fun _ o τ => Written i none o τ) fun τ _ hl _ => h.later hl) ?_
  intro e o τ h
  split
  · exact wp_fail _
  split
  · exact wp_fail _
  refine wp_seq (wp_alreadyPassed (P := fun _ o τ => Written i none o τ) (fun _ => h) fun υ _ hl => h.later hl) ?_
  intro b o τ h
  split
  · exact wp_fail _
  refine wp_seq (P := fun _ => Written i none) (wp_insert ?_) ?_
  · intro υ hl
    exact ((h.later hl).put _ _ (by decide)).bump _ _
  · intro n o τ h
    exact wp_return h

theorem applyUnlock_written {e : Exam} {call : Call} {c : Certificate}
    (h : Written i (some (.certificate m, c.userId)) o σ) (hown : o.row certificates m = some (some c))
    (he : σ.com exams c.examId = some e) :
    backing.wp i (applyUnlock policy e c.userId m call) (Returns fun _ => Written i none) o σ := by
  unfold applyUnlock
  split_ifs with hunlocks
  · exact wp_grant (honest_examUnlock policy e.unlockLevel e.unlockRole) h ⟨c, e, hown, rfl, he, hunlocks⟩
  · refine wp_return (h.settle ?_)
    intro ⟨c', e', hown', _, he', hunlocks'⟩
    obtain rfl : c = c' := Option.some.inj (Option.some.inj (hown.symm.trans hown'))
    obtain rfl : e = e' := Option.some.inj (he.symm.trans he')
    exact hunlocks hunlocks'

theorem submitAttempt_written {attempt : ℕ} {answers : Answers} {now : Clock} {call : Call} (h : Written i none {} σ) :
    backing.wp i (submitAttempt norm policy attempt user answers now call) (Returns fun _ => Written i none) {} σ := by
  unfold submitAttempt
  refine wp_seq (wp_getOrRaise (P := fun _ o τ => o = {} ∧ Written i none {} τ) fun τ _ hl _ => ⟨rfl, h.later hl⟩) ?_
  rintro a o τ ⟨rfl, h⟩
  split_ifs with huser hstatus
  · exact wp_fail _
  · exact wp_fail _
  refine wp_seq (wp_getOrRaise (P := fun e o τ => o = {} ∧ τ.com exams a.examId = some e ∧ Written i none {} τ)
    fun υ e hl he => ⟨rfl, he, h.later hl⟩) ?_
  rintro e o τ ⟨rfl, he, h⟩
  split
  · exact wp_fail _
  refine wp_seq (wp_alreadyPassed (P := fun _ o τ => o = {} ∧ τ.com exams a.examId = some e ∧ Written i none {} τ)
    (fun _ => ⟨rfl, he, h⟩) fun υ b hl => ⟨rfl, by rw [hl.rely.1.exams]; exact he, h.later hl⟩) ?_
  rintro b o τ ⟨rfl, he, h⟩
  split_ifs
  · exact wp_fail _
  refine wp_seq (wp_flushRow (P := fun _ o τ => (∀ n, o.row certificates n = none) ∧ τ.com exams a.examId = some e ∧
    Written i none o τ) ?_) ?_
  · intro υ row hl _
    refine ⟨fun n => by simp [Own.put_row_other], by rw [hl.rely.1.exams]; exact he, ?_⟩
    exact (h.later hl).put _ _ (by decide)
  rintro _ o τ ⟨hnone, he, h⟩
  split_ifs
  · refine wp_seq (P := fun m o τ => o.row certificates m = some (some ⟨a.examId, user, scoreAttempt norm e answers, true, attempt⟩) ∧
      τ.com exams a.examId = some e ∧ Written i (some (.certificate m, user)) o τ) (wp_insert ?_) ?_
    · intro υ hl
      refine ⟨Own.put_row_self _ _ _, by rw [Snap.bump_com, hl.rely.1.exams]; exact he, ?_⟩
      exact ((h.later hl).put_certificate ⟨a.examId, user, scoreAttempt norm e answers, true, attempt⟩ (hnone _)
        (hl.fresh certificates _ le_rfl).1).bump _ _
    rintro m o τ ⟨hown, he, h⟩
    refine wp_seq (applyUnlock_written h hown he) ?_
    intro _ o τ h
    refine wp_seq (P := fun _ => Written i none) (wp_insert ?_) ?_
    · intro υ hl
      exact ((h.later hl).put _ _ (by decide)).bump _ _
    · intro k o τ h
      exact wp_return h
  · exact wp_return h

theorem addMembers_written {project k : ℕ} {claims : List Claim} (h : Written i owed o σ)
    (hc : Carried o σ reason user) :
    backing.wp i (addMembers project claims k) (Returns fun _ o τ => Written i owed o τ ∧ Carried o τ reason user) o σ := by
  induction claims generalizing k o σ with
  | nil => exact wp_return ⟨h, hc⟩
  | cons c claims ih =>
    unfold addMembers
    refine wp_seq (P := fun _ o τ => Written i owed o τ ∧ Carried o τ reason user) (wp_insert ?_) ?_
    · intro τ hl
      refine ⟨((h.later hl).put _ _ (by decide)).bump _ _, ?_⟩
      exact (hl.rely.1.carried.2 hc).put _ _ (hl.fresh members _ le_rfl).2
    · rintro _ o τ ⟨h, hc⟩
      exact ih h hc

theorem incubate_written {application : ℕ} {a : Application} {claims : List Claim} {call : Call}
    (h : Written i (some (.application application, a.applicantId)) o σ)
    (hc : Carried o σ (.application application) a.applicantId) :
    backing.wp i (incubate policy application a claims call) (Returns fun _ => Written i none) o σ := by
  unfold incubate
  refine wp_seq (P := fun _ o τ => Written i (some (.application application, a.applicantId)) o τ ∧
    Carried o τ (.application application) a.applicantId) (wp_insert ?_) ?_
  · intro τ hl
    refine ⟨((h.later hl).put _ _ (by decide)).bump _ _, ?_⟩
    exact (hl.rely.1.carried.2 hc).put _ _ (hl.fresh projects _ le_rfl).2
  intro project o τ ⟨h, hc⟩
  refine wp_seq (addMembers_written h hc) ?_
  intro _ o τ ⟨h, hc⟩
  exact wp_grant (honest_incubation policy) h hc

theorem recordAudit_written {application : ℕ} {approve : Bool} {call : Call} (h : Written i none o σ) :
    backing.wp i (do recordAudit call; pure (.reviewed application (reviewed approve)) : Op Response)
      (Returns fun _ => Written i none) o σ := by
  unfold recordAudit
  refine wp_seq (wp_bind (wp_perform ?_)) fun _ _ _ h => wp_return h
  intro τ hl _
  refine ⟨⟨hl.inv, ⟨Grows.refl τ, Changes.refl _, fun _ hg _ => hg⟩, fun _ _ _ _ => ⟨Grows.refl τ, fun _ hg _ => hg⟩⟩, ?_⟩
  dsimp only
  split_ifs
  · exact wp_return (h.later hl)
  · exact wp_fail _

/-- the row that a review has decided -/
structure Decided (i application : ℕ) (approve : Bool) (a : Application) (o : Held) (σ : State) : Prop where
  written : Written i (some (.application application, a.applicantId)) o σ
  own : o.row applications application = some (some a)
  status : a.status = Exams.reviewed approve

theorem decide_written {application : ℕ} {reviewer : UserId} {approve : Bool} {note : Option String} {time : ℤ}
    (h : o = {} ∧ Written i none {} σ) :
    backing.wp i (updateRow applications application (fun r => decide (r.status = .pending))
        (Application.review approve reviewer note time) : Op (Option Application))
      (Returns fun r o τ => ∀ a, r = some a → Decided i application approve a o τ) o σ := by
  obtain ⟨rfl, h⟩ := h
  refine wp_updateRow ?_ ?_
  · intro τ _ _ a ha
    cases ha
  · intro τ r hl hv hp a ha
    obtain rfl := Option.some.inj ha
    exact ⟨(h.later hl).put_application rfl hv (of_decide_eq_true hp), Own.put_row_self _ _ _, rfl⟩

theorem reviewApplication_written {application : ℕ} {reviewer : UserId} {approve : Bool} {note : Option String} {time : ℤ}
    {calls : Calls} (h : Written i none {} σ) :
    backing.wp i (reviewApplication policy application reviewer approve note time calls)
      (Returns fun _ => Written i none) {} σ := by
  unfold reviewApplication
  refine wp_seq (wp_getOrRaise (P := fun _ o τ => o = {} ∧ Written i none {} τ) fun τ _ hl _ => ⟨rfl, h.later hl⟩) ?_
  intro a o τ h
  split
  · exact wp_fail _
  cases approve with
  | false =>
    refine wp_seq (decide_written h) ?_
    intro r o τ h
    cases r with
    | none => exact wp_fail _
    | some a =>
      obtain ⟨hwritten, hown, hstatus⟩ := h a rfl
      refine recordAudit_written (hwritten.settle ?_)
      intro ⟨b, hb, _, hbstatus⟩
      obtain rfl : a = b := Option.some.inj (Option.some.inj (hown.symm.trans hb))
      rw [hstatus] at hbstatus
      cases hbstatus
  | true =>
    have hpresent : backing.wp i (assertMemberUsersExist (a.memberClaims.filterMap Claim.userId) calls.present)
        (Returns fun _ o τ => o = {} ∧ Written i none {} τ) o τ := by
      unfold assertMemberUsersExist
      split_ifs
      · exact wp_return h
      · exact wp_fail _
    refine wp_seq hpresent ?_
    intro _ o τ h
    refine wp_seq (decide_written h) ?_
    intro r o τ h
    cases r with
    | none => exact wp_fail _
    | some a =>
      obtain ⟨hwritten, hown, hstatus⟩ := h a rfl
      refine wp_seq (incubate_written hwritten ⟨a, hown, rfl, hstatus⟩) ?_
      intro _ o τ h
      exact recordAudit_written h

theorem body_written (r : Request) (h : Written i none {} σ) :
    backing.wp i (r.body norm policy) (Returns fun _ => Written i none) {} σ := by
  cases r with
  | start exam user now => exact startAttempt_written h
  | submit attempt user answers now call => exact submitAttempt_written h
  | review application reviewer approve note now calls => exact reviewApplication_written h

/-! ## Commits -/

theorem Written.justified (h : Written i none o σ) (hj : Justified σ reason user) : Justified (σ.merge o) reason user := by
  have hexams : (σ.merge o).com Tbl.exams = σ.com Tbl.exams := funext fun n => Snap.merge_of_none (congrFun h.exams n) σ
  cases reason with
  | certificate n =>
    obtain ⟨c, e, hc, huser, he, hunlocks⟩ := hj
    have hnone : o.row certificates n = none := by
      rcases hrow : o.row certificates n with _ | v
      · rfl
      · rw [(h.certificate n v hrow).1] at hc
        cases hc
    exact ⟨c, e, by rw [Snap.merge_of_none hnone]; exact hc, huser, by rw [hexams]; exact he, hunlocks⟩
  | application n =>
    obtain ⟨a, ha, huser, happroved⟩ := hj
    have hnone : o.row applications n = none := by
      rcases hrow : o.row applications n with _ | v
      · rfl
      · obtain ⟨b, -, hb, hpending, -⟩ := h.application n v hrow
        obtain rfl : a = b := Option.some.inj (ha.symm.trans hb)
        rw [hpending] at happroved
        cases happroved
    exact ⟨a, by rw [Snap.merge_of_none hnone]; exact ha, huser, happroved⟩

theorem Written.carried (h : Written i none o σ) (hc : Carried o σ reason user) : Justified (σ.merge o) reason user := by
  have hexams : (σ.merge o).com Tbl.exams = σ.com Tbl.exams := funext fun n => Snap.merge_of_none (congrFun h.exams n) σ
  cases reason with
  | certificate n =>
    obtain ⟨c, e, hrow, huser, he, hunlocks⟩ := hc
    exact ⟨c, e, Snap.merge_of_some hrow σ, huser, by rw [hexams]; exact he, hunlocks⟩
  | application n =>
    obtain ⟨a, hrow, huser, happroved⟩ := hc
    exact ⟨a, Snap.merge_of_some hrow σ, huser, happroved⟩

/-- a reason that the commit brings is one of the session -/
theorem Written.of_merge (h : Written i none o σ) (hj : Justified (σ.merge o) reason user) :
    Justified σ reason user ∨ Carried o σ reason user := by
  have hexams : (σ.merge o).com Tbl.exams = σ.com Tbl.exams := funext fun n => Snap.merge_of_none (congrFun h.exams n) σ
  cases reason with
  | certificate n =>
    obtain ⟨c, e, hc, huser, he, hunlocks⟩ := hj
    rw [hexams] at he
    rcases Snap.merge_cases hc with hrow | ⟨-, hcom⟩
    · exact .inr ⟨c, e, hrow, huser, he, hunlocks⟩
    · exact .inl ⟨c, e, hcom, huser, he, hunlocks⟩
  | application n =>
    obtain ⟨a, ha, huser, happroved⟩ := hj
    rcases Snap.merge_cases ha with hrow | ⟨-, hcom⟩
    · exact .inr ⟨a, hrow, huser, happroved⟩
    · exact .inl ⟨a, hcom, huser, happroved⟩

theorem Written.good (h : Written i none o σ) (hinv : backing.inv σ) : backing.Good i o σ (σ.merge o) := by
  have hgrows : Grows σ (σ.merge o) :=
    ⟨funext fun n => Snap.merge_of_none (congrFun h.exams n) σ, fun _ _ hj => h.justified hj, fun _ hg => hg⟩
  refine ⟨fun reason user hj => ?_, ⟨hgrows, Changes.refl _, fun _ hg _ => hg⟩, fun _ _ _ _ => ⟨hgrows, fun _ hg _ => hg⟩⟩
  rcases h.of_merge hj with hold | hc
  · exact hinv reason user hold
  · exact h.granted hc

/-! ## Runs -/

/-- reasons and grants agree so far, and no transaction is open -/
structure Agreed (d : Store) : Prop where
  granted : ∀ reason user, Justified d.snap reason user → Granted d.ext reason user
  raised : ∀ g ∈ d.ext.log, g.raised = true → Justified d.snap g.reason g.user
  own : ∀ i, d.own i = {}

/-- `Justified`, of the tables -/
def justified (d : Store) : Reason → UserId → Bool
  | .certificate n, user => (d.cell certificates n).committed.any fun c =>
      decide (c.userId = user) && (d.cell exams c.examId).committed.any Exam.unlocks
  | .application n, user => (d.cell applications n).committed.any fun a =>
      decide (a.applicantId = user) && decide (a.status = .approved)

theorem justified_iff {d : Store} : justified d reason user = true ↔ Justified d.snap reason user := by
  cases reason with
  | certificate n =>
    simp only [justified, Option.any_eq_true, Bool.and_eq_true, decide_eq_true_eq]
    constructor
    · rintro ⟨c, hc, huser, e, he, hunlocks⟩
      exact ⟨c, e, hc, huser, he, hunlocks⟩
    · rintro ⟨c, e, hc, huser, he, hunlocks⟩
      exact ⟨c, hc, huser, e, he, hunlocks⟩
  | application n =>
    simp only [justified, Option.any_eq_true, Bool.and_eq_true, decide_eq_true_eq]
    exact Iff.rfl

/-- the session has raised no account for a reason that is not committed -/
def clean (d : Store) (i : ℕ) : Bool :=
  d.ext.log.all fun g => decide (g.session ≠ i) || !g.raised || justified d g.reason g.user

theorem justified_of_clean {d : Store} (h : clean d i = true) {g : Grant} (hg : g ∈ d.ext.log) (hi : g.session = i)
    (hraised : g.raised = true) : Justified d.snap g.reason g.user := by
  have hclean := List.all_eq_true.1 h g hg
  simp only [hi, hraised, ne_eq, not_true, decide_false, Bool.not_true, Bool.false_or] at hclean
  exact justified_iff.1 hclean

/-- the session is about to send a grant of which the answer is sent and the change is not saved -/
def saves (w : Run) (i : ℕ) : Bool :=
  match w.prog i with
  | some (.op (.fx (.grant user raise _ .unsaved)) _) => harmless w.st.ext user raise
  | _ => true

/-- a session that fails is clean, and answers are sent for grants that are saved -/
def careful (w : Run) : Move → Bool
  | .crash i => clean w.st i
  | .run i => (!rollingBack w i || clean w.st i) && saves w i

theorem stepOk_of_careful {w : Run} {m : Move} (h : careful w m = true) : backing.protocol.stepOk w m := by
  refine backing.protocol.stepOk_of (fun _ _ _ _ => Lockless.lock _ _ _) ?_
  rintro β i (c | x) k rfl hp
  · exact fun _ => trivial
  · simp only [careful, Bool.and_eq_true] at h
    have hsaves := h.2
    change Saved x w.st.snap
    rw [saves, hp] at hsaves
    cases x with
    | grant user raise reason call =>
      cases call with
      | unsaved => exact hsaves
      | _ => trivial
    | audit call => trivial

/-- what a request leaves -/
def Left (i : ℕ) (r : Except Exn Response) (o : Held) (σ : State) : Prop := ∀ a, r = .ok a → Written i none o σ

theorem left_stable : Stable backing i (Left i) := fun _ _ _ _ hrely hcom h a ha => (h a ha).stays hrely hcom

theorem not_carried (σ : State) (reason : Reason) (user : UserId) : ¬ Carried {} σ reason user := by
  cases reason with
  | certificate n =>
    intro ⟨_, _, hrow, _⟩
    cases hrow
  | application n =>
    intro ⟨_, hrow, _⟩
    cases hrow

theorem written_start {d : Store} (h : Agreed d) : Written i none {} d.snap where
  exams := rfl
  certificate := nofun
  application := nofun
  asked reason user hc := absurd hc (not_carried _ reason user)
  covered g hg _ hraised := .inl (h.raised g hg hraised)

theorem body_left {d : Store} (h : Agreed d) (r : Request) :
    backing.wp i (r.body norm policy) (Left i) {} d.snap := by
  refine wp_mono (body_written r (written_start h)) ?_
  intro r o τ hr a ha
  subst ha
  exact hr

theorem backing_safe {d : Store} {requests : ℕ → Request} (h : Agreed d) :
    backing.protocol.Safe (init norm policy d requests) := by
  refine safe_start h.granted (fun _ => trivial) h.own ?_
  intro i
  exact wp_mono (wp_transaction (body_written (requests i) (written_start h))
    fun _ _ _ hw _ hl _ => (hw.later hl).good hl.inv) fun _ _ _ _ => trivial

/-! ## Requests are transactions -/

theorem plain_getOrRaise (t : Tbl) (n : ℕ) (e : Exn) : Plain (getOrRaise t n e) := by
  unfold getOrRaise
  refine plain_bind (plain_select _ _) ?_
  intro rows
  split
  · trivial
  · trivial

theorem plain_flushRow (t : Tbl) (n : ℕ) (f : Row t → Row t) : Plain (flushRow t n f) := by
  unfold flushRow
  refine plain_bind (plain_updateRow _ _ _ _) ?_
  intro r
  split
  · trivial
  · trivial

theorem plain_alreadyPassed (e : Exam) (exam : ℕ) (user : UserId) : Plain (alreadyPassed e exam user) :=
  plain_ite (plain_bind (plain_select _ _) fun _ => plain_pure _) (plain_pure _)

theorem plain_grantFromBusiness (user : UserId) (raise : Raise) (reason : Reason) (call : Call) :
    Plain (grantFromBusiness user raise reason call) :=
  plain_bind (plain_perform _) fun _ => plain_ite (plain_pure _) (plain_raise _)

theorem plain_startAttempt (exam : ℕ) (user : UserId) (now : Clock) : Plain (startAttempt exam user now) := by
  unfold startAttempt
  refine plain_bind (plain_getOrRaise _ _ _) fun e => plain_ite (plain_raise _) ?_
  split
  · trivial
  · refine plain_bind (plain_alreadyPassed _ _ _) fun b => plain_ite (plain_raise _) ?_
    exact plain_bind (plain_insert _ _) fun _ => plain_pure _

theorem plain_applyUnlock (e : Exam) (user : UserId) (certificate : ℕ) (call : Call) :
    Plain (applyUnlock policy e user certificate call) :=
  plain_ite (plain_grantFromBusiness _ _ _ _) (plain_pure _)

theorem plain_submitAttempt (attempt : ℕ) (user : UserId) (answers : Answers) (now : Clock) (call : Call) :
    Plain (submitAttempt norm policy attempt user answers now call) := by
  unfold submitAttempt
  refine plain_bind (plain_getOrRaise _ _ _) fun a => plain_ite (plain_raise _) (plain_ite (plain_raise _) ?_)
  refine plain_bind (plain_getOrRaise _ _ _) fun e => ?_
  split
  · trivial
  refine plain_bind (plain_alreadyPassed _ _ _) fun b => plain_ite (plain_raise _) ?_
  refine plain_bind (plain_flushRow _ _ _) fun _ => plain_ite ?_ (plain_pure _)
  refine plain_bind (plain_insert _ _) fun certificate => plain_bind (plain_applyUnlock _ _ _ _) fun _ => ?_
  exact plain_bind (plain_insert _ _) fun _ => plain_pure _

theorem plain_addMembers (project : ℕ) (claims : List Claim) (k : ℕ) : Plain (addMembers project claims k) := by
  induction claims generalizing k with
  | nil => trivial
  | cons c claims ih => exact plain_bind (plain_insert _ _) fun _ => ih _

theorem plain_incubate (application : ℕ) (a : Application) (claims : List Claim) (call : Call) :
    Plain (incubate policy application a claims call) :=
  plain_bind (plain_insert _ _) fun _ => plain_bind (plain_addMembers _ _ _) fun _ => plain_grantFromBusiness _ _ _ _

theorem plain_recordAudit (call : Call) : Plain (recordAudit call) :=
  plain_bind (plain_perform _) fun _ => plain_ite (plain_pure _) (plain_raise _)

theorem plain_assertMemberUsersExist (users present : List UserId) : Plain (assertMemberUsersExist users present) :=
  plain_ite (plain_pure _) (plain_raise _)

theorem plain_reviewApplication (application : ℕ) (reviewer : UserId) (approve : Bool) (note : Option String) (time : ℤ)
    (calls : Calls) : Plain (reviewApplication policy application reviewer approve note time calls) := by
  unfold reviewApplication
  refine plain_bind (plain_getOrRaise _ _ _) fun a => plain_ite (plain_raise _) ?_
  cases approve with
  | false =>
    refine plain_bind (plain_updateRow _ _ _ _) fun r => ?_
    cases r with
    | none => trivial
    | some a => exact plain_bind (plain_recordAudit _) fun _ => plain_pure _
  | true =>
    refine plain_bind (plain_assertMemberUsersExist _ _) fun _ => plain_bind (plain_updateRow _ _ _ _) fun r => ?_
    cases r with
    | none => trivial
    | some a => exact plain_bind (plain_incubate _ _ _ _) fun _ => plain_bind (plain_recordAudit _) fun _ => plain_pure _

theorem plain_body (r : Request) : Plain (r.body norm policy) := by
  cases r with
  | start exam user now => exact plain_startAttempt _ _ _
  | submit attempt user answers now call => exact plain_submitAttempt _ _ _ _ _
  | review application reviewer approve note now calls => exact plain_reviewApplication _ _ _ _ _ _

/-! ## When the sessions have ended -/

/-- an account that was raised by a session that has ended was raised for a reason that is committed -/
def Repaid (w : Run) : Prop :=
  ∀ g ∈ w.st.ext.log, g.raised = true → ended w g.session = true → Justified w.st.snap g.reason g.user

/-- a session that ends leaves no account raised without its reason -/
theorem repaid_of_ends {w : Run} {m : Move} (h : Stage backing (Left i) i w) (hm : careful w m = true)
    (hbefore : ended w i = false) (hafter : ended (step w m) i = true) {g : Grant}
    (hg : g ∈ (step w m).st.snap.ext.log) (hi : g.session = i) (hraised : g.raised = true) :
    Justified (step w m).st.snap g.reason g.user := by
  have hundone : undoes w m = true → clean w.st i = true → Justified (step w m).st.snap g.reason g.user := by
    intro hundoes hclean
    rw [undone_snap hundoes] at hg ⊢
    exact justified_of_clean hclean hg hi hraised
  rcases h.ends hbefore hafter with rfl | ⟨rfl, hcommit | hroll⟩
  · exact hundone rfl hm
  · obtain ⟨a, hleft, hst, -⟩ := h.commits hcommit
    have hwritten := hleft a rfl
    rw [hst, Db.snap_finish_true] at hg ⊢
    rcases hwritten.covered g hg hi hraised with hjustified | hcarried
    · exact hwritten.justified hjustified
    · exact hwritten.carried hcarried
  · simp only [careful, hroll, Bool.not_true, Bool.false_or, Bool.and_eq_true] at hm
    exact hundone hroll hm.1

/-- a move of a session that has ended leaves the tables and the grants as they are -/
theorem snap_of_ended {w : Run} {m : Move} (h : ended w (Protocol.who m) = true) : (step w m).st.snap = w.st.snap := by
  cases m with
  | crash j => exact undone_snap rfl
  | run j =>
    have h' : ended w j = true := h
    rcases hp : w.prog j with _ | (r | ⟨c, k⟩)
    · simp only [Session.step, hp]
    · simp only [Session.step, hp]
    · simp [ended, hp] at h'

theorem Repaid.step {w : Run} {m : Move} (h : Repaid w) (hsafe : backing.protocol.Safe w)
    (hstage : ∀ i, Stage backing (Left i) i w) (hm : careful w m = true) : Repaid (step w m) := by
  intro g hg hraised hend
  by_cases hi : g.session = Protocol.who m
  · by_cases hbefore : ended w g.session = true
    · have hsame : (Session.step w m).st.snap = w.st.snap := snap_of_ended (hi ▸ hbefore)
      change g ∈ (Session.step w m).st.snap.ext.log at hg
      rw [hsame] at hg ⊢
      exact h g hg hraised hbefore
    · exact repaid_of_ends (hstage g.session) hm (by simpa using hbefore) hend hg rfl hraised
  · have hprog : (Session.step w m).prog g.session = w.prog g.session := Protocol.step_prog hi
    have hbefore : ended w g.session = true := by
      rw [ended, hprog] at hend
      exact hend
    rcases backing.protocol.step_act hsafe (stepOk_of_careful hm) with hsame | ⟨hgrows, -, hlog⟩
    · rw [hsame] at hg ⊢
      exact h g hg hraised hbefore
    · exact hgrows.justified _ _ (h g (hlog g hg hi) hraised hbefore)

theorem run_repaid {w : Run} {ms : List Move} (h : Repaid w) (hsafe : backing.protocol.Safe w)
    (hstage : ∀ i, Stage backing (Left i) i w) (hok : Along (fun w m => careful w m = true) w ms) : Repaid (run w ms) := by
  induction ms generalizing w with
  | nil => exact h
  | cons m ms ih =>
    have hm := stepOk_of_careful hok.1
    exact ih (h.step hsafe hstage hok.1) (backing.protocol.step_safe hsafe hm)
      (fun i => (hstage i).step hsafe hm left_stable) hok.2

/-- **Standing together.** In every run in which no session fails after its grant has raised an account and before the
reason is committed, and no answer is sent for a grant that is not saved: when the sessions that have begun have ended,
accounts were raised for committed reasons alone, and for every committed reason a grant has gone through, which has raised
the account unless it found nothing to raise. An account that is not what it was has been raised. -/
theorem stands_together (norm : String → String) (policy : Policy) (d : Store) (requests : ℕ → Request) (ms : List Move)
    (h : Agreed d) (hok : Along (fun w m => careful w m = true) (init norm policy d requests) ms)
    (hend : ∀ m ∈ ms, ended (run (init norm policy d requests) ms) (Protocol.who m) = true) :
    let w := run (init norm policy d requests) ms
    (∀ g ∈ w.st.ext.log, g.raised = true → Justified w.st.snap g.reason g.user) ∧
    (∀ reason user, Justified w.st.snap reason user → ∃ g ∈ w.st.ext.log, g.reason = reason ∧ g.user = user) ∧
    (∀ user, w.st.ext.account user ≠ d.ext.account user → ∃ g ∈ w.st.ext.log, g.user = user ∧ g.raised = true) := by
  have hsafe : backing.protocol.Safe (init norm policy d requests) := backing_safe h
  have hlegal : backing.protocol.Legal (init norm policy d requests) ms := hok.mono fun _ _ => stepOk_of_careful
  have hstage : ∀ i, Stage backing (Left i) i (init norm policy d requests) := by
    intro i
    refine stage_start rfl (plain_body (requests i)) ?_
    rw [h.own i]
    exact body_left h (requests i)
  have hrepaid := run_repaid (fun g hg hraised _ => h.raised g hg hraised) hsafe hstage hok
  have hchanges : Changes d.ext (run (init norm policy d requests) ms).st.snap.ext := by
    refine backing.protocol.run_induct (Φ := fun e => Changes d.ext e.snap.ext) hsafe hlegal ?_ (Changes.refl _)
    intro i s t _ _ hact hs
    exact hs.trans hact.2.1 hact.1.log
  refine ⟨fun g hg hraised => ?_, (backing.protocol.run_inv hsafe hlegal).1, hchanges⟩
  by_cases hbegun : ∃ m ∈ ms, Protocol.who m = g.session
  · obtain ⟨m, hm, hwho⟩ := hbegun
    exact hrepaid g hg hraised (hwho ▸ hend m hm)
  · obtain ⟨-, -, -, hgrows, hmine⟩ := backing.protocol.run_others (i := g.session) hsafe hlegal
      fun m hm heq => hbegun ⟨m, hm, heq⟩
    exact hgrows.justified _ _ (h.raised g (hmine g hg rfl) hraised)

/-! ## Two runs -/

/-- the exam, and two applications -/
def office : Store :=
  { hall with
    tab := fun t =>
      match t with
      | .exams => hall.tab exams
      | .applications => Table.ofList [
          { applicantId := 8, title := "A", summary := "", description := "" },
          { applicantId := 9, title := "B", summary := "", description := "" }]
      | t => hall.tab t }

/-- user 7 passes the exam, and both applications are approved -/
def officeRequests (calls : Calls) : ℕ → Request
  | 0 => .start 0 7 {}
  | 1 => .submit 0 7 [(0, "A")] {} .answered
  | 2 => .review 0 5 true none 0 { calls with grant := .answered }
  | _ => .review 1 5 true none 0 { calls with audit := .answered }

theorem agreed_office : Agreed office where
  granted reason user h := by
    cases reason with
    | certificate n =>
      obtain ⟨c, e, hc, -⟩ := h
      cases hc
    | application n =>
      obtain ⟨a, ha, -, happroved⟩ := h
      have hmem : a ∈ [Application.mk 8 "A" "" "" [] .pending none none none, ⟨9, "B", "", "", [], .pending, none, none, none⟩] :=
        List.mem_of_getElem? ha
      simp only [List.mem_cons, List.not_mem_nil, or_false] at hmem
      rcases hmem with rfl | rfl
      · cases happroved
      · cases happroved
  raised _ h := nomatch h
  own i := by
    refine Own.ext (funext fun t => funext fun n => ?_) (funext fun k => k.elim)
    cases t with
    | exams => rfl
    | applications => rfl
    | _ => rfl

/-- one after the other -/
def inTurn : List Move := (List.range 4).flatMap (moves · 14)

theorem stands_together_demo :
    let w := run (init id hallPolicy office (officeRequests {})) inTurn
    (∀ g ∈ w.st.ext.log, g.raised = true → Justified w.st.snap g.reason g.user) ∧
    (∀ reason user, Justified w.st.snap reason user → ∃ g ∈ w.st.ext.log, g.reason = reason ∧ g.user = user) ∧
    (∀ user, w.st.ext.account user ≠ office.ext.account user → ∃ g ∈ w.st.ext.log, g.user = user ∧ g.raised = true) :=
  stands_together id hallPolicy office (officeRequests {}) inTurn agreed_office (by decide) (by decide)

/-- the connection of the submission is lost when it is to commit -/
def apart : List Move := moves 0 14 ++ moves 1 7 ++ [.crash 1] ++ moves 2 14 ++ moves 3 14

/-- All have ended. User 7 is an author and has no certificate; user 8 is incubated, and as its entry in the audit log got
lost its application has gone back to pending; the application of user 9 is approved, and the account is as it was. -/
theorem raised_alone :
    let w := run (init id hallPolicy office (officeRequests { grant := .unsaved, audit := .lost })) apart
    (∀ i ∈ [0, 1, 2, 3], ended w i = true) ∧
    (w.st.ext.account 7).map Account.role = some "author" ∧ w.st.snap.com certificates 0 = none ∧
    (w.st.ext.account 8).map Account.role = some "incubated_member" ∧
    ((w.st.snap.com applications 0).map Application.status) = some .pending ∧
    ((w.st.snap.com applications 1).map Application.status) = some .approved ∧
    (w.st.ext.account 9).map (fun a => (a.level, a.role)) = some ("local", "member") := by
  decide

end LkmService.Exams
