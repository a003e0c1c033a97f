/-
How the statements of a transaction build up a lawful commit.

A transaction owns nothing at its start (`Lawful.empty`), stays lawful while the others move (`Lawful.later`), and each
of its writes extends what it owns: `put_outbox`, `archive`, `fold`, `put_failure`, `put_key`, `new_key`, `put_dlq`, and
`enter` for an outbox row with its copy and the mark on the record that it replays.
-/
import LkmService.Outbox.Commit

namespace LkmService.Outbox

open Session Sql Tbl

variable {P : Type} {env : Env P} {calls : ℕ → Call P} {i : ℕ} {o o' : Held P} {σ τ : State P}

/-! ## Stability -/

theorem RowStep.mono {e e' : Ext} {n : ℕ} {v w : Option (OutboxMessage P)} (h : RowStep env i e n v w)
    (hc : e'.claim i = e.claim i) (hr : e'.reading i = e.reading i) (hp : ∀ q, q ∈ e.publishes → q ∈ e'.publishes) :
    RowStep env i e' n v w := by
  cases h with
  | keep => exact .keep _
  | enqueue r hs ha hcl hl hb => exact .enqueue r hs ha hcl hl hb
  | claim r tok t hk h => exact .claim r tok t (hc.trans hk) (hr ▸ h)
  | giveBack r tok hk hb => exact .giveBack r tok (hc.trans hk) hb
  | publish r tok t hk hb hq => exact .publish r tok t (hc.trans hk) hb (hp _ hq)
  | retry r tok t hk hb ha => exact .retry r tok t (hc.trans hk) hb ha
  | fold r tok hk hb => exact .fold r tok (hc.trans hk) hb
  | archive r h => exact .archive r h

theorem Lawful.empty : Lawful env calls i {} σ := by
  constructor <;> intros <;> simp_all

/-- what a session owns keeps its meaning while the others move -/
theorem Lawful.later (h : Lawful env calls i o σ) (hl : (discipline env calls).Later i o σ τ) :
    Lawful env calls i o τ := by
  have hr : Rely i o σ τ := hl.rely
  have hcom : ∀ t n v, o.row t n = some v → τ.com t n = σ.com t n := fun t n v hv => hl.com t n (by simp [hv])
  have hout : ∀ n v w, o.row outbox n = some v → σ.com outbox n = w → τ.com outbox n = w :=
    fun n v w hv hw => (hcom _ _ _ hv).trans hw
  exact
  { step := fun n v hv => by
      rw [hcom _ _ _ hv]
      exact (h.step n v hv).mono hr.claim hr.reading hr.publishes
    enters := fun n r hn hc => by
      have he := h.enters n r hn ((hcom _ _ _ hn) ▸ hc)
      refine ⟨fun c cp hcp hrow => ?_, Nat.lt_of_lt_of_le he.lt hr.next, he.copy, he.key, hr.keyHeld he.held,
        fun m r' hm hid hs => ?_, fun m r' hm hcm => he.only m r' hm ((hcom _ _ _ hm) ▸ hcm), fun hq => ?_⟩
      · exact he.fresh c cp (hr.copies_held n (by simp [hn]) c cp hcp hrow) hrow
      · obtain ⟨r₀, hr₀, hid₀, hs₀⟩ := hr.pending_held _ he.held m r' hm hid hs
        exact he.alone m r₀ hr₀ hid₀ hs₀
      · rcases he.replaces hq with hk | ⟨f, r₀, r₁, hf, hn₀, hid, ho, hm⟩
        · rcases he.held with ⟨k, -, hc⟩ | ⟨hown, hk⟩
          · exact absurd hc (hk k)
          · exact Or.inl (hr.key_free _ hown hk)
        · exact Or.inr ⟨f, r₀, r₁, (hcom _ _ _ ho).trans hf, hn₀, hid, ho, hm⟩
    leaves := fun n hn => by
      obtain ⟨r, hc, hx⟩ := h.leaves n hn
      refine ⟨r, hout n _ _ hn hc, hx.imp id ?_⟩
      rintro ⟨hs, f, r', hf, hcf, hrest⟩
      exact ⟨hs, f, r', hf, (hcom _ _ _ hf).trans hcf, hrest⟩
    archived_new := fun a v ha => by
      obtain ⟨hc, r, hv, ho, r₀, hr₀, hs⟩ := h.archived_new a v ha
      exact ⟨(hcom _ _ _ ha).trans hc, r, hv, ho, r₀, hout _ _ _ ho hr₀, hs⟩
    archived_inj := h.archived_inj
    failed_new := fun f v hf hc => by
      obtain ⟨r, hv, hn, hret, ho, r₀, hr₀, hs⟩ := h.failed_new f v hf ((hcom _ _ _ hf) ▸ hc)
      exact ⟨r, hv, hn, hret, ho, r₀, hout _ _ _ ho hr₀, hs⟩
    failed_inj := fun f f' r r' hf hf' hc hc' =>
      h.failed_inj f f' r r' hf hf' ((hcom _ _ _ hf) ▸ hc) ((hcom _ _ _ hf') ▸ hc')
    failed_mark := fun f v r₀ hf hc => by
      refine (h.failed_mark f v r₀ hf ((hcom _ _ _ hf) ▸ hc)).imp id ?_
      rintro ⟨t, m, hv, hn, hcp, hmsg⟩
      exact ⟨t, m, hv, hn, hcp, fun msg hm => ⟨(hmsg msg hm).1.mono hr.copies, (hmsg msg hm).2⟩⟩
    key_row := fun k v hk => by
      obtain ⟨e, hv, hc | ⟨hc, hown, hn, hu⟩⟩ := h.key_row k v hk
      · exact ⟨e, hv, Or.inl ((hcom _ _ _ hk).trans hc)⟩
      · exact ⟨e, hv, Or.inr ⟨(hcom _ _ _ hk).trans hc, hown, hr.key_free e hown hn, hu⟩⟩
    copy_new := fun c v hv => by
      obtain ⟨hc, cp, hcp, hs, hname, r, ho, hn, he⟩ := h.copy_new c v hv
      exact ⟨(hcom _ _ _ hv).trans hc, cp, hcp, hs, hname, r, ho, (hcom _ _ _ ho).trans hn, he⟩
    copy_inj := h.copy_inj
    copy_failure := fun c cp f hcp hs => by
      obtain ⟨r₀, r₁, hc, hn, ho, hrest⟩ := h.copy_failure c cp f hcp hs
      exact ⟨r₀, r₁, (hcom _ _ _ ho).trans hc, hn, ho, hrest⟩
    copy_dlq := fun c cp d hcp hs => by
      obtain ⟨r₀, r₁, hc, hn, ho, hrest⟩ := h.copy_dlq c cp d hcp hs
      exact ⟨r₀, r₁, (hcom _ _ _ ho).trans hc, hn, ho, hrest⟩
    dlq_row := fun d v hv => by
      rcases h.dlq_row d v hv with ⟨hc, hrest⟩ | ⟨r₀, hc, hrest⟩
      · exact Or.inl ⟨(hcom _ _ _ hv).trans hc, hrest⟩
      · refine Or.inr ⟨r₀, (hcom _ _ _ hv).trans hc, hrest.imp id ?_⟩
        rintro ⟨e, m, hv, hs, hcp, hmsg⟩
        exact ⟨e, m, hv, hs, hcp, fun msg hm => (hmsg msg hm).mono hr.copies⟩ }

/-- what the session writes into a row it holds means nothing to the others -/
theorem Rely.swap {t : Tbl} {n : ℕ} {v w : Option (Row P t)} (ht : t ≠ Tbl.keys) (h : Rely i (o.put t n v) σ τ) :
    Rely i (o.put t n w) σ τ :=
  have hrow : ∀ t' m, (o.put t n w).row t' m ≠ none → (o.put t n v).row t' m ≠ none := by
    intro t' m hm
    by_cases heq : t' = t ∧ m = n
    · obtain ⟨rfl, rfl⟩ := heq
      simp
    · rw [Own.put_row_of_ne _ _ _ fun h₁ h₂ => heq ⟨h₁, h₂⟩] at hm ⊢
      exact hm
  { h with
    copies_held := fun m hm => h.copies_held m (hrow _ _ hm)
    pending_held := fun e he => h.pending_held e (by
      simpa only [KeyHeld, Own.put_row_other _ _ _ ht.symm, Own.put_key] using he) }

/-- owning less: the others may do more -/
theorem later_of_put {t : Tbl} {n : ℕ} {v : Option (Row P t)} (hn : o.row t n = none)
    (hl : (discipline env calls).Later i (o.put t n v) σ τ) : (discipline env calls).Later i o σ τ := by
  have hrow : ∀ t' m, o.row t' m ≠ none → (o.put t n v).row t' m = o.row t' m := by
    intro t' m hm
    refine Own.put_row_of_ne t n v fun ht hmn => hm ?_
    subst ht hmn
    exact hn
  have hr : Rely i (o.put t n v) σ τ := hl.rely
  refine ⟨?_, fun t' m hm => hl.com t' m (by rwa [hrow t' m hm]), hl.inv, fun t' m hm => ⟨(hl.fresh t' m hm).1, ?_⟩⟩
  · exact
    { hr with
      copies_held := fun m hm => hr.copies_held m (by rwa [hrow _ _ hm])
      key_free := hr.key_free
      pending_held := fun e he => hr.pending_held e <| he.imp
        (fun ⟨k, hk, hc⟩ => ⟨k, (hrow keys k (by simp [hk])).trans hk, hc⟩) id }
  · by_contra hne
    exact hne ((hrow t' m hne).symm.trans (hl.fresh t' m hm).2)

/-- a row written after it was locked -/
theorem later_of_write {t : Tbl} {n : ℕ} {v : Option (Row P t)} (ht : t ≠ keys)
    (hl : (discipline env calls).Later i (o.put t n v) σ τ) : (discipline env calls).Later i o σ τ := by
  rcases ho : o.row t n with _ | w
  · exact later_of_put ho hl
  · have hr : Rely i o σ τ := by
      have hs : Rely i (o.put t n w) σ τ := Rely.swap ht hl.rely
      rwa [Own.put_self ho] at hs
    refine ⟨hr, fun t' m hm => hl.com t' m ?_, hl.inv, fun t' m hm => ⟨(hl.fresh t' m hm).1, ?_⟩⟩
    · by_cases heq : t' = t ∧ m = n
      · obtain ⟨rfl, rfl⟩ := heq
        simp
      · rwa [Own.put_row_of_ne _ _ _ fun h₁ h₂ => heq ⟨h₁, h₂⟩]
    · have := (hl.fresh t' m hm).2
      rwa [Own.put_row_of_ne _ _ _ fun h₁ h₂ => ?_] at this
      subst h₁ h₂
      simp at this

/-! ## Extensions -/

theorem untouched {t : Tbl} (e : o'.row t = o.row t) {Q : Prop} {n : ℕ} {v : Option (Row P t)}
    (hv : o'.row t n = some v) : o.row t n = some v ∨ Q := by
  rw [e] at hv
  exact Or.inl hv

theorem untouched_both {t : Tbl} (e : o'.row t = o.row t) {Q : Prop} {n m : ℕ} {v w : Option (Row P t)}
    (hv : o'.row t n = some v) (hw : o'.row t m = some w) : Q ∨ o.row t n = some v ∧ o.row t m = some w := by
  rw [e] at hv hw
  exact Or.inr ⟨hv, hw⟩

/-- the copies that `o'` owns more than `o` -/
structure ExtendsCopies (calls : ℕ → Call P) (o o' : Held P) (σ : State P) : Prop where
  copy_new : ∀ c v, o'.row copies c = some v → o.row copies c = some v ∨ σ.com copies c = none ∧ ∃ cp, v = some cp ∧
      (calls cp.session).commits = true ∧ cp.event.eventId ≠ "" ∧
        ∃ r, o'.row outbox cp.row = some (some r) ∧ σ.com outbox cp.row = none ∧ r.event = cp.event
  copy_inj : ∀ c c' cp cp', o'.row copies c = some (some cp) → o'.row copies c' = some (some cp') →
      cp.row = cp'.row ∨ cp.source ≠ .enqueue ∧ cp.source = cp'.source →
      c = c' ∨ o.row copies c = some (some cp) ∧ o.row copies c' = some (some cp')
  copy_failure : ∀ c cp f, o'.row copies c = some (some cp) → cp.source = .failure f →
      o.row copies c = some (some cp) ∨ ∃ r₀ r₁, σ.com failures f = some r₀ ∧ r₀.replayedAt = none ∧
        o'.row failures f = some (some r₁) ∧ r₁.replayedAt ≠ none ∧ r₁.retiredFor = none ∧
          r₁.eventId = cp.event.eventId
  copy_dlq : ∀ c cp d, o'.row copies c = some (some cp) → cp.source = .dlq d →
      o.row copies c = some (some cp) ∨ ∃ r₀ r₁, σ.com dlq d = some r₀ ∧ r₀.status = .pending ∧
        o'.row dlq d = some (some r₁) ∧ r₁.status = .requeued ∧ r₁.retiredFor = none ∧
          r₁.requeuedAs = some cp.event.eventId

theorem ExtendsCopies.same (e : o'.row copies = o.row copies) : ExtendsCopies calls o o' σ where
  copy_new _ _ := untouched e
  copy_inj _ _ _ _ hv hw _ := untouched_both e hv hw
  copy_failure _ _ _ hv _ := untouched e hv
  copy_dlq _ _ _ hv _ := untouched e hv

/-- the failure records that `o'` owns more than `o` -/
structure ExtendsFailures (calls : ℕ → Call P) (o o' : Held P) (σ : State P) : Prop where
  failed_new : ∀ f v, o'.row failures f = some v → σ.com failures f = none → o.row failures f = some v ∨
      ∃ r, v = some r ∧ r.replayedAt = none ∧ r.retiredFor = none ∧ o'.row outbox r.origin = some none ∧
        ∃ r₀, σ.com outbox r.origin = some r₀ ∧ r₀.status = .pending ∧ r₀.eventId = r.eventId
  failed_inj : ∀ f f' r r', o'.row failures f = some (some r) → o'.row failures f' = some (some r') →
      σ.com failures f = none → σ.com failures f' = none → r.origin = r'.origin →
      f = f' ∨ o.row failures f = some (some r) ∧ o.row failures f' = some (some r')
  failed_mark : ∀ f v r₀, o'.row failures f = some v → σ.com failures f = some r₀ → o.row failures f = some v ∨
      v = some r₀ ∨ ∃ t m, v = some { r₀ with replayedAt := some t, retiredFor := m } ∧ r₀.replayedAt = none ∧
        (m = none → ∃ c cp, o'.row copies c = some (some cp) ∧ cp.source = .failure f) ∧
        ∀ msg, m = some msg → WasActive σ msg r₀.eventId ∧ ¬ NoRequeue calls

theorem ExtendsFailures.same (e : o'.row failures = o.row failures) : ExtendsFailures calls o o' σ where
  failed_new _ _ hv _ := untouched e hv
  failed_inj _ _ _ _ hv hw _ _ _ := untouched_both e hv hw
  failed_mark _ _ _ hv _ := untouched e hv

/-- `o'` owns more than `o`: what is new meets the conditions of a lawful commit, and what is gone was only locked. -/
structure Extends (env : Env P) (calls : ℕ → Call P) (i : ℕ) (o o' : Held P) (σ : State P) : Prop extends
    ExtendsCopies calls o o' σ, ExtendsFailures calls o o' σ where
  keeps : ∀ t m v, o.row t m = some v → o'.row t m = some v ∨ t ≠ keys ∧ v ≠ none ∧ σ.com t m = v
  holds : ∀ k, o.key k → o'.key k
  step : ∀ n v, o'.row outbox n = some v → o.row outbox n = some v ∨ RowStep env i σ.ext n (σ.com outbox n) v
  enters : ∀ n r, o'.row outbox n = some (some r) → σ.com outbox n = none →
      o.row outbox n = some (some r) ∨ Enters calls o' σ n r
  leaves : ∀ n, o'.row outbox n = some none →
      o.row outbox n = some none ∨ ∃ r, σ.com outbox n = some r ∧ Leaves o' σ n r
  archived_new : ∀ a v, o'.row archived a = some v → o.row archived a = some v ∨ σ.com archived a = none ∧
      ∃ r, v = some r ∧ o'.row outbox r.origin = some none ∧
        ∃ r₀, σ.com outbox r.origin = some r₀ ∧ r₀.status = .published
  archived_inj : ∀ a a' r r', o'.row archived a = some (some r) → o'.row archived a' = some (some r') →
      r.origin = r'.origin → a = a' ∨ o.row archived a = some (some r) ∧ o.row archived a' = some (some r')
  key_row : ∀ k v, o'.row keys k = some v → o.row keys k = some v ∨ ∃ e, v = some e ∧ (σ.com keys k = some e ∨
      σ.com keys k = none ∧ o'.key (.event e) ∧ (∀ k', o.row keys k' ≠ some (some e)) ∧ (∀ k', σ.com keys k' ≠ some e) ∧
        ∀ k', o'.row keys k' = some (some e) → k' = k ∨ o.row keys k' = some (some e))
  dlq_row : ∀ d v, o'.row dlq d = some v → o.row dlq d = some v ∨
      (σ.com dlq d = none ∧ ∃ r, v = some r ∧ r.status = .pending ∧ r.retiredFor = none) ∨
      ∃ r₀, σ.com dlq d = some r₀ ∧ (v = some r₀ ∨
        ∃ e m, v = some { r₀ with status := .requeued, requeuedAs := some e, retiredFor := m } ∧
          r₀.status = .pending ∧ (m = none → ∃ c cp, o'.row copies c = some (some cp) ∧ cp.source = .dlq d) ∧
          ∀ msg, m = some msg → WasActive σ msg e)

section

variable (hx : Extends env calls i o o' σ)

include hx

/-- an inserted row stays -/
theorem Extends.entered (n : ℕ) (r : OutboxMessage P) (hn : o.row outbox n = some (some r))
    (hc : σ.com outbox n = none) : o'.row outbox n = some (some r) := by
  rcases hx.keeps _ _ _ hn with hk | ⟨-, -, hk⟩
  · exact hk
  · rw [hc] at hk; simp at hk

theorem Extends.gone (n : ℕ) (hn : o.row outbox n = some none) : o'.row outbox n = some none := by
  rcases hx.keeps _ _ _ hn with hk | ⟨-, hk, -⟩
  · exact hk
  · exact absurd rfl hk

theorem Extends.marked (f : ℕ) (r₀ r₁ : EventFailure P) (hf : o.row failures f = some (some r₁))
    (hc : σ.com failures f = some r₀) (h₀ : r₀.replayedAt = none) (h₁ : r₁.replayedAt ≠ none) :
    o'.row failures f = some (some r₁) := by
  rcases hx.keeps _ _ _ hf with hk | ⟨-, -, hk⟩
  · exact hk
  · rw [hc, Option.some.injEq] at hk
    exact absurd (hk ▸ h₀) h₁

theorem Extends.key (k : ℕ) (v : Option String) (hk : o.row keys k = some v) : o'.row keys k = some v := by
  rcases hx.keeps _ _ _ hk with hk | ⟨hk, -⟩
  · exact hk
  · exact absurd rfl hk

end

section

variable (h : Lawful env calls i o σ) (hx : Extends env calls i o o' σ)

include h hx

theorem Lawful.extend_copy (c : ℕ) (cp : Copy P) (hc : o.row copies c = some (some cp)) :
    o'.row copies c = some (some cp) := by
  rcases hx.keeps _ _ _ hc with hk | ⟨-, -, hk⟩
  · exact hk
  · rw [(h.copy_new c _ hc).1] at hk; simp at hk

theorem Lawful.extend_enters (n : ℕ) (r : OutboxMessage P) (hn : o.row outbox n = some (some r))
    (hc : σ.com outbox n = none) : Enters calls o' σ n r := by
  have he := h.enters n r hn hc
  obtain ⟨c, cp, hcp, hrow⟩ := he.copy
  obtain ⟨k, hk⟩ := he.key
  refine ⟨he.fresh, he.lt, ⟨c, cp, h.extend_copy hx c cp hcp, hrow⟩, ⟨k, hx.key k _ hk⟩, ?_, he.alone,
    fun m r' hm hcm hid => ?_, fun hq => ?_⟩
  · exact he.held.imp (fun ⟨k, hk, hc⟩ => ⟨k, hx.key k _ hk, hc⟩) fun ⟨hk, hc⟩ => ⟨hx.holds _ hk, hc⟩
  · rcases hx.enters m r' hm hcm with ho | hnew
    · exact he.only m r' ho hcm hid
    · exact (hnew.only n r (hx.entered n r hn hc) hc hid.symm).symm
  · refine (he.replaces hq).imp id ?_
    rintro ⟨f, r₀, r₁, hf, h₀, hid, ho, h₁⟩
    exact ⟨f, r₀, r₁, hf, h₀, hid, hx.marked f r₀ r₁ ho hf h₀ h₁, h₁⟩

theorem Lawful.extend_leaves (n : ℕ) (r : OutboxMessage P) (hl : Leaves o σ n r) : Leaves o' σ n r := by
  rcases hl with ⟨hs, a, r', ha, hrest⟩ | ⟨hs, f, r', hf, hc, hrest⟩
  · left
    refine ⟨hs, a, r', ?_, hrest⟩
    rcases hx.keeps _ _ _ ha with hk | ⟨-, -, hk⟩
    · exact hk
    · rw [(h.archived_new a _ ha).1] at hk; simp at hk
  · right
    refine ⟨hs, f, r', ?_, hc, hrest⟩
    rcases hx.keeps _ _ _ hf with hk | ⟨-, -, hk⟩
    · exact hk
    · rw [hc] at hk; simp at hk

/-- **Extension.** A lawful transaction stays lawful when what it adds is lawful. -/
theorem Lawful.extend : Lawful env calls i o' σ where
  step n v hv := (hx.step n v hv).elim (h.step n v) id
  enters n r hn hc := (hx.enters n r hn hc).elim (fun ho => h.extend_enters hx n r ho hc) id
  leaves n hn := by
    rcases hx.leaves n hn with ho | hnew
    · obtain ⟨r, hc, hl⟩ := h.leaves n ho
      exact ⟨r, hc, h.extend_leaves hx n r hl⟩
    · exact hnew
  archived_new a v ha := by
    rcases hx.archived_new a v ha with ho | hnew
    · obtain ⟨hc, r, hv, hout, hr⟩ := h.archived_new a v ho
      exact ⟨hc, r, hv, hx.gone _ hout, hr⟩
    · exact hnew
  archived_inj a a' r r' ha ha' he := by
    rcases hx.archived_inj a a' r r' ha ha' he with heq | ⟨ho, ho'⟩
    · exact heq
    · exact h.archived_inj a a' r r' ho ho' he
  failed_new f v hf hc := by
    rcases hx.failed_new f v hf hc with ho | hnew
    · obtain ⟨r, hv, hn, hret, hout, hr⟩ := h.failed_new f v ho hc
      exact ⟨r, hv, hn, hret, hx.gone _ hout, hr⟩
    · exact hnew
  failed_inj f f' r r' hf hf' hc hc' he := by
    rcases hx.failed_inj f f' r r' hf hf' hc hc' he with heq | ⟨ho, ho'⟩
    · exact heq
    · exact h.failed_inj f f' r r' ho ho' hc hc' he
  failed_mark f v r₀ hf hc := by
    rcases hx.failed_mark f v r₀ hf hc with ho | hnew
    · refine (h.failed_mark f v r₀ ho hc).imp id ?_
      rintro ⟨t, m, hv, hn, hcp, hmsg⟩
      refine ⟨t, m, hv, hn, fun hm => ?_, hmsg⟩
      obtain ⟨c, cp, hc, hs⟩ := hcp hm
      exact ⟨c, cp, h.extend_copy hx c cp hc, hs⟩
    · exact hnew
  key_row k v hk := by
    rcases hx.key_row k v hk with ho | ⟨e, hv, hc | ⟨hc, hown, hfree, hn, hu⟩⟩
    · obtain ⟨e, hv, hc | ⟨hc, hown, hn, hu⟩⟩ := h.key_row k v ho
      · exact ⟨e, hv, Or.inl hc⟩
      · refine ⟨e, hv, Or.inr ⟨hc, hx.holds _ hown, hn, fun k' hk' => ?_⟩⟩
        rcases hx.key_row k' _ hk' with ho' | ⟨e', hv', hc' | ⟨-, -, hfree, -⟩⟩
        · exact hu k' ho'
        · simp only [Option.some.injEq] at hv'
          exact absurd hc' (hv' ▸ hn k')
        · simp only [Option.some.injEq] at hv'
          exact absurd (ho.trans (by rw [hv, hv'])) (hfree k)
    · exact ⟨e, hv, Or.inl hc⟩
    · exact ⟨e, hv, Or.inr ⟨hc, hown, hn, fun k' hk' => (hu k' hk').elim id fun ho => absurd ho (hfree k')⟩⟩
  copy_new c v hv := by
    rcases hx.copy_new c v hv with ho | hnew
    · obtain ⟨hc, cp, hcp, hs, hname, r, hr, hn, he⟩ := h.copy_new c v ho
      exact ⟨hc, cp, hcp, hs, hname, r, hx.entered _ r hr hn, hn, he⟩
    · exact hnew
  copy_inj c c' cp cp' hc hc' he := by
    rcases hx.copy_inj c c' cp cp' hc hc' he with heq | ⟨ho, ho'⟩
    · exact heq
    · exact h.copy_inj c c' cp cp' ho ho' he
  copy_failure c cp f hc hs := by
    rcases hx.copy_failure c cp f hc hs with ho | hnew
    · obtain ⟨r₀, r₁, hf, h₀, ho₁, h₁, hrest⟩ := h.copy_failure c cp f ho hs
      exact ⟨r₀, r₁, hf, h₀, hx.marked f r₀ r₁ ho₁ hf h₀ h₁, h₁, hrest⟩
    · exact hnew
  copy_dlq c cp d hc hs := by
    rcases hx.copy_dlq c cp d hc hs with ho | hnew
    · obtain ⟨r₀, r₁, hd, h₀, ho₁, h₁, hrest⟩ := h.copy_dlq c cp d ho hs
      refine ⟨r₀, r₁, hd, h₀, ?_, h₁, hrest⟩
      rcases hx.keeps _ _ _ ho₁ with hk | ⟨-, -, hk⟩
      · exact hk
      · rw [hd, Option.some.injEq] at hk
        rw [hk, h₁] at h₀
        simp at h₀
    · exact hnew
  dlq_row d v hv := by
    rcases hx.dlq_row d v hv with ho | hnew
    · refine (h.dlq_row d v ho).imp id ?_
      rintro ⟨r₀, hd, hrest⟩
      refine ⟨r₀, hd, hrest.imp id ?_⟩
      rintro ⟨e, m, hv, hs, hcp, hmsg⟩
      refine ⟨e, m, hv, hs, fun hm => ?_, hmsg⟩
      obtain ⟨c, cp, hc, hsrc⟩ := hcp hm
      exact ⟨c, cp, h.extend_copy hx c cp hc, hsrc⟩
    · exact hnew

end

/-! ## The writes of a transaction -/

/-- a row that is written was not owned, or only locked -/
theorem keeps_put {t : Tbl} {n : ℕ} {w : Option (Row P t)}
    (ho : ∀ v, o.row t n = some v → v = w ∨ t ≠ keys ∧ v ≠ none ∧ σ.com t n = v) (t' : Tbl) (m : ℕ)
    (v : Option (Row P t')) (h : o.row t' m = some v) :
    (o.put t n w).row t' m = some v ∨ t' ≠ keys ∧ v ≠ none ∧ σ.com t' m = v := by
  by_cases heq : t' = t ∧ m = n
  · obtain ⟨rfl, rfl⟩ := heq
    rcases ho v h with rfl | hlock
    · exact Or.inl (Own.put_row_self _ _ _)
    · exact Or.inr hlock
  · left
    rwa [Own.put_row_of_ne _ _ _ fun ht hm => heq ⟨ht, hm⟩]

/-- the outbox after a row of it moved to another table -/
theorem moved_cases {t : Tbl} {n m a : ℕ} {A : Option (Row P t)} {v : Option (OutboxMessage P)} (ht : outbox ≠ t)
    (hv : ((o.put t a A).put outbox n none).row outbox m = some v) :
    o.row outbox m = some v ∨ m = n ∧ v = none := by
  refine (Own.put_row_cases hv).imp_left fun hv => ?_
  rwa [Own.put_row_other _ _ _ ht] at hv

/-- what the other table then holds -/
theorem moved_new {t : Tbl} {n a m : ℕ} {A v : Option (Row P t)} (ht : t ≠ outbox)
    (hv : ((o.put t a A).put outbox n none).row t m = some v) : o.row t m = some v ∨ m = a ∧ v = A := by
  rw [Own.put_row_other _ _ _ ht] at hv
  exact Own.put_row_cases hv

theorem moved_other {t t' : Tbl} {n a : ℕ} {A : Option (Row P t)} (h : t' ≠ t) (h' : t' ≠ outbox) :
    ((o.put t a A).put outbox n none).row t' = o.row t' :=
  (Own.put_row_other _ _ _ h').trans (Own.put_row_other _ _ _ h)

theorem moved_keeps {t : Tbl} {n a : ℕ} {A : Option (Row P t)} {r : OutboxMessage P} (ht : outbox ≠ t)
    (hc : σ.com outbox n = some r) (ho : ∀ v, o.row outbox n = some v → v = some r) (ha : o.row t a = none)
    (t' : Tbl) (m : ℕ) (v : Option (Row P t')) (hv : o.row t' m = some v) :
    ((o.put t a A).put outbox n none).row t' m = some v ∨ t' ≠ keys ∧ v ≠ none ∧ σ.com t' m = v := by
  refine (keeps_put (fun v hv => ?_) t' m v hv).elim (fun hv => keeps_put (fun w hw => ?_) t' m v hv) Or.inr
  · simp [ha] at hv
  · rw [Own.put_row_other _ _ _ ht] at hw
    exact Or.inr ⟨by simp, by simp [ho w hw], by rw [hc, ho w hw]⟩

namespace Lawful

variable (h : Lawful env calls i o σ)

include h

theorem put_outbox {n : ℕ} {r r' : OutboxMessage P} (hc : σ.com outbox n = some r)
    (ho : ∀ v, o.row outbox n = some v → v = some r) (hs : RowStep env i σ.ext n (some r) (some r')) :
    Lawful env calls i (o.put outbox n (some r')) σ := by
  have hsame : ∀ t, t ≠ outbox → (o.put outbox n (some r')).row t = o.row t :=
    fun _ ht => Own.put_row_other _ _ _ ht
  refine h.extend
    { keeps := keeps_put fun v hv => Or.inr ⟨by simp, by simp [ho v hv], by rw [hc, ho v hv]⟩
      holds := fun _ hk => hk
      step := fun m v hv => ?_
      enters := fun m x hm hcm => ?_
      leaves := fun m hm => ?_
      archived_new := fun _ _ => untouched (hsame archived (by simp))
      archived_inj := fun _ _ _ _ hv hw _ => untouched_both (hsame archived (by simp)) hv hw
      toExtendsFailures := .same (hsame failures (by simp))
      key_row := fun _ _ => untouched (hsame keys (by simp))
      toExtendsCopies := .same (hsame copies (by simp))
      dlq_row := fun _ _ => untouched (hsame dlq (by simp)) }
  · refine (Own.put_row_cases hv).imp id ?_
    rintro ⟨rfl, rfl⟩
    exact hc ▸ hs
  · rw [Own.put_row_of_ne _ _ _ fun _ hmn => by rw [hmn, hc] at hcm; simp at hcm] at hm
    exact Or.inl hm
  · exact (Own.put_row_cases hm).imp id fun ⟨_, hx⟩ => by simp at hx

/-- a published row moves to the archive -/
theorem archive {n a : ℕ} {r : OutboxMessage P} {A : OutboxArchived P} (hc : σ.com outbox n = some r)
    (ho : o.row outbox n = some (some r)) (hs : r.status = .published) (ha : σ.com archived a = none)
    (hoa : o.row archived a = none) (horg : A.origin = n) (hev : A.event = r.event) :
    Lawful env calls i ((o.put archived a (some A)).put outbox n none) σ := by
  have harch : ((o.put archived a (some A)).put outbox n none).row archived a = some (some A) := by
    simp [Own.put_row_other]
  have hgone : ((o.put archived a (some A)).put outbox n none).row outbox n = some none := by simp
  -- an old archived row has another origin
  have hold : ∀ a' r', o.row archived a' = some (some r') → r'.origin ≠ n := by
    intro a' r' ha' he
    obtain ⟨-, x, hx, hout, -⟩ := h.archived_new a' _ ha'
    simp only [Option.some.injEq] at hx
    rw [← hx, he, ho] at hout
    simp at hout
  refine h.extend
    { keeps := moved_keeps (by simp) hc (fun v hv => (Option.some.inj (ho.symm.trans hv)).symm) hoa
      holds := fun _ hk => hk
      step := fun m v hv => (moved_cases (by simp) hv).imp id ?_
      enters := fun m x hm hcm => (moved_cases (by simp) hm).imp id fun ⟨_, hx⟩ => by simp at hx
      leaves := fun m hm => (moved_cases (by simp) hm).imp id ?_
      archived_new := fun a' v hv => ?_
      archived_inj := fun a₁ a₂ r₁ r₂ h₁ h₂ he => ?_
      toExtendsFailures := .same (moved_other (by simp) (by simp))
      key_row := fun _ _ => untouched (moved_other (by simp) (by simp))
      toExtendsCopies := .same (moved_other (by simp) (by simp))
      dlq_row := fun _ _ => untouched (moved_other (by simp) (by simp)) }
  · rintro ⟨rfl, rfl⟩
    exact hc ▸ .archive r hs
  · rintro ⟨rfl, -⟩
    exact ⟨r, hc, Or.inl ⟨hs, a, A, harch, horg, hev⟩⟩
  · refine (moved_new (by simp) hv).imp id ?_
    rintro ⟨rfl, rfl⟩
    exact ⟨ha, A, rfl, by rw [horg]; exact hgone, r, by rw [horg]; exact hc, hs⟩
  · rcases moved_new (by simp) h₁ with o₁ | ⟨rfl, e₁⟩ <;> rcases moved_new (by simp) h₂ with o₂ | ⟨rfl, e₂⟩
    · exact Or.inr ⟨o₁, o₂⟩
    · simp only [Option.some.injEq] at e₂
      exact absurd (he.trans (e₂ ▸ horg)) (hold a₁ r₁ o₁)
    · simp only [Option.some.injEq] at e₁
      exact absurd (he.symm.trans (e₁ ▸ horg)) (hold a₂ r₂ o₂)
    · exact Or.inl rfl

/-- a row whose claim the session holds moves to the failures -/
theorem fold {n f tok : ℕ} {r : OutboxMessage P} {F : EventFailure P} (hc : σ.com outbox n = some r)
    (ho : ∀ v, o.row outbox n = some v → v = some r) (hs : r.status = .pending) (hclaim : σ.ext.claim i = some tok)
    (hb : r.lockedBy = some tok) (hf : σ.com failures f = none) (hof : o.row failures f = none) (horg : F.origin = n)
    (hev : F.event = r.event) (hrep : F.replayedAt = none) (hret : F.retiredFor = none) :
    Lawful env calls i ((o.put failures f (some F)).put outbox n none) σ := by
  have hfail : ((o.put failures f (some F)).put outbox n none).row failures f = some (some F) := by
    simp [Own.put_row_other]
  have hgone : ((o.put failures f (some F)).put outbox n none).row outbox n = some none := by simp
  have hold : ∀ f' r', o.row failures f' = some (some r') → σ.com failures f' = none → r'.origin ≠ n := by
    intro f' r' hf' hcf he
    obtain ⟨x, hx, -, -, hout, -⟩ := h.failed_new f' _ hf' hcf
    simp only [Option.some.injEq] at hx
    rw [← hx, he] at hout
    have := ho _ hout
    simp at this
  have hid : r.eventId = F.eventId := congrArg Event.eventId hev.symm
  refine h.extend
    { keeps := moved_keeps (by simp) hc ho hof
      holds := fun _ hk => hk
      step := fun m v hv => (moved_cases (by simp) hv).imp id ?_
      enters := fun m x hm hcm => (moved_cases (by simp) hm).imp id fun ⟨_, hx⟩ => by simp at hx
      leaves := fun m hm => (moved_cases (by simp) hm).imp id ?_
      failed_new := fun f' v hv hcf => ?_
      failed_inj := fun f₁ f₂ r₁ r₂ h₁ h₂ hc₁ hc₂ he => ?_
      failed_mark := fun f' v r₀ hv hcf => ?_
      archived_new := fun _ _ => untouched (moved_other (by simp) (by simp))
      archived_inj := fun _ _ _ _ hv hw _ => untouched_both (moved_other (by simp) (by simp)) hv hw
      key_row := fun _ _ => untouched (moved_other (by simp) (by simp))
      toExtendsCopies := .same (moved_other (by simp) (by simp))
      dlq_row := fun _ _ => untouched (moved_other (by simp) (by simp)) }
  · refine (moved_new (by simp) hv).imp id ?_
    rintro ⟨rfl, rfl⟩
    exact ⟨F, rfl, hrep, hret, by rw [horg]; exact hgone, r, by rw [horg]; exact hc, hs, hid⟩
  · rcases moved_new (by simp) h₁ with o₁ | ⟨rfl, e₁⟩ <;> rcases moved_new (by simp) h₂ with o₂ | ⟨rfl, e₂⟩
    · exact Or.inr ⟨o₁, o₂⟩
    · simp only [Option.some.injEq] at e₂
      exact absurd (he.trans (e₂ ▸ horg)) (hold f₁ r₁ o₁ hc₁)
    · simp only [Option.some.injEq] at e₁
      exact absurd (he.symm.trans (e₁ ▸ horg)) (hold f₂ r₂ o₂ hc₂)
    · exact Or.inl rfl
  · refine (moved_new (by simp) hv).imp id ?_
    rintro ⟨rfl, -⟩
    rw [hf] at hcf
    simp at hcf
  · rintro ⟨rfl, rfl⟩
    exact hc ▸ .fold r tok hclaim hb
  · rintro ⟨rfl, -⟩
    exact ⟨r, hc, Or.inr ⟨hs, f, F, hfail, hf, horg, hev⟩⟩

/-- a failure record is locked, or retired in favour of an active row -/
theorem put_failure {f : ℕ} {r₀ r₁ : EventFailure P} (hc : σ.com failures f = some r₀)
    (ho : ∀ v, o.row failures f = some v → v = some r₀)
    (hm : r₁ = r₀ ∨ ∃ t msg, r₁ = { r₀ with replayedAt := some t, retiredFor := some msg } ∧ r₀.replayedAt = none ∧
      WasActive σ msg r₀.eventId ∧ ¬ NoRequeue calls) :
    Lawful env calls i (o.put failures f (some r₁)) σ := by
  have hold : ∀ f' v, (o.put failures f (some r₁)).row failures f' = some v → σ.com failures f' = none →
      o.row failures f' = some v := by
    intro f' v hv hcf
    rcases Own.put_row_cases hv with ho' | ⟨rfl, -⟩
    · exact ho'
    · rw [hc] at hcf; simp at hcf
  have hsame : ∀ t, t ≠ failures → (o.put failures f (some r₁)).row t = o.row t :=
    fun _ ht => Own.put_row_other _ _ _ ht
  refine h.extend
    { keeps := keeps_put fun v hv => Or.inr ⟨by simp, by simp [ho v hv], by rw [hc, ho v hv]⟩
      holds := fun _ hk => hk
      failed_new := fun f' v hv hcf => Or.inl (hold f' v hv hcf)
      failed_inj := fun f₁ f₂ x₁ x₂ h₁ h₂ hc₁ hc₂ _ => Or.inr ⟨hold f₁ _ h₁ hc₁, hold f₂ _ h₂ hc₂⟩
      failed_mark := fun f' v r hv hcf => ?_
      step := fun _ _ => untouched (hsame outbox (by simp))
      enters := fun _ _ hv _ => untouched (hsame outbox (by simp)) hv
      leaves := fun _ => untouched (hsame outbox (by simp))
      archived_new := fun _ _ => untouched (hsame archived (by simp))
      archived_inj := fun _ _ _ _ hv hw _ => untouched_both (hsame archived (by simp)) hv hw
      key_row := fun _ _ => untouched (hsame keys (by simp))
      toExtendsCopies := .same (hsame copies (by simp))
      dlq_row := fun _ _ => untouched (hsame dlq (by simp)) }
  refine (Own.put_row_cases hv).imp id ?_
  rintro ⟨rfl, rfl⟩
  rw [hc, Option.some.injEq] at hcf
  subst hcf
  rcases hm with rfl | ⟨t, msg, rfl, hn, hw, hq⟩
  · exact Or.inl rfl
  · refine Or.inr ⟨t, some msg, rfl, hn, fun hx => by simp at hx, fun m hx => ?_⟩
    simp only [Option.some.injEq] at hx
    exact hx ▸ ⟨hw, hq⟩

/-- only the keys change -/
theorem extend_keys {o' : Held P} (hsame : ∀ t, t ≠ keys → o'.row t = o.row t)
    (hkeeps : ∀ t m v, o.row t m = some v → o'.row t m = some v ∨ t ≠ keys ∧ v ≠ none ∧ σ.com t m = v)
    (hholds : ∀ k, o.key k → o'.key k)
    (hkeys : ∀ k v, o'.row keys k = some v → o.row keys k = some v ∨ ∃ e, v = some e ∧ (σ.com keys k = some e ∨
      σ.com keys k = none ∧ o'.key (.event e) ∧ (∀ k', o.row keys k' ≠ some (some e)) ∧ (∀ k', σ.com keys k' ≠ some e) ∧
        ∀ k', o'.row keys k' = some (some e) → k' = k ∨ o.row keys k' = some (some e))) :
    Lawful env calls i o' σ :=
  h.extend
    { keeps := hkeeps
      holds := hholds
      key_row := hkeys
      step := fun _ _ => untouched (hsame outbox (by simp))
      enters := fun _ _ hv _ => untouched (hsame outbox (by simp)) hv
      leaves := fun _ => untouched (hsame outbox (by simp))
      archived_new := fun _ _ => untouched (hsame archived (by simp))
      archived_inj := fun _ _ _ _ hv hw _ => untouched_both (hsame archived (by simp)) hv hw
      toExtendsFailures := .same (hsame failures (by simp))
      toExtendsCopies := .same (hsame copies (by simp))
      dlq_row := fun _ _ => untouched (hsame dlq (by simp)) }

/-- a key row is locked -/
theorem put_key {k : ℕ} {e : String} (hc : σ.com keys k = some e) (ho : ∀ v, o.row keys k = some v → v = some e) :
    Lawful env calls i (o.put keys k (some e)) σ := by
  have hsame : ∀ t, t ≠ keys → (o.put keys k (some e)).row t = o.row t :=
    fun _ ht => Own.put_row_other _ _ _ ht
  refine h.extend_keys hsame (keeps_put fun v hv => Or.inl (ho v hv)) (fun _ hk => hk) fun k' v hv => ?_
  refine (Own.put_row_cases hv).imp id ?_
  rintro ⟨rfl, rfl⟩
  exact ⟨e, rfl, Or.inl hc⟩

/-- a key row is inserted; its index entry was free -/
theorem new_key {k : ℕ} {e : String} (hc : σ.com keys k = none) (ho : o.row keys k = none)
    (hn : ∀ k' e', o.view σ keys k' = some e' → e' ≠ e) :
    Lawful env calls i ((o.put keys k (some e)).take (.event e)) σ := by
  have hcom : ∀ k', σ.com keys k' ≠ some e := by
    intro k' hk'
    rcases hr : o.row keys k' with _ | v
    · exact hn k' e (by rw [Own.view_of_none hr, hk']) rfl
    · obtain ⟨e', rfl, hx | ⟨hx, -⟩⟩ := h.key_row k' v hr
      · rw [hx, Option.some.injEq] at hk'
        exact hn k' e' (Own.view_of_row hr) hk'
      · rw [hx] at hk'; simp at hk'
  have hown : ∀ k', o.row keys k' ≠ some (some e) := fun k' hk' => hn k' e (Own.view_of_row hk') rfl
  have hsame : ∀ t, t ≠ keys → ((o.put keys k (some e)).take (.event e)).row t = o.row t :=
    fun _ ht => Own.put_row_other _ _ _ ht
  refine h.extend_keys hsame (fun t m v hv => keeps_put (fun w hw => by rw [ho] at hw; simp at hw) t m v hv)
    (fun _ hk => Or.inr hk) fun k' v hv => ?_
  rw [Own.take_row] at hv
  refine (Own.put_row_cases hv).imp id ?_
  rintro ⟨rfl, rfl⟩
  refine ⟨e, rfl, Or.inr ⟨hc, Or.inl rfl, hown, hcom, fun k₂ hk₂ => ?_⟩⟩
  rw [Own.take_row] at hk₂
  exact (Own.put_row_cases hk₂).symm.imp And.left id

/-- a dead letter is stored, locked, or retired in favour of an active row -/
theorem put_dlq {d : ℕ} {r₁ : DlqMessage P}
    (hm : (σ.com dlq d = none ∧ o.row dlq d = none ∧ r₁.status = .pending ∧ r₁.retiredFor = none) ∨
      ∃ r₀, σ.com dlq d = some r₀ ∧ (∀ v, o.row dlq d = some v → v = some r₀) ∧ (r₁ = r₀ ∨
        ∃ e msg, r₁ = { r₀ with status := .requeued, requeuedAs := some e, retiredFor := some msg } ∧
          r₀.status = .pending ∧ WasActive σ msg e)) :
    Lawful env calls i (o.put dlq d (some r₁)) σ := by
  have hsame : ∀ t, t ≠ dlq → (o.put dlq d (some r₁)).row t = o.row t :=
    fun _ ht => Own.put_row_other _ _ _ ht
  refine h.extend
    { keeps := keeps_put fun v hv => ?_
      holds := fun _ hk => hk
      dlq_row := fun d' v hv => ?_
      step := fun _ _ => untouched (hsame outbox (by simp))
      enters := fun _ _ hv _ => untouched (hsame outbox (by simp)) hv
      leaves := fun _ => untouched (hsame outbox (by simp))
      archived_new := fun _ _ => untouched (hsame archived (by simp))
      archived_inj := fun _ _ _ _ hv hw _ => untouched_both (hsame archived (by simp)) hv hw
      toExtendsFailures := .same (hsame failures (by simp))
      key_row := fun _ _ => untouched (hsame keys (by simp))
      copy_new := fun _ _ => untouched (hsame copies (by simp))
      copy_inj := fun _ _ _ _ hv hw _ => untouched_both (hsame copies (by simp)) hv hw
      copy_failure := fun _ _ _ hv _ => untouched (hsame copies (by simp)) hv
      copy_dlq := fun _ _ _ hv _ => untouched (hsame copies (by simp)) hv }
  · rcases hm with ⟨-, ho, -⟩ | ⟨r₀, hc, ho, -⟩
    · rw [ho] at hv; simp at hv
    · exact Or.inr ⟨by simp, by simp [ho v hv], by rw [hc, ho v hv]⟩
  · refine (Own.put_row_cases hv).imp id ?_
    rintro ⟨rfl, rfl⟩
    rcases hm with ⟨hc, -, hs, hret⟩ | ⟨r₀, hc, -, rfl | ⟨e, msg, rfl, hs, hw⟩⟩
    · exact Or.inl ⟨hc, r₁, rfl, hs, hret⟩
    · exact Or.inr ⟨r₁, hc, Or.inl rfl⟩
    · refine Or.inr ⟨r₀, hc, Or.inr ⟨e, some msg, rfl, hs, fun hx => by simp at hx, fun m hx => ?_⟩⟩
      simp only [Option.some.injEq] at hx
      exact hx ▸ hw

end Lawful

/-! ## A row enters -/

/-- the mark on the record that the copy `cp` replays, on top of what the session owns -/
inductive Marked (o : Held P) (σ : State P) (cp : Copy P) : Held P → Prop
  | enqueue (hs : cp.source = .enqueue) : Marked o σ cp o
  | failure (f : ℕ) (r₀ : EventFailure P) (t : ℤ) (hs : cp.source = .failure f) (hc : σ.com failures f = some r₀)
      (hn : r₀.replayedAt = none) (hret : r₀.retiredFor = none) (hid : r₀.eventId = cp.event.eventId)
      (ho : ∀ v, o.row failures f = some v → v = some r₀) :
      Marked o σ cp (o.put failures f (some { r₀ with replayedAt := some t }))
  | dlq (d : ℕ) (r₀ : DlqMessage P) (hs : cp.source = .dlq d) (hc : σ.com dlq d = some r₀) (hp : r₀.status = .pending)
      (hret : r₀.retiredFor = none) (ho : ∀ v, o.row dlq d = some v → v = some r₀) :
      Marked o σ cp
        (o.put dlq d (some { r₀ with status := .requeued, requeuedAs := some cp.event.eventId }))

namespace Marked

variable {cp : Copy P} {o₁ : Held P} (hm : Marked o σ cp o₁)

include hm

theorem row_other {t : Tbl} (hf : t ≠ failures) (hd : t ≠ Tbl.dlq) : o₁.row t = o.row t := by
  cases hm with
  | enqueue => rfl
  | failure => exact Own.put_row_other _ _ _ hf
  | dlq => exact Own.put_row_other _ _ _ hd

theorem key_eq : o₁.key = o.key := by
  cases hm <;> rfl

theorem keeps (t : Tbl) (n : ℕ) (v : Option (Row P t)) (h : o.row t n = some v) :
    o₁.row t n = some v ∨ t ≠ keys ∧ v ≠ none ∧ σ.com t n = v := by
  cases hm with
  | enqueue => exact Or.inl h
  | failure f r₀ _ _ hc _ _ _ ho =>
    exact keeps_put (fun v hv => Or.inr ⟨by simp, by simp [ho v hv], by rw [hc, ho v hv]⟩) t n v h
  | dlq d r₀ _ hc _ _ ho =>
    exact keeps_put (fun v hv => Or.inr ⟨by simp, by simp [ho v hv], by rw [hc, ho v hv]⟩) t n v h

/-- a marked failure was unreplayed and is replayed by the copy -/
theorem failure_cases (f : ℕ) (v : Option (EventFailure P)) (h : o₁.row failures f = some v) :
    o.row failures f = some v ∨ ∃ r₀ t, cp.source = .failure f ∧ σ.com failures f = some r₀ ∧ r₀.replayedAt = none ∧
      r₀.retiredFor = none ∧ r₀.eventId = cp.event.eventId ∧ v = some { r₀ with replayedAt := some t } := by
  cases hm with
  | enqueue => exact Or.inl h
  | failure f' r₀ t hs hc hn hret hid =>
    refine (Own.put_row_cases h).imp id ?_
    rintro ⟨rfl, hv⟩
    exact ⟨r₀, t, hs, hc, hn, hret, hid, hv⟩
  | dlq => exact Or.inl (by simpa [Own.put_row_other] using h)

theorem dlq_cases (d : ℕ) (v : Option (DlqMessage P)) (h : o₁.row Tbl.dlq d = some v) :
    o.row Tbl.dlq d = some v ∨ ∃ r₀, cp.source = .dlq d ∧ σ.com Tbl.dlq d = some r₀ ∧ r₀.status = .pending ∧
      r₀.retiredFor = none ∧ v = some { r₀ with status := .requeued, requeuedAs := some cp.event.eventId } := by
  cases hm with
  | enqueue => exact Or.inl h
  | failure => exact Or.inl (by simpa [Own.put_row_other] using h)
  | dlq d' r₀ hs hc hp hret =>
    refine (Own.put_row_cases h).imp id ?_
    rintro ⟨rfl, hv⟩
    exact ⟨r₀, hs, hc, hp, hret, hv⟩

end Marked

/-- a fresh outbox row, as `enqueue_outbox` builds it -/
structure IsNew (r : OutboxMessage P) : Prop where
  named : r.eventId ≠ ""
  status : r.status = .pending
  attempts : r.attemptCount = 0
  claims : r.claims = 0
  lockedAt : r.lockedAt = none
  lockedBy : r.lockedBy = none

/-- the key of the event is held, and nothing of the event is pending -/
structure Ready (calls : ℕ → Call P) (o : Held P) (σ : State P) (source : Source) (e : String) : Prop where
  key : ∃ k, o.row keys k = some (some e)
  held : KeyHeld o σ e
  alone : ∀ m r, σ.com outbox m = some r → r.eventId = e → r.status ≠ .pending
  first : ∀ m r, o.row outbox m = some (some r) → σ.com outbox m = none → r.eventId ≠ e
  source : NoRequeue calls → (source = .enqueue ∧ ∀ k, σ.com keys k ≠ some e) ∨ ∃ f, source = .failure f

theorem Lawful.enter {n c : ℕ} {r : OutboxMessage P} {cp : Copy P} {o₁ : Held P} (h : Lawful env calls i o σ)
    (hm : Marked o σ cp o₁) (hnew : IsNew r) (hready : Ready calls o σ cp.source r.eventId)
    (hcn : σ.com outbox n = none) (hon : o.row outbox n = none) (hcc : σ.com copies c = none)
    (hoc : o.row copies c = none) (hfresh : ∀ c' cp', σ.com copies c' = some cp' → cp'.row ≠ n)
    (hlt : n < σ.next outbox) (hrow : cp.row = n) (hev : r.event = cp.event)
    (hs : (calls cp.session).commits = true) :
    Lawful env calls i ((o₁.put outbox n (some r)).put copies c (some cp)) σ := by
  have hid : r.eventId = cp.event.eventId := congrArg Event.eventId hev
  generalize ho₂ : (o₁.put outbox n (some r)).put copies c (some cp) = o₂
  have hout : ∀ m v, o₂.row outbox m = some v → o.row outbox m = some v ∨ m = n ∧ v = some r := by
    intro m v hv
    rw [← ho₂, Own.put_row_other _ _ _ (by simp)] at hv
    exact (Own.put_row_cases hv).imp_left fun hv => by rwa [hm.row_other (by simp) (by simp)] at hv
  have hself : o₂.row outbox n = some (some r) := by
    rw [← ho₂, Own.put_row_other _ _ _ (by simp), Own.put_row_self]
  have hcop : ∀ m v, o₂.row copies m = some v → o.row copies m = some v ∨ m = c ∧ v = some cp := by
    intro m v hv
    rw [← ho₂] at hv
    refine (Own.put_row_cases hv).imp_left fun hv => ?_
    rwa [Own.put_row_other _ _ _ (by simp), hm.row_other (by simp) (by simp)] at hv
  have hcself : o₂.row copies c = some (some cp) := by rw [← ho₂, Own.put_row_self]
  have hkeys : o₂.row keys = o.row keys := by
    rw [← ho₂, Own.put_row_other _ _ _ (by simp), Own.put_row_other _ _ _ (by simp),
      hm.row_other (by simp) (by simp)]
  have hfail : o₂.row failures = o₁.row failures := by
    rw [← ho₂, Own.put_row_other _ _ _ (by simp), Own.put_row_other _ _ _ (by simp)]
  have hdlq : o₂.row dlq = o₁.row dlq := by
    rw [← ho₂, Own.put_row_other _ _ _ (by simp), Own.put_row_other _ _ _ (by simp)]
  have harch : o₂.row archived = o.row archived := by
    rw [← ho₂, Own.put_row_other _ _ _ (by simp), Own.put_row_other _ _ _ (by simp),
      hm.row_other (by simp) (by simp)]
  have hkey : o₂.key = o.key := by rw [← ho₂]; exact hm.key_eq
  refine h.extend
    { keeps := fun t m v hv => ?_
      holds := fun k hk => by rwa [hkey]
      step := fun m v hv => (hout m v hv).imp id ?_
      enters := fun m x hv hx => (hout m _ hv).imp id ?_
      leaves := fun m hv => (hout m _ hv).imp id fun hx => by simp at hx
      archived_new := fun a v hv => Or.inl (by rwa [harch] at hv)
      archived_inj := fun a a' x x' hx hx' _ => Or.inr ⟨by rwa [harch] at hx, by rwa [harch] at hx'⟩
      failed_new := fun f v hv hx => ?_
      failed_inj := fun f f' x x' hx hx' hf hf' _ => ?_
      failed_mark := fun f v r₀ hv hx => ?_
      key_row := fun k v hv => Or.inl (by rwa [hkeys] at hv)
      copy_new := fun m v hv => (hcop m v hv).imp id ?_
      copy_inj := fun m m' x x' hx hx' he => ?_
      copy_failure := fun m x f hx hsrc => (hcop m _ hx).imp id ?_
      copy_dlq := fun m x d hx hsrc => (hcop m _ hx).imp id ?_
      dlq_row := fun d v hv => ?_ }
  · rintro ⟨rfl, rfl⟩
    exact ⟨hcc, cp, rfl, hs, hid ▸ hnew.named, r, hrow ▸ hself, hrow ▸ hcn, hev⟩
  · -- an old copy has another row, and replays another record
    have hold : ∀ m x, o.row copies m = some (some x) →
        ¬ (x.row = cp.row ∨ cp.source ≠ .enqueue ∧ cp.source = x.source) := by
      intro m x hx
      rintro (he | ⟨hne, he⟩)
      · obtain ⟨-, y, hy, -, -, z, hz, -⟩ := h.copy_new m _ hx
        simp only [Option.some.injEq] at hy
        rw [← hy, he, hrow, hon] at hz
        simp at hz
      · cases hm with
        | enqueue hs => exact hne hs
        | failure f r₀ t hs hc hn hret hid' ho =>
          obtain ⟨-, r₁, -, -, hr₁, hrep, -⟩ := h.copy_failure m x f hx (he ▸ hs)
          have := ho _ hr₁
          simp only [Option.some.injEq] at this
          exact hrep (this ▸ hn)
        | dlq d r₀ hs hc hp hret ho =>
          obtain ⟨-, r₁, -, -, hr₁, hreq, -⟩ := h.copy_dlq m x d hx (he ▸ hs)
          have := ho _ hr₁
          simp only [Option.some.injEq] at this
          rw [this, hp] at hreq
          simp at hreq
    rcases hcop m _ hx with ho | ⟨rfl, e₁⟩ <;> rcases hcop m' _ hx' with ho' | ⟨rfl, e₂⟩
    · exact Or.inr ⟨ho, ho'⟩
    · simp only [Option.some.injEq] at e₂
      subst e₂
      exact absurd (he.imp id fun ⟨hne, he⟩ => ⟨he ▸ hne, he.symm⟩) (hold m x ho)
    · simp only [Option.some.injEq] at e₁
      subst e₁
      exact absurd (he.imp Eq.symm id) (hold m' x' ho')
    · exact Or.inl rfl
  · rintro ⟨rfl, hxc⟩
    simp only [Option.some.injEq] at hxc
    subst hxc
    cases hm with
    | enqueue hs => rw [hs] at hsrc; simp at hsrc
    | failure f' r₀ t hs hc hn hret hid' =>
      rw [hs, Source.failure.injEq] at hsrc
      subst hsrc
      exact ⟨r₀, { r₀ with replayedAt := some t }, hc, hn, by rw [hfail, Own.put_row_self], by simp, hret, hid'⟩
    | dlq d r₀ hs => rw [hs] at hsrc; simp at hsrc
  · rintro ⟨rfl, hxc⟩
    simp only [Option.some.injEq] at hxc
    subst hxc
    cases hm with
    | enqueue hs => rw [hs] at hsrc; simp at hsrc
    | failure f' r₀ t hs => rw [hs] at hsrc; simp at hsrc
    | dlq d' r₀ hs hc hp hret =>
      rw [hs, Source.dlq.injEq] at hsrc
      subst hsrc
      exact ⟨r₀, { r₀ with status := .requeued, requeuedAs := some x.event.eventId }, hc, hp,
        by rw [hdlq, Own.put_row_self], rfl, hret, rfl⟩
  · rw [hfail] at hv
    rcases hm.failure_cases f v hv with ho | ⟨r₀, t, -, hc, -⟩
    · exact Or.inl ho
    · rw [hc] at hx; simp at hx
  · rw [hfail] at hx hx'
    rcases hm.failure_cases f _ hx with ho | ⟨r₀, t, -, hc, -⟩
    · rcases hm.failure_cases f' _ hx' with ho' | ⟨r₀, t, -, hc, -⟩
      · exact Or.inr ⟨ho, ho'⟩
      · rw [hc] at hf'; simp at hf'
    · rw [hc] at hf; simp at hf
  · rw [hfail] at hv
    rcases hm.failure_cases f v hv with ho | ⟨r₁, t, hsrc, hc, hn, hret, -, hv⟩
    · exact Or.inl ho
    · rw [hc, Option.some.injEq] at hx
      subst hx
      refine Or.inr (Or.inr ⟨t, none, ?_, hn, fun _ => ⟨c, cp, hcself, hsrc⟩, fun msg hmsg => by simp at hmsg⟩)
      rw [hv, ← hret]
  · have hk₁ : ∀ t m v, o₁.row t m = some v → (o₁.put outbox n (some r)).row t m = some v ∨
        t ≠ keys ∧ v ≠ none ∧ σ.com t m = v := by
      refine keeps_put fun v hv => ?_
      rw [hm.row_other (by simp) (by simp), hon] at hv
      simp at hv
    have hk₂ : ∀ t m v, (o₁.put outbox n (some r)).row t m = some v → o₂.row t m = some v ∨
        t ≠ keys ∧ v ≠ none ∧ σ.com t m = v := by
      rw [← ho₂]
      refine keeps_put fun v hv => ?_
      rw [Own.put_row_other _ _ _ (by simp), hm.row_other (by simp) (by simp), hoc] at hv
      simp at hv
    exact (hm.keeps t m v hv).elim (fun h₁ => (hk₁ t m v h₁).elim (hk₂ t m v) Or.inr) Or.inr
  · rintro ⟨rfl, rfl⟩
    rw [hcn]
    exact .enqueue r hnew.status hnew.attempts hnew.claims hnew.lockedAt hnew.lockedBy
  · rintro ⟨rfl, hxr⟩
    simp only [Option.some.injEq] at hxr
    subst hxr
    obtain ⟨k, hk⟩ := hready.key
    refine ⟨hfresh, hlt, ⟨c, cp, hcself, hrow⟩, ⟨k, by rwa [hkeys]⟩, ?_, hready.alone, fun m r' hm' hcm he => ?_,
      fun hq => ?_⟩
    · exact hready.held.imp (fun ⟨k, hk, hc⟩ => ⟨k, by rwa [hkeys], hc⟩) fun ⟨hk, hc⟩ => ⟨by rwa [hkey], hc⟩
    · rcases hout m _ hm' with ho | ⟨rfl, -⟩
      · exact absurd he (hready.first m r' ho hcm)
      · rfl
    · rcases hready.source hq with ⟨-, hk⟩ | ⟨f, hsrc⟩
      · exact Or.inl hk
      · right
        cases hm with
        | enqueue hs => rw [hs] at hsrc; simp at hsrc
        | failure f' r₀ t hs hc hn hret hid' =>
          exact ⟨f', r₀, { r₀ with replayedAt := some t }, hc, hn, hid'.trans hid.symm,
            by rw [hfail, Own.put_row_self], by simp⟩
        | dlq d r₀ hs => rw [hs] at hsrc; simp at hsrc
  · rw [hdlq] at hv
    rcases hm.dlq_cases d v hv with ho | ⟨r₀, hsrc, hc, hp, hret, hv⟩
    · exact Or.inl ho
    · refine Or.inr (Or.inr ⟨r₀, hc, Or.inr ⟨cp.event.eventId, none, ?_, hp, fun _ => ⟨c, cp, hcself, hsrc⟩,
        fun msg hmsg => by simp at hmsg⟩⟩)
      rw [hv, ← hret]

end LkmService.Outbox
