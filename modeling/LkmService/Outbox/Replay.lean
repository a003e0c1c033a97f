/-
`replay_failure`, `worker_dlq.requeue` and the consumer that stores dead letters keep the discipline of the outbox; with
the modules before, every session of the system does (`wp_program`).

A replay and a requeue end in the same way: the new row is flushed, the record that it replays is marked, and both are
committed together (`wp_enterMarked`). When a row of the event is already pending the record is marked alone, which
happens only where dead letters are sent back (`Strict.pending_failed`).
-/
import LkmService.Outbox.Enqueue

namespace LkmService.Outbox

open Session Sql Sql.Discipline Tbl

variable {P : Type} {env : Env P} {calls : ℕ → Call P} {i : ℕ} {o : Held P} {σ τ : State P}

/-! ## A row and its mark -/

theorem Ready.later {source : Source} {e : String} (h : Ready calls o σ source e)
    (hl : (discipline env calls).Later i o σ τ) : Ready calls o τ source e where
  key := h.key
  held := Rely.keyHeld hl.rely h.held
  alone m r hr he hs := by
    obtain ⟨r₀, hr₀, he₀, hs₀⟩ := Rely.pending_held hl.rely e h.held m r hr he hs
    exact h.alone m r₀ hr₀ he₀ hs₀
  first m r hm hc := h.first m r hm ((hl.com_eq hm).symm.trans hc)
  source hq := by
    refine (h.source hq).imp (fun ⟨hs, hk⟩ => ⟨hs, ?_⟩) id
    rcases h.held with ⟨k, -, hc⟩ | ⟨ho, -⟩
    · exact absurd hc (hk k)
    · exact Rely.key_free hl.rely e ho hk

/-- the new row, the mark on the record that it replays, and the commit of both -/
theorem wp_enterMarked {t : Tbl} {m : ℕ} {x : Row P t} {f : Row P t → Row P t} {source : Source} {r : OutboxMessage P}
    {Q : Except Exn Bool → Held P → State P → Prop} (ht : t = failures ∨ t = dlq) (hs : (calls i).commits = true)
    (hL : Lawful env calls i o σ) (hx : o.row t m = some (some x)) (hnew : IsNew r)
    (hready : Ready calls o σ source r.eventId)
    (hmark : ∀ υ n, υ.com t m = σ.com t m →
      Marked o υ { row := n, event := r.event, source := source, session := i } (o.put t m (some (f x))))
    (hQ : ∀ b υ, Q (.ok b) {} υ) :
    (discipline env calls).wp i (do
      flush i source r
      let _ ← updateRow t m (fun _ => true) f
      commit
      pure true) Q o σ := by
  have hto : t ≠ outbox := by rintro rfl; simp at ht
  have htc : t ≠ copies := by rintro rfl; simp at ht
  have htk : t ≠ keys := by rintro rfl; simp at ht
  refine wp_bind (wp_flush fun τ n c hl hslot hon hoc => ?_)
  generalize ho₂ : (o.put outbox n (some r)).put copies c
    (some { row := n, event := r.event, source := source, session := i }) = o₂
  have hoc' : (o.put outbox n (some r)).row copies c = none := by rw [Own.put_row_other _ _ _ (by simp), hoc]
  have hx₂ : o₂.row t m = some (some x) := by
    rw [← ho₂, Own.put_row_other _ _ _ htc, Own.put_row_other _ _ _ hto, hx]
  refine wp_bind (wp_updateOwned rfl hx₂ fun υ hl₁ => wp_bind (wp_commit fun ω hl₂ => ?_))
  -- from the flush to the commit both numbers stay new and the record is held
  have hlω : (discipline env calls).Later i o₂ τ ω := hl₁.trans (later_of_write htk hl₂)
  have hslotω : Slots ω n c :=
    hslot.later (by rw [← ho₂]; simp [Own.put_row_other]) (by rw [← ho₂]; simp) hlω
  have hall : (discipline env calls).Later i o σ ω := by
    subst ho₂
    exact hl.trans (later_of_put hon (later_of_put hoc' hlω))
  have hown : o₂.put t m (some (f x)) = ((o.put t m (some (f x))).put outbox n (some r)).put copies c
      (some { row := n, event := r.event, source := source, session := i }) := by
    rw [← ho₂, Own.put_comm copies t _ _ _ _ htc.symm, Own.put_comm outbox t _ _ _ _ hto.symm]
  rw [hown]
  refine ⟨((hL.later hall).enter (hmark ω n (hall.com_eq hx)) hnew (hready.later hall) hslotω.outbox hon hslotω.copies
    hoc hslotω.fresh hslotω.lt rfl rfl hs).good hl₂.inv, wp_pure (hQ true _)⟩

theorem wp_refuse {Q : Except Exn Bool → Held P → State P → Prop} (hQ : ∀ b υ, Q (.ok b) {} υ) :
    (discipline env calls).wp i refuse Q o σ :=
  wp_bind (wp_rollback fun υ _ => wp_pure (hQ false υ))

/-- the record is marked alone, in favour of an active row -/
theorem wp_retire {t : Tbl} {m : ℕ} {x : Row P t} {e : String} {f : OutboxMessage P → Row P t → Row P t}
    {Q : Except Exn Bool → Held P → State P → Prop} (ht : t ≠ keys) (hL : Lawful env calls i o σ)
    (hout : ∀ n, o.row outbox n = none) (hx : o.row t m = some (some x))
    (hmark : ∀ υ n a, (discipline env calls).Later i o σ υ → υ.com outbox n = some a → a.status = .pending →
      a.eventId = e → ∀ ω, Lawful env calls i o ω → ω.com t m = σ.com t m → WasActive ω a e →
      Lawful env calls i (o.put t m (some (f a x))) ω)
    (hQ : ∀ b υ, Q (.ok b) {} υ) :
    (discipline env calls).wp i (do
      match ← activeRows e with
      | [] => refuse
      | (_, active) :: _ => do
        let _ ← updateRow t m (fun _ => true) (f active)
        commit
        pure true) Q o σ := by
  refine wp_bind (wp_select fun τ hl l hmem _ => ?_)
  rcases l with _ | ⟨⟨n, a⟩, l⟩
  · exact wp_refuse hQ
  · obtain ⟨hv, hp⟩ := (hmem n a).1 List.mem_cons_self
    rw [Own.view_of_none (hout n)] at hv
    simp only [Bool.and_eq_true, beq_iff_eq] at hp
    refine wp_bind (wp_updateOwned rfl hx fun υ hl₁ => wp_bind (wp_commit fun ω hl₂ => ?_))
    have hall := (hl.trans hl₁).trans (later_of_write ht hl₂)
    have hw : WasActive τ a e := by
      obtain ⟨c, cp, hc, hrow⟩ := hl.inv.copy hv
      exact ⟨hp.2, hp.1, c, cp, hc, (hl.inv.places.event_eq hc (hrow ▸ hv)).symm⟩
    have hwω := hw.mono (Rely.copies (hl₁.trans (later_of_write ht hl₂)).rely)
    exact ⟨(hmark τ n a hl hv hp.2 hp.1 ω (hL.later hall) (hall.com_eq hx) hwω).good hl₂.inv, wp_pure (hQ true _)⟩

/-! ## replay_failure -/

/-- the event id of a failure record is not empty -/
theorem Inv.failure_named (h : Inv calls σ) {f : ℕ} {r : EventFailure P} (hr : σ.com failures f = some r) :
    r.eventId ≠ "" := by
  obtain ⟨c, cp, hc, -, he⟩ := h.places.copied r.origin r.event (.failed f) ⟨r, hr, rfl, rfl⟩
  have hid : cp.event.eventId = r.eventId := congrArg Event.eventId he
  exact hid ▸ h.events.named c cp hc

theorem Inv.unreplayed (h : Inv calls σ) {f : ℕ} {r : EventFailure P} (hr : σ.com failures f = some r)
    (hn : r.replayedAt = none) : r.retiredFor = none := by
  rcases hret : r.retiredFor with _ | m
  · rfl
  · exact absurd hn (h.events.retired f r m hr hret).1

theorem wp_replayFailure {f : ℕ} {c : Correction P} {Q : Except Exn Bool → Held P → State P → Prop}
    (hs : (calls i).commits = true) (hQ : ∀ b υ, Q (.ok b) {} υ) :
    (discipline env calls).wp i (replayFailure env i f c) Q {} σ := by
  refine wp_bind (wp_lockRow (fun τ _ _ => wp_refuse hQ) fun τ row hl hv _ => ?_)
  have hc : τ.com failures f = some row := hv
  show (discipline env calls).wp i (if _ then refuse else _) Q _ τ
  split_ifs with href
  · exact wp_refuse hQ
  · simp only [Bool.or_eq_true, not_or, Bool.not_eq_true, Option.isSome_eq_false_iff, Option.isNone_iff_eq_none] at href
    have hn : row.replayedAt = none := href.1.1
    have hret := hl.inv.unreplayed hc hn
    have heid : (c.enqueue row).eid = row.eventId := if_neg (hl.inv.failure_named hc)
    have hL : Lawful env calls i (({} : Held P).put failures f (some row)) τ :=
      Lawful.empty.put_failure hc (fun v hv => by simp at hv) (Or.inl rfl)
    refine wp_bind (wp_enqueueReplay hL (fun n => by simp [Own.put_row_other]) rfl (fun o₁ υ hL₁ hk => ?_)
      fun o₁ υ r hL₁ hk hnew hid hkey hheld halone => ?_)
    all_goals
      have hrow : o₁.row failures f = some (some row) := by rw [hk.row failures (by simp), Own.put_row_self]
      have hcom : υ.com failures f = some row := (hk.com failures f (by simp)).trans hc
      have hout : ∀ n, o₁.row outbox n = none := fun n => by
        rw [hk.row outbox (by simp)]; simp [Own.put_row_other]
      have hlock : ∀ v, o₁.row failures f = some v → v = some row := fun v hv => by
        rw [hrow, Option.some.injEq] at hv; exact hv.symm
    · refine wp_retire (by simp) hL₁ hout hrow (fun χ n a hlχ ha hp hea ω hLω hcω hw => ?_) hQ
      have hcω' := hcω.trans hcom
      refine hLω.put_failure hcω' hlock (Or.inr ⟨c.now, a, rfl, hn, hw, fun hq => ?_⟩)
      exact (hlχ.inv.strict hq).pending_failed n a f row ha hp ((hlχ.com_eq hrow).trans hcom) hea.symm hn
    · rw [heid] at hid hkey hheld halone
      refine wp_enterMarked (Or.inl rfl) hs hL₁ hrow hnew ⟨hid ▸ hkey, hid ▸ hheld, hid ▸ halone,
        fun m x hm => by rw [hout m] at hm; simp at hm, fun _ => Or.inr ⟨f, rfl⟩⟩ (fun ω n hω => ?_) hQ
      exact .failure f row c.now rfl (hω.trans hcom) hn hret hid.symm hlock

/-! ## Dead letters -/

theorem dlqEventId_ne (idHex : Hex) (parsed : P) : dlqEventId env idHex parsed ≠ "" := by
  unfold dlqEventId
  split
  · split_ifs with h
    · exact idHex.2
    · exact h
  · exact idHex.2

theorem wp_requeue {d : ℕ} {c : Correction P} {Q : Except Exn Bool → Held P → State P → Prop}
    (hs : (calls i).commits = true) (hq : (calls i).requeues = true) (hQ : ∀ b υ, Q (.ok b) {} υ) :
    (discipline env calls).wp i (requeue env i d c) Q {} σ := by
  refine wp_bind (wp_lockRow (fun τ _ _ => wp_refuse hQ) fun τ m hl hv _ => ?_)
  have hc : τ.com dlq d = some m := hv
  have hL : Lawful env calls i (({} : Held P).put dlq d (some m)) τ :=
    Lawful.empty.put_dlq (Or.inr ⟨m, hc, fun v hv => by simp at hv, Or.inl rfl⟩)
  dsimp only
  split
  · exact wp_refuse hQ
  · next parsed _ =>
    show (discipline env calls).wp i (if _ then refuse else _) Q _ τ
    split_ifs with href
    · exact wp_refuse hQ
    · simp only [ne_eq, Bool.or_eq_true, decide_eq_true_eq, not_or, not_not] at href
      have hp : m.status = .pending := href.1.1
      have hret : m.retiredFor = none := by
        rcases h : m.retiredFor with _ | a
        · rfl
        · have := (hl.inv.events.dropped d m a hc h).1
          rw [hp] at this; simp at this
      have heid : ∀ q : Enqueue P, q.eventId = some (dlqEventId env m.idHex parsed) →
          q.eid = dlqEventId env m.idHex parsed := by
        intro q hq
        rw [Enqueue.eid, hq]
        exact if_neg (dlqEventId_ne _ _)
      refine wp_bind (wp_enqueueReplay hL (fun n => by simp [Own.put_row_other]) rfl (fun o₁ υ hL₁ hk => ?_)
        fun o₁ υ r hL₁ hk hnew hid hkey hheld halone => ?_)
      all_goals
        have hrow : o₁.row dlq d = some (some m) := by rw [hk.row dlq (by simp), Own.put_row_self]
        have hcom : υ.com dlq d = some m := (hk.com dlq d (by simp)).trans hc
        have hout : ∀ n, o₁.row outbox n = none := fun n => by
          rw [hk.row outbox (by simp)]; simp [Own.put_row_other]
        have hlock : ∀ v, o₁.row dlq d = some v → v = some m := fun v hv => by
          rw [hrow, Option.some.injEq] at hv; exact hv.symm
      · refine wp_retire (by simp) hL₁ hout hrow (fun _ _ a _ _ _ _ ω hLω hcω hw => ?_) hQ
        exact hLω.put_dlq (Or.inr ⟨m, hcω.trans hcom, hlock, Or.inr ⟨_, a, rfl, hp, hw⟩⟩)
      · rw [heid _ rfl] at hid hkey hheld halone
        refine wp_enterMarked (Or.inr rfl) hs hL₁ hrow hnew ⟨hid ▸ hkey, hid ▸ hheld, hid ▸ halone,
          fun m x hm => by rw [hout m] at hm; simp at hm, fun hno => ?_⟩ (fun ω n hω => ?_) hQ
        · rw [hno i] at hq; simp at hq
        · have hmark : Marked o₁ ω { row := n, event := r.event, source := .dlq d, session := i } _ :=
            .dlq d m rfl (hω.trans hcom) hp hret hlock
          have hevent : r.event.eventId = dlqEventId env m.idHex parsed := hid
          rwa [hevent] at hmark

/-- index entries of the dead letters mean nothing to the outbox -/
theorem Lawful.take_source (h : Lawful env calls i o σ) (s : String) : Lawful env calls i (o.take (.source s)) σ :=
  h.extend_keys (fun _ _ => rfl) (fun _ _ _ hv => Or.inl hv) (fun _ hk => Or.inr hk) fun _ _ hv => Or.inl hv

theorem wp_persist {m : DlqMessage P} {Q : Except Exn Unit → Held P → State P → Prop} (hp : m.status = .pending)
    (hret : m.retiredFor = none) (hQ : ∀ υ, Q (.ok ()) {} υ) :
    (discipline env calls).wp i (persist m) Q {} σ := by
  have hstore : ∀ υ n, υ.com dlq n = none → Lawful env calls i (({} : Held P).put dlq n (some m)) υ :=
    fun υ n hc => Lawful.empty.put_dlq (Or.inl ⟨hc, rfl, hp, hret⟩)
  unfold persist
  split
  · next s _ =>
    refine wp_bind (wp_insertUnique (fun τ k r hl hv hc => wp_rollback fun υ _ => hQ υ) fun τ hl hn => ?_)
    refine wp_commit fun ω hl₁ => ⟨?_, hQ _⟩
    have hc : ω.com dlq (τ.next dlq) = none := by
      rw [hl₁.com dlq _ (by simp), Snap.bump_com, (hl.fresh dlq _ (Nat.le_refl _)).1]
    exact ((hstore ω _ hc).take_source s).good hl₁.inv
  · refine wp_bind (wp_insert fun τ hl => wp_commit fun ω hl₁ => ⟨?_, hQ _⟩)
    have hc : ω.com dlq (τ.next dlq) = none := by
      rw [hl₁.com dlq _ (by simp), Snap.bump_com, (hl.fresh dlq _ (Nat.le_refl _)).1]
    exact (hstore ω _ hc).good hl₁.inv

/-! ## Every session -/

theorem wp_program {calls : ℕ → Call P} (σ : State P) :
    (discipline env calls).wp i (program env i (calls i)) (fun _ _ _ => True) {} σ := by
  rcases hcall : calls i with ⟨qs, b⟩ | rds | ⟨now, ret, at', limit⟩ | ⟨f, c⟩ | ⟨idHex, rk, payload, src⟩ | ⟨d, c⟩
  · exact wp_enqueueTransaction (fun hb => by rw [hcall]; exact hb) fun _ _ => trivial
  · exact wp_bind (wp_relayPoll fun _ _ => wp_pure trivial)
  · exact wp_bind (wp_archivePublished fun _ _ => wp_pure trivial)
  · exact wp_bind (wp_replayFailure (by rw [hcall]; rfl) fun _ _ => wp_pure trivial)
  · exact wp_persist rfl rfl fun _ => trivial
  · exact wp_bind (wp_requeue (by rw [hcall]; rfl) (by rw [hcall]; rfl) fun _ _ => wp_pure trivial)

/-- the invariant holds of the empty tables -/
theorem inv_empty (calls : ℕ → Call P) : Inv calls (({ ext := {} } : Store P).snap) := by
  generalize hσ : ({ ext := {} } : Store P).snap = σ
  have hcom : ∀ t n, σ.com t n = none := fun t n => by rw [← hσ, Db.com_empty]
  have hext : σ.ext = {} := by rw [← hσ]; rfl
  have hrec : ∀ n ev p, ¬ RecordedAt σ n ev p := by
    intro n ev p h
    cases p <;>
    · obtain ⟨r, hr, -⟩ := h
      rw [hcom] at hr
      simp at hr
  exact
  { places := by constructor <;> intros <;> simp_all
    fences := by constructor <;> intros <;> simp_all
    events := by constructor <;> intros <;> simp_all
    strict := fun _ => by constructor <;> intros <;> simp_all }

theorem safe_init (env : Env P) (calls : ℕ → Call P) : (discipline env calls).protocol.Safe (init env calls) :=
  safe_start (inv_empty calls) (fun _ => trivial) (fun _ => Db.own_empty _) fun _ => wp_program _

theorem legal_init (env : Env P) (calls : ℕ → Call P) (ms : List Move) :
    (discipline env calls).protocol.Legal (init env calls) ms :=
  legal_of_ok (fun _ _ _ _ => trivial) (fun _ _ _ => trivial) _ ms

end LkmService.Outbox
