/-
One global event id.

At any moment an event id has at most one pending outbox row (`OneEventId.pending`). A failure record or a dead letter
is marked together with the one outbox row that replays it, or else alone, because a row of the same event was pending
(`OneEventId.replayed`, `OneEventId.requeued`); repeated and concurrent replays of one record enqueue it at most once.
-/
import LkmService.Outbox.Fencing

namespace LkmService.Outbox

open Session Sql Tbl

variable {P : Type} {env : Env P} {calls : ℕ → Call P} {i : ℕ} {σ τ : State P}

/-! ## Every moment -/

structure OneEventId (σ : State P) : Prop where
  pending : ∀ n n' r r', σ.com outbox n = some r → σ.com outbox n' = some r' → r.status = .pending →
    r'.status = .pending → r.eventId = r'.eventId → n = n'
  /-- of one record at most one copy is enqueued -/
  once : ∀ c c' cp cp', σ.com copies c = some cp → σ.com copies c' = some cp' → cp.source ≠ .enqueue →
    cp.source = cp'.source → c = c'
  replayed : ∀ f r, σ.com failures f = some r → (r.replayedAt ≠ none ↔
    (∃ c cp, σ.com copies c = some cp ∧ cp.source = .failure f ∧ cp.event.eventId = r.eventId ∧ r.retiredFor = none) ∨
      ∃ m, r.retiredFor = some m ∧ WasActive σ m r.eventId ∧
        ∀ c cp, σ.com copies c = some cp → cp.source ≠ .failure f)
  requeued : ∀ d r, σ.com dlq d = some r → (r.status = .requeued ↔
    (∃ c cp, σ.com copies c = some cp ∧ cp.source = .dlq d ∧ r.requeuedAs = some cp.event.eventId ∧
      r.retiredFor = none) ∨
      ∃ m e, r.retiredFor = some m ∧ r.requeuedAs = some e ∧ WasActive σ m e ∧
        ∀ c cp, σ.com copies c = some cp → cp.source ≠ .dlq d)

theorem Inv.replayed_iff (h : Inv calls σ) {f : ℕ} {r : EventFailure P} (hr : σ.com failures f = some r) :
    r.replayedAt ≠ none ↔
      (∃ c cp, σ.com copies c = some cp ∧ cp.source = .failure f ∧ cp.event.eventId = r.eventId ∧
        r.retiredFor = none) ∨
        ∃ m, r.retiredFor = some m ∧ WasActive σ m r.eventId ∧
          ∀ c cp, σ.com copies c = some cp → cp.source ≠ .failure f := by
  have hcopy : ∀ c cp, σ.com copies c = some cp → cp.source = .failure f →
      r.replayedAt ≠ none ∧ r.retiredFor = none ∧ r.eventId = cp.event.eventId := by
    intro c cp hc hs
    obtain ⟨r', hr', hrest⟩ := h.events.replays c cp f hc hs
    rw [hr, Option.some.injEq] at hr'
    exact hr' ▸ hrest
  constructor
  · intro hn
    rcases hret : r.retiredFor with _ | m
    · obtain ⟨c, cp, hc, hs⟩ := h.events.replayed f r hr hn hret
      exact Or.inl ⟨c, cp, hc, hs, (hcopy c cp hc hs).2.2.symm, rfl⟩
    · refine Or.inr ⟨m, rfl, (h.events.retired f r m hr hret).2, fun c cp hc hs => ?_⟩
      have := (hcopy c cp hc hs).2.1
      rw [hret] at this
      simp at this
  · rintro (⟨c, cp, hc, hs, -⟩ | ⟨m, hret, -⟩)
    · exact (hcopy c cp hc hs).1
    · exact (h.events.retired f r m hr hret).1

theorem Inv.requeued_iff (h : Inv calls σ) {d : ℕ} {r : DlqMessage P} (hr : σ.com dlq d = some r) :
    r.status = .requeued ↔
      (∃ c cp, σ.com copies c = some cp ∧ cp.source = .dlq d ∧ r.requeuedAs = some cp.event.eventId ∧
        r.retiredFor = none) ∨
        ∃ m e, r.retiredFor = some m ∧ r.requeuedAs = some e ∧ WasActive σ m e ∧
          ∀ c cp, σ.com copies c = some cp → cp.source ≠ .dlq d := by
  have hcopy : ∀ c cp, σ.com copies c = some cp → cp.source = .dlq d →
      r.status = .requeued ∧ r.retiredFor = none ∧ r.requeuedAs = some cp.event.eventId := by
    intro c cp hc hs
    obtain ⟨r', hr', hrest⟩ := h.events.requeues c cp d hc hs
    rw [hr, Option.some.injEq] at hr'
    exact hr' ▸ hrest
  constructor
  · intro hs
    rcases hret : r.retiredFor with _ | m
    · obtain ⟨c, cp, hc, hsrc⟩ := h.events.requeued d r hr hs hret
      exact Or.inl ⟨c, cp, hc, hsrc, (hcopy c cp hc hsrc).2.2, rfl⟩
    · obtain ⟨-, e, he, hw⟩ := h.events.dropped d r m hr hret
      refine Or.inr ⟨m, e, rfl, he, hw, fun c cp hc hsrc => ?_⟩
      have := (hcopy c cp hc hsrc).2.1
      rw [hret] at this
      simp at this
  · rintro (⟨c, cp, hc, hs, -⟩ | ⟨m, e, hret, -⟩)
    · exact (hcopy c cp hc hs).1
    · exact (h.events.dropped d r m hr hret).1

theorem Inv.oneEventId (h : Inv calls σ) : OneEventId σ :=
  ⟨h.events.pending_inj, h.events.source_inj, fun _ _ hr => h.replayed_iff hr, fun _ _ hr => h.requeued_iff hr⟩

/-! ## One move -/

/-- the mark on a record and the row that replays it are committed by the same move -/
structure Together (σ τ : State P) : Prop where
  replay : ∀ c cp f, σ.com copies c = none → τ.com copies c = some cp → cp.source = .failure f →
    RecordedAt τ cp.row cp.event .pending ∧ (∃ r, σ.com failures f = some r ∧ r.replayedAt = none) ∧
      ∃ r, τ.com failures f = some r ∧ r.replayedAt ≠ none
  requeue : ∀ c cp d, σ.com copies c = none → τ.com copies c = some cp → cp.source = .dlq d →
    RecordedAt τ cp.row cp.event .pending ∧ (∃ r, σ.com dlq d = some r ∧ r.status = .pending) ∧
      ∃ r, τ.com dlq d = some r ∧ r.status = .requeued
  failure : ∀ f r r', σ.com failures f = some r → r.replayedAt = none → τ.com failures f = some r' →
    r'.replayedAt ≠ none → r'.retiredFor = none →
    ∃ c cp, σ.com copies c = none ∧ τ.com copies c = some cp ∧ cp.source = .failure f
  letter : ∀ d r r', σ.com dlq d = some r → r.status = .pending → τ.com dlq d = some r' → r'.status = .requeued →
    r'.retiredFor = none → ∃ c cp, σ.com copies c = none ∧ τ.com copies c = some cp ∧ cp.source = .dlq d

theorem Act.together (h : Act env i σ τ) (hi : Inv calls σ) (hj : Inv calls τ) : Together σ τ where
  replay c cp f hc hcp hs := by
    obtain ⟨-, r₀, hr₀, hst, hev⟩ := h.added c cp hc hcp
    obtain ⟨r', hr', hn', hret', -⟩ := hj.events.replays c cp f hcp hs
    refine ⟨⟨r₀, hr₀, hst, hev⟩, ?_, r', hr', hn'⟩
    rcases hf : σ.com failures f with _ | r
    · -- a failure record written in this move is not replayed yet
      have := h.unmarked f r' hf hr'
      exact absurd this hn'
    · refine ⟨r, rfl, ?_⟩
      by_contra hn
      obtain ⟨r'', hr'', -, -, hsame⟩ := h.audit f r hf
      rw [hr', Option.some.injEq] at hr''
      have heq := hsame hn
      subst hr''
      subst heq
      obtain ⟨c', cp', hc', hs'⟩ := hi.events.replayed f r' hf hn hret'
      have hsame := hj.events.source_inj c c' cp cp' hcp (h.copies c' cp' hc') (by simp [hs]) (hs.trans hs'.symm)
      rw [← hsame, hc] at hc'
      simp at hc'
  requeue c cp d hc hcp hs := by
    obtain ⟨-, r₀, hr₀, hst, hev⟩ := h.added c cp hc hcp
    obtain ⟨r', hr', hs', hret', -⟩ := hj.events.requeues c cp d hcp hs
    refine ⟨⟨r₀, hr₀, hst, hev⟩, ?_, r', hr', hs'⟩
    rcases hd : σ.com dlq d with _ | r
    · have := h.unsent d r' hd hr'
      rw [hs'] at this
      simp at this
    · refine ⟨r, rfl, ?_⟩
      rcases hst' : r.status with _ | _
      · rfl
      · have heq := h.letters d r hd hst'
        rw [hr', Option.some.injEq] at heq
        subst heq
        obtain ⟨c', cp', hc', hsrc⟩ := hi.events.requeued d r' hd hst' hret'
        have hsame := hj.events.source_inj c c' cp cp' hcp (h.copies c' cp' hc') (by simp [hs]) (hs.trans hsrc.symm)
        rw [← hsame, hc] at hc'
        simp at hc'
  failure f r r' hr hn hr' hn' hret := by
    obtain ⟨c, cp, hc, hs⟩ := hj.events.replayed f r' hr' hn' hret
    refine ⟨c, cp, ?_, hc, hs⟩
    rcases hσ : σ.com Tbl.copies c with _ | cp₀
    · rfl
    · have := h.copies c cp₀ hσ
      rw [hc, Option.some.injEq] at this
      exact absurd (this ▸ hs) (hi.unreplayed_no_copy hr hn c cp₀ hσ)
  letter d r r' hr hp hr' hs' hret := by
    obtain ⟨c, cp, hc, hs⟩ := hj.events.requeued d r' hr' hs' hret
    refine ⟨c, cp, ?_, hc, hs⟩
    rcases hσ : σ.com Tbl.copies c with _ | cp₀
    · rfl
    · have heq := h.copies c cp₀ hσ
      rw [hc, Option.some.injEq] at heq
      obtain ⟨r₁, hr₁, hs₁, -⟩ := hi.events.requeues c cp₀ d hσ (heq ▸ hs)
      rw [hr, Option.some.injEq] at hr₁
      rw [← hr₁, hp] at hs₁
      simp at hs₁

/-- **One global event id.** After every schedule an event id has at most one pending row, each record is marked exactly
when it has been replayed or a row of its event was pending, it is enqueued at most once, and the mark comes with the
row in one move. -/
theorem one_event_id (env : Env P) (calls : ℕ → Call P) (ms : List Move) (m : Move) :
    OneEventId (after env calls ms) ∧ Together (after env calls ms) (after env calls (ms ++ [m])) :=
  ⟨(inv_after env calls ms).oneEventId,
    (act_after env calls ms m).together (inv_after env calls ms) (inv_after env calls (ms ++ [m]))⟩

/-! ## A record that is marked alone -/

theorem u_named : "u" ≠ "" := by decide

theorem v_named : "v" ≠ "" := by decide

/-- an event fails; a dead letter of the same event is sent back, and the failure is replayed while its row is pending -/
def demoReplays : ℕ → Call String
  | 0 => .enqueue [{ routingKey := "bad", payload := "x", eventId := some "e", uuid := ⟨"u", u_named⟩, now := 0 }] true
  | 1 => .relay [demoRound 1]
  | 2 => .deadLetter ⟨"d", by decide⟩ "good" (some "x") none
  | 3 => .requeue 0 { uuid := ⟨"v", v_named⟩, now := 3 }
  | _ => .replay 0 { routingKey := some "good", uuid := ⟨"w", by decide⟩, now := 4 }

theorem replay_marks_alone :
    ¬ ∀ f r, (after demoEnv demoReplays (demoMoves [0, 1, 2, 3, 4])).com failures f = some r → r.replayedAt ≠ none →
      ∃ c cp, (after demoEnv demoReplays (demoMoves [0, 1, 2, 3, 4])).com copies c = some cp ∧
        cp.source = .failure f := by
  intro h
  have hrun : ((after demoEnv demoReplays (demoMoves [0, 1, 2, 3, 4])).com failures 0).map
      (fun r => (r.replayedAt, r.retiredFor.isSome)) = some (some 4, true) := by decide +kernel
  obtain ⟨r, hr, hm⟩ := Option.map_eq_some_iff.1 hrun
  simp only [Prod.mk.injEq] at hm
  obtain ⟨c, cp, hc, hs⟩ := h 0 r hr (by simp [hm.1])
  obtain ⟨r', hr', -, hret, -⟩ := (inv_after demoEnv demoReplays _).events.replays c cp 0 hc hs
  rw [hr, Option.some.injEq] at hr'
  have := hm.2
  rw [hr', hret] at this
  simp at this

end LkmService.Outbox
