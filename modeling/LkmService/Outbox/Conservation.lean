/-
The outbox conserves events.

Whatever the sessions do and however their statements interleave, every enqueued copy of an event is recorded in exactly
one place (`Conserved`), stays recorded (`Kept`), and comes into being as one new pending row (`Added`). A transaction
that is rolled back leaves nothing behind.
-/
import LkmService.Outbox.Replay

namespace LkmService.Outbox

open Session Sql Tbl

variable {P : Type} {env : Env P} {calls : ℕ → Call P} {σ τ υ : State P}

/-! ## Runs -/

/-- what is committed after the schedule `ms` -/
def after (env : Env P) (calls : ℕ → Call P) (ms : List Move) : State P := (run (init env calls) ms).st.snap

theorem safe_after (env : Env P) (calls : ℕ → Call P) (ms : List Move) :
    (discipline env calls).protocol.Safe (run (init env calls) ms) :=
  (discipline env calls).protocol.run_safe (safe_init env calls) (legal_init env calls ms)

theorem inv_after (env : Env P) (calls : ℕ → Call P) (ms : List Move) : Inv calls (after env calls ms) :=
  (safe_after env calls ms).inv.1

/-- one move commits nothing, or what a commit of the session that moves may change -/
theorem act_after (env : Env P) (calls : ℕ → Call P) (ms : List Move) (m : Move) :
    Act env (Protocol.who m) (after env calls ms) (after env calls (ms ++ [m])) := by
  have hok : (discipline env calls).protocol.stepOk (run (init env calls) ms) m :=
    ((along_append ms [m]).1 (legal_init env calls (ms ++ [m]))).2.1
  unfold after
  rw [run_snoc]
  rcases (discipline env calls).protocol.step_act (safe_after env calls ms) hok with he | ha
  · rw [he]; exact Act.refl _ _ _
  · exact ha

/-- **Induction over the rest of a run.** -/
theorem after_induct {Φ : State P → Prop} (ms ms' : List Move)
    (hstep : ∀ i σ τ, Inv calls σ → Inv calls τ → Act env i σ τ → Φ σ → Φ τ) (h0 : Φ (after env calls ms)) :
    Φ (after env calls (ms ++ ms')) := by
  have hl := ((along_append ms ms').1 (legal_init env calls (ms ++ ms'))).2
  have := (discipline env calls).protocol.run_induct (Φ := fun d => Φ d.snap) (safe_after env calls ms) hl
    (fun i s t hs ht ha h => hstep i _ _ hs.1 ht.1 ha h) h0
  rwa [← run_append] at this

/-! ## What is conserved -/

/-- every copy is in one place and every place belongs to one copy -/
structure Conserved (calls : ℕ → Call P) (σ : State P) : Prop where
  placed : ∀ c cp, σ.com copies c = some cp → ∃! p, RecordedAt σ cp.row cp.event p
  copied : ∀ n ev p, RecordedAt σ n ev p → ∃! c, ∃ cp, σ.com copies c = some cp ∧ cp.row = n ∧ cp.event = ev
  /-- only committed enqueues are recorded or published -/
  committed : ∀ c cp, σ.com copies c = some cp → (calls cp.session).commits = true
  published : ∀ n b, (n, b) ∈ σ.ext.publishes → ∃ c cp, σ.com copies c = some cp ∧ cp.row = n
  /-- a replayed failure has added one copy of its event, an unreplayed one none -/
  replayed : ∀ f r, σ.com failures f = some r → r.replayedAt ≠ none →
    ∃! c, ∃ cp, σ.com copies c = some cp ∧ cp.source = .failure f ∧ cp.event.eventId = r.eventId
  unreplayed : ∀ f r, σ.com failures f = some r → r.replayedAt = none →
    ∀ c cp, σ.com copies c = some cp → cp.source ≠ .failure f

/-- nothing that is recorded at `σ` is dropped or rewritten up to `τ` -/
structure Kept (σ τ : State P) : Prop where
  copies : ∀ c cp, σ.com copies c = some cp → τ.com copies c = some cp
  /-- a failure record stays as audit; a replayed one does not change any more -/
  audit : ∀ f r, σ.com failures f = some r → ∃ r', τ.com failures f = some r' ∧ r'.event = r.event ∧
    r'.origin = r.origin ∧ (r.replayedAt ≠ none → r' = r)

/-- each new copy from `σ` to `τ` is a new pending row -/
def Added (σ τ : State P) : Prop :=
  ∀ c cp, σ.com copies c = none → τ.com copies c = some cp → (∀ ev p, ¬ RecordedAt σ cp.row ev p) ∧
    RecordedAt τ cp.row cp.event .pending

theorem Kept.refl (σ : State P) : Kept σ σ := ⟨fun _ _ h => h, fun _ r h => ⟨r, h, rfl, rfl, fun _ => rfl⟩⟩

theorem Kept.trans (h : Kept σ τ) (h' : Kept τ υ) : Kept σ υ where
  copies c cp hc := h'.copies c cp (h.copies c cp hc)
  audit f r hr := by
    obtain ⟨r₁, hr₁, he₁, ho₁, hs₁⟩ := h.audit f r hr
    obtain ⟨r₂, hr₂, he₂, ho₂, hs₂⟩ := h'.audit f r₁ hr₁
    refine ⟨r₂, hr₂, he₂.trans he₁, ho₂.trans ho₁, fun hn => ?_⟩
    have heq := hs₁ hn
    rw [hs₂ (heq ▸ hn), heq]

theorem Act.kept {i : ℕ} (h : Act env i σ τ) : Kept σ τ := ⟨h.copies, h.audit⟩

theorem Inv.placed (h : Inv calls σ) (c : ℕ) (cp : Copy P) (hc : σ.com copies c = some cp) :
    ∃! p, RecordedAt σ cp.row cp.event p := by
  obtain ⟨p, hp⟩ := h.places.placed c cp hc
  exact ⟨p, hp, fun q hq => h.places.once _ _ _ q p hq hp⟩

theorem Inv.copied (h : Inv calls σ) (n : ℕ) (ev : Event P) (p : Place) (hp : RecordedAt σ n ev p) :
    ∃! c, ∃ cp, σ.com copies c = some cp ∧ cp.row = n ∧ cp.event = ev := by
  obtain ⟨c, cp, hc, hrow, hev⟩ := h.places.copied n ev p hp
  refine ⟨c, ⟨cp, hc, hrow, hev⟩, ?_⟩
  rintro c' ⟨cp', hc', hrow', -⟩
  exact h.places.copy_inj c' c cp' cp hc' hc (hrow'.trans hrow.symm)

/-- a failure that is not retired is replayed exactly when a copy of its event has been enqueued for it -/
theorem Inv.replayed (h : Inv calls σ) {f : ℕ} {r : EventFailure P} (hr : σ.com failures f = some r)
    (hn : r.replayedAt ≠ none) (hret : r.retiredFor = none) :
    ∃! c, ∃ cp, σ.com copies c = some cp ∧ cp.source = .failure f ∧ cp.event.eventId = r.eventId := by
  obtain ⟨c, cp, hc, hs⟩ := h.events.replayed f r hr hn hret
  obtain ⟨r', hr', -, -, hid⟩ := h.events.replays c cp f hc hs
  rw [hr, Option.some.injEq] at hr'
  subst hr'
  refine ⟨c, ⟨cp, hc, hs, hid.symm⟩, ?_⟩
  rintro c' ⟨cp', hc', hs', -⟩
  exact h.events.source_inj c' c cp' cp hc' hc (by simp [hs']) (hs'.trans hs.symm)

theorem Inv.unreplayed_no_copy (h : Inv calls σ) {f : ℕ} {r : EventFailure P} (hr : σ.com failures f = some r)
    (hn : r.replayedAt = none) (c : ℕ) (cp : Copy P) (hc : σ.com copies c = some cp) : cp.source ≠ .failure f := by
  intro hs
  obtain ⟨r', hr', hn', -⟩ := h.events.replays c cp f hc hs
  rw [hr, Option.some.injEq] at hr'
  exact hn' (hr' ▸ hn)

theorem Inv.conserved (h : Inv calls σ) (hq : NoRequeue calls) : Conserved calls σ where
  placed := h.placed
  copied := h.copied
  committed := h.events.session
  published := h.fences.sent
  replayed f r hr hn := h.replayed hr hn ((h.strict hq).replaced f r hr)
  unreplayed _ _ hr hn := h.unreplayed_no_copy hr hn

theorem Act.addedTo {i : ℕ} (h : Act env i σ τ) (hi : Inv calls σ) (hj : Inv calls τ) : Added σ τ := by
  intro c cp hc hcp
  obtain ⟨-, r, hr, hs, he⟩ := h.added c cp hc hcp
  refine ⟨fun ev p hp => ?_, r, hr, hs, he⟩
  -- a row recorded before has a copy already
  obtain ⟨c', cp', hc', hrow, -⟩ := hi.places.copied _ _ _ hp
  have heq := hj.places.copy_inj c' c cp' cp (h.copies c' cp' hc') hcp hrow
  rw [heq, hc] at hc'
  simp at hc'

/-- a small service: events under the routing key `bad` can never be published, and every payload names the event `e` -/
def demoEnv : Env String where
  messageBusEnabled := true
  outboxLockTtl := 60
  pulsarOperationTimeout := 10
  jsonable p := p
  withEventId p _ := p
  eventId _ := some "e"
  permanentFailureReason rk _ := if rk = "bad" then some "no subscriber" else none

def demoRound (now : ℤ) : Round :=
  { claimNow := now, lockNow := now, publish := .returns true, resultNow := now }

/-- an event fails, is corrected and replayed, published, and archived -/
def demoCalls : ℕ → Call String
  | 0 => .enqueue [{ routingKey := "bad", payload := "x", eventId := some "e", uuid := ⟨"u", by decide⟩, now := 0 }] true
  | 1 => .relay [demoRound 1]
  | 2 => .replay 0 { routingKey := some "good", uuid := ⟨"v", by decide⟩, now := 2 }
  | 3 => .relay [demoRound 3]
  | _ => .archive 100 10 101 5

/-- the sessions one after the other -/
def demoMoves (sessions : List ℕ) : List Move := sessions.flatMap fun i => List.replicate 20 (.run i)

theorem demoCalls_no_requeue : NoRequeue demoCalls := by
  intro i
  unfold demoCalls
  split <;> rfl

end LkmService.Outbox
