/-
What a session may have done when it commits (`Lawful`), and that such a commit keeps the discipline of the outbox.

`Lawful` speaks of the session's own versions row by row: an outbox row moves by a `RowStep`; a row that enters comes
with its copy and under its event's key (`Enters`); a row that leaves has gone to the archive or to the failures in the
same transaction (`Leaves`); a replayed record is marked together with its copy. `Lawful.good` is the result: places,
fences, events and what the other sessions rely on are all kept.
-/
import LkmService.Outbox.Invariant

namespace LkmService.Outbox

open Session Sql Tbl

variable {P : Type}

/-! ## Lawful commits -/

/-- outbox row `n` is inserted as `r` -/
structure Enters (calls : ℕ → Call P) (o : Held P) (σ : State P) (n : ℕ) (r : OutboxMessage P) : Prop where
  fresh : ∀ c cp, σ.com copies c = some cp → cp.row ≠ n
  lt : n < σ.next outbox
  copy : ∃ c cp, o.row copies c = some (some cp) ∧ cp.row = n
  key : ∃ k, o.row keys k = some (some r.eventId)
  held : KeyHeld o σ r.eventId
  alone : ∀ m r', σ.com outbox m = some r' → r'.eventId = r.eventId → r'.status ≠ .pending
  only : ∀ m r', o.row outbox m = some (some r') → σ.com outbox m = none → r'.eventId = r.eventId → m = n
  /-- the event is new, or the failure that it replays is marked -/
  replaces : NoRequeue calls → (∀ k, σ.com keys k ≠ some r.eventId) ∨ ∃ f r₀ r₁, σ.com failures f = some r₀ ∧
    r₀.replayedAt = none ∧ r₀.eventId = r.eventId ∧ o.row failures f = some (some r₁) ∧ r₁.replayedAt ≠ none

/-- outbox row `n`, committed as `r`, is deleted: its record has moved -/
def Leaves (o : Held P) (σ : State P) (n : ℕ) (r : OutboxMessage P) : Prop :=
  (r.status = .published ∧ ∃ a r', o.row archived a = some (some r') ∧ r'.origin = n ∧ r'.event = r.event) ∨
    (r.status = .pending ∧ ∃ f r', o.row failures f = some (some r') ∧ σ.com failures f = none ∧ r'.origin = n ∧
      r'.event = r.event)

structure Lawful (env : Env P) (calls : ℕ → Call P) (i : ℕ) (o : Held P) (σ : State P) : Prop where
  step : ∀ n v, o.row outbox n = some v → RowStep env i σ.ext n (σ.com outbox n) v
  enters : ∀ n r, o.row outbox n = some (some r) → σ.com outbox n = none → Enters calls o σ n r
  leaves : ∀ n, o.row outbox n = some none → ∃ r, σ.com outbox n = some r ∧ Leaves o σ n r
  archived_new : ∀ a v, o.row archived a = some v → σ.com archived a = none ∧ ∃ r, v = some r ∧
    o.row outbox r.origin = some none ∧ ∃ r₀, σ.com outbox r.origin = some r₀ ∧ r₀.status = .published
  archived_inj : ∀ a a' r r', o.row archived a = some (some r) → o.row archived a' = some (some r') →
    r.origin = r'.origin → a = a'
  failed_new : ∀ f v, o.row failures f = some v → σ.com failures f = none → ∃ r, v = some r ∧ r.replayedAt = none ∧
    r.retiredFor = none ∧ o.row outbox r.origin = some none ∧
      ∃ r₀, σ.com outbox r.origin = some r₀ ∧ r₀.status = .pending ∧ r₀.eventId = r.eventId
  failed_inj : ∀ f f' r r', o.row failures f = some (some r) → o.row failures f' = some (some r') →
    σ.com failures f = none → σ.com failures f' = none → r.origin = r'.origin → f = f'
  failed_mark : ∀ f v r₀, o.row failures f = some v → σ.com failures f = some r₀ → v = some r₀ ∨
    ∃ t m, v = some { r₀ with replayedAt := some t, retiredFor := m } ∧ r₀.replayedAt = none ∧
      (m = none → ∃ c cp, o.row copies c = some (some cp) ∧ cp.source = .failure f) ∧
      ∀ msg, m = some msg → WasActive σ msg r₀.eventId ∧ ¬ NoRequeue calls
  key_row : ∀ k v, o.row keys k = some v → ∃ e, v = some e ∧ (σ.com keys k = some e ∨
    σ.com keys k = none ∧ o.key (.event e) ∧ (∀ k', σ.com keys k' ≠ some e) ∧
      ∀ k', o.row keys k' = some (some e) → k' = k)
  copy_new : ∀ c v, o.row copies c = some v → σ.com copies c = none ∧ ∃ cp, v = some cp ∧
    (calls cp.session).commits = true ∧ cp.event.eventId ≠ "" ∧
      ∃ r, o.row outbox cp.row = some (some r) ∧ σ.com outbox cp.row = none ∧ r.event = cp.event
  copy_inj : ∀ c c' cp cp', o.row copies c = some (some cp) → o.row copies c' = some (some cp') →
    cp.row = cp'.row ∨ cp.source ≠ .enqueue ∧ cp.source = cp'.source → c = c'
  copy_failure : ∀ c cp f, o.row copies c = some (some cp) → cp.source = .failure f →
    ∃ r₀ r₁, σ.com failures f = some r₀ ∧ r₀.replayedAt = none ∧ o.row failures f = some (some r₁) ∧
      r₁.replayedAt ≠ none ∧ r₁.retiredFor = none ∧ r₁.eventId = cp.event.eventId
  copy_dlq : ∀ c cp d, o.row copies c = some (some cp) → cp.source = .dlq d →
    ∃ r₀ r₁, σ.com dlq d = some r₀ ∧ r₀.status = .pending ∧ o.row dlq d = some (some r₁) ∧ r₁.status = .requeued ∧
      r₁.retiredFor = none ∧ r₁.requeuedAs = some cp.event.eventId
  dlq_row : ∀ d v, o.row dlq d = some v →
    (σ.com dlq d = none ∧ ∃ r, v = some r ∧ r.status = .pending ∧ r.retiredFor = none) ∨
      ∃ r₀, σ.com dlq d = some r₀ ∧ (v = some r₀ ∨
        ∃ e m, v = some { r₀ with status := .requeued, requeuedAs := some e, retiredFor := m } ∧
          r₀.status = .pending ∧ (m = none → ∃ c cp, o.row copies c = some (some cp) ∧ cp.source = .dlq d) ∧
          ∀ msg, m = some msg → WasActive σ msg e)

variable {env : Env P} {calls : ℕ → Call P} {i : ℕ} {o : Held P} {σ : State P}

/-! ## Single rows -/

theorem event_id_eq {r r' : OutboxMessage P} (h : r.event = r'.event) : r.eventId = r'.eventId :=
  congrArg Event.eventId h

theorem event_id_of_copy {r : OutboxMessage P} {cp : Copy P} (h : r.event = cp.event) :
    r.eventId = cp.event.eventId := congrArg Event.eventId h

/-- a row that stays keeps its event -/
theorem RowStep.event {e : Ext} {n : ℕ} {r r' : OutboxMessage P} (h : RowStep env i e n (some r) (some r')) :
    r'.event = r.event := by
  cases h <;> rfl

/-- a row that a commit leaves pending was pending -/
theorem RowStep.pending {e : Ext} {n : ℕ} {r r' : OutboxMessage P} (h : RowStep env i e n (some r) (some r'))
    (hp : r'.status = .pending) : r.status = .pending := by
  cases h with
  | publish tok t => exact absurd hp (by simp)
  | _ => exact hp

theorem RowStep.live {e : Ext} {n : ℕ} {v : Option (OutboxMessage P)} {r' : OutboxMessage P}
    (h : RowStep env i e n v (some r')) (hv : ∀ r, v = some r → r.status ≠ .failed) : r'.status ≠ .failed := by
  cases h with
  | keep => exact hv _ rfl
  | enqueue _ hs => rw [hs]; simp
  | publish tok t => simp
  | claim r => exact hv r rfl
  | giveBack r => exact hv r rfl
  | retry r => exact hv r rfl

theorem live_place {r : OutboxMessage P} {n : ℕ} (h : σ.com outbox n = some r) (hs : r.status ≠ .failed) :
    RecordedAt σ n r.event .pending ∧ r.status = .pending ∨ RecordedAt σ n r.event .published ∧ r.status = .published := by
  rcases hr : r.status with _ | _ | _
  · exact Or.inl ⟨⟨r, h, hr, rfl⟩, rfl⟩
  · exact Or.inr ⟨⟨r, h, hr, rfl⟩, rfl⟩
  · exact absurd hr hs

/-- the outbox row of a copy carries the copy's event -/
theorem Places.event_eq (h : Places σ) {c : ℕ} {cp : Copy P} {r : OutboxMessage P} (hc : σ.com copies c = some cp)
    (hr : σ.com outbox cp.row = some r) : r.event = cp.event := by
  obtain ⟨p, hp⟩ := h.placed c cp hc
  have hlive := live_place hr (h.live _ _ hr)
  have hsame : ∀ q, RecordedAt σ cp.row r.event q → p = q := fun q hq => h.once _ _ _ _ _ hp hq
  rcases hlive with ⟨hq, -⟩ | ⟨hq, -⟩ <;>
  · obtain rfl := hsame _ hq
    obtain ⟨r', hr', -, he⟩ := hp
    rw [hr, Option.some.injEq] at hr'
    rw [hr', he]

/-- a live outbox row has no record elsewhere -/
theorem Places.live_only (h : Places σ) {n : ℕ} {r : OutboxMessage P} {ev : Event P} {p : Place}
    (hr : σ.com outbox n = some r) (hp : RecordedAt σ n ev p) : p = .pending ∨ p = .published := by
  rcases live_place hr (h.live _ _ hr) with ⟨hq, -⟩ | ⟨hq, -⟩
  · exact Or.inl (h.once _ _ _ _ _ hp hq)
  · exact Or.inr (h.once _ _ _ _ _ hp hq)

namespace Lawful

variable (hL : Lawful env calls i o σ)

include hL

theorem rowStep (n : ℕ) : RowStep env i σ.ext n (σ.com outbox n) ((σ.merge o).com outbox n) := by
  rcases h : o.row outbox n with _ | v
  · rw [Snap.merge_of_none h]; exact .keep _
  · rw [Snap.merge_of_some h]; exact hL.step n v h

theorem copies_mono (c : ℕ) (cp : Copy P) (h : σ.com copies c = some cp) : (σ.merge o).com copies c = some cp := by
  rcases ho : o.row copies c with _ | v
  · rwa [Snap.merge_of_none ho]
  · have := (hL.copy_new c v ho).1
    rw [h] at this
    simp at this

theorem keys_mono (k : ℕ) (e : String) (h : σ.com keys k = some e) : (σ.merge o).com keys k = some e := by
  rcases ho : o.row keys k with _ | v
  · rwa [Snap.merge_of_none ho]
  · obtain ⟨e', rfl, hc | ⟨hc, -⟩⟩ := hL.key_row k v ho
    · rw [Snap.merge_of_some ho, ← hc, h]
    · rw [h] at hc; simp at hc

/-- an archived row is old, or its outbox row is deleted in the same transaction -/
theorem archived_cases {a : ℕ} {r : OutboxArchived P} (h : (σ.merge o).com archived a = some r) :
    σ.com archived a = some r ∧ o.row archived a = none ∨
      o.row archived a = some (some r) ∧ o.row outbox r.origin = some none := by
  rcases Snap.merge_cases h with ho | ⟨ho, hc⟩
  · obtain ⟨-, r', hr, hout, -⟩ := hL.archived_new a _ ho
    simp only [Option.some.injEq] at hr
    subst hr
    exact Or.inr ⟨ho, hout⟩
  · exact Or.inl ⟨hc, ho⟩

theorem archived_mono (a : ℕ) (r : OutboxArchived P) (h : σ.com archived a = some r) :
    (σ.merge o).com archived a = some r := by
  rcases ho : o.row archived a with _ | v
  · rwa [Snap.merge_of_none ho]
  · have := (hL.archived_new a v ho).1
    rw [h] at this
    simp at this

/-- a failure record is old, perhaps with a new mark, or its outbox row is deleted in the same transaction -/
theorem failed_cases {f : ℕ} {r : EventFailure P} (h : (σ.merge o).com failures f = some r) :
    (∃ r₀, σ.com failures f = some r₀ ∧ r₀.event = r.event ∧ r₀.origin = r.origin) ∨
      o.row failures f = some (some r) ∧ σ.com failures f = none ∧ o.row outbox r.origin = some none := by
  rcases Snap.merge_cases h with ho | ⟨-, hc⟩
  · rcases hc : σ.com failures f with _ | r₀
    · obtain ⟨r', hr, -, -, hout, -⟩ := hL.failed_new f _ ho hc
      simp only [Option.some.injEq] at hr
      subst hr
      exact Or.inr ⟨ho, rfl, hout⟩
    · left
      rcases hL.failed_mark f _ r₀ ho hc with hr | ⟨t, m, hr, -⟩ <;>
      · simp only [Option.some.injEq] at hr
        subst hr
        exact ⟨_, rfl, rfl, rfl⟩
  · exact Or.inl ⟨r, hc, rfl, rfl⟩

theorem failed_mono (f : ℕ) (r : EventFailure P) (h : σ.com failures f = some r) :
    ∃ r', (σ.merge o).com failures f = some r' ∧ r'.event = r.event ∧ r'.origin = r.origin ∧
      (r.replayedAt ≠ none → r' = r) := by
  rcases ho : o.row failures f with _ | v
  · exact ⟨r, by rwa [Snap.merge_of_none ho], rfl, rfl, fun _ => rfl⟩
  · rw [Snap.merge_of_some ho]
    rcases hL.failed_mark f v r ho h with rfl | ⟨t, m, rfl, hn, -⟩
    · exact ⟨r, rfl, rfl, rfl, fun _ => rfl⟩
    · exact ⟨_, rfl, rfl, rfl, fun hr => absurd hn hr⟩

/-! ## Places -/

/-- the record of a row that the session does not own stays where it is -/
theorem recorded_other {n : ℕ} (hn : o.row outbox n = none) (ev : Event P) (p : Place) :
    RecordedAt (σ.merge o) n ev p ↔ RecordedAt σ n ev p := by
  cases p with
  | pending => simp only [RecordedAt, Snap.merge_of_none hn]
  | published => simp only [RecordedAt, Snap.merge_of_none hn]
  | archived a =>
    constructor
    · rintro ⟨r, hr, rfl, he⟩
      rcases hL.archived_cases hr with ⟨hc, -⟩ | ⟨-, hout⟩
      · exact ⟨r, hc, rfl, he⟩
      · rw [hn] at hout; simp at hout
    · rintro ⟨r, hr, ho, he⟩
      exact ⟨r, hL.archived_mono a r hr, ho, he⟩
  | failed f =>
    constructor
    · rintro ⟨r, hr, rfl, rfl⟩
      rcases hL.failed_cases hr with ⟨r₀, hc, he, ho⟩ | ⟨-, -, hout⟩
      · exact ⟨r₀, hc, ho, he⟩
      · rw [hn] at hout; simp at hout
    · rintro ⟨r, hr, rfl, rfl⟩
      obtain ⟨r', hr', he, ho, -⟩ := hL.failed_mono f r hr
      exact ⟨r', hr', ho, he⟩

/-- a record outside the outbox of a row that the session owns is new, and the row is deleted -/
theorem recorded_own (hp : Places σ) {n : ℕ} {v : Option (OutboxMessage P)} (hn : o.row outbox n = some v)
    {ev : Event P} :
    (∀ a, RecordedAt (σ.merge o) n ev (.archived a) → v = none ∧ ∃ r, o.row archived a = some (some r) ∧
      r.origin = n ∧ r.event = ev) ∧
    (∀ f, RecordedAt (σ.merge o) n ev (.failed f) → v = none ∧ ∃ r, o.row failures f = some (some r) ∧
      σ.com failures f = none ∧ r.origin = n ∧ r.event = ev) := by
  have hold : ∀ ev' p, RecordedAt σ n ev' p → p = .pending ∨ p = .published := by
    intro ev' p hr
    rcases v with _ | r'
    · obtain ⟨r, hc, -⟩ := hL.leaves n hn
      exact hp.live_only hc hr
    · rcases hc : σ.com outbox n with _ | r
      · obtain ⟨c, cp, hcp, hrow, -⟩ := hp.copied _ _ _ hr
        exact absurd hrow ((hL.enters n r' hn hc).fresh c cp hcp)
      · exact hp.live_only hc hr
  constructor
  · rintro a ⟨r, hr, ho, he⟩
    rcases hL.archived_cases hr with ⟨hc, -⟩ | ⟨hown, hout⟩
    · have := hold ev (.archived a) ⟨r, hc, ho, he⟩
      simp at this
    · rw [ho, hn, Option.some.injEq] at hout
      exact ⟨hout, r, hown, ho, he⟩
  · rintro f ⟨r, hr, ho, he⟩
    rcases hL.failed_cases hr with ⟨r₀, hc, he', ho'⟩ | ⟨hown, hnone, hout⟩
    · have := hold ev (.failed f) ⟨r₀, hc, ho'.trans ho, he'.trans he⟩
      simp at this
    · rw [ho, hn, Option.some.injEq] at hout
      exact ⟨hout, r, hown, hnone, ho, he⟩

theorem live (hp : Places σ) (n : ℕ) (r : OutboxMessage P) (h : (σ.merge o).com outbox n = some r) :
    r.status ≠ .failed := by
  have hs := hL.rowStep n
  rw [h] at hs
  exact hs.live fun r₀ hr₀ => hp.live n r₀ hr₀

theorem placed (hp : Places σ) (c : ℕ) (cp : Copy P) (h : (σ.merge o).com copies c = some cp) :
    ∃ p, RecordedAt (σ.merge o) cp.row cp.event p := by
  rcases Snap.merge_cases h with ho | ⟨-, hc⟩
  · obtain ⟨-, cp', hcp, -, -, r, hr, -, he⟩ := hL.copy_new c _ ho
    simp only [Option.some.injEq] at hcp
    subst hcp
    have hm := Snap.merge_of_some hr σ
    rcases live_place hm (hL.live hp _ _ hm) with ⟨hq, -⟩ | ⟨hq, -⟩ <;> exact ⟨_, he ▸ hq⟩
  · rcases hn : o.row outbox cp.row with _ | _ | r'
    · obtain ⟨p, hq⟩ := hp.placed c cp hc
      exact ⟨p, (hL.recorded_other hn _ _).2 hq⟩
    · obtain ⟨r, hr, hl⟩ := hL.leaves _ hn
      have he := hp.event_eq hc hr
      rcases hl with ⟨-, a, r', ha, horg, hev⟩ | ⟨-, f, r', hf, -, horg, hev⟩
      · exact ⟨.archived a, r', Snap.merge_of_some ha σ, horg, hev.trans he⟩
      · exact ⟨.failed f, r', Snap.merge_of_some hf σ, horg, hev.trans he⟩
    · have hm := Snap.merge_of_some hn σ
      have hs := hL.rowStep cp.row
      rcases hr : σ.com outbox cp.row with _ | r
      · exact absurd rfl ((hL.enters _ r' hn hr).fresh c cp hc)
      · rw [hm, hr] at hs
        have he := hs.event.trans (hp.event_eq hc hr)
        rcases live_place hm (hL.live hp _ _ hm) with ⟨hq, -⟩ | ⟨hq, -⟩ <;> exact ⟨_, he ▸ hq⟩

theorem copied (hp : Places σ) (n : ℕ) (ev : Event P) (p : Place) (h : RecordedAt (σ.merge o) n ev p) :
    ∃ c cp, (σ.merge o).com copies c = some cp ∧ cp.row = n ∧ cp.event = ev := by
  have hold : RecordedAt σ n ev p → ∃ c cp, (σ.merge o).com copies c = some cp ∧ cp.row = n ∧ cp.event = ev := by
    intro hq
    obtain ⟨c, cp, hc, hr, he⟩ := hp.copied n ev p hq
    exact ⟨c, cp, hL.copies_mono c cp hc, hr, he⟩
  have hmoved : ∀ r, σ.com outbox n = some r → r.event = ev →
      ∃ c cp, (σ.merge o).com copies c = some cp ∧ cp.row = n ∧ cp.event = ev := by
    intro r hr he
    rcases live_place hr (hp.live _ _ hr) with ⟨hq, -⟩ | ⟨hq, -⟩ <;>
    · obtain ⟨c, cp, hc, hrow, hev⟩ := hp.copied _ _ _ hq
      exact ⟨c, cp, hL.copies_mono c cp hc, hrow, hev.trans he⟩
  have hlive : ∀ r, (σ.merge o).com outbox n = some r → r.event = ev →
      ∃ c cp, (σ.merge o).com copies c = some cp ∧ cp.row = n ∧ cp.event = ev := by
    intro r hr he
    have hs := hL.rowStep n
    rw [hr] at hs
    rcases hc : σ.com outbox n with _ | r₀
    · have hown : o.row outbox n = some (some r) := by
        rcases Snap.merge_cases hr with ho | ⟨-, hx⟩
        · exact ho
        · rw [hc] at hx; simp at hx
      obtain ⟨c, cp, hcp, hrow⟩ := (hL.enters n r hown hc).copy
      obtain ⟨-, cp', hcp', -, -, r', hr', -, he'⟩ := hL.copy_new c _ hcp
      simp only [Option.some.injEq] at hcp'
      subst hcp'
      rw [hrow, hown] at hr'
      simp only [Option.some.injEq] at hr'
      subst hr'
      exact ⟨c, cp, Snap.merge_of_some hcp σ, hrow, he'.symm.trans he⟩
    · rw [hc] at hs
      exact hmoved r₀ hc (hs.event.symm.trans he)
  rcases hn : o.row outbox n with _ | v
  · exact hold ((hL.recorded_other hn ev p).1 h)
  · cases p with
    | pending =>
      obtain ⟨r, hr, -, he⟩ := h
      exact hlive r hr he
    | published =>
      obtain ⟨r, hr, -, he⟩ := h
      exact hlive r hr he
    | archived a =>
      obtain ⟨hv, r', ha, horg, he⟩ := (hL.recorded_own hp hn).1 a h
      subst hv
      obtain ⟨r, hr, ⟨-, a', r'', ha', horg', he'⟩ | ⟨hpend, -⟩⟩ := hL.leaves n hn
      · obtain rfl := hL.archived_inj a a' r' r'' ha ha' (horg.trans horg'.symm)
        rw [ha] at ha'
        simp only [Option.some.injEq] at ha'
        subst ha'
        exact hmoved r hr (he'.symm.trans he)
      · obtain ⟨-, r₁, h₁, -, r₀, hr₀, hpub⟩ := hL.archived_new a _ ha
        simp only [Option.some.injEq] at h₁
        subst h₁
        rw [horg, hr, Option.some.injEq] at hr₀
        subst hr₀
        rw [hpend] at hpub
        simp at hpub
    | failed f =>
      obtain ⟨hv, r', hf, hnone, horg, he⟩ := (hL.recorded_own hp hn).2 f h
      subst hv
      obtain ⟨r, hr, ⟨hpub, -⟩ | ⟨-, f', r'', hf', hnone', horg', he'⟩⟩ := hL.leaves n hn
      · obtain ⟨r₁, h₁, -, -, -, r₀, hr₀, hpend, -⟩ := hL.failed_new f _ hf hnone
        simp only [Option.some.injEq] at h₁
        subst h₁
        rw [horg, hr, Option.some.injEq] at hr₀
        subst hr₀
        rw [hpend] at hpub
        simp at hpub
      · obtain rfl := hL.failed_inj f f' r' r'' hf hf' hnone hnone' (horg.trans horg'.symm)
        rw [hf] at hf'
        simp only [Option.some.injEq] at hf'
        subst hf'
        exact hmoved r hr (he'.symm.trans he)

/-- the record of a row that leaves is in one place -/
theorem left_once {n : ℕ} (hp : Places σ) (hn : o.row outbox n = some none) {ev ev' : Event P} {p p' : Place}
    (h : RecordedAt (σ.merge o) n ev p) (h' : RecordedAt (σ.merge o) n ev' p') : p = p' := by
  have hm := Snap.merge_of_some hn σ
  have hgone : ∀ ev₁ p₁, RecordedAt (σ.merge o) n ev₁ p₁ →
      (∃ a r, p₁ = .archived a ∧ o.row archived a = some (some r) ∧ r.origin = n) ∨
      (∃ f r, p₁ = .failed f ∧ o.row failures f = some (some r) ∧ σ.com failures f = none ∧ r.origin = n) := by
    intro ev₁ p₁ hr
    cases p₁ with
    | pending => obtain ⟨r, hr, -⟩ := hr; rw [hm] at hr; simp at hr
    | published => obtain ⟨r, hr, -⟩ := hr; rw [hm] at hr; simp at hr
    | archived a =>
      obtain ⟨-, r, ha, ho, -⟩ := (hL.recorded_own hp hn).1 a hr
      exact Or.inl ⟨a, r, rfl, ha, ho⟩
    | failed f =>
      obtain ⟨-, r, hf, hc, ho, -⟩ := (hL.recorded_own hp hn).2 f hr
      exact Or.inr ⟨f, r, rfl, hf, hc, ho⟩
  -- the row was published when it went to the archive, pending when it went to the failures
  have hpub : ∀ a r, o.row archived a = some (some r) → r.origin = n →
      ∃ r₀, σ.com outbox n = some r₀ ∧ r₀.status = .published := by
    intro a r ha ho
    obtain ⟨-, r₁, h₁, -, hr₀⟩ := hL.archived_new a _ ha
    simp only [Option.some.injEq] at h₁
    subst h₁
    rwa [ho] at hr₀
  have hpend : ∀ f r, o.row failures f = some (some r) → σ.com failures f = none → r.origin = n →
      ∃ r₀, σ.com outbox n = some r₀ ∧ r₀.status = .pending := by
    intro f r hf hc ho
    obtain ⟨r₁, h₁, -, -, -, r₀, hr₀, hs, -⟩ := hL.failed_new f _ hf hc
    simp only [Option.some.injEq] at h₁
    subst h₁
    rw [ho] at hr₀
    exact ⟨r₀, hr₀, hs⟩
  have hne : ∀ r₀ r₁ : OutboxMessage P, σ.com outbox n = some r₀ → σ.com outbox n = some r₁ →
      r₀.status = .published → r₁.status ≠ .pending := by
    intro r₀ r₁ h₀ h₁ hs
    rw [h₀, Option.some.injEq] at h₁
    rw [← h₁, hs]
    simp
  rcases hgone _ _ h with ⟨a, r, rfl, ha, ho⟩ | ⟨f, r, rfl, hf, hc, ho⟩ <;>
    rcases hgone _ _ h' with ⟨a', r', rfl, ha', ho'⟩ | ⟨f', r', rfl, hf', hc', ho'⟩
  · rw [hL.archived_inj a a' r r' ha ha' (ho.trans ho'.symm)]
  · obtain ⟨r₀, h₀, hs₀⟩ := hpub a r ha ho
    obtain ⟨r₁, h₁, hs₁⟩ := hpend f' r' hf' hc' ho'
    exact absurd hs₁ (hne r₀ r₁ h₀ h₁ hs₀)
  · obtain ⟨r₀, h₀, hs₀⟩ := hpub a' r' ha' ho'
    obtain ⟨r₁, h₁, hs₁⟩ := hpend f r hf hc ho
    exact absurd hs₁ (hne r₀ r₁ h₀ h₁ hs₀)
  · rw [hL.failed_inj f f' r r' hf hf' hc hc' (ho.trans ho'.symm)]

/-- a row that the session keeps in the outbox is recorded there only -/
theorem kept_once {n : ℕ} {r : OutboxMessage P} (hp : Places σ) (hn : o.row outbox n = some (some r))
    {ev ev' : Event P} {p p' : Place} (h : RecordedAt (σ.merge o) n ev p) (h' : RecordedAt (σ.merge o) n ev' p') :
    p = p' := by
  have hm := Snap.merge_of_some hn σ
  have hat : ∀ ev₁ p₁, RecordedAt (σ.merge o) n ev₁ p₁ →
      (p₁ = .pending ∧ r.status = .pending) ∨ (p₁ = .published ∧ r.status = .published) := by
    intro ev₁ p₁ hr
    cases p₁ with
    | pending =>
      obtain ⟨r', hr, hs, -⟩ := hr
      rw [hm, Option.some.injEq] at hr
      exact Or.inl ⟨rfl, hr ▸ hs⟩
    | published =>
      obtain ⟨r', hr, hs, -⟩ := hr
      rw [hm, Option.some.injEq] at hr
      exact Or.inr ⟨rfl, hr ▸ hs⟩
    | archived a => have := ((hL.recorded_own hp hn).1 a hr).1; simp at this
    | failed f => have := ((hL.recorded_own hp hn).2 f hr).1; simp at this
  rcases hat _ _ h with ⟨rfl, hs⟩ | ⟨rfl, hs⟩ <;> rcases hat _ _ h' with ⟨rfl, hs'⟩ | ⟨rfl, hs'⟩
  · rfl
  · rw [hs] at hs'; simp at hs'
  · rw [hs] at hs'; simp at hs'
  · rfl

theorem places (hp : Places σ) : Places (σ.merge o) where
  placed := hL.placed hp
  copied := hL.copied hp
  once n ev ev' p p' h h' := by
    rcases hn : o.row outbox n with _ | _ | r
    · exact hp.once n ev ev' p p' ((hL.recorded_other hn _ _).1 h) ((hL.recorded_other hn _ _).1 h')
    · exact hL.left_once hp hn h h'
    · exact hL.kept_once hp hn h h'
  copy_inj c c' cp cp' h h' he := by
    rcases Snap.merge_cases h with ho | ⟨-, hc⟩ <;> rcases Snap.merge_cases h' with ho' | ⟨-, hc'⟩
    · exact hL.copy_inj c c' cp cp' ho ho' (Or.inl he)
    · obtain ⟨-, cp₁, h₁, -, -, r, hr, hx, -⟩ := hL.copy_new c _ ho
      simp only [Option.some.injEq] at h₁
      subst h₁
      exact absurd he.symm ((hL.enters _ r hr hx).fresh c' cp' hc')
    · obtain ⟨-, cp₁, h₁, -, -, r, hr, hx, -⟩ := hL.copy_new c' _ ho'
      simp only [Option.some.injEq] at h₁
      subst h₁
      exact absurd he ((hL.enters _ r hr hx).fresh c cp hc)
    · exact hp.copy_inj c c' cp cp' hc hc' he
  copy_lt c cp h := by
    rcases Snap.merge_cases h with ho | ⟨-, hc⟩
    · obtain ⟨-, cp₁, h₁, -, -, r, hr, hx, -⟩ := hL.copy_new c _ ho
      simp only [Option.some.injEq] at h₁
      subst h₁
      exact (hL.enters _ r hr hx).lt
    · exact hp.copy_lt c cp hc
  live := hL.live hp

/-! ## Fences -/

theorem fences (hf : Fences σ) : Fences (σ.merge o) where
  attempts n r h hs := by
    have hr := hL.rowStep n
    rw [h] at hr
    generalize hv : σ.com outbox n = v at hr
    cases hr with
    | keep => exact hf.attempts n r hv hs
    | enqueue _ _ ha => rw [ha]; decide
    | claim r₀ => exact hf.attempts n r₀ hv hs
    | giveBack r₀ => exact hf.attempts n r₀ hv hs
    | publish r₀ => simp at hs
    | retry r₀ _ _ _ _ ha => exact ha
  counted n r h := by
    have hr := hL.rowStep n
    rw [h] at hr
    generalize hv : σ.com outbox n = v at hr
    cases hr with
    | keep => exact hf.counted n r hv
    | enqueue _ _ ha hc _ hb => simp [ha, hb]
    | claim r₀ =>
      have := hf.counted n r₀ hv
      simp only [Option.isSome_some, if_true]
      omega
    | giveBack r₀ =>
      have := hf.counted n r₀ hv
      simp only [clearLock, Option.isSome_none, Bool.false_eq_true, if_false]
      omega
    | publish r₀ =>
      have := hf.counted n r₀ hv
      simp only [clearLock, Option.isSome_none, Bool.false_eq_true, if_false]
      omega
    | retry r₀ tok _ _ hb =>
      have := hf.counted n r₀ hv
      simp only [hb, clearLock, Option.isSome_some, Option.isSome_none, Bool.false_eq_true, if_true, if_false] at this ⊢
      omega
  unlocked n r h hs := by
    have hr := hL.rowStep n
    rw [h] at hr
    generalize hv : σ.com outbox n = v at hr
    cases hr with
    | keep => exact hf.unlocked n r hv hs
    | enqueue _ _ _ _ _ hb => exact hb
    | claim r₀ _ _ _ hc =>
      simp only [claimable, Bool.and_eq_true, beq_iff_eq] at hc
      rw [hc.1.1] at hs
      simp at hs
    | giveBack r₀ => rfl
    | publish r₀ => rfl
    | retry r₀ => rfl
  token_lt n r t h ht := by
    have hr := hL.rowStep n
    rw [h] at hr
    generalize hv : σ.com outbox n = v at hr
    cases hr with
    | keep => exact hf.token_lt n r t hv ht
    | enqueue _ _ _ _ _ hb => rw [hb] at ht; simp at ht
    | claim r₀ tok _ hc =>
      simp only [Option.some.injEq] at ht
      exact hf.claim_lt i t (ht ▸ hc)
    | giveBack r₀ => simp [clearLock] at ht
    | publish r₀ => simp [clearLock] at ht
    | retry r₀ => simp [clearLock] at ht
  claim_lt := hf.claim_lt
  claim_inj := hf.claim_inj
  published n r h hs := by
    have hr := hL.rowStep n
    rw [h] at hr
    generalize hv : σ.com outbox n = v at hr
    cases hr with
    | keep => exact hf.published n r hv hs
    | enqueue _ hp => rw [hp] at hs; simp at hs
    | claim r₀ => exact hf.published n r₀ hv hs
    | giveBack r₀ => exact hf.published n r₀ hv hs
    | publish r₀ _ _ _ _ hp => exact hp
    | retry r₀ => exact hf.published n r₀ hv hs
  archived a r h := by
    rcases Snap.merge_cases h with ho | ⟨-, hc⟩
    · obtain ⟨-, r₁, h₁, -, r₀, hr₀, hs⟩ := hL.archived_new a _ ho
      simp only [Option.some.injEq] at h₁
      subst h₁
      exact hf.published _ r₀ hr₀ hs
    · exact hf.archived a r hc
  sent n b h := by
    obtain ⟨c, cp, hc, hr⟩ := hf.sent n b h
    exact ⟨c, cp, hL.copies_mono c cp hc, hr⟩

/-! ## Event ids -/

/-- a pending row was pending before or is inserted by the session -/
theorem pending_cases {n : ℕ} {r : OutboxMessage P} (h : (σ.merge o).com outbox n = some r)
    (hs : r.status = .pending) :
    (∃ r₀, σ.com outbox n = some r₀ ∧ r₀.status = .pending ∧ r₀.eventId = r.eventId) ∨
      σ.com outbox n = none ∧ o.row outbox n = some (some r) := by
  have hr := hL.rowStep n
  rw [h] at hr
  rcases hc : σ.com outbox n with _ | r₀
  · rcases Snap.merge_cases h with ho | ⟨-, hx⟩
    · exact Or.inr ⟨rfl, ho⟩
    · rw [hc] at hx; simp at hx
  · rw [hc] at hr
    exact Or.inl ⟨r₀, rfl, hr.pending hs, (event_id_eq hr.event).symm⟩

theorem key_inj (he : Events calls σ) (k k' : ℕ) (e : String) (h : (σ.merge o).com keys k = some e)
    (h' : (σ.merge o).com keys k' = some e) : k = k' := by
  have hcases : ∀ k₁, (σ.merge o).com keys k₁ = some e → σ.com keys k₁ = some e ∨
      o.row keys k₁ = some (some e) ∧ (∀ k₂, σ.com keys k₂ ≠ some e) ∧
        ∀ k₂, o.row keys k₂ = some (some e) → k₂ = k₁ := by
    intro k₁ h₁
    rcases Snap.merge_cases h₁ with ho | ⟨-, hc⟩
    · obtain ⟨e', he', hx⟩ := hL.key_row k₁ _ ho
      simp only [Option.some.injEq] at he'
      subst he'
      rcases hx with hc | ⟨-, -, hn, hu⟩
      · exact Or.inl hc
      · exact Or.inr ⟨ho, hn, hu⟩
    · exact Or.inl hc
  rcases hcases k h with hc | ⟨-, hn, hu⟩ <;> rcases hcases k' h' with hc' | ⟨ho', hn', -⟩
  · exact he.key_inj k k' e hc hc'
  · exact absurd hc (hn' k)
  · exact absurd hc' (hn k')
  · exact (hu k' ho').symm

theorem pending_inj (he : Events calls σ) (n n' : ℕ) (r r' : OutboxMessage P)
    (h : (σ.merge o).com outbox n = some r) (h' : (σ.merge o).com outbox n' = some r') (hs : r.status = .pending)
    (hs' : r'.status = .pending) (heq : r.eventId = r'.eventId) : n = n' := by
  rcases hL.pending_cases h hs with ⟨r₀, hc, hp, hid⟩ | ⟨hc, ho⟩ <;>
    rcases hL.pending_cases h' hs' with ⟨r₀', hc', hp', hid'⟩ | ⟨hc', ho'⟩
  · exact he.pending_inj n n' r₀ r₀' hc hc' hp hp' (by rw [hid, hid', heq])
  · exact absurd hp ((hL.enters n' r' ho' hc').alone n r₀ hc (by rw [hid, heq]))
  · exact absurd hp' ((hL.enters n r ho hc).alone n' r₀' hc' (by rw [hid', heq]))
  · exact (hL.enters n' r' ho' hc').only n r ho hc heq

theorem source_inj (he : Events calls σ) (c c' : ℕ) (cp cp' : Copy P) (h : (σ.merge o).com copies c = some cp)
    (h' : (σ.merge o).com copies c' = some cp') (hne : cp.source ≠ .enqueue) (heq : cp.source = cp'.source) :
    c = c' := by
  -- a record that the session replays has no committed copy yet
  have hnew : ∀ c₁ c₂ cp₁ cp₂, o.row copies c₁ = some (some cp₁) → σ.com copies c₂ = some cp₂ →
      cp₁.source ≠ .enqueue → cp₁.source ≠ cp₂.source := by
    intro c₁ c₂ cp₁ cp₂ h₁ h₂ hn hs
    rcases hsrc : cp₁.source with _ | f | d
    · exact hn hsrc
    · obtain ⟨r₀, -, hr₀, hrep, -⟩ := hL.copy_failure c₁ cp₁ f h₁ hsrc
      obtain ⟨r, hr, hx, -⟩ := he.replays c₂ cp₂ f h₂ (hs ▸ hsrc)
      rw [hr₀, Option.some.injEq] at hr
      exact hx (hr ▸ hrep)
    · obtain ⟨r₀, -, hr₀, hpend, -⟩ := hL.copy_dlq c₁ cp₁ d h₁ hsrc
      obtain ⟨r, hr, hx, -⟩ := he.requeues c₂ cp₂ d h₂ (hs ▸ hsrc)
      rw [hr₀, Option.some.injEq] at hr
      rw [← hr, hpend] at hx
      simp at hx
  rcases Snap.merge_cases h with ho | ⟨-, hc⟩ <;> rcases Snap.merge_cases h' with ho' | ⟨-, hc'⟩
  · exact hL.copy_inj c c' cp cp' ho ho' (Or.inr ⟨hne, heq⟩)
  · exact absurd heq (hnew c c' cp cp' ho hc' hne)
  · exact absurd heq.symm (hnew c' c cp' cp ho' hc (heq ▸ hne))
  · exact he.source_inj c c' cp cp' hc hc' hne heq

theorem events (he : Events calls σ) : Events calls (σ.merge o) where
  named c cp h := by
    rcases Snap.merge_cases h with ho | ⟨-, hc⟩
    · obtain ⟨-, cp₁, h₁, -, hn, -⟩ := hL.copy_new c _ ho
      simp only [Option.some.injEq] at h₁
      exact h₁ ▸ hn
    · exact he.named c cp hc
  key c cp h := by
    rcases Snap.merge_cases h with ho | ⟨-, hc⟩
    · obtain ⟨-, cp₁, h₁, -, -, r, hr, hx, hev⟩ := hL.copy_new c _ ho
      simp only [Option.some.injEq] at h₁
      subst h₁
      obtain ⟨k, hk⟩ := (hL.enters _ r hr hx).key
      exact ⟨k, by rw [Snap.merge_of_some hk, ← event_id_of_copy hev]⟩
    · obtain ⟨k, hk⟩ := he.key c cp hc
      exact ⟨k, hL.keys_mono k _ hk⟩
  key_inj := hL.key_inj he
  pending_inj := hL.pending_inj he
  source_inj := hL.source_inj he
  replays c cp f h hs := by
    rcases Snap.merge_cases h with ho | ⟨-, hc⟩
    · obtain ⟨-, r₁, -, -, hr₁, hrep, hret, hid⟩ := hL.copy_failure c cp f ho hs
      exact ⟨r₁, Snap.merge_of_some hr₁ σ, hrep, hret, hid⟩
    · obtain ⟨r, hr, hrep, hret, hid⟩ := he.replays c cp f hc hs
      obtain ⟨r', hr', -, -, hsame⟩ := hL.failed_mono f r hr
      exact ⟨r', hr', by rw [hsame hrep]; exact ⟨hrep, hret, hid⟩⟩
  replayed f r h hrep hret := by
    rcases Snap.merge_cases h with ho | ⟨-, hc⟩
    · rcases hc : σ.com failures f with _ | r₀
      · obtain ⟨r₁, h₁, hn, -⟩ := hL.failed_new f _ ho hc
        simp only [Option.some.injEq] at h₁
        exact absurd (h₁ ▸ hn) hrep
      · rcases hL.failed_mark f _ r₀ ho hc with h₁ | ⟨t, m, h₁, -, hcp, -⟩
        · simp only [Option.some.injEq] at h₁
          subst h₁
          obtain ⟨c, cp, hcp, hs⟩ := he.replayed f r hc hrep hret
          exact ⟨c, cp, hL.copies_mono c cp hcp, hs⟩
        · simp only [Option.some.injEq] at h₁
          subst h₁
          obtain ⟨c, cp, hcp, hs⟩ := hcp hret
          exact ⟨c, cp, Snap.merge_of_some hcp σ, hs⟩
    · obtain ⟨c, cp, hcp, hs⟩ := he.replayed f r hc hrep hret
      exact ⟨c, cp, hL.copies_mono c cp hcp, hs⟩
  retired f r m h hm := by
    rcases Snap.merge_cases h with ho | ⟨-, hc⟩
    · rcases hc : σ.com failures f with _ | r₀
      · obtain ⟨r₁, h₁, -, hn, -⟩ := hL.failed_new f _ ho hc
        simp only [Option.some.injEq] at h₁
        subst h₁
        rw [hn] at hm
        simp at hm
      · rcases hL.failed_mark f _ r₀ ho hc with h₁ | ⟨t, m', h₁, -, -, hmsg⟩
        · simp only [Option.some.injEq] at h₁
          subst h₁
          exact (he.retired f r m hc hm).imp id fun hw => hw.mono hL.copies_mono
        · simp only [Option.some.injEq] at h₁
          subst h₁
          exact ⟨by simp, (hmsg m hm).1.mono hL.copies_mono⟩
    · exact (he.retired f r m hc hm).imp id fun hw => hw.mono hL.copies_mono
  requeues c cp d h hs := by
    rcases Snap.merge_cases h with ho | ⟨-, hc⟩
    · obtain ⟨-, r₁, -, -, hr₁, hrest⟩ := hL.copy_dlq c cp d ho hs
      exact ⟨r₁, Snap.merge_of_some hr₁ σ, hrest⟩
    · obtain ⟨r, hr, hreq, hrest⟩ := he.requeues c cp d hc hs
      refine ⟨r, ?_, hreq, hrest⟩
      rcases ho : o.row dlq d with _ | v
      · rwa [Snap.merge_of_none ho]
      · rw [Snap.merge_of_some ho]
        rcases hL.dlq_row d v ho with ⟨hn, -⟩ | ⟨r₀, hr₀, rfl | ⟨e, m, -, hpend, -⟩⟩
        · rw [hr] at hn; simp at hn
        · rw [← hr₀, hr]
        · rw [hr, Option.some.injEq] at hr₀
          rw [← hr₀, hreq] at hpend
          simp at hpend
  requeued d r h hreq hret := by
    rcases Snap.merge_cases h with ho | ⟨-, hc⟩
    · rcases hL.dlq_row d _ ho with ⟨-, r₁, h₁, hpend, -⟩ | ⟨r₀, hr₀, h₁ | ⟨e, m, h₁, -, hcp, -⟩⟩ <;>
        simp only [Option.some.injEq] at h₁ <;> subst h₁
      · rw [hreq] at hpend; simp at hpend
      · obtain ⟨c, cp, hcp, hs⟩ := he.requeued d r hr₀ hreq hret
        exact ⟨c, cp, hL.copies_mono c cp hcp, hs⟩
      · obtain ⟨c, cp, hcp, hs⟩ := hcp hret
        exact ⟨c, cp, Snap.merge_of_some hcp σ, hs⟩
    · obtain ⟨c, cp, hcp, hs⟩ := he.requeued d r hc hreq hret
      exact ⟨c, cp, hL.copies_mono c cp hcp, hs⟩
  dropped d r m h hm := by
    have hold : ∀ m, r.status = .requeued → (∃ e, r.requeuedAs = some e ∧ WasActive σ m e) →
        r.status = .requeued ∧ ∃ e, r.requeuedAs = some e ∧ WasActive (σ.merge o) m e :=
      fun m hs ⟨e, hr, hw⟩ => ⟨hs, e, hr, hw.mono hL.copies_mono⟩
    rcases Snap.merge_cases h with ho | ⟨-, hc⟩
    · rcases hL.dlq_row d _ ho with ⟨-, r₁, h₁, -, hn⟩ | ⟨r₀, hr₀, h₁ | ⟨e, m', h₁, -, -, hmsg⟩⟩ <;>
        simp only [Option.some.injEq] at h₁ <;> subst h₁
      · rw [hn] at hm; simp at hm
      · exact hold m (he.dropped d r m hr₀ hm).1 (he.dropped d r m hr₀ hm).2
      · exact ⟨rfl, e, rfl, (hmsg m hm).mono hL.copies_mono⟩
    · exact hold m (he.dropped d r m hc hm).1 (he.dropped d r m hc hm).2
  session c cp h := by
    rcases Snap.merge_cases h with ho | ⟨-, hc⟩
    · obtain ⟨-, cp₁, h₁, hs, -⟩ := hL.copy_new c _ ho
      simp only [Option.some.injEq] at h₁
      exact h₁ ▸ hs
    · exact he.session c cp hc

/-! ## One sendable record per event -/

/-- an unreplayed failure was one before, or its pending outbox row is deleted in the same transaction -/
theorem unreplayed_cases {f : ℕ} {r : EventFailure P} (h : (σ.merge o).com failures f = some r)
    (hn : r.replayedAt = none) :
    (∃ r₀, σ.com failures f = some r₀ ∧ r₀.replayedAt = none ∧ r₀.eventId = r.eventId) ∨
      o.row failures f = some (some r) ∧ σ.com failures f = none ∧ o.row outbox r.origin = some none ∧
        ∃ m, σ.com outbox r.origin = some m ∧ m.status = .pending ∧ m.eventId = r.eventId := by
  rcases Snap.merge_cases h with ho | ⟨-, hc⟩
  · rcases hc : σ.com failures f with _ | r₀
    · obtain ⟨r₁, h₁, -, -, hout, hm⟩ := hL.failed_new f _ ho hc
      simp only [Option.some.injEq] at h₁
      subst h₁
      exact Or.inr ⟨ho, rfl, hout, hm⟩
    · left
      rcases hL.failed_mark f _ r₀ ho hc with h₁ | ⟨t, m, h₁, -⟩
      · simp only [Option.some.injEq] at h₁
        subst h₁
        exact ⟨r, rfl, hn, rfl⟩
      · simp only [Option.some.injEq] at h₁
        subst h₁
        simp at hn
  · exact Or.inl ⟨r, hc, hn, rfl⟩

theorem pending_failed (hp : Places σ) (he : Events calls σ) (hq : NoRequeue calls) (hs : Strict σ) (n : ℕ)
    (r : OutboxMessage P) (f : ℕ) (r' : EventFailure P) (h : (σ.merge o).com outbox n = some r)
    (hpend : r.status = .pending) (h' : (σ.merge o).com failures f = some r') (hid : r'.eventId = r.eventId) :
    r'.replayedAt ≠ none := by
  intro hn
  rcases hL.unreplayed_cases h' hn with ⟨r₀, hc, hn₀, hid₀⟩ | ⟨-, -, hout, m, hm, hmp, hmid⟩ <;>
    rcases hL.pending_cases h hpend with ⟨r₁, hc₁, hp₁, hid₁⟩ | ⟨hc₁, ho₁⟩
  · exact hs.pending_failed n r₁ f r₀ hc₁ hp₁ hc (by rw [hid₀, hid, hid₁]) hn₀
  · -- the event of a failure has a key, so the entering row replays a failure, which must be this one
    rcases (hL.enters n r ho₁ hc₁).replaces hq with hnew | ⟨f', x₀, x₁, hx₀, hxn, hxid, hx₁, hxr⟩
    · obtain ⟨c, cp, hcp, -, hev⟩ := hp.copied r₀.origin r₀.event (.failed f) ⟨r₀, hc, rfl, rfl⟩
      obtain ⟨k, hk⟩ := he.key c cp hcp
      have hkid : cp.event.eventId = r.eventId := by rw [hev, ← hid, ← hid₀]; rfl
      exact hnew k (hkid ▸ hk)
    · obtain rfl := hs.failed_inj f f' r₀ x₀ hc hx₀ hn₀ hxn (by rw [hid₀, hid, hxid])
      rw [Snap.merge_of_some hx₁, Option.some.injEq] at h'
      exact hxr (h' ▸ hn)
  · obtain rfl := he.pending_inj n r'.origin r₁ m hc₁ hm hp₁ hmp (by rw [hid₁, hmid, hid])
    rw [Snap.merge_of_some hout] at h
    simp at h
  · exact (hL.enters n r ho₁ hc₁).alone _ m hm (by rw [hmid, hid]) hmp

theorem strict (hp : Places σ) (he : Events calls σ) (hq : NoRequeue calls) (hs : Strict σ) : Strict (σ.merge o) where
  pending_failed := hL.pending_failed hp he hq hs
  failed_inj f f' r r' h h' hn hn' hid := by
    rcases hL.unreplayed_cases h hn with ⟨r₀, hc, hn₀, hid₀⟩ | ⟨ho, hc, -, m, hm, hmp, hmid⟩ <;>
      rcases hL.unreplayed_cases h' hn' with ⟨r₀', hc', hn₀', hid₀'⟩ | ⟨ho', hc', -, m', hm', hmp', hmid'⟩
    · exact hs.failed_inj f f' r₀ r₀' hc hc' hn₀ hn₀' (by rw [hid₀, hid₀', hid])
    · exact absurd hn₀ (hs.pending_failed _ m' f r₀ hm' hmp' hc (by rw [hid₀, hmid', hid]))
    · exact absurd hn₀' (hs.pending_failed _ m f' r₀' hm hmp hc' (by rw [hid₀', hmid, hid]))
    · exact hL.failed_inj f f' r r' ho ho' hc hc'
        (he.pending_inj _ _ m m' hm hm' hmp hmp' (by rw [hmid, hmid', hid]))
  replaced f r h := by
    rcases Snap.merge_cases h with ho | ⟨-, hc⟩
    · rcases hc : σ.com failures f with _ | r₀
      · obtain ⟨r₁, h₁, -, hret, -⟩ := hL.failed_new f _ ho hc
        simp only [Option.some.injEq] at h₁
        exact h₁ ▸ hret
      · rcases hL.failed_mark f _ r₀ ho hc with h₁ | ⟨t, m, h₁, -, -, hmsg⟩
        · simp only [Option.some.injEq] at h₁
          subst h₁
          exact hs.replaced f r hc
        · simp only [Option.some.injEq] at h₁
          subst h₁
          rcases hm : m with _ | msg
          · rfl
          · exact absurd hq (hmsg msg hm).2
    · exact hs.replaced f r hc

/-! ## What the others rely on -/

end Lawful

/-- two sessions never hold the key of one event id -/
theorem KeyHeld.exclusive {o' : Held P} {e : String} (hd : o'.Disjoint o) (he : Events calls σ)
    (h : KeyHeld o σ e) (h' : KeyHeld o' σ e) : False := by
  rcases h with ⟨k, ho, hc⟩ | ⟨ho, hc⟩ <;> rcases h' with ⟨k', ho', hc'⟩ | ⟨ho', hc'⟩
  · obtain rfl := he.key_inj k k' e hc hc'
    have := hd.row keys k (by simp [ho'])
    rw [ho] at this
    simp at this
  · exact hc' k hc
  · exact hc k' hc'
  · exact hd.key _ ho' ho

namespace Lawful

variable (hL : Lawful env calls i o σ)

include hL

theorem rely (he : Events calls σ) (j : ℕ) (o' : Held P) (hd : o'.Disjoint o) : Rely j o' σ (σ.merge o) where
  copies := hL.copies_mono
  keys := hL.keys_mono
  copies_held n hn c cp h hr := by
    rcases Snap.merge_cases h with ho | ⟨-, hc⟩
    · obtain ⟨-, cp₁, h₁, -, -, r, hrow, -⟩ := hL.copy_new c _ ho
      simp only [Option.some.injEq] at h₁
      subst h₁
      have := hd.row outbox n hn
      rw [← hr, hrow] at this
      simp at this
    · exact hc
  key_free e hk hn k h := by
    rcases Snap.merge_cases h with ho | ⟨-, hc⟩
    · obtain ⟨e', h₁, hc | ⟨-, hown, -⟩⟩ := hL.key_row k _ ho <;> simp only [Option.some.injEq] at h₁ <;> subst h₁
      · exact hn k hc
      · exact hd.key _ hk hown
    · exact hn k hc
  pending_held e hk n r h hid hs := by
    rcases hL.pending_cases h hs with ⟨r₀, hc, hp, hid₀⟩ | ⟨hc, ho⟩
    · exact ⟨r₀, hc, hid₀.trans hid, hp⟩
    · exact absurd hk fun hk => KeyHeld.exclusive hd he (hid ▸ (hL.enters n r ho hc).held) hk
  claim := rfl
  reading := rfl
  publishes _ h := h
  next := Nat.le_refl _

theorem act : Act env i σ (σ.merge o) where
  row := hL.rowStep
  failure f r hc h := by
    rcases Snap.merge_cases h with ho | ⟨-, hx⟩
    · obtain ⟨r₁, h₁, -, -, hout, m, hm, hmp, -⟩ := hL.failed_new f _ ho hc
      simp only [Option.some.injEq] at h₁
      subst h₁
      have hr := hL.step _ _ hout
      rw [hm] at hr
      cases hr with
      | fold _ tok hclaim hb => exact ⟨m, tok, hm, hclaim, hb⟩
      | archive _ hpub => rw [hmp] at hpub; simp at hpub
    · rw [hc] at hx; simp at hx
  unmarked f r hc h := by
    rcases Snap.merge_cases h with ho | ⟨-, hx⟩
    · obtain ⟨r₁, h₁, hn, -⟩ := hL.failed_new f _ ho hc
      simp only [Option.some.injEq] at h₁
      exact h₁ ▸ hn
    · rw [hc] at hx; simp at hx
  copies := hL.copies_mono
  added c cp hc h := by
    rcases Snap.merge_cases h with ho | ⟨-, hx⟩
    · obtain ⟨-, cp₁, h₁, -, -, r, hr, hn, he⟩ := hL.copy_new c _ ho
      simp only [Option.some.injEq] at h₁
      subst h₁
      have hs := hL.step _ _ hr
      rw [hn] at hs
      refine ⟨hn, r, Snap.merge_of_some hr σ, ?_, he⟩
      cases hs with
      | enqueue _ hs => exact hs
    · rw [hc] at hx; simp at hx
  fresh n r hn h := by
    rcases Snap.merge_cases h with ho | ⟨-, hx⟩
    · exact (hL.enters n r ho hn).fresh
    · rw [hn] at hx; simp at hx
  audit := hL.failed_mono
  unsent d r hc h := by
    rcases Snap.merge_cases h with ho | ⟨-, hx⟩
    · rcases hL.dlq_row d _ ho with ⟨-, r₁, h₁, hp, -⟩ | ⟨r₀, hr₀, -⟩
      · simp only [Option.some.injEq] at h₁
        exact h₁ ▸ hp
      · rw [hc] at hr₀; simp at hr₀
    · rw [hc] at hx; simp at hx
  letters d r hc hs := by
    rcases ho : o.row dlq d with _ | v
    · rwa [Snap.merge_of_none ho]
    · rw [Snap.merge_of_some ho]
      rcases hL.dlq_row d v ho with ⟨hn, -⟩ | ⟨r₀, hr₀, rfl | ⟨e, m, -, hp, -⟩⟩
      · rw [hc] at hn; simp at hn
      · rw [← hr₀, hc]
      · rw [hc, Option.some.injEq] at hr₀
        rw [← hr₀, hs] at hp
        simp at hp

/-- **Lawful commits.** Such a commit keeps the discipline of the outbox. -/
theorem good (h : Inv calls σ) : (discipline env calls).Good i o σ (σ.merge o) where
  inv := ⟨hL.places h.places, hL.fences h.fences, hL.events h.events,
    fun hq => hL.strict h.places h.events hq (h.strict hq)⟩
  act := hL.act
  rely j _ o' hd := hL.rely h.events j o' hd

end Lawful

end LkmService.Outbox
