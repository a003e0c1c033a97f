/-
What the breaker promises over every run of calls, and when it is stuck.

A call that was let through must record its outcome. `_request` records a response and every `httpx.HTTPError`; of a
request that ends in another exception (it was cancelled, or its client could not be built) it records nothing, and
when that was the probe of a half-open breaker, nothing gives the slot back.

- `never_stuck_iff`: a run keeps all the promises if and only if no lone probe ends that way.
- `opens_iff`: the breaker opens with the failure that makes the configured number in a row.
- `probes_apart`: between two probes the breaker has opened again, and cooled down.
- `stuck_after_cancel`: a run after which the breaker refuses for ever.
-/
import LkmService.Lib.Trace
import LkmService.Breaker.Model

namespace LkmService.Breaker

open Trace

variable {cfg : Settings} {w : World} {m : Move} {ms : List Move}

/-! ## What is promised -/

/-- a taken probe slot has a probe in progress -/
def NeverStuck (w : World) : Prop :=
  w.breaker.state = .halfOpen → w.breaker.probing = true → ∃ i, w.calls i = .inProgress true

/-- the move records a failure -/
def RecordsFailure (w : World) (m : Move) : Prop :=
  ∃ i o probe, m = .finish i o ∧ w.calls i = .inProgress probe ∧ o.recorded = some false

/-- the move lets a call through a breaker that is not closed -/
def AdmitsProbe (cfg : Settings) (w : World) (m : Move) : Prop :=
  ∃ i, m = .begin i ∧ w.calls i = .idle ∧ w.breaker.state ≠ .closed ∧ (w.breaker.allow cfg w.clock).1 = true

/-- the cool-down of the open breaker is over -/
def Cooled (cfg : Settings) (w : World) : Prop :=
  w.breaker.state = .isOpen ∧ cfg.resetSeconds ≤ w.clock - w.breaker.openedAt

structure Promises (cfg : Settings) (ms : List Move) : Prop where
  never_stuck : ∀ pre post, ms = pre ++ post → NeverStuck (run (step cfg) {} pre)
  opens : Along (step cfg) (fun w m => w.breaker.state = .closed →
    ((step cfg w m).breaker.state = .isOpen ↔ RecordsFailure w m ∧ (w.consecutive + 1 : ℤ) = cfg.failureThreshold)) {} ms
  /-- a probe is let through only when the cool-down is over, and makes the breaker half-open -/
  probe : Along (step cfg) (fun w m => AdmitsProbe cfg w m → Cooled cfg w ∧ (step cfg w m).breaker.state = .halfOpen) {} ms
  /-- when another probe is let through, the breaker has opened again since the last one -/
  apart : ∀ pre m mid m' post, ms = pre ++ m :: mid ++ m' :: post → AdmitsProbe cfg (run (step cfg) {} pre) m →
    AdmitsProbe cfg (run (step cfg) {} (pre ++ m :: mid)) m' →
      (run (step cfg) {} (pre ++ [m])).breaker.state = .halfOpen ∧ Cooled cfg (run (step cfg) {} (pre ++ m :: mid))

/-- the request of the only probe in progress of a half-open breaker ends in an exception that is no `httpx.HTTPError` -/
def LosesProbe (w : World) (m : Move) : Prop :=
  w.breaker.state = .halfOpen ∧ ∃ i e, m = .finish i (.raised e) ∧ e.isHTTPError = false ∧ w.calls i = .inProgress true ∧
    ∀ j, j ≠ i → w.calls j ≠ .inProgress true

/-! ## The invariant -/

structure Inv (cfg : Settings) (w : World) : Prop where
  half : w.breaker.state = .halfOpen → w.breaker.probing = true
  count : w.breaker.state = .closed → w.breaker.failures = w.consecutive
  below : w.breaker.state = .closed → (w.breaker.failures : ℤ) < cfg.failureThreshold

theorem threshold_pos (cfg : Settings) : 0 < cfg.failureThreshold := by
  unfold Settings.failureThreshold
  omega

theorem Inv.init : Inv cfg {} where
  half h := by cases h
  count _ := rfl
  below _ := threshold_pos cfg

/-! ## What a move does -/

/-- what a failure does to the breaker: it is counted and may be one too many, or the breaker opens again -/
theorem recordFailure_cases (cfg : Settings) (clock : ℚ) (b : CircuitBreaker) :
    (b.state = .closed ∧ (b.failures + 1 : ℤ) < cfg.failureThreshold ∧
        b.recordFailure cfg clock = { b with failures := b.failures + 1 }) ∨
      (b.state = .closed → cfg.failureThreshold ≤ (b.failures + 1 : ℤ)) ∧ (b.recordFailure cfg clock).state = .isOpen := by
  by_cases hfull : cfg.failureThreshold ≤ ((b.failures + 1 : ℕ) : ℤ)
  · refine Or.inr ⟨fun _ => by exact_mod_cast hfull, ?_⟩
    rcases hs : b.state with _ | _ | _ <;> simp only [CircuitBreaker.recordFailure, hs, if_pos hfull]
  · rcases hs : b.state with _ | _ | _
    · refine Or.inl ⟨rfl, by push_cast at hfull; omega, ?_⟩
      simp only [CircuitBreaker.recordFailure, hs, if_neg hfull]
    · refine Or.inr ⟨fun h => (by cases h), ?_⟩
      simp only [CircuitBreaker.recordFailure, hs, if_neg hfull]
    · refine Or.inr ⟨fun h => (by cases h), ?_⟩
      simp only [CircuitBreaker.recordFailure, hs]

/-- what `allow` answers, and what it leaves -/
theorem allow_cases (cfg : Settings) (clock : ℚ) (b : CircuitBreaker) (hhalf : b.state = .halfOpen → b.probing = true) :
    b.state = .closed ∧ b.allow cfg clock = (true, b) ∨
      b.state ≠ .closed ∧ b.allow cfg clock = (false, b) ∨
        b.state = .isOpen ∧ cfg.resetSeconds ≤ clock - b.openedAt ∧
          b.allow cfg clock = (true, { b with state := .halfOpen, probing := true }) := by
  rcases hs : b.state with _ | _ | _
  · exact Or.inl ⟨rfl, by simp only [CircuitBreaker.allow, hs]⟩
  · by_cases hcool : cfg.resetSeconds ≤ clock - b.openedAt
    · exact Or.inr (Or.inr ⟨rfl, hcool, by simp only [CircuitBreaker.allow, hs, if_pos hcool]⟩)
    · exact Or.inr (Or.inl ⟨by decide, by simp only [CircuitBreaker.allow, hs, if_neg hcool]⟩)
  · exact Or.inr (Or.inl ⟨by decide, by simp only [CircuitBreaker.allow, hs, hhalf hs, if_true]⟩)

/-- a call that asks: it is let through as it is, refused, or let through as a probe -/
theorem begin_cases (h : Inv cfg w) (i : ℕ) :
    step cfg w (.begin i) = w ∨ w.calls i = .idle ∧
      (w.breaker.state = .closed ∧
          step cfg w (.begin i) = { w with calls := Function.update w.calls i (.inProgress false) } ∨
        w.breaker.state ≠ .closed ∧
          step cfg w (.begin i) = { w with calls := Function.update w.calls i (.ended .userHttpUnavailable) } ∨
        Cooled cfg w ∧ step cfg w (.begin i) =
          { w with
            breaker := { w.breaker with state := .halfOpen, probing := true }
            calls := Function.update w.calls i (.inProgress true) }) := by
  by_cases hidle : w.calls i = .idle
  · refine Or.inr ⟨hidle, ?_⟩
    rcases allow_cases cfg w.clock w.breaker h.half with ⟨hs, ha⟩ | ⟨hs, ha⟩ | ⟨hs, hcool, ha⟩
    · refine Or.inl ⟨hs, ?_⟩
      simp [step, hidle, ha, hs]
    · refine Or.inr (Or.inl ⟨hs, ?_⟩)
      simp [step, hidle, ha]
    · refine Or.inr (Or.inr ⟨⟨hs, hcool⟩, ?_⟩)
      simp [step, hidle, ha, hs]
  · exact Or.inl (by simp only [step, if_neg hidle])

/-- a call that ends: it was not in progress, or its outcome is recorded -/
theorem finish_cases (cfg : Settings) (w : World) (i : ℕ) (o : Outcome) :
    (∀ probe, w.calls i ≠ .inProgress probe) ∧ step cfg w (.finish i o) = w ∨
      ∃ probe, w.calls i = .inProgress probe ∧ step cfg w (.finish i o) =
        { w.record cfg o.recorded with calls := Function.update w.calls i (.ended o.result) } := by
  rcases hc : w.calls i with _ | probe | r
  · exact Or.inl ⟨by simp, by simp only [step, hc]⟩
  · exact Or.inr ⟨probe, rfl, by simp only [step, hc]⟩
  · exact Or.inl ⟨by simp, by simp only [step, hc]⟩

/-! ## The invariant is kept -/

theorem Inv.record (h : Inv cfg w) (r : Option Bool) : Inv cfg (w.record cfg r) := by
  rcases r with _ | (_ | _)
  · exact h
  · rcases recordFailure_cases cfg w.clock w.breaker with ⟨hs, hbelow, hr⟩ | ⟨-, hopen⟩
    · have hcount := h.count hs
      simp only [World.record, hr]
      exact ⟨h.half, fun _ => by simp [hcount], fun _ => by push_cast; exact hbelow⟩
    · have hother : ∀ s : BreakerState, s ≠ .isOpen → (w.breaker.recordFailure cfg w.clock).state ≠ s := by
        intro s hne heq
        exact hne (heq.symm.trans hopen)
      exact ⟨fun h => absurd h (hother _ (by decide)), fun h => absurd h (hother _ (by decide)),
        fun h => absurd h (hother _ (by decide))⟩
  · exact ⟨fun h => (by cases h), fun _ => rfl, fun _ => threshold_pos cfg⟩

/-- the invariant is about the breaker and the count -/
theorem Inv.congr {w' : World} (h : Inv cfg w) (hb : w'.breaker = w.breaker) (hc : w'.consecutive = w.consecutive) :
    Inv cfg w' where
  half := hb ▸ h.half
  count := by rw [hb, hc]; exact h.count
  below := hb ▸ h.below

theorem Inv.step (h : Inv cfg w) (m : Move) : Inv cfg (step cfg w m) := by
  cases m with
  | tick d => exact h.congr rfl rfl
  | begin i =>
    rcases begin_cases h i with hs | ⟨-, ⟨-, hs⟩ | ⟨-, hs⟩ | ⟨-, hs⟩⟩
    · rwa [hs]
    · exact hs ▸ h.congr rfl rfl
    · exact hs ▸ h.congr rfl rfl
    · rw [hs]
      exact ⟨fun _ => rfl, fun h => (by cases h), fun h => (by cases h)⟩
  | finish i o =>
    rcases finish_cases cfg w i o with ⟨-, hs⟩ | ⟨probe, -, hs⟩
    · rwa [hs]
    · exact hs ▸ (h.record o.recorded).congr rfl rfl
  | reset => exact ⟨fun h => (by cases h), fun _ => rfl, fun _ => threshold_pos cfg⟩

theorem inv_run (cfg : Settings) (ms : List Move) : Inv cfg (run (step cfg) {} ms) :=
  run_inv along_true Inv.init fun _ m h _ => h.step m

/-! ## One move -/

/-- **Opening.** A closed breaker opens with the failure that makes the configured number in a row. -/
theorem opens_iff (h : Inv cfg w) (hs : w.breaker.state = .closed) : (step cfg w m).breaker.state = .isOpen ↔
    RecordsFailure w m ∧ (w.consecutive + 1 : ℤ) = cfg.failureThreshold := by
  have hbelow := h.below hs
  have hcount := h.count hs
  have hstay : ∀ w' : World, w'.breaker.state = .closed → ¬ RecordsFailure w m →
      (w'.breaker.state = .isOpen ↔ RecordsFailure w m ∧ (w.consecutive + 1 : ℤ) = cfg.failureThreshold) :=
    fun w' hw' hno => ⟨fun ho => (by rw [hw'] at ho; cases ho), fun hr => absurd hr.1 hno⟩
  cases m with
  | tick d => exact hstay _ hs fun ⟨_, _, _, hm, _⟩ => by cases hm
  | reset => exact hstay _ rfl fun ⟨_, _, _, hm, _⟩ => by cases hm
  | begin i =>
    refine hstay _ ?_ fun ⟨_, _, _, hm, _⟩ => by cases hm
    rcases begin_cases h i with he | ⟨-, ⟨-, he⟩ | ⟨hne, -⟩ | ⟨⟨hne, -⟩, -⟩⟩
    · rw [he, hs]
    · rw [he]
      exact hs
    · exact absurd hs hne
    · rw [hs] at hne
      cases hne
  | finish i o =>
    rcases finish_cases cfg w i o with ⟨hno, he⟩ | ⟨probe, hc, he⟩
    · rw [he]
      refine hstay _ hs fun ⟨i', _, probe, hm, hc, _⟩ => ?_
      cases hm
      exact hno probe hc
    · rw [he]
      have hnot : o.recorded ≠ some false → ¬ RecordsFailure w (.finish i o) := by
        rintro hr ⟨_, _, _, hm, -, hf⟩
        cases hm
        exact hr hf
      rcases hr : o.recorded with _ | (_ | _)
      · exact hstay _ hs (hnot (by simp [hr]))
      · have hrecords : RecordsFailure w (.finish i o) := ⟨i, o, probe, rfl, hc, hr⟩
        rcases recordFailure_cases cfg w.clock w.breaker with ⟨-, hlt, hf⟩ | ⟨hfull, hopen⟩
        · simp only [World.record, hf, hs]
          exact ⟨fun ho => (by cases ho), fun hn => by omega⟩
        · have := hfull hs
          exact ⟨fun _ => ⟨hrecords, by omega⟩, fun _ => hopen⟩
      · exact hstay _ rfl (hnot (by simp [hr]))

theorem probe_cooled (h : Inv cfg w) (hp : AdmitsProbe cfg w m) :
    Cooled cfg w ∧ (step cfg w m).breaker.state = .halfOpen := by
  obtain ⟨i, rfl, hidle, hclosed, hallow⟩ := hp
  rcases begin_cases h i with he | ⟨-, ⟨hs, -⟩ | ⟨-, he⟩ | ⟨hcool, he⟩⟩
  · have : (step cfg w (.begin i)).calls i = .idle := by rw [he, hidle]
    simp [step, hidle, hallow] at this
  · exact absurd hs hclosed
  · have : (step cfg w (.begin i)).calls i = .ended .userHttpUnavailable := by
      rw [he]
      exact Function.update_self ..
    simp [step, hidle, hallow] at this
  · exact ⟨hcool, by rw [he]⟩

theorem NeverStuck.step (h : Inv cfg w) (hw : NeverStuck w) (hm : ¬ LosesProbe w m) : NeverStuck (step cfg w m) := by
  cases m with
  | tick d => exact hw
  | reset => exact fun h => by cases h
  | begin i =>
    rcases begin_cases h i with he | ⟨hidle, ⟨hs, he⟩ | ⟨-, he⟩ | ⟨-, he⟩⟩
    · rwa [he]
    · rw [he]
      intro hhalf
      rw [hs] at hhalf
      cases hhalf
    · rw [he]
      intro hhalf hprobing
      obtain ⟨j, hj⟩ := hw hhalf hprobing
      have hne : j ≠ i := by
        rintro rfl
        rw [hidle] at hj
        cases hj
      exact ⟨j, (Function.update_of_ne hne _ _).trans hj⟩
    · rw [he]
      exact fun _ _ => ⟨i, Function.update_self ..⟩
  | finish i o =>
    rcases finish_cases cfg w i o with ⟨-, he⟩ | ⟨probe, hc, he⟩
    · rwa [he]
    · rw [he]
      rcases hr : o.recorded with _ | (_ | _)
      · -- nothing is recorded: another probe is in progress
        intro hhalf hprobing
        obtain ⟨j, hj⟩ := hw hhalf hprobing
        by_cases hji : j = i
        · subst hji
          obtain ⟨e, rfl, hexc⟩ : ∃ e, o = .raised e ∧ e.isHTTPError = false := by
            cases o with
            | response statusCode => cases hr
            | raised e => exact ⟨e, rfl, by simpa [Outcome.recorded] using hr⟩
          obtain ⟨k, hk, hkp⟩ : ∃ k, k ≠ j ∧ w.calls k = .inProgress true := by
            by_contra hnone
            push Not at hnone
            exact hm ⟨hhalf, j, e, rfl, hexc, hj, hnone⟩
          exact ⟨k, (Function.update_of_ne hk _ _).trans hkp⟩
        · exact ⟨j, (Function.update_of_ne hji _ _).trans hj⟩
      · intro hhalf
        rcases recordFailure_cases cfg w.clock w.breaker with ⟨hs, -, hf⟩ | ⟨-, hopen⟩
        · simp only [World.record, hf, hs] at hhalf
          cases hhalf
        · have := hhalf.symm.trans hopen
          cases this
      · exact fun h => by cases h

theorem stuck_of_loses (h : Inv cfg w) (hm : LosesProbe w m) : ¬ NeverStuck (step cfg w m) := by
  obtain ⟨hhalf, i, e, rfl, he, hi, hother⟩ := hm
  have hnone : (Outcome.raised e).recorded = none := by simp [Outcome.recorded, he]
  rcases finish_cases cfg w i (.raised e) with ⟨hno, -⟩ | ⟨probe, -, hstep⟩
  · exact absurd hi (hno true)
  · rw [hstep, hnone]
    intro hstuck
    obtain ⟨j, hj⟩ := hstuck hhalf (h.half hhalf)
    change Function.update w.calls i _ j = _ at hj
    by_cases hji : j = i
    · subst hji
      rw [Function.update_self] at hj
      cases hj
    · exact hother j hji ((Function.update_of_ne hji _ _).symm.trans hj)

/-! ## The runs -/

/-- between two probes the breaker has opened again and cooled down -/
theorem probes_apart (cfg : Settings) (pre mid : List Move) (m m' : Move)
    (h : AdmitsProbe cfg (run (step cfg) {} pre) m)
    (h' : AdmitsProbe cfg (run (step cfg) {} (pre ++ m :: mid)) m') :
    (run (step cfg) {} (pre ++ [m])).breaker.state = .halfOpen ∧ Cooled cfg (run (step cfg) {} (pre ++ m :: mid)) := by
  rw [run_snoc]
  exact ⟨(probe_cooled (inv_run cfg pre) h).2, (probe_cooled (inv_run cfg _) h').1⟩

/-- **Never stuck.** A run of calls keeps the promises of the breaker if and only if the request of no lone probe ends
in an exception that is no `httpx.HTTPError`. -/
theorem never_stuck_iff (cfg : Settings) (ms : List Move) :
    Promises cfg ms ↔ Along (step cfg) (fun w m => ¬ LosesProbe w m) {} ms := by
  constructor
  · intro h pre m post heq hloses
    have hstuck := h.never_stuck (pre ++ [m]) post (by simp [heq])
    rw [run_snoc] at hstuck
    exact stuck_of_loses (inv_run cfg pre) hloses hstuck
  · intro h
    refine ⟨fun pre post heq => ?_, fun pre m post _ => opens_iff (inv_run cfg pre),
      fun pre m post _ => probe_cooled (inv_run cfg pre),
      fun pre m mid m' post _ => probes_apart cfg pre mid m m'⟩
    have hpre : Along (step cfg) (fun w m => ¬ LosesProbe w m) {} pre := Along.prefix (heq ▸ h)
    have hboth : Inv cfg (run (step cfg) {} pre) ∧ NeverStuck (run (step cfg) {} pre) :=
      run_inv (I := fun w => Inv cfg w ∧ NeverStuck w) hpre ⟨Inv.init, fun h => by cases h⟩
        fun w m ⟨hinv, hw⟩ hm => ⟨hinv.step m, hw.step hinv hm⟩
    exact hboth.2

/-! ## A cancelled probe -/

/-- a move is about one call -/
theorem calls_other {i : ℕ} (hbegin : m ≠ .begin i) (hfinish : ∀ o, m ≠ .finish i o) :
    (step cfg w m).calls i = w.calls i := by
  cases m with
  | tick d => rfl
  | reset => rfl
  | begin j =>
    have hij : i ≠ j := fun h => hbegin (h ▸ rfl)
    by_cases hidle : w.calls j = .idle
    · simp only [step, if_pos hidle]
      exact Function.update_of_ne hij _ _
    · simp only [step, if_neg hidle]
  | finish j o =>
    have hij : i ≠ j := fun h => hfinish o (h ▸ rfl)
    rcases finish_cases cfg w j o with ⟨-, he⟩ | ⟨probe, -, he⟩
    · rw [he]
    · rw [he]
      exact Function.update_of_ne hij _ _

/-- one failure opens the breaker, and the probe after the cool-down is cancelled -/
def demoMoves : List Move :=
  [.begin 0, .finish 0 (.raised .transport), .tick 30, .begin 1, .finish 1 (.raised .cancelled)]

/-- the slot is taken and nothing is in progress -/
theorem stuck_after_cancel : ¬ ∀ cfg ms, Promises cfg ms := by
  intro h
  have hw := (h ⟨1, 30⟩ demoMoves).never_stuck demoMoves [] (by simp)
  obtain ⟨i, hi⟩ := hw (by decide +kernel) (by decide +kernel)
  by_cases h₀ : i = 0
  · subst h₀
    exact absurd hi (by decide +kernel)
  by_cases h₁ : i = 1
  · subst h₁
    exact absurd hi (by decide +kernel)
  simp [demoMoves, run_cons, calls_other, Ne.symm h₀, Ne.symm h₁] at hi

end LkmService.Breaker
