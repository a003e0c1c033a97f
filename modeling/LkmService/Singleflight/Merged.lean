/-
What the callers of `run` get (`core/singleflight.py`).

Results:
- `merged_iff`: in the state that a run reaches, one unfinished loader runs for a key, a waiting caller's loader is still
  there, a cancelled caller changes no task, and without callers and loaders the table is empty; and each caller got the
  outcome of a loader that ended after it joined exactly when every step of the run was `Fresh`.
- `stale_result` (failing runs): a caller that joins between the end of the task and the clean-up gets what was loaded
  before it came.
-/
import LkmService.Singleflight.Invariant

namespace LkmService.Singleflight

variable {Key Loader Value Error : Type} [DecidableEq Key] {s : State Key Loader Value Error} {f : FlightId} {key : Key}

/-! ## The tasks -/

/-- what a task is: its key, its loader, and how it ended -/
def State.task (s : State Key Loader Value Error) (f : FlightId) :
    Option (Key × Loader × Option (ℕ × Outcome Value Error)) :=
  (s.flights f).map fun flight => (flight.key, flight.loader, flight.finished)

omit [DecidableEq Key] in
theorem task_update {flight : Flight Key Loader Value Error} (flight' : Flight Key Loader Value Error)
    (hflight : s.flights f = some flight)
    (hsame : (flight'.key, flight'.loader, flight'.finished) = (flight.key, flight.loader, flight.finished))
    {t : State Key Loader Value Error} (ht : t.flights = Function.update s.flights f (some flight')) :
    t.task = s.task := by
  funext g
  by_cases hgf : g = f
  · subst hgf
    simp [State.task, ht, hflight, hsame]
  · simp [State.task, ht, Function.update_of_ne hgf]

omit [DecidableEq Key] in
@[simp] theorem task_hold (key : Key) (f : FlightId) : (hold s key f).task = s.task := by
  rcases hflight : s.flights f with _ | flight
  · funext g
    by_cases hgf : g = f
    · subst hgf
      simp [State.task, hold, hflight]
    · simp [State.task, hold, Function.update_of_ne hgf]
  · exact task_update { flight with refs := flight.refs + 1 } hflight rfl (by simp [hold, hflight])

@[simp] theorem task_leave (w : Waiting Key) (got : Got Value Error) : (leave s w got).task = s.task := by
  rcases hflight : s.flights w.flight with _ | flight
  · simp [leave, hflight]
  · exact task_update { flight with refs := flight.refs - 1 } hflight rfl (by simp [leave, hflight])

/-- a task that is there stays, and one that has ended stays as it ended -/
def Onward (s t : State Key Loader Value Error) : Prop :=
  ∀ f key loader finished, s.task f = some (key, loader, finished) →
    ∃ finished', t.task f = some (key, loader, finished') ∧ ∀ x, finished = some x → finished' = some x

omit [DecidableEq Key] in
theorem onward_of_eq {t : State Key Loader Value Error} (h : t.task = s.task) : Onward s t :=
  fun f key loader finished hf => ⟨finished, by rw [h]; exact hf, fun _ hx => hx⟩

theorem task_enter (h : Inv s) (key : Key) (loader : Loader) {g : FlightId} {k : Key} {l : Loader}
    {finished : Option (ℕ × Outcome Value Error)} :
    (enter s key loader).1.task g = some (k, l, finished) →
      s.task g = some (k, l, finished) ∨ s.task g = none ∧ finished = none := by
  intro hg
  rcases hkey : s.table key with _ | f
  · simp only [enter, hkey] at hg
    by_cases hgf : g = s.nextFlight
    · subst hgf
      have hnone : s.flights s.nextFlight = none := by
        rcases hflight : s.flights s.nextFlight with _ | flight
        · rfl
        · exact absurd (h.fresh _ _ hflight) (lt_irrefl _)
      simp only [State.task, Function.update_self, Option.map_some, Option.some.injEq, Prod.mk.injEq] at hg
      exact Or.inr ⟨by simp [State.task, hnone], hg.2.2.symm⟩
    · exact Or.inl (by simpa [State.task, Function.update_of_ne hgf] using hg)
  · exact Or.inl (by simpa [enter, hkey] using hg)

theorem onward_enter (h : Inv s) (key : Key) (loader : Loader) : Onward s (enter s key loader).1 := by
  intro g k l finished hg
  refine ⟨finished, ?_, fun _ hx => hx⟩
  rcases hkey : s.table key with _ | f
  · have hgf : g ≠ s.nextFlight := by
      rintro rfl
      rcases hflight : s.flights s.nextFlight with _ | flight
      · simp [State.task, hflight] at hg
      · exact absurd (h.fresh _ _ hflight) (lt_irrefl _)
    simpa [enter, hkey, State.task, Function.update_of_ne hgf] using hg
  · simpa [enter, hkey] using hg

/-! ## What the callers got -/

/-- the outcome of a loader of its own key that was running after the caller joined -/
def Served (s : State Key Loader Value Error) (e : Return Key Value Error) : Prop :=
  match e.got with
  | .outcome o => ∃ loader t, s.task e.flight = some (e.key, loader, some (t, o)) ∧ e.joined < t
  | .cancelled => True
  | .roleRaised _ => False

/-- a caller finds no ended task under its key, and its `on_role` does not raise -/
def Op.Fresh (s : State Key Loader Value Error) : Op Key Loader Value Error → Prop
  | .join key _ roleError =>
    roleError = none ∧ ∀ f flight, s.table key = some f → s.flights f = some flight → flight.finished = none
  | _ => True

/-- every step of the run meets its condition -/
def AllFresh (s : State Key Loader Value Error) : List (Op Key Loader Value Error) → Prop
  | [] => True
  | op :: ops => op.Fresh s ∧ AllFresh (step s op) ops

/-- the times of the ends are past, and what a caller got is how its task ended -/
structure Timed (s : State Key Loader Value Error) : Prop where
  past : ∀ f key loader t o, s.task f = some (key, loader, some (t, o)) → t ≤ s.now
  logged : ∀ e ∈ s.log, ∀ o, e.got = .outcome o →
    ∃ loader t, s.task e.flight = some (e.key, loader, some (t, o))

omit [DecidableEq Key] in
theorem served_onward {t : State Key Loader Value Error} (h : Onward s t) (htimed : Timed s)
    {e : Return Key Value Error} (he : e ∈ s.log) : Served t e ↔ Served s e := by
  unfold Served
  split
  next o hgot =>
    obtain ⟨loader, t', htask⟩ := htimed.logged e he o hgot
    obtain ⟨finished, hlater, hkeep⟩ := h _ _ _ _ htask
    rw [hkeep _ rfl] at hlater
    rw [htask, hlater]
  next => exact Iff.rfl
  next => exact Iff.rfl

/-- what one step does to the tasks and to the log -/
structure Does (s t : State Key Loader Value Error) (op : Op Key Loader Value Error) : Prop where
  onward : Onward s t
  later : s.now ≤ t.now
  ended : ∀ f key loader x o, t.task f = some (key, loader, some (x, o)) →
    s.task f = some (key, loader, some (x, o)) ∨ x = t.now
  returns : t.log = s.log ∧ op.Fresh s ∨
    ∃ e, t.log = s.log ++ [e] ∧ (Served t e ↔ op.Fresh s) ∧
      ∀ o, e.got = .outcome o → ∃ loader x, t.task e.flight = some (e.key, loader, some (x, o))

theorem does_join (h : Inv s) (htimed : Timed s) (key : Key) (loader : Loader) (roleError : Option Error) :
    Does s (step s (.join key loader roleError)) (.join key loader roleError) := by
  obtain ⟨e, f, flight, hentered, hinv, hflight, hkey, hcase⟩ := join_cases h.tick key loader roleError
  have hfst : (enter { s with now := s.now + 1 } key loader).1 = e := by rw [hentered]
  have honward : Onward s e := hfst ▸ onward_enter h.tick key loader
  have hfacts : e.now = s.now + 1 ∧ e.log = s.log ∧
      (flight.finished ≠ none → s.table key = some f ∧ s.flights f = some flight) := by
    have hcopy := hentered
    unfold enter at hcopy
    split at hcopy
    next g hg =>
      cases hcopy
      exact ⟨rfl, rfl, fun _ => ⟨hg, hflight⟩⟩
    next hg =>
      cases hcopy
      simp only [Function.update_self, Option.some.injEq] at hflight
      subst hflight
      exact ⟨rfl, rfl, fun hended => absurd rfl hended⟩
  have hended : ∀ g k l x o, e.task g = some (k, l, some (x, o)) → s.task g = some (k, l, some (x, o)) := by
    intro g k l x o hg
    rw [← hfst] at hg
    rcases task_enter h.tick key loader hg with hold | ⟨_, hnone⟩
    · exact hold
    · cases hnone
  have htask : e.task f = some (key, flight.loader, flight.finished) := by
    simp [State.task, hflight, hkey]
  rcases hcase with ⟨hrole, hrunning, heq⟩ | ⟨got, heq, hgot⟩
  · have hstep : step s (.join key loader roleError) = hold e key f := heq
    rw [hstep]
    refine ⟨fun g k l x hg => by simpa using honward g k l x hg, by simp [hold, hfacts.1], ?_, Or.inl ⟨hfacts.2.1, hrole, ?_⟩⟩
    · intro g k l x o hg
      exact Or.inl (hended g k l x o (by simpa using hg))
    · intro g other hg hother
      rcases hfin : other.finished with _ | x
      · rfl
      · exfalso
        have hsame : enter { s with now := s.now + 1 } key loader = ({ s with now := s.now + 1 }, g) := by
          simp [enter, hg]
        rw [hsame] at hentered
        cases hentered
        rw [hother] at hflight
        cases hflight
        rw [hfin] at hrunning
        cases hrunning
  · have hstep : step s (.join key loader roleError) =
        leave (hold e key f) ⟨e.nextCaller, key, f, e.now⟩ got := heq
    have hlog : (leave (hold e key f) ⟨e.nextCaller, key, f, e.now⟩ got).log =
        s.log ++ [⟨⟨e.nextCaller, key, f, e.now⟩, got⟩] := by
      rw [leave_hold hinv hflight, hfacts.2.1]
    rw [hstep]
    refine ⟨fun g k l x hg => by simpa using honward g k l x hg, ?_, ?_, Or.inr ⟨_, hlog, ?_, ?_⟩⟩
    · rw [leave_hold hinv hflight]
      simp [hfacts.1]
    · intro g k l x o hg
      exact Or.inl (hended g k l x o (by simpa using hg))
    · rcases hgot with ⟨error, hrole, rfl⟩ | ⟨_, t, o, hfinished, rfl⟩
      · simp [Served, Op.Fresh, hrole]
      · have hnot : ¬ (Op.join key loader roleError : Op Key Loader Value Error).Fresh s := by
          rintro ⟨_, hfresh⟩
          obtain ⟨hentry, hthere⟩ := hfacts.2.2 (by simp [hfinished])
          have := hfresh f flight hentry hthere
          rw [hfinished] at this
          cases this
        refine iff_of_false ?_ hnot
        rintro ⟨l, x, hx, hbefore⟩
        have hold := hended f key flight.loader t o (by rw [htask, hfinished])
        have hpast := htimed.past _ _ _ _ _ hold
        simp only [task_leave, task_hold] at hx
        rw [htask, hfinished] at hx
        simp only [Option.some.injEq, Prod.mk.injEq, true_and] at hx
        have hnow := hfacts.1
        simp only at hbefore
        omega
    · intro o ho
      rcases hgot with ⟨error, _, rfl⟩ | ⟨_, t, o', hfinished, rfl⟩
      · cases ho
      · cases ho
        exact ⟨flight.loader, t, by simp [htask, hfinished]⟩

omit [DecidableEq Key] in
/-- a step that neither ends a task nor lets a caller go -/
theorem does_nothing {t : State Key Loader Value Error} {op : Op Key Loader Value Error} (htask : t.task = s.task)
    (hnow : s.now ≤ t.now) (hlog : t.log = s.log) (hfresh : op.Fresh s) : Does s t op :=
  ⟨onward_of_eq htask, hnow, fun f key loader x o hf => Or.inl (by rw [← htask]; exact hf), Or.inl ⟨hlog, hfresh⟩⟩

/-- a caller that was waiting goes on -/
theorem does_leave {op : Op Key Loader Value Error} (h : Inv s) {w : Waiting Key} (hw : w ∈ s.waiting)
    {got : Got Value Error} (hfresh : op.Fresh s)
    (hgot : got = .cancelled ∨ ∃ t o, got = .outcome o ∧ (s.flights w.flight).bind Flight.finished = some (t, o)) :
    Does s (leave { s with now := s.now + 1 } w got) op := by
  obtain ⟨flight, hflight, hkey, htime⟩ := h.held w hw
  have htask : (leave { s with now := s.now + 1 } w got).task = s.task := task_leave w got
  have hentry : s.task w.flight = some (w.key, flight.loader, flight.finished) := by
    simp [State.task, hflight, hkey]
  refine ⟨onward_of_eq htask, by simp [leave, hflight], fun f key loader x o hf => Or.inl (by rw [← htask]; exact hf),
    Or.inr ⟨⟨w, got⟩, by simp [leave, hflight], iff_of_true ?_ hfresh, ?_⟩⟩
  · rcases hgot with rfl | ⟨t, o, rfl, hfinished⟩
    · trivial
    · simp only [hflight, Option.bind_some] at hfinished
      exact ⟨flight.loader, t, by rw [htask, hentry, hfinished], htime t o hfinished⟩
  · intro o ho
    rcases hgot with rfl | ⟨t, o', rfl, hfinished⟩
    · cases ho
    · cases ho
      simp only [hflight, Option.bind_some] at hfinished
      exact ⟨flight.loader, t, by rw [htask, hentry, hfinished]⟩

/-- the step lemma of the log -/
theorem does_step (h : Inv s) (htimed : Timed s) (op : Op Key Loader Value Error) : Does s (step s op) op := by
  cases op with
  | join key loader roleError => exact does_join h htimed key loader roleError
  | finish f o =>
    simp only [step]
    split
    next key loader refs due hflight =>
      have hother : ∀ g, g ≠ f → (Function.update s.flights f
          (some (⟨key, loader, refs, some (s.now + 1, o), true⟩ : Flight Key Loader Value Error))) g = s.flights g :=
        fun g hg => Function.update_of_ne hg ..
      refine ⟨fun g k l finished hg => ?_, Nat.le_succ _, fun g k l x o' hg => ?_, Or.inl ⟨rfl, trivial⟩⟩
      · by_cases hgf : g = f
        · subst hgf
          simp only [State.task, hflight, Option.map_some, Option.some.injEq, Prod.mk.injEq] at hg
          obtain ⟨rfl, rfl, rfl⟩ := hg
          exact ⟨some (s.now + 1, o), by simp [State.task], fun _ hx => by cases hx⟩
        · exact ⟨finished, by simpa [State.task, hother g hgf] using hg, fun _ hx => hx⟩
      · by_cases hgf : g = f
        · subst hgf
          simp only [State.task, Function.update_self, Option.map_some, Option.some.injEq, Prod.mk.injEq] at hg
          exact Or.inr hg.2.2.1.symm
        · exact Or.inl (by simpa [State.task, hother g hgf] using hg)
    next => exact does_nothing rfl (Nat.le_succ _) rfl trivial
  | callback f =>
    simp only [step]
    split
    next key loader refs finished hflight =>
      exact does_nothing (task_update ⟨key, loader, refs, finished, false⟩ hflight rfl rfl) (Nat.le_succ _) rfl trivial
    next => exact does_nothing rfl (Nat.le_succ _) rfl trivial
  | resume c =>
    simp only [step]
    split
    next => exact does_nothing rfl (Nat.le_succ _) rfl trivial
    next w hw =>
      split
      next => exact does_nothing rfl (Nat.le_succ _) rfl trivial
      next t o hfinished =>
        exact does_leave h (List.mem_of_find?_eq_some hw) trivial (Or.inr ⟨t, o, rfl, hfinished⟩)
  | cancel c =>
    simp only [step]
    split
    next => exact does_nothing rfl (Nat.le_succ _) rfl trivial
    next w hw => exact does_leave h (List.mem_of_find?_eq_some hw) trivial (Or.inl rfl)

omit [DecidableEq Key] in
theorem Timed.step (h : Timed s) {t : State Key Loader Value Error} {op : Op Key Loader Value Error}
    (hdoes : Does s t op) : Timed t := by
  refine ⟨fun f key loader x o hf => ?_, fun e he o ho => ?_⟩
  · rcases hdoes.ended f key loader x o hf with hold | rfl
    · exact le_trans (h.past f key loader x o hold) hdoes.later
    · exact le_rfl
  · have hold : e ∈ s.log → ∃ loader x, t.task e.flight = some (e.key, loader, some (x, o)) := by
      intro hmem
      obtain ⟨loader, x, htask⟩ := h.logged e hmem o ho
      obtain ⟨finished, hlater, hkeep⟩ := hdoes.onward _ _ _ _ htask
      exact ⟨loader, x, by rw [hlater, hkeep _ rfl]⟩
    rcases hdoes.returns with ⟨hlog, _⟩ | ⟨new, hlog, _, hnew⟩
    · exact hold (hlog ▸ he)
    · rw [hlog] at he
      rcases List.mem_append.1 he with he | he
      · exact hold he
      · obtain rfl := List.mem_singleton.1 he
        exact hnew o ho

omit [DecidableEq Key] in
theorem served_step (h : Timed s) {t : State Key Loader Value Error} {op : Op Key Loader Value Error}
    (hdoes : Does s t op) : (∀ e ∈ t.log, Served t e) ↔ (∀ e ∈ s.log, Served s e) ∧ op.Fresh s := by
  have hold : (∀ e ∈ s.log, Served t e) ↔ ∀ e ∈ s.log, Served s e :=
    forall₂_congr fun e he => served_onward hdoes.onward h he
  rcases hdoes.returns with ⟨hlog, hfresh⟩ | ⟨new, hlog, hnew, _⟩
  · rw [hlog, hold]
    exact ⟨fun hall => ⟨hall, hfresh⟩, And.left⟩
  · rw [hlog, ← hold, ← hnew]
    simp only [List.mem_append, List.mem_singleton, or_imp, forall_and, forall_eq]

/-- the run lemma: all callers are served exactly when every step is fresh -/
theorem served_run (h : Inv s) (htimed : Timed s) (ops : List (Op Key Loader Value Error)) :
    (∀ e ∈ (run s ops).log, Served (run s ops) e) ↔ (∀ e ∈ s.log, Served s e) ∧ AllFresh s ops := by
  induction ops generalizing s with
  | nil => simp [run, AllFresh]
  | cons op ops ih =>
    have hdoes := does_step h htimed op
    have hrun : run s (op :: ops) = run (step s op) ops := rfl
    rw [hrun, ih (h.step op) (htimed.step hdoes), served_step htimed hdoes, AllFresh, and_assoc]

/-! ## One caller -/

/-- who waits goes on waiting, unless the step is its own -/
theorem waiting_stays (h : Inv s) {w : Waiting Key} (hw : w ∈ s.waiting) {op : Op Key Loader Value Error}
    (hresume : op ≠ .resume w.caller) (hcancel : op ≠ .cancel w.caller) : w ∈ (step s op).waiting := by
  have hleave : ∀ (c : CallerId) (x : Waiting Key) (got : Got Value Error), w.caller ≠ c →
      s.waiting.find? (·.caller = c) = some x → w ∈ (leave { s with now := s.now + 1 } x got).waiting := by
    intro c x got hne hx
    have hcaller : x.caller = c := by simpa using List.find?_some hx
    obtain ⟨flight, hflight, _⟩ := h.held x (List.mem_of_find?_eq_some hx)
    simp only [leave, hflight, List.mem_filter]
    exact ⟨hw, by simpa [hcaller] using hne⟩
  cases op with
  | join key loader roleError =>
    obtain ⟨e, f, flight, hentered, hinv, hflight, _, hcase⟩ := join_cases h.tick key loader roleError
    have hsame : e.waiting = s.waiting := by
      unfold enter at hentered
      split at hentered <;> cases hentered <;> rfl
    rcases hcase with ⟨_, _, heq⟩ | ⟨got, heq, _⟩
    · have hstep : step s (.join key loader roleError) = hold e key f := heq
      rw [hstep]
      exact List.mem_append_left _ (hsame ▸ hw)
    · have hstep : step s (.join key loader roleError) = leave (hold e key f) ⟨e.nextCaller, key, f, e.now⟩ got := heq
      rw [hstep, leave_hold hinv hflight]
      exact hsame ▸ hw
  | finish f o =>
    simp only [step]
    split <;> exact hw
  | callback f =>
    simp only [step]
    split <;> exact hw
  | resume c =>
    have hne : w.caller ≠ c := by
      rintro rfl
      exact hresume rfl
    simp only [step]
    split
    next => exact hw
    next x hx =>
      split
      next => exact hw
      next => exact hleave c x _ hne hx
  | cancel c =>
    have hne : w.caller ≠ c := by
      rintro rfl
      exact hcancel rfl
    simp only [step]
    split
    next => exact hw
    next x hx => exact hleave c x _ hne hx

/-- a task that has ended had ended before, or ends in this step -/
theorem ended_step (h : Inv s) (op : Op Key Loader Value Error) {loader : Loader} {t : ℕ} {o : Outcome Value Error}
    (hended : (step s op).task f = some (key, loader, some (t, o))) :
    s.task f = some (key, loader, some (t, o)) ∨
      op = .finish f o ∧ t = s.now + 1 ∧ s.task f = some (key, loader, none) := by
  have hleave : ∀ (w : Waiting Key) (got : Got Value Error),
      (leave { s with now := s.now + 1 } w got).task f = some (key, loader, some (t, o)) →
        s.task f = some (key, loader, some (t, o)) := by
    intro w got htask
    rwa [task_leave] at htask
  cases op with
  | join k l roleError =>
    obtain ⟨e, g, flight, hentered, _, _, _, hcase⟩ := join_cases h.tick k l roleError
    have htask : e.task f = some (key, loader, some (t, o)) := by
      rcases hcase with ⟨_, _, heq⟩ | ⟨got, heq, _⟩
      · have hstep : step s (.join k l roleError) = hold e k g := heq
        rwa [hstep, task_hold] at hended
      · have hstep : step s (.join k l roleError) = leave (hold e k g) ⟨e.nextCaller, k, g, e.now⟩ got := heq
        rwa [hstep, task_leave, task_hold] at hended
    rw [show e = (enter { s with now := s.now + 1 } k l).1 by rw [hentered]] at htask
    rcases task_enter h.tick k l htask with hold | ⟨_, hnone⟩
    · exact Or.inl hold
    · cases hnone
  | finish g o' =>
    simp only [step] at hended
    split at hended
    next k l refs due hflight =>
      by_cases hgf : f = g
      · subst hgf
        simp only [State.task, Function.update_self, Option.map_some, Option.some.injEq, Prod.mk.injEq] at hended
        obtain ⟨rfl, rfl, rfl, rfl⟩ := hended
        exact Or.inr ⟨rfl, rfl, by simp [State.task, hflight]⟩
      · exact Or.inl (by simpa [State.task, Function.update_of_ne hgf] using hended)
    next => exact Or.inl hended
  | callback g =>
    simp only [step] at hended
    split at hended
    next k l refs finished hflight =>
      rw [task_update ⟨k, l, refs, finished, false⟩ hflight rfl rfl] at hended
      exact Or.inl hended
    next => exact Or.inl hended
  | resume c =>
    simp only [step] at hended
    split at hended
    next => exact Or.inl hended
    next =>
      split at hended
      next => exact Or.inl hended
      next => exact Or.inl (hleave _ _ hended)
  | cancel c =>
    simp only [step] at hended
    split at hended
    next => exact Or.inl hended
    next => exact Or.inl (hleave _ _ hended)

/-- a caller that finds nothing under its key, or a running task of its own loader, waits for its own loader -/
theorem join_waits (h : Inv s) (key : Key) (loader : Loader)
    (hown : ∀ f flight, s.table key = some f → s.flights f = some flight →
      flight.loader = loader ∧ flight.finished = none) :
    (step s (.join key loader none)).log = s.log ∧
      (step s (.join key loader none)).nextCaller = s.nextCaller + 1 ∧
      ∃ f, (step s (.join key loader none)).waiting = s.waiting ++ [⟨s.nextCaller, key, f, s.now + 1⟩] ∧
        (step s (.join key loader none)).task f = some (key, loader, none) := by
  obtain ⟨e, f, flight, hentered, _, hflight, hkey, hcase⟩ := join_cases h.tick key loader none
  have hfacts : e.log = s.log ∧ e.nextCaller = s.nextCaller ∧ e.waiting = s.waiting ∧ e.now = s.now + 1 ∧
      flight.loader = loader ∧ flight.finished = none := by
    unfold enter at hentered
    split at hentered
    next g hg =>
      cases hentered
      exact ⟨rfl, rfl, rfl, rfl, hown f flight hg hflight⟩
    next =>
      cases hentered
      simp only [Function.update_self, Option.some.injEq] at hflight
      subst hflight
      exact ⟨rfl, rfl, rfl, rfl, rfl, rfl⟩
  obtain ⟨hlog, hcaller, hwaiting, hnow, hloader, hrunning⟩ := hfacts
  rcases hcase with ⟨_, _, heq⟩ | ⟨got, _, ⟨error, hrole, _⟩ | ⟨_, t, o, hfinished, _⟩⟩
  · have hstep : step s (.join key loader none) = hold e key f := heq
    refine ⟨by rw [hstep]; exact hlog, by rw [hstep]; simp [hold, hcaller], f, ?_, ?_⟩
    · rw [hstep]
      simp [hold, hcaller, hwaiting, hnow]
    · rw [hstep, task_hold]
      simp [State.task, hflight, hkey, hloader, hrunning]
  · cases hrole
  · rw [hrunning] at hfinished
    cases hfinished

/-- a caller goes on with the outcome of its task, or nothing happens -/
theorem resume_returns (h : Inv s) (c : CallerId) :
    step s (.resume c) = { s with now := s.now + 1 } ∨
      ∃ w ∈ s.waiting, w.caller = c ∧ ∃ loader t o, s.task w.flight = some (w.key, loader, some (t, o)) ∧
        w.joined < t ∧ (step s (.resume c)).log = s.log ++ [⟨w, .outcome o⟩] := by
  simp only [step]
  split
  next => exact Or.inl rfl
  next w hw =>
    have hmem := List.mem_of_find?_eq_some hw
    obtain ⟨flight, hflight, hkey, htime⟩ := h.held w hmem
    split
    next => exact Or.inl rfl
    next t o hfinished =>
      simp only [hflight, Option.bind_some] at hfinished
      refine Or.inr ⟨w, hmem, by simpa using List.find?_some hw, flight.loader, t, o, ?_, htime t o hfinished, ?_⟩
      · simp [State.task, hflight, hkey, hfinished]
      · simp [leave, hflight]

/-! ## Merged requests -/

structure Merged (s : State Key Loader Value Error) : Prop where
  /-- at most one unfinished loader runs for a key -/
  single : ∀ f g key l l', s.task f = some (key, l, none) → s.task g = some (key, l', none) → f = g
  served : ∀ e ∈ s.log, Served s e
  /-- a waiting caller's loader is there, and once it has ended the caller goes on with its outcome -/
  kept : ∀ w ∈ s.waiting, ∃ loader finished, s.task w.flight = some (w.key, loader, finished) ∧
    ∀ t o, finished = some (t, o) → (step s (.resume w.caller)).log = s.log ++ [⟨w, .outcome o⟩]
  /-- to cancel a caller changes no task, and every other caller waits on -/
  cancel : ∀ c, (step s (.cancel c)).task = s.task ∧
    ∀ w ∈ s.waiting, w.caller ≠ c → w ∈ (step s (.cancel c)).waiting
  /-- when all callers have left and all loaders have ended, done callback included, the table is empty -/
  cleaned : s.waiting = [] →
    (∀ f flight, s.flights f = some flight → flight.finished ≠ none ∧ flight.callbackDue = false) →
    ∀ key, s.table key = none

omit [DecidableEq Key] in
theorem Inv.single (h : Inv s) {f g : FlightId} {key : Key} {l l' : Loader} (hf : s.task f = some (key, l, none))
    (hg : s.task g = some (key, l', none)) : f = g := by
  simp only [State.task, Option.map_eq_some_iff, Prod.mk.injEq] at hf hg
  obtain ⟨a, ha, rfl, _, harun⟩ := hf
  obtain ⟨b, hb, hkey, _, hbrun⟩ := hg
  have hfirst := h.running f a ha harun
  have hsecond := h.running g b hb hbrun
  rw [hkey, hfirst] at hsecond
  exact Option.some.inj hsecond

theorem Inv.kept (h : Inv s) {w : Waiting Key} (hw : w ∈ s.waiting) :
    ∃ loader finished, s.task w.flight = some (w.key, loader, finished) ∧
      ∀ t o, finished = some (t, o) → (Singleflight.step s (.resume w.caller)).log = s.log ++ [⟨w, .outcome o⟩] := by
  obtain ⟨flight, hflight, hkey, _⟩ := h.held w hw
  refine ⟨flight.loader, flight.finished, by simp [State.task, hflight, hkey], fun t o hfinished => ?_⟩
  have hfind : s.waiting.find? (·.caller = w.caller) = some w := by
    rcases hsome : s.waiting.find? (·.caller = w.caller) with _ | x
    · have hnone := List.find?_eq_none.1 hsome w hw
      simp at hnone
    · have hcaller : x.caller = w.caller := by simpa using List.find?_some hsome
      exact hsome.trans (congrArg some (List.inj_on_of_nodup_map h.callers (List.mem_of_find?_eq_some hsome) hw hcaller))
  simp only [Singleflight.step, hfind, hflight, Option.bind_some, hfinished, Singleflight.leave]

theorem Inv.cancel (h : Inv s) (c : CallerId) :
    (Singleflight.step s (.cancel c)).task = s.task ∧
      ∀ w ∈ s.waiting, w.caller ≠ c → w ∈ (Singleflight.step s (.cancel c)).waiting := by
  simp only [Singleflight.step]
  split
  next => exact ⟨rfl, fun w hw _ => hw⟩
  next x hx =>
    refine ⟨task_leave x .cancelled, fun w hw hne => ?_⟩
    have hcaller : x.caller = c := by simpa using List.find?_some hx
    obtain ⟨flight, hflight, _⟩ := h.held x (List.mem_of_find?_eq_some hx)
    simp only [Singleflight.leave, hflight, List.mem_filter]
    exact ⟨hw, by simpa [hcaller] using hne⟩

omit [DecidableEq Key] in
theorem Inv.cleaned (h : Inv s) (hwaiting : s.waiting = [])
    (hended : ∀ f flight, s.flights f = some flight → flight.finished ≠ none ∧ flight.callbackDue = false) (key : Key) :
    s.table key = none := by
  rcases hentry : s.table key with _ | f
  · rfl
  · exfalso
    obtain ⟨flight, hflight, _⟩ := h.known key f hentry
    have hrefs := h.counted f flight hflight
    rw [hwaiting] at hrefs
    rcases h.due key f flight hentry hflight (by simp [hrefs]) with hrunning | hdue
    · exact (hended f flight hflight).1 hrunning
    · rw [(hended f flight hflight).2] at hdue
      cases hdue

/-- **Requests are merged.** In whatever order callers join, go on and are cancelled and loaders end: every promise holds
of the state reached, exactly when no caller joined a task that had ended and no `on_role` raised. -/
theorem merged_iff (ops : List (Op Key Loader Value Error)) : Merged (run init ops) ↔ AllFresh init ops := by
  have hinv : Inv (run init ops) := inv_run ops inv_init
  have hserved := served_run inv_init ⟨by simp [init, State.task], by simp [init]⟩ ops
  have hempty : ∀ e ∈ (init : State Key Loader Value Error).log, Served (init : State Key Loader Value Error) e := by
    simp [init]
  constructor
  · intro h
    exact (hserved.1 h.served).2
  · intro h
    exact ⟨fun f g key l l' => hinv.single, hserved.2 ⟨hempty, h⟩, fun w hw => hinv.kept hw, hinv.cancel, hinv.cleaned⟩

/-- Caller 0 starts the load, the load ends with 1, and caller 1 joins before caller 0 goes on: the entry is still there,
and caller 1 gets what was loaded before it came. With caller 0 cancelled before the end, nobody waits and nothing runs,
but until the done callback the entry stays, and a caller that joins gets the same. -/
theorem stale_result :
    ((run init [.join "k" () none, .finish 0 (.value 1), .join "k" () none] : State String Unit ℕ Unit).log =
        [⟨⟨1, "k", 0, 3⟩, .outcome (.value 1)⟩] ∧
      ¬ Merged (run init [.join "k" () none, .finish 0 (.value 1), .join "k" () none] : State String Unit ℕ Unit)) ∧
    ((run init [.join "k" () none, .cancel 0, .finish 0 (.value 1)] : State String Unit ℕ Unit).waiting = [] ∧
      (run init [.join "k" () none, .cancel 0, .finish 0 (.value 1)] : State String Unit ℕ Unit).table "k" = some 0 ∧
      (run init [.join "k" () none, .cancel 0, .finish 0 (.value 1), .join "k" () none] : State String Unit ℕ Unit).log =
        [⟨⟨0, "k", 0, 1⟩, .cancelled⟩, ⟨⟨1, "k", 0, 4⟩, .outcome (.value 1)⟩]) := by
  refine ⟨⟨by decide, fun h => ?_⟩, by decide, by decide, by decide⟩
  obtain ⟨loader, t, htask, hbefore⟩ := h.served ⟨⟨1, "k", 0, 3⟩, .outcome (.value 1)⟩ (by decide)
  have hended : (run init [.join "k" () none, .finish 0 (.value 1), .join "k" () none] :
      State String Unit ℕ Unit).task 0 = some ("k", (), some (2, .value 1)) := by
    decide
  rw [hended] at htask
  cases htask
  exact absurd hbefore (by decide)

end LkmService.Singleflight
