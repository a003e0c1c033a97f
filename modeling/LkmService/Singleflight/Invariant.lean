/-
The invariant of the flights: the count of a flight is the number of callers that wait for it, the entry of a running
task is in the table, and an entry that nobody holds is one that the done callback takes out.

`Inv.step` is the step lemma, `inv_run` the run lemma.
-/
import Mathlib.Data.List.Nodup
import LkmService.Singleflight.Model

namespace LkmService.Singleflight

variable {Key Loader Value Error : Type} [DecidableEq Key]

/-! ## The invariant -/

structure Inv (s : State Key Loader Value Error) : Prop where
  fresh : ∀ f flight, s.flights f = some flight → f < s.nextFlight
  known : ∀ key f, s.table key = some f → ∃ flight, s.flights f = some flight ∧ flight.key = key
  /-- the entry of a running task is never taken out -/
  running : ∀ f flight, s.flights f = some flight → flight.finished = none → s.table flight.key = some f
  counted : ∀ f flight, s.flights f = some flight → flight.refs = ((s.waiting.filter (·.flight = f)).length : ℤ)
  held : ∀ w ∈ s.waiting, ∃ flight, s.flights w.flight = some flight ∧ flight.key = w.key ∧
    ∀ t o, flight.finished = some (t, o) → w.joined < t
  /-- an entry that nobody holds is of a running task, or its done callback will take it out -/
  due : ∀ key f flight, s.table key = some f → s.flights f = some flight → flight.refs ≤ 0 →
    flight.finished = none ∨ flight.callbackDue = true
  ended : ∀ f flight, s.flights f = some flight → flight.callbackDue = true → flight.finished ≠ none
  callers : (s.waiting.map (·.caller)).Nodup
  past : ∀ w ∈ s.waiting, w.caller < s.nextCaller ∧ w.joined ≤ s.now

variable {s : State Key Loader Value Error} {f : FlightId} {key : Key}

omit [DecidableEq Key] in
theorem inv_init : Inv (init : State Key Loader Value Error) :=
  ⟨by simp [init], by simp [init], by simp [init], by simp [init], by simp [init], by simp [init], by simp [init],
    by simp [init], by simp [init]⟩

omit [DecidableEq Key] in
theorem Inv.tick (h : Inv s) : Inv { s with now := s.now + 1 } :=
  { h with past := fun w hw => ⟨(h.past w hw).1, Nat.le_succ_of_le (h.past w hw).2⟩ }

theorem pop_eq_some {table : Key → Option FlightId} {other : Key} {g : FlightId} (h : pop table key f other = some g) :
    table other = some g ∧ ¬ (other = key ∧ g = f) := by
  unfold pop at h
  split_ifs at h with hf
  · by_cases hkey : other = key
    · subst hkey
      simp at h
    · rw [Function.update_of_ne hkey] at h
      exact ⟨h, fun hboth => hkey hboth.1⟩
  · refine ⟨h, ?_⟩
    rintro ⟨rfl, rfl⟩
    exact hf h

theorem pop_of_ne {table : Key → Option FlightId} {other : Key} {g : FlightId} (h : table other = some g)
    (hne : ¬ (other = key ∧ g = f)) : pop table key f other = some g := by
  unfold pop
  split_ifs with hf
  · by_cases hkey : other = key
    · subst hkey
      exact absurd ⟨rfl, Option.some.inj (h.symm.trans hf)⟩ hne
    · rw [Function.update_of_ne hkey]
      exact h
  · exact h

/-- after the section under `_guard` the key has a flight -/
theorem enter_table (h : Inv s) (key : Key) (loader : Loader) :
    (enter s key loader).1.table key = some (enter s key loader).2 ∧
      ∃ flight, (enter s key loader).1.flights (enter s key loader).2 = some flight ∧ flight.key = key := by
  rcases hkey : s.table key with _ | f
  · simp [enter, hkey]
  · simpa [enter, hkey] using h.known key f hkey

theorem Inv.enter (h : Inv s) (key : Key) (loader : Loader) : Inv (enter s key loader).1 := by
  rcases hkey : s.table key with _ | f
  · have hnew : ∀ g flight, s.flights g = some flight → g ≠ s.nextFlight := fun g flight hg =>
      Nat.ne_of_lt (h.fresh g flight hg)
    have hnone : s.flights s.nextFlight = none := by
      rcases hflight : s.flights s.nextFlight with _ | flight
      · rfl
      · exact absurd rfl (hnew _ _ hflight)
    simp only [Singleflight.enter, hkey]
    refine ⟨fun g flight hg => ?_, fun other g hg => ?_, fun g flight hg hrunning => ?_, fun g flight hg => ?_,
      fun w hw => ?_, fun other g flight hg hflight hrefs => ?_, fun g flight hg hdue => ?_, h.callers, h.past⟩
    · by_cases hgf : g = s.nextFlight
      · simp [hgf]
      · simp only [Function.update_of_ne hgf] at hg
        exact Nat.lt_succ_of_lt (h.fresh g flight hg)
    · by_cases hother : other = key
      · subst hother
        simp only [Function.update_self, Option.some.injEq] at hg
        subst hg
        exact ⟨_, Function.update_self .., rfl⟩
      · simp only [Function.update_of_ne hother] at hg
        obtain ⟨flight, hflight, hsame⟩ := h.known other g hg
        exact ⟨flight, by simpa [Function.update_of_ne (hnew g flight hflight)] using hflight, hsame⟩
    · by_cases hgf : g = s.nextFlight
      · subst hgf
        simp only [Function.update_self, Option.some.injEq] at hg
        subst hg
        simp
      · simp only [Function.update_of_ne hgf] at hg
        have htable := h.running g flight hg hrunning
        have hne : flight.key ≠ key := by
          rintro rfl
          rw [hkey] at htable
          cases htable
        simpa [Function.update_of_ne hne] using htable
    · by_cases hgf : g = s.nextFlight
      · subst hgf
        simp only [Function.update_self, Option.some.injEq] at hg
        subst hg
        have hnobody : s.waiting.filter (·.flight = s.nextFlight) = [] := by
          refine List.filter_eq_nil_iff.2 fun w hw => ?_
          obtain ⟨flight, hflight, _⟩ := h.held w hw
          simpa using hnew _ _ hflight
        simp [hnobody]
      · simp only [Function.update_of_ne hgf] at hg
        exact h.counted g flight hg
    · obtain ⟨flight, hflight, hrest⟩ := h.held w hw
      exact ⟨flight, by simpa [Function.update_of_ne (hnew _ _ hflight)] using hflight, hrest⟩
    · by_cases hgf : g = s.nextFlight
      · subst hgf
        simp only [Function.update_self, Option.some.injEq] at hflight
        subst hflight
        exact Or.inl rfl
      · simp only [Function.update_of_ne hgf] at hflight
        by_cases hother : other = key
        · subst hother
          simp only [Function.update_self, Option.some.injEq] at hg
          exact absurd hg.symm hgf
        · simp only [Function.update_of_ne hother] at hg
          exact h.due other g flight hg hflight hrefs
    · by_cases hgf : g = s.nextFlight
      · subst hgf
        simp only [Function.update_self, Option.some.injEq] at hg
        subst hg
        cases hdue
      · simp only [Function.update_of_ne hgf] at hg
        exact h.ended g flight hg hdue
  · simpa [Singleflight.enter, hkey] using h

omit [DecidableEq Key] in
theorem update_cases {flights : FlightId → Option (Flight Key Loader Value Error)}
    {flight other : Flight Key Loader Value Error} {g : FlightId}
    (h : Function.update flights f (some flight) g = some other) :
    (g = f ∧ other = flight) ∨ (g ≠ f ∧ flights g = some other) := by
  by_cases hgf : g = f
  · subst hgf
    rw [Function.update_self] at h
    exact Or.inl ⟨rfl, (Option.some.inj h).symm⟩
  · rw [Function.update_of_ne hgf] at h
    exact Or.inr ⟨hgf, h⟩

omit [DecidableEq Key] in
/-- a change of the count leaves every flight there, with its key and its task -/
theorem update_refs {flights : FlightId → Option (Flight Key Loader Value Error)}
    {flight other : Flight Key Loader Value Error} {g : FlightId} {refs : ℤ} (hflight : flights f = some flight)
    (h : flights g = some other) :
    ∃ other', Function.update flights f (some { flight with refs := refs }) g = some other' ∧ other'.key = other.key ∧
      other'.finished = other.finished := by
  by_cases hgf : g = f
  · subst hgf
    rw [hflight] at h
    cases h
    exact ⟨{ flight with refs := refs }, Function.update_self .., rfl, rfl⟩
  · exact ⟨other, by rw [Function.update_of_ne hgf]; exact h, rfl, rfl⟩

omit [DecidableEq Key] in
/-- a caller that will wait is counted -/
theorem Inv.hold (h : Inv s) {flight : Flight Key Loader Value Error} (hflight : s.flights f = some flight)
    (hkey : flight.key = key) (hrunning : flight.finished = none) : Inv (hold s key f) := by
  have hentry := h.running f flight hflight hrunning
  have hflights : (Singleflight.hold s key f).flights =
      Function.update s.flights f (some { flight with refs := flight.refs + 1 }) := by
    simp [Singleflight.hold, hflight]
  have hnew : s.nextCaller ∉ s.waiting.map (·.caller) := by
    intro hmem
    obtain ⟨w, hw, hcaller⟩ := List.mem_map.1 hmem
    exact absurd hcaller (Nat.ne_of_lt (h.past w hw).1)
  refine ⟨fun g other hg => ?_, fun k g hg => ?_, fun g other hg hfinished => ?_, fun g other hg => ?_, fun w hw => ?_,
    fun k g other hg hother hrefs => ?_, fun g other hg hdue => ?_, ?_, fun w hw => ?_⟩
  · rcases update_cases (hflights ▸ hg) with ⟨rfl, rfl⟩ | ⟨_, hg⟩
    · exact h.fresh g flight hflight
    · exact h.fresh g other hg
  · obtain ⟨other, hother, hk⟩ := h.known k g hg
    obtain ⟨other', hother', hkey', _⟩ := update_refs hflight hother
    exact ⟨other', hflights ▸ hother', hkey'.trans hk⟩
  · rcases update_cases (hflights ▸ hg) with ⟨rfl, rfl⟩ | ⟨_, hg⟩
    · exact hentry
    · exact h.running g other hg hfinished
  · rcases update_cases (hflights ▸ hg) with ⟨rfl, rfl⟩ | ⟨hgf, hg⟩
    · simp [Singleflight.hold, h.counted g flight hflight]
    · simp [Singleflight.hold, h.counted g other hg, Ne.symm hgf]
  · rcases List.mem_append.1 hw with hw | hw
    · obtain ⟨other, hother, hk, htime⟩ := h.held w hw
      obtain ⟨other', hother', hkey', hfinished'⟩ := update_refs hflight hother
      exact ⟨other', hflights ▸ hother', hkey'.trans hk, fun t o ho => htime t o (hfinished' ▸ ho)⟩
    · obtain rfl := List.mem_singleton.1 hw
      obtain ⟨other', hother', hkey', hfinished'⟩ := update_refs hflight hflight
      refine ⟨other', hflights ▸ hother', hkey'.trans hkey, fun t o ho => ?_⟩
      rw [hfinished', hrunning] at ho
      cases ho
  · rcases update_cases (hflights ▸ hother) with ⟨rfl, rfl⟩ | ⟨_, hother⟩
    · exact Or.inl hrunning
    · exact h.due k g other hg hother hrefs
  · rcases update_cases (hflights ▸ hg) with ⟨rfl, rfl⟩ | ⟨_, hg⟩
    · exact h.ended g flight hflight hdue
    · exact h.ended g other hg hdue
  · simp only [Singleflight.hold, List.map_append, List.map_cons, List.map_nil]
    exact List.nodup_append.2 ⟨h.callers, by simp, fun c hc d hd => by
      rw [List.mem_singleton.1 hd]
      exact fun hcd => hnew (hcd ▸ hc)⟩
  · rcases List.mem_append.1 hw with hw | hw
    · exact ⟨Nat.lt_succ_of_lt (h.past w hw).1, (h.past w hw).2⟩
    · obtain rfl := List.mem_singleton.1 hw
      exact ⟨Nat.lt_succ_self _, le_rfl⟩

omit [DecidableEq Key] in
/-- letting one caller go lowers the count of its flight by one -/
theorem Inv.counted_leave (h : Inv s) {w : Waiting Key} (hw : w ∈ s.waiting) (g : FlightId) :
    (((s.waiting.filter (·.caller ≠ w.caller)).filter (·.flight = g)).length : ℤ) =
      ((s.waiting.filter (·.flight = g)).length : ℤ) - if g = w.flight then 1 else 0 := by
  have hcount : ∀ l : List (Waiting Key), (l.map (·.caller)).Nodup → w ∈ l →
      (((l.filter (·.caller ≠ w.caller)).filter (·.flight = g)).length : ℤ) =
        ((l.filter (·.flight = g)).length : ℤ) - if g = w.flight then 1 else 0 := by
    intro l
    induction l with
    | nil => simp
    | cons x l ih =>
      intro hnodup hmem
      simp only [List.map_cons, List.nodup_cons] at hnodup
      rcases List.mem_cons.1 hmem with rfl | hmem
      · have hrest : l.filter (·.caller ≠ w.caller) = l := by
          refine List.filter_eq_self.2 fun y hy => ?_
          have : y.caller ≠ w.caller := fun hsame => hnodup.1 (hsame ▸ List.mem_map_of_mem hy)
          simpa using this
        rw [List.filter_cons_of_neg (by simp), hrest]
        by_cases hg : g = w.flight
        · simp [hg]
        · simp [hg, Ne.symm hg]
      · have hne : x.caller ≠ w.caller := fun hsame => hnodup.1 (hsame ▸ List.mem_map_of_mem hmem)
        rw [List.filter_cons_of_pos (by simpa using hne)]
        have := ih hnodup.2 hmem
        by_cases hx : x.flight = g
        · rw [List.filter_cons_of_pos (by simpa using hx), List.filter_cons_of_pos (by simpa using hx),
            List.length_cons, List.length_cons]
          push_cast
          omega
        · rw [List.filter_cons_of_neg (by simpa using hx), List.filter_cons_of_neg (by simpa using hx)]
          exact this
  exact hcount s.waiting h.callers hw

theorem Inv.leave (h : Inv s) {w : Waiting Key} (hw : w ∈ s.waiting) (got : Got Value Error) : Inv (leave s w got) := by
  obtain ⟨flight, hflight, hkey, htime⟩ := h.held w hw
  have htable : ∀ k g, (Singleflight.leave s w got).table k = some g →
      s.table k = some g ∧ (g = w.flight → flight.refs - 1 ≤ 0 → flight.finished = none) := by
    intro k g hg
    simp only [Singleflight.leave, hflight] at hg
    split_ifs at hg with hpop
    · obtain ⟨hg, hne⟩ := pop_eq_some hg
      refine ⟨hg, ?_⟩
      rintro rfl -
      obtain ⟨other, hother, hk⟩ := h.known k _ hg
      rw [hflight] at hother
      cases hother
      exact absurd ⟨hk.symm.trans hkey, rfl⟩ hne
    · refine ⟨hg, fun _ hrefs => ?_⟩
      by_contra hfinished
      exact hpop ⟨hrefs, Option.isSome_iff_ne_none.2 hfinished⟩
  have hflights : (Singleflight.leave s w got).flights =
      Function.update s.flights w.flight (some { flight with refs := flight.refs - 1 }) := by
    simp [Singleflight.leave, hflight]
  have hwaiting : (Singleflight.leave s w got).waiting = s.waiting.filter (·.caller ≠ w.caller) := by
    simp [Singleflight.leave, hflight]
  have hrunning : ∀ g other, s.flights g = some other → other.finished = none →
      (Singleflight.leave s w got).table other.key = some g := by
    intro g other hg hfinished
    have hentry := h.running g other hg hfinished
    simp only [Singleflight.leave, hflight]
    split_ifs with hpop
    · refine pop_of_ne hentry ?_
      rintro ⟨-, rfl⟩
      rw [hflight] at hg
      cases hg
      rw [hfinished] at hpop
      simp at hpop
    · exact hentry
  refine ⟨fun g other hg => ?_, fun k g hg => ?_, fun g other hg hfinished => ?_, fun g other hg => ?_, fun x hx => ?_,
    fun k g other hg hother hrefs => ?_, fun g other hg hdue => ?_, ?_, fun x hx => ?_⟩
  · have hnext : (Singleflight.leave s w got).nextFlight = s.nextFlight := by simp [Singleflight.leave, hflight]
    rw [hnext]
    rcases update_cases (hflights ▸ hg) with ⟨rfl, rfl⟩ | ⟨_, hg⟩
    · exact h.fresh _ flight hflight
    · exact h.fresh g other hg
  · obtain ⟨other, hother, hk⟩ := h.known k g (htable k g hg).1
    obtain ⟨other', hother', hkey', _⟩ := update_refs hflight hother
    exact ⟨other', hflights ▸ hother', hkey'.trans hk⟩
  · rcases update_cases (hflights ▸ hg) with ⟨rfl, rfl⟩ | ⟨_, hg⟩
    · exact hrunning _ flight hflight hfinished
    · exact hrunning g other hg hfinished
  · rw [hwaiting, h.counted_leave hw g]
    rcases update_cases (hflights ▸ hg) with ⟨rfl, rfl⟩ | ⟨hgf, hg⟩
    · simp [h.counted _ flight hflight]
    · simp [h.counted g other hg, hgf]
  · rw [hwaiting] at hx
    obtain ⟨other, hother, hk, hbefore⟩ := h.held x (List.mem_of_mem_filter hx)
    obtain ⟨other', hother', hkey', hfinished'⟩ := update_refs hflight hother
    exact ⟨other', hflights ▸ hother', hkey'.trans hk, fun t o ho => hbefore t o (hfinished' ▸ ho)⟩
  · obtain ⟨hold, hlast⟩ := htable k g hg
    rcases update_cases (hflights ▸ hother) with ⟨rfl, rfl⟩ | ⟨_, hother⟩
    · exact Or.inl (hlast rfl hrefs)
    · exact h.due k g other hold hother hrefs
  · rcases update_cases (hflights ▸ hg) with ⟨rfl, rfl⟩ | ⟨_, hg⟩
    · exact h.ended _ flight hflight hdue
    · exact h.ended g other hg hdue
  · rw [hwaiting]
    exact h.callers.sublist (List.filter_sublist.map _)
  · rw [hwaiting] at hx
    simpa [Singleflight.leave, hflight] using h.past x (List.mem_of_mem_filter hx)

/-- an entry of an ended task may go -/
theorem Inv.pop (h : Inv s) {flight : Flight Key Loader Value Error} (hflight : s.flights f = some flight)
    (hended : flight.finished ≠ none) (key : Key) : Inv { s with table := pop s.table key f } := by
  refine { h with known := fun k g hg => h.known k g (pop_eq_some hg).1
                  running := fun g other hg hfinished => ?_
                  due := fun k g other hg => h.due k g other (pop_eq_some hg).1 }
  refine pop_of_ne (h.running g other hg hfinished) ?_
  rintro ⟨-, rfl⟩
  rw [hflight] at hg
  cases hg
  exact hended hfinished

/-- a caller that joins and goes on at once leaves the count as it was -/
theorem leave_hold (h : Inv s) {flight : Flight Key Loader Value Error} (hflight : s.flights f = some flight)
    (got : Got Value Error) :
    leave (hold s key f) ⟨s.nextCaller, key, f, s.now⟩ got =
      { s with
        nextCaller := s.nextCaller + 1
        table := if flight.refs ≤ 0 ∧ flight.finished.isSome then Singleflight.pop s.table key f else s.table
        log := s.log ++ [⟨⟨s.nextCaller, key, f, s.now⟩, got⟩] } := by
  have hwaiting : (s.waiting ++ [(⟨s.nextCaller, key, f, s.now⟩ : Waiting Key)]).filter (·.caller ≠ s.nextCaller) = s.waiting := by
    rw [List.filter_append, List.filter_cons_of_neg (by simp), List.filter_nil, List.append_nil]
    exact List.filter_eq_self.2 fun w hw => by simpa using Nat.ne_of_lt (h.past w hw).1
  have hsame : some { flight with refs := flight.refs + 1 - 1 } = s.flights f := by
    rw [hflight, show flight.refs + 1 - 1 = flight.refs by omega]
  simp only [leave, hold, hflight, Function.update_self, Option.map_some, hwaiting, Function.update_idem]
  rw [hsame, Function.update_eq_self, show flight.refs + 1 - 1 = flight.refs by omega]

theorem Inv.pass (h : Inv s) {flight : Flight Key Loader Value Error} (hflight : s.flights f = some flight)
    (got : Got Value Error) : Inv (Singleflight.leave (Singleflight.hold s key f) ⟨s.nextCaller, key, f, s.now⟩ got) := by
  rw [leave_hold h hflight]
  have hlater : ∀ t : State Key Loader Value Error, Inv t → ∀ log, Inv { t with nextCaller := t.nextCaller + 1, log := log } :=
    fun t ht log => { ht with past := fun w hw => ⟨Nat.lt_succ_of_lt (ht.past w hw).1, (ht.past w hw).2⟩ }
  split_ifs with hpop
  · exact hlater _ (h.pop hflight (Option.isSome_iff_ne_none.1 hpop.2) key) _
  · exact hlater _ h _

omit [DecidableEq Key] in
/-- what may become of the task of a flight, which keeps its key and its callers -/
theorem Inv.change (h : Inv s) {k : Key} {loader : Loader} {refs : ℤ} {finished finished' : Option (ℕ × Outcome Value Error)}
    {due due' : Bool} (hflight : s.flights f = some ⟨k, loader, refs, finished, due⟩)
    (hrunning : finished' = none → finished = none)
    (hheld : ∀ w ∈ s.waiting, ∀ t o, finished' = some (t, o) → (∀ t o, finished = some (t, o) → w.joined < t) → w.joined < t)
    (hdue : ∀ j, s.table j = some f → refs ≤ 0 → finished' = none ∨ due' = true) (hended : due' = true → finished' ≠ none) :
    Inv { s with flights := Function.update s.flights f (some ⟨k, loader, refs, finished', due'⟩) } := by
  refine ⟨fun g other hg => ?_, fun j g hg => ?_, fun g other hg hfinished => ?_, fun g other hg => ?_, fun w hw => ?_,
    fun j g other hg hother hrefs => ?_, fun g other hg hdue => ?_, h.callers, h.past⟩
  · rcases update_cases hg with ⟨rfl, rfl⟩ | ⟨_, hg⟩
    · exact h.fresh g _ hflight
    · exact h.fresh g other hg
  · obtain ⟨other, hother, hk⟩ := h.known j g hg
    by_cases hgf : g = f
    · subst hgf
      rw [hflight] at hother
      cases hother
      exact ⟨_, Function.update_self .., hk⟩
    · exact ⟨other, by simpa [Function.update_of_ne hgf] using hother, hk⟩
  · rcases update_cases hg with ⟨rfl, rfl⟩ | ⟨_, hg⟩
    · have := h.running g _ hflight (hrunning hfinished)
      exact this
    · exact h.running g other hg hfinished
  · rcases update_cases hg with ⟨rfl, rfl⟩ | ⟨_, hg⟩
    · have := h.counted g _ hflight
      exact this
    · exact h.counted g other hg
  · obtain ⟨other, hother, hk, htime⟩ := h.held w hw
    by_cases hgf : w.flight = f
    · rw [hgf, hflight] at hother
      cases hother
      exact ⟨⟨k, loader, refs, finished', due'⟩, by rw [hgf]; exact Function.update_self .., hk,
        fun t o ho => hheld w hw t o ho htime⟩
    · exact ⟨other, by simpa [Function.update_of_ne hgf] using hother, hk, htime⟩
  · rcases update_cases hother with ⟨rfl, rfl⟩ | ⟨_, hother⟩
    · exact hdue j hg hrefs
    · exact h.due j g other hg hother hrefs
  · rcases update_cases hg with ⟨rfl, rfl⟩ | ⟨_, hg⟩
    · exact hended hdue
    · exact h.ended g other hg hdue

omit [DecidableEq Key] in
theorem Inv.finish (h : Inv s) (hlater : ∀ w ∈ s.waiting, w.joined < s.now) {k : Key} {loader : Loader} {refs : ℤ}
    {due : Bool} (hflight : s.flights f = some ⟨k, loader, refs, none, due⟩) (o : Outcome Value Error) :
    Inv { s with flights := Function.update s.flights f (some ⟨k, loader, refs, some (s.now, o), true⟩) } := by
  refine h.change hflight (fun hrunning => by cases hrunning) (fun w hw t o' ho _ => ?_) (fun _ _ _ => Or.inr rfl) fun _ => by simp
  cases ho
  exact hlater w hw

theorem Inv.callback (h : Inv s) {k : Key} {loader : Loader} {refs : ℤ} {finished : Option (ℕ × Outcome Value Error)}
    (hflight : s.flights f = some ⟨k, loader, refs, finished, true⟩) :
    Inv { s with
      flights := Function.update s.flights f (some ⟨k, loader, refs, finished, false⟩)
      table := if refs ≤ 0 then Singleflight.pop s.table k f else s.table } := by
  have hinv : Inv { s with table := if refs ≤ 0 then Singleflight.pop s.table k f else s.table } := by
    split_ifs
    · exact h.pop hflight (h.ended f _ hflight rfl) k
    · exact h
  refine hinv.change hflight id (fun _ _ t o ho htime => htime t o ho) (fun j hentry hrefs => ?_) fun hdue => by cases hdue
  -- the entry has been taken out
  rw [if_pos hrefs] at hentry
  obtain ⟨hentry, hne⟩ := pop_eq_some hentry
  obtain ⟨other, hother, hk⟩ := h.known j f hentry
  rw [hflight] at hother
  cases hother
  exact absurd ⟨hk.symm, rfl⟩ hne

/-- a join either waits for a running task or goes on at once, with the exception of `on_role` or an outcome that was
there before it came -/
theorem join_cases (h : Inv s) (key : Key) (loader : Loader) (roleError : Option Error) :
    ∃ e f flight, enter s key loader = (e, f) ∧ Inv e ∧ e.flights f = some flight ∧ flight.key = key ∧
      ((roleError = none ∧ flight.finished = none ∧ join s key loader roleError = hold e key f) ∨
        ∃ got, join s key loader roleError = leave (hold e key f) ⟨e.nextCaller, key, f, e.now⟩ got ∧
          ((∃ error, roleError = some error ∧ got = .roleRaised error) ∨
            roleError = none ∧ ∃ t o, flight.finished = some (t, o) ∧ got = .outcome o)) := by
  obtain ⟨_, flight, hflight, hkey⟩ := enter_table h key loader
  rcases hentered : enter s key loader with ⟨e, f⟩
  have hinv : Inv e := by
    have := h.enter key loader
    rwa [hentered] at this
  replace hflight : e.flights f = some flight := by rwa [hentered] at hflight
  have hcaller : s.nextCaller = e.nextCaller ∧ s.now = e.now := by
    have hfst : (enter s key loader).1 = e := by rw [hentered]
    unfold enter at hfst
    split at hfst
    · subst hfst
      exact ⟨rfl, rfl⟩
    · subst hfst
      exact ⟨rfl, rfl⟩
  have hheld : ((hold e key f).flights f).bind Flight.finished = flight.finished := by
    simp [hold, hflight]
  refine ⟨e, f, flight, rfl, hinv, hflight, hkey, ?_⟩
  simp only [join, hentered, hheld, hcaller.1, hcaller.2]
  rcases roleError with _ | error
  · rcases hfinished : flight.finished with _ | ⟨t, o⟩
    · exact Or.inl ⟨rfl, rfl, rfl⟩
    · exact Or.inr ⟨.outcome o, rfl, Or.inr ⟨rfl, t, o, rfl, rfl⟩⟩
  · exact Or.inr ⟨.roleRaised error, rfl, Or.inl ⟨error, rfl, rfl⟩⟩

theorem Inv.join (h : Inv s) (key : Key) (loader : Loader) (roleError : Option Error) :
    Inv (join s key loader roleError) := by
  obtain ⟨e, f, flight, _, hinv, hflight, hkey, ⟨_, hrunning, heq⟩ | ⟨got, heq, _⟩⟩ := join_cases h key loader roleError
  · rw [heq]
    exact hinv.hold hflight hkey hrunning
  · rw [heq]
    exact hinv.pass hflight got

/-- the step lemma of the invariant -/
theorem Inv.step (h : Inv s) (op : Op Key Loader Value Error) : Inv (step s op) := by
  have htick := h.tick
  cases op with
  | join key loader roleError => exact htick.join key loader roleError
  | finish f o =>
    simp only [Singleflight.step]
    split
    next hflight => exact htick.finish (fun w hw => Nat.lt_succ_of_le (h.past w hw).2) hflight o
    next => exact htick
  | callback f =>
    simp only [Singleflight.step]
    split
    next hflight => exact htick.callback hflight
    next => exact htick
  | resume c =>
    simp only [Singleflight.step]
    split
    next => exact htick
    next w hw =>
      split
      next => exact htick
      next => exact htick.leave (List.mem_of_find?_eq_some hw) _
  | cancel c =>
    simp only [Singleflight.step]
    split
    next => exact htick
    next w hw => exact htick.leave (List.mem_of_find?_eq_some hw) _

theorem inv_run (ops : List (Op Key Loader Value Error)) (h : Inv s) : Inv (run s ops) := by
  induction ops generalizing s with
  | nil => exact h
  | cons op ops ih => exact ih (h.step op)

end LkmService.Singleflight
