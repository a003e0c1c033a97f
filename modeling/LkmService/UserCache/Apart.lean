/-
Calls for many snapshots beside one another: none gets another's rows (`auth/snapshot.py`).

`Sound` says what a call has at each stage, `Inv.step` is the step lemma and `inv_run` the run lemma.
Results:
- `batches_never_mix`: while no chunk is asked under a key that holds a flight for other ids or an ended one (`AllClean`),
  every call gets what it gets alone from the same answers, and waits for a flight of its own chunk.
- `batches_mixed` (failing run): two lists with the same ends and the same length share a flight.
-/
import LkmService.UserCache.Batches

namespace LkmService.UserCache.Batches

open Singleflight (FlightId CallerId Outcome Got Return Timed)

variable {cfg : Settings} {s : State} {c : ℕ} {call : Call} {out : Part} {chunks : List (List Uuid)}

/-! ## The invariant -/

/-- whatever the chunks that are left meet, the call gets what it gets alone -/
structure Call.At (cfg : Settings) (call : Call) (out : Part) (chunks : List (List Uuid)) : Prop where
  alone : ∀ more : List Load, alone cfg call.ids { call.met with loads := call.met.loads ++ more } =
    some (snapshots (gather out chunks (more.map (·.answers))))
  counted : call.met.loads.length + chunks.length = (call.met.chunks call.ids).length
  timed : ∀ load ∈ call.met.loads, load.asked ≤ load.ended

/-- the call has what it gets alone, from one load of each of its chunks -/
structure Call.Alone (cfg : Settings) (call : Call) (result : Uuid → Option Snapshot) : Prop where
  alone : alone cfg call.ids call.met = some result
  counted : call.met.loads.length = (call.met.chunks call.ids).length
  timed : ∀ load ∈ call.met.loads, load.asked ≤ load.ended

/-- what a call has at its stage -/
def Call.Sound (cfg : Settings) (sf : Singleflight.State Text (List Uuid) Part Unit) (call : Call) : Prop :=
  match call.stage with
  | .filtered left =>
    left = (call.ids.filter fun id => ¬ call.met.absent id) ∧ left ≠ [] ∧ call.met.loads = [] ∧ call.met.cached = none
  | .loop out chunks => call.At cfg out chunks
  | .waiting k out chunk rest => call.At cfg out (chunk :: rest) ∧
    ∃ w ∈ sf.waiting, w.caller = k ∧ ∃ finished, sf.task w.flight = some (w.key, chunk, finished)
  | .ended result => call.Alone cfg result
  | .failed => True

structure Inv (cfg : Settings) (s : State) : Prop where
  sf : Singleflight.Inv s.sf
  timed : Timed s.sf
  met : ∀ f key chunk t o, s.sf.task f = some (key, chunk, some (t, o)) → o ≠ .cancelled →
    ∃ a, s.met f = some (t, a) ∧ o = outcomeOf a chunk
  calls : ∀ c call, s.calls c = some call → call.Sound cfg s.sf
  /-- two calls are two callers -/
  callers : ∀ c c' call call' k out chunk rest out' chunk' rest', s.calls c = some call → s.calls c' = some call' →
    call.stage = .waiting k out chunk rest → call'.stage = .waiting k out' chunk' rest' → c = c'

theorem inv_init : Inv cfg init :=
  ⟨Singleflight.inv_init, ⟨by simp [init, Singleflight.init, Singleflight.State.task], by simp [init, Singleflight.init]⟩,
    by simp [init, Singleflight.init, Singleflight.State.task], by simp [init], by simp [init]⟩

/-- a step of the flights that takes no caller of this call leaves what the call has -/
theorem Call.Sound.step {sf : Singleflight.State Text (List Uuid) Part Unit} (hinv : Singleflight.Inv sf) (htimed : Timed sf)
    {op : Singleflight.Op Text (List Uuid) Part Unit} (h : call.Sound cfg sf)
    (hkeep : ∀ k out chunk rest, call.stage = .waiting k out chunk rest → op ≠ .resume k ∧ op ≠ .cancel k) :
    call.Sound cfg (Singleflight.step sf op) := by
  unfold Call.Sound at h ⊢
  rcases hcase : call.stage with left | ⟨out, chunks⟩ | ⟨k, out, chunk, rest⟩ | result | _
  all_goals rw [hcase] at h
  case waiting =>
    obtain ⟨hat, w, hw, hcaller, finished, htask⟩ := h
    obtain ⟨finished', htask', _⟩ := (Singleflight.does_step hinv htimed op).onward _ _ _ _ htask
    refine ⟨hat, w, ?_, hcaller, finished', htask'⟩
    refine Singleflight.waiting_stays hinv hw ?_ ?_
    · exact hcaller ▸ (hkeep k out chunk rest hcase).1
    · exact hcaller ▸ (hkeep k out chunk rest hcase).2
  all_goals exact h

/-! ## One step -/

/-- one call is put, and the flights have moved -/
theorem Inv.update (h : Inv cfg s) {sf : Singleflight.State Text (List Uuid) Part Unit}
    {met : FlightId → Option (ℕ × Answers)} (hsf : Singleflight.Inv sf) (htimed : Timed sf)
    (hmet : ∀ f key chunk t o, sf.task f = some (key, chunk, some (t, o)) → o ≠ .cancelled →
      ∃ a, met f = some (t, a) ∧ o = outcomeOf a chunk)
    (hothers : ∀ c' call', c' ≠ c → s.calls c' = some call' → call'.Sound cfg sf) (hsound : call.Sound cfg sf)
    (hfresh : ∀ k out chunk rest, call.stage = .waiting k out chunk rest → ∀ c' call' out' chunk' rest', c' ≠ c →
      s.calls c' = some call' → call'.stage ≠ .waiting k out' chunk' rest') :
    Inv cfg ({ s with sf := sf, met := met }.put c call) := by
  refine ⟨hsf, htimed, hmet, fun d x hx => ?_, fun d d' x x' k out chunk rest out' chunk' rest' hx hx' hstage hstage' => ?_⟩
  · by_cases hd : d = c
    · subst hd
      simp only [State.put, Function.update_self, Option.some.injEq] at hx
      exact hx ▸ hsound
    · simp only [State.put, Function.update_of_ne hd] at hx
      exact hothers d x hd hx
  · by_cases hd : d = c
    · by_cases hd' : d' = c
      · exact hd.trans hd'.symm
      · subst hd
        simp only [State.put, Function.update_self, Option.some.injEq, Function.update_of_ne hd'] at hx hx'
        subst hx
        exact absurd hstage' (hfresh k out chunk rest hstage d' x' out' chunk' rest' hd' hx')
    · simp only [State.put, Function.update_of_ne hd] at hx
      by_cases hd' : d' = c
      · subst hd'
        simp only [State.put, Function.update_self, Option.some.injEq] at hx'
        subst hx'
        exact absurd hstage (hfresh k out' chunk' rest' hstage' d x out chunk rest hd hx)
      · simp only [State.put, Function.update_of_ne hd'] at hx'
        exact h.callers d d' x x' k out chunk rest out' chunk' rest' hx hx' hstage hstage'

/-- a call that does not wait is put -/
theorem Inv.put (h : Inv cfg s) (hsound : call.Sound cfg s.sf)
    (hstage : ∀ k out chunk rest, call.stage ≠ .waiting k out chunk rest) : Inv cfg (s.put c call) :=
  h.update h.sf h.timed h.met (fun c' call' _ => h.calls c' call') hsound
    (fun k out chunk rest hwaits => absurd hwaits (hstage k out chunk rest))

/-- no loader ends in this step with rows -/
theorem Inv.met_step (h : Inv cfg s) {op : Singleflight.Op Text (List Uuid) Part Unit}
    (hop : ∀ f o, op = .finish f o → o = .cancelled) {f : FlightId} {key : Text} {chunk : List Uuid} {t : ℕ}
    {o : Outcome Part Unit} (htask : (Singleflight.step s.sf op).task f = some (key, chunk, some (t, o)))
    (ho : o ≠ .cancelled) : ∃ a, s.met f = some (t, a) ∧ o = outcomeOf a chunk := by
  rcases Singleflight.ended_step h.sf op htask with hold | ⟨hfinish, _⟩
  · exact h.met f key chunk t o hold ho
  · exact absurd (hop f o hfinish) ho

/-- the flights move, and no call does -/
theorem Inv.flights (h : Inv cfg s) {op : Singleflight.Op Text (List Uuid) Part Unit}
    (hop : ∀ f o, op = .finish f o → o = .cancelled)
    (hkeep : ∀ k, op ≠ .resume k ∧ op ≠ .cancel k) : Inv cfg { s with sf := Singleflight.step s.sf op } :=
  ⟨h.sf.step op, h.timed.step (Singleflight.does_step h.sf h.timed op), fun _ _ _ _ _ => h.met_step hop,
    fun c call hcall => (h.calls c call hcall).step h.sf h.timed fun k _ _ _ _ => hkeep k, h.callers⟩

theorem receive_outcome (out : Part) (rest : List (List Uuid)) (a : Answers) (chunk : List Uuid) :
    receive out rest (.outcome (outcomeOf a chunk)) = next (((loadBatchUncached a chunk).map out.update).getD out) rest := by
  unfold outcomeOf
  rcases loadBatchUncached a chunk with _ | part <;> rfl

theorem Call.At.next (h : call.At cfg out chunks) (sf : Singleflight.State Text (List Uuid) Part Unit) :
    ({ call with stage := Batches.next out chunks } : Call).Sound cfg sf := by
  by_cases hnil : chunks = []
  · subst hnil
    have hall := h.alone []
    rw [List.append_nil] at hall
    exact ⟨hall, h.counted, h.timed⟩
  · simp only [Batches.next, if_neg hnil]
    exact ⟨h.alone, h.counted, h.timed⟩

/-- the next chunk is loaded -/
theorem Call.At.load {chunk : List Uuid} {rest : List (List Uuid)} (h : call.At cfg out (chunk :: rest)) (load : Load)
    (htime : load.asked ≤ load.ended) (sf : Singleflight.State Text (List Uuid) Part Unit) :
    ({ call with
        stage := receive out rest (.outcome (outcomeOf load.answers chunk))
        met := { call.met with loads := call.met.loads ++ [load] } } : Call).Sound cfg sf := by
  have hnext : ({ call with met := { call.met with loads := call.met.loads ++ [load] } } : Call).At cfg
      (((loadBatchUncached load.answers chunk).map out.update).getD out) rest := by
    refine ⟨fun more => ?_, ?_, fun x hx => ?_⟩
    · have hall := h.alone (load :: more)
      rw [List.map_cons, gather] at hall
      simpa using hall
    · have hcounted := h.counted
      have hsame : ({ call.met with loads := call.met.loads ++ [load] } : Met).chunks call.ids = call.met.chunks call.ids := rfl
      simp only [hsame, List.length_cons, List.length_append, List.length_nil] at hcounted ⊢
      omega
    · rcases List.mem_append.1 hx with hx | hx
      · exact h.timed x hx
      · rw [List.mem_singleton.1 hx]
        exact htime
  rw [receive_outcome]
  exact hnext.next sf

/-- no chunk is asked under a key that holds the flight of other ids, or one that has ended -/
def Op.Clean (cfg : Settings) (s : State) : Op → Prop
  | .ask c => ∀ ids out chunk rest met, s.calls c = some ⟨ids, .loop out (chunk :: rest), met⟩ →
      ∀ f flight, s.sf.table (batchKey cfg chunk) = some f → s.sf.flights f = some flight →
        flight.loader = chunk ∧ flight.finished = none
  | _ => True

def AllClean (cfg : Settings) (s : State) : List Op → Prop
  | [] => True
  | op :: ops => op.Clean cfg s ∧ AllClean cfg (step cfg s op) ops

theorem Inv.called (h : Inv cfg s) (ids : List Uuid) (absent : Uuid → Bool) : Inv cfg (step cfg s (.call ids absent)) := by
  have hput : Inv cfg (s.put s.nextCall
      ⟨ids, if (ids.filter fun id => ¬ absent id) = [] then .ended fun _ => none else .filtered (ids.filter fun id => ¬ absent id),
        ⟨absent, fun _ => none, none, []⟩⟩) := by
    by_cases hnil : (ids.filter fun id => ¬ absent id) = []
    · rw [if_pos hnil]
      refine h.put ⟨?_, rfl, by simp⟩ (by simp)
      simp only [alone]
      exact if_pos hnil
    · rw [if_neg hnil]
      exact h.put ⟨rfl, hnil, rfl, rfl⟩ (by simp)
  exact ⟨hput.sf, hput.timed, hput.met, hput.calls, hput.callers⟩

theorem Inv.filtered (h : Inv cfg s) {ids left : List Uuid} {met : Met}
    (hcall : s.calls c = some ⟨ids, .filtered left, met⟩) :
    left = (ids.filter fun id => ¬ met.absent id) ∧ left ≠ [] ∧ met.loads = [] ∧ met.cached = none :=
  h.calls c _ hcall

theorem Inv.readDb (h : Inv cfg s) (c : ℕ) (rows : Part) : Inv cfg (step cfg s (.readDb c rows)) := by
  simp only [step]
  split
  next ids left met hcall =>
    split_ifs with hseam
    · exact h
    · obtain ⟨rfl, hleft, hnone, hcached⟩ := h.filtered hcall
      refine h.put ⟨?_, ?_, by simp [hnone]⟩ (by simp)
      · simp only [alone]
        rw [if_neg hleft, if_pos hseam]
      · simp [Met.chunks, hnone, hcached]
  next => exact h

theorem next_ne_waiting {rest : List (List Uuid)} {k : CallerId} {out' : Part} {chunk : List Uuid}
    {rest' : List (List Uuid)} : next out rest ≠ .waiting k out' chunk rest' := by
  unfold next
  split_ifs <;> simp

theorem receive_ne_waiting {rest : List (List Uuid)} {got : Got Part Unit} {k : CallerId} {out' : Part} {chunk : List Uuid}
    {rest' : List (List Uuid)} : receive out rest got ≠ .waiting k out' chunk rest' := by
  unfold receive
  split
  · exact next_ne_waiting
  · exact next_ne_waiting
  · exact next_ne_waiting
  · simp
  · simp

theorem Inv.read (h : Inv cfg s) (c : ℕ) (cached : Option Part) : Inv cfg (step cfg s (.read c cached)) := by
  simp only [step]
  split
  next ids left met hcall =>
    obtain ⟨rfl, hleft, hnone, -⟩ := h.filtered hcall
    split_ifs with hseam
    swap
    · exact h
    · rcases cached with _ | cached
      · exact h.put trivial (by simp)
      · have hat : (⟨ids, .failed, { met with cached := some cached }⟩ : Call).At cfg
            (cached.only (sortedSet (ids.filter fun id => ¬ met.absent id)))
            (chunksOf ((cached.only (sortedSet (ids.filter fun id => ¬ met.absent id))).missing
              (sortedSet (ids.filter fun id => ¬ met.absent id)))) := by
          refine ⟨fun more => ?_, by simp [Met.chunks, hnone], by simp [hnone]⟩
          simp only [alone]
          rw [if_neg hleft, if_neg (not_not.2 hseam)]
          simp [Met.chunks, hnone]
        exact h.put (hat.next s.sf) fun k out chunk rest => next_ne_waiting
  next => exact h

theorem head?_drop_append {α : Type} (l : List α) (x : α) : ((l ++ [x]).drop l.length).head? = some x := by
  simp

/-- a clean join waits for its own loader -/
theorem Inv.ask (h : Inv cfg s) (c : ℕ) (hclean : (Op.ask c).Clean cfg s) : Inv cfg (step cfg s (.ask c)) := by
  simp only [step]
  split
  next ids out chunk rest met hcall =>
    split_ifs with hmerging
    swap
    · exact h
    · obtain ⟨hlog, _, f, hwaiting, htask⟩ := Singleflight.join_waits h.sf (batchKey cfg chunk) chunk
        (hclean ids out chunk rest met hcall)
      rw [hlog, List.drop_length]
      have hat : Call.At cfg _ out (chunk :: rest) := h.calls c _ hcall
      refine h.update (h.sf.step _) (h.timed.step (Singleflight.does_step h.sf h.timed _))
        (fun _ _ _ _ _ => h.met_step (by simp)) (fun c' call' _ hcall' => ?_) ?_ ?_
      · exact (h.calls c' call' hcall').step h.sf h.timed (by simp)
      · exact ⟨⟨hat.alone, hat.counted, hat.timed⟩, ⟨s.sf.nextCaller, batchKey cfg chunk, f, s.sf.now + 1⟩, by simp [hwaiting], rfl,
          none, htask⟩
      · intro k out' chunk' rest' hstage c' call' out'' chunk'' rest'' _ hcall' hstage'
        obtain ⟨rfl, -⟩ := Stage.waiting.inj hstage
        have hsound := h.calls c' call' hcall'
        unfold Call.Sound at hsound
        rw [hstage'] at hsound
        obtain ⟨_, w, hw, hcaller, _⟩ := hsound
        exact absurd hcaller (Nat.ne_of_lt (h.sf.past w hw).1)
  next => exact h

theorem Inv.load (h : Inv cfg s) (c : ℕ) (a : Answers) : Inv cfg (step cfg s (.load c a)) := by
  simp only [step]
  split
  next ids out chunk rest met hcall =>
    split_ifs with hmerging
    · exact h
    · have hat : Call.At cfg _ out (chunk :: rest) := h.calls c _ hcall
      exact h.put (hat.load ⟨s.sf.now, s.sf.now, a⟩ le_rfl s.sf) fun _ _ _ _ => receive_ne_waiting
  next => exact h

/-- the other calls are other callers -/
theorem Inv.others (h : Inv cfg s) {k : CallerId} {chunk : List Uuid} {rest : List (List Uuid)}
    (hcall : s.calls c = some call) (hstage : call.stage = .waiting k out chunk rest)
    {op : Singleflight.Op Text (List Uuid) Part Unit} (hop : op = .resume k ∨ op = .cancel k) (c' : ℕ) (call' : Call)
    (hne : c' ≠ c) (hcall' : s.calls c' = some call') : call'.Sound cfg (Singleflight.step s.sf op) := by
  refine (h.calls c' call' hcall').step h.sf h.timed fun k' out' chunk' rest' hstage' => ?_
  have hk : k' ≠ k := by
    rintro rfl
    exact hne (h.callers c' c call' call k' out' chunk' rest' out chunk rest hcall' hcall hstage' hstage)
  rcases hop with rfl | rfl
  · exact ⟨fun heq => hk (by injection heq with heq; exact heq.symm), by simp⟩
  · exact ⟨by simp, fun heq => hk (by injection heq with heq; exact heq.symm)⟩

/-- what a caller that waits gets when it is woken -/
theorem Inv.woken (h : Inv cfg s) {ids chunk : List Uuid} {k : CallerId} {rest : List (List Uuid)} {met : Met}
    (hcall : s.calls c = some ⟨ids, .waiting k out chunk rest, met⟩) :
    Singleflight.step s.sf (.resume k) = { s.sf with now := s.sf.now + 1 } ∨
      ∃ w t o, (Singleflight.step s.sf (.resume k)).log = s.sf.log ++ [⟨w, .outcome o⟩] ∧ w.joined < t ∧
        s.sf.task w.flight = some (w.key, chunk, some (t, o)) := by
  rcases Singleflight.resume_returns h.sf k with hsame | ⟨w, hw, hcaller, loader, t, o, htask, htime, hlog⟩
  · exact Or.inl hsame
  · obtain ⟨_, w', hw', hcaller', finished, htask'⟩ := h.calls c _ hcall
    obtain rfl := List.inj_on_of_nodup_map h.sf.callers hw hw' (hcaller.trans hcaller'.symm)
    rw [htask] at htask'
    obtain ⟨-, rfl, -⟩ := (Prod.mk.injEq ..).mp (Option.some.inj htask') |>.imp_right (Prod.mk.injEq ..).mp
    exact Or.inr ⟨w, t, o, hlog, htime, htask⟩

theorem Inv.wake (h : Inv cfg s) (c : ℕ) : Inv cfg (step cfg s (.wake c)) := by
  simp only [step]
  split
  next ids k out chunk rest met hcall =>
    rcases h.woken hcall with hsame | ⟨w, t, o, hlog, htime, htask⟩
    · rw [hsame]
      simp only [List.drop_length, List.head?_nil]
      refine ⟨h.sf.tick, ⟨fun f key loader t o hf => Nat.le_succ_of_le (h.timed.past f key loader t o hf), h.timed.logged⟩, h.met,
        h.calls, h.callers⟩
    · simp only [hlog, head?_drop_append]
      obtain ⟨hat, _⟩ := h.calls c _ hcall
      refine h.update (h.sf.step _) (h.timed.step (Singleflight.does_step h.sf h.timed _))
        (fun _ _ _ _ _ => h.met_step (by simp)) (h.others hcall rfl (Or.inl rfl)) ?_
        fun k out chunk rest hstage => absurd hstage receive_ne_waiting
      by_cases ho : o = .cancelled
      · subst ho
        trivial
      · obtain ⟨a, hmet, rfl⟩ := h.met w.flight w.key chunk t o htask ho
        simp only [hmet, Option.toList_some, List.map_cons, List.map_nil]
        exact hat.load ⟨w.joined, t, a⟩ (Nat.le_of_lt htime) _
  next => exact h

theorem Inv.cancel (h : Inv cfg s) (c : ℕ) : Inv cfg (step cfg s (.cancel c)) := by
  simp only [step]
  split
  next ids k out chunk rest met hcall =>
    refine h.update (h.sf.step _) (h.timed.step (Singleflight.does_step h.sf h.timed _))
      (fun _ _ _ _ _ => h.met_step (by simp)) (h.others hcall rfl (Or.inr rfl)) trivial (by simp)
  next hcall => exact h.put trivial (by simp)
  next hcall => exact h.put trivial (by simp)
  next => exact h

/-- a loader ends, and what it met is kept -/
theorem Inv.finish (h : Inv cfg s) (f : FlightId) (a : Answers) : Inv cfg (step cfg s (.finish f a)) := by
  simp only [step]
  split
  next key chunk refs due hflight =>
    have htask : s.sf.task f = some (key, chunk, none) := by simp [Singleflight.State.task, hflight]
    have hnow : (Singleflight.step s.sf (.finish f (outcomeOf a chunk))).now = s.sf.now + 1 := by
      simp [Singleflight.step, hflight]
    refine ⟨h.sf.step (.finish f (outcomeOf a chunk)),
      h.timed.step (Singleflight.does_step h.sf h.timed (.finish f (outcomeOf a chunk))),
      fun g k l t o hended ho => ?_, fun c call hcall => (h.calls c call hcall).step h.sf h.timed (by simp), h.callers⟩
    rcases Singleflight.ended_step h.sf _ hended with hold | ⟨hfinish, rfl, hran⟩
    · have hgf : g ≠ f := by
        rintro rfl
        rw [htask] at hold
        simp at hold
      simpa only [Function.update_of_ne hgf] using h.met g k l t o hold ho
    · injection hfinish with hg ho'
      subst hg
      rw [htask] at hran
      simp only [Option.some.injEq, Prod.mk.injEq, and_true] at hran
      obtain ⟨rfl, rfl⟩ := hran
      exact ⟨a, by simp [hnow], ho'.symm⟩
  next => exact h

/-- the step lemma -/
theorem Inv.step (h : Inv cfg s) (op : Op) (hclean : op.Clean cfg s) : Inv cfg (step cfg s op) := by
  cases op with
  | call ids absent => exact h.called ids absent
  | readDb c rows => exact h.readDb c rows
  | read c cached => exact h.read c cached
  | ask c => exact h.ask c hclean
  | load c a => exact h.load c a
  | wake c => exact h.wake c
  | cancel c => exact h.cancel c
  | finish f a => exact h.finish f a
  | abort f => exact h.flights (by rintro g o ⟨⟩; rfl) (by simp)
  | callback f => exact h.flights (by simp) (by simp)

theorem inv_run (h : Inv cfg s) (ops : List Op) (hclean : AllClean cfg s ops) : Inv cfg (run cfg s ops) := by
  induction ops generalizing s with
  | nil => exact h
  | cons op ops ih => exact ih (h.step op hclean.1) hclean.2

/-! ## Apart -/

structure Apart (cfg : Settings) (s : State) : Prop where
  /-- a call that has ended has what it gets alone, and every user that it asked for and that is known -/
  own : ∀ c call result, s.calls c = some call → call.stage = .ended result →
    call.Alone cfg result ∧ ∀ id ∈ call.ids, ∀ snap, call.met.Knows cfg id snap → result id = some snap
  /-- a call that waits waits for its own chunk, and goes on once that is loaded -/
  waits : ∀ c ids k out chunk rest met, s.calls c = some ⟨ids, .waiting k out chunk rest, met⟩ →
    ∃ f key finished, s.sf.task f = some (key, chunk, finished) ∧
      ∀ t o, finished = some (t, o) →
        ∃ met', (step cfg s (.wake c)).calls c = some ⟨ids, receive out rest (.outcome o), met'⟩

theorem Inv.goesOn (h : Inv cfg s) {ids chunk : List Uuid} {k : CallerId} {rest : List (List Uuid)} {met : Met}
    (hcall : s.calls c = some ⟨ids, .waiting k out chunk rest, met⟩) :
    ∃ f key finished, s.sf.task f = some (key, chunk, finished) ∧
      ∀ t o, finished = some (t, o) →
        ∃ met', (Batches.step cfg s (.wake c)).calls c = some ⟨ids, receive out rest (.outcome o), met'⟩ := by
  obtain ⟨_, w, hw, hcaller, finished, htask⟩ := h.calls c _ hcall
  refine ⟨w.flight, w.key, finished, htask, ?_⟩
  rintro t o rfl
  have hlog : (Singleflight.step s.sf (.resume k)).log = s.sf.log ++ [⟨w, .outcome o⟩] := by
    obtain ⟨loader, finished', htask', hgoes⟩ := h.sf.kept hw
    rw [htask] at htask'
    simp only [Option.some.injEq, Prod.mk.injEq, true_and] at htask'
    exact hcaller ▸ hgoes t o htask'.2.symm
  simp only [Batches.step, hcall, hlog, head?_drop_append, State.deliver, State.put, Function.update_self]
  exact ⟨_, rfl⟩

/-- **Calls stay apart.** In every run in which no chunk is asked under a key that holds the flight of other ids or an
ended one, each call has what it gets alone from the same answers, with every user that they know. -/
theorem batches_never_mix (cfg : Settings) (ops : List Op) (hclean : AllClean cfg init ops) :
    Apart cfg (run cfg init ops) := by
  have h : Inv cfg (run cfg init ops) := inv_run inv_init ops hclean
  refine ⟨fun c call result hcall hstage => ?_, fun c ids k out chunk rest met hcall => h.goesOn hcall⟩
  have hsound := h.calls c call hcall
  unfold Call.Sound at hsound
  rw [hstage] at hsound
  have halone : call.Alone cfg result := hsound
  exact ⟨halone, fun id hid snap hknows => alone_knows halone.alone halone.counted hid hknows⟩

/-- the other service is asked, and loads are merged -/
def merged : Settings := ⟨true, true, "dev".toList⟩

/-- a row that can be read -/
def row (id : Uuid) : Fields :=
  [("user_id".toList, .uuid id), ("username".toList, .str []), ("display_name".toList, .str []), ("avatar".toList, .null),
    ("role".toList, .null), ("account_level".toList, .str []), ("banned".toList, .bool false), ("nickname".toList, .null)]

/-- nothing is cached, and the other service knows every user -/
def everyone : Answers := ⟨some fun _ => none, .rows fun id => some (row id)⟩

/-- two calls that both find nothing in the cache, each with one chunk -/
def both (ids ids' : List Uuid) : List Op :=
  [.call ids fun _ => false, .read 0 (some fun _ => none), .call ids' fun _ => false, .read 1 (some fun _ => none),
    .ask 0, .ask 1, .finish 0 everyone, .wake 0, .wake 1]

def State.result (s : State) (c : ℕ) : Option (Uuid → Option Snapshot) :=
  (s.calls c).bind fun call => match call.stage with
    | .ended result => some result
    | _ => none

/-- the second of two calls for the same user joins the flight of the first -/
theorem batches_never_mix_demo : Apart merged (run merged init (both [1] [1])) := by
  refine batches_never_mix merged (both [1] [1])
    ⟨trivial, trivial, trivial, trivial, fun _ _ _ _ _ _ f flight hentry => ?_,
      fun ids out chunk rest met hcall f flight hentry hflight => ?_, trivial, trivial, trivial, trivial⟩
  · cases hentry
  · cases hcall
    cases hentry
    cases hflight
    exact ⟨rfl, rfl⟩

/-- Two calls ask for [1, 2, 9] and for [1, 5, 9]. The keys are the same, so the second one gets the rows of the first:
it lacks 5, which every loader would have found, and has 2, for which it did not ask. -/
theorem batches_mixed :
    ((run merged init (both [1, 2, 9] [1, 5, 9])).result 1).map (fun r => ((r 2).isSome, (r 5).isSome)) = some (true, false) ∧
      ¬ Apart merged (run merged init (both [1, 2, 9] [1, 5, 9])) := by
  refine ⟨by decide, fun h => ?_⟩
  have hfive : ∃ call result, (run merged init (both [1, 2, 9] [1, 5, 9])).calls 1 = some call ∧
      call.stage = .ended result ∧ 5 ∈ call.ids ∧ (∃ snap, call.met.Knows merged 5 snap) ∧ result 5 = none := by
    refine ⟨_, _, rfl, rfl, by decide, ⟨⟨5, .str [], .str [], .null, .null, .str [], .bool false, .null⟩, rfl, ?_⟩, rfl⟩
    intro cached hcached
    cases hcached
    intro load hload
    cases List.mem_singleton.1 hload
    exact ⟨by simp [everyone], fun _ => none, rfl, fun id => some (row id), row 5, rfl, rfl, rfl⟩
  obtain ⟨call, result, hcall, hstage, hid, ⟨snap, hknows⟩, hnone⟩ := hfive
  have hsome := (h.own 1 call result hcall hstage).2 5 hid snap hknows
  rw [hnone] at hsome
  cases hsome

end LkmService.UserCache.Batches
