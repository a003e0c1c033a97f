/-
The reads, the fills and the invalidations of one process over its L1 (`core/user_cache.py`, `core/local_cache.py`).

A step is what a coroutine does between two awaits, or one command of Redis. A read looks into L1 and keeps the revision
(`beginOne`, `beginMany`), Redis answers (`answer`), and what came is put into L1 (`finish`). A fill keeps the epoch of
the user (`beginFill`), the value is loaded (`load`), `write_if_newer` watches the keys (`watch`), checks the epoch and
keeps the revision (`capture`), EXEC (`exec`), and what was written is put into L1 (`put`). `invalidate` is the deletion in
L1 by `invalidate_user_snap` or by a broadcast; its INCR came earlier (`incr`), from whichever process. `lose` is a Redis
that starts empty.

Results:
- `never_resurrects`: in every state that is reached, L1 is bounded and in the order of use, and what is returned has not
  expired; and in a run whose steps are `Clean`, L1 holds no value that was read or loaded before its user was invalidated.
- `resurrected` (failing runs): a value that was loaded before the broadcast of an invalidation came in is put into L1
  after it; and so is a stale one, when the epoch could not be read and Redis started empty.
-/
import Mathlib.Algebra.Order.Ring.Rat
import LkmService.UserCache.Reads

namespace LkmService.UserCache

open OrderedDict

/-! ## Model -/

/-- a read that waits for Redis -/
structure Reading where
  pending : List Uuid
  revision : ℕ
  /-- the step of the GET, and what it answered -/
  answered : Option (ℕ × (Uuid → Option (Option Value)))

/-- a value on its way to `write_if_newer` -/
structure Fill where
  id : Uuid
  expected : ℤ
  /-- the step of the load, the value and its version -/
  loaded : Option (ℕ × Fields × ℤ)
  /-- the changes of the keys when they were watched, the epoch and the version that were read -/
  watched : Option (ℕ × ℤ × Option ℤ)
  revision : Option ℕ
  committed : Bool

structure Process where
  l1 : L1 Uuid Held
  now : ℚ
  /-- `_epoch_key` -/
  epoch : Uuid → Option ℤ
  /-- the version at `_snap_key` -/
  stored : Uuid → Option ℤ
  /-- how often one of the two keys has changed -/
  changes : Uuid → ℕ
  reads : ℕ → Option Reading
  fills : ℕ → Option Fill

inductive Op where
  | advance (later : ℚ)
  | invalidate (id : Uuid)
  | clear
  | incr (id : Uuid)
  | store (id : Uuid) (sv : ℤ)
  | lose
  | beginOne (r : ℕ) (id : Uuid)
  | beginMany (r : ℕ) (ids : List Uuid)
  | answer (r : ℕ) (answer : Uuid → Option (Option Value))
  | finish (r : ℕ) (ttl : Uuid → ℚ)
  /-- `current_epoch`, up to its last GET: `first` is set where there is none, and a failure counts as 0 -/
  | beginFill (w : ℕ) (id : Uuid) (first : ℤ) (failed : Bool)
  | load (w : ℕ) (data : Fields) (sv : ℤ)
  | watch (w : ℕ)
  | capture (w : ℕ)
  | exec (w : ℕ)
  | put (w : ℕ) (ttl : ℚ)

variable (l1On : Bool) (parseInt : Text → Option ℤ)

/-- the moment of a step; `step` is the step in which the value was read -/
def Process.moment (s : Process) (step : ℕ) (ttl : Uuid → ℚ) : Moment :=
  { redis := true
    l1On := l1On
    now := s.now
    step := step
    answer := none
    absent := fun _ => false
    ttl := ttl
    parseInt := parseInt }

/-- the backfills of a read; the loop of a batch ends where it raises -/
def Moment.fillEach (m : Moment) (revision : ℕ) (answer : Uuid → Option (Option Value)) :
    List Uuid → L1 Uuid Held → L1 Uuid Held
  | [], l1 => l1
  | id :: rest, l1 =>
    match answer id with
    | none => m.fillEach revision answer rest l1
    | some payload =>
      if m.raises payload then l1 else m.fillEach revision answer rest (m.decodeOne id revision payload l1).2

/-- the L1 fill of `write_if_newer`, unless L1 has a newer version -/
def putL1 (l1 : L1 Uuid Held) (id : Uuid) (data : Fields) (sv : ℤ) (loadedAt : ℕ) (ttl now : ℚ) : L1 Uuid Held :=
  let (existing, l1) := l1.get id now
  let newer :=
    match existing with
    | some ⟨.dict fields, _⟩ =>
      match (dictGet fields "sv").toInt parseInt with
      | some version => decide (version > sv)
      -- the overflow leaves `write_if_newer`
      | none => true
    | _ => false
  if newer then l1
  else l1.set id (some ⟨.dict [("sv".toList, .int sv), ("data".toList, .dict data)], loadedAt⟩) ttl now

def step (s : Process) (op : Op) : Process :=
  let s := { s with l1 := { s.l1 with clock := s.l1.clock + 1 } }
  match op with
  | .advance later => { s with now := max s.now later }
  | .invalidate id => { s with l1 := s.l1.delete id }
  | .clear => { s with l1 := s.l1.clear }
  | .incr id =>
    { s with
      epoch := Function.update s.epoch id (some ((s.epoch id).getD 0 + 1))
      stored := Function.update s.stored id none
      changes := Function.update s.changes id (s.changes id + 1) }
  | .store id sv =>
    { s with
      stored := Function.update s.stored id (some sv)
      changes := Function.update s.changes id (s.changes id + 1) }
  | .lose => { s with epoch := fun _ => none, stored := fun _ => none, changes := fun id => s.changes id + 1 }
  | .beginOne r id =>
    match (s.moment l1On parseInt 0 fun _ => 0).lookup s.l1 id with
    | (some _, l1) => { s with l1 := l1 }
    | (none, l1) => { s with l1 := l1, reads := Function.update s.reads r (some ⟨[id], l1.revision, none⟩) }
  | .beginMany r ids =>
    let (entries, l1) := if l1On then s.l1.multiGet ids s.now else (ids.map fun _ => none, s.l1)
    let b := takeHits (ids.zip entries) ⟨[], fun _ => none, [], l1⟩
    { s with l1 := b.l1, reads := Function.update s.reads r (some ⟨b.pending, b.l1.revision, none⟩) }
  | .answer r answer =>
    { s with reads := Function.update s.reads r ((s.reads r).map fun reading =>
        { reading with answered := some (s.l1.clock, answer) }) }
  | .finish r ttl =>
    match s.reads r with
    | some ⟨pending, revision, some (readAt, answer)⟩ =>
      { s with
        l1 := (s.moment l1On parseInt readAt ttl).fillEach revision answer pending s.l1
        reads := Function.update s.reads r none }
    | _ => s
  | .beginFill w id first failed =>
    if failed then { s with fills := Function.update s.fills w (some ⟨id, 0, none, none, none, false⟩) }
    else
      let epoch := (s.epoch id).getD first
      { s with
        epoch := Function.update s.epoch id (some epoch)
        changes := if s.epoch id = none then Function.update s.changes id (s.changes id + 1) else s.changes
        fills := Function.update s.fills w (some ⟨id, epoch, none, none, none, false⟩) }
  | .load w data sv =>
    { s with fills := Function.update s.fills w ((s.fills w).map fun fill =>
        { fill with loaded := some (s.l1.clock, data, sv), watched := none, revision := none, committed := false }) }
  | .watch w =>
    { s with fills := Function.update s.fills w ((s.fills w).map fun fill =>
        { fill with
          watched := some (s.changes fill.id, (s.epoch fill.id).getD 0, s.stored fill.id)
          revision := none
          committed := false }) }
  | .capture w =>
    match s.fills w with
    | some fill =>
      match fill.loaded, fill.watched with
      | some (_, _, sv), some (_, epoch, stored) =>
        -- a newer version, or another epoch: `return False`
        if (∃ version ∈ stored, version > sv) ∨ epoch ≠ fill.expected then
          { s with fills := Function.update s.fills w none }
        else { s with fills := Function.update s.fills w (some { fill with revision := some s.l1.revision }) }
      | _, _ => s
    | none => s
  | .exec w =>
    match s.fills w with
    | some fill =>
      match fill.loaded, fill.watched, fill.revision with
      | some (_, _, sv), some (changes, _), some _ =>
        if s.changes fill.id = changes then
          { s with
            stored := Function.update s.stored fill.id (some sv)
            changes := Function.update s.changes fill.id (s.changes fill.id + 1)
            fills := Function.update s.fills w (some { fill with committed := true }) }
        else { s with fills := Function.update s.fills w (some { fill with watched := none, revision := none }) }
      | _, _, _ => s
    | none => s
  | .put w ttl =>
    match s.fills w with
    | some fill =>
      match fill.loaded, fill.revision, fill.committed with
      | some (loadedAt, data, sv), some revision, true =>
        { s with
          l1 := if l1On = true ∧ revision = s.l1.revision then putL1 parseInt s.l1 fill.id data sv loadedAt ttl s.now
            else s.l1
          fills := Function.update s.fills w none }
      | _, _, _ => s
    | none => s

def run (s : Process) (ops : List Op) : Process := ops.foldl (step l1On parseInt) s

/-- `_maxsize` is at least 1; Redis may hold anything -/
def start (maxsize : ℕ) (now : ℚ) (epoch stored : Uuid → Option ℤ) : Process :=
  { l1 := ⟨[], max 1 maxsize, 0, 0, fun _ => 0, 0, fun _ => 0⟩
    now := now
    epoch := epoch
    stored := stored
    changes := fun _ => 0
    reads := fun _ => none
    fills := fun _ => none }

/-! ## The fence -/

/-- no entry was read before its user was last invalidated here -/
def Fenced (l1 : L1 Uuid Held) : Prop := ∀ e ∈ l1.data, l1.dropped e.1 < e.2.value.readAt

/-- while the revision is the one that was kept, the user was not invalidated after the step `t` -/
def Guards (l1 : L1 Uuid Held) (revision t : ℕ) (id : Uuid) : Prop :=
  revision ≤ l1.revision ∧ (revision = l1.revision → l1.dropped id < t)

/-- an operation on L1 invalidates nothing, or raises the revision -/
structure Onward (a b : L1 Uuid Held) : Prop where
  clock : b.clock = a.clock
  revision : a.revision ≤ b.revision
  kept : b.revision = a.revision → b.dropped = a.dropped
  past : (∀ id, a.dropped id ≤ a.clock) → ∀ id, b.dropped id ≤ a.clock
  wf : a.Wf → b.Wf
  maxsize : b.maxsize = a.maxsize

variable {l1 a b c : L1 Uuid Held} {revision t : ℕ} {id : Uuid} {now ttl : ℚ}

theorem Onward.refl (a : L1 Uuid Held) : Onward a a := ⟨rfl, le_rfl, fun _ => rfl, id, id, rfl⟩

theorem Onward.trans (h : Onward a b) (h' : Onward b c) : Onward a c := by
  refine ⟨h'.clock.trans h.clock, le_trans h.revision h'.revision, fun heq => ?_, fun hpast => ?_, fun hwf => h'.wf (h.wf hwf),
    h'.maxsize.trans h.maxsize⟩
  · have hb : b.revision = a.revision := le_antisymm (heq ▸ h'.revision) h.revision
    rw [h'.kept (heq.trans hb.symm), h.kept hb]
  · have := h'.past (by rw [h.clock]; exact h.past hpast)
    rwa [h.clock] at this

theorem Guards.onward (h : Guards a revision t id) (hon : Onward a b) : Guards b revision t id := by
  refine ⟨le_trans h.1 hon.revision, fun heq => ?_⟩
  have hb : b.revision = a.revision := le_antisymm (heq ▸ h.1) hon.revision
  rw [hon.kept hb]
  exact h.2 (heq.trans hb)

theorem onward_get : Onward l1 (l1.get id now).2 := by
  have hfields : (l1.get id now).2.clock = l1.clock ∧ (l1.get id now).2.dropped = l1.dropped := by
    unfold L1.get
    split
    · exact ⟨rfl, rfl⟩
    · split_ifs <;> exact ⟨rfl, rfl⟩
  exact ⟨hfields.1, by simp, fun _ => hfields.2, fun hpast => by rw [hfields.2]; exact hpast, L1.Wf.get, by simp⟩

theorem Fenced.get (h : Fenced l1) (hwf : l1.Wf) : Fenced (l1.get id now).2 := by
  intro e he
  have hdropped : (l1.get id now).2.dropped = l1.dropped := onward_get.kept (by simp)
  rw [hdropped]
  exact h e ((L1.mem_get hwf.keyed).1 he).1

theorem onward_delete : Onward l1 (l1.delete id) := by
  refine ⟨rfl, Nat.le_succ _, fun heq => absurd heq (Nat.succ_ne_self _), fun hpast other => ?_, L1.Wf.delete, rfl⟩
  by_cases hother : other = id
  · subst hother
    simp [L1.delete]
  · simpa [L1.delete, Function.update_of_ne hother] using hpast other

theorem Fenced.delete (h : Fenced l1) : Fenced (l1.delete id) := by
  intro e he
  obtain ⟨hmem, hne⟩ := mem_pop.1 he
  simpa [L1.delete, Function.update_of_ne hne] using h e hmem

theorem onward_set (value : Option Held) : Onward l1 (l1.set id value ttl now) := by
  rcases value with _ | value
  · exact onward_delete
  · by_cases httl : ttl ≤ 0
    · simp only [L1.set, httl, if_true]
      exact onward_delete
    · have hfields : (l1.set id (some value) ttl now).clock = l1.clock ∧
          (l1.set id (some value) ttl now).revision = l1.revision ∧
          (l1.set id (some value) ttl now).dropped = l1.dropped ∧
          (l1.set id (some value) ttl now).maxsize = l1.maxsize := by
        simp [L1.set, httl, L1.use]
      exact ⟨hfields.1, le_of_eq hfields.2.1.symm, fun _ => hfields.2.2.1,
        fun hpast => by rw [hfields.2.2.1]; exact hpast, fun hwf => hwf.set _, hfields.2.2.2⟩

/-- a value may be put in that was read after the last invalidation -/
theorem Fenced.set (h : Fenced l1) (hwf : l1.Wf) {value : Held} (hlate : l1.dropped id < value.readAt) :
    Fenced (l1.set id (some value) ttl now) := by
  by_cases httl : ttl ≤ 0
  · simp only [L1.set, httl, if_true]
    exact h.delete
  · intro e he
    have hdropped : (l1.set id (some value) ttl now).dropped = l1.dropped := by simp [L1.set, httl, L1.use]
    rw [hdropped]
    rw [L1.set_data hwf.keyed (not_le.1 httl)] at he
    rcases List.mem_append.1 ((evict_sublist _).subset he) with he | he
    · exact h e (mem_pop.1 he).1
    · rw [List.mem_singleton.1 he]
      exact hlate

theorem onward_setIfUnchanged (value : Option Held) : Onward l1 (l1.setIfUnchanged id value ttl revision now).2 := by
  unfold L1.setIfUnchanged
  split_ifs
  · exact Onward.refl l1
  · have hget : Onward l1 (l1.get id now).2 := onward_get
    split
    next heq => rwa [heq] at hget
    next heq =>
      rw [heq] at hget
      exact hget.trans (onward_set value)

theorem Fenced.setIfUnchanged (h : Fenced l1) (hwf : l1.Wf) {value : Held}
    (hguard : Guards l1 revision value.readAt id) :
    Fenced (l1.setIfUnchanged id (some value) ttl revision now).2 := by
  unfold L1.setIfUnchanged
  split_ifs with hno
  · exact h
  · simp only [Option.isNone_some, Bool.false_eq_true, false_or, not_or, not_not] at hno
    have hget : Fenced (l1.get id now).2 := h.get hwf
    have hon : Onward l1 (l1.get id now).2 := onward_get
    have hdropped : (l1.get id now).2.dropped = l1.dropped := hon.kept (by simp)
    split
    next heq => rwa [heq] at hget
    next heq =>
      rw [heq] at hget hon hdropped
      simp only at hget hon hdropped
      refine hget.set (hon.wf hwf) ?_
      rw [hdropped]
      exact hguard.2 hno.2

variable {m : Moment}

theorem onward_decodeOne (payload : Option Value) : Onward l1 (m.decodeOne id revision payload l1).2 := by
  unfold Moment.decodeOne
  split
  next payload =>
    rcases (dictGet payload "neg").truthy with _ | _
    · rcases dictGet payload "data" with _ | _ | _ | _ | _ | _ | _ | _ | data | _
      case dict =>
        rcases m.l1On with _ | _
        · exact Onward.refl l1
        · rcases m.version payload with _ | sv
          · exact Onward.refl l1
          · exact onward_setIfUnchanged _
      all_goals exact Onward.refl l1
    · exact Onward.refl l1
  next => exact Onward.refl l1

theorem Fenced.decodeOne (h : Fenced l1) (hwf : l1.Wf) (hguard : Guards l1 revision m.step id) (payload : Option Value) :
    Fenced (m.decodeOne id revision payload l1).2 := by
  unfold Moment.decodeOne
  split
  next payload =>
    rcases (dictGet payload "neg").truthy with _ | _
    · rcases dictGet payload "data" with _ | _ | _ | _ | _ | _ | _ | _ | data | _
      case dict =>
        rcases m.l1On with _ | _
        · exact h
        · rcases m.version payload with _ | sv
          · exact h
          · exact h.setIfUnchanged hwf hguard
      all_goals exact h
    · exact h
  next => exact h

theorem onward_fillEach (answer : Uuid → Option (Option Value)) (pending : List Uuid) :
    Onward l1 (m.fillEach revision answer pending l1) := by
  induction pending generalizing l1 with
  | nil => exact Onward.refl l1
  | cons first rest ih =>
    simp only [Moment.fillEach]
    split
    next => exact ih
    next payload _ =>
      split_ifs
      · exact Onward.refl l1
      · exact (onward_decodeOne payload).trans ih

/-- the backfills of a read keep the fence when the values were read after the invalidations that its revision knows -/
theorem Fenced.fillEach {answer : Uuid → Option (Option Value)} {pending : List Uuid} (h : Fenced l1) (hwf : l1.Wf)
    (hguard : ∀ id, Guards l1 revision m.step id) : Fenced (m.fillEach revision answer pending l1) := by
  induction pending generalizing l1 with
  | nil => exact h
  | cons first rest ih =>
    simp only [Moment.fillEach]
    split
    next => exact ih h hwf hguard
    next payload _ =>
      split_ifs
      · exact h
      · have hon : Onward l1 (m.decodeOne first revision payload l1).2 := onward_decodeOne payload
        exact ih (h.decodeOne hwf (hguard first) payload) (hon.wf hwf) fun id => (hguard id).onward hon

theorem onward_lookup : Onward l1 (m.lookup l1 id).2 := by
  have hentry : Onward l1 (if m.l1On then l1.get id m.now else (none, l1)).2 := by
    split_ifs
    · exact onward_get
    · exact Onward.refl l1
  simp only [Moment.lookup]
  split
  · exact hentry
  · split
    · exact hentry.trans onward_delete
    · exact hentry

theorem Fenced.lookup (h : Fenced l1) (hwf : l1.Wf) : Fenced (m.lookup l1 id).2 := by
  have hentry : Fenced (if m.l1On then l1.get id m.now else (none, l1)).2 := by
    split_ifs
    · exact h.get hwf
    · exact h
  simp only [Moment.lookup]
  split
  · exact hentry
  · split
    · exact hentry.delete
    · exact hentry

theorem onward_multiGet (ids : List Uuid) : Onward l1 (l1.multiGet ids now).2 := by
  induction ids generalizing l1 with
  | nil => exact Onward.refl l1
  | cons first rest ih => exact onward_get.trans ih

theorem Fenced.multiGet (h : Fenced l1) (hwf : l1.Wf) (ids : List Uuid) : Fenced (l1.multiGet ids now).2 := by
  induction ids generalizing l1 with
  | nil => exact h
  | cons first rest ih => exact ih (h.get hwf) hwf.get

theorem onward_takeHits (entries : List (Uuid × Option Held)) (batch : Batch) :
    Onward batch.l1 (takeHits entries batch).l1 := by
  induction entries generalizing batch with
  | nil => exact Onward.refl _
  | cons first rest ih =>
    obtain ⟨id, entry⟩ := first
    simp only [takeHits]
    split
    next data _ => exact ih { batch with out := Function.update batch.out id (some (normalizeSnap data)) }
    next =>
      split_ifs
      · exact onward_delete.trans (ih { batch with pending := batch.pending ++ [id], l1 := batch.l1.delete id })
      · exact ih { batch with pending := batch.pending ++ [id] }

theorem fenced_takeHits (entries : List (Uuid × Option Held)) (batch : Batch) (h : Fenced batch.l1) :
    Fenced (takeHits entries batch).l1 := by
  induction entries generalizing batch with
  | nil => exact h
  | cons first rest ih =>
    obtain ⟨id, entry⟩ := first
    simp only [takeHits]
    split
    next => exact ih _ h
    next =>
      split_ifs
      · exact ih _ h.delete
      · exact ih _ h

theorem onward_putL1 (parseInt : Text → Option ℤ) (data : Fields) (sv : ℤ) :
    Onward l1 (putL1 parseInt l1 id data sv t ttl now) := by
  simp only [putL1]
  split_ifs
  · exact onward_get
  · exact onward_get.trans (onward_set _)

theorem Fenced.putL1 (parseInt : Text → Option ℤ) (h : Fenced l1) (hwf : l1.Wf) {data : Fields} {sv : ℤ}
    (hlate : l1.dropped id < t) : Fenced (putL1 parseInt l1 id data sv t ttl now) := by
  have hdropped : (l1.get id now).2.dropped = l1.dropped := onward_get.kept (by simp)
  simp only [UserCache.putL1]
  split_ifs
  · exact h.get hwf
  · exact (h.get hwf).set hwf.get (by rw [hdropped]; exact hlate)

/-! ## The invariant -/

structure Inv (s : Process) : Prop where
  wf : s.l1.Wf
  fenced : Fenced s.l1
  past : ∀ id, s.l1.dropped id ≤ s.l1.clock
  reading : ∀ r reading, s.reads r = some reading → reading.revision ≤ s.l1.revision ∧
    ∀ readAt answer, reading.answered = some (readAt, answer) → ∀ id, Guards s.l1 reading.revision readAt id
  filling : ∀ w fill, s.fills w = some fill → ∀ revision loadedAt data sv, fill.revision = some revision →
    fill.loaded = some (loadedAt, data, sv) → Guards s.l1 revision loadedAt fill.id

/-- the user was not invalidated here between the load of a fill and the moment it keeps the revision, if it goes on -/
def Op.Clean (s : Process) : Op → Prop
  | .capture w =>
    ∀ fill loadedAt data sv changes epoch stored, s.fills w = some fill → fill.loaded = some (loadedAt, data, sv) →
      fill.watched = some (changes, epoch, stored) → (∀ version ∈ stored, version ≤ sv) → epoch = fill.expected →
      s.l1.dropped fill.id < loadedAt
  | _ => True

/-- every step of the run meets its condition -/
def AllClean (l1On : Bool) (parseInt : Text → Option ℤ) (s : Process) : List Op → Prop
  | [] => True
  | op :: ops => op.Clean s ∧ AllClean l1On parseInt (step l1On parseInt s op) ops

variable {s : Process}

/-- a new step: what has been invalidated was invalidated before it -/
def Process.tick (s : Process) : Process := { s with l1 := { s.l1 with clock := s.l1.clock + 1 } }

theorem Inv.tick (h : Inv s) : Inv s.tick ∧ ∀ id, s.tick.l1.dropped id < s.tick.l1.clock :=
  ⟨⟨⟨h.wf.keyed, h.wf.bounded, h.wf.recent, h.wf.past⟩, h.fenced, fun id => Nat.le_succ_of_le (h.past id), h.reading,
    h.filling⟩, fun id => Nat.lt_succ_of_le (h.past id)⟩

/-- a step that only acts on L1 -/
theorem Inv.onL1 (h : Inv s) {l1 : L1 Uuid Held} (hon : Onward s.l1 l1) (hfenced : Fenced l1) :
    Inv { s with l1 := l1 } := by
  refine ⟨hon.wf h.wf, hfenced, fun id => ?_, fun r reading hr => ?_, fun w fill hw revision loadedAt data sv hrev hload => ?_⟩
  · rw [hon.clock]
    exact hon.past h.past id
  · obtain ⟨hle, hguard⟩ := h.reading r reading hr
    exact ⟨le_trans hle hon.revision, fun readAt answer hanswer id => (hguard readAt answer hanswer id).onward hon⟩
  · exact (h.filling w fill hw revision loadedAt data sv hrev hload).onward hon

/-- a read is begun, answered or ended -/
theorem Inv.onRead (h : Inv s) {r : ℕ} {reading : Option Reading}
    (hnew : ∀ x, reading = some x → x.revision ≤ s.l1.revision ∧
      ∀ readAt answer, x.answered = some (readAt, answer) → ∀ id, Guards s.l1 x.revision readAt id) :
    Inv { s with reads := Function.update s.reads r reading } := by
  refine { h with reading := fun q x hq => ?_ }
  by_cases hqr : q = r
  · subst hqr
    exact hnew x (by simpa using hq)
  · exact h.reading q x (by simpa [Function.update_of_ne hqr] using hq)

/-- a fill is begun, goes on or ends -/
theorem Inv.onFill (h : Inv s) {w : ℕ} {fill : Option Fill}
    (hnew : ∀ x, fill = some x → ∀ revision loadedAt data sv, x.revision = some revision →
      x.loaded = some (loadedAt, data, sv) → Guards s.l1 revision loadedAt x.id) :
    Inv { s with fills := Function.update s.fills w fill } := by
  refine { h with filling := fun q x hq => ?_ }
  by_cases hqw : q = w
  · subst hqw
    exact hnew x (by simpa using hq)
  · exact h.filling q x (by simpa [Function.update_of_ne hqw] using hq)

/-- Redis changes -/
theorem Inv.onRedis (h : Inv s) (epoch stored : Uuid → Option ℤ) (changes : Uuid → ℕ) :
    Inv { s with epoch := epoch, stored := stored, changes := changes } :=
  ⟨h.wf, h.fenced, h.past, h.reading, h.filling⟩

theorem Inv.onNow (h : Inv s) (now : ℚ) : Inv { s with now := now } :=
  ⟨h.wf, h.fenced, h.past, h.reading, h.filling⟩

theorem onward_clear : Onward l1 l1.clear :=
  ⟨rfl, Nat.le_succ _, fun heq => absurd heq (Nat.succ_ne_self _), fun _ _ => le_rfl, fun _ => L1.wf_clear l1,
    rfl⟩

variable {l1On : Bool} {parseInt : Text → Option ℤ}

/-- what a step does to L1 -/
theorem onward_step (op : Op) : Onward s.tick.l1 (step l1On parseInt s op).l1 := by
  cases op with
  | invalidate id => exact onward_delete
  | clear => exact onward_clear
  | beginOne r id =>
    have hon : Onward s.tick.l1 ((s.tick.moment l1On parseInt 0 fun _ => 0).lookup s.tick.l1 id).2 := onward_lookup
    simp only [step]
    split
    next heq =>
      rw [show (s.tick.moment l1On parseInt 0 fun _ => 0).lookup s.tick.l1 id = _ from heq] at hon
      exact hon
    next heq =>
      rw [show (s.tick.moment l1On parseInt 0 fun _ => 0).lookup s.tick.l1 id = _ from heq] at hon
      exact hon
  | beginMany r ids =>
    have hon : Onward s.tick.l1
        (if l1On then s.tick.l1.multiGet ids s.tick.now else (ids.map fun _ => none, s.tick.l1)).2 := by
      split_ifs
      · exact onward_multiGet ids
      · exact Onward.refl _
    exact hon.trans (onward_takeHits _ ⟨[], fun _ => none, [], _⟩)
  | finish r ttl =>
    simp only [step]
    split
    next => exact onward_fillEach _ _
    next => exact Onward.refl _
  | capture w =>
    simp only [step]
    split
    next =>
      split
      next =>
        split_ifs
        · exact Onward.refl _
        · exact Onward.refl _
      next => exact Onward.refl _
    next => exact Onward.refl _
  | exec w =>
    simp only [step]
    split
    next =>
      split
      next =>
        split_ifs
        · exact Onward.refl _
        · exact Onward.refl _
      next => exact Onward.refl _
    next => exact Onward.refl _
  | put w ttl =>
    simp only [step]
    split
    next =>
      split
      next =>
        split_ifs
        · exact onward_putL1 _ _ _
        · exact Onward.refl _
      next => exact Onward.refl _
    next => exact Onward.refl _
  | beginFill w id first failed =>
    simp only [step]
    split_ifs
    · exact Onward.refl _
    · exact Onward.refl _
    · exact Onward.refl _
  | _ => exact Onward.refl _

/-- a read that is begun after its look into L1 -/
theorem Inv.begins (h : Inv s) {l1 : L1 Uuid Held} (hon : Onward s.l1 l1) (hfenced : Fenced l1) (r : ℕ)
    (pending : List Uuid) :
    Inv { s with l1 := l1, reads := Function.update s.reads r (some ⟨pending, l1.revision, none⟩) } := by
  refine (h.onL1 hon hfenced).onRead fun x hx => ?_
  cases hx
  exact ⟨le_rfl, fun readAt answer hanswer => by cases hanswer⟩

/-- the step lemma of the invariant -/
theorem Inv.step (h : Inv s) (op : Op) (hclean : op.Clean s) : Inv (step l1On parseInt s op) := by
  obtain ⟨htick, hbefore⟩ := h.tick
  cases op with
  | advance later => exact htick.onNow _
  | invalidate id => exact htick.onL1 onward_delete htick.fenced.delete
  | clear => exact htick.onL1 onward_clear fun e he => by cases he
  | incr id => exact htick.onRedis _ _ _
  | store id sv => exact htick.onRedis _ _ _
  | lose => exact htick.onRedis _ _ _
  | beginOne r id =>
    have hon : Onward s.tick.l1 ((s.tick.moment l1On parseInt 0 fun _ => 0).lookup s.tick.l1 id).2 := onward_lookup
    have hfenced : Fenced ((s.tick.moment l1On parseInt 0 fun _ => 0).lookup s.tick.l1 id).2 :=
      htick.fenced.lookup htick.wf
    simp only [UserCache.step]
    split
    next heq =>
      rw [show (s.tick.moment l1On parseInt 0 fun _ => 0).lookup s.tick.l1 id = _ from heq] at hon hfenced
      exact htick.onL1 hon hfenced
    next heq =>
      rw [show (s.tick.moment l1On parseInt 0 fun _ => 0).lookup s.tick.l1 id = _ from heq] at hon hfenced
      exact htick.begins hon hfenced r [id]
  | beginMany r ids =>
    have hon : Onward s.tick.l1
        (if l1On then s.tick.l1.multiGet ids s.tick.now else (ids.map fun _ => none, s.tick.l1)).2 := by
      split_ifs
      · exact onward_multiGet ids
      · exact Onward.refl _
    have hfenced : Fenced (if l1On then s.tick.l1.multiGet ids s.tick.now else (ids.map fun _ => none, s.tick.l1)).2 := by
      split_ifs
      · exact htick.fenced.multiGet htick.wf ids
      · exact htick.fenced
    exact htick.begins (hon.trans (onward_takeHits _ ⟨[], fun _ => none, [], _⟩)) (fenced_takeHits _ _ hfenced) r _
  | answer r answer =>
    refine htick.onRead fun x hx => ?_
    obtain ⟨reading, hreading, rfl⟩ := Option.map_eq_some_iff.1 hx
    have hle := (htick.reading r reading hreading).1
    refine ⟨hle, fun readAt a hanswer id => ⟨hle, fun _ => ?_⟩⟩
    cases hanswer
    exact hbefore id
  | finish r ttl =>
    simp only [UserCache.step]
    split
    next pending revision readAt answer hreading =>
      have hguard := (htick.reading r _ hreading).2 readAt answer rfl
      exact (htick.onL1 (onward_fillEach _ _) (htick.fenced.fillEach htick.wf hguard)).onRead fun x hx => by cases hx
    next => exact htick
  | beginFill w id first failed =>
    simp only [UserCache.step]
    split_ifs
    · exact htick.onFill fun x hx revision loadedAt data sv hrevision => by
        cases hx
        cases hrevision
    · exact (htick.onRedis _ _ _).onFill fun x hx revision loadedAt data sv hrevision => by
        cases hx
        cases hrevision
    · exact (htick.onRedis _ _ _).onFill fun x hx revision loadedAt data sv hrevision => by
        cases hx
        cases hrevision
  | load w data sv =>
    refine htick.onFill fun x hx revision loadedAt data sv hrevision => ?_
    obtain ⟨fill, _, rfl⟩ := Option.map_eq_some_iff.1 hx
    cases hrevision
  | watch w =>
    refine htick.onFill fun x hx revision loadedAt data sv hrevision => ?_
    obtain ⟨fill, _, rfl⟩ := Option.map_eq_some_iff.1 hx
    cases hrevision
  | capture w =>
    simp only [UserCache.step]
    split
    next fill hfill =>
      split
      next loadedAt data sv changes epoch stored hload hwatch =>
        split_ifs with hrefused
        · exact htick.onFill fun x hx => by cases hx
        · refine htick.onFill fun x hx revision loadedAt' data' sv' hrevision hload' => ?_
          cases hx
          cases hrevision
          rw [show fill.loaded = _ from hload'] at hload
          cases hload
          have hlate := hclean fill loadedAt data sv changes epoch stored hfill hload' hwatch
            (fun version hversion => not_lt.1 fun hgt => hrefused (Or.inl ⟨version, hversion, hgt⟩))
            (not_not.1 fun hne => hrefused (Or.inr hne))
          exact ⟨le_rfl, fun _ => hlate⟩
      next => exact htick
    next => exact htick
  | exec w =>
    simp only [UserCache.step]
    split
    next fill hfill =>
      split
      next =>
        split_ifs
        · refine (htick.onRedis _ _ _).onFill fun x hx => ?_
          cases hx
          exact fun revision loadedAt data sv hrevision hload =>
            htick.filling w fill hfill revision loadedAt data sv hrevision hload
        · exact htick.onFill fun x hx revision loadedAt data sv hrevision => by
            cases hx
            cases hrevision
      next => exact htick
    next => exact htick
  | put w ttl =>
    simp only [UserCache.step]
    split
    next fill hfill =>
      split
      next loadedAt data sv revision hload hrevision _ =>
        have hguard := htick.filling w fill hfill revision loadedAt data sv hrevision hload
        split_ifs with hsame
        · exact (htick.onL1 (onward_putL1 _ _ _)
            (htick.fenced.putL1 parseInt htick.wf (hguard.2 hsame.2))).onFill fun x hx => by cases hx
        · exact (htick.onL1 (Onward.refl _) htick.fenced).onFill fun x hx => by cases hx
      next => exact htick
    next => exact htick

/-- the run lemma -/
theorem inv_run (h : Inv s) (ops : List Op) (hclean : AllClean l1On parseInt s ops) : Inv (run l1On parseInt s ops) := by
  induction ops generalizing s with
  | nil => exact h
  | cons op ops ih => exact ih (h.step op hclean.1) hclean.2

variable (l1On parseInt) in
theorem wf_run (h : s.l1.Wf) (ops : List Op) :
    (run l1On parseInt s ops).l1.Wf ∧ (run l1On parseInt s ops).l1.maxsize = s.l1.maxsize := by
  induction ops generalizing s with
  | nil => exact ⟨h, rfl⟩
  | cons op ops ih =>
    have hon : Onward s.tick.l1 (step l1On parseInt s op).l1 := onward_step op
    obtain ⟨hwf, hmaxsize⟩ := ih (hon.wf ⟨h.keyed, h.bounded, h.recent, h.past⟩)
    exact ⟨hwf, hmaxsize.trans hon.maxsize⟩

theorem inv_start (maxsize : ℕ) (now : ℚ) (epoch stored : Uuid → Option ℤ) : Inv (start maxsize now epoch stored) :=
  ⟨⟨List.nodup_nil, Nat.zero_le _, List.Pairwise.nil, by simp [start]⟩, by simp [Fenced, start], by simp [start],
    by simp [start], by simp [start]⟩

/-- what L1 is in every state -/
structure Bounded (maxsize : ℕ) (s : Process) : Prop where
  bounded : s.l1.data.length ≤ max 1 maxsize
  /-- what is returned has not expired -/
  live : ∀ id value, (s.l1.get id s.now).1 = some value →
    ∃ deadline, (id, ⟨deadline, value⟩) ∈ s.l1.data ∧ s.now < deadline
  /-- what an insertion drives out was last used before all that stays -/
  lru : ∀ id value ttl, 0 < ttl → ∀ gone ∈ s.l1.data, gone.1 ≠ id → gone ∉ (s.l1.set id (some value) ttl s.now).data →
    ∀ kept ∈ (s.l1.set id (some value) ttl s.now).data,
      (s.l1.set id (some value) ttl s.now).used gone.1 < (s.l1.set id (some value) ttl s.now).used kept.1
  multi : ∀ ids, s.l1.multiGet ids s.now = s.l1.getEach ids s.now

/-- **L1.** In every state that the process reaches, L1 has its bound and its order, returns nothing expired, and reads
many keys as it reads them one by one. When every fill of the run is `Clean`, no value in L1 was read or loaded before
its user was last invalidated here. -/
theorem never_resurrects (l1On : Bool) (parseInt : Text → Option ℤ) (maxsize : ℕ) (now : ℚ) (epoch stored : Uuid → Option ℤ)
    (ops : List Op) :
    Bounded maxsize (run l1On parseInt (start maxsize now epoch stored) ops) ∧
      (AllClean l1On parseInt (start maxsize now epoch stored) ops →
        Fenced (run l1On parseInt (start maxsize now epoch stored) ops).l1) := by
  have hstart := inv_start maxsize now epoch stored
  obtain ⟨hwf, hmaxsize⟩ := wf_run l1On parseInt hstart.wf ops
  refine ⟨⟨?_, fun id value hvalue => (L1.get_eq_some hwf.keyed).1 hvalue, ?_, fun ids => L1.multiGet_eq ids⟩,
    fun hclean => (inv_run hstart ops hclean).fenced⟩
  · exact le_of_le_of_eq hwf.bounded hmaxsize
  · exact fun id value ttl httl gone hgone hother hout kept hkept => L1.set_evicts hwf httl hgone hother hout hkept

/-- a process with L1 on, over an empty Redis -/
def runEmpty (ops : List Op) : Process := run true (fun _ => none) (start 10 0 (fun _ => none) fun _ => none) ops

theorem never_resurrects_demo :
    Fenced (runEmpty [.beginFill 0 7 100 false, .load 0 [] 1, .watch 0, .capture 0, .exec 0, .put 0 10, .invalidate 7]).l1 :=
  (never_resurrects true (fun _ => none) 10 0 (fun _ => none) (fun _ => none) _).2
    ⟨trivial, trivial, trivial, fun fill loadedAt data sv changes epoch stored hfill hload _ _ _ => by
      cases hfill
      cases hload
      decide, trivial, trivial, trivial, trivial⟩

/-- the invalidation is in Redis before the fill keeps the epoch, and its broadcast comes after the load -/
def lateBroadcast : List Op :=
  [.incr 7, .beginFill 0 7 100 false, .load 0 [] 1, .invalidate 7, .watch 0, .capture 0, .exec 0, .put 0 10]

/-- the epoch could not be read, and Redis starts empty after the invalidation -/
def lostEpoch : List Op :=
  [.beginFill 0 7 100 true, .load 0 [] 1, .incr 7, .invalidate 7, .lose, .watch 0, .capture 0, .exec 0, .put 0 10]

/-- A value that was loaded in step 3 is put into L1 after its user was invalidated there in step 4; in the second run
it is the value of step 2, which the invalidation of the steps 3 and 4 was for. -/
theorem resurrected :
    ((runEmpty lateBroadcast).l1.data.map (fun e => (e.1, e.2.value.readAt)) = [(7, 3)] ∧
      (runEmpty lateBroadcast).l1.dropped 7 = 4 ∧ ¬ Fenced (runEmpty lateBroadcast).l1) ∧
    ((runEmpty lostEpoch).l1.data.map (fun e => (e.1, e.2.value.readAt)) = [(7, 2)] ∧
      (runEmpty lostEpoch).l1.dropped 7 = 4) := by
  have hdata : (runEmpty lateBroadcast).l1.data.map (fun e => (e.1, e.2.value.readAt)) = [(7, 3)] := by
    decide
  have hdropped : (runEmpty lateBroadcast).l1.dropped 7 = 4 := by
    decide
  refine ⟨⟨hdata, hdropped, fun h => ?_⟩, by decide, by decide⟩
  obtain ⟨e, he, hpair⟩ := List.mem_map.1 (hdata ▸ List.mem_singleton_self ((7, 3) : Uuid × ℕ))
  have hlate := h e he
  rw [show e.1 = 7 from congrArg Prod.fst hpair, hdropped, show e.2.value.readAt = 3 from congrArg Prod.snd hpair] at hlate
  exact absurd hlate (by decide)

end LkmService.UserCache
