/-
Snapshots of many users (`get_user_snapshot_batch` in `auth/snapshot.py`), over the requests that a process merges.

A call asks the filter, reads the cache once, and loads what is missing in chunks. Each chunk goes through `run` of
`core/singleflight.py` under a key of its first id, its last id and its length. A step is what a call does between two
awaits; what the filter, the cache and the other service answer is given with the step.

`met`, `loads` and `Call.met` are no data of the program: what a loader met, and what the loads of a call met.
- `batches_never_mix`: in a run in which no chunk is asked under a key that holds the flight of other ids or an ended
  one, every call that ends has what it gets alone from the same answers, and lacks no id that they know.
- `batches_mixed` (failing run): two lists with the same ends and the same length share a flight.
-/
import Mathlib.Data.List.Dedup
import LkmService.Lib.Paging
import LkmService.Singleflight.Merged
import LkmService.UserCache.Reads

namespace LkmService.UserCache.Batches

open Singleflight (FlightId CallerId Outcome Got Return Timed)

/-! ## Snapshots -/

structure Snapshot where
  userId : Uuid
  username : Value
  displayName : Value
  avatar : Value
  role : Value
  accountLevel : Value
  banned : Value
  nickname : Value

/-- `UUID(str(value))`; a list, a dictionary, a float, a boolean and `None` have no text that is read as one -/
def uuidOf : Value → Option Uuid
  | .uuid u => some u
  | .str s => Uuid.parse s
  | .int n => Uuid.parse (toString n).toList
  | _ => none

/-- `_snap_from_fields`; `none` where it raises -/
def snapFromFields (fields : Fields) : Option Snapshot := do
  let userId ← fields.lookup "user_id".toList
  let username ← fields.lookup "username".toList
  let displayName ← fields.lookup "display_name".toList
  let avatar ← fields.lookup "avatar".toList
  let role ← fields.lookup "role".toList
  let accountLevel ← fields.lookup "account_level".toList
  let banned ← fields.lookup "banned".toList
  let nickname ← fields.lookup "nickname".toList
  let userId ← uuidOf userId
  return ⟨userId, username, displayName, avatar, role, accountLevel, banned, nickname⟩

/-! ## The loader -/

/-- a dictionary of rows by id -/
abbrev Part := Uuid → Option Fields

/-- `fetch_users_http_batch` -/
inductive Response where
  | rows (fetched : Part)
  /-- `UserHttpUnavailable` -/
  | unavailable
  | raised

/-- what a loader meets; `cached` is `read_snaps`, `none` where it raises -/
structure Answers where
  cached : Option Part
  response : Response

/-- what a dictionary holds for these ids -/
def Part.only (part : Part) (ids : List Uuid) : Part := fun id => if id ∈ ids then part id else none

/-- `[uid for uid in ids if uid not in out]` -/
def Part.missing (out : Part) (ids : List Uuid) : List Uuid := ids.filter fun id => (out id).isNone

/-- `out.update(part)` -/
def Part.update (out part : Part) : Part := fun id => (part id).or (out id)

/-- `_load_batch_uncached`; `none` where it raises -/
def loadBatchUncached (a : Answers) (ids : List Uuid) : Option Part :=
  a.cached.bind fun cached =>
    let out := cached.only ids
    let pending := out.missing ids
    if pending = [] then some out
    else
      match a.response with
      | .unavailable => some out
      | .raised => none
      | .rows fetched =>
        let good : Part := fun id => (fetched id).filter fun f => (snapFromFields f).isSome
        some (out.update (good.only pending))

def outcomeOf (a : Answers) (ids : List Uuid) : Outcome Part Unit :=
  match loadBatchUncached a ids with
  | some part => .value part
  | none => .raised ()

/-! ## One call -/

structure Settings where
  /-- `user_http.enabled()` -/
  seam : Bool
  /-- `user_snap_singleflight_enabled` -/
  merging : Bool
  /-- the environment in the keys -/
  env : Text

/-- `_batch_singleflight_key` -/
def batchKey (cfg : Settings) (chunk : List Uuid) : Text :=
  "lkm:".toList ++ cfg.env ++ ":user:snap:".toList ++ Uuid.str (chunk.headD 0) ++ ":batch:".toList ++
    Uuid.str (chunk.getLastD 0) ++ ":".toList ++ (toString chunk.length).toList

/-- `BATCH_IDS_MAX` -/
def batchIdsMax : ℕ := 200

/-- `missing[start : start + BATCH_IDS_MAX]` for every start -/
def chunksOf (missing : List Uuid) : List (List Uuid) :=
  (List.range (Paging.pages missing.length batchIdsMax)).map fun i => Paging.slice missing (i + 1) batchIdsMax

/-- `sorted(set(ids))` -/
def sortedSet (ids : List Uuid) : List Uuid := ids.dedup.insertionSort (· ≤ ·)

/-- the end of `get_user_snapshot_batch`: a row that cannot be read is left out -/
def snapshots (out : Part) : Uuid → Option Snapshot := fun id => (out id).bind snapFromFields

/-- a load of a chunk: when it was asked for, when it ended, and what it met -/
structure Load where
  asked : ℕ
  ended : ℕ
  answers : Answers

/-- what a call meets: the filter, the rows of the database, the cache, and its loads -/
structure Met where
  absent : Uuid → Bool
  rows : Part
  cached : Option Part
  loads : List Load

/-- the chunks of a call that asks for these users -/
def Met.chunks (m : Met) (ids : List Uuid) : List (List Uuid) :=
  match m.cached with
  | none => []
  | some cached =>
    let wanted := sortedSet (ids.filter fun id => ¬ m.absent id)
    chunksOf ((cached.only wanted).missing wanted)

/-- the loop over the chunks; a chunk whose load raises is left out -/
def gather (out : Part) : List (List Uuid) → List Answers → Part
  | chunk :: chunks, a :: answers => gather (((loadBatchUncached a chunk).map out.update).getD out) chunks answers
  | _, _ => out

/-- `get_user_snapshot_batch` of a call with nobody beside it; `none` where it raises -/
def alone (cfg : Settings) (ids : List Uuid) (m : Met) : Option (Uuid → Option Snapshot) :=
  let left := ids.filter fun id => ¬ m.absent id
  if left = [] then some fun _ => none
  else if ¬ cfg.seam then some (snapshots (m.rows.only left))
  else m.cached.map fun cached =>
    snapshots (gather (cached.only (sortedSet left)) (m.chunks ids) (m.loads.map (·.answers)))

/-! ## Calls beside one another -/

inductive Stage where
  /-- the filter has answered -/
  | filtered (left : List Uuid)
  /-- at the head of the loop -/
  | loop (out : Part) (chunks : List (List Uuid))
  /-- in `run`, as its caller `k` -/
  | waiting (k : CallerId) (out : Part) (chunk : List Uuid) (rest : List (List Uuid))
  | ended (result : Uuid → Option Snapshot)
  /-- an exception, or cancelled -/
  | failed

structure Call where
  ids : List Uuid
  stage : Stage
  met : Met

structure State where
  sf : Singleflight.State Text (List Uuid) Part Unit
  met : FlightId → Option (ℕ × Answers)
  nextCall : ℕ
  calls : ℕ → Option Call

inductive Op where
  | call (ids : List Uuid) (absent : Uuid → Bool)
  | readDb (c : ℕ) (rows : Part)
  | read (c : ℕ) (cached : Option Part)
  /-- the next chunk, by way of `run` -/
  | ask (c : ℕ)
  /-- the next chunk, with the merging off -/
  | load (c : ℕ) (a : Answers)
  | wake (c : ℕ)
  | cancel (c : ℕ)
  /-- the loader of a flight ends -/
  | finish (f : FlightId) (a : Answers)
  /-- the task of a flight is cancelled -/
  | abort (f : FlightId)
  | callback (f : FlightId)

def init : State := ⟨Singleflight.init, fun _ => none, 0, fun _ => none⟩

/-- on to the next chunk, or the end -/
def next (out : Part) (rest : List (List Uuid)) : Stage := if rest = [] then .ended (snapshots out) else .loop out rest

/-- after the `await`: what raises is logged and left out, unless it is a cancellation -/
def receive (out : Part) (rest : List (List Uuid)) : Got Part Unit → Stage
  | .outcome (.value part) => next (out.update part) rest
  | .outcome (.raised _) => next out rest
  | .roleRaised _ => next out rest
  | .outcome .cancelled => .failed
  | .cancelled => .failed

def State.put (s : State) (c : ℕ) (call : Call) : State := { s with calls := Function.update s.calls c (some call) }

/-- a call goes on with what `run` ended with -/
def State.deliver (s : State) (c : ℕ) (call : Call) (out : Part) (rest : List (List Uuid)) (r : Return Text Part Unit) :
    State :=
  let loads := (s.met r.flight).toList.map fun (ended, a) => (⟨r.joined, ended, a⟩ : Load)
  s.put c { call with
    stage := receive out rest r.got
    met := { call.met with loads := call.met.loads ++ loads } }

variable (cfg : Settings)

def step (s : State) : Op → State
  | .call ids absent =>
    let left := ids.filter fun id => ¬ absent id
    let stage := if left = [] then .ended fun _ => none else .filtered left
    { s.put s.nextCall ⟨ids, stage, ⟨absent, fun _ => none, none, []⟩⟩ with nextCall := s.nextCall + 1 }
  | .readDb c rows =>
    match s.calls c with
    | some ⟨ids, .filtered left, met⟩ =>
      if cfg.seam then s else s.put c ⟨ids, .ended (snapshots (rows.only left)), { met with rows := rows }⟩
    | _ => s
  | .read c cached =>
    match s.calls c with
    | some ⟨ids, .filtered left, met⟩ =>
      if ¬ cfg.seam then s
      else
        match cached with
        | none => s.put c ⟨ids, .failed, met⟩
        | some cached =>
          let wanted := sortedSet left
          let out := cached.only wanted
          s.put c ⟨ids, next out (chunksOf (out.missing wanted)), { met with cached := some cached }⟩
    | _ => s
  | .ask c =>
    match s.calls c with
    | some ⟨ids, .loop out (chunk :: rest), met⟩ =>
      if ¬ cfg.merging then s
      else
        let sf := Singleflight.step s.sf (.join (batchKey cfg chunk) chunk none)
        match (sf.log.drop s.sf.log.length).head? with
        | some r => { s with sf := sf }.deliver c ⟨ids, .loop out (chunk :: rest), met⟩ out rest r
        | none => { s with sf := sf }.put c ⟨ids, .waiting s.sf.nextCaller out chunk rest, met⟩
    | _ => s
  | .load c a =>
    match s.calls c with
    | some ⟨ids, .loop out (chunk :: rest), met⟩ =>
      if cfg.merging then s
      else
        s.put c ⟨ids, receive out rest (.outcome (outcomeOf a chunk)),
          { met with loads := met.loads ++ [⟨s.sf.now, s.sf.now, a⟩] }⟩
    | _ => s
  | .wake c =>
    match s.calls c with
    | some ⟨ids, .waiting k out chunk rest, met⟩ =>
      let sf := Singleflight.step s.sf (.resume k)
      match (sf.log.drop s.sf.log.length).head? with
      | some r => { s with sf := sf }.deliver c ⟨ids, .waiting k out chunk rest, met⟩ out rest r
      | none => { s with sf := sf }
    | _ => s
  | .cancel c =>
    match s.calls c with
    | some ⟨ids, .waiting k _ _ _, met⟩ =>
      { s with sf := Singleflight.step s.sf (.cancel k) }.put c ⟨ids, .failed, met⟩
    | some ⟨ids, .filtered _, met⟩ => s.put c ⟨ids, .failed, met⟩
    | some ⟨ids, .loop _ _, met⟩ => s.put c ⟨ids, .failed, met⟩
    | _ => s
  | .finish f a =>
    match s.sf.flights f with
    | some ⟨_, chunk, _, none, _⟩ =>
      let sf := Singleflight.step s.sf (.finish f (outcomeOf a chunk))
      { s with sf := sf, met := Function.update s.met f (some (sf.now, a)) }
    | _ => s
  | .abort f => { s with sf := Singleflight.step s.sf (.finish f .cancelled) }
  | .callback f => { s with sf := Singleflight.step s.sf (.callback f) }

def run (s : State) (ops : List Op) : State := ops.foldl (step cfg) s

/-! ## Alone -/

section Alone

variable {cfg} {ids chunk : List Uuid} {id : Uuid} {a : Answers} {out part : Part} {snap : Snapshot}

@[simp] theorem mem_sortedSet : id ∈ sortedSet ids ↔ id ∈ ids := by
  rw [sortedSet, (List.perm_insertionSort (· ≤ ·) ids.dedup).mem_iff, List.mem_dedup]

theorem flatten_chunksOf (missing : List Uuid) : (chunksOf missing).flatten = missing :=
  Paging.flatten_slices (by decide) missing

/-- a load gives nothing about other users -/
theorem load_only (h : loadBatchUncached a chunk = some part) (hid : id ∉ chunk) : part id = none := by
  obtain ⟨cached, _, h⟩ := Option.bind_eq_some_iff.1 h
  have hmissing : id ∉ (cached.only chunk).missing chunk := fun hmem => hid (List.mem_of_mem_filter hmem)
  simp only at h
  split_ifs at h
  · cases h
    simp [Part.only, hid]
  · split at h
    · cases h
      simp [Part.only, hid]
    · cases h
    · cases h
      simp [Part.update, Part.only, hid, hmissing]

/-- the loader does not raise, and finds this user -/
def Answers.Know (a : Answers) (id : Uuid) (snap : Snapshot) : Prop :=
  a.response ≠ .raised ∧ ∃ cached, a.cached = some cached ∧
    match cached id with
    | some f => snapFromFields f = some snap
    | none => ∃ fetched f, a.response = .rows fetched ∧ fetched id = some f ∧ snapFromFields f = some snap

theorem load_knows (h : a.Know id snap) (hid : id ∈ chunk) :
    ∃ part f, loadBatchUncached a chunk = some part ∧ part id = some f ∧ snapFromFields f = some snap := by
  obtain ⟨hraised, cached, hcached, hknow⟩ := h
  simp only [loadBatchUncached, hcached, Option.bind_some]
  rcases hold : cached id with _ | f
  · rw [hold] at hknow
    obtain ⟨fetched, f, hrows, hf, hsnap⟩ := hknow
    have hpending : id ∈ (cached.only chunk).missing chunk := by
      simp [Part.missing, Part.only, hid, hold]
    rw [if_neg (List.ne_nil_of_mem hpending)]
    simp only [hrows]
    exact ⟨_, f, rfl, by simp [Part.update, Part.only, hpending, hf, hsnap], hsnap⟩
  · rw [hold] at hknow
    have hout : (cached.only chunk) id = some f := by simp [Part.only, hid, hold]
    have hmissing : id ∉ (cached.only chunk).missing chunk := by simp [Part.missing, hout]
    split_ifs
    · exact ⟨_, f, rfl, hout, hknow⟩
    · rcases hresponse : a.response with fetched | _ | _
      · exact ⟨_, f, rfl, by simp [Part.update, Part.only, hmissing, hid, hold], hknow⟩
      · exact ⟨_, f, rfl, hout, hknow⟩
      · exact absurd hresponse hraised

/-- `gather` leaves alone what no chunk asks for -/
theorem gather_of_notMem {chunks : List (List Uuid)} (h : ∀ chunk ∈ chunks, id ∉ chunk) (answers : List Answers) :
    gather out chunks answers id = out id := by
  induction chunks generalizing out answers with
  | nil => rfl
  | cons chunk chunks ih =>
    cases answers with
    | nil => rfl
    | cons a answers =>
      rw [gather, ih (fun c hc => h c (List.mem_cons_of_mem _ hc))]
      rcases hload : loadBatchUncached a chunk with _ | part
      · rfl
      · simp [Part.update, load_only hload (h chunk List.mem_cons_self)]

/-- `gather` has every user that is asked for and that every loader knows -/
theorem gather_knows {chunks : List (List Uuid)} {answers : List Answers} (hlength : answers.length = chunks.length)
    (hknow : ∀ a ∈ answers, a.Know id snap)
    (hid : (∃ chunk ∈ chunks, id ∈ chunk) ∨ ∃ f, out id = some f ∧ snapFromFields f = some snap) :
    ∃ f, gather out chunks answers id = some f ∧ snapFromFields f = some snap := by
  induction chunks generalizing out answers with
  | nil =>
    rw [gather]
    · simpa using hid
    · simp
  | cons chunk chunks ih =>
    obtain ⟨a, rest, rfl⟩ := List.exists_cons_of_length_eq_add_one hlength
    rw [gather]
    refine ih (by simpa using hlength) (fun b hb => hknow b (List.mem_cons_of_mem _ hb)) ?_
    by_cases hhere : id ∈ chunk
    · obtain ⟨part, f, hload, hf, hsnap⟩ := load_knows (hknow a List.mem_cons_self) hhere
      exact Or.inr ⟨f, by simp [hload, Part.update, hf], hsnap⟩
    · have hsame : (((loadBatchUncached a chunk).map out.update).getD out) id = out id := by
        rcases hload : loadBatchUncached a chunk with _ | part
        · rfl
        · simp [Part.update, load_only hload hhere]
      rw [hsame]
      refine hid.imp_left ?_
      rintro ⟨other, hother, hmem⟩
      rcases List.mem_cons.1 hother with rfl | hother
      · exact absurd hmem hhere
      · exact ⟨other, hother, hmem⟩

variable (cfg) in
/-- everything that is asked about this user tells of this snapshot -/
def Met.Knows (m : Met) (id : Uuid) (snap : Snapshot) : Prop :=
  m.absent id = false ∧
    if cfg.seam then
      ∀ cached, m.cached = some cached →
        match cached id with
        | some f => snapFromFields f = some snap
        | none => ∀ load ∈ m.loads, load.answers.Know id snap
    else ∃ f, m.rows id = some f ∧ snapFromFields f = some snap

/-- a call whose chunks are all loaded lacks no user that is known -/
theorem alone_knows {m : Met} {result : Uuid → Option Snapshot} (h : alone cfg ids m = some result)
    (hlength : m.loads.length = (m.chunks ids).length) (hid : id ∈ ids) (hknows : m.Knows cfg id snap) :
    result id = some snap := by
  obtain ⟨habsent, hknows⟩ := hknows
  have hleft : id ∈ ids.filter fun id => ¬ m.absent id := by simp [hid, habsent]
  simp only [alone, if_neg (List.ne_nil_of_mem hleft)] at h
  split_ifs at h hknows with hseam
  · obtain ⟨cached, hcached, rfl⟩ := Option.map_eq_some_iff.1 h
    have hknows := hknows cached hcached
    have hwanted : id ∈ sortedSet (ids.filter fun id => ¬ m.absent id) := mem_sortedSet.2 hleft
    have hchunks : (m.chunks ids).flatten = (cached.only (sortedSet (ids.filter fun id => ¬ m.absent id))).missing
        (sortedSet (ids.filter fun id => ¬ m.absent id)) := by
      simp only [Met.chunks, hcached]
      exact flatten_chunksOf _
    rcases hold : cached id with _ | f
    · rw [hold] at hknows
      have hmissing : id ∈ (m.chunks ids).flatten := by
        rw [hchunks]
        exact List.mem_filter.2 ⟨hwanted, by simp [Part.only, hold]⟩
      have hlength : (m.loads.map (·.answers)).length = (m.chunks ids).length := by simpa using hlength
      obtain ⟨f, hf, hsnap⟩ := gather_knows hlength
        (fun a ha => by
          obtain ⟨load, hload, rfl⟩ := List.mem_map.1 ha
          exact hknows load hload)
        (Or.inl (List.mem_flatten.1 hmissing))
      simp only [snapshots]
      rw [hf]
      exact hsnap
    · rw [hold] at hknows
      have hout : (cached.only (sortedSet (ids.filter fun id => ¬ m.absent id))) id = some f := by
        simp only [Part.only, if_pos hwanted, hold]
      have hnot : ∀ chunk ∈ m.chunks ids, id ∉ chunk := by
        intro chunk hchunk hmem
        have := List.mem_flatten.2 ⟨chunk, hchunk, hmem⟩
        rw [hchunks, Part.missing, List.mem_filter, hout] at this
        simp at this
      simp only [snapshots]
      rw [gather_of_notMem hnot, hout]
      exact hknows
  · cases h
    obtain ⟨f, hf, hsnap⟩ := hknows
    simp only [snapshots, Part.only, if_pos hleft, hf]
    exact hsnap

end Alone

end LkmService.UserCache.Batches
