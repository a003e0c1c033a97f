/-
The two readings of the user snapshots (`core/user_cache.py`).

`readSnapState` reads one key, `readSnapsState` many with one MGET. Both are taken at one moment: what Redis and the
filter answer then is in `Moment`. A key of L1 stands for `_snap_key` of the user. One backend serves all the keys
`user:snap`. A payload is what `json.loads` makes of it, `none` where it raises.

`batch_agrees_iff`: the batch reading raises nothing and gives each id what the single one gives, exactly when every id
that L1 does not serve meets `Fits`. `batch_disagrees` holds the inputs where it does not: a cached user whom the filter
denies, a filter that answers while Redis does not, a payload that is no object, and an infinite version.
-/
import LkmService.Lib.Uuid
import LkmService.UserCache.LocalCache

namespace LkmService.UserCache

open OrderedDict

/-! ## Values -/

/-- a value of Python, as JSON gives it; `uuid` is what `_normalize_snap` makes of the user id -/
inductive Value where
  | null
  | bool (b : Bool)
  | int (n : ℤ)
  | float (q : ℚ)
  | infinite (negative : Bool)
  | nan
  | str (s : Text)
  | list (items : List Value)
  | dict (fields : List (Text × Value))
  | uuid (u : Uuid)

abbrev Fields := List (Text × Value)

/-- `bool(value)` -/
def Value.truthy : Value → Bool
  | .null => false
  | .bool b => b
  | .int n => n ≠ 0
  | .float q => q ≠ 0
  | .infinite _ => true
  | .nan => true
  | .str s => s ≠ []
  | .list items => ¬ items.isEmpty
  | .dict fields => ¬ fields.isEmpty
  | .uuid _ => true

/-- `fields.get(key)` -/
def dictGet (fields : Fields) (key : String) : Value := (fields.lookup key.toList).getD .null

/-- `_to_int`; the overflow of an infinite number is not caught there -/
def Value.toInt (parseInt : Text → Option ℤ) : Value → Option ℤ
  | .null => some 0
  | .bool b => some (if b then 1 else 0)
  | .int n => some n
  | .float q => some (q.num.tdiv q.den)
  | .infinite _ => none
  | .nan => some 0
  | .str s => some ((parseInt s).getD 0)
  | .list _ => some 0
  | .dict _ => some 0
  | .uuid u => some u.val

/-- `_normalize_snap` -/
def normalizeSnap (data : Fields) : Fields :=
  match dictGet data "user_id" with
  | .str uid =>
    match Uuid.parse uid with
    | some u => data.map fun field => if field.1 = "user_id".toList then (field.1, .uuid u) else field
    | none => data
  | _ => data

/-! ## The moment -/

/-- an entry of L1; `readAt` is no data of the program, it says in which step the value was read -/
structure Held where
  value : Value
  readAt : ℕ

structure Moment where
  /-- `_get_redis` has a client -/
  redis : Bool
  /-- `_l1_on` -/
  l1On : Bool
  now : ℚ
  step : ℕ
  /-- what GET and MGET answer; `none` when the command fails -/
  answer : Option (Uuid → Option (Option Value))
  /-- `definitely_absent` -/
  absent : Uuid → Bool
  /-- `jitter_ttl` -/
  ttl : Uuid → ℚ
  /-- `int` of a text -/
  parseInt : Text → Option ℤ

/-- the snapshot that an entry of L1 holds -/
def hit (entry : Option Held) : Option Fields :=
  match entry with
  | some ⟨.dict fields, _⟩ =>
    match dictGet fields "data" with
    | .dict data => some data
    | _ => none
  | _ => none

/-- `_to_int(sv) if sv is not None else None`; the outer `none` is the overflow -/
def Moment.version (m : Moment) (payload : Fields) : Option Value :=
  match dictGet payload "sv" with
  | .null => some .null
  | sv => (sv.toInt m.parseInt).map .int

/-- the backfill after L2 has answered -/
def Moment.backfill (m : Moment) (id : Uuid) (sv : Value) (data : Fields) (revision : ℕ) (l1 : L1 Uuid Held) :
    L1 Uuid Held :=
  (l1.setIfUnchanged id (some ⟨.dict [("sv".toList, sv), ("data".toList, .dict data)], m.step⟩) (m.ttl id) revision
    m.now).2

/-! ## One key -/

/-- what `read_snap_state` makes of a payload; every exception is caught, and is a miss -/
def Moment.decodeOne (m : Moment) (id : Uuid) (revision : ℕ) (payload : Option Value) (l1 : L1 Uuid Held) :
    (Bool × Option Fields) × L1 Uuid Held :=
  match payload with
  | some (.dict payload) =>
    if (dictGet payload "neg").truthy then ((true, none), l1)
    else
      match dictGet payload "data" with
      | .dict data =>
        let data := normalizeSnap data
        if m.l1On then
          match m.version payload with
          | none => ((false, none), l1)
          | some sv => ((false, some data), m.backfill id sv data revision l1)
        else ((false, some data), l1)
      | _ => ((false, none), l1)
  | _ => ((false, none), l1)

/-- up to the GET: the snapshot in L1; an entry that is a dict and holds none is dropped -/
def Moment.lookup (m : Moment) (l1 : L1 Uuid Held) (id : Uuid) : Option Fields × L1 Uuid Held :=
  let (entry, l1) := if m.l1On then l1.get id m.now else (none, l1)
  match hit entry with
  | some data => (some data, l1)
  | none =>
    match entry with
    | some ⟨.dict _, _⟩ => (none, l1.delete id)
    | _ => (none, l1)

/-- `(negative, data)` -/
def readSnapState (m : Moment) (l1 : L1 Uuid Held) (id : Uuid) : (Bool × Option Fields) × L1 Uuid Held :=
  if ¬ m.redis then ((false, none), l1)
  else
    match m.lookup l1 id with
    | (some data, l1) => ((false, some (normalizeSnap data)), l1)
    | (none, l1) =>
      match m.answer with
      | none => ((false, none), l1)
      | some answer =>
        match answer id with
        | none => ((m.absent id, none), l1)
        | some payload => m.decodeOne id l1.revision payload l1

/-! ## Many keys -/

/-- the loop over the answers of MGET raises at this payload -/
def Moment.raises (m : Moment) (payload : Option Value) : Bool :=
  match payload with
  | none => false
  | some (.dict payload) =>
    ¬ (dictGet payload "neg").truthy &&
      match dictGet payload "data" with
      | .dict _ => m.l1On && (m.version payload).isNone
      | _ => false
  | some _ => true

/-- `negative`, `out`, and the ids that are still to be asked -/
structure Batch where
  negative : List Uuid
  out : Uuid → Option Fields
  pending : List Uuid
  l1 : L1 Uuid Held

/-- the loop over the entries of L1 -/
def takeHits : List (Uuid × Option Held) → Batch → Batch
  | [], b => b
  | (id, entry) :: rest, b =>
    match hit entry with
    | some data => takeHits rest { b with out := Function.update b.out id (some (normalizeSnap data)) }
    | none =>
      let l1 := if entry.isSome then b.l1.delete id else b.l1
      takeHits rest { b with pending := b.pending ++ [id], l1 := l1 }

/-- the loop over the answers of MGET; `none` where it raises -/
def Moment.decodeEach (m : Moment) (revision : ℕ) (answer : Uuid → Option (Option Value)) :
    List Uuid → Batch → Option Batch
  | [], b => some b
  | id :: rest, b =>
    match answer id with
    | none => m.decodeEach revision answer rest b
    | some none => m.decodeEach revision answer rest b
    | some (some (.dict payload)) =>
      if (dictGet payload "neg").truthy then m.decodeEach revision answer rest { b with negative := b.negative ++ [id] }
      else
        match dictGet payload "data" with
        | .dict data =>
          let data := normalizeSnap data
          let out := Function.update b.out id (some data)
          if m.l1On then
            match m.version payload with
            | none => none
            | some sv =>
              m.decodeEach revision answer rest { b with out := out, l1 := m.backfill id sv data revision b.l1 }
          else m.decodeEach revision answer rest { b with out := out }
        | _ => m.decodeEach revision answer rest b
    -- `payload.get` of what is no dict
    | some (some _) => none

/-- up to the MGET: the hits of L1, and the filter -/
def Moment.filtered (m : Moment) (l1 : L1 Uuid Held) (ids : List Uuid) : Batch :=
  let (entries, l1) := if m.l1On then l1.multiGet ids m.now else (ids.map fun _ => none, l1)
  let b := takeHits (ids.zip entries) ⟨[], fun _ => none, [], l1⟩
  { b with
    negative := b.negative ++ b.pending.filter fun id => m.absent id
    pending := b.pending.filter fun id => ¬ m.absent id }

/-- `read_snaps_state`: `(negative_ids, data_map)`; `none` where it raises -/
def readSnapsState (m : Moment) (l1 : L1 Uuid Held) (ids : List Uuid) :
    Option ((List Uuid × (Uuid → Option Fields)) × L1 Uuid Held) :=
  if ids = [] ∨ ¬ m.redis then some (([], fun _ => none), l1)
  else
    let b := m.filtered l1 ids
    if b.pending = [] then some ((b.negative, b.out), b.l1)
    else
      match m.answer with
      | none => some ((b.negative, b.out), b.l1)
      | some answer => (m.decodeEach b.l1.revision answer b.pending b).map fun b => ((b.negative, b.out), b.l1)

/-! ## What the readings give -/

variable {m : Moment} {l1 : L1 Uuid Held} {id : Uuid} {ids : List Uuid}

/-- what L1 holds of the user now -/
def Moment.entry (m : Moment) (l1 : L1 Uuid Held) (id : Uuid) : Option Held :=
  if m.l1On then (l1.get id m.now).1 else none

/-- what a payload gives -/
def Moment.reads (m : Moment) (payload : Option Value) : Bool × Option Fields :=
  match payload with
  | some (.dict payload) =>
    if (dictGet payload "neg").truthy then (true, none)
    else
      match dictGet payload "data" with
      | .dict data => if m.l1On ∧ m.version payload = none then (false, none) else (false, some (normalizeSnap data))
      | _ => (false, none)
  | _ => (false, none)

theorem decodeOne_fst (revision : ℕ) (payload : Option Value) :
    (m.decodeOne id revision payload l1).1 = m.reads payload := by
  rcases payload with _ | value
  · rfl
  · cases value with
    | dict payload =>
      simp only [Moment.decodeOne, Moment.reads]
      rcases hneg : (dictGet payload "neg").truthy with _ | _
      · simp only [Bool.false_eq_true, if_false]
        rcases hdata : dictGet payload "data" with _ | _ | _ | _ | _ | _ | _ | _ | data | _
        case dict =>
          rcases hl1 : m.l1On with _ | _
          · simp
          · rcases hversion : m.version payload with _ | sv
            · simp
            · simp
        all_goals rfl
      · rfl
    | _ => rfl

theorem lookup_fst : (m.lookup l1 id).1 = hit (m.entry l1 id) := by
  have hentry : (if m.l1On then l1.get id m.now else (none, l1)).1 = m.entry l1 id := by
    unfold Moment.entry
    split_ifs <;> rfl
  simp only [Moment.lookup, hentry]
  rcases hmiss : hit (m.entry l1 id) with _ | data
  · simp only
    split <;> rfl
  · rfl

theorem readSnapState_fst (hredis : m.redis = true) :
    (readSnapState m l1 id).1 =
      match hit (m.entry l1 id) with
      | some data => (false, some (normalizeSnap data))
      | none =>
        match m.answer with
        | none => (false, none)
        | some answer =>
          match answer id with
          | none => (m.absent id, none)
          | some payload => m.reads payload := by
  have hfirst : (m.lookup l1 id).1 = hit (m.entry l1 id) := lookup_fst
  rcases hlookup : m.lookup l1 id with ⟨found, l1'⟩
  rw [hlookup] at hfirst
  simp only at hfirst
  subst hfirst
  simp only [readSnapState, hredis, not_true_eq_false, if_false, hlookup]
  rcases hit (m.entry l1 id) with _ | data
  · simp only
    split
    · rfl
    · split
      · rfl
      · exact decodeOne_fst ..
  · rfl

theorem takeHits_spec (ids : List Uuid) (f : Uuid → Option Held) (b : Batch) :
    (takeHits (ids.zip (ids.map f)) b).negative = b.negative ∧
      (takeHits (ids.zip (ids.map f)) b).pending = b.pending ++ ids.filter (fun id => (hit (f id)).isNone) ∧
      ∀ id, (takeHits (ids.zip (ids.map f)) b).out id =
        if id ∈ ids then ((hit (f id)).map normalizeSnap).or (b.out id) else b.out id := by
  induction ids generalizing b with
  | nil => simp [takeHits]
  | cons first rest ih =>
    simp only [List.map_cons, List.zip_cons_cons, takeHits]
    rcases hhit : hit (f first) with _ | data
    · obtain ⟨hnegative, hpending, hout⟩ :=
        ih { b with pending := b.pending ++ [first], l1 := if (f first).isSome then b.l1.delete first else b.l1 }
      refine ⟨hnegative, by rw [hpending, List.filter_cons_of_pos (by simp [hhit])]; simp, fun id => ?_⟩
      rw [hout id]
      by_cases hid : id = first
      · subst hid
        simp [hhit]
      · simp [hid]
    · obtain ⟨hnegative, hpending, hout⟩ := ih { b with out := Function.update b.out first (some (normalizeSnap data)) }
      refine ⟨hnegative, by rw [hpending, List.filter_cons_of_neg (by simp [hhit])], fun id => ?_⟩
      rw [hout id]
      by_cases hid : id = first
      · subst hid
        simp [hhit]
      · simp [hid]

/-- one round of the loop over the answers, when it does not raise -/
def Batch.add (b : Batch) (id : Uuid) (result : (Bool × Option Fields) × L1 Uuid Held) : Batch :=
  { b with
    negative := if result.1.1 then b.negative ++ [id] else b.negative
    out := match result.1.2 with | some data => Function.update b.out id (some data) | none => b.out
    l1 := result.2 }

theorem decodeEach_cons {answer : Uuid → Option (Option Value)} {payload : Option Value} (m : Moment) (revision : ℕ)
    (rest : List Uuid) (b : Batch) (hanswer : answer id = some payload) :
    (m.raises payload = true → m.decodeEach revision answer (id :: rest) b = none) ∧
      (m.raises payload = false → m.decodeEach revision answer (id :: rest) b =
        m.decodeEach revision answer rest (b.add id (m.decodeOne id revision payload b.l1))) := by
  rcases payload with _ | value
  · simp [Moment.decodeEach, Moment.decodeOne, Moment.raises, Batch.add, hanswer]
  · cases value with
    | dict payload =>
      simp only [Moment.decodeEach, Moment.decodeOne, Moment.raises, hanswer]
      rcases hneg : (dictGet payload "neg").truthy with _ | _
      · simp only [Bool.false_eq_true, if_false]
        rcases hdata : dictGet payload "data" with _ | _ | _ | _ | _ | _ | _ | _ | data | _
        case dict =>
          rcases hl1 : m.l1On with _ | _
          · simp [Batch.add]
          · rcases hversion : m.version payload with _ | sv
            · simp
            · simp [Batch.add]
        all_goals simp [Batch.add]
      · simp [Batch.add]
    | _ => simp [Moment.decodeEach, Moment.raises, hanswer]

theorem decodeEach_none {answer : Uuid → Option (Option Value)} {rest : List Uuid} (m : Moment) (revision : ℕ) (b : Batch)
    (hanswer : answer id = none) :
    m.decodeEach revision answer (id :: rest) b = m.decodeEach revision answer rest b := by
  simp [Moment.decodeEach, hanswer]

/-- one payload is enough for the loop to raise -/
theorem decodeEach_raises {revision : ℕ} {answer : Uuid → Option (Option Value)} {pending : List Uuid}
    {payload : Option Value} (hid : id ∈ pending) (hanswer : answer id = some payload) (hraises : m.raises payload = true)
    (b : Batch) : m.decodeEach revision answer pending b = none := by
  induction pending generalizing b with
  | nil => simp at hid
  | cons first rest ih =>
    rcases hfirst : answer first with _ | other
    · have hrest : id ∈ rest := by
        rcases List.mem_cons.1 hid with rfl | hrest
        · rw [hanswer] at hfirst
          cases hfirst
        · exact hrest
      rw [decodeEach_none m revision b hfirst]
      exact ih hrest b
    · obtain ⟨hbad, hgood⟩ := decodeEach_cons m revision rest b hfirst
      rcases hother : m.raises other with _ | _
      · rw [hgood hother]
        refine ih ?_ _
        rcases List.mem_cons.1 hid with rfl | hrest
        · rw [hanswer] at hfirst
          cases hfirst
          rw [hraises] at hother
          cases hother
        · exact hrest
      · exact hbad hother

/-- the loop when no payload makes it raise -/
theorem decodeEach_spec {answer : Uuid → Option (Option Value)} {pending : List Uuid} (revision : ℕ)
    (hfine : ∀ id ∈ pending, ∀ payload, answer id = some payload → m.raises payload = false) (b : Batch) :
    ∃ b', m.decodeEach revision answer pending b = some b' ∧
      (∀ id, id ∈ b'.negative ↔ id ∈ b.negative ∨
        id ∈ pending ∧ ∃ payload, answer id = some payload ∧ (m.reads payload).1 = true) ∧
      ∀ id, b'.out id =
        if id ∈ pending then ((answer id).bind fun payload => (m.reads payload).2).or (b.out id) else b.out id := by
  induction pending generalizing b with
  | nil => exact ⟨b, rfl, by simp, by simp⟩
  | cons first rest ih =>
    have hrest := ih fun id hid => hfine id (List.mem_cons_of_mem _ hid)
    rcases hanswer : answer first with _ | payload
    · obtain ⟨b', heq, hnegative, hout⟩ := hrest b
      refine ⟨b', by rw [decodeEach_none m revision b hanswer, heq], fun id => ?_, fun id => ?_⟩
      · rw [hnegative id]
        by_cases hid : id = first
        · subst hid
          simp [hanswer]
        · simp [hid]
      · rw [hout id]
        by_cases hid : id = first
        · subst hid
          simp [hanswer]
        · simp [hid]
    · have hpayload := hfine first List.mem_cons_self payload hanswer
      have hresult : (m.decodeOne first revision payload b.l1).1 = m.reads payload := decodeOne_fst revision payload
      obtain ⟨b', heq, hnegative, hout⟩ := hrest (b.add first (m.decodeOne first revision payload b.l1))
      refine ⟨b', by rw [(decodeEach_cons m revision rest b hanswer).2 hpayload, heq], fun id => ?_, fun id => ?_⟩
      · rw [hnegative id]
        simp only [Batch.add, hresult]
        by_cases hid : id = first
        · subst hid
          rcases hneg : (m.reads payload).1 with _ | _
          · simp [hanswer, hneg]
          · simp [hanswer, hneg]
        · rcases hneg : (m.reads payload).1 with _ | _
          · simp [hid]
          · simp [hid]
      · rw [hout id]
        simp only [Batch.add, hresult]
        by_cases hid : id = first
        · subst hid
          rcases hdata : (m.reads payload).2 with _ | data
          · simp [hanswer, hdata]
          · simp [hanswer, hdata]
        · rcases hdata : (m.reads payload).2 with _ | data
          · simp [hid]
          · simp [hid]

/-- what the batch gives: `none` where it raises, else what each id gets -/
def Agrees (m : Moment) (l1 : L1 Uuid Held) (ids : List Uuid) : Prop :=
  ∃ negative out l1', readSnapsState m l1 ids = some ((negative, out), l1') ∧
    ∀ id ∈ ids, (decide (id ∈ negative), out id) = (readSnapState m l1 id).1

/-- an id that L1 does not serve: when the filter denies it, Redis must answer that there is nothing or that the user
does not exist; else its payload must not be one at which the batch raises -/
def Moment.Fits (m : Moment) (id : Uuid) : Prop :=
  if m.absent id then
    ∃ answer, m.answer = some answer ∧ ∀ payload, answer id = some payload → (m.reads payload).1 = true
  else ∀ answer payload, m.answer = some answer → answer id = some payload → m.raises payload = false

theorem filtered_spec (m : Moment) (ids : List Uuid) (hkeyed : Keyed l1.data) :
    (∀ id, id ∈ (m.filtered l1 ids).negative ↔ id ∈ ids ∧ hit (m.entry l1 id) = none ∧ m.absent id = true) ∧
      (∀ id, id ∈ (m.filtered l1 ids).pending ↔ id ∈ ids ∧ hit (m.entry l1 id) = none ∧ m.absent id = false) ∧
      ∀ id ∈ ids, (m.filtered l1 ids).out id = (hit (m.entry l1 id)).map normalizeSnap := by
  have hentries : (if m.l1On then l1.multiGet ids m.now else (ids.map fun _ => none, l1)).1 = ids.map (m.entry l1) := by
    unfold Moment.entry
    rcases hl1 : m.l1On with _ | _
    · simp
    · simp [L1.multiGet_fst hkeyed]
  obtain ⟨hnegative, hpending, hout⟩ := takeHits_spec ids (m.entry l1)
    ⟨[], fun _ => none, [], (if m.l1On then l1.multiGet ids m.now else (ids.map fun _ => none, l1)).2⟩
  unfold Moment.filtered
  simp only [hentries, hnegative, hpending]
  refine ⟨fun id => ?_, fun id => ?_, fun id hid => ?_⟩
  · simp only [List.nil_append, List.mem_filter, Option.isNone_iff_eq_none, and_assoc]
  · simp only [List.nil_append, List.mem_filter, Option.isNone_iff_eq_none, and_assoc, decide_eq_true_eq,
      Bool.not_eq_true]
  · rw [hout id, if_pos hid, Option.or_none]

theorem readSnapsState_eq (hredis : m.redis = true) :
    readSnapsState m l1 ids =
      match m.answer with
      | none => some (((m.filtered l1 ids).negative, (m.filtered l1 ids).out), (m.filtered l1 ids).l1)
      | some answer =>
        (m.decodeEach (m.filtered l1 ids).l1.revision answer (m.filtered l1 ids).pending (m.filtered l1 ids)).map
          fun b => ((b.negative, b.out), b.l1) := by
  rcases ids with _ | ⟨first, rest⟩
  · have hfiltered : m.filtered l1 [] = ⟨[], fun _ => none, [], l1⟩ := by
      unfold Moment.filtered
      split_ifs <;> rfl
    simp only [readSnapsState, hfiltered]
    rcases m.answer with _ | answer <;> rfl
  · simp only [readSnapsState, hredis, not_true_eq_false, or_false, reduceCtorEq, if_false]
    by_cases hnone : (m.filtered l1 (first :: rest)).pending = []
    · rw [if_pos hnone, hnone]
      rcases m.answer with _ | answer <;> rfl
    · rw [if_neg hnone]

theorem reads_negative {payload : Option Value} (h : (m.reads payload).1 = true) : m.reads payload = (true, none) := by
  rcases payload with _ | value
  · cases h
  · cases value with
    | dict payload =>
      simp only [Moment.reads] at h ⊢
      rcases hneg : (dictGet payload "neg").truthy with _ | _
      · simp only [hneg, Bool.false_eq_true, if_false] at h
        split at h
        · split_ifs at h
        · cases h
      · rfl
    | _ => cases h

/-- **Batch and single readings.** At every moment and in every state of L1, the batch raises nothing and gives each id
what the single reading gives, exactly when every id that L1 does not serve meets `Fits`. -/
theorem batch_agrees_iff (m : Moment) (l1 : L1 Uuid Held) (hkeyed : Keyed l1.data) (ids : List Uuid) :
    Agrees m l1 ids ↔ (m.redis = true → ∀ id ∈ ids, hit (m.entry l1 id) = none → m.Fits id) := by
  rcases hredis : m.redis with _ | _
  · refine iff_of_true ⟨[], fun _ => none, l1, by simp [readSnapsState, hredis], fun id _ => ?_⟩ (by simp)
    simp [readSnapState, hredis]
  · obtain ⟨hnegative, hpending, hout⟩ := filtered_spec m ids hkeyed
    simp only [true_implies]
    constructor
    · rintro ⟨negative, out, l1', heq, hagree⟩ id hid hmiss
      rw [readSnapsState_eq hredis] at heq
      have hsingle := hagree id hid
      rw [readSnapState_fst hredis, hmiss] at hsingle
      unfold Moment.Fits
      split_ifs with habsent
      · have hdenied : id ∈ (m.filtered l1 ids).negative := (hnegative id).2 ⟨hid, hmiss, habsent⟩
        rcases hanswer : m.answer with _ | answer
        · simp only [hanswer, Option.some.injEq, Prod.mk.injEq] at heq hsingle
          rw [← heq.1.1] at hsingle
          exact absurd hdenied (by simpa using hsingle.1)
        · refine ⟨answer, rfl, fun payload hpayload => ?_⟩
          simp only [hanswer, hpayload, Option.map_eq_some_iff, Prod.mk.injEq] at heq hsingle
          obtain ⟨b', hloop, ⟨rfl, rfl⟩, rfl⟩ := heq
          have hfine : ∀ j ∈ (m.filtered l1 ids).pending, ∀ p, answer j = some p → m.raises p = false := by
            intro j hj p hp
            by_contra hraises
            rw [decodeEach_raises hj hp (by simpa using hraises)] at hloop
            cases hloop
          obtain ⟨b'', hloop', hneg', _⟩ := decodeEach_spec (m.filtered l1 ids).l1.revision hfine (m.filtered l1 ids)
          rw [hloop] at hloop'
          cases hloop'
          have hin : id ∈ b'.negative := (hneg' id).2 (Or.inl hdenied)
          rw [← hsingle]
          simpa using hin
      · intro answer payload hanswer hpayload
        by_contra hraises
        have hasked : id ∈ (m.filtered l1 ids).pending := (hpending id).2 ⟨hid, hmiss, by simpa using habsent⟩
        simp only [hanswer, decodeEach_raises hasked hpayload (by simpa using hraises), Option.map_none,
          reduceCtorEq] at heq
    · intro hfits
      have hfine : ∀ answer, m.answer = some answer → ∀ id ∈ (m.filtered l1 ids).pending, ∀ payload,
          answer id = some payload → m.raises payload = false := by
        intro answer hanswer id hid payload hpayload
        obtain ⟨hmem, hmiss, habsent⟩ := (hpending id).1 hid
        have hfit := hfits id hmem hmiss
        simp only [Moment.Fits, habsent, Bool.false_eq_true, if_false] at hfit
        exact hfit answer payload hanswer hpayload
      unfold Agrees
      rw [readSnapsState_eq hredis]
      rcases hanswer : m.answer with _ | answer
      · refine ⟨_, _, _, rfl, fun id hid => ?_⟩
        rw [readSnapState_fst hredis, hout id hid]
        rcases hmiss : hit (m.entry l1 id) with _ | data
        · have hpresent : m.absent id = false := by
            by_contra habsent
            have hfit := hfits id hid hmiss
            simp only [Moment.Fits, Bool.not_eq_false _ ▸ habsent, if_true, hanswer, reduceCtorEq, false_and,
              exists_false] at hfit
          have hnot : id ∉ (m.filtered l1 ids).negative := by
            rw [hnegative id, hpresent]
            simp
          simp [hnot, hanswer]
        · have hnot : id ∉ (m.filtered l1 ids).negative := by
            rw [hnegative id, hmiss]
            simp
          simp [hnot]
      · obtain ⟨b', hloop, hneg', hout'⟩ := decodeEach_spec (m.filtered l1 ids).l1.revision (hfine answer hanswer)
          (m.filtered l1 ids)
        refine ⟨b'.negative, b'.out, b'.l1, by simp [hloop], fun id hid => ?_⟩
        have hin := hneg' id
        rw [readSnapState_fst hredis, hout' id, hout id hid]
        rw [hnegative id, hpending id] at hin
        simp only [hpending id, hid, true_and] at hin ⊢
        rcases hmiss : hit (m.entry l1 id) with _ | data
        · have hfit := hfits id hid hmiss
          rcases habsent : m.absent id with _ | _
          · rcases hpayload : answer id with _ | payload
            · simp [hmiss, habsent, hpayload, hanswer] at hin ⊢
              simp [hin]
            · simp only [hmiss, habsent, hpayload, Option.some.injEq, exists_eq_left', true_and, Bool.false_eq_true,
                and_false, false_or] at hin
              simp [hin, hpayload, hanswer]
          · simp only [Moment.Fits, habsent, if_true, hanswer, Option.some.injEq, exists_eq_left'] at hfit
            have hyes : id ∈ b'.negative := hin.2 (Or.inl ⟨hmiss, habsent⟩)
            rcases hpayload : answer id with _ | payload
            · simp [hyes, hpayload, hanswer]
            · simp [hyes, hpayload, hanswer, reads_negative (hfit payload hpayload)]
        · have hno : id ∉ b'.negative := by
            rw [hin]
            simp [hmiss]
          simp [hno]

/-- a moment at which Redis answers with this payload for every user, L1 is on, and the filter denies those of `denied` -/
def answering (denied : List Uuid) (answer : Option (Option (Option Value))) : Moment :=
  { redis := true
    l1On := true
    now := 0
    step := 0
    answer := answer.map fun payload _ => payload
    absent := fun id => id ∈ denied
    ttl := fun _ => 10
    parseInt := fun _ => none }

def emptyL1 : L1 Uuid Held := ⟨[], 10, 0, 0, fun _ => 0, 0, fun _ => 0⟩

/-- the snapshot of a user, with a version -/
def snapshotOf (sv : Value) : Value :=
  .dict [("sv".toList, sv), ("data".toList, .dict [("username".toList, .str "u".toList)])]

theorem batch_agrees_demo : Agrees (answering [] (some (some (some (snapshotOf (.int 1)))))) emptyL1 [7, 7] :=
  (batch_agrees_iff _ emptyL1 List.nodup_nil [7, 7]).2 fun _ id _ _ => by
    have habsent : (answering [] (some (some (some (snapshotOf (.int 1)))))).absent id = false := rfl
    simp only [Moment.Fits, habsent, Bool.false_eq_true, if_false]
    intro answer payload hanswer hpayload
    cases hanswer
    cases hpayload
    rfl

/-- A cached user whom the filter denies exists for the single reading and not for the batch; so does, when Redis fails,
a user whom the filter denies. A payload that is a list, or whose version is infinite, is a miss for the single reading,
and the batch raises. -/
theorem batch_disagrees :
    ((readSnapState (answering [7] (some (some (some (snapshotOf (.int 1)))))) emptyL1 7).1 =
        (false, some [("username".toList, .str "u".toList)]) ∧
      (readSnapsState (answering [7] (some (some (some (snapshotOf (.int 1)))))) emptyL1 [7]).map (fun r => r.1.1) =
        some [7] ∧
      ¬ Agrees (answering [7] (some (some (some (snapshotOf (.int 1)))))) emptyL1 [7]) ∧
    ((readSnapState (answering [7] none) emptyL1 7).1 = (false, none) ∧
      (readSnapsState (answering [7] none) emptyL1 [7]).map (fun r => r.1.1) = some [7]) ∧
    ((readSnapState (answering [] (some (some (some (.list []))))) emptyL1 7).1 = (false, none) ∧
      (readSnapsState (answering [] (some (some (some (.list []))))) emptyL1 [7]).isNone) ∧
    ((readSnapState (answering [] (some (some (some (snapshotOf (.infinite false)))))) emptyL1 7).1 = (false, none) ∧
      (readSnapsState (answering [] (some (some (some (snapshotOf (.infinite false)))))) emptyL1 [7]).isNone) := by
  refine ⟨⟨rfl, rfl, ?_⟩, ⟨rfl, rfl⟩, ⟨rfl, rfl⟩, ⟨rfl, rfl⟩⟩
  rintro ⟨negative, out, l1', heq, hagree⟩
  have hnegative : negative = [7] := by
    have hfirst : (readSnapsState (answering [7] (some (some (some (snapshotOf (.int 1)))))) emptyL1 [7]).map
        (fun r => r.1.1) = some [7] := rfl
    rw [heq] at hfirst
    simpa using hfirst
  have hsingle : (readSnapState (answering [7] (some (some (some (snapshotOf (.int 1)))))) emptyL1 7).1.1 = false := rfl
  have hboth := congrArg Prod.fst (hagree 7 (by simp))
  rw [hsingle, hnegative] at hboth
  simp at hboth

end LkmService.UserCache
