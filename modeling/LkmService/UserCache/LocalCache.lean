/-
The cache inside one process (`core/local_cache.py`).

`_data` is an ordered dictionary, the least recently used entry first; an entry has a deadline on the monotonic clock.
An operation holds no `await`, so it is one step, and its readings of the clock are one. `revision` counts the local
invalidations.

`clock`, `dropped`, `uses` and `used` are no data of the program: the number of the current step, the step in which a key
was last invalidated, how many uses there have been, and which of them was the last of a key.
- `L1.Wf`: the invariant (each key once, at most `maxsize` entries, in the order of their last use); every operation
  keeps it.
- `L1.get_eq_some`: what a read returns has not expired; `L1.multiGet_fst`: one reading of many keys returns what reads
  one after the other would; `L1.set_evicts`: what an insertion drives out was last used before all that stays.
-/
import Mathlib.Data.Rat.Defs
import Mathlib.Algebra.Order.Field.Rat
import LkmService.Lib.OrderedDict

namespace LkmService.UserCache

open OrderedDict

structure Entry (V : Type) where
  deadline : ℚ
  value : V
deriving DecidableEq

/-- `_data`, `_maxsize` and `_invalidation_revision` -/
structure L1 (K V : Type) where
  data : List (K × Entry V)
  maxsize : ℕ
  revision : ℕ
  clock : ℕ
  dropped : K → ℕ
  uses : ℕ
  used : K → ℕ

namespace L1

variable {K V : Type} [DecidableEq K]

def use (key : K) (s : L1 K V) : L1 K V :=
  { s with uses := s.uses + 1, used := Function.update s.used key s.uses }

/-- `_get`, and `l1_get` at this moment: an expired entry is taken out, a hit moves to the end -/
def get (key : K) (now : ℚ) (s : L1 K V) : Option V × L1 K V :=
  match get? s.data key with
  | none => (none, s)
  | some entry =>
    if entry.deadline ≤ now then (none, { s with data := pop s.data key })
    else (some entry.value, { s.use key with data := moveToEnd s.data key })

/-- `l1_multi_get`: one reading of the clock for all keys -/
def multiGet : List K → ℚ → L1 K V → List (Option V) × L1 K V
  | [], _, s => ([], s)
  | key :: keys, now, s =>
    let (value, s) := s.get key now
    let (values, s) := multiGet keys now s
    (value :: values, s)

/-- reads one after the other at one moment -/
def getEach (keys : List K) (now : ℚ) (s : L1 K V) : List (Option V) × L1 K V :=
  keys.foldl (fun (values, s) key => (values ++ [(s.get key now).1], (s.get key now).2)) ([], s)

/-- `l1_delete` -/
def delete (key : K) (s : L1 K V) : L1 K V :=
  { s with data := pop s.data key, revision := s.revision + 1, dropped := Function.update s.dropped key s.clock }

/-- `l1_clear` -/
def clear (s : L1 K V) : L1 K V := { s with data := [], revision := s.revision + 1, dropped := fun _ => s.clock }

/-- `l1_set`; `none` is a value `None` -/
def set (key : K) (value : Option V) (ttl now : ℚ) (s : L1 K V) : L1 K V :=
  match value with
  | none => s.delete key
  | some value =>
    if ttl ≤ 0 then s.delete key
    else { s.use key with data := evict s.maxsize (moveToEnd (put s.data key ⟨now + ttl, value⟩) key) }

/-- `l1_set_if_unchanged` -/
def setIfUnchanged (key : K) (value : Option V) (ttl : ℚ) (revision : ℕ) (now : ℚ) (s : L1 K V) : Bool × L1 K V :=
  if ttl ≤ 0 ∨ value.isNone ∨ revision ≠ s.revision then (false, s)
  else
    match s.get key now with
    | (some _, s) => (false, s)
    | (none, s) => (true, s.set key value ttl now)

/-! ## The invariant -/

structure Wf (s : L1 K V) : Prop where
  keyed : Keyed s.data
  bounded : s.data.length ≤ s.maxsize
  recent : Recent s.used s.data
  past : ∀ entry ∈ s.data, s.used entry.1 < s.uses

variable {s : L1 K V} {key other : K} {now ttl : ℚ}

/-- a read takes at most one entry out, and that one has expired -/
theorem mem_get (h : Keyed s.data) {entry : K × Entry V} :
    entry ∈ (s.get key now).2.data ↔ entry ∈ s.data ∧ (entry.1 = key → now < entry.2.deadline) := by
  unfold get
  rcases hget : get? s.data key with _ | found
  · refine ⟨fun hmem => ⟨hmem, fun hkey => ?_⟩, And.left⟩
    exact absurd (List.mem_map.2 ⟨entry, hmem, hkey⟩) (get?_eq_none_iff.1 hget)
  · have hsame : ∀ e ∈ s.data, e.1 = key → e.2 = found := fun e he hkey =>
      Option.some.inj (((get?_eq_some_iff h).2 (hkey ▸ he)).symm.trans hget)
    by_cases hexpired : found.deadline ≤ now
    · simp only [hexpired, if_true, mem_pop]
      refine and_congr_right fun hmem => ⟨fun hne hkey => absurd hkey hne, fun hlive hkey => ?_⟩
      rw [hsame entry hmem hkey] at hlive
      exact absurd (hlive hkey) (not_lt.2 hexpired)
    · simp only [hexpired, if_false, mem_moveToEnd h]
      refine ⟨fun hmem => ⟨hmem, fun hkey => ?_⟩, And.left⟩
      rw [hsame entry hmem hkey]
      exact not_le.1 hexpired

/-- what is returned has not expired -/
theorem get_eq_some (h : Keyed s.data) {value : V} :
    (s.get key now).1 = some value ↔ ∃ deadline, (key, ⟨deadline, value⟩) ∈ s.data ∧ now < deadline := by
  unfold get
  rcases hget : get? s.data key with _ | found
  · simp only [reduceCtorEq, false_iff]
    rintro ⟨deadline, hmem, _⟩
    rw [(get?_eq_some_iff h).2 hmem] at hget
    cases hget
  · have hmem := (get?_eq_some_iff h).1 hget
    have hsame : ∀ e, (key, e) ∈ s.data → e = found := fun e he =>
      Option.some.inj (((get?_eq_some_iff h).2 he).symm.trans hget)
    by_cases hexpired : found.deadline ≤ now
    · simp only [hexpired, if_true, reduceCtorEq, false_iff]
      rintro ⟨deadline, hentry, hlive⟩
      rw [← hsame _ hentry] at hexpired
      exact absurd hlive (not_lt.2 hexpired)
    · simp only [hexpired, if_false, Option.some.injEq]
      constructor
      · rintro rfl
        exact ⟨found.deadline, hmem, not_le.1 hexpired⟩
      · rintro ⟨deadline, hentry, _⟩
        rw [← hsame _ hentry]

theorem keyed_get (h : Keyed s.data) : Keyed (s.get key now).2.data := by
  unfold get
  split
  · exact h
  · split_ifs
    · exact h.pop
    · exact h.moveToEnd

@[simp] theorem maxsize_get : (s.get key now).2.maxsize = s.maxsize := by
  unfold get
  split
  · rfl
  · split_ifs <;> rfl

@[simp] theorem revision_get : (s.get key now).2.revision = s.revision := by
  unfold get
  split
  · rfl
  · split_ifs <;> rfl

/-- a key that is used goes to the end -/
theorem Wf.use (h : s.Wf) {entry : Entry V} :
    Recent (s.use key).used (pop s.data key ++ [(key, entry)]) ∧
      ∀ e ∈ pop s.data key ++ [(key, entry)], (s.use key).used e.1 < (s.use key).uses := by
  refine ⟨h.recent.use h.past, fun e he => ?_⟩
  rcases List.mem_append.1 he with he | he
  · have hne : e.1 ≠ key := (mem_pop.1 he).2
    simp only [L1.use, Function.update_of_ne hne]
    exact Nat.lt_succ_of_lt (h.past e (mem_pop.1 he).1)
  · rw [List.mem_singleton.1 he]
    simp [L1.use]

theorem Wf.get (h : s.Wf) : (s.get key now).2.Wf := by
  unfold L1.get
  rcases hget : get? s.data key with _ | entry
  · exact h
  · by_cases hexpired : entry.deadline ≤ now
    · simp only [hexpired, if_true]
      exact ⟨h.keyed.pop, le_trans (List.length_filter_le ..) h.bounded, h.recent.sublist List.filter_sublist,
        fun e he => h.past e (mem_pop.1 he).1⟩
    · have hmove : moveToEnd s.data key = pop s.data key ++ [(key, entry)] := by simp only [moveToEnd, hget]
      simp only [hexpired, if_false]
      refine ⟨h.keyed.moveToEnd, le_of_eq_of_le (length_moveToEnd h.keyed) h.bounded, ?_, ?_⟩
      · simpa only [hmove] using h.use.1
      · simpa only [hmove] using h.use.2

/-- a read does not change what another read at the same moment returns -/
theorem get_fst_get (h : Keyed s.data) : ((s.get other now).2.get key now).1 = (s.get key now).1 := by
  refine Option.ext fun value => ?_
  rw [get_eq_some (keyed_get h), get_eq_some h]
  refine exists_congr fun deadline => ?_
  rw [mem_get h]
  exact ⟨fun hboth => ⟨hboth.1.1, hboth.2⟩, fun hboth => ⟨⟨hboth.1, fun _ => hboth.2⟩, hboth.2⟩⟩

/-- each key gets what a read of it alone would return -/
theorem multiGet_fst (h : Keyed s.data) (keys : List K) :
    (s.multiGet keys now).1 = keys.map fun key => (s.get key now).1 := by
  induction keys generalizing s with
  | nil => rfl
  | cons key keys ih =>
    simp only [multiGet, List.map_cons, ih (keyed_get h)]
    exact congrArg _ (List.map_congr_left fun _ _ => get_fst_get h)

theorem multiGet_eq (keys : List K) : s.multiGet keys now = s.getEach keys now := by
  have hfold : ∀ (values : List (Option V)) (s : L1 K V),
      keys.foldl (fun (values, s) key => (values ++ [(s.get key now).1], (s.get key now).2)) (values, s) =
        (values ++ (s.multiGet keys now).1, (s.multiGet keys now).2) := by
    induction keys with
    | nil => simp [multiGet]
    | cons key keys ih =>
      intro values s
      rw [List.foldl_cons, ih]
      simp [multiGet]
  rw [getEach, hfold, List.nil_append]

theorem Wf.delete (h : s.Wf) : (s.delete key).Wf :=
  ⟨h.keyed.pop, le_trans (List.length_filter_le ..) h.bounded, h.recent.sublist List.filter_sublist,
    fun e he => h.past e (mem_pop.1 he).1⟩

omit [DecidableEq K] in
theorem wf_clear (s : L1 K V) : s.clear.Wf :=
  ⟨List.nodup_nil, Nat.zero_le _, List.Pairwise.nil, fun e he => by cases he⟩

/-- a set entry is at the end, and the others are the last of those that were there -/
theorem set_data (h : Keyed s.data) {value : V} (httl : 0 < ttl) :
    (s.set key (some value) ttl now).data = evict s.maxsize (pop s.data key ++ [(key, ⟨now + ttl, value⟩)]) := by
  simp only [L1.set, if_neg (not_le.2 httl), moveToEnd_put h]

theorem Wf.set (h : s.Wf) (value : Option V) : (s.set key value ttl now).Wf := by
  rcases value with _ | value
  · exact h.delete
  · by_cases httl : ttl ≤ 0
    · simp only [L1.set, httl, if_true]
      exact h.delete
    · have hdata := @set_data _ _ _ s key now ttl h.keyed value (not_le.1 httl)
      have hfields : (s.set key (some value) ttl now).maxsize = s.maxsize ∧
          (s.set key (some value) ttl now).used = (s.use key).used ∧
          (s.set key (some value) ttl now).uses = (s.use key).uses := by
        simp [L1.set, httl, L1.use]
      refine ⟨?_, ?_, ?_, ?_⟩
      · rw [hdata]
        exact Keyed.sublist h.keyed.append (evict_sublist _)
      · rw [hdata, hfields.1]
        exact length_evict_le _
      · rw [hdata, hfields.2.1]
        exact h.use.1.sublist (evict_sublist _)
      · rw [hdata, hfields.2.1, hfields.2.2]
        exact fun e he => h.use.2 e ((evict_sublist _).subset he)

/-- what an insertion drives out was last used before all that stays -/
theorem set_evicts (h : s.Wf) {value : V} (httl : 0 < ttl) {gone kept : K × Entry V} (hgone : gone ∈ s.data)
    (hother : gone.1 ≠ key) (hout : gone ∉ (s.set key (some value) ttl now).data)
    (hkept : kept ∈ (s.set key (some value) ttl now).data) :
    (s.set key (some value) ttl now).used gone.1 < (s.set key (some value) ttl now).used kept.1 := by
  have hused : (s.set key (some value) ttl now).used = (s.use key).used := by
    simp [L1.set, not_le.2 httl]
  rw [set_data h.keyed httl] at hout hkept
  rw [hused]
  exact h.use.1.evict (List.mem_append_left _ (mem_pop.2 ⟨hgone, hother⟩)) hout hkept

end L1

end LkmService.UserCache
