/-
Dictionaries that keep an order, as `OrderedDict` of Python does: the entries from first to last, each key once.

- `get?`, `put`, `pop`, `moveToEnd`: the operations; `moveToEnd_put` says what `d[k] = v` and `move_to_end(k)` do together.
- `update`: the entries of another dictionary are put; `get?_update`.
- `evict`: entries leave from the front until at most `n` are left.
- `Keyed`: each key once; the operations keep it.
- `Recent used`: the entries stand in the order of their last use; `Recent.use` keeps it when a key is moved to the end.
-/
import Mathlib.Data.List.Nodup
import Mathlib.Data.List.Pairwise
import Mathlib.Logic.Function.Basic
import Mathlib.Tactic.Common

namespace LkmService.OrderedDict

variable {α β : Type} [DecidableEq α] {d : List (α × β)} {k j : α} {v : β}

def get? (d : List (α × β)) (k : α) : Option β := (d.find? fun entry => entry.1 = k).map Prod.snd

def pop (d : List (α × β)) (k : α) : List (α × β) := d.filter fun entry => entry.1 ≠ k

/-- `d[k] = v`: a key that is there keeps its place -/
def put (d : List (α × β)) (k : α) (v : β) : List (α × β) :=
  if k ∈ d.map Prod.fst then d.map fun entry => if entry.1 = k then (k, v) else entry else d ++ [(k, v)]

def moveToEnd (d : List (α × β)) (k : α) : List (α × β) :=
  match get? d k with
  | some v => pop d k ++ [(k, v)]
  | none => d

/-- `while len(d) > n: d.popitem(last=False)` -/
def evict (n : ℕ) : List (α × β) → List (α × β)
  | [] => []
  | entry :: rest => if n < (entry :: rest).length then evict n rest else entry :: rest

/-! ## Each key once -/

def Keyed (d : List (α × β)) : Prop := (d.map Prod.fst).Nodup

omit [DecidableEq α] in
theorem Keyed.sublist {d' : List (α × β)} (h : Keyed d) (hsub : d'.Sublist d) : Keyed d' :=
  List.Nodup.sublist (hsub.map _) h

theorem Keyed.pop (h : Keyed d) : Keyed (pop d k) := Keyed.sublist h List.filter_sublist

theorem keys_pop : (pop d k).map Prod.fst = (d.map Prod.fst).filter fun j => j ≠ k := by
  simp [pop, List.filter_map, Function.comp_def]

theorem not_mem_pop : k ∉ (pop d k).map Prod.fst := by
  rw [keys_pop]
  simp

theorem mem_pop {entry : α × β} : entry ∈ pop d k ↔ entry ∈ d ∧ entry.1 ≠ k := by
  simp [pop]

/-- a key put at the end after it was taken out -/
theorem Keyed.append (h : Keyed d) : Keyed (OrderedDict.pop d k ++ [(k, v)]) := by
  simp only [Keyed, List.map_append, List.map_cons, List.map_nil]
  refine List.nodup_append.2 ⟨h.pop, by simp, fun a ha b hb => ?_⟩
  rw [List.mem_singleton.1 hb]
  rintro rfl
  exact not_mem_pop ha

@[simp] theorem get?_cons_self : get? ((k, v) :: d) k = some v := by
  simp [get?]

theorem get?_cons_of_ne (h : j ≠ k) : get? ((j, v) :: d) k = get? d k := by
  simp [get?, h]

theorem get?_eq_some_iff (h : Keyed d) : get? d k = some v ↔ (k, v) ∈ d := by
  unfold get?
  constructor
  · intro hget
    obtain ⟨entry, hfind, rfl⟩ := Option.map_eq_some_iff.1 hget
    have hkey : entry.1 = k := by simpa using List.find?_some hfind
    subst hkey
    exact List.mem_of_find?_eq_some hfind
  · intro hmem
    rcases hfind : d.find? fun entry => entry.1 = k with _ | entry
    · have := List.find?_eq_none.1 hfind (k, v) hmem
      simp at this
    · have hkey : entry.1 = k := by simpa using List.find?_some hfind
      have hsame : entry = (k, v) := List.inj_on_of_nodup_map h (List.mem_of_find?_eq_some hfind) hmem hkey
      rw [hfind, hsame]
      rfl

theorem get?_eq_none_iff : get? d k = none ↔ k ∉ d.map Prod.fst := by
  simp only [get?, Option.map_eq_none_iff, List.find?_eq_none, decide_eq_true_eq, List.mem_map, not_exists, not_and]

theorem get?_pop_of_ne (h : j ≠ k) : get? (pop d k) j = get? d j := by
  unfold get? pop
  rw [List.find?_filter]
  congr 2
  funext entry
  by_cases hj : entry.1 = j
  · simp [hj, h]
  · simp [hj]

theorem get?_append_of_ne (h : j ≠ k) : get? (d ++ [(k, v)]) j = get? d j := by
  unfold get?
  rw [List.find?_append]
  rcases hfind : d.find? fun entry => entry.1 = j with _ | entry
  · simp [hfind, Ne.symm h]
  · simp [hfind]

theorem get?_append_self (h : k ∉ d.map Prod.fst) : get? (d ++ [(k, v)]) k = some v := by
  have hnone := get?_eq_none_iff.2 h
  unfold get? at hnone ⊢
  rw [List.find?_append, Option.map_eq_none_iff.1 hnone]
  simp

theorem pop_map_replace : pop (d.map fun entry => if entry.1 = k then (k, v) else entry) k = pop d k := by
  induction d with
  | nil => rfl
  | cons entry d ih =>
    by_cases hk : entry.1 = k
    · simpa [pop, hk] using ih
    · simpa [pop, hk] using ih

theorem keys_replace :
    (d.map fun entry => if entry.1 = k then (k, v) else entry).map Prod.fst = d.map Prod.fst := by
  rw [List.map_map]
  refine List.map_congr_left fun entry _ => ?_
  by_cases hk : entry.1 = k
  · simp [hk]
  · simp [hk]

theorem Keyed.put (h : Keyed d) (k : α) (v : β) : Keyed (put d k v) := by
  unfold OrderedDict.put
  split_ifs with hmem
  · rw [Keyed, keys_replace]
    exact h
  · rw [Keyed, List.map_append]
    refine List.nodup_append.2 ⟨h, by simp, fun a ha b hb => ?_⟩
    obtain rfl : b = k := by simpa using hb
    rintro rfl
    exact hmem ha

theorem get?_replace_self {w : β} (h : get? d k = some w) :
    get? (d.map fun entry => if entry.1 = k then (k, v) else entry) k = some v := by
  induction d with
  | nil => simp [get?] at h
  | cons entry d ih =>
    by_cases hk : entry.1 = k
    · simp [get?, hk]
    · simp only [get?, List.map_cons, List.find?_cons, hk, decide_false, if_false] at h ih ⊢
      exact ih h

theorem get?_put : get? (put d k v) j = if j = k then some v else get? d j := by
  unfold put
  split_ifs with hmem hj hj
  · subst hj
    obtain ⟨w, hw⟩ : ∃ w, get? d j = some w := by
      rcases hget : get? d j with _ | w
      · exact absurd hmem (get?_eq_none_iff.1 hget)
      · exact ⟨w, rfl⟩
    exact get?_replace_self hw
  · have hpop := get?_pop_of_ne (d := d.map fun entry => if entry.1 = k then (k, v) else entry) hj
    rw [← hpop, pop_map_replace, get?_pop_of_ne hj]
  · subst hj
    exact get?_append_self hmem
  · exact get?_append_of_ne hj

def update (d other : List (α × β)) : List (α × β) := other.foldl (fun d entry => put d entry.1 entry.2) d

theorem get?_update {other : List (α × β)} (h : Keyed other) : get? (update d other) j = (get? other j).or (get? d j) := by
  induction other generalizing d with
  | nil => rfl
  | cons entry other ih =>
    obtain ⟨hnot, hkeyed⟩ := List.nodup_cons.1 h
    change get? (update (put d entry.1 entry.2) other) j = _
    rw [ih hkeyed, get?_put]
    by_cases hj : j = entry.1
    · subst hj
      rw [get?_eq_none_iff.2 hnot, get?_cons_self, if_pos rfl]
      rfl
    · rw [get?_cons_of_ne (Ne.symm hj), if_neg hj]

/-- an assignment followed by `move_to_end`: the entry is new at the end -/
theorem moveToEnd_put (h : Keyed d) : moveToEnd (put d k v) k = pop d k ++ [(k, v)] := by
  unfold put
  split_ifs with hmem
  · have hget : get? (d.map fun entry => if entry.1 = k then (k, v) else entry) k = some v := by
      obtain ⟨entry, hentry, rfl⟩ := List.mem_map.1 hmem
      refine (get?_eq_some_iff (by simpa only [Keyed, keys_replace] using h)).2 (List.mem_map.2 ⟨entry, hentry, ?_⟩)
      simp
    simp only [moveToEnd, hget, pop_map_replace]
  · have hpop : pop (d ++ [(k, v)]) k = pop d k := by simp [pop]
    simp only [moveToEnd, get?_append_self hmem, hpop]

theorem Keyed.moveToEnd (h : Keyed d) : Keyed (moveToEnd d k) := by
  unfold OrderedDict.moveToEnd
  split
  · exact h.append
  · exact h

theorem mem_moveToEnd (h : Keyed d) {entry : α × β} : entry ∈ moveToEnd d k ↔ entry ∈ d := by
  unfold moveToEnd
  split
  next v hget =>
    have hmem := (get?_eq_some_iff h).1 hget
    simp only [List.mem_append, mem_pop, List.mem_singleton]
    constructor
    · rintro (⟨hentry, _⟩ | rfl)
      · exact hentry
      · exact hmem
    · intro hentry
      by_cases hk : entry.1 = k
      · exact Or.inr (List.inj_on_of_nodup_map h hentry hmem hk)
      · exact Or.inl ⟨hentry, hk⟩
  next => exact Iff.rfl

theorem length_moveToEnd (h : Keyed d) : (moveToEnd d k).length = d.length := by
  have hnodup : ∀ l : List (α × β), Keyed l → l.Nodup := fun l hl => List.Nodup.of_map _ hl
  exact ((List.perm_ext_iff_of_nodup (hnodup _ h.moveToEnd) (hnodup _ h)).2 fun _ => mem_moveToEnd h).length_eq

/-! ## Eviction -/

omit [DecidableEq α] in
theorem evict_eq_drop (n : ℕ) : evict n d = d.drop (d.length - n) := by
  induction d with
  | nil => simp [evict]
  | cons entry d ih =>
    simp only [evict]
    split_ifs with hlen
    · rw [ih, List.length_cons, show d.length + 1 - n = d.length - n + 1 by rw [List.length_cons] at hlen; omega,
        List.drop_succ_cons]
    · rw [show (entry :: d).length - n = 0 by omega, List.drop_zero]

omit [DecidableEq α] in
theorem length_evict_le (n : ℕ) : (evict n d).length ≤ n := by
  rw [evict_eq_drop, List.length_drop]
  omega

omit [DecidableEq α] in
theorem evict_sublist (n : ℕ) : (evict n d).Sublist d := by
  rw [evict_eq_drop]
  exact List.drop_sublist ..

/-! ## The order of use -/

/-- the entries stand in the order in which their keys were last used -/
def Recent (used : α → ℕ) (d : List (α × β)) : Prop := d.Pairwise fun a b => used a.1 < used b.1

omit [DecidableEq α] in
theorem Recent.sublist {used : α → ℕ} {d' : List (α × β)} (h : Recent used d) (hsub : d'.Sublist d) : Recent used d' :=
  List.Pairwise.sublist hsub h

/-- a key that is used goes to the end -/
theorem Recent.use {used : α → ℕ} {t : ℕ} (h : Recent used d) (hpast : ∀ entry ∈ d, used entry.1 < t) :
    Recent (Function.update used k t) (pop d k ++ [(k, v)]) := by
  have hother : ∀ entry ∈ pop d k, Function.update used k t entry.1 = used entry.1 :=
    fun entry hentry => Function.update_of_ne (mem_pop.1 hentry).2 ..
  refine List.pairwise_append.2 ⟨?_, by simp, fun a ha b hb => ?_⟩
  · refine (h.sublist List.filter_sublist).imp_of_mem fun ha hb hlt => ?_
    rw [hother _ ha, hother _ hb]
    exact hlt
  · rw [List.mem_singleton.1 hb, hother a ha, Function.update_self]
    exact hpast a (mem_pop.1 ha).1

omit [DecidableEq α] in
/-- what leaves was last used before all that stays -/
theorem Recent.evict {used : α → ℕ} {n : ℕ} (h : Recent used d) {gone kept : α × β} (hgone : gone ∈ d)
    (hout : gone ∉ evict n d) (hkept : kept ∈ evict n d) : used gone.1 < used kept.1 := by
  rw [evict_eq_drop] at hout hkept
  rw [← List.take_append_drop (d.length - n) d] at h hgone
  rcases List.mem_append.1 hgone with hfront | hback
  · exact (List.pairwise_append.1 h).2.2 gone hfront kept hkept
  · exact absurd hback hout

end LkmService.OrderedDict
