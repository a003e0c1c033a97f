/-
The Redis keys of the write-behind counters.

Modelled from `core/cache.py` (`make_key`, `_escape_seg`, `_cache_env`) and `core/counters.py` (`counter_key`,
`parse_counter_key`). A key is a string: the list of its characters.
- `parse_counterKey`: `parse_counter_key` inverts `counter_key` if the name of the environment has no colon, and reads no
  key otherwise.
-/
import Mathlib.Data.List.Basic
import LkmService.Lib.Uuid

namespace LkmService.WriteBehind

/-! ## Keys -/

def escapeSeg (seg : Text) : Text :=
  (seg.flatMap fun c => if c = '%' then "%25".toList else [c]).flatMap fun c => if c = '|' then "%7C".toList else [c]

/-- `settings.env or "dev"` -/
def cacheEnv (env : Text) : Text := if env = [] then "dev".toList else env

/-- `lkm:{env}:{pre}:{parts…}` -/
def makeKey (env pre : Text) (parts : List Text) : Text :=
  "lkm:".toList ++ cacheEnv env ++ ':' :: pre ++ ':' :: ['|'].intercalate (parts.map escapeSeg)

def counterFields : List Text := ["like_count".toList, "comment_count".toList, "bookmark_count".toList]

/-- `none` stands for the `ValueError` -/
def counterKey (env field : Text) (objId : Uuid) : Option Text :=
  if field ∈ counterFields then some (makeKey env "count".toList [field, objId.str]) else none

def keySegments : ℕ := 4

/-- `s.partition(sep)`, without the separator -/
def partition (sep : Char) (s : Text) : Text × Text := (s.takeWhile (· ≠ sep), (s.dropWhile (· ≠ sep)).drop 1)

def parseCounterKey (key : Text) : Option (Text × Uuid) :=
  let parts := List.splitOn ':' key
  if parts.length ≠ keySegments then none
  else if parts[2]? ≠ some "count".toList then none
  else
    let (field, rawId) := partition '|' (parts.getLast?.getD [])
    if field ∈ counterFields then (Uuid.parse rawId).map fun objId => (field, objId) else none

/-! ## The round trip -/

theorem escapeSeg_of_plain {s : Text} (h : '%' ∉ s ∧ '|' ∉ s) : escapeSeg s = s := by
  have hkeep : ∀ (c : Char) (t l : Text), c ∉ l → (l.flatMap fun a => if a = c then t else [a]) = l := by
    intro c t l hl
    induction l with
    | nil => rfl
    | cons a l ih =>
      have ha : a ≠ c := fun he => hl (he ▸ List.mem_cons_self)
      rw [List.flatMap_cons, if_neg ha, ih fun hm => hl (List.mem_cons_of_mem _ hm)]
      rfl
  rw [escapeSeg, hkeep _ _ _ h.1, hkeep _ _ _ h.2]

theorem partition_append {sep : Char} {a b : Text} (h : sep ∉ a) : partition sep (a ++ sep :: b) = (a, b) := by
  have hall : ∀ c ∈ a, decide (c ≠ sep) = true := by
    intro c hc
    exact decide_eq_true fun he => h (he ▸ hc)
  have hsep : decide (sep ≠ sep) = false := by simp
  rw [partition, List.takeWhile_append_of_pos hall, List.dropWhile_append_of_pos hall,
    List.takeWhile_cons_of_neg (by simp), List.dropWhile_cons_of_neg (by simp), List.append_nil]
  rfl

/-- the segments of a counter's key -/
theorem splitOn_counterKey {env field : Text} (hfield : field ∈ counterFields) (objId : Uuid) :
    List.splitOn ':' (makeKey env "count".toList [field, objId.str]) =
      "lkm".toList :: (List.splitOn ':' (cacheEnv env) ++ ["count".toList, field ++ '|' :: objId.str]) := by
  have hplain : '%' ∉ field ∧ '|' ∉ field ∧ ':' ∉ field := by
    have hall : ∀ f ∈ counterFields, '%' ∉ f ∧ '|' ∉ f ∧ ':' ∉ f := by decide
    exact hall field hfield
  have hid : ∀ c, c ∉ "-0123456789abcdef".toList → c ∉ objId.str := fun c hc h => hc (Uuid.mem_str h)
  have hpayload : ':' ∉ field ++ '|' :: objId.str := by
    intro h
    rcases List.mem_append.1 h with h | h
    · exact hplain.2.2 h
    · rcases List.mem_cons.1 h with h | h
      · exact absurd h (by decide)
      · exact hid ':' (by decide) h
  have hkey : makeKey env "count".toList [field, objId.str] =
      "lkm".toList ++ ':' :: (cacheEnv env ++ ':' :: ("count".toList ++ ':' :: (field ++ '|' :: objId.str))) := by
    simp [makeKey, List.intercalate, escapeSeg_of_plain ⟨hplain.1, hplain.2.1⟩,
      escapeSeg_of_plain ⟨hid '%' (by decide), hid '|' (by decide)⟩]
  rw [hkey, List.splitOn_append_cons_self, List.splitOn_append_cons_self, List.splitOn_append_cons_self,
    List.splitOn_eq_singleton (by decide : ':' ∉ "lkm".toList),
    List.splitOn_eq_singleton (by decide : ':' ∉ "count".toList), List.splitOn_eq_singleton hpayload]
  rfl

/-- `parse_counter_key` inverts `counter_key`, unless the name of the environment has a colon -/
theorem parse_counterKey {env field key : Text} {objId : Uuid} (hkey : counterKey env field objId = some key) :
    parseCounterKey key = if ':' ∈ env then none else some (field, objId) := by
  unfold counterKey at hkey
  split_ifs at hkey with hfield
  obtain rfl := Option.some.inj hkey
  have henv : ':' ∈ cacheEnv env ↔ ':' ∈ env := by
    unfold cacheEnv
    split_ifs with h
    · rw [h]
      decide
    · rfl
  unfold parseCounterKey
  rw [splitOn_counterKey hfield]
  split_ifs with hcolon
  · -- two segments or more stand for the environment
    obtain ⟨a, b, hab⟩ := List.append_of_mem (henv.2 hcolon)
    have ha := List.length_pos_of_ne_nil (List.splitOn_ne_nil ':' a)
    have hb := List.length_pos_of_ne_nil (List.splitOn_ne_nil ':' b)
    rw [if_pos]
    rw [hab, List.splitOn_append_cons_self]
    simp only [List.length_cons, List.length_append, List.length_nil, keySegments]
    omega
  · have hbar : '|' ∉ field := by
      have hall : ∀ f ∈ counterFields, '|' ∉ f := by decide
      exact hall field hfield
    rw [List.splitOn_eq_singleton fun h => hcolon (henv.1 h)]
    simp [keySegments, partition_append hbar, hfield, Uuid.parse_str]

end LkmService.WriteBehind
