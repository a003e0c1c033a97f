/-
The keys of the cache (`core/cache.py`: `make_key`, `_escape_seg`).

A part of a key is `None` or a value with a string form. `%` and `|` are escaped in each part, one after the other, and
the parts are joined with `|`. The keys of the counters, whose parts are strings, are in `WriteBehind/Keys.lean`.
- `escapeSeg_eq`: the two replacements together write one code word for each character.
- `makeKey_injective`: within one environment and prefix, a key determines its parts.
-/
import LkmService.Lib.Text
import LkmService.WriteBehind.Keys

namespace LkmService.Cache

open WriteBehind (escapeSeg)

variable {P : Type} (str : P → Text)

/-- `"" if p is None else str(p)` -/
def segment (p : Option P) : Text := p.elim [] str

def makeKey (env pre : Text) (parts : List (Option P)) : Text := WriteBehind.makeKey env pre (parts.map (segment str))

/-! ## The escape -/

/-- what the two replacements make of one character -/
def codeWord (c : Char) : Text := if c = '%' then "%25".toList else if c = '|' then "%7C".toList else [c]

theorem escapeSeg_eq (seg : Text) : escapeSeg seg = seg.flatMap codeWord := by
  rw [escapeSeg, List.flatMap_assoc]
  refine congrArg (seg.flatMap ·) (funext fun c => ?_)
  by_cases hc : c = '%'
  · -- the first replacement writes no bar that the second would find
    rw [hc]
    decide
  · simp [codeWord, hc]

theorem codeWord_ne_nil (c : Char) : codeWord c ≠ [] := by
  unfold codeWord
  split_ifs <;> simp

theorem codeWord_prefixFree : Text.PrefixFree codeWord := by
  intro a b h
  unfold codeWord at h
  split_ifs at h <;> simp_all

theorem escapeSeg_injective : Function.Injective escapeSeg := by
  have hcode := codeWord_prefixFree.flatMap_injective codeWord_ne_nil
  intro s t h
  rw [escapeSeg_eq, escapeSeg_eq] at h
  exact hcode h

theorem bar_notMem_escapeSeg (seg : Text) : '|' ∉ escapeSeg seg := by
  intro h
  rw [escapeSeg_eq] at h
  obtain ⟨c, -, hc⟩ := List.mem_flatMap.1 h
  unfold codeWord at hc
  split_ifs at hc with h₁ h₂
  · exact absurd hc (by decide)
  · exact absurd hc (by decide)
  · exact h₂ (List.mem_singleton.1 hc).symm

/-! ## The key -/

/-- **Injective keys.** Of one environment and prefix, two lists of parts have one key only if they are equal as strings,
`None` being the empty string. -/
theorem makeKey_injective (env pre : Text) {ps qs : List (Option P)} (hp : ps ≠ []) (hq : qs ≠ []) :
    makeKey str env pre ps = makeKey str env pre qs ↔ ps.map (segment str) = qs.map (segment str) := by
  constructor
  · intro h
    simp only [makeKey, WriteBehind.makeKey, List.append_cancel_left_eq, List.cons.injEq, true_and] at h
    have hbar : ∀ (parts : List Text), ∀ s ∈ parts.map escapeSeg, '|' ∉ s := by
      intro parts s hs
      obtain ⟨t, -, rfl⟩ := List.mem_map.1 hs
      exact bar_notMem_escapeSeg t
    have hsegs := Text.intercalate_injective (by simpa using hp) (by simpa using hq) (hbar _) (hbar _) h
    exact escapeSeg_injective.list_map hsegs
  · intro h
    rw [makeKey, makeKey, h]

/-- the bar and the escape itself as characters of the parts -/
theorem makeKey_injective_demo :
    let key := makeKey id "prod".toList "tags".toList
    key [some "a|b".toList, some "c".toList] ≠ key [some "a".toList, some "b|c".toList] ∧
      key [some "%7C".toList] ≠ key [some "|".toList] := by
  refine ⟨fun h => ?_, fun h => ?_⟩
  · exact absurd ((makeKey_injective id _ _ (by simp) (by simp)).1 h) (by decide)
  · exact absurd ((makeKey_injective id _ _ (by simp) (by simp)).1 h) (by decide)

end LkmService.Cache
