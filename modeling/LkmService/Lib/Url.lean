/-
Texts in URLs: what stays of a text that is URL-encoded, and where.

- `encode`: letters, digits and `-_.~` stay, a blank becomes `+`, everything else the `%XX` of its bytes. Whether a slash
  stays is a parameter: services differ in it.
- `encode_eq_self`: a plain text stays as it is.
- `plain_of_prefix`: a text and a slash begin their own encoding only if the text is plain.
-/
import LkmService.Lib.Uuid
import Mathlib.Data.List.Basic

namespace LkmService.Url

variable {keepSlash : Bool} {c : Char} {s t : Text}

/-! ## Encoding -/

def unreserved (c : Char) : Bool := c.isAlphanum || decide (c ∈ ['-', '_', '.', '~'])

/-- a character that is not encoded -/
def plain (keepSlash : Bool) (c : Char) : Bool := unreserved c || (keepSlash && decide (c = '/'))

def upperHex (n : ℕ) : Char := if n < 10 then Char.ofNat (48 + n) else Char.ofNat (55 + n)

def escapeByte (b : UInt8) : Text := ['%', upperHex (b.toNat / 16), upperHex (b.toNat % 16)]

def escape (keepSlash : Bool) (c : Char) : Text :=
  if plain keepSlash c then [c]
  else if c = ' ' then ['+']
  else (String.utf8EncodeChar c).flatMap escapeByte

def encode (keepSlash : Bool) (s : Text) : Text := s.flatMap (escape keepSlash)

/-! ## What stays -/

theorem encode_append : encode keepSlash (s ++ t) = encode keepSlash s ++ encode keepSlash t := List.flatMap_append

theorem escape_plain (h : plain keepSlash c = true) : escape keepSlash c = [c] := if_pos h

theorem encode_eq_self (h : ∀ c ∈ s, plain keepSlash c = true) : encode keepSlash s = s := by
  induction s with
  | nil => rfl
  | cons c s ih =>
    rw [encode, List.flatMap_cons, escape_plain (h c List.mem_cons_self)]
    exact congrArg (c :: ·) (ih fun d hd => h d (List.mem_cons_of_mem _ hd))

theorem upperHex_ne_slash : ∀ n < 16, upperHex n ≠ '/' := by decide

theorem slash_not_mem_escapeByte (b : UInt8) : '/' ∉ escapeByte b := by
  have hb : b.toNat < 256 := b.toNat_lt
  have hhigh := upperHex_ne_slash (b.toNat / 16) (by omega)
  have hlow := upperHex_ne_slash (b.toNat % 16) (by omega)
  simp [escapeByte, hhigh.symm, hlow.symm]

/-- only a slash that stays gives a slash -/
theorem slash_not_mem_escape (h : c = '/' → keepSlash = false) : '/' ∉ escape keepSlash c := by
  unfold escape
  split_ifs with hplain hblank
  · intro hslash
    obtain rfl := List.mem_singleton.1 hslash
    rw [h rfl] at hplain
    exact absurd hplain (by decide)
  · decide
  · intro hslash
    obtain ⟨b, -, hb⟩ := List.mem_flatMap.1 hslash
    exact slash_not_mem_escapeByte b hb

theorem slash_not_mem_encode (h : '/' ∈ s → keepSlash = false) : '/' ∉ encode keepSlash s := by
  intro hslash
  obtain ⟨c, hc, hmem⟩ := List.mem_flatMap.1 hslash
  exact slash_not_mem_escape (fun heq => h (heq ▸ hc)) hmem

theorem utf8EncodeChar_ne_nil (c : Char) : String.utf8EncodeChar c ≠ [] := by
  simp only [String.utf8EncodeChar]
  split_ifs <;> simp

/-- a character that is encoded begins with another, or is not alone -/
theorem escape_changes (h : plain keepSlash c = false) : ∃ d w, escape keepSlash c = d :: w ∧ (d = c → w ≠ []) := by
  have hnot : ¬ plain keepSlash c = true := by simp [h]
  unfold escape
  rw [if_neg hnot]
  split_ifs with hblank
  · exact ⟨'+', [], rfl, fun heq => by simp [hblank] at heq⟩
  · obtain ⟨b, bs, hbytes⟩ := List.exists_cons_of_ne_nil (utf8EncodeChar_ne_nil c)
    refine ⟨'%', upperHex (b.toNat / 16) :: upperHex (b.toNat % 16) :: bs.flatMap escapeByte, ?_, fun _ => by simp⟩
    rw [hbytes]
    rfl

theorem escape_ne_nil (c : Char) : escape keepSlash c ≠ [] := by
  by_cases hplain : plain keepSlash c = true
  · simp [escape_plain hplain]
  · obtain ⟨d, w, hescape, -⟩ := escape_changes (Bool.not_eq_true _ ▸ hplain)
    simp [hescape]

/-! ## A text that begins its encoding -/

/-- the encoding lags behind by `w`, and a lag without a slash never ends -/
theorem not_prefix_of_lag {w : Text} (hne : w ≠ []) (hslash : '/' ∉ w) :
    ¬ s ++ ['/'] <+: w ++ (encode true s ++ t) := by
  induction s generalizing w with
  | nil =>
    obtain ⟨d, w, rfl⟩ := List.exists_cons_of_ne_nil hne
    intro hprefix
    have heq : '/' = d := (List.cons_prefix_cons.1 hprefix).1
    exact hslash (heq ▸ List.mem_cons_self)
  | cons c s ih =>
    obtain ⟨d, w, rfl⟩ := List.exists_cons_of_ne_nil hne
    intro hprefix
    rw [List.cons_append, List.cons_append, List.cons_prefix_cons] at hprefix
    obtain ⟨rfl, hrest⟩ := hprefix
    have hlag : '/' ∉ w ++ escape true c := by
      intro hmem
      rcases List.mem_append.1 hmem with hw | hescape
      · exact hslash (List.mem_cons_of_mem _ hw)
      · exact slash_not_mem_escape (fun heq => absurd (heq ▸ List.mem_cons_self) hslash) hescape
    refine ih ?_ hlag ?_
    · simp [escape_ne_nil]
    · simpa [encode] using hrest

theorem plain_of_prefix (h : s ++ ['/'] <+: encode true s ++ t) : ∀ c ∈ s, plain true c = true := by
  induction s with
  | nil =>
    intro c hc
    cases hc
  | cons c s ih =>
    by_cases hplain : plain true c = true
    · rw [encode, List.flatMap_cons, escape_plain hplain, List.cons_append, List.singleton_append, List.cons_append,
        List.cons_prefix_cons] at h
      intro d hd
      rcases List.mem_cons.1 hd with rfl | hd
      · exact hplain
      · exact ih h.2 d hd
    · -- behind a character that is encoded, the encoding lags
      obtain ⟨d, w, hescape, hrest⟩ := escape_changes (Bool.not_eq_true _ ▸ hplain)
      rw [encode, List.flatMap_cons, hescape, List.cons_append, List.cons_append, List.cons_append,
        List.cons_prefix_cons] at h
      obtain ⟨rfl, hprefix⟩ := h
      have hslash : '/' ∉ c :: w := hescape ▸ slash_not_mem_escape fun heq => by simp [heq, plain] at hplain
      have hlag : s ++ ['/'] <+: w ++ (encode true s ++ t) := by simpa [encode] using hprefix
      exact absurd hlag (not_prefix_of_lag (hrest rfl) fun hw => hslash (List.mem_cons_of_mem _ hw))

end LkmService.Url
