/-
UUIDs as text: `str(u)` and the constructor `UUID(hex)` of Python, over strings as lists of characters.

- `Uuid.str`: 32 lower-case digits in groups of 8, 4, 4, 4 and 12.
- `Uuid.parse`: `urn:` and `uuid:` are taken out, braces stripped, hyphens taken out; what is left must be 32 characters
  that `int(_, 16)` reads as a number below 2 ^ 128.
- `parse_str`: what `str` writes, `parse` reads back.
-/
import Mathlib.Data.Nat.Notation
import Mathlib.Tactic.Common
import Mathlib.Tactic.IntervalCases
import Mathlib.Tactic.Ring

namespace LkmService

abbrev Text := List Char

/-- 128 bits -/
abbrev Uuid := Fin (2 ^ 128)

instance Text.lawfulBEq : LawfulBEq Text := inferInstance

instance Uuid.neZero : NeZero (2 ^ 128) := ⟨by decide⟩

instance Uuid.lawfulBEq : LawfulBEq Uuid := inferInstance

namespace Uuid

/-! ## Digits -/

def hexDigit (n : ℕ) : Char := if n < 10 then Char.ofNat (48 + n) else Char.ofNat (87 + n)

def hexValue (c : Char) : Option ℕ :=
  if '0' ≤ c ∧ c ≤ '9' then some (c.toNat - 48)
  else if 'a' ≤ c ∧ c ≤ 'f' then some (c.toNat - 87)
  else if 'A' ≤ c ∧ c ≤ 'F' then some (c.toNat - 55)
  else none

/-- the last `k` digits of `n` -/
def hexDigits : ℕ → ℕ → Text
  | 0, _ => []
  | k + 1, n => hexDigit (n / 16 ^ k % 16) :: hexDigits k n

/-- digits after the ones whose value is `acc`; an underscore may stand between two digits -/
def readDigits (acc : ℕ) : Text → Option ℕ
  | [] => some acc
  | '_' :: c :: cs => (hexValue c).bind fun v => readDigits (16 * acc + v) cs
  | c :: cs => (hexValue c).bind fun v => readDigits (16 * acc + v) cs

def isSpace (c : Char) : Bool := c.toNat ∈ [9, 10, 11, 12, 13, 28, 29, 30, 31, 32]

def stripBy (p : Char → Bool) (s : Text) : Text := ((s.dropWhile p).reverse.dropWhile p).reverse

/-- `int(s, 16)` of a string without a minus sign -/
def int16 (s : Text) : Option ℕ :=
  let s := stripBy isSpace s
  let s := match s with
    | '+' :: t => t
    | _ => s
  let s := match s with
    | '0' :: 'x' :: '_' :: t => t
    | '0' :: 'X' :: '_' :: t => t
    | '0' :: 'x' :: t => t
    | '0' :: 'X' :: t => t
    | _ => s
  match s with
  | [] => none
  | '_' :: _ => none
  | _ => readDigits 0 s

/-! ## The two conversions -/

/-- `str(u)` -/
def str (u : Uuid) : Text :=
  let h := hexDigits 32 u
  h.take 8 ++ '-' :: ((h.drop 8).take 4 ++ '-' :: ((h.drop 12).take 4 ++ '-' :: ((h.drop 16).take 4 ++ '-' :: h.drop 20)))

/-- `s.replace(sub, '')`; `skip` characters belong to an occurrence already found -/
def remove (sub : Text) : ℕ → Text → Text
  | _, [] => []
  | skip + 1, _ :: cs => remove sub skip cs
  | 0, c :: cs => if sub.isPrefixOf (c :: cs) then remove sub (sub.length - 1) cs else c :: remove sub 0 cs

/-- `UUID(s)`; `none` stands for the `ValueError` -/
def parse (s : Text) : Option Uuid :=
  let hex := (stripBy (fun c => c = '{' || c = '}') (remove "uuid:".toList 0 (remove "urn:".toList 0 s))).filter (· ≠ '-')
  if hex.length = 32 then
    match int16 hex with
    | some n => if h : n < 2 ^ 128 then some ⟨n, h⟩ else none
    | none => none
  else none

/-! ## The round trip -/

theorem hexDigit_spec : ∀ n < 16, hexValue (hexDigit n) = some n ∧ hexDigit n ∈ "0123456789abcdef".toList := by decide

theorem mem_hexDigits {k n : ℕ} {c : Char} (h : c ∈ hexDigits k n) : c ∈ "0123456789abcdef".toList := by
  induction k with
  | zero => cases h
  | succ k ih =>
    rcases List.mem_cons.1 h with rfl | h
    · exact (hexDigit_spec _ (Nat.mod_lt _ (by decide))).2
    · exact ih h

@[simp] theorem length_hexDigits (k n : ℕ) : (hexDigits k n).length = k := by
  induction k with
  | zero => rfl
  | succ k ih => rw [hexDigits, List.length_cons, ih]

theorem readDigits_digit {d acc : ℕ} (hd : d < 16) (cs : Text) :
    readDigits acc (hexDigit d :: cs) = readDigits (16 * acc + d) cs := by
  interval_cases d <;> rfl

theorem readDigits_hexDigits (k n acc : ℕ) : readDigits acc (hexDigits k n) = some (acc * 16 ^ k + n % 16 ^ k) := by
  induction k generalizing acc with
  | zero => simp [hexDigits, readDigits, Nat.mod_one]
  | succ k ih =>
    rw [hexDigits, readDigits_digit (Nat.mod_lt _ (by decide)), ih, Nat.mod_pow_succ, pow_succ]
    congr 1
    ring

theorem stripBy_of_none {p : Char → Bool} {s : Text} (h : ∀ c ∈ s, p c = false) : stripBy p s = s := by
  have hdrop : ∀ l : Text, (∀ c ∈ l, p c = false) → l.dropWhile p = l := by
    intro l hl
    cases l with
    | nil => rfl
    | cons c l => rw [List.dropWhile_cons, hl c List.mem_cons_self, if_neg Bool.false_ne_true]
  rw [stripBy, hdrop s h, hdrop s.reverse (fun c hc => h c (List.mem_reverse.1 hc)), List.reverse_reverse]

theorem remove_of_not_mem {sub s : Text} {c : Char} (hsub : c ∈ sub) (hs : c ∉ s) : remove sub 0 s = s := by
  induction s with
  | nil => rfl
  | cons a s ih =>
    have hno : ¬ sub.isPrefixOf (a :: s) = true := by
      intro h
      exact hs ((List.isPrefixOf_iff_prefix.1 h).subset hsub)
    rw [remove, if_neg hno, ih fun h => hs (List.mem_cons_of_mem _ h)]

/-- digits are read as a number -/
theorem int16_hexDigits {k : ℕ} (n : ℕ) : int16 (hexDigits (k + 2) n) = some (n % 16 ^ (k + 2)) := by
  have hspace : stripBy isSpace (hexDigits (k + 2) n) = hexDigits (k + 2) n := by
    apply stripBy_of_none
    intro c hc
    have hall : ∀ c ∈ "0123456789abcdef".toList, isSpace c = false := by simp [isSpace]
    exact hall c (mem_hexDigits hc)
  -- no sign and no prefix: the first two characters are digits
  have hplain : ∀ a < 16, ∀ b < 16, ∀ t : Text, stripBy isSpace (hexDigit a :: hexDigit b :: t) = hexDigit a :: hexDigit b :: t →
      int16 (hexDigit a :: hexDigit b :: t) = readDigits 0 (hexDigit a :: hexDigit b :: t) := by
    intro a ha b hb t hstrip
    unfold int16
    rw [hstrip]
    interval_cases a <;> first | rfl | (interval_cases b <;> rfl)
  have hread := readDigits_hexDigits (k + 2) n 0
  rw [hexDigits, hexDigits] at hspace hread ⊢
  rw [hplain _ (Nat.mod_lt _ (by decide)) _ (Nat.mod_lt _ (by decide)) _ hspace, hread, Nat.zero_mul, Nat.zero_add]

theorem mem_str {u : Uuid} {c : Char} (h : c ∈ str u) : c ∈ "-0123456789abcdef".toList := by
  have hdigits : ∀ c ∈ hexDigits 32 u, c ∈ "-0123456789abcdef".toList := fun c hc =>
    List.mem_cons_of_mem _ (mem_hexDigits hc)
  simp only [str, List.mem_append, List.mem_cons] at h
  rcases h with h | rfl | h | rfl | h | rfl | h | rfl | h
  · exact hdigits c (List.mem_of_mem_take h)
  · decide
  · exact hdigits c (List.mem_of_mem_drop (List.mem_of_mem_take h))
  · decide
  · exact hdigits c (List.mem_of_mem_drop (List.mem_of_mem_take h))
  · decide
  · exact hdigits c (List.mem_of_mem_drop (List.mem_of_mem_take h))
  · decide
  · exact hdigits c (List.mem_of_mem_drop h)

theorem filter_str (u : Uuid) : (str u).filter (· ≠ '-') = hexDigits 32 u := by
  have hkeep : ∀ l : Text, (∀ c ∈ l, c ∈ hexDigits 32 u) → l.filter (· ≠ '-') = l := by
    intro l hl
    rw [List.filter_eq_self]
    intro c hc
    have hall : ∀ c ∈ "0123456789abcdef".toList, decide (c ≠ '-') = true := by simp
    exact hall c (mem_hexDigits (hl c hc))
  have hpart : ∀ a b, (((hexDigits 32 u).drop a).take b).filter (· ≠ '-') = ((hexDigits 32 u).drop a).take b :=
    fun a b => hkeep _ fun c hc => List.mem_of_mem_drop (List.mem_of_mem_take hc)
  have hhead : ((hexDigits 32 u).take 8).filter (· ≠ '-') = (hexDigits 32 u).take 8 :=
    hkeep _ fun c hc => List.mem_of_mem_take hc
  have htail : ((hexDigits 32 u).drop 20).filter (· ≠ '-') = (hexDigits 32 u).drop 20 :=
    hkeep _ fun c hc => List.mem_of_mem_drop hc
  have hdash : ∀ l : Text, ('-' :: l).filter (· ≠ '-') = l.filter (· ≠ '-') := fun l => List.filter_cons_of_neg (by decide)
  simp only [str, List.filter_append, hdash, hpart, hhead, htail]
  have hsplit : ∀ (l : Text) (a b : ℕ), (l.drop a).take b ++ l.drop (a + b) = l.drop a := by
    intro l a b
    rw [← List.drop_drop, List.take_append_drop]
  rw [hsplit _ 16 4, hsplit _ 12 4, hsplit _ 8 4, List.take_append_drop]

/-- **Round trip.** -/
theorem parse_str (u : Uuid) : parse (str u) = some u := by
  have hmem : ∀ c : Char, c ∉ "-0123456789abcdef".toList → c ∉ str u := fun c hc h => hc (mem_str h)
  have hstrip : stripBy (fun c => c = '{' || c = '}') (str u) = str u := by
    apply stripBy_of_none
    intro c hc
    have hall : ∀ c ∈ "-0123456789abcdef".toList, (decide (c = '{') || decide (c = '}')) = false := by simp
    exact hall c (mem_str hc)
  unfold parse
  rw [remove_of_not_mem (c := ':') (by decide) (hmem ':' (by decide)),
    remove_of_not_mem (c := ':') (by decide) (hmem ':' (by decide)), hstrip, filter_str]
  have hlt : u.val % 16 ^ 32 = u.val := Nat.mod_eq_of_lt (by have := u.isLt; norm_num at this ⊢; exact this)
  rw [if_pos (length_hexDigits 32 u), int16_hexDigits, hlt]
  dsimp only
  rw [dif_pos u.isLt]

end Uuid

end LkmService
