/-
Texts as bytes: `str.encode()` and `bytes.decode("utf-8", errors="replace")` of Python.

- `decode` goes byte by byte; the bytes of a character that breaks off become one replacement character.
- `decode_encode`: what is encoded decodes to itself.
-/
import LkmService.Lib.Uuid
import Mathlib.Data.List.Basic

namespace LkmService

abbrev Bytes := List UInt8

namespace Utf8

def encode (t : Text) : Bytes := t.flatMap String.utf8EncodeChar

/-- a character that has begun: `need` more bytes, of which the next lies between `lo` and `hi` -/
structure Pending where
  need : ℕ
  value : ℕ
  lo : ℕ := 0x80
  hi : ℕ := 0xbf

def replacement : Char := '\uFFFD'

/-- a byte between two characters -/
def first (b : ℕ) : Text × Option Pending :=
  if b < 0x80 then ([Char.ofNat b], none)
  else if 0xc2 ≤ b ∧ b ≤ 0xdf then ([], some { need := 1, value := b - 0xc0 })
  else if 0xe0 ≤ b ∧ b ≤ 0xef then
    ([], some { need := 2, value := b - 0xe0, lo := if b = 0xe0 then 0xa0 else 0x80, hi := if b = 0xed then 0x9f else 0xbf })
  else if 0xf0 ≤ b ∧ b ≤ 0xf4 then
    ([], some { need := 3, value := b - 0xf0, lo := if b = 0xf0 then 0x90 else 0x80, hi := if b = 0xf4 then 0x8f else 0xbf })
  else ([replacement], none)

def next (b : ℕ) : Option Pending → Text × Option Pending
  | none => first b
  | some p =>
    if p.lo ≤ b ∧ b ≤ p.hi then
      let value := 64 * p.value + (b - 0x80)
      if p.need = 1 then ([Char.ofNat value], none) else ([], some { need := p.need - 1, value := value })
    else (replacement :: (first b).1, (first b).2)

def decodeFrom (p : Option Pending) : Bytes → Text
  | [] => if p.isSome then [replacement] else []
  | b :: rest => (next b.toNat p).1 ++ decodeFrom (next b.toNat p).2 rest

def decode (bs : Bytes) : Text := decodeFrom none bs

variable {bs : Bytes} {b : ℕ} {p : Option Pending}

theorem decodeFrom_ofNat (h : b < 256) :
    decodeFrom p (UInt8.ofNat b :: bs) = (next b p).1 ++ decodeFrom (next b p).2 bs := by
  rw [decodeFrom, UInt8.toNat_ofNat_of_lt' h]

/-- a byte that goes on with a character, but does not end it -/
theorem decodeFrom_tail {q : Pending} (h : b < 256) (hlo : q.lo ≤ b) (hhi : b ≤ q.hi) (hneed : q.need ≠ 1) :
    decodeFrom (some q) (UInt8.ofNat b :: bs) =
      decodeFrom (some { need := q.need - 1, value := 64 * q.value + (b - 0x80) }) bs := by
  rw [decodeFrom_ofNat h, next, if_pos ⟨hlo, hhi⟩, if_neg hneed]
  rfl

theorem decodeFrom_last {q : Pending} (h : b < 256) (hlo : q.lo ≤ b) (hhi : b ≤ q.hi) (hneed : q.need = 1) :
    decodeFrom (some q) (UInt8.ofNat b :: bs) = Char.ofNat (64 * q.value + (b - 0x80)) :: decodeFrom none bs := by
  rw [decodeFrom_ofNat h, next, if_pos ⟨hlo, hhi⟩, if_pos hneed]
  rfl

/-- by the number of bytes of the character -/
theorem decodeFrom_utf8EncodeChar (c : Char) : decodeFrom none (String.utf8EncodeChar c ++ bs) = c :: decodeFrom none bs := by
  have hvalid : c.val.toNat < 0xd800 ∨ 0xdfff < c.val.toNat ∧ c.val.toNat < 0x110000 := c.valid
  have hc : Char.ofNat c.val.toNat = c := Char.ofNat_toNat c
  unfold String.utf8EncodeChar
  generalize c.val.toNat = v at hvalid hc
  simp only
  split_ifs with h1 h2 h3
  · rw [List.singleton_append, decodeFrom_ofNat (by omega), next, first, if_pos (by omega), hc]
    rfl
  · have hfirst : first (v / 64 % 32 + 0xc0) = ([], some { need := 1, value := v / 64 % 32 + 0xc0 - 0xc0 }) := by
      rw [first, if_neg (by omega), if_pos (by omega)]
    rw [List.cons_append, decodeFrom_ofNat (by omega), next, hfirst, List.nil_append, List.singleton_append,
      decodeFrom_last (by omega) (by simp only; omega) (by simp only; omega) rfl]
    rw [show 64 * (v / 64 % 32 + 0xc0 - 0xc0) + (v % 64 + 0x80 - 0x80) = v by omega, hc]
  · have hfirst : ∃ lo hi, first (v / 4096 % 16 + 0xe0) = ([], some ⟨2, v / 4096 % 16 + 0xe0 - 0xe0, lo, hi⟩) ∧
        lo ≤ v / 64 % 64 + 0x80 ∧ v / 64 % 64 + 0x80 ≤ hi := by
      rw [first, if_neg (by omega), if_neg (by omega), if_pos (by omega)]
      refine ⟨_, _, rfl, ?_, ?_⟩ <;> split_ifs <;> omega
    obtain ⟨lo, hi, hfirst, hlo, hhi⟩ := hfirst
    rw [List.cons_append, decodeFrom_ofNat (by omega), next, hfirst, List.nil_append, List.cons_append,
      decodeFrom_tail (by omega) hlo hhi (by simp), List.singleton_append,
      decodeFrom_last (by omega) (by simp only; omega) (by simp only; omega) rfl]
    rw [show 64 * (64 * (v / 4096 % 16 + 0xe0 - 0xe0) + (v / 64 % 64 + 0x80 - 0x80)) + (v % 64 + 0x80 - 0x80) = v by omega, hc]
  · have hfirst : ∃ lo hi, first (v / 262144 % 8 + 0xf0) = ([], some ⟨3, v / 262144 % 8 + 0xf0 - 0xf0, lo, hi⟩) ∧
        lo ≤ v / 4096 % 64 + 0x80 ∧ v / 4096 % 64 + 0x80 ≤ hi := by
      rw [first, if_neg (by omega), if_neg (by omega), if_neg (by omega), if_pos (by omega)]
      refine ⟨_, _, rfl, ?_, ?_⟩ <;> split_ifs <;> omega
    obtain ⟨lo, hi, hfirst, hlo, hhi⟩ := hfirst
    rw [List.cons_append, decodeFrom_ofNat (by omega), next, hfirst, List.nil_append, List.cons_append,
      decodeFrom_tail (by omega) hlo hhi (by simp), List.cons_append,
      decodeFrom_tail (by omega) (by simp only; omega) (by simp only; omega) (by simp), List.singleton_append,
      decodeFrom_last (by omega) (by simp only; omega) (by simp only; omega) rfl]
    rw [show 64 * (64 * (64 * (v / 262144 % 8 + 0xf0 - 0xf0) + (v / 4096 % 64 + 0x80 - 0x80)) + (v / 64 % 64 + 0x80 - 0x80)) +
      (v % 64 + 0x80 - 0x80) = v by omega, hc]

theorem decode_encode (t : Text) : decode (encode t) = t := by
  unfold decode encode
  induction t with
  | nil => rfl
  | cons c t ih => rw [List.flatMap_cons, decodeFrom_utf8EncodeChar, ih]

theorem encode_injective : Function.Injective encode := Function.LeftInverse.injective decode_encode

/-! ## ASCII -/

def ascii (bs : Bytes) : Text := bs.map fun b => Char.ofNat b.toNat

theorem toNat_ofNat_byte (b : UInt8) : (Char.ofNat b.toNat).toNat = b.toNat := by
  have hb := b.toNat_lt
  rw [Char.ofNat, dif_pos (.inl (by omega))]
  rfl

theorem ofNat_byte_injective : Function.Injective fun b : UInt8 => Char.ofNat b.toNat := by
  intro a b h
  have hnat := congrArg Char.toNat h
  simp only [toNat_ofNat_byte] at hnat
  exact UInt8.toNat_inj.1 hnat

theorem ascii_injective : Function.Injective ascii := List.map_injective_iff.2 ofNat_byte_injective

theorem encode_ascii (h : ∀ b ∈ bs, b < 128) : encode (ascii bs) = bs := by
  unfold encode ascii
  induction bs with
  | nil => rfl
  | cons b bs ih =>
    have hb : b < 128 := h b List.mem_cons_self
    have hval : (Char.ofNat b.toNat).val.toNat = b.toNat := toNat_ofNat_byte b
    have hsmall : b.toNat < 128 := UInt8.lt_iff_toNat_lt.1 hb
    rw [List.map_cons, List.flatMap_cons, ih fun b hb => h b (List.mem_cons_of_mem _ hb), String.utf8EncodeChar]
    simp only [hval]
    rw [if_pos (by omega), UInt8.ofNat_toNat, List.singleton_append]

theorem decode_ascii (h : ∀ b ∈ bs, b < 128) : decode bs = ascii bs := by
  calc decode bs = decode (encode (ascii bs)) := by rw [encode_ascii h]
    _ = ascii bs := decode_encode _

theorem ascii_flatMap {names : List Bytes} (f : Bytes → Bytes) : ascii (names.flatMap f) = names.flatMap fun n => ascii (f n) := by
  rw [ascii, List.map_flatMap]
  rfl

end Utf8

end LkmService
