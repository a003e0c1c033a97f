/-
JSON as the `json` module of Python writes and reads it, over strings as lists of characters.

- `Value F`: what `json.loads` builds. The finite floats are a parameter: `Floats` has their `repr`, which is a literal with
  a fraction or an exponent, and the `float(text)` that reads it back.
- `dumps`: `json.dumps(value, ensure_ascii=False)`. `loads`: `json.loads(text)`, where `none` is the `JSONDecodeError`.
- `Keyed v`: no dictionary within `v` has a key twice.
- `loads_dumps`: what `dumps` writes, `loads` reads back.

Of a `\u` escape of half a surrogate pair `loads` makes no text here: no `Char` stands for it.
-/
import LkmService.Lib.OrderedDict
import LkmService.Lib.Uuid

namespace LkmService.Json

/-! ## Values -/

/-- a `float` -/
inductive Number (F : Type) where
  | finite (x : F)
  | nan
  | infinity (neg : Bool)
deriving DecidableEq, Repr

inductive Value (F : Type) where
  | null
  | bool (b : Bool)
  | int (n : ℤ)
  | float (x : Number F)
  | str (s : Text)
  | arr (items : List (Value F))
  | obj (members : List (Text × Value F))

/-! ## Literals -/

def isDigits (s : Text) : Prop := s ≠ [] ∧ ∀ c ∈ s, c.isDigit = true

/-- what `-?(0|[1-9]\d*)(\.\d+)?([eE][-+]?\d+)?` matches -/
structure Literal where
  neg : Bool
  whole : Text
  frac : Option Text
  exp : Option (Char × Option Char × Text)
deriving DecidableEq, Repr

namespace Literal

def exponent : Char × Option Char × Text → Text
  | (mark, sign, digits) => mark :: (sign.toList ++ digits)

def text (l : Literal) : Text :=
  (if l.neg then ['-'] else []) ++ (l.whole ++ ((l.frac.elim [] fun ds => '.' :: ds) ++ l.exp.elim [] exponent))

structure Proper (l : Literal) : Prop where
  whole : l.whole = ['0'] ∨ isDigits l.whole ∧ l.whole.head? ≠ some '0'
  frac : ∀ ds, l.frac = some ds → isDigits ds
  exp : ∀ mark sign ds, l.exp = some (mark, sign, ds) →
    (mark = 'e' ∨ mark = 'E') ∧ (∀ c, sign = some c → c = '+' ∨ c = '-') ∧ isDigits ds

def isFloat (l : Literal) : Bool := l.frac.isSome || l.exp.isSome

def toInt (l : Literal) : ℤ := if l.neg then -(Nat.ofDigitChars 10 l.whole 0 : ℤ) else Nat.ofDigitChars 10 l.whole 0

end Literal

/-- the finite floats: `repr(x)` and `float(text)` -/
structure Floats (F : Type) where
  repr : F → Text
  parse : Text → Number F
  literal : ∀ x, ∃ l : Literal, l.Proper ∧ l.isFloat = true ∧ l.text = repr x
  parse_repr : ∀ x, parse (repr x) = .finite x

variable {F : Type} (fl : Floats F)

/-! ## Writing -/

def escape (c : Char) : Text :=
  if c = '"' then ['\\', '"']
  else if c = '\\' then ['\\', '\\']
  else if c = '\n' then ['\\', 'n']
  else if c = '\r' then ['\\', 'r']
  else if c = '\t' then ['\\', 't']
  else if c = '\x0c' then ['\\', 'f']
  else if c = '\x08' then ['\\', 'b']
  else if c.toNat < 32 then '\\' :: 'u' :: Uuid.hexDigits 4 c.toNat
  else [c]

def dumpStr (s : Text) : Text := '"' :: (s.flatMap escape ++ ['"'])

def dumpInt (n : ℤ) : Text := (if n < 0 then ['-'] else []) ++ Nat.toDigits 10 n.natAbs

def dumpFloat : Number F → Text
  | .finite x => fl.repr x
  | .nan => ['N', 'a', 'N']
  | .infinity neg => (if neg then ['-'] else []) ++ ['I', 'n', 'f', 'i', 'n', 'i', 't', 'y']

mutual

def dumps : Value F → Text
  | .null => ['n', 'u', 'l', 'l']
  | .bool true => ['t', 'r', 'u', 'e']
  | .bool false => ['f', 'a', 'l', 's', 'e']
  | .int n => dumpInt n
  | .float x => dumpFloat fl x
  | .str s => dumpStr s
  | .arr [] => ['[', ']']
  | .arr (v :: vs) => '[' :: (dumps v ++ (dumpItems vs ++ [']']))
  | .obj [] => ['{', '}']
  | .obj ((k, v) :: members) => '{' :: (dumpStr k ++ (':' :: ' ' :: (dumps v ++ (dumpMembers members ++ ['}']))))

/-- the items after the first -/
def dumpItems : List (Value F) → Text
  | [] => []
  | v :: vs => ',' :: ' ' :: (dumps v ++ dumpItems vs)

/-- the members after the first -/
def dumpMembers : List (Text × Value F) → Text
  | [] => []
  | (k, v) :: members => ',' :: ' ' :: (dumpStr k ++ (':' :: ' ' :: (dumps v ++ dumpMembers members)))

end

/-! ## Reading -/

def isWhite (c : Char) : Bool := decide (c = ' ') || decide (c = '\t') || decide (c = '\n') || decide (c = '\r')

def skip (s : Text) : Text := s.dropWhile isWhite

/-- the text after the word -/
def word (w s : Text) : Option Text := if w.isPrefixOf s then some (s.drop w.length) else none

def hex4 : Text → Option (ℕ × Text)
  | a :: b :: c :: d :: rest => do
    let a ← Uuid.hexValue a
    let b ← Uuid.hexValue b
    let c ← Uuid.hexValue c
    let d ← Uuid.hexValue d
    pure (((a * 16 + b) * 16 + c) * 16 + d, rest)
  | _ => none

/-- the character that an escape stands for, after its backslash -/
def unescape : Text → Option (Char × Text)
  | 'u' :: rest => do
    let (n, rest) ← hex4 rest
    if 0xd800 ≤ n ∧ n ≤ 0xdbff then
      let (m, rest) ← (word ['\\', 'u'] rest).bind hex4
      if 0xdc00 ≤ m ∧ m ≤ 0xdfff then pure (Char.ofNat (0x10000 + (n - 0xd800) * 0x400 + (m - 0xdc00)), rest) else none
    else if 0xdc00 ≤ n ∧ n ≤ 0xdfff then none
    else pure (Char.ofNat n, rest)
  | c :: rest =>
    if c = '"' ∨ c = '\\' ∨ c = '/' then some (c, rest)
    else if c = 'b' then some ('\x08', rest)
    else if c = 'f' then some ('\x0c', rest)
    else if c = 'n' then some ('\n', rest)
    else if c = 'r' then some ('\r', rest)
    else if c = 't' then some ('\t', rest)
    else none
  | [] => none

/-- the next character of a string; `none` within the answer is its end -/
def scanChar : Text → Option (Option Char × Text)
  | [] => none
  | c :: rest =>
    if c = '"' then some (none, rest)
    else if c = '\\' then (unescape rest).map fun q => (some q.1, q.2)
    else if c.toNat < 32 then none
    else some (some c, rest)

def scanChars : ℕ → Text → Option (Text × Text)
  | 0, _ => none
  | fuel + 1, s => do
    match ← scanChar s with
    | (none, rest) => pure ([], rest)
    | (some c, rest) =>
      let (cs, rest) ← scanChars fuel rest
      pure (c :: cs, rest)

/-- a string after its opening quote -/
def scanString (s : Text) : Option (Text × Text) := scanChars (s.length + 1) s

/-- the digits at the front, of which there is one at least -/
def scanDigits (s : Text) : Option (Text × Text) :=
  if s.takeWhile Char.isDigit = [] then none else some (s.takeWhile Char.isDigit, s.dropWhile Char.isDigit)

def scanWhole : Text → Option (Text × Text)
  | '0' :: rest => some (['0'], rest)
  | s => scanDigits s

def scanFrac : Text → Option Text × Text
  | '.' :: rest =>
    match scanDigits rest with
    | some (ds, rest) => (some ds, rest)
    | none => (none, '.' :: rest)
  | s => (none, s)

def scanSign : Text → Option Char × Text
  | [] => (none, [])
  | c :: rest => if c = '+' ∨ c = '-' then (some c, rest) else (none, c :: rest)

def scanExp : Text → Option (Char × Option Char × Text) × Text
  | [] => (none, [])
  | mark :: rest =>
    if mark = 'e' ∨ mark = 'E' then
      match scanDigits (scanSign rest).2 with
      | some (ds, rest') => (some (mark, (scanSign rest).1, ds), rest')
      | none => (none, mark :: rest)
    else (none, mark :: rest)

def scanMinus : Text → Bool × Text
  | '-' :: rest => (true, rest)
  | s => (false, s)

def scanLiteral (s : Text) : Option (Literal × Text) := do
  let (whole, rest) ← scanWhole (scanMinus s).2
  pure ({ neg := (scanMinus s).1, whole := whole, frac := (scanFrac rest).1, exp := (scanExp (scanFrac rest).2).1 },
    (scanExp (scanFrac rest).2).2)

def Literal.value (l : Literal) : Value F := if l.isFloat then .float (fl.parse l.text) else .int l.toInt

def scanWord (s : Text) : Option (Value F × Text) :=
  ((word ['n', 'u', 'l', 'l'] s).map fun rest => (.null, rest)) <|>
  ((word ['t', 'r', 'u', 'e'] s).map fun rest => (.bool true, rest)) <|>
  ((word ['f', 'a', 'l', 's', 'e'] s).map fun rest => (.bool false, rest)) <|>
  ((word ['N', 'a', 'N'] s).map fun rest => (.float .nan, rest)) <|>
  ((word ['I', 'n', 'f', 'i', 'n', 'i', 't', 'y'] s).map fun rest => (.float (.infinity false), rest)) <|>
  ((word ['-', 'I', 'n', 'f', 'i', 'n', 'i', 't', 'y'] s).map fun rest => (.float (.infinity true), rest))

/-- `dict(pairs)` -/
def dictOf (pairs : List (Text × Value F)) : List (Text × Value F) :=
  pairs.foldl (fun d entry => OrderedDict.put d entry.1 entry.2) []

mutual

def scanOnce : ℕ → Text → Option (Value F × Text)
  | 0, _ => none
  | _ + 1, [] => none
  | fuel + 1, c :: rest =>
    if c = '"' then (scanString rest).map fun q => (.str q.1, q.2)
    else if c = '{' then
      match skip rest with
      | '}' :: rest => some (.obj [], rest)
      | rest => (scanMembers fuel rest).map fun q => (.obj (dictOf q.1), q.2)
    else if c = '[' then
      match skip rest with
      | ']' :: rest => some (.arr [], rest)
      | rest => (scanItems fuel rest).map fun q => (.arr q.1, q.2)
    else
      match scanLiteral (c :: rest) with
      | some (l, rest) => some (l.value fl, rest)
      | none => scanWord (c :: rest)

def scanItems : ℕ → Text → Option (List (Value F) × Text)
  | 0, _ => none
  | fuel + 1, s => do
    let (v, rest) ← scanOnce fuel s
    match skip rest with
    | ']' :: rest => pure ([v], rest)
    | ',' :: rest =>
      let (vs, rest) ← scanItems fuel (skip rest)
      pure (v :: vs, rest)
    | _ => none

def scanMembers : ℕ → Text → Option (List (Text × Value F) × Text)
  | 0, _ => none
  | fuel + 1, s => do
    let rest ← word ['"'] s
    let (k, rest) ← scanString rest
    let rest ← word [':'] (skip rest)
    let (v, rest) ← scanOnce fuel (skip rest)
    match skip rest with
    | '}' :: rest => pure ([(k, v)], rest)
    | ',' :: rest =>
      let (members, rest) ← scanMembers fuel (skip rest)
      pure ((k, v) :: members, rest)
    | _ => none

end

def loads (s : Text) : Option (Value F) :=
  match scanOnce fl (s.length + 1) (skip s) with
  | some (v, rest) => if skip rest = [] then some v else none
  | none => none

/-! ## Strings read back -/

theorem word_append (w rest : Text) : word w (w ++ rest) = some rest := by
  simp [word]

theorem hex4_hexDigits : ∀ n < 32, ∀ rest, hex4 (Uuid.hexDigits 4 n ++ rest) = some (n, rest) := by
  intro n hn rest
  interval_cases n <;> rfl

theorem scanChar_escape (c : Char) (rest : Text) : scanChar (escape c ++ rest) = some (some c, rest) := by
  unfold escape
  split_ifs with h₁ h₂ h₃ h₄ h₅ h₆ h₇ h₈
  · subst h₁; rfl
  · subst h₂; rfl
  · subst h₃; rfl
  · subst h₄; rfl
  · subst h₅; rfl
  · subst h₆; rfl
  · subst h₇; rfl
  · have hhex := hex4_hexDigits c.toNat h₈ rest
    have hunescape : unescape ('u' :: (Uuid.hexDigits 4 c.toNat ++ rest)) = some (c, rest) := by
      simp only [unescape, hhex, Option.bind_eq_bind, Option.bind_some, Option.pure_def]
      rw [if_neg (by omega), if_neg (by omega), Char.ofNat_toNat]
    simp only [List.cons_append, scanChar, hunescape]
    rfl
  · simp [scanChar, h₁, h₂, h₈]

theorem escape_ne_nil (c : Char) : escape c ≠ [] := by
  unfold escape
  split_ifs <;> simp

theorem scanChars_escaped (s rest : Text) {fuel : ℕ} (hfuel : s.length < fuel) :
    scanChars fuel (s.flatMap escape ++ '"' :: rest) = some (s, rest) := by
  induction s generalizing fuel with
  | nil =>
    obtain ⟨fuel, rfl⟩ : ∃ k, fuel = k + 1 := ⟨fuel - 1, by omega⟩
    rfl
  | cons c s ih =>
    obtain ⟨fuel, rfl⟩ : ∃ k, fuel = k + 1 := ⟨fuel - 1, by omega⟩
    rw [List.length_cons] at hfuel
    rw [List.flatMap_cons, List.append_assoc, scanChars, scanChar_escape]
    simp only [Option.bind_eq_bind, Option.bind_some, ih (Nat.lt_of_succ_lt_succ hfuel), Option.pure_def]

theorem length_le_escaped (s : Text) : s.length ≤ (s.flatMap escape).length := by
  induction s with
  | nil => exact Nat.le_refl _
  | cons c s ih =>
    have hpos : 0 < (escape c).length := List.length_pos_of_ne_nil (escape_ne_nil c)
    rw [List.flatMap_cons, List.length_append, List.length_cons]
    omega

theorem scanString_dumpStr (s rest : Text) : scanString (s.flatMap escape ++ '"' :: rest) = some (s, rest) := by
  refine scanChars_escaped s rest ?_
  have hle := length_le_escaped s
  rw [List.length_append]
  omega

/-! ## Numbers read back -/

/-- what may follow a number -/
def Stops (rest : Text) : Prop := ∀ c ∈ rest.head?, c.isDigit = false ∧ c ≠ '.' ∧ c ≠ 'e' ∧ c ≠ 'E'

theorem scanDigits_append {ds rest : Text} (hds : isDigits ds) (hrest : ∀ c ∈ rest.head?, c.isDigit = false) :
    scanDigits (ds ++ rest) = some (ds, rest) := by
  have htake : (ds ++ rest).takeWhile Char.isDigit = ds := by
    rw [List.takeWhile_append_of_pos hds.2]
    cases rest with
    | nil => simp
    | cons c rest => simp [hrest c rfl]
  have hdrop : (ds ++ rest).dropWhile Char.isDigit = rest := by
    rw [List.dropWhile_append_of_pos hds.2]
    cases rest with
    | nil => rfl
    | cons c rest => simp [hrest c rfl]
  rw [scanDigits, htake, hdrop, if_neg hds.1]

theorem isDigits.head_ne {ds : Text} (h : isDigits ds) {c : Char} (hc : c ∈ ds.head?) {x : Char} (hx : x.isDigit = false) : c ≠ x := by
  rintro rfl
  rw [h.2 c (List.mem_of_mem_head? hc)] at hx
  cases hx

theorem scanWhole_digits {ds rest : Text} (hds : isDigits ds) (hzero : ds.head? ≠ some '0')
    (hrest : ∀ c ∈ rest.head?, c.isDigit = false) : scanWhole (ds ++ rest) = some (ds, rest) := by
  rcases ds with _ | ⟨c, ds⟩
  · exact absurd rfl hds.1
  · have hc : c ≠ '0' := fun heq => hzero (congrArg some heq)
    rw [← scanDigits_append hds hrest, List.cons_append, scanWhole]
    simpa using hc

theorem scanFrac_none {s : Text} (h : ∀ c ∈ s.head?, c ≠ '.') : scanFrac s = (none, s) := by
  rcases s with _ | ⟨c, s⟩
  · rfl
  · rw [scanFrac]
    simpa using h c rfl

theorem scanExp_none {s : Text} (h : ∀ c ∈ s.head?, c ≠ 'e' ∧ c ≠ 'E') : scanExp s = (none, s) := by
  rcases s with _ | ⟨c, s⟩
  · rfl
  · obtain ⟨he, hE⟩ := h c rfl
    simp [scanExp, he, hE]

theorem scanSign_append {sign : Option Char} {ds rest : Text} (hsign : ∀ c, sign = some c → c = '+' ∨ c = '-')
    (hds : isDigits ds) : scanSign (sign.toList ++ (ds ++ rest)) = (sign, ds ++ rest) := by
  rcases sign with _ | c
  · rcases ds with _ | ⟨d, ds⟩
    · exact absurd rfl hds.1
    · have hplus : d ≠ '+' := hds.head_ne rfl rfl
      have hminus : d ≠ '-' := hds.head_ne rfl rfl
      simp [scanSign, hplus, hminus]
  · simp [scanSign, hsign c rfl]

theorem scanExp_exponent {mark : Char} {sign : Option Char} {ds rest : Text} (hmark : mark = 'e' ∨ mark = 'E')
    (hsign : ∀ c, sign = some c → c = '+' ∨ c = '-') (hds : isDigits ds) (hrest : ∀ c ∈ rest.head?, c.isDigit = false) :
    scanExp (Literal.exponent (mark, sign, ds) ++ rest) = (some (mark, sign, ds), rest) := by
  simp only [Literal.exponent, List.cons_append, List.append_assoc, scanExp, if_pos hmark]
  rw [scanSign_append hsign hds]
  simp only [scanDigits_append hds hrest]

namespace Literal

variable {l : Literal} {rest : Text}

/-- the exponent and what follows -/
def tail (l : Literal) (rest : Text) : Text := l.exp.elim [] exponent ++ rest

theorem tail_head (h : l.Proper) (hrest : Stops rest) : ∀ c ∈ (l.tail rest).head?, c.isDigit = false ∧ c ≠ '.' := by
  intro c hc
  rcases hexp : l.exp with _ | ⟨mark, sign, ds⟩
  · rw [tail, hexp] at hc
    exact ⟨(hrest c hc).1, (hrest c hc).2.1⟩
  · rw [tail, hexp] at hc
    obtain rfl : mark = c := Option.some.inj hc
    rcases (h.exp mark sign ds hexp).1 with rfl | rfl
    · decide
    · decide

theorem scanExp_tail (h : l.Proper) (hrest : Stops rest) : scanExp (l.tail rest) = (l.exp, rest) := by
  rcases hexp : l.exp with _ | ⟨mark, sign, ds⟩
  · rw [tail, hexp]
    exact scanExp_none fun c hc => (hrest c hc).2.2
  · obtain ⟨hmark, hsign, hds⟩ := h.exp mark sign ds hexp
    rw [tail, hexp]
    exact scanExp_exponent hmark hsign hds fun c hc => (hrest c hc).1

theorem scanFrac_tail (h : l.Proper) (hrest : Stops rest) :
    scanFrac ((l.frac.elim [] fun ds => '.' :: ds) ++ l.tail rest) = (l.frac, l.tail rest) := by
  rcases hfrac : l.frac with _ | ds
  · exact scanFrac_none fun c hc => (tail_head h hrest c hc).2
  · have hscan : scanDigits (ds ++ l.tail rest) = some (ds, l.tail rest) :=
      scanDigits_append (h.frac ds hfrac) fun c hc => (tail_head h hrest c hc).1
    simp only [Option.elim_some, List.cons_append, scanFrac, hscan]

theorem frac_head (h : l.Proper) (hrest : Stops rest) :
    ∀ c ∈ ((l.frac.elim [] fun ds => '.' :: ds) ++ l.tail rest).head?, c.isDigit = false := by
  intro c hc
  rcases hfrac : l.frac with _ | ds
  · rw [hfrac] at hc
    exact (tail_head h hrest c hc).1
  · rw [hfrac] at hc
    obtain rfl : '.' = c := Option.some.inj hc
    rfl

theorem scanWhole_text (h : l.Proper) (hrest : Stops rest) :
    scanWhole (l.whole ++ ((l.frac.elim [] fun ds => '.' :: ds) ++ l.tail rest)) =
      some (l.whole, (l.frac.elim [] fun ds => '.' :: ds) ++ l.tail rest) := by
  rcases h.whole with hzero | ⟨hds, hhead⟩
  · rw [hzero]
    rfl
  · exact scanWhole_digits hds hhead (frac_head h hrest)

theorem whole_head (h : l.Proper) {s : Text} : ∀ c ∈ (l.whole ++ s).head?, c.isDigit = true := by
  intro c hc
  rcases h.whole with hzero | ⟨hds, -⟩
  · rw [hzero] at hc
    obtain rfl : '0' = c := Option.some.inj hc
    rfl
  · rcases hwhole : l.whole with _ | ⟨d, ds⟩
    · exact absurd hwhole hds.1
    · rw [hwhole] at hc
      obtain rfl : d = c := Option.some.inj hc
      exact hds.2 d (hwhole ▸ List.mem_cons_self)

theorem scanMinus_text (h : l.Proper) {s : Text} :
    scanMinus ((if l.neg then ['-'] else []) ++ (l.whole ++ s)) = (l.neg, l.whole ++ s) := by
  rcases hneg : l.neg with _ | _
  · have hhead := whole_head h (s := s)
    change scanMinus (l.whole ++ s) = _
    rcases hs : l.whole ++ s with _ | ⟨c, t⟩
    · rfl
    · have hc : c ≠ '-' := by
        rintro rfl
        rw [hs] at hhead
        cases hhead '-' rfl
      rw [scanMinus]
      simpa using hc
  · rfl

/-- a literal is read to its end -/
theorem scanLiteral_text (h : l.Proper) (hrest : Stops rest) : scanLiteral (l.text ++ rest) = some (l, rest) := by
  have htext : l.text ++ rest = (if l.neg then ['-'] else []) ++
      (l.whole ++ ((l.frac.elim [] fun ds => '.' :: ds) ++ l.tail rest)) := by
    simp only [text, tail, List.append_assoc]
  rw [htext, scanLiteral, scanMinus_text h]
  simp only [scanWhole_text h hrest, Option.bind_eq_bind, Option.bind_some, scanFrac_tail h hrest, scanExp_tail h hrest,
    Option.pure_def]

/-- the first character of a literal -/
theorem text_head (h : l.Proper) : ∃ c t, l.text = c :: t ∧ (c = '-' ∨ c.isDigit = true) := by
  rcases hneg : l.neg with _ | _
  · rcases hs : l.whole with _ | ⟨c, t⟩
    · rcases h.whole with hzero | ⟨hds, -⟩
      · rw [hs] at hzero
        cases hzero
      · exact absurd hs hds.1
    · have hdigit : c.isDigit = true := whole_head h (s := []) c (by simp [hs])
      exact ⟨c, t ++ ((l.frac.elim [] fun ds => '.' :: ds) ++ l.exp.elim [] exponent), by simp only [text, hneg, hs]; rfl,
        Or.inr hdigit⟩
  · exact ⟨'-', _, by simp only [text, hneg]; rfl, Or.inl rfl⟩

end Literal

/-! ## Integers -/

/-- the literal that `dumps` writes for an integer -/
def intLiteral (n : ℤ) : Literal where
  neg := decide (n < 0)
  whole := Nat.toDigits 10 n.natAbs
  frac := none
  exp := none

theorem toDigits_head {n : ℕ} (hn : n ≠ 0) : (Nat.toDigits 10 n).head? ≠ some '0' := by
  induction n using Nat.strongRecOn with
  | ind n ih =>
    by_cases hlt : n < 10
    · rw [Nat.toDigits_of_lt_base hlt]
      interval_cases n <;> simp_all [Nat.digitChar]
    · rw [Nat.toDigits_of_base_le (by decide) (Nat.not_lt.1 hlt), List.head?_append_of_ne_nil _ Nat.toDigits_ne_nil]
      exact ih (n / 10) (Nat.div_lt_self (Nat.pos_of_ne_zero hn) (by decide)) (by omega)

theorem intLiteral_proper (n : ℤ) : (intLiteral n).Proper where
  whole := by
    rcases Nat.eq_zero_or_pos n.natAbs with hzero | hpos
    · left
      simp only [intLiteral, hzero]
      rfl
    · right
      exact ⟨⟨Nat.toDigits_ne_nil, fun c hc => Nat.isDigit_of_mem_toDigits (by decide) (by decide) hc⟩,
        toDigits_head hpos.ne'⟩
  frac := nofun
  exp := nofun

theorem intLiteral_text (n : ℤ) : (intLiteral n).text = dumpInt n := by
  simp [Literal.text, intLiteral, dumpInt]

theorem intLiteral_toInt (n : ℤ) : (intLiteral n).toInt = n := by
  simp only [Literal.toInt, intLiteral, Nat.ofDigitChars_ten_toDigits, decide_eq_true_eq]
  split_ifs
  · omega
  · omega

/-! ## Values read back -/

/-- no dictionary within the value has a key twice -/
inductive Keyed : Value F → Prop where
  | null : Keyed .null
  | bool (b : Bool) : Keyed (.bool b)
  | int (n : ℤ) : Keyed (.int n)
  | float (x : Number F) : Keyed (.float x)
  | str (s : Text) : Keyed (.str s)
  | arr {items : List (Value F)} (h : ∀ v ∈ items, Keyed v) : Keyed (.arr items)
  | obj {members : List (Text × Value F)} (hkeys : (members.map Prod.fst).Nodup) (h : ∀ entry ∈ members, Keyed entry.2) :
    Keyed (.obj members)

theorem dictOf_of_nodup {members : List (Text × Value F)} (h : (members.map Prod.fst).Nodup) : dictOf members = members := by
  have hfold : ∀ (l d : List (Text × Value F)), ((d ++ l).map Prod.fst).Nodup →
      l.foldl (fun d entry => OrderedDict.put d entry.1 entry.2) d = d ++ l := by
    intro l
    induction l with
    | nil => exact fun d _ => (List.append_nil d).symm
    | cons entry l ih =>
      intro d hnodup
      have hnew : entry.1 ∉ d.map Prod.fst := by
        intro hmem
        rw [List.map_append, List.map_cons] at hnodup
        exact (List.nodup_append.1 hnodup).2.2 _ hmem _ List.mem_cons_self rfl
      have hput : OrderedDict.put d entry.1 entry.2 = d ++ [entry] := if_neg hnew
      have happend : d ++ [entry] ++ l = d ++ entry :: l := List.append_assoc d [entry] l
      rw [List.foldl_cons, hput, ih _ (by rwa [happend]), happend]
  exact hfold members [] h

variable {fl}

/-- the first character of what is written: no blank, and no bracket that closes -/
def Starts (s : Text) : Prop := ∃ c t, s = c :: t ∧ isWhite c = false ∧ c ≠ ']' ∧ c ≠ '}'

theorem Starts.append {s : Text} (h : Starts s) (rest : Text) : Starts (s ++ rest) := by
  obtain ⟨c, t, rfl, hc⟩ := h
  exact ⟨c, t ++ rest, rfl, hc⟩

theorem Starts.skip {s : Text} (h : Starts s) : skip s = s := by
  obtain ⟨c, t, rfl, hc, -⟩ := h
  simp [Json.skip, hc]

/-- the blank after a comma or a colon -/
theorem Starts.skip_blank {s : Text} (h : Starts s) : Json.skip (' ' :: s) = s := by
  have hblank : Json.skip (' ' :: s) = Json.skip s := rfl
  rw [hblank, h.skip]

theorem literal_starts {l : Literal} (h : l.Proper) : Starts l.text := by
  obtain ⟨c, t, htext, hc⟩ := Literal.text_head h
  refine ⟨c, t, htext, ?_, ?_, ?_⟩
  · by_contra hwhite
    simp only [isWhite, Bool.not_eq_false, Bool.or_eq_true, decide_eq_true_eq] at hwhite
    rcases hwhite with ((rfl | rfl) | rfl) | rfl <;> exact absurd hc (by decide)
  · rintro rfl
    exact absurd hc (by decide)
  · rintro rfl
    exact absurd hc (by decide)

theorem dumps_starts (fl : Floats F) (v : Value F) : Starts (dumps fl v) := by
  cases v with
  | null => exact ⟨'n', _, by rw [dumps], by decide⟩
  | bool b =>
    cases b
    · exact ⟨'f', _, by rw [dumps], by decide⟩
    · exact ⟨'t', _, by rw [dumps], by decide⟩
  | int n =>
    rw [dumps, ← intLiteral_text]
    exact literal_starts (intLiteral_proper n)
  | float x =>
    rw [dumps]
    cases x with
    | finite x =>
      obtain ⟨l, hl, -, htext⟩ := fl.literal x
      rw [dumpFloat, ← htext]
      exact literal_starts hl
    | nan => exact ⟨'N', _, rfl, by decide⟩
    | infinity neg =>
      cases neg
      · exact ⟨'I', _, rfl, by decide⟩
      · exact ⟨'-', _, rfl, by decide⟩
  | str s => exact ⟨'"', _, by rw [dumps, dumpStr], by decide⟩
  | arr items =>
    cases items with
    | nil => exact ⟨'[', _, by rw [dumps], by decide⟩
    | cons v vs => exact ⟨'[', _, by rw [dumps], by decide⟩
  | obj members =>
    cases members with
    | nil => exact ⟨'{', _, by rw [dumps], by decide⟩
    | cons entry members => exact ⟨'{', _, by rw [dumps], by decide⟩

theorem dumpStr_starts (s : Text) : Starts (dumpStr s) := ⟨'"', _, rfl, by decide⟩

theorem Starts.fuel {s : Text} (h : Starts s) {fuel : ℕ} (hfuel : s.length ≤ fuel) : ∃ k, fuel = k + 1 := by
  obtain ⟨c, t, rfl, -⟩ := h
  rw [List.length_cons] at hfuel
  exact ⟨fuel - 1, by omega⟩

theorem word_dumpStr (s rest : Text) : word ['"'] (dumpStr s ++ rest) = some (s.flatMap escape ++ '"' :: rest) := by
  have hquote : dumpStr s ++ rest = ['"'] ++ (s.flatMap escape ++ '"' :: rest) := by simp [dumpStr]
  rw [hquote, word_append]

theorem stops_comma (s : Text) : Stops (',' :: s) := by
  rintro c hc
  obtain rfl : ',' = c := Option.some.inj hc
  decide

theorem stops_bracket (s : Text) : Stops (']' :: s) := by
  rintro c hc
  obtain rfl : ']' = c := Option.some.inj hc
  decide

theorem stops_brace (s : Text) : Stops ('}' :: s) := by
  rintro c hc
  obtain rfl : '}' = c := Option.some.inj hc
  decide

theorem scanOnce_str (s rest : Text) (fuel : ℕ) : scanOnce fl (fuel + 1) (dumpStr s ++ rest) = some (.str s, rest) := by
  have hscan : scanString (s.flatMap escape ++ ['"'] ++ rest) = some (s, rest) := by
    rw [List.append_assoc]
    exact scanString_dumpStr s rest
  rw [dumpStr, List.cons_append, scanOnce, if_pos rfl, hscan]
  rfl

theorem scanOnce_literal {l : Literal} (h : l.Proper) {rest : Text} (hrest : Stops rest) (fuel : ℕ) :
    scanOnce fl (fuel + 1) (l.text ++ rest) = some (l.value fl, rest) := by
  have hscan := Literal.scanLiteral_text h hrest
  obtain ⟨c, t, htext, hc⟩ := Literal.text_head h
  rw [htext] at hscan ⊢
  rw [List.cons_append] at hscan ⊢
  rw [scanOnce, if_neg, if_neg, if_neg, hscan]
  · rintro rfl
    exact absurd hc (by decide)
  · rintro rfl
    exact absurd hc (by decide)
  · rintro rfl
    exact absurd hc (by decide)

theorem scanOnce_float (x : Number F) {rest : Text} (hrest : Stops rest) (fuel : ℕ) :
    scanOnce fl (fuel + 1) (dumpFloat fl x ++ rest) = some (.float x, rest) := by
  cases x with
  | finite x =>
    obtain ⟨l, hl, hfloat, htext⟩ := fl.literal x
    rw [dumpFloat, ← htext, scanOnce_literal hl hrest, Literal.value, if_pos hfloat, htext, fl.parse_repr]
  | nan => rfl
  | infinity neg => cases neg <;> rfl

theorem scanOnce_int (n : ℤ) {rest : Text} (hrest : Stops rest) (fuel : ℕ) :
    scanOnce fl (fuel + 1) (dumpInt n ++ rest) = some (.int n, rest) := by
  rw [← intLiteral_text, scanOnce_literal (intLiteral_proper n) hrest, Literal.value, if_neg, intLiteral_toInt]
  exact Bool.false_ne_true

/-- the value is read from what `dumps` writes of it, whatever follows -/
def Reads (fl : Floats F) (v : Value F) : Prop := ∀ fuel rest, (dumps fl v).length ≤ fuel → Stops rest →
  scanOnce fl fuel (dumps fl v ++ rest) = some (v, rest)

theorem scanItems_dumps {v : Value F} {vs : List (Value F)} (h : ∀ w ∈ v :: vs, Reads fl w) {fuel : ℕ} (rest : Text)
    (hfuel : (dumps fl v).length + (dumpItems fl vs).length < fuel) :
    scanItems fl fuel (dumps fl v ++ (dumpItems fl vs ++ ']' :: rest)) = some (v :: vs, rest) := by
  induction vs generalizing v fuel with
  | nil =>
    obtain ⟨fuel, rfl⟩ : ∃ k, fuel = k + 1 := ⟨fuel - 1, by omega⟩
    have hv := h v List.mem_cons_self fuel (']' :: rest) (by omega) (stops_bracket rest)
    rw [dumpItems, List.nil_append, scanItems, hv]
    rfl
  | cons w ws ih =>
    obtain ⟨fuel, rfl⟩ : ∃ k, fuel = k + 1 := ⟨fuel - 1, by omega⟩
    simp only [dumpItems, List.cons_append, List.append_assoc, List.length_cons, List.length_append] at hfuel ⊢
    have hv := h v List.mem_cons_self fuel (',' :: ' ' :: (dumps fl w ++ (dumpItems fl ws ++ ']' :: rest))) (by omega)
      (stops_comma _)
    have hlt : (dumps fl w).length + (dumpItems fl ws).length < fuel := by omega
    have hws := ih (fun x hx => h x (List.mem_cons_of_mem v hx)) hlt
    rw [scanItems, hv]
    simp only [Option.bind_eq_bind, Option.bind_some]
    change (do
      let (vs, rest) ← scanItems fl fuel (skip (' ' :: (dumps fl w ++ (dumpItems fl ws ++ ']' :: rest))))
      pure (v :: vs, rest)) = _
    rw [((dumps_starts fl w).append _).skip_blank, hws]
    rfl

theorem scanMembers_dumps {k : Text} {v : Value F} {members : List (Text × Value F)}
    (h : ∀ entry ∈ (k, v) :: members, Reads fl entry.2) {fuel : ℕ} (rest : Text)
    (hfuel : (dumpStr k).length + (dumps fl v).length + (dumpMembers fl members).length < fuel) :
    scanMembers fl fuel (dumpStr k ++ (':' :: ' ' :: (dumps fl v ++ (dumpMembers fl members ++ '}' :: rest)))) =
      some ((k, v) :: members, rest) := by
  induction members generalizing k v fuel with
  | nil =>
    obtain ⟨fuel, rfl⟩ : ∃ k, fuel = k + 1 := ⟨fuel - 1, by omega⟩
    have hle : (dumps fl v).length ≤ fuel := by omega
    have hv := h (k, v) List.mem_cons_self fuel ('}' :: rest) hle (stops_brace rest)
    rw [dumpMembers, List.nil_append, scanMembers, word_dumpStr]
    simp only [Option.bind_eq_bind, Option.bind_some, scanString_dumpStr]
    change (do
      let (v, rest) ← scanOnce fl fuel (skip (' ' :: (dumps fl v ++ '}' :: rest)))
      match skip rest with
      | '}' :: rest => pure ([(k, v)], rest)
      | ',' :: rest =>
        let (members, rest) ← scanMembers fl fuel (skip rest)
        pure ((k, v) :: members, rest)
      | _ => none) = _
    rw [((dumps_starts fl v).append _).skip_blank, hv]
    rfl
  | cons entry members ih =>
    obtain ⟨k', w⟩ := entry
    obtain ⟨fuel, rfl⟩ : ∃ k, fuel = k + 1 := ⟨fuel - 1, by omega⟩
    simp only [dumpMembers, List.cons_append, List.append_assoc, List.length_cons, List.length_append] at hfuel ⊢
    have hle : (dumps fl v).length ≤ fuel := by omega
    have hv := h (k, v) List.mem_cons_self fuel
      (',' :: ' ' :: (dumpStr k' ++ (':' :: ' ' :: (dumps fl w ++ (dumpMembers fl members ++ '}' :: rest))))) hle
      (stops_comma _)
    have hlt : (dumpStr k').length + (dumps fl w).length + (dumpMembers fl members).length < fuel := by omega
    have hmembers := ih (fun x hx => h x (List.mem_cons_of_mem _ hx)) hlt
    rw [scanMembers, word_dumpStr]
    simp only [Option.bind_eq_bind, Option.bind_some, scanString_dumpStr]
    change (do
      let (v, rest) ← scanOnce fl fuel (skip (' ' :: (dumps fl v ++ ',' :: ' ' :: (dumpStr k' ++ (':' :: ' ' ::
        (dumps fl w ++ (dumpMembers fl members ++ '}' :: rest)))))))
      match skip rest with
      | '}' :: rest => pure ([(k, v)], rest)
      | ',' :: rest =>
        let (members, rest) ← scanMembers fl fuel (skip rest)
        pure ((k, v) :: members, rest)
      | _ => none) = _
    rw [((dumps_starts fl v).append _).skip_blank, hv]
    change (do
      let (members, rest) ← scanMembers fl fuel (skip (' ' :: (dumpStr k' ++ (':' :: ' ' ::
        (dumps fl w ++ (dumpMembers fl members ++ '}' :: rest))))))
      pure ((k, v) :: members, rest)) = _
    rw [((dumpStr_starts k').append _).skip_blank, hmembers]
    rfl

theorem reads_of_keyed {v : Value F} (h : Keyed v) : Reads fl v := by
  induction h with
  | null =>
    intro fuel rest hfuel _
    obtain ⟨fuel, rfl⟩ := (dumps_starts fl .null).fuel hfuel
    rw [dumps]
    rfl
  | bool b =>
    intro fuel rest hfuel _
    obtain ⟨fuel, rfl⟩ := (dumps_starts fl (.bool b)).fuel hfuel
    cases b
    · rw [dumps]
      rfl
    · rw [dumps]
      rfl
  | int n =>
    intro fuel rest hfuel hrest
    obtain ⟨fuel, rfl⟩ := (dumps_starts fl (.int n)).fuel hfuel
    rw [dumps]
    exact scanOnce_int n hrest fuel
  | float x =>
    intro fuel rest hfuel hrest
    obtain ⟨fuel, rfl⟩ := (dumps_starts fl (.float x)).fuel hfuel
    rw [dumps]
    exact scanOnce_float x hrest fuel
  | str s =>
    intro fuel rest hfuel _
    obtain ⟨fuel, rfl⟩ := (dumps_starts fl (.str s)).fuel hfuel
    rw [dumps]
    exact scanOnce_str s rest fuel
  | @arr items hitems ih =>
    intro fuel rest hfuel _
    obtain ⟨fuel, rfl⟩ := (dumps_starts fl (.arr items)).fuel hfuel
    cases items with
    | nil => rw [dumps]; rfl
    | cons v vs =>
      simp only [dumps, List.length_cons, List.length_append, List.length_nil] at hfuel
      have hlt : (dumps fl v).length + (dumpItems fl vs).length < fuel := by omega
      have hitems := scanItems_dumps ih rest hlt
      obtain ⟨c, t, hstart, hwhite, hbracket, -⟩ :=
        (dumps_starts fl v).append (dumpItems fl vs ++ ']' :: rest)
      have hskip : skip (c :: t) = c :: t := by simp [skip, hwhite]
      rw [hstart] at hitems
      simp only [dumps, List.cons_append, List.append_assoc, List.nil_append, hstart]
      rw [scanOnce, if_neg (by decide), if_neg (by decide), if_pos rfl, hskip]
      split
      · exact absurd (List.cons.inj ‹_›).1 hbracket
      · rw [hitems]
        rfl
  | @obj members hkeys hmembers ih =>
    intro fuel rest hfuel _
    obtain ⟨fuel, rfl⟩ := (dumps_starts fl (.obj members)).fuel hfuel
    cases members with
    | nil => rw [dumps]; rfl
    | cons entry members =>
      obtain ⟨k, v⟩ := entry
      simp only [dumps, List.length_cons, List.length_append, List.length_nil] at hfuel
      have hlt : (dumpStr k).length + (dumps fl v).length + (dumpMembers fl members).length < fuel := by omega
      have hscan := scanMembers_dumps ih rest hlt
      obtain ⟨c, t, hstart, hwhite, -, hbrace⟩ :=
        (dumpStr_starts k).append (':' :: ' ' :: (dumps fl v ++ (dumpMembers fl members ++ '}' :: rest)))
      have hskip : skip (c :: t) = c :: t := by simp [skip, hwhite]
      rw [hstart] at hscan
      simp only [dumps, List.cons_append, List.append_assoc, List.nil_append, hstart]
      rw [scanOnce, if_neg (by decide), if_pos rfl, hskip]
      split
      · exact absurd (List.cons.inj ‹_›).1 hbrace
      · rw [hscan, Option.map_some, dictOf_of_nodup hkeys]

/-- **Round trip.** What `dumps` writes of a value whose dictionaries have no key twice, `loads` reads back. -/
theorem loads_dumps {v : Value F} (h : Keyed v) : loads fl (dumps fl v) = some v := by
  have hreads : Reads fl v := reads_of_keyed h
  have hscan := hreads ((dumps fl v).length + 1) [] (Nat.le_succ _) nofun
  rw [List.append_nil] at hscan
  rw [loads, (dumps_starts fl v).skip, hscan]
  rfl

end LkmService.Json
