/-
Strings of Python, as lists of characters.

- `strip`, `rstrip`, `splitLines`, `splitOn`, `removeSuffix`, `lstripSlash`: the methods of `str` under these names.
- `dropTags`, `collapse`: `re.sub` with `<[^>]+>` and with `\s+`, both to one blank.
- `Within s t`: every character of `s` is one of `t`; what the functions above leave is within what they are given.
- `PrefixFree.flatMap_injective`, `intercalate_injective`: a text that is coded symbol by symbol, or joined with a
  separator that no piece has, is read in one way only.
-/
import LkmService.Lib.Uuid

namespace LkmService.Text

/-- `str.isspace` of a character -/
def isSpace (c : Char) : Bool :=
  let n := c.toNat
  decide (9 ≤ n ∧ n ≤ 13) || decide (28 ≤ n ∧ n ≤ 32) || decide (8192 ≤ n ∧ n ≤ 8202) ||
    decide (n ∈ [133, 160, 5760, 8232, 8233, 8239, 8287, 12288])

def strip (s : Text) : Text := Uuid.stripBy isSpace s

def rstrip (s : Text) : Text := (s.reverse.dropWhile isSpace).reverse

/-- `s.lstrip("/") or s` -/
def lstripSlash (s : Text) : Text :=
  match s.dropWhile fun c => decide (c = '/') with
  | [] => s
  | t => t

def removeSuffix (suffix s : Text) : Text := if suffix.isSuffixOf s then s.take (s.length - suffix.length) else s

/-- the pieces between the characters `c` -/
def splitOn (c : Char) (s : Text) : List Text := List.splitOn c s

/-- `s.replace("# ", "")` -/
def dropHashes : Text → Text
  | [] => []
  | '#' :: ' ' :: rest => dropHashes rest
  | c :: rest => c :: dropHashes rest

def isLineEnd (c : Char) : Bool := decide (c.toNat ∈ [10, 11, 12, 13, 28, 29, 30, 133, 8232, 8233])

/-- `cur` is the line that has begun, backwards -/
def splitLinesFrom (cur : Text) : Text → List Text
  | [] => if cur = [] then [] else [cur.reverse]
  | '\r' :: '\n' :: rest => cur.reverse :: splitLinesFrom [] rest
  | c :: rest => if isLineEnd c then cur.reverse :: splitLinesFrom [] rest else splitLinesFrom (c :: cur) rest

def splitLines (s : Text) : List Text := splitLinesFrom [] s

/-- after `<`, a tag has at least one character and an end -/
def opensTag (rest : Text) : Bool := decide (rest.head? ≠ some '>') && decide ('>' ∈ rest)

/-- `re.sub(r"<[^>]+>", " ", s)`, from outside a tag or from within one -/
def dropTags (inTag : Bool) : Text → Text
  | [] => []
  | c :: rest =>
    if inTag then dropTags (decide (c ≠ '>')) rest
    else if decide (c = '<') && opensTag rest then ' ' :: dropTags true rest
    else c :: dropTags false rest

/-- `re.sub(r"\s+", " ", s)`; `after` is whether a blank has just been written for the run -/
def collapse (after : Bool) : Text → Text
  | [] => []
  | c :: rest =>
    if isSpace c then (if after then collapse true rest else ' ' :: collapse true rest)
    else c :: collapse false rest

/-! ## What is left -/

def Within (s t : Text) : Prop := ∀ c ∈ s, c ∈ t ∨ c = ' '

variable {s t u : Text}

theorem Within.trans (h : Within s t) (h' : Within t u) : Within s u := by
  intro c hc
  rcases h c hc with hc | rfl
  · exact h' c hc
  · exact .inr rfl

theorem Within.skip (h : Within s t) (c : Char) : Within s (c :: t) :=
  fun d hd => (h d hd).imp_left (List.mem_cons_of_mem c)

theorem Within.blank (h : Within s t) : Within (' ' :: s) t := by
  intro d hd
  rcases List.mem_cons.1 hd with rfl | hd
  · exact .inr rfl
  · exact h d hd

theorem Within.cons (h : Within s t) (c : Char) : Within (c :: s) (c :: t) := by
  intro d hd
  rcases List.mem_cons.1 hd with rfl | hd
  · exact .inl List.mem_cons_self
  · exact h.skip c d hd

theorem within_of_subset (h : ∀ c ∈ s, c ∈ t) : Within s t := fun c hc => .inl (h c hc)

theorem within_take (n : ℕ) : Within (s.take n) s := within_of_subset fun _ => List.mem_of_mem_take

theorem within_rstrip : Within (rstrip s) s := by
  refine within_of_subset fun c hc => ?_
  rw [rstrip, List.mem_reverse] at hc
  exact List.mem_reverse.1 ((List.dropWhile_sublist _).mem hc)

theorem within_strip : Within (strip s) s := by
  refine within_of_subset fun c hc => ?_
  rw [strip, Uuid.stripBy, List.mem_reverse] at hc
  have hmem := List.mem_reverse.1 ((List.dropWhile_sublist _).mem hc)
  exact (List.dropWhile_sublist _).mem hmem

/-- by induction on the text, from both states -/
theorem within_dropTags (inTag : Bool) : Within (dropTags inTag s) s := by
  induction s generalizing inTag with
  | nil => exact fun _ h => (List.not_mem_nil h).elim
  | cons d rest ih =>
    rw [dropTags]
    split_ifs
    · exact (ih _).skip d
    · exact ((ih _).skip d).blank
    · exact (ih _).cons d

theorem within_collapse (after : Bool) : Within (collapse after s) s := by
  induction s generalizing after with
  | nil => exact fun _ h => (List.not_mem_nil h).elim
  | cons d rest ih =>
    rw [collapse]
    split_ifs
    · exact (ih _).skip d
    · exact ((ih _).skip d).blank
    · exact (ih _).cons d

/-! ## Stripping -/

section stripBy

variable {p : Char → Bool} {c : Char}

theorem head?_dropWhile (h : (s.dropWhile p).head? = some c) : p c = false := by
  induction s with
  | nil => simp at h
  | cons d s ih =>
    rw [List.dropWhile_cons] at h
    split_ifs at h with hd
    · exact ih h
    · obtain rfl : d = c := by simpa using h
      simpa using hd

theorem getLast?_stripBy (h : (Uuid.stripBy p s).getLast? = some c) : p c = false := by
  rw [Uuid.stripBy, List.getLast?_reverse] at h
  exact head?_dropWhile h

/-- what is dropped at the end does not change the beginning of what is left -/
theorem head?_stripBy (h : (Uuid.stripBy p s).head? = some c) : p c = false := by
  rw [Uuid.stripBy, List.head?_reverse] at h
  have hsuffix := List.dropWhile_suffix p (l := (s.dropWhile p).reverse)
  obtain ⟨dropped, hdropped⟩ := hsuffix
  have hlast : (s.dropWhile p).reverse.getLast? = some c := by
    rw [← hdropped, List.getLast?_append, h]
    rfl
  rw [List.getLast?_reverse] at hlast
  exact head?_dropWhile hlast

theorem dropWhile_eq_self (h : ∀ c, s.head? = some c → p c = false) : s.dropWhile p = s := by
  cases s with
  | nil => rfl
  | cons c s => rw [List.dropWhile_cons, h c rfl, if_neg Bool.false_ne_true]

theorem stripBy_eq_self (hhead : ∀ c, s.head? = some c → p c = false) (hlast : ∀ c, s.getLast? = some c → p c = false) :
    Uuid.stripBy p s = s := by
  have hreverse : s.reverse.dropWhile p = s.reverse := dropWhile_eq_self fun c hc => hlast c (by rwa [List.head?_reverse] at hc)
  rw [Uuid.stripBy, dropWhile_eq_self hhead, hreverse, List.reverse_reverse]

end stripBy

/-! ## Pieces -/

theorem intercalate_append {x : Char} {l r : List Text} (hl : l ≠ []) (hr : r ≠ []) :
    [x].intercalate (l ++ r) = [x].intercalate l ++ x :: [x].intercalate r := by
  induction l with
  | nil => exact absurd rfl hl
  | cons t l ih =>
    cases l with
    | nil => simp [List.intercalate_cons_of_ne_nil hr]
    | cons u l =>
      rw [List.cons_append, List.intercalate_cons_of_ne_nil (by simp), ih (List.cons_ne_nil u l),
        List.intercalate_cons_of_ne_nil (List.cons_ne_nil u l)]
      simp

/-! ## Codes -/

section

variable {α β : Type*} {f : α → List β}

/-- no code word begins another -/
def PrefixFree (f : α → List β) : Prop := ∀ a b, f a <+: f b → a = b

theorem PrefixFree.flatMap_injective (h : PrefixFree f) (hne : ∀ a, f a ≠ []) : Function.Injective (List.flatMap f) := by
  intro l l' he
  induction l generalizing l' with
  | nil =>
    cases l' with
    | nil => rfl
    | cons b l' => exact absurd (List.append_eq_nil_iff.1 he.symm).1 (hne b)
  | cons a l ih =>
    cases l' with
    | nil => exact absurd (List.append_eq_nil_iff.1 he).1 (hne a)
    | cons b l' =>
      rw [List.flatMap_cons, List.flatMap_cons] at he
      -- both words begin the same text, so that one begins the other
      have hab : a = b := by
        rcases List.prefix_or_prefix_of_prefix ⟨_, rfl⟩ ⟨_, he.symm⟩ with hp | hp
        · exact h a b hp
        · exact (h b a hp).symm
      subst hab
      rw [ih (List.append_cancel_left he)]

/-- pieces without the separator are read off the joined text -/
theorem intercalate_injective [DecidableEq α] {x : α} {l r : List (List α)} (hl : l ≠ []) (hr : r ≠ [])
    (hxl : ∀ s ∈ l, x ∉ s) (hxr : ∀ s ∈ r, x ∉ s) (h : [x].intercalate l = [x].intercalate r) : l = r :=
  calc l = ([x].intercalate l).splitOn x := (List.splitOn_intercalate x hxl hl).symm
    _ = ([x].intercalate r).splitOn x := by rw [h]
    _ = r := List.splitOn_intercalate x hxr hr

end

/-! ## Lines -/

theorem splitLinesFrom_line {line cur : Text} (h : ∀ c ∈ line, isLineEnd c = false) :
    splitLinesFrom cur (line ++ '\n' :: s) = (cur.reverse ++ line) :: splitLinesFrom [] s := by
  induction line generalizing cur with
  | nil =>
    rw [List.nil_append, splitLinesFrom, if_pos (by decide), List.append_nil]
    rintro rest ⟨⟩
  | cons c line ih =>
    have hc : isLineEnd c = false := h c List.mem_cons_self
    have hcr : c ≠ '\r' := by
      rintro rfl
      exact absurd hc (by decide)
    rw [List.cons_append, splitLinesFrom, if_neg (by simp [hc]), ih fun c hc => h c (List.mem_cons_of_mem _ hc)]
    · simp
    · intro rest heq
      exact absurd heq hcr

/-- the lines that are written, each with its end, are read -/
theorem splitLines_flatMap {lines : List Text} (h : ∀ line ∈ lines, ∀ c ∈ line, isLineEnd c = false) :
    splitLines (lines.flatMap fun line => line ++ ['\n']) = lines := by
  unfold splitLines
  induction lines with
  | nil => rfl
  | cons line lines ih =>
    rw [List.flatMap_cons, List.append_assoc, List.singleton_append, splitLinesFrom_line (h line List.mem_cons_self),
      ih fun l hl => h l (List.mem_cons_of_mem _ hl)]
    rfl

end LkmService.Text
