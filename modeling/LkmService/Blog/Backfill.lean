/-
Which files of a push are found and read.

- `Found`: the names that are listed are the paths that have changed, and of each of them that is a file of HEAD the content
  is read and taken over, unless the row is as new as the push.
- `Plain`: a path of printable ASCII without quotes and backslashes that neither begins nor ends with a blank.
- `found_iff`: all are found if and only if every changed path is plain; a quoted name is longer than the path, so that it
  would have to be one of ever longer paths.
- `accent_lost`: a file with an accent in its name is listed under another one, and skipped.
-/
import LkmService.Blog.Files
import Mathlib.Data.Finset.Max

namespace LkmService.Blog

open Git

variable {repo : Repo} {old : Option Tree} {new : Tree} {desk : Desk} {pushAt : ℤ} {p : Bytes} {name : Text} {rows : Rows}

/-- the row is not older than the push -/
def UpToDate (rows : Rows) (pushAt : ℤ) (name : Text) : Prop := ∃ row ∈ rows, row.path = name ∧ pushAt ≤ row.updatedAt

/-- `repo` is what is there when the files are read -/
structure Found (old : Option Tree) (new : Tree) (repo : Repo) : Prop where
  names : ∀ p, p ∈ (diffTreeNames old new).map Utf8.encode ↔ p ∈ changed old new
  files : ∀ p ∈ changed old new, ∀ blob, repo.head.get? p = some blob → ∃ name ∈ diffTreeNames old new,
    Utf8.encode name = p ∧ readFile repo name = .ok (Utf8.decode blob.content) ∧
      ∀ desk pushAt rows, name ∈ (backfillPaths desk pushAt (readFile repo) (diffTreeNames old new) rows).upserted ∨
        UpToDate rows pushAt name

structure Plain (p : Bytes) : Prop where
  printable : p.any mustQuote = false
  ends : p.head? ≠ some 0x20 ∧ p.getLast? ≠ some 0x20

/-! ## What git prints -/

def Printed (b : UInt8) : Prop := 0x20 ≤ b ∧ b < 0x7f

instance (b : UInt8) : Decidable (Printed b) := inferInstanceAs (Decidable (0x20 ≤ b ∧ b < 0x7f))

theorem printed_of_not_mustQuote {b : UInt8} (h : mustQuote b = false) : Printed b := by
  simp only [mustQuote, Bool.or_eq_false_iff, decide_eq_false_iff_not, UInt8.not_lt, UInt8.not_le] at h
  exact ⟨h.1.1.1, h.1.1.2⟩

theorem printed_digit {d : UInt8} (h : d < 8) : Printed (0x30 + d) := by
  have hd : d.toNat < 8 := UInt8.lt_iff_toNat_lt.1 h
  constructor
  · rw [UInt8.le_iff_toNat_le, UInt8.toNat_add]
    simp only [UInt8.reduceToNat]
    omega
  · rw [UInt8.lt_iff_toNat_lt, UInt8.toNat_add]
    simp only [UInt8.reduceToNat]
    omega

theorem octal_digits (b : UInt8) : b / 64 < 8 ∧ b / 8 % 8 < 8 ∧ b % 8 < 8 := by
  have hb := b.toNat_lt
  simp only [UInt8.lt_iff_toNat_lt, UInt8.toNat_div, UInt8.toNat_mod, UInt8.reduceToNat]
  omega

theorem printed_escape {b : UInt8} (h : Printed b) : ∀ c ∈ [0x5c, b], Printed c := by
  intro c hc
  rcases List.mem_cons.1 hc with rfl | hc
  · decide
  · rw [List.mem_singleton.1 hc]
    exact h

theorem printed_quoteByte (b : UInt8) : ∀ c ∈ quoteByte b, Printed c := by
  intro c hc
  unfold quoteByte at hc
  split_ifs at hc with h
  · rcases h with rfl | rfl
    · exact printed_escape (by decide) c hc
    · exact printed_escape (by decide) c hc
  iterate 7
    · exact printed_escape (by decide) c hc
  · obtain ⟨h1, h2, h3⟩ := octal_digits b
    simp only [octal, List.mem_cons, List.not_mem_nil, or_false] at hc
    obtain rfl | rfl | rfl | rfl := hc
    · decide
    · exact printed_digit h1
    · exact printed_digit h2
    · exact printed_digit h3
  · obtain rfl := List.mem_singleton.1 hc
    rename_i hquote
    exact printed_of_not_mustQuote (Bool.not_eq_true _ ▸ hquote)

theorem printed_quote (p : Bytes) : ∀ c ∈ quote p, Printed c := by
  intro c hc
  unfold quote at hc
  split_ifs at hc with h
  · simp only [List.mem_append, List.mem_cons, List.mem_flatMap, List.not_mem_nil, or_false] at hc
    obtain (rfl | ⟨b, _, hb⟩) | rfl := hc
    · decide
    · exact printed_quoteByte b c hb
    · decide
  · simp only [List.any_eq_true, not_exists, not_and, Bool.not_eq_true] at h
    exact printed_of_not_mustQuote (h c hc)

theorem length_quoteByte (b : UInt8) : 1 ≤ (quoteByte b).length := by
  unfold quoteByte octal
  split_ifs <;> simp

theorem length_quote (h : p.any mustQuote = true) : p.length < (quote p).length := by
  have hflat : p.length ≤ (p.flatMap quoteByte).length := by
    clear h
    induction p with
    | nil => exact le_refl _
    | cons b p ih =>
      have hb := length_quoteByte b
      rw [List.flatMap_cons, List.length_append, List.length_cons]
      omega
  rw [quote, if_pos h]
  simp only [List.length_append, List.length_cons, List.length_nil]
  omega

/-! ## What is read of it -/

/-- the name under which a path is listed, unless it is empty -/
def listed (p : Bytes) : Text := Text.strip (Utf8.ascii (quote p))

theorem Printed.lt {b : UInt8} (h : Printed b) : b < 128 := UInt8.lt_trans h.2 (by decide)

theorem Printed.not_lineEnd {b : UInt8} (h : Printed b) : Text.isLineEnd (Char.ofNat b.toNat) = false := by
  have hlo : 0x20 ≤ b.toNat := UInt8.le_iff_toNat_le.1 h.1
  have hhi : b.toNat < 0x7f := UInt8.lt_iff_toNat_lt.1 h.2
  rw [Text.isLineEnd, Utf8.toNat_ofNat_byte]
  refine decide_eq_false ?_
  simp only [List.mem_cons, List.not_mem_nil, or_false]
  omega

theorem Printed.isSpace {b : UInt8} (h : Printed b) : Text.isSpace (Char.ofNat b.toNat) = decide (b = 0x20) := by
  have hlo : 0x20 ≤ b.toNat := UInt8.le_iff_toNat_le.1 h.1
  have hhi : b.toNat < 0x7f := UInt8.lt_iff_toNat_lt.1 h.2
  have heq : b = 0x20 ↔ b.toNat = 0x20 := UInt8.toNat_inj.symm
  rw [Text.isSpace, Utf8.toNat_ofNat_byte, ← Bool.decide_or, ← Bool.decide_or, ← Bool.decide_or, decide_eq_decide, heq]
  simp only [List.mem_cons, List.not_mem_nil, or_false]
  omega

theorem diffTreeNames_eq : diffTreeNames old new = ((changed old new).map listed).filter fun name => decide (name ≠ []) := by
  have hprinted : ∀ b ∈ print (changed old new), b < 128 := by
    intro b hb
    obtain ⟨p, _, hb⟩ := List.mem_flatMap.1 hb
    rcases List.mem_append.1 hb with hb | hb
    · exact (printed_quote p b hb).lt
    · rw [List.mem_singleton.1 hb]
      decide
  have hlines : Utf8.ascii (print (changed old new)) =
      ((changed old new).map fun p => Utf8.ascii (quote p)).flatMap fun line => line ++ ['\n'] := by
    rw [print, Utf8.ascii_flatMap, List.flatMap_map]
    refine List.flatMap_congr fun p _ => ?_
    simp only [Utf8.ascii, List.map_append]
    rfl
  rw [diffTreeNames, Utf8.decode_ascii hprinted, hlines, Text.splitLines_flatMap, List.map_map]
  · rfl
  · intro line hline c hc
    obtain ⟨p, _, rfl⟩ := List.mem_map.1 hline
    obtain ⟨b, hb, rfl⟩ := List.mem_map.1 hc
    exact (printed_quote p b hb).not_lineEnd

theorem mem_diffTreeNames : name ∈ diffTreeNames old new ↔ name ≠ [] ∧ ∃ p ∈ changed old new, listed p = name := by
  rw [diffTreeNames_eq, List.mem_filter, List.mem_map, decide_eq_true_eq, and_comm]

/-! ## Plain paths -/

theorem head?_ascii (bs : Bytes) : (Utf8.ascii bs).head? = bs.head?.map fun b => Char.ofNat b.toNat := List.head?_map

theorem getLast?_ascii (bs : Bytes) : (Utf8.ascii bs).getLast? = bs.getLast?.map fun b => Char.ofNat b.toNat := List.getLast?_map

theorem quote_of_printable (h : p.any mustQuote = false) : quote p = p := by
  rw [quote, h]
  rfl

/-- the printed bytes are read without a change if there is no blank at their ends -/
theorem listed_of_ends (h : (quote p).head? ≠ some 0x20 ∧ (quote p).getLast? ≠ some 0x20) : listed p = Utf8.ascii (quote p) := by
  have hspace : ∀ b ∈ quote p, b ≠ 0x20 → Text.isSpace (Char.ofNat b.toNat) = false := by
    intro b hb hne
    rw [(printed_quote p b hb).isSpace]
    exact decide_eq_false hne
  refine Text.stripBy_eq_self (fun c hc => ?_) (fun c hc => ?_)
  · rw [head?_ascii] at hc
    obtain ⟨b, hb, rfl⟩ := Option.map_eq_some_iff.1 hc
    exact hspace b (List.mem_of_head? hb) fun heq => h.1 (heq ▸ hb)
  · rw [getLast?_ascii] at hc
    obtain ⟨b, hb, rfl⟩ := Option.map_eq_some_iff.1 hc
    exact hspace b (List.mem_of_getLast? hb) fun heq => h.2 (heq ▸ hb)

theorem encode_ascii_quote (p : Bytes) : Utf8.encode (Utf8.ascii (quote p)) = quote p :=
  Utf8.encode_ascii fun b hb => (printed_quote p b hb).lt

theorem Plain.encode_listed (h : Plain p) : Utf8.encode (listed p) = p := by
  have hquote := quote_of_printable h.printable
  rw [listed_of_ends (by rw [hquote]; exact h.ends), encode_ascii_quote, hquote]

theorem encode_listed_of_mustQuote (h : p.any mustQuote = true) : Utf8.encode (listed p) = quote p := by
  have hquote : quote p = 0x22 :: (p.flatMap quoteByte ++ [0x22]) := by
    rw [quote, if_pos h]
    rfl
  rw [listed_of_ends, encode_ascii_quote]
  rw [hquote]
  refine ⟨by simp, ?_⟩
  rw [← List.cons_append, List.getLast?_append]
  simp

theorem any_mustQuote_quote (h : p.any mustQuote = true) : (quote p).any mustQuote = true := by
  rw [quote, if_pos h]
  rfl

/-! ## Only plain paths are found -/

/-- a quoted path is listed under a longer one that is quoted as well, and the longest one is listed under none -/
theorem Found.printable (h : Found old new repo) (hp : p ∈ changed old new) : p.any mustQuote = false := by
  by_contra hquoted
  let quoted := (changed old new).toFinset.filter fun p => p.any mustQuote = true
  have hmem : p ∈ quoted := Finset.mem_filter.2 ⟨List.mem_toFinset.2 hp, Bool.eq_true_of_not_eq_false hquoted⟩
  obtain ⟨q, hq, hmax⟩ := quoted.exists_max_image List.length ⟨p, hmem⟩
  obtain ⟨hq, hqquoted⟩ := Finset.mem_filter.1 hq
  have hname : listed q ∈ diffTreeNames old new := by
    refine mem_diffTreeNames.2 ⟨fun hnil => ?_, q, List.mem_toFinset.1 hq, rfl⟩
    have hencode := encode_listed_of_mustQuote hqquoted
    have hlength := length_quote hqquoted
    rw [hnil] at hencode
    rw [← hencode] at hlength
    exact absurd hlength (Nat.not_lt_zero _)
  have hlonger : quote q ∈ changed old new := by
    rw [← encode_listed_of_mustQuote hqquoted]
    exact (h.names _).1 (List.mem_map_of_mem hname)
  have hle := hmax (quote q) (Finset.mem_filter.2 ⟨List.mem_toFinset.2 hlonger, any_mustQuote_quote hqquoted⟩)
  exact absurd (length_quote hqquoted) (not_lt_of_ge hle)

/-- a path that is found is one that has been stripped -/
theorem Found.plain (h : Found old new repo) (hp : p ∈ changed old new) : Plain p := by
  have hprintable := h.printable hp
  refine ⟨hprintable, ?_⟩
  obtain ⟨name, hname, hencode⟩ := List.mem_map.1 ((h.names p).2 hp)
  obtain ⟨_, q, hq, rfl⟩ := mem_diffTreeNames.1 hname
  have hself : Utf8.encode (Utf8.ascii p) = p := by
    have := encode_ascii_quote p
    rwa [quote_of_printable hprintable] at this
  have hstripped : Text.strip (Utf8.ascii (quote q)) = Utf8.ascii p := Utf8.encode_injective (hencode.trans hself.symm)
  refine ⟨fun hblank => ?_, fun hblank => ?_⟩
  · have hhead : (Text.strip (Utf8.ascii (quote q))).head? = some ' ' := by
      rw [hstripped, head?_ascii, hblank]
      rfl
    exact absurd (Text.head?_stripBy hhead) (by decide)
  · have hlast : (Text.strip (Utf8.ascii (quote q))).getLast? = some ' ' := by
      rw [hstripped, getLast?_ascii, hblank]
      rfl
    exact absurd (Text.getLast?_stripBy hlast) (by decide)

/-! ## Plain paths are found -/

theorem isPath_of_changed (h : p ∈ changed old new) : IsPath p := by
  unfold changed at h
  cases old with
  | none => exact new.paths p (List.mem_insertionSort _ |>.1 h)
  | some old =>
    have hmem := List.mem_dedup.1 (List.mem_filter.1 ((List.mem_insertionSort _).1 h)).1
    rcases List.mem_append.1 hmem with hmem | hmem
    · exact old.paths p hmem
    · exact new.paths p hmem

theorem Git.IsPath.ne_nil (h : IsPath p) : p ≠ [] := by
  rintro rfl
  exact (h.2 [] List.mem_cons_self).1 rfl

theorem Git.IsPath.head_ne_slash (h : IsPath p) : p.head? ≠ some slash := by
  intro hhead
  obtain ⟨r, rfl⟩ : ∃ r, p = slash :: r := by
    cases p with
    | nil => cases hhead
    | cons b r => exact ⟨r, by rw [Option.some.inj hhead]⟩
  have hsplit : (slash :: r).splitOn slash = [] :: r.splitOn slash := List.splitOn_append_cons_self [] r
  exact (h.2 [] (hsplit ▸ List.mem_cons_self)).1 rfl

/-- by induction on the path -/
theorem splitOn_ascii (p : Bytes) : Text.splitOn '/' (Utf8.ascii p) = (p.splitOn slash).map Utf8.ascii := by
  unfold Text.splitOn
  induction p with
  | nil => rfl
  | cons b p ih =>
    have hslash : (Char.ofNat b.toNat == '/') = (b == slash) := by
      rw [Bool.eq_iff_iff, beq_iff_eq, beq_iff_eq]
      exact Utf8.ofNat_byte_injective.eq_iff (b := slash)
    rw [Utf8.ascii, List.map_cons, List.splitOn_cons_eq_if_modifyHead, List.splitOn_cons_eq_if_modifyHead, hslash]
    rw [Utf8.ascii] at ih
    rw [ih]
    split_ifs
    · rfl
    · cases p.splitOn slash with
      | nil => rfl
      | cons part parts => rfl

theorem Plain.readFile {blob : Blob} (h : Plain p) (hpath : IsPath p) (hblob : repo.head.get? p = some blob) :
    Git.readFile repo (listed p) = .ok (Utf8.decode blob.content) := by
  have hlisted : listed p = Utf8.ascii p := by
    have hquote := quote_of_printable h.printable
    rw [listed_of_ends (by rw [hquote]; exact h.ends), hquote]
  have hdrop : (listed p).dropWhile (fun c => decide (c = '/')) = listed p := by
    refine Text.dropWhile_eq_self fun c hc => decide_eq_false fun hslash => ?_
    rw [hlisted, head?_ascii] at hc
    obtain ⟨b, hb, rfl⟩ := Option.map_eq_some_iff.1 hc
    have hb' : b = slash := Utf8.ofNat_byte_injective hslash
    exact hpath.head_ne_slash (hb.trans (congrArg some hb'))
  have hdots : ['.', '.'] ∉ Text.splitOn '/' (listed p) := by
    rw [hlisted, splitOn_ascii]
    intro hmem
    obtain ⟨part, hpart, heq⟩ := List.mem_map.1 hmem
    exact (hpath.2 part hpart).2.2 (Utf8.ascii_injective heq)
  simp only [Git.readFile, hdrop, if_neg hdots, Repo.show, h.encode_listed, hblob]

/-! ## What is read is taken over -/

variable {read : Text → Except Git.Err Text} {batch : Batch}

/-- a row that the loop has is one that was read, or one that it has assigned to -/
def Batch.Of (rows : Rows) (batch : Batch) : Prop := ∀ row ∈ batch.rows, row.path ∈ batch.upserted ∨ row ∈ rows

theorem Rows.mem_of_getRow {row : BlogContent} (h : rows.getRow name = some row) : row ∈ rows ∧ row.path = name :=
  ⟨List.mem_of_find?_eq_some h, by simpa using List.find?_some h⟩

theorem Rows.mem_replace {row r : BlogContent} (h : r ∈ rows.replace row) : r = row ∨ r ∈ rows := by
  obtain ⟨r', hr', rfl⟩ := List.mem_map.1 h
  split_ifs
  · exact .inl rfl
  · exact .inr hr'

theorem Batch.Of.visit (h : batch.Of rows) (path : Text) : (batch.visit desk pushAt read path).Of rows := by
  unfold Batch.visit
  split
  · exact h
  · split
    · exact fun row hrow => (h row hrow).imp_left (List.mem_append_left _)
    · rename_i row hget
      split_ifs
      · intro r hr
        rcases Rows.mem_replace hr with rfl | hr
        · refine .inl (List.mem_append_right _ (List.mem_singleton.2 ?_))
          exact (Rows.mem_of_getRow hget).2
        · exact (h r hr).imp_left (List.mem_append_left _)
      · exact h

theorem upserted_visit (path : Text) (h : name ∈ batch.upserted) : name ∈ (batch.visit desk pushAt read path).upserted := by
  unfold Batch.visit
  split
  · exact h
  · split
    · exact List.mem_append_left _ h
    · split_ifs
      · exact List.mem_append_left _ h
      · exact h

theorem visit_self {content : Text} (h : batch.Of rows) (hread : read name = .ok content) :
    name ∈ (batch.visit desk pushAt read name).upserted ∨ UpToDate rows pushAt name := by
  rw [Batch.visit, hread]
  rcases hget : batch.rows.getRow name with _ | row
  · exact .inl (List.mem_append_right _ (List.mem_singleton_self _))
  · obtain ⟨hrow, hpath⟩ := Rows.mem_of_getRow hget
    by_cases hnew : row.updatedAt < pushAt
    · simp only [if_pos hnew]
      exact .inl (List.mem_append_right _ (List.mem_singleton_self _))
    · simp only [if_neg hnew]
      rcases h row hrow with hup | hold
      · exact .inl (hpath ▸ hup)
      · exact .inr ⟨row, hold, hpath, not_lt.1 hnew⟩

/-- by induction on the names that are left -/
theorem taken_over {content : Text} {names : List Text} (h : batch.Of rows) (hread : read name = .ok content)
    (hname : name ∈ names ∨ name ∈ batch.upserted) :
    name ∈ (names.foldl (Batch.visit desk pushAt read) batch).upserted ∨ UpToDate rows pushAt name := by
  induction names generalizing batch with
  | nil => exact .inl (hname.resolve_left List.not_mem_nil)
  | cons other names ih =>
    rw [List.foldl_cons]
    rcases hname with hname | hup
    · rcases List.mem_cons.1 hname with rfl | hname
      · have hself : name ∈ (batch.visit desk pushAt read name).upserted ∨ UpToDate rows pushAt name := visit_self h hread
        rcases hself with hup | hnew
        · exact ih (h.visit name) (.inr hup)
        · exact .inr hnew
      · exact ih (h.visit other) (.inl hname)
    · exact ih (h.visit other) (.inr (upserted_visit other hup))

theorem found_of_plain (h : ∀ p ∈ changed old new, Plain p) : Found old new repo := by
  have hne : ∀ p ∈ changed old new, listed p ≠ [] := by
    intro p hp hnil
    have hencode := (h p hp).encode_listed
    rw [hnil] at hencode
    exact (isPath_of_changed hp).ne_nil hencode.symm
  refine ⟨fun p => ⟨fun hp => ?_, fun hp => ?_⟩, fun p hp blob hblob => ?_⟩
  · obtain ⟨name, hname, rfl⟩ := List.mem_map.1 hp
    obtain ⟨_, q, hq, rfl⟩ := mem_diffTreeNames.1 hname
    rw [(h q hq).encode_listed]
    exact hq
  · exact List.mem_map.2 ⟨_, mem_diffTreeNames.2 ⟨hne p hp, p, hp, rfl⟩, (h p hp).encode_listed⟩
  · have hname : listed p ∈ diffTreeNames old new := mem_diffTreeNames.2 ⟨hne p hp, p, hp, rfl⟩
    have hread := (h p hp).readFile (isPath_of_changed hp) hblob
    refine ⟨_, hname, (h p hp).encode_listed, hread, fun desk pushAt rows => ?_⟩
    exact taken_over (fun row hrow => .inr hrow) hread (.inl hname)

/-- **Backfill.** The names listed for a push are the paths that have changed, and those of them that are files of HEAD are
read and taken over, if and only if every changed path is plain. -/
theorem found_iff (old : Option Tree) (new : Tree) (repo : Repo) : Found old new repo ↔ ∀ p ∈ changed old new, Plain p :=
  ⟨fun h _ hp => h.plain hp, found_of_plain⟩

/-! ## A file that is skipped -/

/-- the letter é -/
def accented : Bytes := [0xc3, 0xa9]

def accentTree : Tree where
  files := [(accented, { mode := .regular, content := [0x68, 0x69] })]
  keyed := List.nodup_singleton _
  paths := by decide
  apart := by decide

def accentRepo : Repo := { head := accentTree, other := fun _ => none }

def accentDesk : Desk := { now := 0, sha3 := id }

def accentListed : Text := ['"', '\\', '3', '0', '3', '\\', '2', '5', '1', '"']

/-- the only file of a first push is listed between quotes, is not there under that name, and is skipped -/
theorem accent_lost : changed none accentTree = [accented] ∧ diffTreeNames none accentTree = [accentListed] ∧
    readFile accentRepo accentListed = .error .gitError ∧
    backfillSeriesFromGit accentDesk true (some accentRepo) none none [] =
      .ok ({ paths := [accentListed], upserted := [], skipped := [accentListed] }, []) ∧
    ¬Found none accentTree accentRepo := by
  refine ⟨rfl, rfl, rfl, rfl, fun h => ?_⟩
  have hnames := (h.names accented).2 List.mem_cons_self
  revert hnames
  decide

end LkmService.Blog
