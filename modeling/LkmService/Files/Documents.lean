/-
Document codes and versions: the numbers in the texts, and the tables of files that are numbered as they should be.

- `castInteger_pad`, `codePrefix_unique`: a code is read back as the number that it was made of, and belongs to one year.
- `Numbered`: versions are numbered from 1, without gaps and without doubles, and all name their first version.
- `Fits`, `Numbered.insert`: what a new row needs.
-/
import LkmService.Files.Model

namespace LkmService.Files

open Sql

/-! ## Texts -/

theorem ofDigitChars_of_cast {s : Text} {value : ℕ} (h : castInteger s = some value) : Nat.ofDigitChars 10 s 0 = value := by
  simp only [castInteger, Option.ite_none_right_eq_some, Option.some.injEq] at h
  exact h.2.2

theorem castInteger_pad {number value : ℕ} (h : castInteger (pad number) = some value) : value = number := by
  rw [← ofDigitChars_of_cast h, pad, Nat.ofDigitChars_append, Nat.ofDigitChars_replicate_zero, Nat.mul_zero,
    Nat.ofDigitChars_ten_toDigits]

/-- what comes after the fixed part of two codes -/
theorem digits_of_code {year year' : ℕ} {rest rest' : Text} (h : codePrefix year ++ rest = codePrefix year' ++ rest') :
    Nat.toDigits 10 year ++ (['-'] ++ rest) = Nat.toDigits 10 year' ++ (['-'] ++ rest') := by
  unfold codePrefix at h
  generalize "WL-SYBG-".toList = stem at h
  rw [List.append_assoc, List.append_assoc, List.append_assoc, List.append_assoc] at h
  exact List.append_cancel_left h

/-- the digits of a year end where the next dash is -/
theorem takeWhile_digits (year : ℕ) (rest : Text) :
    (Nat.toDigits 10 year ++ (['-'] ++ rest)).takeWhile (fun c => c ≠ '-') = Nat.toDigits 10 year := by
  rw [List.takeWhile_append_of_pos]
  · simp
  · intro c hc
    have hdigit := Nat.isDigit_of_mem_toDigits (by decide) (by decide) hc
    simp only [ne_eq, decide_eq_true_eq]
    rintro rfl
    simp at hdigit

/-- a code is one of one year -/
theorem codePrefix_unique {year year' : ℕ} {rest : Text} (h : codePrefix year <+: codePrefix year' ++ rest) :
    year = year' := by
  obtain ⟨tail, htail⟩ := h
  have hsame : Nat.toDigits 10 year = Nat.toDigits 10 year' := by
    rw [← takeWhile_digits year tail, ← takeWhile_digits year' rest, digits_of_code htail]
  have hread := congrArg (fun digits => Nat.ofDigitChars 10 digits 0) hsame
  simpa only [Nat.ofDigitChars_ten_toDigits] using hread

theorem le_foldl_max (numbers : List ℕ) (start : ℕ) :
    start ≤ numbers.foldl max start ∧ ∀ a ∈ numbers, a ≤ numbers.foldl max start := by
  induction numbers generalizing start with
  | nil => simp
  | cons b numbers ih =>
    obtain ⟨hstart, hall⟩ := ih (max start b)
    refine ⟨(le_max_left _ _).trans hstart, fun a ha => ?_⟩
    rcases List.mem_cons.1 ha with rfl | ha
    · exact (le_max_right _ _).trans hstart
    · exact hall a ha

theorem le_largest {numbers : List ℕ} {a : ℕ} (h : a ∈ numbers) : a ≤ largest numbers := (le_foldl_max numbers 0).2 a h

theorem largest_le {numbers : List ℕ} {b : ℕ} (h : ∀ a ∈ numbers, a ≤ b) : largest numbers ≤ b := by
  have hgen : ∀ start, start ≤ b → numbers.foldl max start ≤ b := by
    induction numbers with
    | nil => exact fun _ h => h
    | cons a numbers ih =>
      intro start hstart
      exact ih (fun c hc => h c (List.mem_cons_of_mem _ hc)) _ (max_le hstart (h a List.mem_cons_self))
  exact hgen 0 (Nat.zero_le _)

theorem mem_mapM {α β : Type} {f : α → Option β} {l : List α} {r : List β} (h : l.mapM f = some r) :
    ∀ a ∈ l, ∃ b ∈ r, f a = some b := by
  induction l generalizing r with
  | nil => simp
  | cons a l ih =>
    simp only [List.mapM_cons, Option.bind_eq_bind, Option.bind_eq_some_iff, Option.pure_def, Option.some.injEq] at h
    obtain ⟨b, hb, bs, hbs, rfl⟩ := h
    intro a' ha'
    rcases List.mem_cons.1 ha' with rfl | ha'
    · exact ⟨b, List.mem_cons_self, hb⟩
    · obtain ⟨b', hb', hf⟩ := ih hbs a' ha'
      exact ⟨b', List.mem_cons_of_mem _ hb', hf⟩

/-- the numbers of all codes of a year have been read, and the next one is none of them -/
theorem next_code_fresh {α : Type} {year : ℕ} {rows : List α} {code : α → Text} {numbers : List ℕ}
    (h : rows.mapM (fun q => castInteger ((code q).drop (codePrefix year).length)) = some numbers) :
    ∀ q ∈ rows, code q ≠ codePrefix year ++ pad (largest numbers + 1) := by
  intro q hq heq
  obtain ⟨value, hvalue, hcast⟩ := mem_mapM h q hq
  rw [heq, List.drop_left] at hcast
  have hnumber := castInteger_pad hcast
  have hle := le_largest hvalue
  omega

/-! ## Numbered tables -/

/-- the columns of a committed row that nobody changes -/
structure Same (f f' : LibraryFile) : Prop where
  uploaderId : f'.uploaderId = f.uploaderId
  sha3Hash : f'.sha3Hash = f.sha3Hash
  documentCode : f'.documentCode = f.documentCode
  classification : f'.classification = f.classification
  projectId : f'.projectId = f.projectId
  version : f'.version = f.version
  rootFileId : f'.rootFileId = f.rootFileId
  upload : f'.upload = f.upload

theorem Same.refl (f : LibraryFile) : Same f f := ⟨rfl, rfl, rfl, rfl, rfl, rfl, rfl, rfl⟩

theorem Same.trans {f f' f'' : LibraryFile} (h : Same f f') (h' : Same f' f'') : Same f f'' :=
  ⟨h'.uploaderId.trans h.uploaderId, h'.sha3Hash.trans h.sha3Hash, h'.documentCode.trans h.documentCode,
    h'.classification.trans h.classification, h'.projectId.trans h.projectId, h'.version.trans h.version,
    h'.rootFileId.trans h.rootFileId, h'.upload.trans h.upload⟩

section Tables

variable {file file' : ℕ → Option LibraryFile} {n : ℕ} {f : LibraryFile} {c : Text}

/-- every row is there still -/
def Extends (file file' : ℕ → Option LibraryFile) : Prop := ∀ n f, file n = some f → ∃ f', file' n = some f' ∧ Same f f'

theorem Extends.refl (file : ℕ → Option LibraryFile) : Extends file file := fun _ f h => ⟨f, h, Same.refl f⟩

theorem Extends.trans {file'' : ℕ → Option LibraryFile} (h : Extends file file') (h' : Extends file' file'') :
    Extends file file'' := by
  intro n f hf
  obtain ⟨f', hf', hsame⟩ := h n f hf
  obtain ⟨f'', hf'', hsame'⟩ := h' n f' hf'
  exact ⟨f'', hf'', hsame.trans hsame'⟩

/-- no row is new -/
def Old (file file' : ℕ → Option LibraryFile) : Prop := ∀ n f', file' n = some f' → ∃ f, file n = some f ∧ Same f f'

/-- the row `r` is the first version of the document of `f` -/
structure RootOf (file : ℕ → Option LibraryFile) (c : Text) (f : LibraryFile) (r : ℕ) (g : LibraryFile) : Prop where
  row : file r = some g
  code : g.documentCode = some c
  version : g.version = 1
  root : f.rootFileId = some r
  uploader : f.uploaderId = g.uploaderId
  classification : f.classification = g.classification
  project : f.projectId = g.projectId

structure Numbered (file : ℕ → Option LibraryFile) : Prop where
  unique : ∀ n m f g c, file n = some f → file m = some g → f.documentCode = some c → g.documentCode = some c →
    f.version = g.version → n = m
  positive : ∀ n f, file n = some f → 1 ≤ f.version
  uncoded : ∀ n f, file n = some f → f.documentCode = none → f.version = 1
  lower : ∀ n f c v, file n = some f → f.documentCode = some c → 1 ≤ v → v ≤ f.version →
    ∃ m g, file m = some g ∧ g.documentCode = some c ∧ g.version = v
  root : ∀ n f c, file n = some f → f.documentCode = some c → ∃ r g, RootOf file c f r g

theorem RootOf.extends {r : ℕ} {g : LibraryFile} (h : RootOf file c f r g) (he : Extends file file') :
    ∃ g', RootOf file' c f r g' := by
  obtain ⟨g', hg', hsame⟩ := he r g h.row
  exact ⟨g', hg', hsame.documentCode.trans h.code, hsame.version.trans h.version, h.root,
    h.uploader.trans hsame.uploaderId.symm, h.classification.trans hsame.classification.symm,
    h.project.trans hsame.projectId.symm⟩

theorem RootOf.same {r : ℕ} {f' g : LibraryFile} (h : RootOf file c f r g) (hs : Same f f') : RootOf file c f' r g :=
  ⟨h.row, h.code, h.version, hs.rootFileId.trans h.root, hs.uploaderId.trans h.uploader,
    hs.classification.trans h.classification, hs.projectId.trans h.project⟩

/-- rows that keep the columns that matter stay numbered -/
theorem Numbered.keep (h : Numbered file) (he : Extends file file') (ho : Old file file') : Numbered file' where
  unique n m f' g' c hn hm hf hg hv := by
    obtain ⟨f, hf', hs⟩ := ho n f' hn
    obtain ⟨g, hg', hs'⟩ := ho m g' hm
    exact h.unique n m f g c hf' hg' (hs.documentCode.symm.trans hf) (hs'.documentCode.symm.trans hg)
      (hs.version.symm.trans (hv.trans hs'.version))
  positive n f' hn := by
    obtain ⟨f, hf, hs⟩ := ho n f' hn
    rw [hs.version]
    exact h.positive n f hf
  uncoded n f' hn hnone := by
    obtain ⟨f, hf, hs⟩ := ho n f' hn
    rw [hs.version]
    exact h.uncoded n f hf (hs.documentCode.symm.trans hnone)
  lower n f' c v hn hc hpos hle := by
    obtain ⟨f, hf, hs⟩ := ho n f' hn
    obtain ⟨m, g, hg, hgc, hgv⟩ := h.lower n f c v hf (hs.documentCode.symm.trans hc) hpos (hs.version ▸ hle)
    obtain ⟨g', hg', hs'⟩ := he m g hg
    exact ⟨m, g', hg', hs'.documentCode.trans hgc, hs'.version.trans hgv⟩
  root n f' c hn hc := by
    obtain ⟨f, hf, hs⟩ := ho n f' hn
    obtain ⟨r, g, hroot⟩ := h.root n f c hf (hs.documentCode.symm.trans hc)
    obtain ⟨g', hroot'⟩ := hroot.extends he
    exact ⟨r, g', hroot'.same hs⟩

/-- the row `n` may be added: it is the next version of its document, or the first -/
structure Fits (file : ℕ → Option LibraryFile) (n : ℕ) (f : LibraryFile) (c : Text) : Prop where
  code : f.documentCode = some c
  positive : 1 ≤ f.version
  above : ∀ m g, file m = some g → g.documentCode = some c → g.version < f.version
  lower : ∀ v, 1 ≤ v → v < f.version → ∃ m g, file m = some g ∧ g.documentCode = some c ∧ g.version = v
  root : (f.version = 1 ∧ f.rootFileId = some n) ∨ ∃ r g, RootOf file c f r g

theorem Fits.keep (h : Fits file n f c) (he : Extends file file') (ho : Old file file') : Fits file' n f c where
  code := h.code
  positive := h.positive
  above m g' hg' hc := by
    obtain ⟨g, hg, hs⟩ := ho m g' hg'
    rw [hs.version]
    exact h.above m g hg (hs.documentCode.symm.trans hc)
  lower v hpos hlt := by
    obtain ⟨m, g, hg, hgc, hgv⟩ := h.lower v hpos hlt
    obtain ⟨g', hg', hs⟩ := he m g hg
    exact ⟨m, g', hg', hs.documentCode.trans hgc, hs.version.trans hgv⟩
  root := by
    rcases h.root with hfirst | ⟨r, g, hroot⟩
    · exact .inl hfirst
    · obtain ⟨g', hroot'⟩ := hroot.extends he
      exact .inr ⟨r, g', hroot'⟩

theorem Numbered.insert (h : Numbered file) (hn : file n = none) (hf : Fits file n f c) :
    Numbered (Function.update file n (some f)) := by
  have hcases : ∀ m g, Function.update file n (some f) m = some g → (m = n ∧ g = f) ∨ (m ≠ n ∧ file m = some g) := by
    intro m g hg
    by_cases hm : m = n
    · subst hm
      exact .inl ⟨rfl, by simpa using hg.symm⟩
    · exact .inr ⟨hm, by rwa [Function.update_of_ne hm] at hg⟩
  have hold : ∀ {m g}, file m = some g → Function.update file n (some f) m = some g := by
    intro m g hg
    rw [Function.update_of_ne, hg]
    rintro rfl
    rw [hn] at hg
    cases hg
  have hnew : Function.update file n (some f) n = some f := Function.update_self ..
  refine ⟨fun m k g g' c' hg hg' hc hc' hv => ?_, fun m g hg => ?_, fun m g hg hnone => ?_,
    fun m g c' v hg hc hpos hle => ?_, fun m g c' hg hc => ?_⟩
  · rcases hcases m g hg with ⟨rfl, rfl⟩ | ⟨-, hm⟩
    · rcases hcases k g' hg' with ⟨rfl, -⟩ | ⟨-, hk⟩
      · rfl
      · have hcc : c' = c := Option.some.inj (hc.symm.trans hf.code)
        have := hf.above k g' hk (hcc ▸ hc')
        omega
    · rcases hcases k g' hg' with ⟨rfl, rfl⟩ | ⟨-, hk⟩
      · have hcc : c' = c := Option.some.inj (hc'.symm.trans hf.code)
        have := hf.above m g hm (hcc ▸ hc)
        omega
      · exact h.unique m k g g' c' hm hk hc hc' hv
  · rcases hcases m g hg with ⟨rfl, rfl⟩ | ⟨-, hg⟩
    · exact hf.positive
    · exact h.positive m g hg
  · rcases hcases m g hg with ⟨rfl, rfl⟩ | ⟨-, hg⟩
    · rw [hf.code] at hnone
      cases hnone
    · exact h.uncoded m g hg hnone
  · rcases hcases m g hg with ⟨rfl, rfl⟩ | ⟨-, hg⟩
    · have hcc : c' = c := Option.some.inj (hc.symm.trans hf.code)
      subst hcc
      rcases Nat.lt_or_eq_of_le hle with hlt | heq
      · obtain ⟨k, g', hg', hgc, hgv⟩ := hf.lower v hpos hlt
        exact ⟨k, g', hold hg', hgc, hgv⟩
      · exact ⟨m, g, hnew, hc, heq.symm⟩
    · obtain ⟨k, g', hg', hgc, hgv⟩ := h.lower m g c' v hg hc hpos hle
      exact ⟨k, g', hold hg', hgc, hgv⟩
  · have hext : Extends file (Function.update file n (some f)) := fun m g hg => ⟨g, hold hg, Same.refl g⟩
    rcases hcases m g hg with ⟨rfl, rfl⟩ | ⟨-, hg⟩
    · have hcc : c' = c := Option.some.inj (hc.symm.trans hf.code)
      subst hcc
      rcases hf.root with ⟨hone, hroot⟩ | ⟨r, g', hroot⟩
      · exact ⟨m, g, hnew, hc, hone, hroot, rfl, rfl, rfl⟩
      · obtain ⟨g'', hroot'⟩ := hroot.extends hext
        exact ⟨r, g'', hroot'⟩
    · obtain ⟨r, g', hroot⟩ := h.root m g c' hg hc
      obtain ⟨g'', hroot'⟩ := hroot.extends hext
      exact ⟨r, g'', hroot'⟩

end Tables

end LkmService.Files
