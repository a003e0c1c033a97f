/-
The pages of a search.

- `ranking`: what a search is to find, in its order; `Exact`: the walk over the pages gives that, full pages before the last,
  and the totals are those of the walk.
- `pages_exact`: a search of one kind or of the files is exact. The union is if and only if no published row that matches has
  been deleted: its branch over the content does not leave the deleted rows out, as its siblings do.
- `pages_short`: a deleted post is counted, and its page is empty.
-/
import LkmService.Search.Model

namespace LkmService.Search

open Files (UserId LibraryFile Rows isPublic hasNewerApproved)

/-! ## What is to be found -/

inductive Entry where
  | content (n : ℕ) (r : ContentItem)
  | file (n : ℕ) (f : LibraryFile)
deriving DecidableEq, Repr

section Ranking

variable (db : Database) (m : Match) (names : UserId → String) (contentType : Option String)

/-- the search runs over both tables, or the files alone -/
def withFiles : Bool := decide (contentType = none) || decide (contentType = some "library_file")

def Entry.Visible : Entry → Prop
  | .content n r => (n, r) ∈ db.items ∧ r.status = .published ∧ r.deletedAt = none ∧ m.item r = true ∧
      ofType contentType r = true
  | .file n f => withFiles contentType = true ∧ (n, f) ∈ db.files ∧ f.status = .approved ∧ f.classification = .pub ∧
      hasNewerApproved db.files f = false ∧ m.file f = true

def Entry.candidate : Entry → Candidate
  | .content n r => ⟨n, .content, m.itemRank r, r.createdAt⟩
  | .file n f => ⟨n, .libraryFile, m.fileRank f, f.createdAt⟩

def Entry.hit : Entry → SearchHit
  | .content n r => toHit names n r
  | .file n f => fileHit db names n f

/-- the order of the query; that of one kind does not look at the time -/
def Entry.before (e e' : Entry) : Bool :=
  if withFiles contentType then unionOrder (e.candidate m) (e'.candidate m)
  else decide (toLex ((e'.candidate m).rank, (e'.candidate m).id) ≤ toLex ((e.candidate m).rank, (e.candidate m).id))

def entries : List Entry :=
  (db.items.filter fun q => conditions m contentType q.2 && live q.2).map (fun q => .content q.1 q.2) ++
    if withFiles contentType then (db.files.filter fun q => latestPublic m db.files q.2).map fun q => .file q.1 q.2 else []

def ranking : List Entry := (entries db m contentType).mergeSort (Entry.before m contentType)

/-- walking over the pages -/
def walk (answer : ℕ → PageData) : List SearchHit :=
  ((List.range (answer 1).pages).map fun p => (answer (p + 1)).items).flatten

structure Exact (limit : ℕ) (answer : ℕ → PageData) : Prop where
  visible : ∀ e, e ∈ ranking db m contentType ↔ e.Visible db m contentType
  once : ((ranking db m contentType).map (Entry.hit db names)).Nodup
  walked : walk answer = (ranking db m contentType).map (Entry.hit db names)
  full : ∀ page, 1 ≤ page → page < (answer 1).pages → (answer page).items.length = limit
  «over» : ∀ page, (answer 1).pages < page → (answer page).items = []
  total : ∀ page, (answer page).total = (walk answer).length
  pages : ∀ page, (answer page).pages = Paging.pages (walk answer).length limit

end Ranking

variable {db : Database} {m : Match} {names : UserId → String} {contentType : Option String} {limit page n : ℕ}

theorem mem_ranking {e : Entry} : e ∈ ranking db m contentType ↔ e.Visible db m contentType := by
  rw [ranking, List.mem_mergeSort, entries, List.mem_append]
  cases e with
  | content n r =>
    have hfiles : (.content n r : Entry) ∉ (if withFiles contentType = true then
        (db.files.filter fun q => latestPublic m db.files q.2).map fun q => Entry.file q.1 q.2 else []) := by
      split_ifs
      · simp
      · exact List.not_mem_nil
    rw [or_iff_left hfiles]
    simp only [List.mem_map, List.mem_filter, conditions, live, Bool.and_eq_true, decide_eq_true_eq, Option.isNone_iff_eq_none,
      Entry.Visible, Prod.exists, Entry.content.injEq]
    constructor
    · rintro ⟨_, _, ⟨hrow, ⟨⟨hs, hm⟩, ht⟩, hd⟩, rfl, rfl⟩
      exact ⟨hrow, hs, hd, hm, ht⟩
    · rintro ⟨hrow, hs, hd, hm, ht⟩
      exact ⟨n, r, ⟨hrow, ⟨⟨hs, hm⟩, ht⟩, hd⟩, rfl, rfl⟩
  | file n f =>
    rw [or_iff_right (by simp)]
    simp only [Entry.Visible]
    split_ifs with hw
    · simp only [List.mem_map, List.mem_filter, latestPublic, isPublic, Bool.and_eq_true, decide_eq_true_eq, Bool.not_eq_true',
        Prod.exists, Entry.file.injEq]
      constructor
      · rintro ⟨_, _, ⟨hrow, ⟨⟨hs, hc⟩, hn⟩, hm⟩, rfl, rfl⟩
        exact ⟨hw, hrow, hs, hc, hn, hm⟩
      · rintro ⟨-, hrow, hs, hc, hn, hm⟩
        exact ⟨n, f, ⟨hrow, ⟨⟨hs, hc⟩, hn⟩, hm⟩, rfl, rfl⟩
    · exact iff_of_false List.not_mem_nil fun h => hw h.1

/-! ## Keys -/

/-- what tells the hits apart -/
def Entry.ident : Entry → ℕ × Source
  | .content n _ => (n, .content)
  | .file n _ => (n, .libraryFile)

def SearchHit.ident (h : SearchHit) : ℕ × Source := (h.id, if h.contentType = "library_file" then .libraryFile else .content)

theorem ident_hit (e : Entry) : (e.hit db names).ident = e.ident := by
  cases e with
  | content n r =>
    have hne : r.contentType.value ≠ "library_file" := by
      cases r.contentType <;> decide
    exact congrArg (Prod.mk n) (if_neg hne)
  | file n f => rfl

theorem nodup_ident : ((entries db m contentType).map Entry.ident).Nodup := by
  rw [entries, List.map_append, List.map_map]
  have hitems : ((db.items.filter fun q => conditions m contentType q.2 && live q.2).map
      (Entry.ident ∘ fun q => Entry.content q.1 q.2)).Nodup := by
    refine List.Nodup.of_map Prod.fst ?_
    rw [List.map_map]
    exact db.itemKeys.sublist (List.filter_sublist.map Prod.fst)
  split_ifs with hw
  · rw [List.map_map, List.nodup_append]
    refine ⟨hitems, ?_, ?_⟩
    · refine List.Nodup.of_map Prod.fst ?_
      rw [List.map_map]
      exact db.fileKeys.sublist (List.filter_sublist.map Prod.fst)
    · intro a ha b hb heq
      obtain ⟨p, -, rfl⟩ := List.mem_map.1 ha
      obtain ⟨q, -, rfl⟩ := List.mem_map.1 hb
      cases congrArg Prod.snd heq
  · rw [List.map_nil, List.append_nil]
    exact hitems

theorem nodup_hits : ((ranking db m contentType).map (Entry.hit db names)).Nodup := by
  refine List.Nodup.of_map SearchHit.ident ?_
  have hident : SearchHit.ident ∘ Entry.hit db names = Entry.ident := funext ident_hit
  rw [List.map_map, hident]
  exact ((List.mergeSort_perm _ _).map Entry.ident).nodup_iff.2 nodup_ident

/-- with unique keys, a row is found by its own -/
theorem find?_key {α : Type} {l : List (ℕ × α)} {a : α} {p : ℕ × α → Bool} (hkeys : (l.map Prod.fst).Nodup)
    (ha : (n, a) ∈ l) (hp : p (n, a) = true) : (l.filter p).find? (fun q => decide (q.1 = n)) = some (n, a) := by
  rcases hfind : (l.filter p).find? (fun q => decide (q.1 = n)) with _ | ⟨k, b⟩
  · have hnot := List.find?_eq_none.1 hfind (n, a) (List.mem_filter.2 ⟨ha, hp⟩)
    simp at hnot
  · have hmem := (List.mem_filter.1 (List.mem_of_find?_eq_some hfind)).1
    have hk : k = n := by simpa using List.find?_some hfind
    rw [hfind, List.inj_on_of_nodup_map hkeys hmem ha hk]

/-! ## The pages -/

/-- the answer that is right -/
def exactPage (db : Database) (m : Match) (names : UserId → String) (contentType : Option String) (limit page : ℕ) : PageData :=
  let hits := (ranking db m contentType).map (Entry.hit db names)
  ⟨Paging.slice hits page limit, hits.length, page, Paging.pages hits.length limit⟩

theorem exact_of_pages (hlimit : 0 < limit) : Exact db m names contentType limit (exactPage db m names contentType limit) := by
  have hwalk : walk (exactPage db m names contentType limit) = (ranking db m contentType).map (Entry.hit db names) :=
    Paging.flatten_slices hlimit _
  refine ⟨fun _ => mem_ranking, nodup_hits, hwalk, ?_, ?_, ?_, ?_⟩
  · intro page hpos hlt
    exact Paging.length_slice hlimit hpos hlt
  · intro page hlt
    exact Paging.slice_eq_nil hlimit hlt
  · intro page
    rw [hwalk]
    rfl
  · intro page
    rw [hwalk]
    rfl

/-- one kind: the count and the rows have the same conditions -/
theorem pgHits_kind (hw : withFiles contentType = false) : pgHits db m names page limit contentType = exactPage db m names contentType limit page := by
  have hnot : ¬ (contentType = none ∨ contentType = some "library_file") := by
    simpa [withFiles] using hw
  have hentries : entries db m contentType =
      (db.items.filter fun q => conditions m contentType q.2 && live q.2).map fun q => .content q.1 q.2 := by
    simp [entries, hw]
  have hranking : ranking db m contentType =
      ((db.items.filter fun q => conditions m contentType q.2 && live q.2).mergeSort (matchingOrder m)).map
        fun q => .content q.1 q.2 := by
    rw [ranking, hentries]
    refine (List.map_mergeSort fun p _ q _ => ?_).symm
    simp only [Entry.before, hw, matchingOrder, Entry.candidate, Bool.false_eq_true, if_false]
    exact decide_eq_decide.2 Iff.rfl
  have hlength : (ranking db m contentType).length = countMatching db m contentType := by
    rw [hranking, List.length_map, List.length_mergeSort, countMatching]
  simp only [pgHits, if_neg hnot, exactPage, List.length_map, hlength]
  congr 1
  rw [hranking, List.map_map, ← Paging.map_slice]
  rfl

/-- what is visible is found again by its id -/
theorem pickHit_ident {l : List Entry} {e : Entry} (he : e ∈ l) (hvisible : e.Visible db m contentType) :
    pickHit db names (selectPublishedByIds db (idsOf .content (l.map Entry.ident)))
      (selectPublicByIds db (idsOf .libraryFile (l.map Entry.ident))) e.ident = some (e.hit db names) := by
  have hident : e.ident ∈ l.map Entry.ident := List.mem_map.2 ⟨e, he, rfl⟩
  have hids : e.ident.1 ∈ idsOf e.ident.2 (l.map Entry.ident) :=
    List.mem_map.2 ⟨e.ident, List.mem_filter.2 ⟨hident, decide_eq_true rfl⟩, rfl⟩
  cases e with
  | content n r =>
    obtain ⟨hrow, hs, hd, -⟩ := hvisible
    have hfind := find?_key (p := fun q => decide (q.1 ∈ idsOf .content (l.map Entry.ident)) &&
      decide (q.2.status = .published) && live q.2) db.itemKeys hrow (by
        simp only [live, hs, hd, Bool.and_eq_true, decide_eq_true_eq]
        exact ⟨⟨hids, trivial⟩, rfl⟩)
    exact congrArg (Option.map fun q => toHit names q.1 q.2) hfind
  | file n f =>
    obtain ⟨-, hrow, hs, hc, -⟩ := hvisible
    have hfind := find?_key (p := fun q => decide (q.1 ∈ idsOf .libraryFile (l.map Entry.ident)) && isPublic q.2)
      db.fileKeys hrow (by
        simp only [isPublic, hs, hc, Bool.and_eq_true, decide_eq_true_eq]
        exact ⟨hids, trivial, trivial⟩)
    exact congrArg (Option.map fun q => fileHit db names q.1 q.2) hfind

theorem pgHits_union (hw : withFiles contentType = true)
    (hrows : combined db m contentType = (entries db m contentType).map (Entry.candidate m)) :
    pgHits db m names page limit contentType = exactPage db m names contentType limit page := by
  have hyes : contentType = none ∨ contentType = some "library_file" := by
    simpa [withFiles] using hw
  have hsorted : (combined db m contentType).mergeSort unionOrder = (ranking db m contentType).map (Entry.candidate m) := by
    rw [hrows, ranking]
    refine (List.map_mergeSort fun e _ e' _ => ?_).symm
    simp [Entry.before, hw]
  have hlength : (combined db m contentType).length = (ranking db m contentType).length := by
    rw [hrows, List.length_map, ranking, List.length_mergeSort]
  have hfound : searchWithFiles db m contentType (Paging.offset page limit) limit =
      ((ranking db m contentType).length, (Paging.slice (ranking db m contentType) page limit).map Entry.ident) := by
    have hident : (fun c : Candidate => (c.id, c.source)) ∘ Entry.candidate m = Entry.ident := by
      funext e
      cases e <;> rfl
    rw [searchWithFiles, hsorted, ← List.map_drop, ← List.map_take, List.map_map, hident, hlength]
    rfl
  rw [pgHits, if_pos hyes, hfound, exactPage]
  simp only [List.length_map, ← Paging.map_slice]
  congr 1
  calc _ = (Paging.slice (ranking db m contentType) page limit).filterMap (some ∘ Entry.hit db names) := by
        rw [List.filterMap_map]
        refine List.filterMap_congr ?_
        intro e he
        exact pickHit_ident he (mem_ranking.1 (Paging.mem_of_mem_slice he))
    _ = _ := by rw [List.filterMap_eq_map]

/-! ## Deleted rows -/

/-- no published row that matches has been deleted -/
def NoneDeleted (db : Database) (m : Match) : Prop :=
  ∀ n r, (n, r) ∈ db.items → r.status = .published → m.item r = true → r.deletedAt = none

theorem combined_of_files : combined db m (some "library_file") = (entries db m (some "library_file")).map (Entry.candidate m) := by
  have hnone : (db.items.filter fun q => conditions m (some "library_file") q.2 && live q.2) = [] := by
    refine List.filter_eq_nil_iff.2 ?_
    intro q _
    have hne : q.2.contentType.value ≠ "library_file" := by
      cases q.2.contentType <;> decide
    simp [conditions, ofType, hne]
  rw [combined, if_pos rfl, entries, hnone, List.map_nil, List.nil_append, if_pos (by decide), List.map_map]
  rfl

theorem combined_of_live (h : NoneDeleted db m) : combined db m none = (entries db m none).map (Entry.candidate m) := by
  have hlive : (db.items.filter fun q => conditions m none q.2) = db.items.filter fun q => conditions m none q.2 && live q.2 := by
    refine List.filter_congr ?_
    rintro ⟨n, r⟩ hq
    cases hc : conditions m none r with
    | false => simp
    | true =>
      obtain ⟨⟨hs, hm⟩, -⟩ : (r.status = .published ∧ m.item r = true) ∧ ofType none r = true := by
        simpa [conditions] using hc
      simp [live, h n r hq hs hm]
  rw [combined, if_neg (by decide), contentSelect, hlive, entries, List.map_append, List.map_map, if_pos (by decide), List.map_map]
  rfl

/-- the total counts the deleted rows too -/
theorem length_combined : (combined db m none).length =
    (ranking db m none).length + (db.items.filter fun q => conditions m none q.2 && !live q.2).length := by
  have hsplit := List.length_eq_length_filter_add (l := db.items.filter fun q => conditions m none q.2) fun q => live q.2
  rw [List.filter_filter, List.filter_filter] at hsplit
  simp only [Bool.and_comm] at hsplit
  rw [ranking, List.length_mergeSort, combined, if_neg (by decide), entries, if_pos (by decide)]
  simp only [contentSelect, fileSelect, List.length_append, List.length_map] at hsplit ⊢
  omega

/-- **Pages of a search.** A blank term is refused. Of any other, the pages are exact if and only if one kind or the files are
asked for, or no published row that matches has been deleted. -/
theorem pages_exact (db : Database) (text : Text → Match) (names : UserId → String) (q : Text) (contentType : Option String)
    (limit : ℕ) (hlimit : 0 < limit) :
    (Text.strip q = [] → ∀ page, searchItems db text names q page limit contentType = .error .emptyQuery) ∧
    (Text.strip q ≠ [] → ∃ answer : ℕ → PageData,
      (∀ page, searchItems db text names q page limit contentType = .ok (answer page)) ∧
      (Exact db (text (Text.strip q)) names contentType limit answer ↔
        contentType ≠ none ∨ NoneDeleted db (text (Text.strip q)))) := by
  generalize hterm : Text.strip q = term
  refine ⟨fun hnil page => ?_, fun hne => ⟨fun page => pgHits db (text term) names page limit contentType, fun page => ?_, ?_, ?_⟩⟩
  · simp only [searchItems, hterm, if_pos hnil]
  · simp only [searchItems, hterm, if_neg hne]
  · intro hexact
    by_contra hnot
    obtain ⟨hnone, hdeleted⟩ := not_or.1 hnot
    obtain rfl : contentType = none := not_not.1 hnone
    have htotal := hexact.total 1
    rw [hexact.walked, List.length_map] at htotal
    have hcount : (pgHits db (text term) names 1 limit none).total = (combined db (text term) none).length := rfl
    have hzero : (db.items.filter fun q => conditions (text term) none q.2 && !live q.2) = [] := by
      refine List.length_eq_zero_iff.1 ?_
      have : (combined db (text term) none).length = _ := length_combined
      omega
    refine hdeleted fun n r hr hs hm => ?_
    have hlive := List.filter_eq_nil_iff.1 hzero (n, r) hr
    simpa [conditions, hs, hm, ofType, live] using hlive
  · intro h
    suffices heq : (fun page => pgHits db (text term) names page limit contentType) =
        exactPage db (text term) names contentType limit by
      rw [heq]
      exact exact_of_pages hlimit
    funext page
    by_cases hw : withFiles contentType = true
    · rcases h with hne | hlive
      · have hfiles : contentType = some "library_file" := by
          simpa [withFiles, hne] using hw
        subst hfiles
        exact pgHits_union hw combined_of_files
      · rcases contentType with _ | s
        · exact pgHits_union hw (combined_of_live hlive)
        · have hfiles : some s = some "library_file" := by
            simpa [withFiles] using hw
          rw [hfiles]
          exact pgHits_union rfl combined_of_files
    · exact pgHits_kind (Bool.eq_false_iff.2 hw)

/-! ## A shelf -/

/-- an article, and a post that its author has deleted -/
def shelf : Database where
  items := [(4, { contentType := .article, title := "A tale" }), (5, { contentType := .discussion, title := "A talk", deletedAt := some 9 })]
  files := []
  itemKeys := by decide
  fileKeys := by decide

/-- every row matches, and none ranks above another -/
def everything : Text → Match := fun _ => ⟨fun _ => true, fun _ => true, fun _ => 0, fun _ => 0⟩

theorem pages_exact_demo : ∃ answer : ℕ → PageData,
    (∀ page, searchItems shelf everything (fun _ => "") ['a'] page 1 (some "article") = .ok (answer page)) ∧
    Exact shelf (everything ['a']) (fun _ => "") (some "article") 1 answer := by
  obtain ⟨answer, hanswer, hexact⟩ :=
    (pages_exact shelf everything (fun _ => "") ['a'] (some "article") 1 (by decide)).2 (by decide)
  exact ⟨answer, hanswer, hexact.2 (.inl (by decide))⟩

/-- two rows are announced, and only one is there to be found -/
theorem pages_short : ¬ ∃ answer : ℕ → PageData,
    (∀ page, searchItems shelf everything (fun _ => "") ['a'] page 1 none = .ok (answer page)) ∧
    Exact shelf (everything ['a']) (fun _ => "") none 1 answer := by
  rintro ⟨answer, hanswer, hexact⟩
  have hpage : answer 1 = pgHits shelf (everything ['a']) (fun _ => "") 1 1 none := Except.ok.inj (hanswer 1).symm
  have htotal : (answer 1).total = 2 := by
    rw [hpage]
    decide
  have hentries : (entries shelf (everything ['a']) none).length = 1 := by decide
  have hwalk := hexact.total 1
  rw [htotal, hexact.walked, List.length_map, ranking, List.length_mergeSort, hentries] at hwalk
  omega

end LkmService.Search
