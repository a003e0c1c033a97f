/-
Who sees which files.

Modelled from `_require_visible` and `list_files` in `files/service.py`, `_page_conditions` in `files/repository.py`,
`files/search_api.py`, `projects/read_api.py` and the loop over the files in `flows/search_reindex_body.py`. A query is a
function of the rows of one snapshot, in the order of their ids; whether a text matches a search term is a parameter, and so
are the display names. An equation between columns is never true of NULL, but SQLAlchemy writes `== None` as IS NULL.

`visibility_agrees`: the list is what `_require_visible` lets through, less what a newer approved version supersedes, and
the search, the index and the batches of the rebuild have what an anonymous viewer finds in it.
-/
import LkmService.Files.Content
import LkmService.Lib.Paging

namespace LkmService.Files

open Session Sql Tbl

/-! ## The list -/

abbrev Rows := List (ℕ × LibraryFile)

structure CurrentUser where
  id : UserId
  accountLevel : String

/-- the text in the column -/
def FileStatus.value : FileStatus → String
  | .pending => "pending"
  | .approved => "approved"
  | .rejected => "rejected"
  | .deleted => "deleted"

/-- there is an approved file with the same code and a higher version -/
def hasNewerApproved (rows : Rows) (f : LibraryFile) : Bool :=
  rows.any fun q => f.documentCode.isSome && decide (q.2.documentCode = f.documentCode) && decide (f.version < q.2.version) &&
    decide (q.2.status = .approved)

/-- `member_exists_clause` -/
def memberExists (members : List Member) (user : UserId) (project : Option ℕ) : Bool :=
  members.any fun m => decide (project = some m.projectId) && decide (m.userId = some user)

/-- `is_member` -/
def isMember (members : List Member) (project : ℕ) (user : UserId) : Bool :=
  (members.find? fun m => decide (m.projectId = project) && decide (m.userId = some user)).isSome

def isPublic (f : LibraryFile) : Bool := decide (f.status = .approved) && decide (f.classification = .pub)

/-- a filter of the list; an empty text is none -/
def filtered (wanted : Option String) (value : String) : Bool := wanted.all fun s => decide (s = "") || decide (value = s)

/-- the conditions that `enforce_visibility` adds -/
def viewerConditions (members : List Member) (viewer : Option CurrentUser) (f : LibraryFile) : Bool :=
  match viewer with
  | none => isPublic f
  | some v =>
    decide (v.accountLevel = "admin") ||
      (isPublic f || (decide (f.status = .approved) && decide (f.classification = .internal)) ||
        (decide (f.status = .approved) && decide (f.classification = .confidential) && memberExists members v.id f.projectId) ||
        decide (f.uploaderId = v.id))

/-- `_page_conditions` -/
def pageConditions (rows : Rows) (members : List Member) (categoryId status : Option String) (viewer : Option CurrentUser)
    (enforce : Bool) (f : LibraryFile) : Bool :=
  (decide (f.status ≠ .approved) || !hasNewerApproved rows f) && filtered categoryId f.categoryId &&
    filtered status f.status.value && (!enforce || viewerConditions members viewer f)

def listOrder (sort : String) (p q : ℕ × LibraryFile) : Bool :=
  if sort = "downloads" then
    decide (q.2.downloadCount < p.2.downloadCount ∨ q.2.downloadCount = p.2.downloadCount ∧ q.1 ≤ p.1)
  else decide (q.1 ≤ p.1)

def countPage (rows : Rows) (members : List Member) (categoryId status : Option String) (viewer : Option CurrentUser)
    (enforce : Bool) : ℕ :=
  (rows.filter fun q => pageConditions rows members categoryId status viewer enforce q.2).length

/-- the rows of all pages -/
def listing (rows : Rows) (members : List Member) (categoryId status : Option String) (sort : String)
    (viewer : Option CurrentUser) (enforce : Bool) : Rows :=
  (rows.filter fun q => pageConditions rows members categoryId status viewer enforce q.2).mergeSort (listOrder sort)

def listPage (rows : Rows) (members : List Member) (categoryId status : Option String) (sort : String) (offset limit : ℕ)
    (viewer : Option CurrentUser) (enforce : Bool) : Rows :=
  ((listing rows members categoryId status sort viewer enforce).drop offset).take limit

structure PageData where
  items : List FileInfo
  total : ℕ
  page : ℕ
  pages : ℕ

/-- `list_files` -/
def listFiles (rows : Rows) (members : List Member) (names : UserId → String) (page limit : ℕ)
    (categoryId status : Option String) (sort : String) (viewer : Option CurrentUser) (enforce : Bool) : PageData :=
  let total := countPage rows members categoryId status viewer enforce
  let files := listPage rows members categoryId status sort (Paging.offset page limit) limit viewer enforce
  { items := files.map fun q => ⟨q.1, q.2, names q.2.uploaderId⟩
    total := total
    page := page
    pages := Paging.pages total limit }

/-- `_require_visible` -/
def requireVisible (members : List Member) (f : LibraryFile) (viewer : Option CurrentUser) : Except Exn Unit :=
  if viewer.any fun v => decide (v.accountLevel = "admin") || decide (f.uploaderId = v.id) then .ok ()
  else if f.status ≠ .approved then .error .notFound
  else if f.classification = .pub then .ok ()
  else
    match viewer with
    | none => .error .notFound
    | some v =>
      if f.classification = .internal then .ok ()
      else if f.projectId.any fun p => isMember members p v.id then .ok ()
      else .error .notFound

/-! ## Search and index -/

/-- `search_select`; `matching` is the match of the term -/
def searchSelect (rows : Rows) (matching : LibraryFile → Bool) : List ℕ :=
  (rows.filter fun q => isPublic q.2 && !hasNewerApproved rows q.2 && matching q.2).map Prod.fst

/-- the document of a file in the search index -/
structure IndexDoc where
  id : ℕ
  contentType : String
  boardId : String
  title : String
  excerpt : String
  content : String
  summary : Text
  tags : List String
  keywords : List Text
  authorId : UserId
  authorName : String
  createdAt : ℤ
deriving DecidableEq, Repr

def buildFileDoc (n : ℕ) (f : LibraryFile) (uploaderName : String) : IndexDoc :=
  { id := n
    contentType := "library_file"
    boardId := ""
    title := f.originalName
    excerpt := f.description
    content := f.extractedText
    summary := f.documentCode.getD []
    tags := f.tags
    keywords := [f.categoryId.toList, f.documentCode.getD []]
    authorId := f.uploaderId
    authorName := uploaderName
    createdAt := f.createdAt }

/-- `index_doc` -/
def indexDoc (rows : Rows) (names : UserId → String) (n : ℕ) : Option IndexDoc :=
  match rows.find? fun q => decide (q.1 = n) with
  | none => none
  | some (_, f) =>
    if f.status ≠ .approved ∨ f.classification ≠ .pub then none
    else
      -- without a code, the query asks for rows without a code
      let newer := rows.find? fun q => decide (q.2.documentCode = f.documentCode) && decide (f.version < q.2.version) &&
        decide (q.2.status = .approved)
      match newer with
      | some _ => none
      | none => some (buildFileDoc n f (names f.uploaderId))

/-- `select_public_batch`; `none` is the nil UUID, which is below all ids -/
def selectPublicBatch (rows : Rows) (after : Option ℕ) (limit : ℕ) : Rows :=
  ((rows.filter fun q => (after.all fun k => decide (k < q.1)) && (isPublic q.2 && !hasNewerApproved rows q.2)).mergeSort
    fun p q => decide (p.1 ≤ q.1)).take limit

/-- `index_docs_batch` -/
def indexDocsBatch (rows : Rows) (names : UserId → String) (after : Option ℕ) (limit : ℕ) : List IndexDoc × Option ℕ :=
  let batch := selectPublicBatch rows after limit
  match batch.getLast? with
  | none => ([], after)
  | some last => (batch.map fun q => buildFileDoc q.1 q.2 (names q.2.uploaderId), some last.1)

/-- the loop of `rebuild_index` over the files: what it hands to the engine; `fuel` is how many batches there may be -/
def rebuildFiles (rows : Rows) (names : UserId → String) (size : ℕ) : ℕ → Option ℕ → List IndexDoc
  | 0, _ => []
  | fuel + 1, after =>
    let batch := indexDocsBatch rows names after size
    if batch.1 = [] then [] else batch.1 ++ rebuildFiles rows names size fuel batch.2

/-! ## One rule -/

section Rules

variable {rows : Rows} {members : List Member} {viewer : Option CurrentUser} {f : LibraryFile} {n : ℕ}

/-- an approved file with a newer approved version -/
def Superseded (rows : Rows) (f : LibraryFile) : Prop :=
  f.status = .approved ∧ ∃ q ∈ rows, ∃ c, f.documentCode = some c ∧ q.2.documentCode = some c ∧ f.version < q.2.version ∧
    q.2.status = .approved

theorem hasNewerApproved_iff : hasNewerApproved rows f = true ↔ ∃ q ∈ rows, ∃ c, f.documentCode = some c ∧
    q.2.documentCode = some c ∧ f.version < q.2.version ∧ q.2.status = .approved := by
  simp only [hasNewerApproved, List.any_eq_true, Bool.and_eq_true, decide_eq_true_eq, Option.isSome_iff_exists]
  constructor
  · rintro ⟨q, hq, ⟨⟨⟨c, hc⟩, hsame⟩, hlt⟩, happroved⟩
    exact ⟨q, hq, c, hc, hsame.trans hc, hlt, happroved⟩
  · rintro ⟨q, hq, c, hc, hqc, hlt, happroved⟩
    exact ⟨q, hq, ⟨⟨⟨c, hc⟩, hqc.trans hc.symm⟩, hlt⟩, happroved⟩

theorem not_superseded : (f.status ≠ .approved ∨ hasNewerApproved rows f = false) ↔ ¬ Superseded rows f := by
  rw [Superseded, ← hasNewerApproved_iff, not_and_or, Bool.not_eq_true]

/-- the clause of the queries and the function -/
theorem memberExists_eq (user : UserId) (project : Option ℕ) :
    memberExists members user project = project.any fun p => isMember members p user := by
  cases project with
  | none => simp [memberExists]
  | some p =>
    rw [Bool.eq_iff_iff]
    simp only [memberExists, isMember, Option.any_some, List.any_eq_true, List.find?_isSome, Bool.and_eq_true,
      decide_eq_true_eq, Option.some.injEq]
    constructor
    · rintro ⟨m, hm, hp, hu⟩
      exact ⟨m, hm, hp.symm, hu⟩
    · rintro ⟨m, hm, hp, hu⟩
      exact ⟨m, hm, hp.symm, hu⟩

/-- **The rule.** What the query asks of a row is what the function checks. -/
theorem requireVisible_iff : requireVisible members f viewer = .ok () ↔ viewerConditions members viewer f = true := by
  rcases viewer with _ | v
  · simp only [requireVisible, viewerConditions, isPublic, Option.any_none]
    rcases f.status <;> rcases f.classification <;> simp
  · simp only [requireVisible, viewerConditions, isPublic, Option.any_some, memberExists_eq]
    by_cases hadmin : v.accountLevel = "admin"
    · simp [hadmin]
    by_cases howner : f.uploaderId = v.id
    · simp [howner]
    cases hstatus : f.status with
    | approved =>
      cases hclass : f.classification with
      | pub => simp [hadmin, howner]
      | internal => simp [hadmin, howner]
      | confidential =>
        cases hmember : f.projectId.any fun p => isMember members p v.id with
        | false => simp [hadmin, howner]
        | true => simp [hadmin, howner]
    | _ => simp [hadmin, howner]

theorem mem_listing {categoryId status : Option String} {sort : String} :
    (n, f) ∈ listing rows members categoryId status sort viewer true ↔ (n, f) ∈ rows ∧
      requireVisible members f viewer = .ok () ∧ ¬ Superseded rows f ∧ filtered categoryId f.categoryId = true ∧
      filtered status f.status.value = true := by
  rw [listing, List.mem_mergeSort, List.mem_filter, requireVisible_iff, ← not_superseded]
  simp only [pageConditions, Bool.and_eq_true, Bool.or_eq_true, decide_eq_true_eq, Bool.not_eq_true', Bool.not_true,
    Bool.false_eq_true, false_or]
  tauto

/-- what an anonymous viewer finds without a filter -/
theorem mem_anonymous {sort : String} : (n, f) ∈ listing rows members none none sort none true ↔
    (n, f) ∈ rows ∧ isPublic f = true ∧ hasNewerApproved rows f = false := by
  rw [mem_listing, requireVisible_iff, ← not_superseded]
  simp only [viewerConditions, isPublic, filtered, Option.all_none, Bool.and_eq_true, decide_eq_true_eq, and_true]
  constructor
  · rintro ⟨hrow, ⟨happroved, hpub⟩, hne | hnewer⟩
    · exact absurd happroved hne
    · exact ⟨hrow, ⟨happroved, hpub⟩, hnewer⟩
  · rintro ⟨hrow, hpub, hnewer⟩
    exact ⟨hrow, hpub, .inr hnewer⟩

theorem mem_searchSelect {matching : LibraryFile → Bool} {sort : String} :
    n ∈ searchSelect rows matching ↔ ∃ f, (n, f) ∈ listing rows members none none sort none true ∧ matching f = true := by
  simp only [searchSelect, List.mem_map, List.mem_filter, Bool.and_eq_true, Bool.not_eq_true', mem_anonymous]
  constructor
  · rintro ⟨⟨m, f⟩, ⟨hrow, ⟨hpub, hnewer⟩, hmatch⟩, rfl⟩
    exact ⟨f, ⟨hrow, hpub, hnewer⟩, hmatch⟩
  · rintro ⟨f, ⟨hrow, hpub, hnewer⟩, hmatch⟩
    exact ⟨(n, f), ⟨hrow, ⟨hpub, hnewer⟩, hmatch⟩, rfl⟩

/-- a row without a code has no version above it -/
theorem newer_iff (huncoded : ∀ q ∈ rows, q.2.documentCode = none → q.2.version = 1) (hf : (n, f) ∈ rows) :
    (rows.find? fun q => decide (q.2.documentCode = f.documentCode) && decide (f.version < q.2.version) &&
      decide (q.2.status = .approved)) = none ↔ hasNewerApproved rows f = false := by
  rw [← Bool.not_eq_true, hasNewerApproved_iff, List.find?_eq_none]
  simp only [Bool.and_eq_true, decide_eq_true_eq, not_exists, not_and]
  constructor
  · intro h q hq c hc hqc hlt
    exact h q hq ⟨hqc.trans hc.symm, hlt⟩
  · intro h q hq ⟨hsame, hlt⟩
    rcases hc : f.documentCode with _ | c
    · have hone := huncoded (n, f) hf hc
      have hone' := huncoded q hq (hsame.trans hc)
      simp only at hone
      omega
    · exact h q hq c hc (hsame.trans hc) hlt

theorem indexDoc_eq_some {names : UserId → String} {doc : IndexDoc} (hrows : rows.Pairwise fun p q => p.1 < q.1)
    (huncoded : ∀ q ∈ rows, q.2.documentCode = none → q.2.version = 1) :
    indexDoc rows names n = some doc ↔ ∃ f, (n, f) ∈ rows ∧ isPublic f = true ∧ hasNewerApproved rows f = false ∧
      doc = buildFileDoc n f (names f.uploaderId) := by
  have hunique : ∀ p ∈ rows, ∀ q ∈ rows, p.1 = q.1 → p = q := by
    intro p hp q hq hpq
    have hnodup : (rows.map Prod.fst).Nodup := List.pairwise_map.2 (hrows.imp Nat.ne_of_lt)
    exact List.inj_on_of_nodup_map hnodup hp hq hpq
  unfold indexDoc
  split
  next hnone =>
    simp only [reduceCtorEq, false_iff, not_exists, not_and]
    intro f hf
    have := List.find?_eq_none.1 hnone (n, f) hf
    simp at this
  next m f hsome =>
    have hmem := List.mem_of_find?_eq_some hsome
    obtain rfl : m = n := by simpa using List.find?_some hsome
    have honly : ∀ g, (m, g) ∈ rows ↔ g = f := by
      intro g
      refine ⟨fun hg => ?_, fun h => h ▸ hmem⟩
      exact congrArg Prod.snd (hunique (m, g) hg (m, f) hmem rfl)
    simp only [honly]
    split
    next hhidden =>
      have hnot : isPublic f = false := by
        simp only [isPublic, Bool.and_eq_false_iff, decide_eq_false_iff_not]
        exact hhidden
      simp [hnot]
    next hshown =>
      have hpub : isPublic f = true := by
        simp only [isPublic, Bool.and_eq_true, decide_eq_true_eq]
        simpa [not_or] using hshown
      cases hfind : rows.find? (fun q => decide (q.2.documentCode = f.documentCode) && decide (f.version < q.2.version) &&
        decide (q.2.status = .approved)) with
      | none =>
        have hnewer := (newer_iff huncoded hmem).1 hfind
        simp [hpub, hnewer, eq_comm]
      | some q =>
        have hnewer : hasNewerApproved rows f ≠ false := by
          intro hnewer
          rw [(newer_iff huncoded hmem).2 hnewer] at hfind
          cases hfind
        simp [hnewer]

end Rules

/-! ## Batches -/

section Batches

variable {rows : Rows} {names : UserId → String}

/-- the public rows, in the order of their ids -/
def publicRows (rows : Rows) : Rows := rows.filter fun q => isPublic q.2 && !hasNewerApproved rows q.2

def docOf (names : UserId → String) (q : ℕ × LibraryFile) : IndexDoc := buildFileDoc q.1 q.2 (names q.2.uploaderId)

theorem pairwise_publicRows (hrows : rows.Pairwise fun p q => p.1 < q.1) :
    (publicRows rows).Pairwise fun p q => p.1 < q.1 := hrows.filter _

theorem selectPublicBatch_eq (hrows : rows.Pairwise fun p q => p.1 < q.1) (after : Option ℕ) (limit : ℕ) :
    selectPublicBatch rows after limit = Paging.window Prod.fst (publicRows rows) after limit := by
  have hsorted : ((rows.filter fun q => (after.all fun k => decide (k < q.1)) && (isPublic q.2 && !hasNewerApproved rows q.2)).Pairwise
      fun p q => decide (p.1 ≤ q.1) = true) := (hrows.filter _).imp fun h => decide_eq_true (Nat.le_of_lt h)
  rw [selectPublicBatch, List.mergeSort_of_pairwise hsorted, Paging.window, publicRows, List.filter_filter]

/-- by induction on the batches -/
theorem rebuildFiles_eq_windows (hrows : rows.Pairwise fun p q => p.1 < q.1) (size fuel : ℕ) (after : Option ℕ) :
    rebuildFiles rows names size fuel after = (Paging.windows Prod.fst (publicRows rows) size fuel after).map (docOf names) := by
  induction fuel generalizing after with
  | zero => rfl
  | succ fuel ih =>
    simp only [rebuildFiles, Paging.windows, indexDocsBatch, selectPublicBatch_eq hrows]
    rcases hlast : (Paging.window Prod.fst (publicRows rows) after size).getLast? with _ | last
    · rfl
    · have hne : Paging.window Prod.fst (publicRows rows) after size ≠ [] := by
        intro hnil
        rw [hnil] at hlast
        cases hlast
      dsimp only
      rw [if_neg (by simpa using hne), ih, List.map_append]
      rfl

/-- the rebuild hands over the document of every public row, once -/
theorem rebuildFiles_eq (hrows : rows.Pairwise fun p q => p.1 < q.1) {size fuel : ℕ} (hsize : 0 < size)
    (hfuel : rows.length < fuel) : rebuildFiles rows names size fuel none = (publicRows rows).map (docOf names) := by
  have hlength : (publicRows rows).length < fuel := Nat.lt_of_le_of_lt (List.length_filter_le _ _) hfuel
  rw [rebuildFiles_eq_windows hrows, Paging.windows_eq hsize (pairwise_publicRows hrows) hlength]

end Batches

/-! ## Reachable libraries -/

theorem nodup_listing {rows : Rows} (hrows : rows.Pairwise fun p q => p.1 < q.1) (members : List Member)
    (categoryId status : Option String) (sort : String) (viewer : Option CurrentUser) (enforce : Bool) :
    (listing rows members categoryId status sort viewer enforce).Nodup := by
  have hnodup : rows.Nodup := hrows.imp fun hlt heq => Nat.ne_of_lt hlt (congrArg Prod.fst heq)
  exact (List.mergeSort_perm _ _).nodup_iff.2 (hnodup.filter _)

/-- **Visibility.** Of the files that the service has made, whatever the memberships:
- the list of a viewer has those that `_require_visible` lets through, but no approved file with a newer approved version;
- its pages have each of them once, and its count is how many they are;
- the search, the index and the rebuild have what an anonymous viewer finds in the list. -/
theorem visibility_agrees (settings : Settings) (d : Store) (requests : ℕ → Request) (ms : List Move) (h : Starts d)
    (members : List Member) (names : UserId → String) :
    let rows := (run (init settings d requests) ms).st.committed files
    (∀ categoryId status sort viewer n f, (n, f) ∈ listing rows members categoryId status sort viewer true ↔
      (n, f) ∈ rows ∧ requireVisible members f viewer = .ok () ∧ ¬ Superseded rows f ∧ filtered categoryId f.categoryId = true ∧
        filtered status f.status.value = true) ∧
    (∀ categoryId status sort viewer limit, 0 < limit →
      let list := listing rows members categoryId status sort viewer true
      let answer := fun page => listFiles rows members names page limit categoryId status sort viewer true
      list.Nodup ∧ (∀ page, (answer page).total = list.length ∧ (answer page).pages = Paging.pages list.length limit) ∧
        ((List.range (Paging.pages list.length limit)).map fun p => (answer (p + 1)).items).flatten =
          list.map fun q => ⟨q.1, q.2, names q.2.uploaderId⟩) ∧
    (∀ matching sort n, n ∈ searchSelect rows matching ↔
      ∃ f, (n, f) ∈ listing rows members none none sort none true ∧ matching f = true) ∧
    (∀ sort n doc, indexDoc rows names n = some doc ↔
      ∃ f, (n, f) ∈ listing rows members none none sort none true ∧ doc = buildFileDoc n f (names f.uploaderId)) ∧
    (∀ sort size fuel, 0 < size → rows.length < fuel → ((rebuildFiles rows names size fuel none).map IndexDoc.id).Nodup ∧
      ∀ doc, doc ∈ rebuildFiles rows names size fuel none ↔
        ∃ n f, (n, f) ∈ listing rows members none none sort none true ∧ doc = buildFileDoc n f (names f.uploaderId)) := by
  intro rows
  have hinv : Inv (run (init settings d requests) ms).st.snap := inv_run h ms
  have hrows : rows.Pairwise fun p q => p.1 < q.1 := Db.committed_pairwise _ _
  have huncoded : ∀ q ∈ rows, q.2.documentCode = none → q.2.version = 1 := by
    rintro ⟨n, f⟩ hq hc
    exact hinv.numbered.uncoded n f ((Db.mem_committed _).1 hq) hc
  refine ⟨fun _ _ _ _ _ _ => mem_listing, fun categoryId status sort viewer limit hlimit => ⟨nodup_listing hrows _ _ _ _ _ _, ?_, ?_⟩,
    fun _ _ _ => mem_searchSelect, fun sort n doc => ?_, fun sort size fuel hsize hfuel => ?_⟩
  · intro page
    have htotal : countPage rows members categoryId status viewer true =
        (listing rows members categoryId status sort viewer true).length := by rw [listing, List.length_mergeSort, countPage]
    exact ⟨htotal, congrArg (Paging.pages · limit) htotal⟩
  · rw [← Paging.flatten_slices hlimit (listing rows members categoryId status sort viewer true), List.map_flatten, List.map_map]
    rw [Paging.flatten_slices hlimit]
    rfl
  · rw [indexDoc_eq_some hrows huncoded]
    simp only [mem_anonymous, and_assoc]
  · rw [rebuildFiles_eq hrows hsize hfuel]
    refine ⟨?_, fun doc => ?_⟩
    · rw [List.map_map]
      exact List.pairwise_map.2 ((pairwise_publicRows hrows).imp Nat.ne_of_lt)
    · simp only [List.mem_map, publicRows, List.mem_filter, Bool.and_eq_true, Bool.not_eq_true', mem_anonymous, Prod.exists]
      constructor
      · rintro ⟨n, f, ⟨hrow, hpub, hnewer⟩, rfl⟩
        exact ⟨n, f, ⟨hrow, hpub, hnewer⟩, rfl⟩
      · rintro ⟨n, f, ⟨hrow, hpub, hnewer⟩, rfl⟩
        exact ⟨n, f, ⟨hrow, hpub, hnewer⟩, rfl⟩

theorem visibility_agrees_demo :
    let rows := (run (init shelfSettings shelf shelfRequests) shelfRun).st.committed files
    ∀ matching n, n ∈ searchSelect rows matching ↔
      ∃ f, (n, f) ∈ listing rows [⟨0, some 9⟩] none none "newest" none true ∧ matching f = true :=
  fun matching n => (visibility_agrees shelfSettings shelf shelfRequests shelfRun starts_shelf [⟨0, some 9⟩] (fun _ => "")).2.2.1
    matching "newest" n

end LkmService.Files
