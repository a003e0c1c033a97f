/-
Search over the published content and the public files.

Modelled from `search/service.py` and `search/repository.py` on the database path, with the branches of
`content/search_api.py` and `files/search_api.py`. A query is a function of the rows of one snapshot. Whether a text matches
the term and how it ranks are a parameter, `Match`, and so are the display names. A rank that is NULL comes last.
The column `view_count` of the files, which nothing else reads, stands beside their rows.
-/
import LkmService.Files.Visibility
import LkmService.Lib.Text
import Mathlib.Data.Prod.Lex
import Mathlib.Order.WithBot
import Mathlib.Data.Rat.Defs
import Mathlib.Algebra.Order.Ring.Rat

namespace LkmService.Search

open Files (UserId LibraryFile Rows isPublic hasNewerApproved)

/-! ## Rows -/

inductive ContentType where
  | discussion
  | article
  | columnPost
  | blogPost
  | qa
deriving DecidableEq, Repr

/-- the text in the column -/
def ContentType.value : ContentType → String
  | .discussion => "discussion"
  | .article => "article"
  | .columnPost => "column_post"
  | .blogPost => "blog_post"
  | .qa => "qa"

inductive ContentStatus where
  | draft
  | pending
  | published
  | rejected
deriving DecidableEq, Repr

structure ContentItem where
  contentType : ContentType
  boardId : ℕ := 0
  authorId : Option UserId := none
  publisher : Option String := none
  slug : Option String := none
  title : String := ""
  excerpt : String := ""
  content : String := ""
  summary : Option String := none
  keywords : Option (List String) := none
  tags : List String := []
  status : ContentStatus := .published
  viewCount : ℕ := 0
  likeCount : ℕ := 0
  commentCount : ℕ := 0
  createdAt : ℤ := 0
  publishedAt : Option ℤ := none
  deletedAt : Option ℤ := none
deriving DecidableEq, Repr

/-- one snapshot; an id is the key of its table -/
structure Database where
  items : List (ℕ × ContentItem)
  files : Rows
  fileViews : ℕ → ℕ := fun _ => 0
  itemKeys : (items.map Prod.fst).Nodup
  fileKeys : (files.map Prod.fst).Nodup

/-- what the text search says of the rows, for one term -/
structure Match where
  item : ContentItem → Bool
  file : LibraryFile → Bool
  itemRank : ContentItem → WithBot ℚ
  fileRank : LibraryFile → WithBot ℚ

/-! ## Branches -/

/-- where a row of the union comes from -/
inductive Source where
  | content
  | libraryFile
deriving DecidableEq, Repr

/-- a row of the union -/
structure Candidate where
  id : ℕ
  source : Source
  rank : WithBot ℚ
  createdAt : ℤ

section Queries

variable (db : Database) (m : Match) (names : UserId → String)

/-- an empty text is no filter -/
def ofType (contentType : Option String) (r : ContentItem) : Bool :=
  contentType.all fun s => decide (s = "") || decide (r.contentType.value = s)

/-- `_match` -/
def conditions (contentType : Option String) (r : ContentItem) : Bool :=
  decide (r.status = .published) && m.item r && ofType contentType r

def live (r : ContentItem) : Bool := r.deletedAt.isNone

/-- `content_port.search_select` -/
def contentSelect (contentType : Option String) : List Candidate :=
  (db.items.filter fun q => conditions m contentType q.2).map fun q => ⟨q.1, .content, m.itemRank q.2, q.2.createdAt⟩

def latestPublic (rows : Rows) (f : LibraryFile) : Bool := isPublic f && !hasNewerApproved rows f && m.file f

/-- `files_port.search_select` -/
def fileSelect : List Candidate :=
  (db.files.filter fun q => latestPublic m db.files q.2).map fun q => ⟨q.1, .libraryFile, m.fileRank q.2, q.2.createdAt⟩

/-- `count_matching` -/
def countMatching (contentType : Option String) : ℕ :=
  (db.items.filter fun q => conditions m contentType q.2 && live q.2).length

/-- descending in the rank, then in the id -/
def matchingOrder (p q : ℕ × ContentItem) : Bool :=
  decide (toLex (m.itemRank q.2, q.1) ≤ toLex (m.itemRank p.2, p.1))

/-- `select_matching` -/
def selectMatching (contentType : Option String) (offset limit : ℕ) : List (ℕ × ContentItem) :=
  (((db.items.filter fun q => conditions m contentType q.2 && live q.2).mergeSort (matchingOrder m)).drop offset).take limit

/-- `select_published_by_ids` -/
def selectPublishedByIds (ids : List ℕ) : List (ℕ × ContentItem) :=
  db.items.filter fun q => decide (q.1 ∈ ids) && decide (q.2.status = .published) && live q.2

/-- `select_public_by_ids` -/
def selectPublicByIds (ids : List ℕ) : Rows := db.files.filter fun q => decide (q.1 ∈ ids) && isPublic q.2

/-! ## The repository -/

def Candidate.key (c : Candidate) : WithBot ℚ ×ₗ ℤ ×ₗ ℕ := toLex (c.rank, toLex (c.createdAt, c.id))

/-- descending in the rank, then in the time, then in the id -/
def unionOrder (c c' : Candidate) : Bool := decide (c'.key ≤ c.key)

/-- the rows that are counted and sorted -/
def combined (contentType : Option String) : List Candidate :=
  if contentType = some "library_file" then fileSelect db m else contentSelect db m contentType ++ fileSelect db m

/-- `search_with_files` -/
def searchWithFiles (contentType : Option String) (offset limit : ℕ) : ℕ × List (ℕ × Source) :=
  let rows := combined db m contentType
  (rows.length, (((rows.mergeSort unionOrder).drop offset).take limit).map fun c => (c.id, c.source))

/-! ## The service -/

structure SearchHit where
  id : ℕ
  contentType : String
  boardId : Option ℕ
  title : String
  excerpt : String := ""
  slug : Option String := none
  authorId : Option UserId := none
  authorName : String := ""
  likeCount : ℕ
  commentCount : ℕ
  viewCount : ℕ
  publishedAt : Option ℤ := none
  createdAt : ℤ
  documentCode : Option Text := none
  version : Option ℕ := none
  projectId : Option ℕ := none
deriving DecidableEq, Repr

structure PageData where
  items : List SearchHit
  total : ℕ
  page : ℕ
  pages : ℕ
deriving DecidableEq, Repr

/-- `_to_hit` -/
def toHit (n : ℕ) (r : ContentItem) : SearchHit :=
  { id := n
    contentType := r.contentType.value
    boardId := some r.boardId
    title := r.title
    excerpt := r.excerpt
    slug := r.slug
    authorId := r.authorId
    authorName := match r.authorId with
      | some a => names a
      | none => r.publisher.getD ""
    likeCount := r.likeCount
    commentCount := r.commentCount
    viewCount := r.viewCount
    publishedAt := r.publishedAt
    createdAt := r.createdAt }

/-- `_file_hit` -/
def fileHit (n : ℕ) (f : LibraryFile) : SearchHit :=
  { id := n
    contentType := "library_file"
    boardId := none
    title := f.originalName
    excerpt := f.description
    authorId := some f.uploaderId
    authorName := names f.uploaderId
    likeCount := 0
    commentCount := 0
    viewCount := db.fileViews n
    createdAt := f.createdAt
    documentCode := f.documentCode
    version := some f.version
    projectId := f.projectId }

/-- a row of the union with the rows that have been read again; what is not among them is left out -/
def pickHit (contentRows : List (ℕ × ContentItem)) (fileRows : Rows) : ℕ × Source → Option SearchHit
  | (n, .content) => (contentRows.find? fun q => decide (q.1 = n)).map fun q => toHit names q.1 q.2
  | (n, .libraryFile) => (fileRows.find? fun q => decide (q.1 = n)).map fun q => fileHit db names q.1 q.2

/-- the ids that come from one table -/
def idsOf (source : Source) (found : List (ℕ × Source)) : List ℕ :=
  (found.filter fun p => decide (p.2 = source)).map Prod.fst

/-- `_pg_hits` -/
def pgHits (page limit : ℕ) (contentType : Option String) : PageData :=
  if contentType = none ∨ contentType = some "library_file" then
    let found := searchWithFiles db m contentType (Paging.offset page limit) limit
    let contentRows := selectPublishedByIds db (idsOf .content found.2)
    let fileRows := selectPublicByIds db (idsOf .libraryFile found.2)
    { items := found.2.filterMap (pickHit db names contentRows fileRows)
      total := found.1
      page := page
      pages := Paging.pages found.1 limit }
  else
    let total := countMatching db m contentType
    let items := selectMatching db m contentType (Paging.offset page limit) limit
    { items := items.map fun q => toHit names q.1 q.2
      total := total
      page := page
      pages := Paging.pages total limit }

end Queries

inductive SearchErr where
  | emptyQuery
deriving DecidableEq, Repr

/-- `search_items` without an engine; `text` is the text search -/
def searchItems (db : Database) (text : Text → Match) (names : UserId → String) (q : Text) (page limit : ℕ)
    (contentType : Option String) : Except SearchErr PageData :=
  let term := Text.strip q
  if term = [] then .error .emptyQuery else .ok (pgHits db (text term) names page limit contentType)

end LkmService.Search
