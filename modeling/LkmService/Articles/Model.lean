/-
Articles and the four requests that write one: the versioned update, republication, review and soft deletion.

Modelled from `articles/service.py` (`update_article_ex`, `create_article`, `review_article`, `soft_delete_article`),
`articles/router.py` (`patch_article`), `articles/repository.py` (`sync_for_article`) and `repository.py` (`update_cas`,
`_version_snapshot`) over the row store of `Lib.Sql`. The number of a row is its id. The session does not flush on its
own: what a request has assigned to a loaded article is written by the flush at its end (or by the flush within
`pg_upsert`), and only the attributes that differ from the loaded ones (`Article.assign`).

A request reads the clock once. Counters, creation times and the cache are left out: no request here reads them.
-/
import LkmService.Lib.Atomic

namespace LkmService.Articles

open Session Sql

/-! ## Rows -/

inductive ArticleStatus where
  | draft
  | pending
  | published
  | rejected
  /-- the text "None", which an explicit null becomes -/
  | noneText
deriving DecidableEq, Repr

structure Article where
  slug : String
  title : String
  description : Option String := none
  cover : Option String := none
  categoryId : ℕ
  status : ArticleStatus := .draft
  content : String
  keywords : Option String := none
  published : Option ℕ := none
  version : ℕ := 1
  updatedAt : ℕ
deriving DecidableEq, Repr

structure Category where
  slug : String
  title : String
deriving DecidableEq, Repr

structure Tag where
  name : String
deriving DecidableEq, Repr

structure ArticleTag where
  articleId : ℕ
  tagId : ℕ
deriving DecidableEq, Repr

inductive Tbl where
  | articles
  | articleCategories
  | tags
  | articleTag
deriving DecidableEq, Repr

open Tbl

abbrev Row : Tbl → Type
  | .articles => Article
  | .articleCategories => Category
  | .tags => Tag
  | .articleTag => ArticleTag

/-- the entries of the unique indexes on `articles.slug` and `tags.name`, and of the primary key of `article_tag` -/
inductive Index where
  | articleSlug (slug : String)
  | tagName (name : String)
  | articleTag (articleId tagId : ℕ)
deriving DecidableEq, Repr

/-- `_version_snapshot`: no version and no fields where the row is gone -/
structure Current where
  id : ℕ
  fields : Option (ℕ × String × String)
deriving DecidableEq, Repr

inductive Exn where
  | notFound
  | categoryNotFound
  | invalidStatusTransition
  | versionConflict (current : Current)
  /-- an insert that breaks a unique index -/
  | integrityError
  /-- a flush whose UPDATE finds no row, and a refresh of a row that is gone -/
  | staleData
  /-- a name that the lookup of the tags does not have -/
  | keyError
  /-- a text that the store does not take -/
  | dataError
deriving DecidableEq, Repr

abbrev Fx := Discipline.NoFx Unit

abbrev Store := Db Row Index Unit

abbrev Op (α : Type) := Prog (Stmt Row Index Fx) Exn α

/-! ## What a request answers -/

/-- the keywords are split at the commas by the schema -/
structure ArticleDetail where
  slug : String
  title : String
  description : Option String
  cover : Option String
  categoryId : ℕ
  content : String
  keywords : Option String
  published : Option ℕ
  version : ℕ
  tags : List String
  categoryTitle : String
  readingTime : ℕ
deriving DecidableEq, Repr

inductive Answer where
  | detail (d : ArticleDetail)
  | article (id : ℕ)
  | conflict (current : Current)
deriving DecidableEq, Repr

def readingSpeedCps : ℕ := 300

/-- `round`: halves go to the even number -/
def roundDiv (n d : ℕ) : ℕ :=
  if 2 * (n % d) < d then n / d else if d < 2 * (n % d) then n / d + 1 else n / d + (n / d) % 2

def estimateReadingTime (content : String) : ℕ :=
  if content.length = 0 then 0 else max 1 (roundDiv content.length readingSpeedCps)

def articleToDetail (n : ℕ) (article : Article) : Op ArticleDetail := do
  let names ← query fun l => ((l articleTag).filter fun q => decide (q.2.articleId = n)).filterMap fun q =>
    ((l tags).find? fun t => decide (t.1 = q.2.tagId)).map fun t => t.2.name
  let rows ← select articleCategories fun m _ => decide (m = article.categoryId)
  pure
    { slug := article.slug
      title := article.title
      description := article.description
      cover := article.cover
      categoryId := article.categoryId
      content := article.content
      keywords := article.keywords
      published := article.published
      version := article.version
      tags := names
      categoryTitle := (rows.head?.map fun c => c.2.title).getD ""
      readingTime := estimateReadingTime article.content }

/-! ## The repositories -/

/-- `_get_article`, `get_by_slug` -/
def getBySlug (slug : String) : Op (Option (ℕ × Article)) := do
  let rows ← select articles fun _ a => decide (a.slug = slug)
  pure rows.head?

def getArticle (slug : String) : Op (ℕ × Article) := do
  match ← getBySlug slug with
  | none => .raise .notFound
  | some q => pure q

/-- the attribute that is written for a loaded value `a` and an assigned one `b` over the row's `r` -/
def assign {α : Type} [DecidableEq α] (a b r : α) : α := if a = b then r else b

/-- the row that the flush of an article writes: it was loaded as `a` and is now `b`; no request assigns a version -/
def Article.assign (a b : Article) (now : ℕ) (r : Article) : Article where
  slug := Articles.assign a.slug b.slug r.slug
  title := Articles.assign a.title b.title r.title
  description := Articles.assign a.description b.description r.description
  cover := Articles.assign a.cover b.cover r.cover
  categoryId := Articles.assign a.categoryId b.categoryId r.categoryId
  status := Articles.assign a.status b.status r.status
  content := Articles.assign a.content b.content r.content
  keywords := Articles.assign a.keywords b.keywords r.keywords
  published := Articles.assign a.published b.published r.published
  version := r.version
  updatedAt := now

/-- nothing is sent for an article that is as it was loaded -/
def flushArticle (n : ℕ) (a b : Article) (now : ℕ) : Op Unit :=
  if a = b then pure ()
  else do
    match ← updateRow articles n (fun _ => true) (Article.assign a b now) with
    | none => .raise .staleData
    | some _ => pure ()

/-- `update_cas`; the answer is the refreshed row -/
def updateCas (n : ℕ) (expectedVersion : Option ℕ) (values : Article → Article) (now : ℕ) : Op Article := do
  match ← updateRow articles n (fun r => expectedVersion.all fun v => decide (r.version = v))
      (fun r => { values r with version := r.version + 1, updatedAt := now }) with
  | none => do
    let rows ← select articles fun m _ => decide (m = n)
    .raise (.versionConflict { id := n, fields := rows.head?.map fun q => (q.2.version, q.2.slug, q.2.title) })
  | some _ => do
    let rows ← select articles fun m _ => decide (m = n)
    match rows.head? with
    | none => .raise .staleData
    | some (_, r) => pure r

/-- `tag_names_sequence`: no empty name, and of equal ones the first -/
def tagNamesSequence (names : List String) : List String :=
  names.foldl (fun result n => if n ≠ "" && !result.contains n then result ++ [n] else result) []

def hasNul (s : String) : Bool := s.toList.any fun c => decide (c.toNat = 0)

/-- no parameter of a statement may contain NUL -/
def nameToId (names : List String) : Op (List (String × ℕ)) :=
  if names.any hasNul then .raise .dataError
  else do
    let rows ← select tags fun _ t => names.contains t.name
    pure (rows.map fun q => (q.2.name, q.1))

def tagNameLength : ℕ := 50

/-- what the column `tags.name` holds of a text; of one that is too long only blanks are cut off -/
def stored (name : String) : Option String :=
  if (name.toList.drop tagNameLength).all fun c => decide (c = ' ') then
    some (String.ofList (name.toList.take tagNameLength))
  else none

/-- INSERT … ON CONFLICT DO NOTHING of the missing tags -/
def upsertTags : List String → Op Unit
  | [] => pure ()
  | n :: ns =>
    match stored n with
    | none => .raise .dataError
    | some name => do
      let _ ← insertUnique tags (.tagName name) (fun t => decide (t.name = name)) { name := name }
      upsertTags ns

/-- `[name_to_id[n] for n in ordered]` -/
def lookupIds (ids : List (String × ℕ)) : List String → Op (List ℕ)
  | [] => pure []
  | n :: ns =>
    match ids.lookup n with
    | none => .raise .keyError
    | some id => do
      let rest ← lookupIds ids ns
      pure (id :: rest)

/-- DELETE … WHERE p over the candidate rows -/
def deleteTags (p : ArticleTag → Bool) : List ℕ → Op Unit
  | [] => pure ()
  | m :: ms => do
    let _ ← deleteIf articleTag m p
    deleteTags p ms

/-- `sync_for_article`; `flush` is what the session has not written yet. The answer is the links that the next flush
inserts -/
def syncForArticle (n : ℕ) (names : List String) (flush : Op Unit) : Op (List ℕ) := do
  let ordered := tagNamesSequence names
  if ordered.isEmpty then pure []
  else do
    let found ← nameToId ordered
    let missing := ordered.filter fun name => (found.lookup name).isNone
    let ids ←
      if missing.isEmpty then pure found
      else do
        upsertTags missing
        flush
        nameToId ordered
    let tagIds ← lookupIds ids ordered
    let rows ← select articleTag fun _ l => decide (l.articleId = n) && tagIds.contains l.tagId
    let existing := rows.map fun q => q.2.tagId
    let old ← select articleTag fun _ l => decide (l.articleId = n) && !tagIds.contains l.tagId
    deleteTags (fun l => decide (l.articleId = n) && !tagIds.contains l.tagId) (old.map Prod.fst)
    pure (tagIds.filter fun id => !existing.contains id)

/-- the links that a flush inserts -/
def flushLinks (n : ℕ) : List ℕ → Op Unit
  | [] => pure ()
  | id :: ids => do
    match ← insertUnique Tbl.articleTag (.articleTag n id) (fun l => decide (l.articleId = n ∧ l.tagId = id))
        { articleId := n, tagId := id } with
    | none => .raise .integrityError
    | some _ => flushLinks n ids

/-! ## Requests -/

def resolveCategoryId (slug : String) : Op ℕ := do
  let rows ← select articleCategories fun _ c => decide (c.slug = slug)
  match rows.head? with
  | none => .raise .categoryNotFound
  | some (n, _) => pure n

def requireCategory (category : ℕ) : Op Unit := do
  let rows ← select articleCategories fun n _ => decide (n = category)
  if rows.isEmpty then .raise .categoryNotFound else pure ()

def createArticle (slug title category content : String) (published : Option ℕ) (description : Option String)
    (names : List String) (now : ℕ) : Op ℕ := do
  match ← getBySlug slug with
  | some (n, existing) => do
    let categoryId ← resolveCategoryId category
    let article : Article :=
      { existing with
        title := title
        categoryId := categoryId
        content := content
        description := if description.isSome then description else existing.description }
    let links ← syncForArticle n names (flushArticle n existing article now)
    flushArticle n existing { article with updatedAt := now } now
    flushLinks n links
    pure n
  | none => do
    let categoryId ← resolveCategoryId category
    match ← insertUnique articles (.articleSlug slug) (fun a => decide (a.slug = slug))
        { slug := slug
          title := title
          categoryId := categoryId
          content := content
          published := some (published.getD now)
          description := description
          updatedAt := now } with
    | none => .raise .integrityError
    | some n => do
      let links ← syncForArticle n names (pure ())
      flushLinks n links
      pure n

/-- `none` is a field that is not set; `title`, `content` and `categoryId` may not be null -/
structure ArticleUpdate where
  title : Option String := none
  description : Option (Option String) := none
  cover : Option (Option String) := none
  content : Option String := none
  categoryId : Option ℕ := none
  keywordStr : Option (Option String) := none
  status : Option (Option ArticleStatus) := none
  tags : Option (List String) := none
  version : Option ℕ := none
deriving DecidableEq, Repr

namespace ArticleUpdate

/-- whether the update sets a column -/
def writes (p : ArticleUpdate) : Bool :=
  p.title.isSome || p.description.isSome || p.cover.isSome || p.content.isSome || p.categoryId.isSome ||
    p.keywordStr.isSome || p.status.isSome

/-- the row that the UPDATE writes, of an article that was published at `published` when it was read -/
def values (p : ArticleUpdate) (published : Option ℕ) (now : ℕ) (r : Article) : Article :=
  { r with
    title := p.title.getD r.title
    description := p.description.getD r.description
    cover := p.cover.getD r.cover
    content := p.content.getD r.content
    categoryId := p.categoryId.getD r.categoryId
    keywords := (p.keywordStr.map fun k => some (k.getD "None")).getD r.keywords
    status := (p.status.map fun s => s.getD .noneText).getD r.status
    published := if p.status = some (some .published) ∧ published = none then some now else r.published }

end ArticleUpdate

def updateArticleEx (slug : String) (patch : ArticleUpdate) (now : ℕ) : Op ArticleDetail := do
  let (n, article) ← getArticle slug
  match patch.categoryId with
  | some category => requireCategory category
  | none => pure ()
  let article ←
    if patch.version.isSome || patch.writes || patch.tags.isSome then
      updateCas n patch.version (patch.values article.published now) now
    else pure article
  let links ←
    match patch.tags with
    | some names => syncForArticle n names (pure ())
    | none => pure []
  flushLinks n links
  articleToDetail n article

/-- the endpoint answers a conflict with the current values, and so its session is committed -/
def patchArticle (slug : String) (patch : ArticleUpdate) (now : ℕ) : Op Answer :=
  (updateArticleEx slug patch now).andThen fun
    | .ok d => pure (.detail d)
    | .error (.versionConflict current) => pure (.conflict current)
    | .error e => .raise e

def softDeleteArticle (slug : String) (now : ℕ) : Op ArticleDetail := do
  let (n, article) ← getArticle slug
  let deleted := { article with status := .rejected, published := none }
  flushArticle n article deleted now
  articleToDetail n deleted

def reviewArticle (slug : String) (approve : Bool) (now : ℕ) : Op ArticleDetail := do
  let (n, article) ← getArticle slug
  if article.status ≠ .pending then .raise .invalidStatusTransition
  else do
    let reviewed :=
      if approve then { article with status := .published, published := some now }
      else { article with status := .rejected }
    flushArticle n article reviewed now
    articleToDetail n reviewed

inductive Request where
  | updateArticleEx (slug : String) (patch : ArticleUpdate) (now : ℕ)
  | createArticle (slug title category content : String) (published : Option ℕ) (description : Option String)
      (names : List String) (now : ℕ)
  | reviewArticle (slug : String) (approve : Bool) (now : ℕ)
  | softDeleteArticle (slug : String) (now : ℕ)

def Request.body : Request → Op Answer
  | .updateArticleEx slug patch now => patchArticle slug patch now
  | .createArticle slug title category content published description names now => do
    let n ← Articles.createArticle slug title category content published description names now
    pure (.article n)
  | .reviewArticle slug approve now => do
    let d ← Articles.reviewArticle slug approve now
    pure (.detail d)
  | .softDeleteArticle slug now => do
    let d ← Articles.softDeleteArticle slug now
    pure (.detail d)

/-- the session of the request commits at its end, and rolls back when it raises -/
def Request.prog (r : Request) : Op Answer := transaction r.body

end LkmService.Articles
