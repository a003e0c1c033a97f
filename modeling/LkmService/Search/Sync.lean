/-
The index follows the events: `search/sync.py`, `index_doc` in `content/search_api.py` and `files/search_api.py`, and
`_dispatch_with_dedup` in `core/worker.py`.

A session commits a change with its events, or is one delivery of an event, which waits until the event is published. The
engine is configured and the synchronisation is switched on.
- The handler's own session reads statement by statement; `get_user_snapshot_batch` answers what `Store.names` says for
  that call, since nothing tells the index of a new name.
- A call of the engine is one step. It may fail, with or without having been carried out (`Outcome`).
- The insert of `record_processed` and its commit are one step: the lock keeps the others away.
- `began`: the stamp of the reading of the row.
-/
import LkmService.Lib.Projection
import LkmService.Search.Model

namespace LkmService.Search

open Session
open Files (UserId LibraryFile Rows isPublic hasNewerApproved IndexDoc buildFileDoc)

/-! ## Documents -/

/-- the documents of `content/search_api.py`; `none` stands for a key that is left out -/
structure ContentDoc where
  id : ℕ
  contentType : String
  boardId : ℕ
  title : String
  excerpt : String
  content : String
  tags : List String
  authorId : Option UserId
  authorName : String
  summary : Option String
  keywords : Option (List String)
  publishedAt : Option ℤ
  createdAt : ℤ
deriving DecidableEq, Repr

/-- `build_doc` -/
def buildDoc (n : ℕ) (r : ContentItem) (authorName : String) : ContentDoc :=
  { id := n
    contentType := r.contentType.value
    boardId := r.boardId
    title := r.title
    excerpt := r.excerpt
    content := r.content
    tags := r.tags
    authorId := r.authorId
    authorName := authorName
    summary := r.summary.filter fun s => decide (s ≠ "")
    keywords := r.keywords
    publishedAt := r.publishedAt
    createdAt := r.createdAt }

/-- the ids of the two tables are UUIDs; no two rows share one -/
inductive ItemKey where
  | item (n : ℕ)
  | file (n : ℕ)
deriving DecidableEq, Repr

inductive Doc where
  | content (d : ContentDoc)
  | file (d : IndexDoc)
deriving DecidableEq, Repr

def Doc.key : Doc → ItemKey
  | .content d => .item d.id
  | .file d => .file d.id

/-- the document without the name of the author, which is not a field of the item -/
def Doc.unnamed : Doc → Doc
  | .content d => .content { d with authorName := "" }
  | .file d => .file { d with authorName := "" }

/-! ## The database -/

/-- the tables; a file without a code is a first version -/
structure Tables where
  db : Database
  uncoded : ∀ q ∈ db.files, q.2.documentCode = none → q.2.version = 1

def published (r : ContentItem) : Bool := decide (r.status = .published) && live r

/-- what the search has to know of an item: the document of its row, if the row may be shown, and whether a newer version
has superseded it -/
structure Facts where
  doc : Option Doc := none
  documentCode : Option Text := none
  version : ℕ := 0
  superseded : Bool := false
deriving DecidableEq

/-- the document of a visible item -/
def Facts.shown (d : Facts) : Option Doc := if d.superseded then none else d.doc

def Tables.getItem (t : Tables) (n : ℕ) : Option ContentItem := (t.db.items.find? fun q => decide (q.1 = n)).map Prod.snd

def Tables.getFile (t : Tables) (n : ℕ) : Option LibraryFile := (t.db.files.find? fun q => decide (q.1 = n)).map Prod.snd

def fileFacts (rows : Rows) (n : ℕ) (f : LibraryFile) : Facts where
  doc := if isPublic f then some (.file (buildFileDoc n f "")) else none
  documentCode := f.documentCode
  version := f.version
  superseded := hasNewerApproved rows f

def Tables.facts (t : Tables) : ItemKey → Facts
  | .item n => { doc := ((t.getItem n).filter published).map fun r => .content (buildDoc n r "") }
  | .file n => (t.getFile n).elim {} (fileFacts t.db.files n)

/-- the index has the document of a visible item, and none of one that is not -/
def indexed (_ : ItemKey) (d : Facts) (v : Option Doc) : Prop := v.map Doc.unnamed = d.shown

instance (k : ItemKey) (d : Facts) (v : Option Doc) : Decidable (indexed k d v) := by unfold indexed; infer_instance

/-- a change that is committed together with its events -/
structure Change where
  apply : Tables → Tables
  events : Tables → List ItemKey
  announced : ∀ t k, k ∉ events t → (apply t).facts k = t.facts k

/-! ## Statements -/

structure Event where
  key : ItemKey
  stamp : ℕ
deriving DecidableEq

/-- a call of the engine: it returns, it raises, or it is carried out and raises -/
inductive Outcome where
  | ok
  | failed
  | lost
deriving DecidableEq, Repr

structure Store where
  index : Projection Tables ItemKey (Option Doc)
  published : List Event := []
  processed : List ℕ := []
  /-- who holds the advisory lock -/
  locks : ℤ → Option ℕ := fun _ => none
  began : ℕ → ℕ := fun _ => 0
  /-- the answers of the engine and of the snapshots of the users, call by call -/
  outcome : ℕ → Outcome
  names : ℕ → UserId → String
  calls : ℕ := 0

inductive Stmt : Type → Type where
  | commit (c : Change) : Stmt Unit
  | receive (e : ℕ) : Stmt ItemKey
  | lock (h : ℤ) : Stmt Unit
  | alreadyProcessed (e : ℕ) : Stmt Bool
  | recordProcessed (e : ℕ) : Stmt Unit
  | rollback : Stmt Unit
  | getItem (n : ℕ) : Stmt (Option ContentItem)
  | getFile (n : ℕ) : Stmt (Option LibraryFile)
  | newerApproved (documentCode : Option Text) (version : ℕ) : Stmt (Option ℕ)
  | displayName (user : UserId) : Stmt String
  | upsert (doc : Doc) : Stmt Bool
  | delete (k : ItemKey) : Stmt Bool

/-- the first row that makes a version an old one -/
def newerApproved (rows : Rows) (documentCode : Option Text) (version : ℕ) : Option ℕ :=
  (rows.find? fun q => decide (q.2.documentCode = documentCode) && decide (version < q.2.version) &&
    decide (q.2.status = .approved)).map Prod.fst

namespace Store

def tables (s : Store) : Tables := s.index.source

/-- the session has lost its locks -/
def release (i : ℕ) (s : Store) : Store := { s with locks := fun h => if s.locks h = some i then none else s.locks h }

def commit (c : Change) (s : Store) : Store :=
  { s with
    index := s.index.change (fun k => decide (k ∈ c.events s.tables)) (c.apply s.tables)
    published := s.published ++ (c.events s.tables).map fun k => ⟨k, s.index.tick⟩ }

/-- session `i` begins to read -/
def begin (i : ℕ) (s : Store) : Store :=
  { s with index := s.index.begin, began := Function.update s.began i s.index.tick }

/-- the answer of the engine to a write of session `i` -/
def call (i : ℕ) (k : ItemKey) (v : Option Doc) (s : Store) : Bool × Store :=
  match s.outcome s.calls with
  | .ok => (true, { s with index := s.index.write k v (s.began i), calls := s.calls + 1 })
  | .failed => (false, { s with calls := s.calls + 1 })
  | .lost => (false, { s with index := s.index.write k v (s.began i), calls := s.calls + 1 })

end Store

def Stmt.exec {β : Type} (i : ℕ) (s : Store) : Stmt β → Option (β × Store)
  | .commit c => some ((), s.commit c)
  | .receive e => (s.published[e]?).map fun q => (q.key, s)
  | .lock h =>
    match s.locks h with
    | some _ => none
    | none => some ((), { s with locks := Function.update s.locks h (some i) })
  | .alreadyProcessed e => some (decide (e ∈ s.processed), s)
  | .recordProcessed e => some ((), ({ s with processed := e :: s.processed } : Store).release i)
  | .rollback => some ((), s.release i)
  | .getItem n => some (s.tables.getItem n, s.begin i)
  | .getFile n => some (s.tables.getFile n, s.begin i)
  | .newerApproved documentCode version => some (Search.newerApproved s.tables.db.files documentCode version, s)
  | .displayName user => some (s.names s.calls user, { s with calls := s.calls + 1 })
  | .upsert doc => some (s.call i doc.key (some doc))
  | .delete k => some (s.call i k none)

instance : Machine Stmt Store where
  exec i c s := c.exec i s
  drop i s := s.release i

/-- an exception of the engine -/
inductive EngineError where
  | failed
deriving DecidableEq, Repr

abbrev Prg (α : Type) := Prog Stmt EngineError α

/-! ## The handlers -/

/-- `_display_name` -/
def displayName : Option UserId → Prg String
  | none => pure ""
  | some user => Prog.call (.displayName user)

/-- `index_doc` of the content -/
def itemIndexDoc (n : ℕ) : Prg (Option Doc) := do
  match ← Prog.call (.getItem n) with
  | none => pure none
  | some r =>
    if r.deletedAt ≠ none ∨ r.status ≠ .published then pure none
    else do
      let name ← displayName r.authorId
      pure (some (.content (buildDoc n r name)))

/-- `index_doc` of the files -/
def fileIndexDoc (n : ℕ) : Prg (Option Doc) := do
  match ← Prog.call (.getFile n) with
  | none => pure none
  | some f =>
    if f.status ≠ .approved ∨ f.classification ≠ .pub then pure none
    else do
      match ← Prog.call (.newerApproved f.documentCode f.version) with
      | some _ => pure none
      | none => do
        let name ← displayName (some f.uploaderId)
        pure (some (.file (buildFileDoc n f name)))

def orRaise : Bool → Prg Unit
  | true => pure ()
  | false => .raise .failed

/-- the end of `sync_item` and of `sync_file` -/
def writeDoc (k : ItemKey) : Option Doc → Prg Unit
  | none => do
    let returned ← Prog.call (.delete k)
    orRaise returned
  | some doc => do
    let returned ← Prog.call (.upsert doc)
    orRaise returned

def syncItem (n : ℕ) : Prg Unit := do
  let doc ← itemIndexDoc n
  writeDoc (.item n) doc

def syncFile (n : ℕ) : Prg Unit := do
  let doc ← fileIndexDoc n
  writeDoc (.file n) doc

/-- `apply_content_event` and `apply_file_event` -/
def applyEvent : ItemKey → Prg Unit
  | .item n => syncItem n
  | .file n => syncFile n

/-- `finally: rollback` -/
def closing (p : Prg Unit) : Prg Unit :=
  p.andThen fun r => .op .rollback fun _ => .done r

/-- `_dispatch_with_dedup`; `h` is the hash of the lock -/
def dispatchWithDedup (h : ℤ) (e : ℕ) (handler : Prg Unit) : Prg Unit := closing do
  Prog.call (.lock h)
  if ← Prog.call (.alreadyProcessed e) then Prog.call .rollback
  else do
    handler
    Prog.call (.recordProcessed e)

/-! ## Sessions -/

inductive Request where
  | change (c : Change)
  /-- one delivery of the event -/
  | deliver (e : ℕ)

/-- `hashtextextended` is the hash of the advisory locks -/
def Request.prog (hashtextextended : ℕ → ℤ) : Request → Prg Unit
  | .change c => Prog.call (.commit c)
  | .deliver e => do
    let k ← Prog.call (.receive e)
    dispatchWithDedup (hashtextextended e) e (applyEvent k)

abbrev Run := World Stmt Store EngineError Unit

/-- all sessions, before their first statement -/
def init (hashtextextended : ℕ → ℤ) (t : Tables) (index : ItemKey → Option Doc) (outcome : ℕ → Outcome)
    (names : ℕ → UserId → String) (requests : ℕ → Request) : Run :=
  start { index := { source := t, copy := index }, outcome := outcome, names := names }
    fun i => (requests i).prog hashtextextended

end LkmService.Search
