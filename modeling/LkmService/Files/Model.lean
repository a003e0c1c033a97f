/-
The library of files: uploads, their review and their removal.

Modelled from `files/service.py`, `files/repository.py`, `files/tasks.py` and `files/retention.py`. The store is that of
`Lib.Sql`; the number of a row is its id. The objects are outside the tables, and each call of the storage works at once or
raises without effect: which it does is part of the request, as are the clock, the result of `process_upload` and the
answers of the other services. Times are microseconds, `digest` is the 64-bit digest that names an advisory lock.

A file is content-addressed: its object is at the key of its hash, which all files of the same content share. The columns
that are written and never read (`stored_name`, `storage_path`, `mime_type`, `view_count`) are left out. Two things are no
data of the program: `LibraryFile.upload` is the upload session that a file comes from, and the storage remembers who has
removed an object.
-/
import LkmService.Lib.Atomic
import LkmService.Lib.Uuid

namespace LkmService.Files

open Session Sql

abbrev UserId := ℕ

/-! ## Rows -/

inductive FileStatus where
  | pending
  | approved
  | rejected
  | deleted
deriving DecidableEq, Repr

/-- `public` is `pub` -/
inductive FileClassification where
  | pub
  | internal
  | confidential
deriving DecidableEq, Repr

structure LibraryFile where
  uploaderId : UserId
  originalName : String
  sha3Hash : Option String := none
  refCount : ℕ := 1
  size : ℕ := 0
  categoryId : String := ""
  documentCode : Option Text := none
  classification : FileClassification := .pub
  projectId : Option ℕ := none
  version : ℕ := 1
  rootFileId : Option ℕ := none
  extractedText : String := ""
  archived : Bool := false
  backedUpAt : Option ℤ := none
  description : String := ""
  tags : List String := []
  status : FileStatus := .pending
  reviewComment : Option String := none
  downloadCount : ℕ := 0
  createdAt : ℤ := 0
  upload : Option ℕ := none
deriving DecidableEq, Repr

/-- `FileCreate` -/
structure FileCreate where
  originalName : String
  categoryId : String := ""
  description : String := ""
  tags : List String := []
  classification : FileClassification := .pub
  projectId : Option ℕ := none
  versionOf : Option ℕ := none
deriving DecidableEq, Repr

/-- what `meta` holds; the object is at `key` -/
structure Meta where
  key : String
  info : FileCreate
deriving DecidableEq, Repr

/-- an upload session; `content` is `none` when its JSON cannot be read -/
structure UploadSession where
  uploadId : String
  uploaderId : UserId
  storageKey : String
  content : Option Meta
  createdAt : ℤ
deriving DecidableEq, Repr

structure Project where
  applicantId : UserId
deriving DecidableEq, Repr

structure Member where
  projectId : ℕ
  userId : Option UserId
deriving DecidableEq, Repr

/-- the events that are written to the outbox -/
inductive Event where
  | point (user : UserId) (event : String) (file : ℕ)
  | fileChanged (file : ℕ)
deriving DecidableEq, Repr

inductive Tbl where
  | files
  | sessions
  | outbox
  | projects
  | members
deriving DecidableEq, Repr

open Tbl

abbrev Row : Tbl → Type
  | .files => LibraryFile
  | .sessions => UploadSession
  | .outbox => Event
  | .projects => Project
  | .members => Member

/-- an advisory lock, or the entry of a new row in `uq_library_document_version` -/
inductive Lock where
  | advisory (id : ℕ)
  | documentVersion (code : Option Text) (version : ℕ)
deriving DecidableEq, Repr

inductive Exn where
  | notFound
  | notOwner
  | invalidStatus (detail : Option String)
  | invalidProject
  | tooLarge
  | storeError
  | notPending
  | uploadExpired
  | uploadNotFound
  /-- the content is refused, or cannot be processed -/
  | refused
  /-- a service that is called does not answer -/
  | unavailable
  /-- a row violates a constraint, or a text is no number -/
  | dataError
  | corrupt
deriving DecidableEq, Repr

/-! ## The storage -/

/-- the bytes of an object: their hash and how many they are -/
structure Object where
  hash : String
  size : ℕ
deriving DecidableEq, Repr

/-- the object itself, and what is made of it -/
inductive Variant where
  | thumb
  | medium
  | preview
  | main
deriving DecidableEq, Repr

/-- `<hash[:2]>/<hash>` with a suffix, or the key of an upload -/
inductive Key where
  | content (hash : String) (variant : Variant)
  | upload (key : String)
deriving DecidableEq, Repr

/-- the objects, and the hashes whose bytes are in the archive and in the backup; `removedBy` is the session that has
removed the last bytes of a hash, `takenBy` the one whose registration has removed an upload, and `cleaned` are the uploads
that the cleanup has removed -/
structure Storage where
  object : Key → Option Object := fun _ => none
  archive : String → Bool := fun _ => false
  backup : String → Bool := fun _ => false
  removedBy : String → Option ℕ := fun _ => none
  takenBy : String → Option ℕ := fun _ => none
  cleaned : String → Bool := fun _ => false

namespace Storage

/-- the bytes of the hash are in the hot store or in the archive -/
def has (s : Storage) (hash : String) : Bool := (s.object (.content hash .main)).isSome || s.archive hash

def put (s : Storage) (k : Key) (c : Object) : Storage := { s with object := Function.update s.object k (some c) }

/-- `session` has taken what was in `s`; if the bytes of `hash` are gone, it is the one that removed them -/
def blame (s s' : Storage) (session : ℕ) (hash : String) : Storage :=
  if s.has hash && !s'.has hash then { s' with removedBy := Function.update s'.removedBy hash (some session) } else s'

def drop (s : Storage) (k : Key) : Storage := { s with object := Function.update s.object k none }

end Storage

/-- who removes an upload -/
inductive Purpose where
  | registration
  | cleanup
deriving DecidableEq, Repr

inductive Fx : Type → Type where
  /-- `exists`; `none`: the call raises -/
  | present (k : Key) (works : Bool) : Fx (Option Bool)
  | save (k : Key) (c : Object) (works : Bool) : Fx Bool
  | copy (src dest : Key) (works : Bool) : Fx Bool
  /-- `open`, to the end -/
  | read (k : Key) (works : Bool) : Fx (Option Object)
  | delete (k : Key) (works : Bool) (purpose : Purpose) : Fx Bool
  /-- `archive_file` -/
  | archive (hash : String) (works : Bool) : Fx Bool
  /-- `backup_file` -/
  | backup (hash : String) (works : Bool) : Fx Bool
  | deleteArchive (hash : String) (works : Bool) : Fx Bool
  /-- `record_audit` -/
  | audit (works : Bool) : Fx Bool
  /-- `get_user_display_names`, of one user -/
  | name (answer : Option String) : Fx (Option String)

/-- `_copy_verified` of what is at the key of the hash: a copy that is there already is good -/
def Storage.copies (s : Storage) (there : Bool) (hash : String) (works : Bool) : Bool :=
  works && (there || (s.object (.content hash .main)).any fun c => decide (c.hash = hash))

/-- the object at the key is gone, and whose doing it is -/
def Storage.delete (s : Storage) (i : ℕ) (k : Key) (purpose : Purpose) : Storage :=
  match k with
  | .content hash _ => s.blame (s.drop k) i hash
  | .upload key =>
    match purpose with
    | .registration => { s.drop k with takenBy := Function.update s.takenBy key (some i) }
    | .cleanup => { s.drop k with cleaned := Function.update s.cleaned key true }

instance : Effects Fx Storage where
  exec i x s :=
    match x with
    | .present k works => (if works then some (s.object k).isSome else none, s)
    | .save k c works => (works, if works then s.put k c else s)
    | .copy src dest works =>
      match s.object src with
      | some c => (works, if works then s.put dest c else s)
      | none => (false, s)
    | .read k works => (if works then s.object k else none, s)
    | .delete k works purpose => (works, if works then s.delete i k purpose else s)
    | .archive hash works =>
      (s.copies (s.archive hash) hash works,
        if s.copies (s.archive hash) hash works then { s with archive := Function.update s.archive hash true } else s)
    | .backup hash works =>
      (s.copies (s.backup hash) hash works,
        if s.copies (s.backup hash) hash works then { s with backup := Function.update s.backup hash true } else s)
    | .deleteArchive hash works =>
      (works, if works then s.blame { s with archive := Function.update s.archive hash false } i hash else s)
    | .audit works => (works, s)
    | .name answer => (answer, s)

abbrev Store := Db Row Lock Storage

abbrev Op (α : Type) := Prog (Stmt Row Lock Fx) Exn α

structure Settings where
  digest : String → ℕ
  maxUploadBytes : ℕ
  archiveDir : Bool
  backupDir : Bool
  archiveAfter : ℤ
  searchSync : Bool
  cleanupBatch : ℕ
  uploadTtl : ℤ

/-- what the calls of a request come to -/
structure Calls where
  /-- `exists` -/
  present : Bool := true
  save : Bool := true
  savePreview : Bool := true
  copy : Bool := true
  read : Bool := true
  delete : Variant → Bool := fun _ => true
  deleteUpload : Bool := true
  deleteArchive : Bool := true
  archive : Bool := true
  backup : Bool := true
  audit : Bool := true
  name : Option String := some ""
  /-- `process_upload`: the text, and whether there is a preview -/
  processed : Option (String × Bool) := some ("", false)

/-! ## The repositories -/

/-- one row by its id, or the error of its absence -/
def getOrRaise (t : Tbl) (n : ℕ) (e : Exn) : Op (Row t) := do
  let rows ← select t fun m _ => decide (m = n)
  match rows.head? with
  | none => .raise e
  | some (_, r) => pure r

/-- a call that raises ends the request -/
def orRaise (x : Fx Bool) (e : Exn) : Op Unit := do
  if ← perform x then pure () else .raise e

def lockDocument (settings : Settings) (key : Text) : Op Unit :=
  lockKey (.advisory (settings.digest ("file-doc:" ++ String.ofList key)))

def lockHash (settings : Settings) (hash : String) : Op Unit :=
  lockKey (.advisory (settings.digest ("files:" ++ hash)))

/-- `WL-SYBG-{year}-` -/
def codePrefix (year : ℕ) : Text := "WL-SYBG-".toList ++ Nat.toDigits 10 year ++ ['-']

/-- `{number:03d}` -/
def pad (number : ℕ) : Text :=
  List.replicate (3 - (Nat.toDigits 10 number).length) '0' ++ Nat.toDigits 10 number

/-- the cast of a text to an integer of 32 bits -/
def castInteger (s : Text) : Option ℕ :=
  if s ≠ [] ∧ s.all Char.isDigit then
    let value := Nat.ofDigitChars 10 s 0
    if value < 2 ^ 31 then some value else none
  else none

def largest (numbers : List ℕ) : ℕ := numbers.foldl max 0

def nextDocumentCode (settings : Settings) (year : ℕ) : Op Text := do
  lockDocument settings (codePrefix year)
  let rows ← select files fun _ f => f.documentCode.any ((codePrefix year).isPrefixOf ·)
  match rows.mapM fun q => castInteger ((q.2.documentCode.getD []).drop (codePrefix year).length) with
  | none => .raise .dataError
  | some numbers => pure (codePrefix year ++ pad (largest numbers + 1))

def nextVersion (settings : Settings) (code : Text) : Op ℕ := do
  lockDocument settings code
  let rows ← select files fun _ f => decide (f.documentCode = some code)
  pure (largest (rows.map fun q => q.2.version) + 1)

def versions (code : Text) : Op (List (ℕ × LibraryFile)) := select files fun _ f => decide (f.documentCode = some code)

def isLive (status : FileStatus) : Bool := decide (status = .pending ∨ status = .approved)

def LibraryFile.isLiveOf (hash : String) (f : LibraryFile) : Bool := decide (f.sha3Hash = some hash) && isLive f.status

def countLiveByHash (hash : String) : Op ℕ := do
  let rows ← select files fun _ f => f.isLiveOf hash
  pure rows.length

def syncRefCount (hash : String) : Op Unit := do
  let count ← countLiveByHash hash
  let rows ← select files fun _ f => decide (f.sha3Hash = some hash)
  let _ ← updateAll files (fun f => decide (f.sha3Hash = some hash)) (fun f => { f with refCount := count })
    (rows.map Prod.fst)
  pure ()

/-- the row of a `DELETE … RETURNING` -/
def claim (uploadId : String) (uploader : Option UserId) : Op (Option (ℕ × UploadSession)) := do
  let owned := fun s : UploadSession => decide (s.uploadId = uploadId) && uploader.all fun u => decide (s.uploaderId = u)
  let rows ← select sessions fun _ s => owned s
  match rows.head? with
  | none => pure none
  | some (n, s) => do if ← deleteIf sessions n owned then pure (some (n, s)) else pure none

/-! ## Uploads -/

/-- `can_upload_to_project` -/
def canUploadToProject (project : ℕ) (user : UserId) : Op Bool := do
  let rows ← select projects fun n _ => decide (n = project)
  match rows.head? with
  | none => pure false
  | some (_, p) =>
    if p.applicantId = user then pure true
    else do
      let rows ← select members fun _ m => decide (m.projectId = project) && decide (m.userId = some user)
      pure !rows.isEmpty

/-- what an upload is a file of -/
structure Identity where
  code : Text
  version : ℕ
  root : Option ℕ
  classification : FileClassification
  project : Option ℕ

/-- a new version takes what it does not say itself from its parent -/
def FileCreate.inherit (info : FileCreate) (parent : LibraryFile) : FileCreate :=
  { info with
    categoryId := parent.categoryId
    description := if info.description = "" then parent.description else info.description
    tags := if info.tags = [] then parent.tags else info.tags }

/-- `_identity_for_upload`; the answer has the upload as the function leaves it -/
def identityForUpload (settings : Settings) (uploader : UserId) (info : FileCreate) (year : ℕ) :
    Op (FileCreate × Identity) :=
  match info.versionOf with
  | some n => do
    let parent ← getOrRaise files n .notFound
    if parent.uploaderId ≠ uploader then .raise .notOwner
    else if parent.status = .deleted ∨ parent.status = .rejected then .raise (.invalidStatus none)
    else
      match parent.documentCode with
      | none => .raise (.invalidStatus (some "Document has no code"))
      | some code => do
        let version ← nextVersion settings code
        pure (info.inherit parent,
          ⟨code, version, some (parent.rootFileId.getD n), parent.classification, parent.projectId⟩)
  | none => do
    let allowed ← match info.projectId with
      | none => pure true
      | some project => canUploadToProject project uploader
    if !allowed then .raise .invalidProject
    else do
      let code ← nextDocumentCode settings year
      pure (info, ⟨code, 1, none, info.classification, info.projectId⟩)

/-- the new row -/
def newFile (uploader : UserId) (info : FileCreate) (identity : Identity) (content : Object) (text : String) (now : ℤ)
    (upload : Option ℕ) : LibraryFile :=
  { uploaderId := uploader
    originalName := info.originalName
    sha3Hash := some content.hash
    size := content.size
    categoryId := info.categoryId
    documentCode := some identity.code
    classification := identity.classification
    projectId := identity.project
    version := identity.version
    rootFileId := identity.root
    extractedText := text
    description := info.description
    tags := info.tags
    createdAt := now
    upload := upload }

/-- `add` and `flush` -/
def addFile (f : LibraryFile) : Op ℕ := do
  match ← insertUnique files (.documentVersion f.documentCode f.version)
      (fun g => f.documentCode.isSome && decide (g.documentCode = f.documentCode) && decide (g.version = f.version)) f with
  | none => .raise .dataError
  | some n => pure n

/-- `_file_to_schema`, with the name of the uploader -/
structure FileInfo where
  id : ℕ
  file : LibraryFile
  uploaderName : String
deriving DecidableEq, Repr

def fileInfo (n : ℕ) (f : LibraryFile) (calls : Calls) : Op FileInfo := do
  match ← perform (.name calls.name) with
  | none => .raise .unavailable
  | some name => pure ⟨n, f, name⟩

/-- the root of a first version is set after the insert and flushed at the end -/
def flushRoot (n : ℕ) (root : Option ℕ) : Op Unit :=
  match root with
  | some _ => pure ()
  | none => do
    match ← updateRow files n (fun _ => true) (fun f => { f with rootFileId := some n }) with
    | none => .raise .dataError
    | some _ => pure ()

/-- the preview is a bonus -/
def savePreview (hash : String) (preview works : Bool) : Op Unit :=
  if preview then do
    let _ ← perform (.save (.content hash .preview) ⟨"preview", 0⟩ works)
    pure ()
  else pure ()

def storeContent (content : Object) (calls : Calls) : Op Unit := do
  match ← perform (.present (.content content.hash .main) calls.present) with
  | none => .raise .storeError
  | some true => pure ()
  | some false => orRaise (.save (.content content.hash .main) content calls.save) .storeError

def createFile (settings : Settings) (uploader : UserId) (info : FileCreate) (content : Object) (year : ℕ) (now : ℤ)
    (calls : Calls) : Op FileInfo :=
  if settings.maxUploadBytes < content.size then .raise .tooLarge
  else
    match calls.processed with
    | none => .raise .refused
    | some (text, preview) => do
      let (info, identity) ← identityForUpload settings uploader info year
      lockHash settings content.hash
      storeContent content calls
      savePreview content.hash preview calls.savePreview
      let f := newFile uploader info identity content text now none
      let n ← addFile f
      syncRefCount content.hash
      let answer ← fileInfo n { f with rootFileId := some (f.rootFileId.getD n) } calls
      flushRoot n f.rootFileId
      pure answer

/-- `_hash_from_storage` -/
def hashFromStorage (settings : Settings) (key : String) (calls : Calls) : Op Object := do
  match ← perform (.read (.upload key) calls.read) with
  | none => .raise .storeError
  | some content =>
    if settings.maxUploadBytes < content.size then do
      let _ ← perform (.delete (.upload key) calls.deleteUpload .registration)
      .raise .tooLarge
    else pure content

/-- `_process_storage_upload` -/
def processStorageUpload (key : String) (calls : Calls) : Op (String × Bool) := do
  match ← perform (.read (.upload key) calls.read) with
  | none => .raise .storeError
  | some _ =>
    match calls.processed with
    | none => .raise .refused
    | some result => pure result

def copyContent (key hash : String) (calls : Calls) : Op Unit := do
  match ← perform (.present (.content hash .main) calls.present) with
  | none => .raise .storeError
  | some true => pure ()
  | some false => orRaise (.copy (.upload key) (.content hash .main) calls.copy) .storeError

/-- `_register_from_upload` -/
def registerFromUpload (settings : Settings) (content : Meta) (uploader : UserId) (upload : ℕ) (year : ℕ) (now : ℤ)
    (calls : Calls) : Op FileInfo := do
  match ← perform (.present (.upload content.key) calls.present) with
  | none => .raise .storeError
  | some false => .raise .uploadNotFound
  | some true => do
    let object ← hashFromStorage settings content.key calls
    let (text, preview) ← processStorageUpload content.key calls
    let (info, identity) ← identityForUpload settings uploader content.info year
    lockHash settings object.hash
    copyContent content.key object.hash calls
    savePreview object.hash preview calls.savePreview
    let f := newFile uploader info identity object text now (some upload)
    let n ← addFile f
    syncRefCount object.hash
    let answer ← fileInfo n { f with rootFileId := some (f.rootFileId.getD n) } calls
    let _ ← perform (.delete (.upload content.key) calls.deleteUpload .registration)
    flushRoot n f.rootFileId
    pure answer

inductive Response where
  | file (info : FileInfo)
  | gone
  | done
deriving DecidableEq, Repr

def confirmUpload (settings : Settings) (uploadId : String) (user : UserId) (year : ℕ) (now : ℤ) (calls : Calls) :
    Op Response := do
  match ← claim uploadId (some user) with
  | none => .raise .uploadExpired
  | some (n, session) =>
    match session.content with
    | none => .raise .uploadExpired
    | some content => do
      let answer ← registerFromUpload settings content session.uploaderId n year now calls
      pure (.file answer)

/-- `notify_upload`, to its commit; a savepoint around all that a transaction does is the transaction -/
def notifyUpload (settings : Settings) (uploadId : String) (year : ℕ) (now : ℤ) (calls : Calls) : Op Response := do
  match ← claim uploadId none with
  | none => pure .gone
  | some (n, session) =>
    match session.content with
    | none => .raise .corrupt
    | some content => do
      let answer ← registerFromUpload settings content session.uploaderId n year now calls
      pure (.file answer)

/-! ## Reviews and removals -/

/-- `_delete_content_variants` -/
def deleteContentVariants (settings : Settings) (hash : String) (calls : Calls) : Op Unit := do
  orRaise (.delete (.content hash .thumb) (calls.delete .thumb) .cleanup) .storeError
  orRaise (.delete (.content hash .medium) (calls.delete .medium) .cleanup) .storeError
  orRaise (.delete (.content hash .preview) (calls.delete .preview) .cleanup) .storeError
  orRaise (.delete (.content hash .main) (calls.delete .main) .cleanup) .storeError
  if settings.archiveDir then orRaise (.deleteArchive hash calls.deleteArchive) .storeError else pure ()

def lockFileHash (settings : Settings) (f : LibraryFile) : Op Unit :=
  match f.sha3Hash with
  | none => pure ()
  | some hash => lockHash settings hash

/-- `get_locked` -/
def getLocked (n : ℕ) : Op LibraryFile := do
  match ← lockRow files n fun _ => true with
  | none => .raise .notFound
  | some f => pure f

/-- the UPDATE of a flush -/
def flushFile (n : ℕ) (f : LibraryFile → LibraryFile) : Op Unit := do
  match ← updateRow files n (fun _ => true) f with
  | none => .raise .dataError
  | some _ => pure ()

/-- `_enqueue_file_change`, for the file and the approved ones of its document -/
def enqueueFileChange (settings : Settings) (n : ℕ) : Op Unit :=
  if settings.searchSync then do
    let _ ← insert outbox (.fileChanged n)
    pure ()
  else pure ()

def enqueueFileChanges (settings : Settings) : List ℕ → Op Unit
  | [] => pure ()
  | n :: ns => do
    enqueueFileChange settings n
    enqueueFileChanges settings ns

def enqueueDocumentChange (settings : Settings) (n : ℕ) (code : Option Text) : Op Unit := do
  enqueueFileChange settings n
  match code with
  | none => pure ()
  | some code => do
    let rows ← versions code
    enqueueFileChanges settings
      ((rows.filter fun q => decide (q.1 ≠ n) && decide (q.2.status = .approved)).map Prod.fst)

/-- the content of a file that is no longer live goes with its last one -/
def release (settings : Settings) (hash : Option String) (calls : Calls) : Op Unit :=
  match hash with
  | none => pure ()
  | some hash => do
    syncRefCount hash
    let remaining ← countLiveByHash hash
    if remaining = 0 then deleteContentVariants settings hash calls else pure ()

/-- an approved file is backed up -/
def backUp (settings : Settings) (n : ℕ) (hash : Option String) (now : ℤ) (calls : Calls) : Op Unit :=
  match hash with
  | none => pure ()
  | some hash =>
    if settings.backupDir then do
      orRaise (.backup hash calls.backup) .storeError
      flushFile n fun f => { f with backedUpAt := some now }
    else pure ()

def reviewFile (settings : Settings) (n : ℕ) (target : FileStatus) (comment : Option String) (isAdmin : Bool) (now : ℤ)
    (calls : Calls) : Op Response :=
  if !isAdmin then .raise .storeError
  else if target ≠ .approved ∧ target ≠ .rejected then .raise (.invalidStatus (some "Invalid review status"))
  else do
    let f ← getOrRaise files n .notFound
    lockFileHash settings f
    let f ← getLocked n
    if f.status ≠ .pending then .raise .notPending
    else do
      flushFile n fun f => { f with status := target, reviewComment := comment }
      if target = .rejected then release settings f.sha3Hash calls
      else do
        backUp settings n f.sha3Hash now calls
        let _ ← insert outbox (.point f.uploaderId "file_approved" n)
        enqueueDocumentChange settings n f.documentCode
      orRaise (.audit calls.audit) .unavailable
      let answer ← fileInfo n { f with status := target, reviewComment := comment } calls
      pure (.file answer)

def deleteFile (settings : Settings) (n : ℕ) (actor : UserId) (isAdmin : Bool) (calls : Calls) : Op Response := do
  let f ← getOrRaise files n .notFound
  lockFileHash settings f
  let f ← getLocked n
  if !isAdmin && decide (f.uploaderId ≠ actor) then .raise .storeError
  else if f.status = .deleted then do
    let answer ← fileInfo n f calls
    pure (.file answer)
  else do
    flushFile n fun f => { f with status := .deleted }
    enqueueDocumentChange settings n f.documentCode
    release settings f.sha3Hash calls
    let answer ← fileInfo n { f with status := .deleted } calls
    pure (.file answer)

/-! ## Tasks -/

/-- the cold files of a hash, at a cutoff -/
def LibraryFile.isCold (settings : Settings) (cutoff : ℤ) (f : LibraryFile) : Bool :=
  decide (f.status = .approved) && decide (f.createdAt < cutoff) && (!settings.backupDir || f.backedUpAt.isSome)

/-- the hashes that `archive_cold_files` picks: of active cold files, without a live one that is not cold -/
def coldHashes (settings : Settings) (cutoff : ℤ) (rows : List (ℕ × LibraryFile)) : List String :=
  ((rows.filterMap fun q =>
    match q.2.sha3Hash with
    | none => none
    | some hash =>
      if q.2.isCold settings cutoff && !q.2.archived &&
          rows.all fun p => !p.2.isLiveOf hash || p.2.isCold settings cutoff
      then some hash else none).dedup).take 100

def markArchived : List ℕ → Op Unit
  | [] => pure ()
  | n :: ns => do
    flushFile n fun f => { f with archived := true }
    markArchived ns

/-- one hash, to its commit -/
def archiveHash (settings : Settings) (cutoff : ℤ) (hash : String) (calls : Calls) : Op Unit := do
  lockHash settings hash
  let rows ← select files fun _ f => decide (f.sha3Hash = some hash)
  let live := rows.filter fun q => isLive q.2.status
  if live.isEmpty || !live.all fun q => q.2.isCold settings cutoff then rollback
  else
    match ← perform (.present (.content hash .main) calls.present) with
    | none => .raise .storeError
    | some false => rollback
    | some true => do
      if settings.archiveDir then orRaise (.archive hash calls.archive) .storeError else pure ()
      markArchived ((live.filter fun q => !q.2.archived).map Prod.fst)
      orRaise (.delete (.content hash .main) (calls.delete .main) .cleanup) .storeError
      commit

def archiveHashes (settings : Settings) (cutoff : ℤ) (calls : String → Calls) : List String → Op Unit
  | [] => pure ()
  | hash :: hashes => do
    archiveHash settings cutoff hash (calls hash)
    archiveHashes settings cutoff calls hashes

def archiveColdFiles (settings : Settings) (now : ℤ) (calls : String → Calls) : Op Response :=
  if !settings.archiveDir then pure .done
  else do
    let cutoff := now - settings.archiveAfter
    let rows ← select files fun _ _ => true
    archiveHashes settings cutoff calls (coldHashes settings cutoff rows)
    pure .done

/-- the sessions of a page, by age -/
def expired (cutoff : ℤ) (after : Option (ℤ × String)) (s : UploadSession) : Bool :=
  decide (s.createdAt < cutoff) &&
    after.all fun c => decide (c.1 < s.createdAt ∨ c.1 = s.createdAt ∧ c.2 < s.uploadId)

/-- SELECT … FOR UPDATE SKIP LOCKED LIMIT, over the candidate rows -/
def lockUpTo (p : UploadSession → Bool) : List ℕ → ℕ → Op (List (ℕ × UploadSession))
  | [], _ => pure []
  | n :: ns, limit =>
    if limit = 0 then pure []
    else do
      match ← tryLockRow sessions n p with
      | none => lockUpTo p ns limit
      | some s => do
        let rest ← lockUpTo p ns (limit - 1)
        pure ((n, s) :: rest)

/-- `list_expired` -/
def listExpired (cutoff : ℤ) (after : Option (ℤ × String)) (limit : ℕ) : Op (List (ℕ × UploadSession)) := do
  let rows ← select sessions fun _ s => expired cutoff after s
  lockUpTo (expired cutoff after)
    ((rows.mergeSort fun p q =>
      decide (p.2.createdAt < q.2.createdAt ∨ p.2.createdAt = q.2.createdAt ∧ p.2.uploadId ≤ q.2.uploadId)).map Prod.fst)
    limit

/-- the object first, then the row -/
def removeExpired (calls : String → Calls) : List (ℕ × UploadSession) → Op Unit
  | [] => pure ()
  | (n, s) :: rest => do
    if ← perform (.delete (.upload s.storageKey) (calls s.storageKey).deleteUpload .cleanup) then do
      let _ ← deleteIf sessions n fun r => decide (r.uploadId = s.uploadId)
      removeExpired calls rest
    else removeExpired calls rest

/-- `fuel` is how many pages there may be -/
def cleanupPages (settings : Settings) (cutoff : ℤ) (calls : String → Calls) : ℕ → Option (ℤ × String) → Op Unit
  | 0, _ => pure ()
  | fuel + 1, after => do
    let page ← listExpired cutoff after settings.cleanupBatch
    match page.getLast? with
    | none => pure ()
    | some (_, last) => do
      removeExpired calls page
      commit
      cleanupPages settings cutoff calls fuel (some (last.createdAt, last.uploadId))

def cleanupExpiredUploads (settings : Settings) (now : ℤ) (fuel : ℕ) (calls : String → Calls) : Op Response := do
  cleanupPages settings (now - settings.uploadTtl) calls fuel none
  pure .done

/-! ## Requests -/

inductive Request where
  | create (uploader : UserId) (info : FileCreate) (content : Object) (year : ℕ) (now : ℤ) (calls : Calls)
  | confirm (uploadId : String) (user : UserId) (year : ℕ) (now : ℤ) (calls : Calls)
  | notify (uploadId : String) (year : ℕ) (now : ℤ) (calls : Calls)
  | review (file : ℕ) (target : FileStatus) (comment : Option String) (isAdmin : Bool) (now : ℤ) (calls : Calls)
  | delete (file : ℕ) (actor : UserId) (isAdmin : Bool) (calls : Calls)
  | archive (now : ℤ) (calls : String → Calls)
  | cleanup (now : ℤ) (fuel : ℕ) (calls : String → Calls)

def Request.body (settings : Settings) : Request → Op Response
  | .create uploader info content year now calls => do
    let answer ← createFile settings uploader info content year now calls
    pure (.file answer)
  | .confirm uploadId user year now calls => confirmUpload settings uploadId user year now calls
  | .notify uploadId year now calls => notifyUpload settings uploadId year now calls
  | .review file target comment isAdmin now calls => reviewFile settings file target comment isAdmin now calls
  | .delete file actor isAdmin calls => deleteFile settings file actor isAdmin calls
  | .archive now calls => archiveColdFiles settings now calls
  | .cleanup now fuel calls => cleanupExpiredUploads settings now fuel calls

/-- what is written at the end is committed; the tasks commit on the way, and what is left when they end -/
def Request.prog (settings : Settings) (r : Request) : Op Response := transaction (r.body settings)

end LkmService.Files
