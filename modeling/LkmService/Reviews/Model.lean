/-
Applications and the requests that decide them: registrations, boards, columns and articles under review.

Modelled from `service_admission.py` (`decide_admission`), `repository.py` (`bump_token_version`,
`revoke_all_for_user`), `service_auth.py` (the logins and the refresh, as far as a session depends on the admission),
`content/service.py` (`review_board_application`, `create_board_ex`), `columns/service.py` (`review_application`) and
`articles/service.py` (`review_article`) over the row store of `Lib.Sql`. The number of a row is its id. Every review
reads its row without a lock, checks it in the program and writes it later by a flush, whose UPDATE names the id only.

Two fields are not columns, and no code of the source reads them: `decisions` counts the decisions that have been
written to a row, and `createdFor` is the application that a board was created for.
-/
import LkmService.Lib.Discipline

namespace LkmService.Reviews

open Session Sql

/-! ## Rows -/

inductive AdmissionStatus where
  | active
  | pending
  | rejected
deriving DecidableEq, Repr

inductive ApplicationStatus where
  | pending
  | approved
  | rejected
deriving DecidableEq, Repr

inductive ArticleStatus where
  | draft
  | pending
  | published
  | rejected
deriving DecidableEq, Repr

structure User where
  admissionStatus : AdmissionStatus
  tokenVersion : ℕ := 0
  reviewedBy : Option ℕ := none
  rejectReason : Option String := none
  decisions : ℕ := 0
deriving DecidableEq, Repr

structure RefreshToken where
  userId : ℕ
  revoked : Bool := false
deriving DecidableEq, Repr

structure BoardApplication where
  applicantId : ℕ
  slug : String
  title : String
  description : String
  status : ApplicationStatus := .pending
  reviewerId : Option ℕ := none
  reviewNote : Option String := none
  decisions : ℕ := 0
deriving DecidableEq, Repr

structure Board where
  slug : String
  title : String
  description : String
  ownerId : Option ℕ
  createdFor : Option ℕ := none
deriving DecidableEq, Repr

structure ColumnApplication where
  userId : ℕ
  title : String
  description : String
  status : ApplicationStatus := .pending
  reviewerId : Option ℕ := none
  reviewNote : Option String := none
  decisions : ℕ := 0
deriving DecidableEq, Repr

structure Column where
  ownerId : ℕ
  applicationId : Option ℕ
  title : String
  description : String
deriving DecidableEq, Repr

structure Article where
  slug : String
  status : ArticleStatus
  published : Option ℕ := none
  decisions : ℕ := 0
deriving DecidableEq, Repr

inductive Tbl where
  | users
  | refreshTokens
  | boardApplications
  | boards
  | columnApplications
  | columns
  | articles
deriving DecidableEq, Repr

open Tbl

abbrev Row : Tbl → Type
  | .users => User
  | .refreshTokens => RefreshToken
  | .boardApplications => BoardApplication
  | .boards => Board
  | .columnApplications => ColumnApplication
  | .columns => Column
  | .articles => Article

/-- the entries of the unique indexes on `boards.slug` and `columns.application_id` -/
inductive Index where
  | boardSlug (slug : String)
  | columnApplication (application : ℕ)
deriving DecidableEq, Repr

inductive Exn where
  | userNotFound
  | conflict
  | invalidCredentials
  | tokenInvalid
  | accountLocked
  | admissionPending
  | admissionRejected
  | applicationNotFound
  | applicationAlreadyReviewed
  | slugConflict
  | notFound
  | invalidStatusTransition
  /-- a flush whose UPDATE finds no row -/
  | staleData
deriving DecidableEq, Repr

abbrev Fx := Discipline.NoFx Unit

abbrev Store := Db Row Index Unit

abbrev Op (α : Type) := Prog (Stmt Row Index Fx) Exn α

/-! ## The repositories -/

/-- one row by its id, or the error of its absence -/
def getOrRaise (t : Tbl) (n : ℕ) (e : Exn) : Op (Row t) := do
  let rows ← select t fun m _ => decide (m = n)
  match rows.head? with
  | none => .raise e
  | some (_, r) => pure r

/-- the UPDATE that a flush sends for a changed row -/
def flushRow (t : Tbl) (n : ℕ) (f : Row t → Row t) : Op Unit := do
  match ← updateRow t n (fun _ => true) f with
  | none => .raise .staleData
  | some _ => pure ()

/-! ## Registrations -/

def User.approve (reviewerId : ℕ) (u : User) : User :=
  { u with admissionStatus := .active, reviewedBy := some reviewerId, rejectReason := none, decisions := u.decisions + 1 }

def User.reject (reviewerId : ℕ) (reason : Option String) (u : User) : User :=
  { u with
    admissionStatus := .rejected
    reviewedBy := some reviewerId
    rejectReason := reason
    decisions := u.decisions + 1 }

def User.bump (u : User) : User := { u with tokenVersion := u.tokenVersion + 1 }

def RefreshToken.isLiveOf (user : ℕ) (t : RefreshToken) : Bool := decide (t.userId = user) && !t.revoked

def RefreshToken.revoke (t : RefreshToken) : RefreshToken := { t with revoked := true }

def revokeAllForUser (user : ℕ) : Op ℕ := do
  let rows ← select refreshTokens fun _ t => t.isLiveOf user
  updateAll refreshTokens (·.isLiveOf user) RefreshToken.revoke (rows.map Prod.fst)

/-- the row of the user is flushed within `bump_token_version`, after its own UPDATE -/
def decideAdmission (user : ℕ) (approve : Bool) (reviewerId : ℕ) (reason : Option String) : Op (Option ℕ) := do
  let row ← getOrRaise users user .userNotFound
  if row.admissionStatus ≠ .pending then .raise .conflict
  else if approve then do
    flushRow users user (User.approve reviewerId)
    pure none
  else do
    let _ ← updateRow users user (fun _ => true) User.bump
    flushRow users user (User.reject reviewerId reason)
    let _ ← revokeAllForUser user
    pure none

/-! ## Logins -/

def assertAdmissionAllowed (row : User) : Op Unit :=
  match row.admissionStatus with
  | .active => pure ()
  | .pending => .raise .admissionPending
  | .rejected => .raise .admissionRejected

/-- the answer is the user whose session it is -/
def issueSessionTokens (user : ℕ) (row : User) : Op (Option ℕ) := do
  assertAdmissionAllowed row
  let _ ← insert refreshTokens { userId := user }
  pure (some user)

/-- `ok` is what the other gates say. The UPDATE that resets the failures takes the lock of the row and sets none of our
columns; `isolated_update` may lose it -/
def loginPassword (user : ℕ) (ok reset : Bool) : Op (Option ℕ) := do
  let row ← getOrRaise users user .invalidCredentials
  if ok then do
    assertAdmissionAllowed row
    if reset then do
      let _ ← updateRow users user (fun _ => true) id
      let row ← getOrRaise users user .userNotFound
      issueSessionTokens user row
    else do
      let row ← getOrRaise users user .userNotFound
      issueSessionTokens user row
  else .raise .invalidCredentials

/-- `login_code`, and the other logins that only read the row -/
def loginCode (user : ℕ) (ok : Bool) : Op (Option ℕ) := do
  let row ← getOrRaise users user .userNotFound
  if ok then do
    assertAdmissionAllowed row
    issueSessionTokens user row
  else .raise .invalidCredentials

def refreshAccessToken (token : ℕ) : Op (Option ℕ) := do
  match ← updateRow refreshTokens token (fun t => !t.revoked) RefreshToken.revoke with
  | none => .raise .tokenInvalid
  | some stored => do
    let row ← getOrRaise users stored.userId .userNotFound
    if row.admissionStatus ≠ .active then .raise .accountLocked
    else issueSessionTokens stored.userId row

/-! ## Boards and columns -/

def slugTaken (slug : String) : Op Bool := do
  let rows ← select boards fun _ b => decide (b.slug = slug)
  pure !rows.isEmpty

/-- `create_board_ex`; an insert that breaks the unique index fails the request -/
def createBoardEx (board : Board) : Op Unit := do
  if ← slugTaken board.slug then .raise .slugConflict
  else
    match ← insertUnique boards (.boardSlug board.slug) (fun b => decide (b.slug = board.slug)) board with
    | none => .raise .slugConflict
    | some _ => pure ()

def decided (approve : Bool) : ApplicationStatus := if approve then .approved else .rejected

def BoardApplication.review (approve : Bool) (reviewerId : ℕ) (note : Option String) (a : BoardApplication) :
    BoardApplication :=
  { a with
    status := decided approve
    reviewerId := some reviewerId
    reviewNote := note
    decisions := a.decisions + 1 }

def reviewBoardApplication (application reviewerId : ℕ) (approve : Bool) (note : Option String) : Op (Option ℕ) := do
  let row ← getOrRaise boardApplications application .applicationNotFound
  if row.status ≠ .pending then .raise .applicationAlreadyReviewed
  else
    let taken ← if approve then slugTaken row.slug else pure false
    if taken then .raise .slugConflict
    else do
      flushRow boardApplications application (BoardApplication.review approve reviewerId note)
      if approve then do
        createBoardEx
          { slug := row.slug
            title := row.title
            description := row.description
            ownerId := some row.applicantId
            createdFor := some application }
        pure none
      else pure none

def ColumnApplication.review (approve : Bool) (reviewerId : ℕ) (note : Option String) (a : ColumnApplication) :
    ColumnApplication :=
  { a with
    status := decided approve
    reviewerId := some reviewerId
    reviewNote := note
    decisions := a.decisions + 1 }

/-- `_ensure_column_for_application` -/
def ensureColumnForApplication (application : ℕ) (row : ColumnApplication) : Op Unit := do
  let rows ← select columns fun _ c => decide (c.applicationId = some application)
  match rows.head? with
  | some _ => pure ()
  | none =>
    match ← insertUnique columns (.columnApplication application) (fun c => decide (c.applicationId = some application))
        { ownerId := row.userId
          applicationId := some application
          title := row.title
          description := row.description } with
    | none => .raise .conflict
    | some _ => pure ()

/-- `review_application` of a column; the schema admits no third status -/
def reviewApplication (application reviewerId : ℕ) (approve : Bool) (note : Option String) : Op (Option ℕ) := do
  let row ← getOrRaise columnApplications application .applicationNotFound
  if row.status ≠ .pending then .raise .applicationAlreadyReviewed
  else do
    flushRow columnApplications application (ColumnApplication.review approve reviewerId note)
    if approve then do
      ensureColumnForApplication application row
      pure none
    else pure none

/-! ## Articles -/

def Article.review (approve : Bool) (now : ℕ) (a : Article) : Article :=
  if approve then { a with status := .published, published := some now, decisions := a.decisions + 1 }
  else { a with status := .rejected, decisions := a.decisions + 1 }

def reviewArticle (slug : String) (approve : Bool) (now : ℕ) : Op (Option ℕ) := do
  let rows ← select articles fun _ a => decide (a.slug = slug)
  match rows.head? with
  | none => .raise .notFound
  | some (n, row) =>
    if row.status ≠ .pending then .raise .invalidStatusTransition
    else do
      flushRow articles n (Article.review approve now)
      pure none

/-! ## Requests -/

inductive Request where
  | decideAdmission (user : ℕ) (approve : Bool) (reviewerId : ℕ) (reason : Option String)
  | loginPassword (user : ℕ) (ok reset : Bool)
  | loginCode (user : ℕ) (ok : Bool)
  | refreshAccessToken (token : ℕ)
  | reviewBoardApplication (application reviewerId : ℕ) (approve : Bool) (note : Option String)
  | reviewApplication (application reviewerId : ℕ) (approve : Bool) (note : Option String)
  | reviewArticle (slug : String) (approve : Bool) (now : ℕ)

def Request.body : Request → Op (Option ℕ)
  | .decideAdmission user approve reviewerId reason => Reviews.decideAdmission user approve reviewerId reason
  | .loginPassword user ok reset => Reviews.loginPassword user ok reset
  | .loginCode user ok => Reviews.loginCode user ok
  | .refreshAccessToken token => Reviews.refreshAccessToken token
  | .reviewBoardApplication application reviewerId approve note =>
    Reviews.reviewBoardApplication application reviewerId approve note
  | .reviewApplication application reviewerId approve note =>
    Reviews.reviewApplication application reviewerId approve note
  | .reviewArticle slug approve now => Reviews.reviewArticle slug approve now

/-- the session of the request commits at its end, and rolls back when it raises -/
def Request.prog (r : Request) : Op (Option ℕ) := transaction r.body

end LkmService.Reviews
