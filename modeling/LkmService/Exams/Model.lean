/-
Exams and incubation: the two business reasons for which an account rises.

Modelled from `exam/service.py` (`start_attempt`, `submit_attempt`, `_apply_unlock`), `exam/repository.py`
(`passed_exists`), `projects/service.py` (`review_application`, `_apply_incubation`) and, on the other side of the calls,
`router_authz.py` (`internal_grant`) with `grant_exam_unlock` and `grant_incubation` of `Auth.Levels`. The store is that of
`Lib.Sql`; the number of a row is its id. Times are microseconds.

The deployment is the split one: the accounts are outside the tables, in the service of the accounts, which commits each
grant on its own. A call may get lost, its answer may get lost, and as the answer is sent before the transaction of the
service is over, a call may be answered whose grant is not saved.

`norm` is what is done to an answer before the comparison (`strip`, `upper`). The message bus is configured. Three fields
are no data of the program: `submissions` counts the submissions that were written to an attempt, `attempt` is the one
that a certificate is for, and a `Service` remembers its grants and the calls for them.
-/
import LkmService.Auth.Levels
import LkmService.Lib.Atomic

namespace LkmService.Exams

open Session Sql Auth

/-! ## Rows -/

structure Question where
  id : ℕ
  kind : String
  content : String
  options : String := "[]"
  answer : String
  difficulty : ℤ := 1
  score : ℤ := 10
  sortOrder : ℤ := 0
deriving DecidableEq, Repr

/-- an exam with its questions -/
structure Exam where
  passScore : ℤ := 60
  timeLimitMin : ℤ := 30
  isPublished : Bool := false
  unlockLevel : Option String := none
  unlockRole : Option String := none
  startsAt : Option ℤ := none
  endsAt : Option ℤ := none
  questions : List Question := []
deriving DecidableEq, Repr

inductive AttemptStatus where
  | inProgress
  | submitted
deriving DecidableEq, Repr

abbrev Answers := List (ℕ × String)

structure Attempt where
  examId : ℕ
  userId : UserId
  status : AttemptStatus := .inProgress
  answers : Answers := []
  score : ℤ := 0
  passed : Bool := false
  startedAt : ℤ
  submittedAt : Option ℤ := none
  timeSpentS : ℤ := 0
  submissions : ℕ := 0
deriving DecidableEq, Repr

structure Certificate where
  examId : ℕ
  userId : UserId
  score : ℤ
  passed : Bool
  attempt : ℕ
deriving DecidableEq, Repr

/-- the event `apply_point_event` of the outbox; its `ref_id` is `cert:` and the number of the certificate -/
structure Event where
  userId : UserId
  event : String
  certificate : ℕ
deriving DecidableEq, Repr

inductive ApplicationStatus where
  | pending
  | approved
  | rejected
deriving DecidableEq, Repr

structure Claim where
  userId : Option UserId
  displayName : String
  roleInProject : String
deriving DecidableEq, Repr

structure Application where
  applicantId : UserId
  title : String
  summary : String
  description : String
  memberClaims : List Claim := []
  status : ApplicationStatus := .pending
  reviewerId : Option UserId := none
  reviewNote : Option String := none
  reviewedAt : Option ℤ := none
deriving DecidableEq, Repr

structure Project where
  applicantId : UserId
  title : String
  summary : String
  description : String
  isIncubated : Bool
  status : String
deriving DecidableEq, Repr

structure Member where
  projectId : ℕ
  userId : Option UserId
  displayName : String
  roleInProject : String
  sortOrder : ℕ
deriving DecidableEq, Repr

inductive Tbl where
  | exams
  | attempts
  | certificates
  | outbox
  | applications
  | projects
  | members
deriving DecidableEq, Repr

open Tbl

abbrev Row : Tbl → Type
  | .exams => Exam
  | .attempts => Attempt
  | .certificates => Certificate
  | .outbox => Event
  | .applications => Application
  | .projects => Project
  | .members => Member

inductive Exn where
  | examNotFound
  | examNotPublished
  | examNotOpen (detail : Option String)
  | examAlreadyPassed
  | attemptNotFound
  | attemptAlreadySubmitted
  | forbidden
  | applicationNotFound
  | applicationAlreadyReviewed
  | memberUserNotFound
  /-- a call of the service of the accounts has failed -/
  | unavailable
  /-- a flush whose UPDATE finds no row -/
  | staleData
deriving DecidableEq, Repr

/-! ## The service of the accounts -/

/-- what happens to a call -/
inductive Call where
  | lost
  /-- the grant is saved, the answer gets lost -/
  | unanswered
  /-- the answer is sent, the grant is not saved -/
  | unsaved
  | answered
deriving DecidableEq, Repr

/-- why an account is to rise -/
inductive Reason where
  | certificate (n : ℕ)
  | application (n : ℕ)
deriving DecidableEq, Repr

/-- a grant that has gone through; `raised`: the account has changed -/
structure Grant where
  session : ℕ
  user : UserId
  reason : Reason
  raised : Bool
deriving DecidableEq, Repr

/-- the accounts, the calls that were made, and the grants -/
structure Service where
  account : UserId → Option Account
  asked : List Reason := []
  log : List Grant := []

/-- what a grant does to the account; without an account it does nothing -/
abbrev Raise := Account → Except AuthzErr (Account × ℕ)

def Raise.on (raise : Raise) : Option Account → Except AuthzErr (Option Account × ℕ)
  | none => .ok (none, 0)
  | some a => (raise a).map fun r => (some r.1, r.2)

inductive Fx : Type → Type where
  /-- POST `/auth/internal/grant`; the answer is whether it was one of status 200 -/
  | grant (user : UserId) (raise : Raise) (reason : Reason) (call : Call) : Fx Bool
  /-- POST `/auth/internal/audit` -/
  | audit (call : Call) : Fx Bool

def Service.ask (s : Service) (reason : Reason) : Service := { s with asked := s.asked ++ [reason] }

def Service.record (s : Service) (g : Grant) : Service := { s with log := s.log ++ [g] }

/-- the grant is saved -/
def Service.save (s : Service) (i : ℕ) (user : UserId) (reason : Reason) (result : Option Account × ℕ) : Service :=
  { s with account := Function.update s.account user result.1 }.record ⟨i, user, reason, decide (result.2 ≠ 0)⟩

def Service.grant (s : Service) (i : ℕ) (user : UserId) (raise : Raise) (reason : Reason) (call : Call) : Bool × Service :=
  match raise.on (s.account user) with
  | .error _ => (false, s)
  | .ok result =>
    match call with
    | .lost => (false, s)
    | .unanswered => (false, s.save i user reason result)
    | .unsaved => (true, if result.2 = 0 then s.record ⟨i, user, reason, false⟩ else s)
    | .answered => (true, s.save i user reason result)

/-- a call that writes what is no part of the accounts: the caller takes it to have gone through -/
def Call.arrives : Call → Bool
  | .lost => false
  | .unanswered => false
  | .unsaved => true
  | .answered => true

instance : Effects Fx Service where
  exec i x s :=
    match x with
    | .grant user raise reason call => (s.ask reason).grant i user raise reason call
    | .audit call => (call.arrives, s)

abbrev Store := Db Row Empty Service

abbrev Op (α : Type) := Prog (Stmt Row Empty Fx) Exn α

/-! ## The repositories -/

/-- one row by its id, or the error of its absence -/
def getOrRaise (t : Tbl) (n : ℕ) (e : Exn) : Op (Row t) := do
  let rows ← select t fun m _ => decide (m = n)
  match rows.head? with
  | none => .raise e
  | some (_, r) => pure r

/-- the UPDATE that a flush sends for a changed row -/
def flushRow (t : Tbl) (n : ℕ) (f : Row t → Row t) : Op Unit := do
  match ← updateRow t n (fun _ => true) f with
  | none => .raise .staleData
  | some _ => pure ()

def Certificate.isPassedOf (exam : ℕ) (user : UserId) (c : Certificate) : Bool :=
  decide (c.examId = exam) && decide (c.userId = user) && c.passed

def passedExists (exam : ℕ) (user : UserId) : Op Bool := do
  let rows ← select certificates fun _ c => c.isPassedOf exam user
  pure !rows.isEmpty

/-! ## Exams -/

/-- `None` and the empty text are false -/
def truthy (value : Option String) : Bool := !falsy value

def Exam.unlocks (e : Exam) : Bool := truthy e.unlockLevel || truthy e.unlockRole

/-- the clock at the places where it is read -/
structure Clock where
  created : ℤ := 0
  window : ℤ := 0
  deadline : ℤ := 0
  submitted : ℤ := 0
  spent : ℤ := 0
deriving DecidableEq, Repr

/-- `_check_window` -/
def Exam.window (e : Exam) (now : ℤ) : Option Exn :=
  if e.startsAt = none ∧ e.endsAt = none then none
  else if e.startsAt.any fun t => decide (now < t) then some (.examNotOpen none)
  else if e.endsAt.any fun t => decide (t < now) then some (.examNotOpen (some "考试已结束"))
  else none

def minute : ℤ := 60000000

/-- `_check_attempt_deadline` -/
def Exam.late (e : Exam) (a : Attempt) (now : ℤ) : Option Exn :=
  if e.timeLimitMin = 0 ∨ e.startsAt ≠ none ∨ e.endsAt ≠ none then none
  else if a.startedAt + e.timeLimitMin * minute < now then some (.examNotOpen (some "考试已超时"))
  else none

/-- `_score_attempt`: the total -/
def scoreAttempt (norm : String → String) (e : Exam) (answers : Answers) : ℤ :=
  e.questions.foldl (fun total q =>
    match answers.lookup q.id with
    | none => total
    | some answer => if norm answer = norm q.answer then total + q.score else total) 0

/-- a question without its answer -/
structure QuestionForAttempt where
  id : ℕ
  kind : String
  content : String
  options : String
  difficulty : ℤ
  score : ℤ
  sortOrder : ℤ
deriving DecidableEq, Repr

def Question.forAttempt (q : Question) : QuestionForAttempt :=
  ⟨q.id, q.kind, q.content, q.options, q.difficulty, q.score, q.sortOrder⟩

inductive Response where
  | started (attempt exam : ℕ) (questions : List QuestionForAttempt) (timeLimitMin : ℤ) (deadline : Option ℤ)
  | submitted (attempt exam : ℕ) (score passScore : ℤ) (passed : Bool) (unlockLevel unlockRole : Option String)
      (certificate : Option ℕ)
  | reviewed (application : ℕ) (status : ApplicationStatus)
deriving DecidableEq, Repr

/-- `passed_exists`, for an exam that unlocks something -/
def alreadyPassed (e : Exam) (exam : ℕ) (user : UserId) : Op Bool :=
  if e.unlocks then passedExists exam user else pure false

def startAttempt (exam : ℕ) (user : UserId) (now : Clock) : Op Response := do
  let e ← getOrRaise exams exam .examNotFound
  if !e.isPublished then .raise .examNotPublished
  else
    match e.window now.window with
    | some x => .raise x
    | none =>
      if ← alreadyPassed e exam user then .raise .examAlreadyPassed
      else do
        let attempt ← insert attempts { examId := exam, userId := user, startedAt := now.created }
        let questions := (e.questions.mergeSort fun p q => decide (p.sortOrder ≤ q.sortOrder)).map Question.forAttempt
        let deadline := if e.timeLimitMin ≠ 0 ∧ e.startsAt = none ∧ e.endsAt = none then
          some (now.deadline + e.timeLimitMin * minute) else none
        pure (.started attempt exam questions e.timeLimitMin deadline)

/-- the attributes that `submit_attempt` sets -/
def Attempt.submit (a : Attempt) (answers : Answers) (score : ℤ) (passed : Bool) (now : Clock) : Attempt :=
  { a with
    status := .submitted
    answers := answers
    score := score
    passed := passed
    submittedAt := some now.submitted
    timeSpentS := (now.spent - a.startedAt).tdiv 1000000 }

/-- the UPDATE sets the columns that differ from those of the row that was loaded -/
def Attempt.flush (loaded new row : Attempt) : Attempt :=
  { row with
    status := if new.status = loaded.status then row.status else new.status
    answers := if new.answers = loaded.answers then row.answers else new.answers
    score := if new.score = loaded.score then row.score else new.score
    passed := if new.passed = loaded.passed then row.passed else new.passed
    submittedAt := if new.submittedAt = loaded.submittedAt then row.submittedAt else new.submittedAt
    timeSpentS := if new.timeSpentS = loaded.timeSpentS then row.timeSpentS else new.timeSpentS
    submissions := row.submissions + 1 }

/-- `grant_exam_unlock_from_business` -/
def grantFromBusiness (user : UserId) (raise : Raise) (reason : Reason) (call : Call) : Op Unit := do
  if ← perform (.grant user raise reason call) then pure () else .raise .unavailable

def applyUnlock (policy : Policy) (e : Exam) (user : UserId) (certificate : ℕ) (call : Call) : Op Unit :=
  if e.unlocks then
    grantFromBusiness user (fun a => grantExamUnlock policy a e.unlockLevel e.unlockRole) (.certificate certificate) call
  else pure ()

def submitAttempt (norm : String → String) (policy : Policy) (attempt : ℕ) (user : UserId) (answers : Answers)
    (now : Clock) (call : Call) : Op Response := do
  let a ← getOrRaise attempts attempt .attemptNotFound
  if a.userId ≠ user then .raise .forbidden
  else if a.status = .submitted then .raise .attemptAlreadySubmitted
  else do
    let e ← getOrRaise exams a.examId .examNotFound
    match (e.window now.window).or (e.late a now.deadline) with
    | some x => .raise x
    | none =>
      if ← alreadyPassed e a.examId user then .raise .examAlreadyPassed
      else do
        let score := scoreAttempt norm e answers
        let passed := decide (e.passScore ≤ score)
        flushRow attempts attempt (Attempt.flush a (a.submit answers score passed now))
        if passed then do
          let certificate ← insert certificates
            { examId := a.examId, userId := user, score := score, passed := true, attempt := attempt }
          applyUnlock policy e user certificate call
          let _ ← insert outbox { userId := user, event := "competition", certificate := certificate }
          pure (.submitted attempt a.examId score e.passScore true e.unlockLevel e.unlockRole (some certificate))
        else pure (.submitted attempt a.examId score e.passScore false none none none)

/-! ## Projects -/

def reviewed (approve : Bool) : ApplicationStatus := if approve then .approved else .rejected

def Application.review (approve : Bool) (reviewer : UserId) (note : Option String) (now : ℤ) (a : Application) :
    Application :=
  { a with reviewerId := some reviewer, reviewNote := note, reviewedAt := some now, status := reviewed approve }

/-- the calls of a review; `present` are the users of whom `get_user_snapshot_batch` has a snapshot -/
structure Calls where
  present : List UserId := []
  grant : Call := .answered
  audit : Call := .answered
deriving DecidableEq, Repr

/-- `_assert_member_users_exist` -/
def assertMemberUsersExist (users present : List UserId) : Op Unit :=
  if users.all (· ∈ present) then pure () else .raise .memberUserNotFound

def addMembers (project : ℕ) : List Claim → ℕ → Op Unit
  | [], _ => pure ()
  | c :: claims, n => do
    let _ ← insert members
      { projectId := project
        userId := c.userId
        displayName := c.displayName
        roleInProject := c.roleInProject
        sortOrder := n }
    addMembers project claims (n + 1)

/-- `_apply_incubation` -/
def applyIncubation (policy : Policy) (applicant : UserId) (application : ℕ) (call : Call) : Op Unit :=
  grantFromBusiness applicant (grantIncubation policy) (.application application) call

/-- `record_audit` -/
def recordAudit (call : Call) : Op Unit := do
  if ← perform (.audit call) then pure () else .raise .unavailable

/-- what an approval makes -/
def incubate (policy : Policy) (application : ℕ) (a : Application) (claims : List Claim) (call : Call) : Op Unit := do
  let project ← insert projects
    { applicantId := a.applicantId
      title := a.title
      summary := a.summary
      description := a.description
      isIncubated := true
      status := "active" }
  addMembers project claims 0
  applyIncubation policy a.applicantId application call

def reviewApplication (policy : Policy) (application : ℕ) (reviewer : UserId) (approve : Bool) (note : Option String)
    (now : ℤ) (calls : Calls) : Op Response := do
  let a ← getOrRaise applications application .applicationNotFound
  if a.status ≠ .pending then .raise .applicationAlreadyReviewed
  else do
    let claims := a.memberClaims
    if approve then assertMemberUsersExist (claims.filterMap Claim.userId) calls.present else pure ()
    match ← updateRow applications application (fun r => decide (r.status = .pending))
        (Application.review approve reviewer note now) with
    | none => .raise .applicationAlreadyReviewed
    | some a => do
      if approve then incubate policy application a claims calls.grant else pure ()
      recordAudit calls.audit
      pure (.reviewed application (reviewed approve))

/-! ## Requests -/

inductive Request where
  | start (exam : ℕ) (user : UserId) (now : Clock)
  | submit (attempt : ℕ) (user : UserId) (answers : Answers) (now : Clock) (call : Call)
  | review (application : ℕ) (reviewer : UserId) (approve : Bool) (note : Option String) (now : ℤ) (calls : Calls)

def Request.body (norm : String → String) (policy : Policy) : Request → Op Response
  | .start exam user now => startAttempt exam user now
  | .submit attempt user answers now call => submitAttempt norm policy attempt user answers now call
  | .review application reviewer approve note now calls => reviewApplication policy application reviewer approve note now calls

/-- the session of the request commits at its end, and rolls back when it raises -/
def Request.prog (norm : String → String) (policy : Policy) (r : Request) : Op Response := transaction (r.body norm policy)

end LkmService.Exams
