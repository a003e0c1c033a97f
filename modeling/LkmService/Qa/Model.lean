/-
Questions with a bounty: asking, answering, accepting, closing, and the settlement of due questions.

Modelled from `app/modules/qa/service.py` (`create_question`, `create_answer`, `accept_answer`, `close_question`,
`_settle_question`, `expire_due_questions`), `qa/repository.py` (`get_locked`, `expired_for_update`, `count_accepted`),
`qa/schemas.py` (`QuestionCreate`) and `qa/tasks.py`, over the store of the points module, whose `spend` and `reward`
run in the same transaction.

Ids of questions and answers are row numbers; the text of an id is a parameter of which only what holds of a UUID's text
is used. Titles, texts, images and the forum entry of a question are left out. A changed row object is written where
the source changes it: the row is locked or, for an answer, reached through the lock of its question only.
-/
import Mathlib.Data.List.Sort
import LkmService.Points.Model

namespace LkmService.Qa

open Session Sql Points Tbl

/-- `str(id)` -/
structure Env where
  str : ℕ → String
  str_inj : Function.Injective str
  no_colon : ∀ n, ':' ∉ (str n).toList

/-- f"{question_id}:{answer_id}" -/
def Env.answerRef (env : Env) (q a : ℕ) : String := env.str q ++ ":" ++ env.str a

/-- `MAX_BOUNTY_POINTS` -/
def maxBountyPoints : ℕ := 1000

/-- the bounty of a `QuestionCreate` -/
structure QuestionCreate where
  bountyPeople : ℕ := 1
  bountyPerPerson : ℕ := 0
  bountyDays : ℕ := 7
  people_range : 1 ≤ bountyPeople ∧ bountyPeople ≤ 10
  per_person_range : bountyPerPerson ≤ maxBountyPoints
  days_range : 7 ≤ bountyDays ∧ bountyDays ≤ 90
  total_range : bountyPeople * bountyPerPerson ≤ maxBountyPoints

/-- the clock counts seconds -/
def day : ℤ := 86400

/-! ## Questions and answers -/

def createQuestion (env : Env) (authorId : ℕ) (info : QuestionCreate) (now rewardAt : ℤ) : Op Unit := do
  let total := info.bountyPeople * info.bountyPerPerson
  let q ← insert questions
    { authorId := authorId, bountyPeople := info.bountyPeople, bountyPerPerson := info.bountyPerPerson,
      bountyTotal := total, bountyExpiresAt := if 0 < total then some (now + info.bountyDays * day) else none }
  if 0 < total then do
    let _ ← spend authorId total "qa_escrow" "qa_question" (env.str q) rewardAt
    pure ()
  else pure ()

/-- `get_locked` -/
def getLocked (q : ℕ) : Op (Option QAQuestion) := lockRow questions q fun _ => true

/-- the bounty is over -/
def QAQuestion.expired (now : ℤ) (r : QAQuestion) : Bool := r.bountyExpiresAt.any fun t => decide (t ≤ now)

def createAnswer (q authorId : ℕ) (now : ℤ) : Op Unit := do
  match ← getLocked q with
  | none => Prog.raise .questionNotFound
  | some r =>
    if r.authorId = authorId then Prog.raise .selfAnswerForbidden
    else if r.status ≠ .isOpen then Prog.raise .questionNotOpen
    else if QAQuestion.expired now r then Prog.raise .bountyExpired
    else do
      let _ ← insert answers { questionId := q, authorId := authorId }
      pure ()

/-- `count_accepted` -/
def countAccepted (q : ℕ) : Op ℕ := do
  let rows ← select answers fun _ r => r.questionId == q && r.isAccepted
  pure rows.length

/-- the payment of a share; the answer is what has been distributed -/
def payShare (env : Env) (q a : ℕ) (r : QAQuestion) (ans : QAAnswer) (rewardAt : ℤ) : Op ℕ :=
  if 0 < r.bountyPerPerson then do
    let _ ← reward ans.authorId r.bountyPerPerson "qa_accept" "qa_accept" (env.answerRef q a) false rewardAt
    pure (r.bountyDistributed + r.bountyPerPerson)
  else pure r.bountyDistributed

def acceptAnswer (env : Env) (q a askerId : ℕ) (now rewardAt : ℤ) : Op Unit := do
  match ← getLocked q with
  | none => Prog.raise .questionNotFound
  | some r =>
    if r.authorId ≠ askerId then Prog.raise .notAsker
    else if r.status ≠ .isOpen then Prog.raise .questionNotOpen
    else if QAQuestion.expired now r then Prog.raise .bountyExpired
    else do
      let rows ← select answers fun n x => n == a && x.questionId == q
      match rows.head? with
      | none => Prog.raise .answerNotFound
      | some (_, ans) =>
        if ans.isAccepted then pure ()
        else if ans.authorId = r.authorId then Prog.raise .selfAcceptForbidden
        else do
          let acceptedCount ← countAccepted q
          if r.bountyPeople ≤ acceptedCount then Prog.raise .bountyExhausted
          else do
            let distributed ← payShare env q a r ans rewardAt
            let _ ← updateRow answers a (fun _ => true) fun x => { x with isAccepted := true }
            let _ ← updateRow questions q (fun _ => true) fun x =>
              { x with bountyDistributed := distributed, acceptedAnswerId := some a }
            pure ()

/-- the refund of what has not been distributed -/
def payRefund (env : Env) (q : ℕ) (r : QAQuestion) (rewardAt : ℤ) : Op Unit :=
  if (0 : ℤ) < r.bountyTotal - r.bountyDistributed then do
    let _ ← reward r.authorId (r.bountyTotal - r.bountyDistributed) "qa_refund" "qa_refund" (env.str q) false rewardAt
    pure ()
  else pure ()

/-- `_settle_question` of the row object `r` -/
def settleQuestion (env : Env) (q : ℕ) (r : QAQuestion) (rewardAt : ℤ) : Op Unit := do
  payRefund env q r rewardAt
  let _ ← updateRow questions q (fun _ => true) fun x =>
    { x with status := if r.acceptedAnswerId.isSome then .accepted else .closed }
  pure ()

def closeQuestion (env : Env) (q askerId : ℕ) (acceptedAnswerId : Option ℕ) (now acceptAt refundAt : ℤ) : Op Unit := do
  match ← getLocked q with
  | none => Prog.raise .questionNotFound
  | some r =>
    if r.authorId ≠ askerId then Prog.raise .notAsker
    else if r.status ≠ .isOpen then Prog.raise .questionNotOpen
    else
      match acceptedAnswerId with
      | none => settleQuestion env q r refundAt
      | some a =>
        if r.acceptedAnswerId = some a then settleQuestion env q r refundAt
        else do
          acceptAnswer env q a askerId now acceptAt
          let rows ← select questions fun n _ => n == q
          match rows.head? with
          | none => Prog.raise .questionNotFound
          | some (_, r) => settleQuestion env q r refundAt

/-! ## Due questions -/

def QAQuestion.due (now : ℤ) (r : QAQuestion) : Bool := r.status = .isOpen ∧ QAQuestion.expired now r = true

/-- FOR UPDATE SKIP LOCKED over the sorted candidates, up to `limit` rows -/
def lockDue (now : ℤ) : ℕ → List ℕ → Op (List (ℕ × QAQuestion))
  | 0, _ => pure []
  | _, [] => pure []
  | limit + 1, q :: qs => do
    match ← tryLockRow questions q (QAQuestion.due now) with
    | some r => do
      let rs ← lockDue now limit qs
      pure ((q, r) :: rs)
    | none => lockDue now (limit + 1) qs

/-- ORDER BY bounty_expires_at, id -/
def dueBefore (a b : ℕ × QAQuestion) : Prop :=
  a.2.bountyExpiresAt.getD 0 < b.2.bountyExpiresAt.getD 0 ∨
    a.2.bountyExpiresAt.getD 0 = b.2.bountyExpiresAt.getD 0 ∧ a.1 ≤ b.1

instance : DecidableRel dueBefore := fun _ _ => inferInstanceAs (Decidable (_ ∨ _ ∧ _))

/-- `expired_for_update` -/
def expiredForUpdate (now : ℤ) (limit : ℕ) : Op (List (ℕ × QAQuestion)) := do
  let rows ← select questions fun _ r => QAQuestion.due now r
  lockDue now limit ((rows.insertionSort dueBefore).map Prod.fst)

def settleAll (env : Env) (refundAt : ℕ → ℤ) : List (ℕ × QAQuestion) → Op Unit
  | [] => pure ()
  | (q, r) :: rs => do
    settleQuestion env q r (refundAt q)
    settleAll env refundAt rs

def expireDueQuestions (env : Env) (now : ℤ) (limit : ℕ) (refundAt : ℕ → ℤ) : Op Unit := do
  let rows ← expiredForUpdate now limit
  settleAll env refundAt rows

/-! ## The system -/

/-- the ref types under which this module moves points -/
def qaRefTypes : List String := ["qa_question", "qa_accept", "qa_refund"]

inductive Call where
  | createQuestion (authorId : ℕ) (info : QuestionCreate) (now rewardAt : ℤ)
  | createAnswer (q authorId : ℕ) (now : ℤ)
  | acceptAnswer (q a askerId : ℕ) (now rewardAt : ℤ)
  | closeQuestion (q askerId : ℕ) (acceptedAnswerId : Option ℕ) (now acceptAt refundAt : ℤ)
  | expireDueQuestions (now : ℤ) (limit : ℕ) (refundAt : ℕ → ℤ)
  /-- another module rewards or fines a user -/
  | grant (u : ℕ) (delta : ℤ) (reason refType refId : String) (allowNegative : Bool) (now : ℤ)
      (other : refType ∉ qaRefTypes)

def call (env : Env) : Call → Op Unit
  | .createQuestion authorId info now rewardAt => createQuestion env authorId info now rewardAt
  | .createAnswer q authorId now => createAnswer q authorId now
  | .acceptAnswer q a askerId now rewardAt => acceptAnswer env q a askerId now rewardAt
  | .closeQuestion q askerId acceptedAnswerId now acceptAt refundAt =>
    closeQuestion env q askerId acceptedAnswerId now acceptAt refundAt
  | .expireDueQuestions now limit refundAt => expireDueQuestions env now limit refundAt
  | .grant u delta reason refType refId allowNegative now _ => do
    let _ ← reward u delta reason refType refId allowNegative now

/-- a request or a job; `commits` is false when what follows the call fails -/
structure Request where
  call : Call
  commits : Bool := true

def request (env : Env) (r : Request) : Op Unit :=
  (call env r.call).andThen fun
    | .ok _ => if r.commits then commit else rollback
    | .error e => do
      rollback
      Prog.raise e

def init (env : Env) (requests : ℕ → Request) : World (Stmt Row Index Fx) Store Exn Unit :=
  start (store []) fun i => request env (requests i)

end LkmService.Qa
