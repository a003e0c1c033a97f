/-
Points: balances, the ledger, and every transaction that moves points.

Modelled from `app/modules/points/service.py` (`ensure_balance`, `_apply_delta`, `reward`, `spend`, `transfer`,
`do_checkin`), `points/repository.py`, `points/engine.py` (`apply_task_side_effects`, `_advance_tasks`) and
`points/tasks.py` (`apply_point_reward`), statement by statement over the row store of `Lib.Sql`. The tables of the qa
module are declared here too: its transactions call `reward` and `spend` in their own transaction.

User ids are natural numbers, in the order of the ids. Clock readings, dates, and the texts of ids are arguments.
Achievements do not move points and are left out; the sessions do not flush on their own before a query, so a changed
row object is written at the end of its transaction. No caller keeps the object of a balance row, so the read after an
update is a query and not the session's copy of the row.

Ghost data, which no statement of the source reads: `allowNegative` in a ledger row, and the statement `check`, which
marks the moment at which a transfer has found no row of the sender.
-/
import LkmService.Lib.Discipline

namespace LkmService.Points

open Session Sql

/-! ## Tables -/

/-- a row of `user_balances` -/
structure UserBalance where
  userId : ℕ
  balance : ℤ
deriving DecidableEq, Repr

/-- a row of `points_ledger`; the number of a row is its insertion order -/
structure PointsLedger where
  userId : ℕ
  delta : ℤ
  balanceAfter : ℤ
  reason : String
  refType : String
  refId : String
  createdAt : ℤ
  allowNegative : Bool := false
deriving DecidableEq, Repr

/-- a row of `user_behavior_stats`; `processed` holds the keys of `stats["processed_events"]` -/
structure UserBehaviorStat where
  userId : ℕ
  processed : List String := []
  lastCheckinDate : Option String := none
  checkinStreak : ℕ := 0
deriving DecidableEq, Repr

/-- a row of `task_definitions` -/
structure Task where
  key : String
  category : String
  requirementCount : ℤ
  rewardPoints : ℤ
deriving DecidableEq, Repr

/-- a row of `user_task_progress` -/
structure UserTaskProgress where
  userId : ℕ
  taskId : ℕ
  periodDate : String
  progress : ℤ := 0
  completed : Bool := false
  rewarded : Bool := false
deriving DecidableEq, Repr

/-- `qa_questions.status` -/
inductive QuestionStatus where
  | isOpen
  | accepted
  | closed
deriving DecidableEq, Repr

/-- a row of `qa_questions` -/
structure QAQuestion where
  authorId : ℕ
  bountyPeople : ℕ
  bountyPerPerson : ℕ
  bountyTotal : ℕ
  bountyDistributed : ℕ := 0
  bountyExpiresAt : Option ℤ
  status : QuestionStatus := .isOpen
  acceptedAnswerId : Option ℕ := none
deriving DecidableEq, Repr

/-- a row of `qa_answers` -/
structure QAAnswer where
  questionId : ℕ
  authorId : ℕ
  isAccepted : Bool := false
deriving DecidableEq, Repr

inductive Tbl where
  | balances
  | ledger
  | stats
  | tasks
  | progress
  | questions
  | answers
deriving DecidableEq, Repr

open Tbl

abbrev Row : Tbl → Type
  | .balances => UserBalance
  | .ledger => PointsLedger
  | .stats => UserBehaviorStat
  | .tasks => Task
  | .progress => UserTaskProgress
  | .questions => QAQuestion
  | .answers => QAAnswer

/-- the unique indexes that an insert can meet -/
inductive Index where
  | balance (u : ℕ)
  | ref (u : ℕ) (refType refId : String) (createdAt : ℤ)
  | stat (u : ℕ)
  | progress (u task : ℕ) (periodDate : String)
deriving DecidableEq, Repr

inductive Fx : Type → Type where
  /-- ghost: a transfer is about to credit `toId` under a ref -/
  | check (toId : ℕ) (refType refId : String) : Fx Unit

instance : Effects Fx Unit where
  exec _ x e :=
    match x with
    | .check _ _ _ => ((), e)

inductive Exn where
  | insufficientBalance
  | duplicateReward
  | invalidInput
  | questionNotFound
  | notAsker
  | selfAnswerForbidden
  | questionNotOpen
  | bountyExpired
  | answerNotFound
  | selfAcceptForbidden
  | bountyExhausted
  | assertionError
  | integrityError
deriving DecidableEq, Repr

abbrev Store := Db Row Index Unit

abbrev Op (α : Type) := Prog (Stmt Row Index Fx) Exn α

/-! ## Balances -/

/-- `repo.get` of `UserBalance`, with the row's number -/
def getBalance (u : ℕ) : Op (Option (ℕ × UserBalance)) := do
  let rows ← select balances fun _ r => r.userId == u
  pure rows.head?

def ensureBalance (u : ℕ) : Op Unit := do
  match ← getBalance u with
  | some _ => pure ()
  | none => do
    let _ ← insertUnique balances (.balance u) (fun r => r.userId == u) { userId := u, balance := 0 }
    match ← getBalance u with
    | some _ => pure ()
    | none => Prog.raise .assertionError

/-- SELECT … FROM user_balances WHERE user_id = u FOR UPDATE -/
def lockForUpdate (u : ℕ) : Op Unit := do
  match ← getBalance u with
  | some (n, _) => do
    let _ ← lockRow balances n fun r => r.userId == u
    pure ()
  | none => pure ()

/-- `UserBalanceRepository.apply_delta`; the new balance is read back -/
def applyDelta (u : ℕ) (delta : ℤ) (allowNegative : Bool) : Op ℤ := do
  match ← getBalance u with
  | none => Prog.raise .insufficientBalance
  | some (n, _) => do
    match ← updateRow balances n (fun r => r.userId == u && (allowNegative || decide (0 ≤ r.balance + delta)))
        (fun r => { r with balance := r.balance + delta }) with
    | none => Prog.raise .insufficientBalance
    | some _ => do
      match ← getBalance u with
      | none => Prog.raise .assertionError
      | some (_, row) => pure row.balance

/-! ## The ledger -/

def PointsLedger.hasRef (u : ℕ) (refType refId : String) (r : PointsLedger) : Bool :=
  r.userId == u && r.refType == refType && r.refId == refId

def getByRef (u : ℕ) (refType refId : String) : Op (Option PointsLedger) := do
  let rows ← select ledger fun _ r => r.hasRef u refType refId
  pure (rows.head?.map Prod.snd)

/-- INSERT into `points_ledger`, whose unique index includes `created_at` -/
def insertLedger (r : PointsLedger) : Op (Option ℕ) :=
  insertUnique ledger (.ref r.userId r.refType r.refId r.createdAt)
    (fun r' => r'.hasRef r.userId r.refType r.refId && r'.createdAt == r.createdAt) r

/-- `reward`; `now` is the row's `created_at` -/
def reward (u : ℕ) (delta : ℤ) (reason refType refId : String) (allowNegative : Bool) (now : ℤ) : Op PointsLedger := do
  ensureBalance u
  lockForUpdate u
  match ← getByRef u refType refId with
  | some existing => if existing.delta = delta then pure existing else Prog.raise .duplicateReward
  | none => do
    let balanceAfter ← applyDelta u delta allowNegative
    let _ ← insertLedger
      { userId := u, delta := delta, balanceAfter := balanceAfter, reason := reason, refType := refType,
        refId := refId, createdAt := now, allowNegative := allowNegative }
    match ← getByRef u refType refId with
    | some entry => if entry.delta = delta then pure entry else Prog.raise .duplicateReward
    | none => Prog.raise .duplicateReward

def spend (u : ℕ) (amount : ℤ) (reason refType refId : String) (now : ℤ) : Op PointsLedger :=
  if amount ≤ 0 then Prog.raise .invalidInput else reward u (-amount) reason refType refId false now

/-- a flushed row that meets the unique index raises -/
def addLedger (r : PointsLedger) : Op PointsLedger := do
  match ← insertLedger r with
  | some _ => pure r
  | none => Prog.raise .integrityError

/-- `transfer`; `outAt` and `inAt` are the `created_at` of its two rows -/
def transfer (fromId toId : ℕ) (amount : ℤ) (refType refId : String) (outAt inAt : ℤ) :
    Op (PointsLedger × PointsLedger) :=
  if amount ≤ 0 then Prog.raise .invalidInput
  else if fromId = toId then Prog.raise .invalidInput
  else do
    ensureBalance fromId
    ensureBalance toId
    lockForUpdate (min fromId toId)
    lockForUpdate (max fromId toId)
    match ← getByRef fromId refType refId with
    | some existingOut => do
      match ← getByRef toId refType refId with
      | some existingIn =>
        if existingOut.delta = -amount ∧ existingIn.delta = amount then pure (existingOut, existingIn)
        else Prog.raise .duplicateReward
      | none => Prog.raise .duplicateReward
    | none => do
      perform (.check toId refType refId)
      let fromAfter ← applyDelta fromId (-amount) false
      let toAfter ← applyDelta toId amount true
      let outEntry ← addLedger
        { userId := fromId, delta := -amount, balanceAfter := fromAfter, reason := "transfer_out", refType := refType,
          refId := refId, createdAt := outAt }
      let inEntry ← addLedger
        { userId := toId, delta := amount, balanceAfter := toAfter, reason := "transfer_in", refType := refType,
          refId := refId, createdAt := inAt, allowNegative := true }
      pure (outEntry, inEntry)

/-! ## Rules, tasks and the check-in -/

/-- `RULE_DELTAS.get(event, 0)` -/
def ruleDelta : String → ℤ
  | "post" => 10
  | "comment" => 2
  | "like" => 1
  | "file_approved" => 15
  | "answer_accepted" => 0
  | "checkin" => 5
  | "competition" => 50
  | _ => 0

/-- `EVENT_TASK_KEY` -/
def eventTaskKey : String → Option String
  | "post" => some "post"
  | "answer_accepted" => some "answer"
  | "like" => some "like"
  | "file_approved" => some "file_upload"
  | "checkin" => some "checkin"
  | "competition" => some "competition"
  | _ => none

/-- `apply_point_reward` -/
def applyPointReward (u : ℕ) (event refId : String) (now : ℤ) : Op Unit :=
  if 0 < ruleDelta event then do
    let _ ← reward u (ruleDelta event) event event refId false now
    pure ()
  else pure ()

/-- SELECT of a user's progress in a task on a day -/
def getProgress (u task : ℕ) (today : String) : Op (Option (ℕ × UserTaskProgress)) := do
  let rows ← select progress fun _ r => r.userId == u && r.taskId == task && r.periodDate == today
  pure rows.head?

def ensureProgress (u task : ℕ) (today : String) : Op (ℕ × UserTaskProgress) := do
  match ← getProgress u task today with
  | some up => pure up
  | none => do
    let _ ← insertUnique progress (.progress u task today)
      (fun r => r.userId == u && r.taskId == task && r.periodDate == today)
      { userId := u, taskId := task, periodDate := today }
    match ← getProgress u task today with
    | some up => pure up
    | none => Prog.raise .assertionError

/-- the progress after one more event -/
def advanced (event : String) (t : Task) (up : UserTaskProgress) : ℤ :=
  if t.requirementCount = 1 ∧ event = "checkin" then 1 else min (up.progress + 1) t.requirementCount

/-- one task of `_advance_tasks`; the answer is the changed row object, which is written later -/
def advanceTask (u : ℕ) (event today : String) (now : ℤ) (task : ℕ) (t : Task) : Op (ℕ × UserTaskProgress) := do
  let (n, up) ← ensureProgress u task today
  let up := { up with progress := advanced event t up }
  if 0 < t.requirementCount ∧ up.completed = false ∧ t.requirementCount ≤ up.progress then do
    if up.rewarded = false then do
      let _ ← reward u t.rewardPoints "daily_task" "task" (t.key ++ ":" ++ today) false now
      pure (n, { up with completed := true, rewarded := true })
    else pure (n, { up with completed := true })
  else pure (n, up)

def advanceEach (u : ℕ) (event today : String) (now : ℕ → ℤ) :
    List (ℕ × Task) → Op (List (ℕ × UserTaskProgress))
  | [] => pure []
  | (task, t) :: ts => do
    let up ← advanceTask u event today (now task) task t
    let ups ← advanceEach u event today now ts
    pure (up :: ups)

/-- `_advance_tasks`; `now` is the `created_at` of each task's reward -/
def advanceTasks (u : ℕ) (event today : String) (now : ℕ → ℤ) : Op (List (ℕ × UserTaskProgress)) :=
  match eventTaskKey event with
  | none => pure []
  | some cat => do
    let ts ← select tasks fun _ t => t.category == cat
    advanceEach u event today now ts

/-- the flush of changed progress rows -/
def flushProgress : List (ℕ × UserTaskProgress) → Op Unit
  | [] => pure ()
  | (n, up) :: ups => do
    let _ ← updateRow progress n (fun _ => true) fun _ => up
    flushProgress ups

/-- the user's statistics row, locked; a new one is inserted first -/
def lockStat (u : ℕ) : Op (Option (ℕ × UserBehaviorStat)) := do
  let rows ← select stats fun _ r => r.userId == u
  match rows.head? with
  | none => pure none
  | some (n, _) => do
    match ← lockRow stats n fun r => r.userId == u with
    | some r => pure (some (n, r))
    | none => pure none

def ensureStat (u : ℕ) : Op (ℕ × UserBehaviorStat) := do
  match ← lockStat u with
  | some s => pure s
  | none => do
    let _ ← insertUnique stats (.stat u) (fun r => r.userId == u) { userId := u }
    match ← lockStat u with
    | some s => pure s
    | none => Prog.raise .assertionError

/-- the arguments of `do_checkin`: the texts of the user's id and of the two dates, and the `created_at` of its rewards -/
structure Checkin where
  user : ℕ
  userText : String
  today : String
  yesterday : String
  now : ℤ
  taskNow : ℕ → ℤ

/-- `do_checkin`; the answer is what was earned -/
def doCheckin (c : Checkin) : Op ℤ := do
  let (n, stat) ← ensureStat c.user
  if stat.lastCheckinDate = some c.today then pure 0
  else do
    let streak := if stat.lastCheckinDate = some c.yesterday then stat.checkinStreak + 1 else 1
    let _ ← reward c.user (ruleDelta "checkin") "checkin" "checkin" (c.userText ++ ":" ++ c.today) false c.now
    let ups ← advanceTasks c.user "checkin" c.today c.taskNow
    let _ ← updateRow stats n (fun _ => true) fun r =>
      { r with checkinStreak := streak, lastCheckinDate := some c.today }
    flushProgress ups
    pure (ruleDelta "checkin")

/-- `apply_task_side_effects` -/
def applyTaskSideEffects (u : ℕ) (event refId today : String) (now : ℕ → ℤ) : Op Unit :=
  match eventTaskKey event with
  | none => pure ()
  | some _ => do
    let (n, stat) ← ensureStat u
    let mark := "tasks:" ++ event ++ ":" ++ refId
    if mark ∈ stat.processed then pure ()
    else do
      let ups ← advanceTasks u event today now
      let _ ← updateRow stats n (fun _ => true) fun r => { r with processed := mark :: r.processed }
      flushProgress ups

/-! ## The system -/

inductive Call where
  | reward (u : ℕ) (delta : ℤ) (reason refType refId : String) (allowNegative : Bool) (now : ℤ)
  | spend (u : ℕ) (amount : ℤ) (reason refType refId : String) (now : ℤ)
  | transfer (fromId toId : ℕ) (amount : ℤ) (refType refId : String) (outAt inAt : ℤ)
  | checkin (c : Checkin)
  | event (u : ℕ) (event refId : String) (now : ℤ)
  | taskEvent (u : ℕ) (event refId today : String) (now : ℕ → ℤ)

def call : Call → Op Unit
  | .reward u delta reason refType refId allowNegative now => do
    let _ ← reward u delta reason refType refId allowNegative now
  | .spend u amount reason refType refId now => do let _ ← spend u amount reason refType refId now
  | .transfer fromId toId amount refType refId outAt inAt => do
    let _ ← transfer fromId toId amount refType refId outAt inAt
  | .checkin c => do let _ ← doCheckin c
  | .event u event refId now => applyPointReward u event refId now
  | .taskEvent u event refId today now => applyTaskSideEffects u event refId today now

def callAll : List Call → Op Unit
  | [] => pure ()
  | c :: cs => do
    call c
    callAll cs

/-- a request or a consumer's transaction: some calls, committed unless one of them raises or the rest of it fails -/
structure Request where
  calls : List Call
  commits : Bool

def request (r : Request) : Op Unit :=
  (callAll r.calls).andThen fun
    | .ok _ => if r.commits then commit else rollback
    | .error e => do
      rollback
      Prog.raise e

/-- `task_definitions` -/
def taskTable (defs : List Task) : Table Task where
  cell n := { committed := defs[n]? }
  next := defs.length
  fresh n h := by rw [List.getElem?_eq_none h]

def store (defs : List Task) : Store where
  tab
    | .tasks => taskTable defs
    | _ => {}
  ext := ()

/-- the service with its task definitions, before the first request -/
def init (defs : List Task) (requests : ℕ → Request) : World (Stmt Row Index Fx) Store Exn Unit :=
  start (store defs) fun i => request (requests i)

theorem com_store (defs : List Task) (t : Tbl) (h : t ≠ tasks) (n : ℕ) : (store defs).snap.com t n = none := by
  cases t <;> first | rfl | exact absurd rfl h

theorem own_store (defs : List Task) (i : ℕ) : (store defs).own i = {} := by
  refine Own.ext (funext fun t => funext fun n => ?_) (funext fun k => propext (by simp [Db.own, store]))
  cases t <;> rfl

end LkmService.Points
