/-
The transactional outbox: its tables, and every transaction that touches them.

Modelled from `core/db/outbox.py` (`enqueue_outbox`), `core/outbox_relay.py` (`relay_poll`, `archive_published`),
`core/db/event_failure.py` (`replay_failure`) and `core/worker_dlq.py` (`requeue`, `_persist`), statement by statement
over the row store of `Lib.Sql`. A row object that the ORM session has changed is written at its flush; the sessions do
not flush on their own before a query.

What the code takes from outside is an argument: the clock readings and the outcome of `messaging.publish` of every
round of a relay, the generated uuids, the answers of `can_publish`, the configuration, and the functions on payloads
(`Env`). Timestamps are microseconds.

Ghost data, which no statement of the source reads:
- `origin` in a moved row: the outbox row that it was moved from.
- the table `copies`: one row for each outbox row ever inserted, written with it, so that both commit or neither does.
- `retiredFor`: the pending outbox row that a replay found in flight when it marked its source without a new row.
- `requeuedAs`: the event id that a dead letter went out under.
- `claims` in an outbox row, the log of publish calls, and each session's last token and clock reading.
-/
import Mathlib.Algebra.Group.Nat.Defs
import Mathlib.Data.List.Sort
import LkmService.Lib.Sql

namespace LkmService.Outbox

open Session Sql

/-! ## Tables -/

/-- `outbox_events.status`; no code path writes `failed` -/
inductive Status where
  | pending
  | published
  | failed
deriving DecidableEq, Repr

/-- `MAX_TRIES`, `_BACKOFF_CAP_S` -/
def maxTries : ℕ := 5

def backoffCap : ℕ := 3600

variable {P : Type}

/-- the hex text of a uuid -/
abbrev Hex := { s : String // s ≠ "" }

/-- what is sent: the same in every record of one event -/
structure Event (P : Type) where
  eventId : String
  routingKey : String
  payload : P

/-- a row of `outbox_events` -/
structure OutboxMessage (P : Type) where
  eventId : String
  routingKey : String
  payload : P
  status : Status := .pending
  attemptCount : ℕ := 0
  createdAt : ℤ
  nextRetryAt : ℤ
  publishedAt : Option ℤ := none
  lockedAt : Option ℤ := none
  lockedBy : Option ℕ := none
  claims : ℕ := 0

/-- a row of `outbox_archived` -/
structure OutboxArchived (P : Type) where
  eventId : String
  routingKey : String
  payload : P
  attemptCount : ℕ
  createdAt : ℤ
  publishedAt : Option ℤ
  archivedAt : ℤ
  origin : ℕ

/-- a row of `event_failures` -/
structure EventFailure (P : Type) where
  eventId : String
  routingKey : String
  payload : P
  attemptCount : ℕ
  reason : String
  replayedAt : Option ℤ := none
  origin : ℕ
  retiredFor : Option (OutboxMessage P) := none

/-- `dlq_messages.status` -/
inductive DlqStatus where
  | pending
  | requeued
deriving DecidableEq, Repr

/-- a row of `dlq_messages`; `idHex` is the text of its primary key, and `payload` is none when the stored message has
no payload object -/
structure DlqMessage (P : Type) where
  idHex : Hex
  routingKey : String
  payload : Option P
  status : DlqStatus := .pending
  sourceMessageId : Option String
  requeuedAs : Option String := none
  retiredFor : Option (OutboxMessage P) := none

def OutboxMessage.event (r : OutboxMessage P) : Event P := ⟨r.eventId, r.routingKey, r.payload⟩

def OutboxArchived.event (r : OutboxArchived P) : Event P := ⟨r.eventId, r.routingKey, r.payload⟩

def EventFailure.event (r : EventFailure P) : Event P := ⟨r.eventId, r.routingKey, r.payload⟩

/-- what inserted an outbox row -/
inductive Source where
  | enqueue
  | failure (f : ℕ)
  | dlq (d : ℕ)
deriving DecidableEq, Repr

/-- ghost: one enqueued copy of an event, inserted with the outbox row `row` by session `session` -/
structure Copy (P : Type) where
  row : ℕ
  event : Event P
  source : Source
  session : ℕ

inductive Tbl where
  | outbox
  | archived
  | failures
  | keys
  | dlq
  | copies
deriving DecidableEq, Repr

open Tbl

/-- a row of `outbox_event_keys` is its event id -/
abbrev Row (P : Type) : Tbl → Type
  | .outbox => OutboxMessage P
  | .archived => OutboxArchived P
  | .failures => EventFailure P
  | .keys => String
  | .dlq => DlqMessage P
  | .copies => Copy P

/-- the unique indexes that an insert can meet: `outbox_event_keys.event_id`, `dlq_messages.source_message_id` -/
inductive Index where
  | event (e : String)
  | source (m : String)
deriving DecidableEq, Repr

/-! ## The state outside the tables -/

/-- `token` counts the uuids drawn; `claim i` is the token and `reading i` the clock reading of session `i`'s last claim
query; `publishes` logs each publish call with its row and whether it returned True -/
structure Ext where
  token : ℕ := 0
  claim : ℕ → Option ℕ := fun _ => none
  reading : ℕ → ℤ := fun _ => 0
  publishes : List (ℕ × Bool) := []

inductive Fx : Type → Type where
  /-- read the clock for a claim query -/
  | now (t : ℤ) : Fx ℤ
  /-- draw a claim token -/
  | uuid4 : Fx ℕ
  /-- `messaging.publish` for the outbox row `n`; `ok` is whether it returns True -/
  | publish (n : ℕ) (ok : Bool) : Fx Bool

instance : Effects Fx Ext where
  exec i x e :=
    match x with
    | .now t => (t, { e with reading := Function.update e.reading i t })
    | .uuid4 => (e.token, { e with token := e.token + 1, claim := Function.update e.claim i (some e.token) })
    | .publish n ok => (ok, { e with publishes := (n, ok) :: e.publishes })

/-- the configuration and the functions on payloads that live elsewhere -/
structure Env (P : Type) where
  messageBusEnabled : Bool
  outboxLockTtl : ℕ
  pulsarOperationTimeout : ℕ
  /-- `_jsonable` -/
  jsonable : P → P
  /-- `{**payload, "event_id": event_id}` -/
  withEventId : P → String → P
  /-- `payload.get("event_id")` when it is a text -/
  eventId : P → Option String
  permanentFailureReason : String → P → Option String

abbrev Store (P : Type) := Db (Row P) Index Ext

/-- ValueError of `enqueue_outbox` -/
inductive Exn where
  | valueError
deriving DecidableEq, Repr

abbrev Op (P : Type) (α : Type) := Prog (Stmt (Row P) Index Fx) Exn α

def second : ℤ := 1000000

/-! ## enqueue_outbox -/

/-- the arguments of `enqueue_outbox`; `uuid` and `now` are the values it draws -/
structure Enqueue (P : Type) where
  routingKey : String
  payload : P
  eventId : Option String := none
  uuid : Hex
  now : ℤ

/-- `_legacy_event_exists` -/
def legacyEventExists (eventId : String) : Op P Bool := do
  let hot ← select outbox fun _ r => r.eventId == eventId
  let cold ← select archived fun _ r => r.eventId == eventId
  let failed ← select failures fun _ r => r.eventId == eventId
  pure (!hot.isEmpty || !cold.isEmpty || !failed.isEmpty)

/-- `event_id or uuid4().hex` -/
def Enqueue.eid (q : Enqueue P) : String :=
  match q.eventId with
  | some e => if e = "" then q.uuid else e
  | none => q.uuid

def activeRows (eventId : String) : Op P (List (ℕ × OutboxMessage P)) :=
  select outbox fun _ r => r.eventId == eventId && r.status == .pending

/-- SELECT … FROM outbox_event_keys WHERE event_id = … FOR UPDATE -/
def lockEventKey (eventId : String) : Op P Unit := do
  match ← select keys fun _ k => k == eventId with
  | [] => pure ()
  | (k, _) :: _ => do
    let _ ← lockRow keys k fun k => k == eventId
    pure ()

/-- an explicit id without a key row may be older than the key table -/
def legacyHit (eventId : String) (check : Bool) : Op P Bool :=
  if check then legacyEventExists eventId else pure false

/-- a replay holds the event's key while it looks for an active row -/
def activeHit (eventId : String) (replay : Bool) : Op P Bool :=
  if replay then do
    lockEventKey eventId
    let active ← activeRows eventId
    pure !active.isEmpty
  else pure false

/-- the row that the call adds to its session, or none where the source returns False -/
def enqueueOutbox (env : Env P) (q : Enqueue P) (replay : Bool) : Op P (Option (OutboxMessage P)) :=
  if !env.messageBusEnabled then pure none
  else if replay && q.eventId.isNone then Prog.raise .valueError
  else do
    let inserted ← insertUnique keys (.event q.eid) (fun k => k == q.eid) q.eid
    if inserted.isNone && !replay then pure none
    else do
      let legacy ← legacyHit q.eid (inserted.isSome && q.eventId.isSome && !replay)
      if legacy then pure none
      else do
        let active ← activeHit q.eid replay
        if active then pure none
        else pure (some
          { eventId := q.eid, routingKey := q.routingKey, payload := env.jsonable q.payload, createdAt := q.now,
            nextRetryAt := q.now })

/-- the flush of a new outbox row, with its ghost copy -/
def flush (i : ℕ) (source : Source) (r : OutboxMessage P) : Op P Unit := do
  let n ← insert outbox r
  let _ ← insert copies { row := n, event := r.event, source := source, session := i }
  pure ()

def enqueueAll (env : Env P) : List (Enqueue P) → Op P (List (OutboxMessage P))
  | [] => pure []
  | q :: qs => do
    let r ← enqueueOutbox env q false
    let rs ← enqueueAll env qs
    pure (r.toList ++ rs)

def flushAll (i : ℕ) : List (OutboxMessage P) → Op P Unit
  | [] => pure ()
  | r :: rs => do
    flush i .enqueue r
    flushAll i rs

/-- a business transaction that enqueues some events and then commits or is rolled back -/
def enqueueTransaction (env : Env P) (i : ℕ) (qs : List (Enqueue P)) (commits : Bool) : Op P Unit := do
  let rows ← enqueueAll env qs
  flushAll i rows
  if commits then commit else rollback

/-! ## relay_poll -/

/-- `stale_before` of `_claimable`, as the age of a lock from which on it counts as abandoned -/
def staleAfter (env : Env P) : ℤ := second * (max env.outboxLockTtl (env.pulsarOperationTimeout + 10) : ℕ)

def claimable (env : Env P) (now : ℤ) (r : OutboxMessage P) : Bool :=
  r.status == .pending && decide (r.nextRetryAt ≤ now) &&
    match r.lockedAt with
    | none => true
    | some t => decide (t < now - staleAfter env)

/-- `_clear_lock` -/
def clearLock (r : OutboxMessage P) : OutboxMessage P := { r with lockedAt := none, lockedBy := none }

/-- how a call of `messaging.publish` under `wait_for` ends -/
inductive Publish where
  | returns (ok : Bool)
  | raises
deriving DecidableEq, Repr

def Publish.ok : Publish → Bool
  | .returns ok => ok
  | .raises => false

/-- what one round of the loop takes from outside: the two answers of `can_publish`, the clock readings of the claim
query, of the lock and of the result, and how the publish call ends -/
structure Round where
  canPublish : Bool := true
  claimNow : ℤ
  lockNow : ℤ
  canPublishAfter : Bool := true
  publish : Publish
  resultNow : ℤ
deriving DecidableEq, Repr

/-- ORDER BY attempt_count, id -/
def claimOrder (a b : ℕ × OutboxMessage P) : Prop :=
  a.2.attemptCount < b.2.attemptCount ∨ a.2.attemptCount = b.2.attemptCount ∧ a.1 ≤ b.1

instance : DecidableRel (claimOrder (P := P)) := fun a b => by unfold claimOrder; infer_instance

/-- the claim transaction: the row, as it was claimed, and the token -/
def claim (env : Env P) (rd : Round) : Op P (Option (ℕ × OutboxMessage P × ℕ)) := do
  let now ← perform (.now rd.claimNow)
  let candidates ← select outbox fun _ r => claimable env now r
  let picked ← lockFirst outbox (claimable env now) ((candidates.insertionSort claimOrder).map Prod.fst)
  match picked with
  | none => pure none
  | some (n, r) => do
    let token ← perform .uuid4
    let claimed := { r with lockedAt := some rd.lockNow, lockedBy := some token, claims := r.claims + 1 }
    let _ ← updateRow outbox n (fun _ => true) fun _ => claimed
    commit
    pure (some (n, claimed, token))

/-- the claim is given back after `can_publish` has turned false -/
def giveBack (n token : ℕ) : Op P Unit := do
  match ← lockRow outbox n fun _ => true with
  | some owned =>
    if owned.lockedBy = some token then do
      let _ ← updateRow outbox n (fun _ => true) fun _ => clearLock owned
      commit
    else rollback
  | none => rollback

/-- a row leaves the outbox for `event_failures` -/
def fold (n : ℕ) (msg : OutboxMessage P) (reason : String) : Op P Unit := do
  let _ ← insert failures
    { eventId := msg.eventId, routingKey := msg.routingKey, payload := msg.payload, attemptCount := msg.attemptCount,
      reason := reason, origin := n }
  let _ ← deleteRow outbox n
  commit

/-- `next_retry_at` after the failed attempt number `attempt` -/
def retryAt (now : ℤ) (attempt : ℕ) : ℤ := now + second * (min (2 ^ attempt) backoffCap : ℕ)

/-- the result transaction; the answer is the number of rows published -/
def result (rd : Round) (n token : ℕ) (reason : Option String) (ok : Bool) : Op P ℕ := do
  match ← lockRow outbox n fun _ => true with
  | none => do
    rollback
    pure 0
  | some msg =>
    if msg.lockedBy ≠ some token then do
      rollback
      pure 0
    else
      match reason with
      | some why => do
        fold n msg why
        pure 0
      | none =>
        if ok then do
          let _ ← updateRow outbox n (fun _ => true) fun _ =>
            { clearLock msg with status := .published, publishedAt := some rd.resultNow }
          commit
          pure 1
        else if maxTries ≤ msg.attemptCount + 1 then do
          fold n { clearLock msg with attemptCount := msg.attemptCount + 1 } "relay exhausted: max tries reached"
          pure 0
        else do
          let _ ← updateRow outbox n (fun _ => true) fun _ =>
            { clearLock msg with
              attemptCount := msg.attemptCount + 1, nextRetryAt := retryAt rd.resultNow (msg.attemptCount + 1) }
          commit
          pure 0

/-- the publish call of a round, skipped when the event can never be published -/
def send (rd : Round) (n : ℕ) (reason : Option String) : Op P Bool :=
  if reason.isNone then perform (.publish n rd.publish.ok) else pure false

/-- the rounds of one `relay_poll`; the answer is the number of rows published -/
def relayRounds (env : Env P) : List Round → Op P ℕ
  | [] => pure 0
  | rd :: rds =>
    if !rd.canPublish then pure 0
    else do
      match ← claim env rd with
      | none => pure 0
      | some (n, msg, token) =>
        if !rd.canPublishAfter then do
          giveBack n token
          pure 0
        else do
          let reason := env.permanentFailureReason msg.routingKey (env.withEventId msg.payload msg.eventId)
          let ok ← send rd n reason
          let k ← result rd n token reason ok
          let succeeded ← relayRounds env rds
          pure (succeeded + k)

def relayPoll (env : Env P) (rds : List Round) : Op P ℕ := do
  let succeeded ← relayRounds env rds
  rollback
  pure succeeded

/-! ## archive_published -/

def archivable (cutoff : ℤ) (r : OutboxMessage P) : Bool :=
  r.status == .published &&
    match r.publishedAt with
    | none => false
    | some t => decide (t < cutoff)

/-- FOR UPDATE SKIP LOCKED LIMIT over the candidate rows -/
def lockBatch (cutoff : ℤ) : ℕ → List ℕ → Op P (List (ℕ × OutboxMessage P))
  | 0, _ => pure []
  | _, [] => pure []
  | k + 1, n :: ns => do
    match ← tryLockRow outbox n (archivable cutoff) with
    | some r => do
      let rs ← lockBatch cutoff k ns
      pure ((n, r) :: rs)
    | none => lockBatch cutoff (k + 1) ns

def archiveRows (archivedAt : ℤ) : List (ℕ × OutboxMessage P) → Op P Unit
  | [] => pure ()
  | (n, msg) :: rows => do
    let _ ← insert archived
      { eventId := msg.eventId, routingKey := msg.routingKey, payload := msg.payload,
        attemptCount := msg.attemptCount, createdAt := msg.createdAt, publishedAt := msg.publishedAt,
        archivedAt := archivedAt, origin := n }
    let _ ← deleteRow outbox n
    archiveRows archivedAt rows

/-- `now`, `archivedAt`: the two clock readings; `limit`: the batch size -/
def archivePublished (now retention archivedAt : ℤ) (limit : ℕ) : Op P ℕ := do
  let candidates ← select outbox fun _ r => archivable (now - retention) r
  let rows ← lockBatch (now - retention) limit (candidates.map Prod.fst)
  if rows = [] then do
    rollback
    pure 0
  else do
    archiveRows archivedAt rows
    commit
    pure rows.length

/-! ## replay_failure and requeue -/

/-- the corrections of an operator's request, and the uuid and the clock reading drawn for it -/
structure Correction (P : Type) where
  routingKey : Option String := none
  payload : Option P := none
  uuid : Hex
  now : ℤ

/-- the arguments of the replay's `enqueue_outbox` -/
def Correction.enqueue (c : Correction P) (row : EventFailure P) : Enqueue P :=
  { routingKey := c.routingKey.getD row.routingKey, payload := c.payload.getD row.payload,
    eventId := some row.eventId, uuid := c.uuid, now := c.now }

/-- `permanent_failure_reason` of the corrected event -/
def Correction.violation (env : Env P) (c : Correction P) (row : EventFailure P) : Option String :=
  env.permanentFailureReason (c.enqueue row).routingKey (env.withEventId (c.enqueue row).payload row.eventId)

/-- the request ends without a replay -/
def refuse : Op P Bool := do
  rollback
  pure false

/-- `replay_failure`, committed by the request's session when it answers True and rolled back when it answers False -/
def replayFailure (env : Env P) (i f : ℕ) (c : Correction P) : Op P Bool := do
  match ← lockRow failures f fun _ => true with
  | none => refuse
  | some row =>
    if row.replayedAt.isSome || !env.messageBusEnabled || (c.violation env row).isSome then refuse
    else do
      match ← enqueueOutbox env (c.enqueue row) true with
      | some msg => do
        flush i (.failure f) msg
        let _ ← updateRow failures f (fun _ => true) fun r => { r with replayedAt := some c.now }
        commit
        pure true
      | none => do
        -- an active row is in flight: the duplicate record is retired without a new row
        match ← activeRows row.eventId with
        | [] => refuse
        | (_, active) :: _ => do
          let _ ← updateRow failures f (fun _ => true) fun r =>
            { r with replayedAt := some c.now, retiredFor := some active }
          commit
          pure true

/-- the event id that a requeued message goes out under -/
def dlqEventId (env : Env P) (idHex : Hex) (parsed : P) : String :=
  match env.eventId parsed with
  | some e => if e = "" then idHex else e
  | none => idHex

/-- `worker_dlq.requeue` -/
def requeue (env : Env P) (i d : ℕ) (c : Correction P) : Op P Bool := do
  match ← lockRow dlq d fun _ => true with
  | none => refuse
  | some m =>
    match c.payload.orElse fun _ => m.payload with
    | none => refuse
    | some parsed =>
      let rk := c.routingKey.getD m.routingKey
      if m.status ≠ .pending || !env.messageBusEnabled || (env.permanentFailureReason rk parsed).isSome then refuse
      else do
        let eid := dlqEventId env m.idHex parsed
        match ← enqueueOutbox env
            { routingKey := rk, payload := parsed, eventId := some eid, uuid := c.uuid, now := c.now } true with
        | some msg => do
          flush i (.dlq d) msg
          let _ ← updateRow dlq d (fun _ => true) fun r => { r with status := .requeued, requeuedAs := some eid }
          commit
          pure true
        | none => do
          match ← activeRows eid with
          | [] => refuse
          | (_, active) :: _ => do
            let _ ← updateRow dlq d (fun _ => true) fun r =>
              { r with status := .requeued, requeuedAs := some eid, retiredFor := some active }
            commit
            pure true

/-- `worker_dlq._persist`: the broker may deliver a dead letter twice -/
def persist (m : DlqMessage P) : Op P Unit :=
  match m.sourceMessageId with
  | some s => do
    match ← insertUnique dlq (.source s) (fun r => r.sourceMessageId == some s) m with
    | some _ => commit
    | none => rollback
  | none => do
    let _ ← insert dlq m
    commit

/-! ## The system -/

/-- what a session of the system does -/
inductive Call (P : Type) where
  | enqueue (qs : List (Enqueue P)) (commits : Bool)
  | relay (rds : List Round)
  | archive (now retention archivedAt : ℤ) (limit : ℕ)
  | replay (f : ℕ) (c : Correction P)
  | deadLetter (idHex : Hex) (routingKey : String) (payload : Option P) (sourceMessageId : Option String)
  | requeue (d : ℕ) (c : Correction P)

/-- the session's transactions are meant to be committed -/
def Call.commits : Call P → Bool
  | .enqueue _ commits => commits
  | _ => true

/-- the call sends a dead letter back to the outbox -/
def Call.requeues : Call P → Bool
  | .requeue _ _ => true
  | _ => false

def program (env : Env P) (i : ℕ) : Call P → Op P Unit
  | .enqueue qs commits => enqueueTransaction env i qs commits
  | .relay rds => do let _ ← relayPoll env rds
  | .archive now retention archivedAt limit => do let _ ← archivePublished now retention archivedAt limit
  | .replay f c => do let _ ← replayFailure env i f c
  | .deadLetter idHex routingKey payload sourceMessageId =>
    persist { idHex := idHex, routingKey := routingKey, payload := payload, sourceMessageId := sourceMessageId }
  | .requeue d c => do let _ ← requeue env i d c

/-- the service before the first transaction: every session is about to run its call on the empty tables -/
def init (env : Env P) (calls : ℕ → Call P) : World (Stmt (Row P) Index Fx) (Store P) Exn Unit :=
  start { ext := {} } fun i => program env i (calls i)

end LkmService.Outbox
