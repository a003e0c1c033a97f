/-
Verification codes and recovery codes.

Modelled from `service_verify.py`, the recovery codes of `service_2fa.py`, `repository.py` and the primitives
`consume_once` and `isolated_update` of `core/db/repo.py`, over the row store of `Lib.Sql`. The records of the two
channels lie in two tables of one shape; the hashes of the codes are parameters.

A request reads the clock for itself. Time is counted in microseconds.

`isolated_update` is a savepoint within the request's transaction, so that what it writes is rolled back with it.
`lookedUp` is no column: of a record that has been accepted it keeps the records of its contact and purpose that the
look-up has seen, with whether they were used.
-/
import Mathlib.Data.List.MinMax
import LkmService.Lib.Atomic

namespace LkmService.Auth.Codes

open Session Sql Sql.Discipline

/-! ## Rows -/

inductive Channel where
  | email
  | phone
deriving DecidableEq, Repr

structure Verification where
  /-- `email` or `phone` -/
  contact : String
  codeHash : String
  purpose : String
  nonce : String := ""
  expiresAt : ℕ
  used : Bool := false
  failedAttempts : ℕ := 0
  createdAt : ℕ
  lookedUp : List (ℕ × Bool) := []
deriving DecidableEq, Repr

structure RecoveryCode where
  userId : ℕ
  codeHash : String
  used : Bool := false
  failedAttempts : ℕ := 0
deriving DecidableEq, Repr

inductive Tbl where
  | verifications (channel : Channel)
  | recoveryCodes
deriving DecidableEq, Repr

open Tbl

abbrev Row : Tbl → Type
  | .verifications _ => Verification
  | .recoveryCodes => RecoveryCode

/-- neither table has a unique key beside its own -/
inductive Index
deriving DecidableEq

inductive Exn where
  | verificationCodeInvalid
  | verificationCodeExpired
  | recoveryCodeInvalid
  | recoveryLocked
  /-- raised by what the request does next -/
  | refused
deriving DecidableEq, Repr

abbrev Store := Db Row Index Unit

abbrev Prg (α : Type) := Prog (Stmt Row Index (NoFx Unit)) Exn α

/-! ## Constants -/

def maxFailedAttempts : ℕ := 3

def recoveryMaxFailed : ℕ := 3

def codeExpireMinutes : ℕ := 10

def minutes (k : ℕ) : ℕ := k * 60 * 1000000

/-! ## The hashes -/

structure Hashes where
  /-- `hash_code` of the code, the purpose, the contact and the nonce -/
  hashCode : String → String → String → String → String
  hashRecoveryCode : String → String
  legacyHashRecoveryCode : String → String

variable (env : Hashes)

/-- `_recovery_candidate_hashes` -/
def recoveryCandidateHashes (plain : String) : List String :=
  env.hashRecoveryCode plain ::
    if env.legacyHashRecoveryCode plain ≠ env.hashRecoveryCode plain then [env.legacyHashRecoveryCode plain] else []

/-! ## The primitives -/

/-- UPDATE … WHERE p; the answer is the number of rows -/
def updateWhere (t : Tbl) (p : Row t → Bool) (f : Row t → Row t) : Prg ℕ := do
  let rows ← select t fun _ r => p r
  updateAll t p f (rows.map Prod.fst)

/-- UPDATE … WHERE id = n AND p -/
def updateOne (t : Tbl) (n : ℕ) (p : Row t → Bool) (f : Row t → Row t) : Prg ℕ := updateAll t p f [n]

def consumeOnce (update : Prg ℕ) : Prg Bool := do
  let count ← update
  pure (decide (count = 1))

def isolatedUpdate (update : Prg ℕ) : Prg Unit := do
  let _ ← update
  pure ()

/-! ## Verification codes -/

/-- `_create_verification`, with the code and the nonce it has drawn -/
def createVerification (channel : Channel) (contact purpose code nonce : String) (now createdAt : ℕ) : Prg ℕ :=
  insert (verifications channel)
    { contact := contact
      codeHash := env.hashCode code purpose contact nonce
      purpose := purpose
      nonce := nonce
      expiresAt := now + minutes codeExpireMinutes
      createdAt := createdAt }

def Verification.isFor (contact purpose : String) (r : Verification) : Bool :=
  decide (r.contact = contact ∧ r.purpose = purpose)

/-- `VerificationRepository.latest`; of records of one time the store takes any. With what the look-up has seen -/
def latest (channel : Channel) (contact purpose : String) : Prg (Option (ℕ × Verification) × List (ℕ × Bool)) :=
  query fun l =>
    let records := (l (verifications channel)).filter fun q => q.2.isFor contact purpose
    ((records.filter fun q => !q.2.used).argmax fun q => q.2.createdAt, records.map fun q => (q.1, q.2.used))

/-- `failed_stmt` -/
def failedStmt (channel : Channel) (n : ℕ) : Prg ℕ :=
  updateOne (verifications channel) n (fun _ => true) fun r => { r with failedAttempts := r.failedAttempts + 1 }

/-- what `_consume` asks of the record when it takes it -/
def Verification.consumable (now : ℕ) (r : Verification) : Bool :=
  !r.used && decide (r.failedAttempts < maxFailedAttempts) && decide (r.expiresAt > now)

def Verification.matchesCode (code : String) (r : Verification) : Bool :=
  decide (r.codeHash = env.hashCode code r.purpose r.contact r.nonce)

/-- a wrong guess: it is recorded, and the request fails -/
def wrongGuess {α : Type} (channel : Channel) (n : ℕ) : Prg α := do
  isolatedUpdate (failedStmt channel n)
  let _ ← select (verifications channel) fun m _ => decide (m = n)
  .raise .verificationCodeInvalid

/-- `_consume` -/
def consume (channel : Channel) (found : Option (ℕ × Verification)) (lookedUp : List (ℕ × Bool)) (code : String)
    (now : ℕ) : Prg Unit :=
  match found with
  | none => .raise .verificationCodeInvalid
  | some (n, r) =>
    if r.expiresAt ≤ now then .raise .verificationCodeExpired
    else if r.failedAttempts ≥ maxFailedAttempts then .raise .verificationCodeInvalid
    else if r.matchesCode env code = false then wrongGuess channel n
    else do
      let consumed ← consumeOnce (updateOne (verifications channel) n (·.consumable now) fun r =>
        { r with used := true, lookedUp := lookedUp })
      if consumed then pure () else .raise .verificationCodeInvalid

/-- a code that a request brings -/
structure Use where
  channel : Channel
  contact : String
  purpose : String
  code : String
  now : ℕ

/-- `consume_email_code`, `consume_phone_code` -/
def consumeCode (u : Use) : Prg Unit := do
  let (found, lookedUp) ← latest u.channel u.contact u.purpose
  consume env u.channel found lookedUp u.code u.now

def consumeCodes : List Use → Prg Unit
  | [] => pure ()
  | u :: us => do
    consumeCode env u
    consumeCodes us

/-! ## Recovery codes -/

/-- `max_unused_failed_attempts` -/
def maxUnusedFailedAttempts (user : ℕ) : Prg (Option ℕ) := query fun l =>
  (((l recoveryCodes).filter fun q => decide (q.2.userId = user) && !q.2.used).map fun q => q.2.failedAttempts).max?

/-- `_check_recovery_locked` -/
def checkRecoveryLocked (user : ℕ) : Prg Unit := do
  let maxf ← maxUnusedFailedAttempts user
  if maxf.getD 0 ≥ recoveryMaxFailed then .raise .recoveryLocked else pure ()

def RecoveryCode.isUnusedOf (user : ℕ) (r : RecoveryCode) : Bool := decide (r.userId = user) && !r.used

/-- `consume_conditions` -/
def RecoveryCode.consumable (user : ℕ) (hashes : List String) (r : RecoveryCode) : Bool :=
  r.isUnusedOf user && decide (r.codeHash ∈ hashes)

/-- `failure_stmt` -/
def failureStmt (user : ℕ) : Prg ℕ :=
  updateWhere recoveryCodes (·.isUnusedOf user) fun r => { r with failedAttempts := r.failedAttempts + 1 }

/-- `reset_failures` -/
def resetFailures (user : ℕ) : Prg ℕ :=
  updateWhere recoveryCodes (·.isUnusedOf user) fun r => { r with failedAttempts := 0 }

def consumeRecoveryCode (user : ℕ) (recoveryCode : String) : Prg Unit :=
  if recoveryCode = "" then .raise .recoveryCodeInvalid
  else do
    checkRecoveryLocked user
    let consumed ← consumeOnce (updateWhere recoveryCodes
      (·.consumable user (recoveryCandidateHashes env recoveryCode)) fun r => { r with used := true, failedAttempts := 0 })
    if consumed then do
      let _ ← resetFailures user
      pure ()
    else do
      isolatedUpdate (failureStmt user)
      .raise .recoveryCodeInvalid

/-! ## Requests -/

inductive Request where
  | issue (channel : Channel) (contact purpose code nonce : String) (now createdAt : ℕ)
  /-- `proceeds`: whether what the request does with the codes succeeds -/
  | verify (uses : List Use) (proceeds : Bool)
  | recover (user : ℕ) (recoveryCode : String) (proceeds : Bool)

/-- the codes that a request brings -/
def Request.uses : Request → List Use
  | .verify uses _ => uses
  | _ => []

def proceed (proceeds : Bool) : Prg Unit := if proceeds then pure () else .raise .refused

def Request.body : Request → Prg Unit
  | .issue channel contact purpose code nonce now createdAt => do
    let _ ← createVerification env channel contact purpose code nonce now createdAt
    pure ()
  | .verify uses proceeds => do
    consumeCodes env uses
    proceed proceeds
  | .recover user recoveryCode proceeds => do
    consumeRecoveryCode env user recoveryCode
    proceed proceeds

/-- `get_auth_session`: the request commits at its end, and rolls back when it raises -/
def Request.prog (r : Request) : Prg Unit := transaction (r.body env)

end LkmService.Auth.Codes
