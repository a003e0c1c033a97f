/-
The requests that write a row of `users`, and the session that commits or rolls back each of them
(`service_auth.py`, `service_recovery.py`, `service_admission.py`, `account_state.py`, `router_settings.py`,
`repository.py`, `models.py`, `auth/db/session.py`, `scripts/admin_ops.py`).

`updated_at` is declared with `onupdate=now_iso`: every UPDATE of the row stamps it, whichever columns it sets.
-/
import LkmService.Auth.Authz

namespace LkmService.Auth.Requests

/-! ## The row -/

deriving instance DecidableEq for UserRow

structure LoginRow extends UserRow where
  failedLoginAttempts : ℕ
  deriving DecidableEq

inductive Refusal where
  | userNotFound
  | invalidCredentials
  | alreadyRegistered
  | admissionPending
  | admissionRejected
  | codeInvalid
  | conflict
  | invalidInput
  deriving DecidableEq

/-- an exception that leaves the request, with the row as its transaction has it by then -/
structure Raised where
  refusal : Refusal
  row : LoginRow

/-- `get_auth_session`: the commit flushes what the request changed in the row, and the flush stamps it; an exception
rolls everything back, the released savepoints too -/
def getAuthSession (now : ℤ) (before : LoginRow) : Except Raised LoginRow → LoginRow
  | .ok row => if row = before then before else { row with updatedAt := some now }
  | .error _ => before

/-! ## The gates and the statements -/

def clearExpiredLock (now : ℤ) (row : LoginRow) : LoginRow :=
  match row.isLocked, row.lockedUntil with
  | false, _ => row
  | true, none => row
  | true, some lockedUntil =>
    if lockedUntil > now then row
    else { row with isLocked := false, lockedUntil := none, failedLoginAttempts := 0 }

/-- `_check_account_locked` -/
def checkAccountLocked (now : ℤ) (row : LoginRow) : Except Raised LoginRow :=
  if row.isLocked = false then .ok row
  else if lockIsActive now row.toUserRow then .error ⟨.invalidCredentials, row⟩
  else .ok (clearExpiredLock now row)

def assertAdmissionAllowed (row : LoginRow) : Except Raised LoginRow :=
  if row.admissionStatus = "pending" then .error ⟨.admissionPending, row⟩
  else if row.admissionStatus = "rejected" then .error ⟨.admissionRejected, row⟩
  else .ok row

def failLockThreshold : ℕ := 5

/-- fifteen minutes -/
def failLockMinutes : ℤ := 900000000

/-- `failed_login_stmt` -/
def failedLogin (now : ℤ) (row : LoginRow) : LoginRow :=
  { row with
    failedLoginAttempts := row.failedLoginAttempts + 1
    isLocked := decide (row.failedLoginAttempts ≥ failLockThreshold - 1)
    lockedUntil := if row.failedLoginAttempts ≥ failLockThreshold - 1 then some (now + failLockMinutes) else row.lockedUntil
    updatedAt := some now }

/-- `reset_login_failures_stmt` -/
def resetLoginFailures (now : ℤ) (row : LoginRow) : LoginRow :=
  { row with failedLoginAttempts := 0, isLocked := false, lockedUntil := none, updatedAt := some now }

/-- `isolated_update`: a statement that the database refuses leaves the row alone and is not reported -/
def isolatedUpdate (taken : Bool) (stmt : LoginRow → LoginRow) (row : LoginRow) : LoginRow :=
  if taken then stmt row else row

/-- an empty text counts as none -/
def truthy (value : Option String) : Bool := value.any (· ≠ "")

/-- `if value and not user.column: user.column = value` -/
def filled (column value : Option String) : Option String :=
  if truthy value && !truthy column then value else column

def upgradeToNormal (row : LoginRow) : LoginRow := { row with toAccount := Auth.upgradeToNormal row.toAccount }

/-- the gates of `issue_session_tokens`, where every sign-in ends -/
def issueSessionTokens (now : ℤ) (row : LoginRow) : Except Raised LoginRow :=
  (checkAccountLocked now row).bind assertAdmissionAllowed

/-! ## The requests -/

/-- `login_password`, and `verify_credentials` before its answer -/
def loginPassword (now : ℤ) (passwordOk taken : Bool) (row : LoginRow) : Except Raised LoginRow :=
  (checkAccountLocked now row).bind fun row =>
    if passwordOk then
      (assertAdmissionAllowed row).bind fun row =>
        issueSessionTokens now (isolatedUpdate taken (resetLoginFailures now) row)
    else .error ⟨.invalidCredentials, isolatedUpdate taken (failedLogin now) row⟩

/-- `_login_or_error` -/
def loginOrError (now : ℤ) (passwordOk taken : Bool) (email phone : Option String) (row : LoginRow) :
    Except Raised LoginRow :=
  (checkAccountLocked now row).bind fun row =>
    if passwordOk then
      .ok (upgradeToNormal { row with email := filled row.email email, phone := filled row.phone phone })
    else .error ⟨.alreadyRegistered, isolatedUpdate taken (failedLogin now) row⟩

/-- `register_local` on a name that is taken -/
def registerLocal (now : ℤ) (passwordOk taken : Bool) (row : LoginRow) : Except Raised LoginRow :=
  (loginOrError now passwordOk taken none none row).bind (issueSessionTokens now)

/-- `register_by_verify` on a contact that is taken -/
def registerByVerify (now : ℤ) (row : LoginRow) : Except Raised LoginRow :=
  (checkAccountLocked now row).bind fun row => issueSessionTokens now (upgradeToNormal row)

/-- `consume_pending_normal_registration` on an identity that is taken -/
def consumePendingRegistration (now : ℤ) (passwordOk : Bool) (email phone : Option String) (row : LoginRow) :
    Except Raised LoginRow :=
  if passwordOk then
    issueSessionTokens now
      (upgradeToNormal { row with email := filled row.email email, phone := filled row.phone phone })
  else .error ⟨.alreadyRegistered, row⟩

inductive Contact where
  | email
  | phone
  deriving DecidableEq

def contactOf : Contact → LoginRow → Option String
  | .email, row => row.email
  | .phone, row => row.phone

def setContact : Contact → Option String → LoginRow → LoginRow
  | .email, value, row => { row with email := value }
  | .phone, value, row => { row with phone := value }

/-- `bind_email_verify`, `bind_phone_verify`; `taken` is what the look-up of the contact finds -/
def bindVerify (contact : Contact) (value : String) (codeOk taken : Bool) (row : LoginRow) : Except Raised LoginRow :=
  if codeOk = false then .error ⟨.codeInvalid, row⟩
  else if taken then .error ⟨.alreadyRegistered, row⟩
  else .ok (upgradeToNormal (setContact contact (some value) row))

def countLoginWays (row : LoginRow) (oauthBindings : Bool) : ℕ :=
  (truthy row.email).toNat + (truthy row.phone).toNat + oauthBindings.toNat

/-- `unbind` of an e-mail address or a phone number -/
def unbind (contact : Contact) (secondFactorOk oauthBindings : Bool) (row : LoginRow) : Except Raised LoginRow :=
  if secondFactorOk = false then .error ⟨.codeInvalid, row⟩
  else if countLoginWays row oauthBindings ≤ 1 then .error ⟨.invalidInput, row⟩
  else if truthy (contactOf contact row) = false then .error ⟨.invalidInput, row⟩
  else .ok (setContact contact none row)

/-- `decide_admission`; the columns about the review are not among ours -/
def decideAdmission (approve : Bool) (row : LoginRow) : Except Raised LoginRow :=
  if (if row.admissionStatus = "" then "active" else row.admissionStatus) ≠ "pending" then .error ⟨.conflict, row⟩
  else if approve then .ok { row with admissionStatus := "active" }
  else .ok { row with admissionStatus := "rejected", tokenVersion := row.tokenVersion + 1 }

/-- `cmd_unlock` -/
def cmdUnlock (row : LoginRow) : LoginRow := { row with isLocked := false, lockedUntil := none, failedLoginAttempts := 0 }

/-- `bump_token_version` -/
def bumpTokenVersion (now : ℤ) (row : LoginRow) : LoginRow :=
  { row with tokenVersion := row.tokenVersion + 1, updatedAt := some now }

/-- `_reset_password`: here `updated_at` is set on purpose, so that the access tokens given out fail -/
def resetPassword (now : ℤ) (row : LoginRow) : LoginRow :=
  bumpTokenVersion now { row with isLocked := false, lockedUntil := none, failedLoginAttempts := 0, updatedAt := some now }

/-- a request on the row of one user, with what it learns from elsewhere -/
inductive Call where
  | loginPassword (passwordOk taken : Bool)
  /-- a code, a magic link, a passkey, OAuth, a step-up, a refresh: nothing of the row but the gates -/
  | signIn
  | registerLocal (passwordOk taken : Bool)
  | registerByVerify
  | consumePendingRegistration (passwordOk : Bool) (email phone : Option String)
  | bindVerify (contact : Contact) (value : String) (codeOk taken : Bool)
  | unbind (contact : Contact) (secondFactorOk oauthBindings : Bool)
  /-- `update_profile`, `update_avatar`: the row of `profiles` only -/
  | updateProfile
  | decideAdmission (approve : Bool)
  | cmdUnlock
  | resetPassword
  /-- `revoke_all_refresh_tokens` -/
  | revokeAll
  /-- `set_user_role`, the two unlocks and the 2FA of an admin switched off, with the account they leave -/
  | changeRole (account : Account)

def serve (now : ℤ) : Call → LoginRow → Except Raised LoginRow
  | .loginPassword passwordOk taken, row => loginPassword now passwordOk taken row
  | .signIn, row => issueSessionTokens now row
  | .registerLocal passwordOk taken, row => registerLocal now passwordOk taken row
  | .registerByVerify, row => registerByVerify now row
  | .consumePendingRegistration passwordOk email phone, row => consumePendingRegistration now passwordOk email phone row
  | .bindVerify contact value codeOk taken, row => bindVerify contact value codeOk taken row
  | .unbind contact secondFactorOk oauthBindings, row => unbind contact secondFactorOk oauthBindings row
  | .updateProfile, row => .ok row
  | .decideAdmission approve, row => decideAdmission approve row
  | .cmdUnlock, row => .ok (cmdUnlock row)
  | .resetPassword, row => .ok (resetPassword now row)
  | .revokeAll, row => .ok (bumpTokenVersion now row)
  | .changeRole account, row => .ok { row with toAccount := account }

/-! ## The service -/

structure Realm where
  policy : Policy
  now : ℤ
  rows : UserId → Option LoginRow
  revoked : String → Bool
  blocked : String → Bool
  cachedVersion : UserId → Option ℤ
  parseInt : String → Option ℤ

/-- what the two paths of authorisation read -/
def Realm.world (r : Realm) : World :=
  { policy := r.policy
    now := r.now
    users := fun user => (r.rows user).map LoginRow.toUserRow
    revoked := r.revoked
    blocked := r.blocked
    cachedVersion := r.cachedVersion
    parseInt := r.parseInt }

inductive Op where
  | request (user : UserId) (call : Call)
  /-- a registration that finds nobody -/
  | createUser (user : UserId) (row : LoginRow)
  /-- a logout names the id of its access token -/
  | revokeAccessToken (jti : String)
  /-- keys that expire, or a Redis that is lost or out of reach -/
  | redisForgets (jtis : String → Bool) (users : UserId → Bool)

/-- the version that `bump_token_version` writes to Redis, before the commit -/
def Call.announces (row : LoginRow) : Call → Option ℤ
  | .resetPassword => some (row.tokenVersion + 1)
  | .revokeAll => some (row.tokenVersion + 1)
  | .decideAdmission false => if row.admissionStatus = "pending" then some (row.tokenVersion + 1) else none
  | _ => none

/-- one operation, `elapsed` microseconds after the last -/
def step (r : Realm) (elapsed : ℕ) (op : Op) : Realm :=
  let now := r.now + elapsed
  match op with
  | .request user call =>
    { r with
      now := now
      rows := Function.update r.rows user ((r.rows user).map fun row => getAuthSession now row (serve now call row))
      cachedVersion := fun other =>
        if other = user then ((r.rows user).bind call.announces).or (r.cachedVersion other) else r.cachedVersion other }
  | .createUser user row =>
    { r with now := now, rows := if (r.rows user).isNone then Function.update r.rows user (some row) else r.rows }
  | .revokeAccessToken jti =>
    { r with
      now := now
      revoked := fun other => other = jti || r.revoked other
      blocked := fun other => other = jti || r.blocked other }
  | .redisForgets jtis users =>
    { r with
      now := now
      blocked := fun jti => r.blocked jti && !jtis jti
      cachedVersion := fun user => if users user then none else r.cachedVersion user }

def runOps (r : Realm) : List (ℕ × Op) → Realm
  | [] => r
  | (elapsed, op) :: rest => runOps (step r elapsed op) rest

end LkmService.Auth.Requests
