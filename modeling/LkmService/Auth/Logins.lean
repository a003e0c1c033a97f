/-
The requests that count failed logins, and those that take the count back (`service_auth.py`, `service_recovery.py`,
`scripts/admin_ops.py`), as sessions over the table of the users.

Each request is a transaction of `get_auth_session`: it commits at its end, and rolls back when it raises. The count goes
up in `isolated_update`, which is a savepoint within that transaction. What an object of the session changes
(`clear_expired_lock`) is flushed before the next statement, and only in the columns that it changes.

The columns of the lock are modelled, with what the gates before it read. The audit log, the notices and the tokens are
left out; `proceeds` says whether what the request does after the password is accepted succeeds.
-/
import LkmService.Lib.Atomic
import LkmService.Auth.Requests

namespace LkmService.Auth.Logins

open Session Sql Sql.Discipline Auth.Requests

/-! ## Rows -/

structure User extends LoginRow where
  username : String
  hashedPassword : String
deriving DecidableEq

inductive Tbl where
  | users
deriving DecidableEq, Repr

open Tbl

abbrev Row : Tbl → Type
  | .users => User

inductive Index
deriving DecidableEq

inductive Exn where
  | refused (r : Refusal)
  /-- a wrong password for the account `n`, which has been counted; the client sees the refusal alone -/
  | failed (n : ℕ) (r : Refusal)
  /-- raised by what the request does next -/
  | other
deriving DecidableEq

abbrev Store := Db Row Index Unit

abbrev Prg (α : Type) := Prog (Stmt Row Index (NoFx Unit)) Exn α

/-! ## The columns of the lock -/

/-- nothing is counted, and nothing is locked -/
def User.Clear (u : User) : Prop := u.failedLoginAttempts = 0 ∧ u.isLocked = false ∧ u.lockedUntil = none

instance (u : User) : Decidable u.Clear := inferInstanceAs (Decidable (_ ∧ _ ∧ _))

/-- the flush of an object that was loaded as `loaded` and whose lock has been taken back: of the three columns those
that have changed are written -/
def flushed (now : ℤ) (loaded u : User) : User :=
  { u with
    isLocked := if loaded.isLocked then false else u.isLocked
    lockedUntil := if loaded.lockedUntil.isSome then none else u.lockedUntil
    failedLoginAttempts := if loaded.failedLoginAttempts ≠ 0 then 0 else u.failedLoginAttempts
    updatedAt := some now }

/-- UPDATE … WHERE id = n -/
def update (n : ℕ) (f : User → User) : Prg Unit := do
  let _ ← updateRow users n (fun _ => true) f
  pure ()

/-- `isolated_update` of a statement that the database takes -/
def isolatedUpdate (n : ℕ) (stmt : LoginRow → LoginRow) : Prg Unit :=
  update n fun u => { u with toLoginRow := stmt u.toLoginRow }

def refresh (n : ℕ) : Prg Unit := do
  let _ ← select users fun m _ => decide (m = n)
  pure ()

/-! ## Logins -/

/-- `verifypwd`; `none` where it raises -/
abbrev Verify := String → String → Option Bool

variable (verifypwd : Verify)

/-- a password for an account, with the two readings of the clock: at the gate, and at the statement that counts -/
structure Attempt where
  account : String
  password : String
  now : ℤ
  later : ℤ
  proceeds : Bool

def User.hasIdentity (account : String) (u : User) : Bool :=
  decide (u.username = account) ||
    decide (account ≠ "") && (decide (u.email = some account) || decide (u.phone = some account))

/-- `_check_account_locked`, on the object that was loaded -/
def gate (now : ℤ) (loaded : User) : Prg User :=
  match checkAccountLocked now loaded.toLoginRow with
  | .ok row => pure { loaded with toLoginRow := row }
  | .error e => .raise (.refused e.refusal)

def admission (u : User) : Prg Unit :=
  match assertAdmissionAllowed u.toLoginRow with
  | .ok _ => pure ()
  | .error e => .raise (.refused e.refusal)

/-- the flush of an expired lock that the gate has taken back -/
def flushGate (n : ℕ) (now : ℤ) (loaded u : User) : Prg Unit :=
  if u.isLocked = loaded.isLocked then pure () else update n (flushed now loaded)

/-- `_record_failed_attempt`, and the refusal after it -/
def recordFailedAttempt (n : ℕ) (q : Attempt) (loaded u : User) (r : Refusal) : Prg Unit := do
  flushGate n q.now loaded u
  isolatedUpdate n (failedLogin q.later)
  refresh n
  .raise (.failed n r)

def proceed (proceeds : Bool) : Prg Unit := if proceeds then pure () else .raise .other

/-- `login_password` and `verify_credentials` -/
def loginPassword (q : Attempt) : Prg Unit := do
  let rows ← select users fun _ u => u.hasIdentity q.account
  match rows.head? with
  | none => .raise (.refused .invalidCredentials)
  | some (n, loaded) =>
    let u ← gate q.now loaded
    -- a `verifypwd` that raises is a wrong password
    if (verifypwd q.password u.hashedPassword).getD false then do
      admission u
      flushGate n q.now loaded u
      isolatedUpdate n (resetLoginFailures q.later)
      refresh n
      proceed q.proceeds
    else recordFailedAttempt n q loaded u .invalidCredentials

/-- `register_local` on a name that is taken, with `_login_or_error` -/
def registerLocal (q : Attempt) : Prg Unit := do
  let rows ← select users fun _ u => decide (u.username = q.account)
  match rows.head? with
  | none => .raise .other
  | some (n, loaded) =>
    let u ← gate q.now loaded
    if u.hashedPassword = "" then recordFailedAttempt n q loaded u .alreadyRegistered
    else
      match verifypwd q.password u.hashedPassword with
      | none => .raise .other
      | some false => recordFailedAttempt n q loaded u .alreadyRegistered
      | some true =>
        flushGate n q.now loaded u
        proceed q.proceeds

/-- a login by code, link, passkey or provider -/
def loginWithout (q : Attempt) : Prg Unit := do
  let rows ← select users fun _ u => u.hasIdentity q.account
  match rows.head? with
  | none => .raise (.refused .userNotFound)
  | some (n, loaded) =>
    let u ← gate q.now loaded
    admission u
    flushGate n q.now loaded u
    proceed q.proceeds

/-! ## Resets -/

/-- some column of the lock is to be written -/
def User.marked (u : User) : Bool := u.isLocked || u.lockedUntil.isSome || decide (u.failedLoginAttempts ≠ 0)

/-- `cmd_unlock` -/
def cmdUnlock (username : String) (now : ℤ) : Prg Unit := do
  let rows ← select users fun _ u => decide (u.username = username)
  match rows.head? with
  | none => pure ()
  | some (n, loaded) => if loaded.marked then update n (flushed now loaded) else pure ()

/-- `_reset_password` -/
def resetPassword (account hash : String) (now : ℤ) : Prg Unit := do
  let rows ← select users fun _ u => u.hasIdentity account
  match rows.head? with
  | none => .raise (.refused .userNotFound)
  | some (n, loaded) => update n fun u => { flushed now loaded u with hashedPassword := hash }

/-! ## Requests -/

inductive Request where
  | loginPassword (q : Attempt)
  | registerLocal (q : Attempt)
  | loginWithout (q : Attempt)
  | cmdUnlock (username : String) (now : ℤ)
  | resetPassword (account hash : String) (now : ℤ)

def Request.body : Request → Prg Unit
  | .loginPassword q => Logins.loginPassword verifypwd q
  | .registerLocal q => Logins.registerLocal verifypwd q
  | .loginWithout q => Logins.loginWithout q
  | .cmdUnlock username now => Logins.cmdUnlock username now
  | .resetPassword account hash now => Logins.resetPassword account hash now

/-- `get_auth_session` -/
def Request.prog (r : Request) : Prg Unit := transaction (r.body verifypwd)

end LkmService.Auth.Logins
