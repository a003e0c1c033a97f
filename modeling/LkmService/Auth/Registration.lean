/-
The two registrations with a password, on an account that exists already (`service_auth.py`: `register_local` with
`_login_or_error`, `store_pending_normal_registration` and `consume_pending_normal_registration`; `security.py`).

Both are meant as a login with the password. The first step of the registration in two steps keeps a hash of the password, and
the second hands that hash to `verifypwd` as if it were the password; it has no gate for a lock and counts nothing.

What argon2 computes is a parameter, and so is which contact codes are right. The rows are as the request's transaction has them
when the function returns or raises. The audit log, the notices and the reason of an application are left out.

- `registerLocal_eq`, `consumePending_eq`: on an account that exists both are the requests of `Auth/Requests`, the one with the
  verdict on the password, the other with the verdict on its hash.
- `alike_iff`: when the two treat the account alike.
- `right_password_refused`: the right password logs in through the one and is refused by the other.
-/
import LkmService.Auth.Issuance
import LkmService.Lib.Text

namespace LkmService.Auth.Registration

open Auth.Requests Text

/-! ## Passwords -/

/-- argon2; a hash depends on the salt that is drawn for it -/
structure PasswordHasher where
  hash : (salt raw : Text) → Text
  verify : (stored raw : Text) → Bool

def passwordMaxLength : ℕ := 1024

/-- `none` where it raises -/
def hashpwd (ph : PasswordHasher) (salt raw : Text) : Option Text :=
  if raw.length > passwordMaxLength then none else some (ph.hash salt raw)

def verifypwd (ph : PasswordHasher) (raw stored : Text) : Bool :=
  if raw.length > passwordMaxLength then false else ph.verify stored raw

/-! ## Rows -/

structure User extends LoginRow where
  id : ℕ
  username : Text
  hashedPassword : Text
deriving DecidableEq

structure PendingRegistration where
  txnId : Text
  username : Text
  hashedPassword : Text
  email : Option String
  phone : Option String
  consumed : Bool
  expiresAt : ℤ
deriving DecidableEq

structure Db where
  users : List User
  pending : List PendingRegistration
deriving DecidableEq

def Db.put (u : User) (db : Db) : Db := { db with users := db.users.map fun v => if v.id = u.id then u else v }

/-- `update(pending, consumed=True)` -/
def Db.consume (txnId : Text) (db : Db) : Db :=
  { db with pending := db.pending.map fun p => if p.txnId = txnId then { p with consumed := true } else p }

inductive Exn where
  | refused (r : Refusal)
  | tokenInvalid
  | tokenExpired
  /-- a contact without its code -/
  | assertion
  deriving DecidableEq

inductive Response where
  | tokens (userId : ℕ) (accountLevel : String)
  /-- the application waits for its review -/
  | waits (userId : ℕ) (accountLevel : String)
  deriving DecidableEq

/-- what a function leaves -/
structure Left where
  result : Except Exn Response
  db : Db

/-- tokens for the account, or an exception -/
def Db.answer (db : Db) (u : User) : Except Raised LoginRow → Left
  | .ok row => ⟨.ok (.tokens u.id row.level), db.put { u with toLoginRow := row }⟩
  | .error e => ⟨.error (.refused e.refusal), db.put { u with toLoginRow := e.row }⟩

/-- `_normalize_username` -/
def normalizeUsername (username : Text) : Text := strip username

/-- `_normalize_email` -/
def normalizeEmail (email : String) : String := String.ofList (strip email.toList)

/-- the test that the functions make of a stored hash: that there is one, and that it accepts the text -/
def User.accepts (ph : PasswordHasher) (raw : Text) (u : User) : Bool :=
  decide (u.hashedPassword ≠ []) && verifypwd ph raw u.hashedPassword

/-! ## Accounts that are made -/

/-- the settings and the inputs of a request that are no part of the rows -/
structure Env where
  ph : PasswordHasher
  now : ℤ
  /-- `admission_mode == "apply"` -/
  apply : Bool
  newId : ℕ
  salt : Text
  /-- whether a code for a contact is right -/
  codes : Contact → String → String → Bool

/-- the unique columns of `users` -/
def User.clashes (u v : User) : Bool :=
  decide (v.username = u.username) || (u.email.isSome && decide (v.email = u.email)) ||
    (u.phone.isSome && decide (v.phone = u.phone))

/-- `build_registration_response` -/
def buildRegistrationResponse (now : ℤ) (u : User) (db : Db) : Left :=
  if admissionIsActive u.toUserRow then db.answer u (issueSessionTokens now u.toLoginRow)
  else ⟨.ok (.waits u.id u.level), db⟩

/-- `create_user_with_profile`, and the answer to it -/
def createUser (env : Env) (level : String) (username hashedPassword : Text) (email phone : Option String) (db : Db) : Left :=
  let u : User :=
    { toLoginRow := Issuance.newRow env.now env.apply level email phone
      id := env.newId
      username := username
      hashedPassword := hashedPassword }
  if db.users.any u.clashes then ⟨.error (.refused .alreadyRegistered), db⟩
  else buildRegistrationResponse env.now u { db with users := db.users ++ [u] }

/-! ## The registrations -/

/-- a password that is too long raises; the schema refuses it before -/
def registerLocal (env : Env) (username password : Text) (db : Db) : Left :=
  match db.users.find? fun u => decide (u.username = normalizeUsername username) with
  | some u => db.answer u (Requests.registerLocal env.now (u.accepts env.ph password) true u.toLoginRow)
  | none =>
    match hashpwd env.ph env.salt password with
    | none => ⟨.error (.refused .invalidInput), db⟩
    | some hashed => createUser env "local" (normalizeUsername username) hashed none none db

/-- the form of the first step, with the time, the number and the salt that are drawn for it -/
structure FirstStep where
  username : Text
  password : Text
  email : Option String
  phone : Option String
  now : ℤ
  txnId : Text
  salt : Text

/-- fifteen minutes -/
def pendingLifetime : ℤ := 900000000

/-- `store_pending_normal_registration` -/
def storePending (ph : PasswordHasher) (q : FirstStep) : Option PendingRegistration := do
  let hashed ← hashpwd ph q.salt q.password
  pure
    { txnId := q.txnId
      username := normalizeUsername q.username
      hashedPassword := hashed
      email := if truthy q.email then q.email.map normalizeEmail else none
      phone := q.phone
      consumed := false
      expiresAt := q.now + pendingLifetime }

structure SecondStep where
  txnId : Text
  emailCode : Option String
  phoneCode : Option String

/-- the code of a contact that has been given -/
def consumeCode (env : Env) (contact : Contact) (value code : Option String) : Except Exn Unit :=
  match value with
  | none => .ok ()
  | some value =>
    if value = "" then .ok ()
    else
      match code with
      | none => .error .assertion
      | some code => if env.codes contact value code then .ok () else .error (.refused .codeInvalid)

def consumeCodes (env : Env) (pending : PendingRegistration) (s : SecondStep) : Except Exn Unit := do
  consumeCode env .email pending.email s.emailCode
  consumeCode env .phone pending.phone s.phoneCode

/-- `find_by_identity` -/
def User.hasIdentity (pending : PendingRegistration) (u : User) : Bool :=
  decide (u.username = pending.username) || (truthy pending.email && decide (u.email = pending.email)) ||
    (truthy pending.phone && decide (u.phone = pending.phone))

/-- `consume_pending_normal_registration` -/
def consumePending (env : Env) (s : SecondStep) (db : Db) : Left :=
  match db.pending.find? fun p => decide (p.txnId = s.txnId) with
  | none => ⟨.error .tokenInvalid, db⟩
  | some pending =>
    if pending.consumed then ⟨.error .tokenInvalid, db⟩
    else if pending.expiresAt ≤ env.now then ⟨.error .tokenExpired, db⟩
    else
      match consumeCodes env pending s with
      | .error e => ⟨.error e, db⟩
      | .ok () =>
        match db.users.find? (User.hasIdentity pending) with
        | some u =>
          -- the hash stands where the password is expected
          (db.consume s.txnId).answer u (Requests.consumePendingRegistration env.now
            (u.accepts env.ph pending.hashedPassword) pending.email pending.phone u.toLoginRow)
        | none =>
          createUser env "normal" pending.username pending.hashedPassword pending.email pending.phone (db.consume s.txnId)

/-! ## The law -/

/-- the account as it is left -/
def Left.account (l : Left) (u : User) : Option User := l.db.users.find? fun v => decide (v.id = u.id)

def Left.LogsIn (l : Left) (u : User) : Prop := ∃ level, l.result = .ok (.tokens u.id level)

def Left.Refuses (l : Left) : Prop := ∃ e, l.result = .error e

/-- what a failed attempt counts and locks -/
def lockColumns (row : LoginRow) : ℕ × Bool × Option ℤ := (row.failedLoginAttempts, row.isLocked, row.lockedUntil)

structure Alike (now : ℤ) (u : User) (one two : Left) : Prop where
  logsIn : two.LogsIn u ↔ one.LogsIn u
  refuses : ¬ two.LogsIn u → two.Refuses ∧ (two.account u).map (fun v => lockColumns v.toLoginRow) = (one.account u).map fun v => lockColumns v.toLoginRow
  locked : lockIsActive now u.toUserRow = true →
    (one.Refuses ∧ one.account u = some u) ∧ two.Refuses ∧ two.account u = some u

/-- the second step is taken in time, with the right codes, and finds the account -/
structure Completes (env : Env) (q : FirstStep) (pending : PendingRegistration) (s : SecondStep) (db : Db) (u : User) : Prop where
  stored : storePending env.ph q = some pending
  there : db.pending.find? (fun p => decide (p.txnId = s.txnId)) = some pending
  inTime : env.now < pending.expiresAt
  codes : consumeCodes env pending s = .ok ()
  found : db.users.find? (User.hasIdentity pending) = some u
  account : db.users.find? (fun v => decide (v.id = u.id)) = some u

/-- neither a contact to bind nor a level to raise -/
def NothingToBind (pending : PendingRegistration) (row : LoginRow) : Prop :=
  row.level ≠ "local" ∧ (truthy pending.email = true → truthy row.email = true) ∧
    (truthy pending.phone = true → truthy row.phone = true)

/-- neither waiting nor turned down -/
def admitted (row : LoginRow) : Bool := decide (row.admissionStatus ≠ "pending") && decide (row.admissionStatus ≠ "rejected")

/-- under a lock the hash has to be refused, or nothing to be bound; else the password has to be right, and the hash too, unless
the account is not admitted and has no lock that has run out -/
def Agree (env : Env) (p : Text) (pending : PendingRegistration) (u : User) : Prop :=
  if lockIsActive env.now u.toUserRow then u.accepts env.ph pending.hashedPassword = false ∨ NothingToBind pending u.toLoginRow
  else u.accepts env.ph p = true ∧
    (u.accepts env.ph pending.hashedPassword = true ∨ admitted u.toLoginRow = false ∧ u.isLocked = false)

/-! ## The gates -/

variable {now : ℤ} {row : LoginRow} {u : User} {env : Env} {db : Db} {pending : PendingRegistration} {q : FirstStep}
  {s : SecondStep} {e : Raised} {ok : Bool} {email phone : Option String}

/-- the row after a lock that has run out is cleared -/
theorem checkAccountLocked_free (h : lockIsActive now row.toUserRow = false) :
    checkAccountLocked now row = .ok (clearExpiredLock now row) ∧ (clearExpiredLock now row).isLocked = false := by
  cases hlocked : row.isLocked with
  | false => simp [checkAccountLocked, clearExpiredLock, hlocked]
  | true =>
    cases huntil : row.lockedUntil with
    | none => simp [lockIsActive, hlocked, huntil] at h
    | some lockedUntil =>
      have hover : ¬ lockedUntil > now := by simpa [lockIsActive, hlocked, huntil] using h
      simp [checkAccountLocked, h, hlocked, clearExpiredLock, huntil, hover]

theorem checkAccountLocked_active (h : lockIsActive now row.toUserRow = true) :
    checkAccountLocked now row = .error ⟨.invalidCredentials, row⟩ := by
  have hlocked : row.isLocked = true := by
    rw [lockIsActive, Bool.and_eq_true] at h
    exact h.1
  simp [checkAccountLocked, hlocked, h]

/-- a row without a lock passes the gate as it is -/
theorem issueSessionTokens_unlocked (h : row.isLocked = false) : issueSessionTokens now row = assertAdmissionAllowed row := by
  simp [issueSessionTokens, checkAccountLocked, h, Except.bind]

/-! ## The two requests -/

/-- the contacts are bound, and the level is raised -/
def bound (email phone : Option String) (row : LoginRow) : LoginRow :=
  Requests.upgradeToNormal { row with email := filled row.email email, phone := filled row.phone phone }

@[simp] theorem bound_lockIsActive : lockIsActive now (bound email phone row).toUserRow = lockIsActive now row.toUserRow := rfl

@[simp] theorem lockColumns_bound : lockColumns (bound email phone row) = lockColumns row := rfl

@[simp] theorem admitted_bound : admitted (bound email phone row) = admitted row := rfl

theorem registerLocal_active (h : lockIsActive now row.toUserRow = true) :
    Requests.registerLocal now ok true row = .error ⟨.invalidCredentials, row⟩ := by
  simp [Requests.registerLocal, loginOrError, checkAccountLocked_active h, Except.bind]

theorem registerLocal_wrong (h : lockIsActive now row.toUserRow = false) :
    Requests.registerLocal now false true row = .error ⟨.alreadyRegistered, failedLogin now (clearExpiredLock now row)⟩ := by
  simp [Requests.registerLocal, loginOrError, (checkAccountLocked_free h).1, Except.bind, isolatedUpdate]

theorem registerLocal_right (h : lockIsActive now row.toUserRow = false) :
    Requests.registerLocal now true true row = assertAdmissionAllowed (bound none none (clearExpiredLock now row)) := by
  obtain ⟨hgate, hfree⟩ := checkAccountLocked_free h
  have hissue : issueSessionTokens now (bound none none (clearExpiredLock now row)) = _ := issueSessionTokens_unlocked hfree
  simpa [Requests.registerLocal, loginOrError, hgate, Except.bind, bound] using hissue

theorem clearExpiredLock_bound :
    clearExpiredLock now (bound email phone row) = bound email phone (clearExpiredLock now row) := by
  have hlocked : (bound email phone row).isLocked = row.isLocked := rfl
  have huntil : (bound email phone row).lockedUntil = row.lockedUntil := rfl
  unfold clearExpiredLock
  rw [hlocked, huntil]
  split
  · rfl
  · rfl
  · split_ifs
    · rfl
    · rfl

theorem consume_accepted : Requests.consumePendingRegistration now true email phone row =
    issueSessionTokens now (bound email phone row) := rfl

theorem consume_active (h : lockIsActive now row.toUserRow = true) :
    Requests.consumePendingRegistration now true email phone row = .error ⟨.invalidCredentials, bound email phone row⟩ := by
  have hgate := checkAccountLocked_active (bound_lockIsActive.trans h : lockIsActive now (bound email phone row).toUserRow = true)
  rw [consume_accepted, issueSessionTokens, hgate]
  rfl

theorem consume_right (h : lockIsActive now row.toUserRow = false) :
    Requests.consumePendingRegistration now true email phone row =
      assertAdmissionAllowed (bound email phone (clearExpiredLock now row)) := by
  have hgate := (checkAccountLocked_free
    (bound_lockIsActive.trans h : lockIsActive now (bound email phone row).toUserRow = false)).1
  rw [consume_accepted, issueSessionTokens, hgate, clearExpiredLock_bound]
  rfl

theorem filled_eq_iff {column value : Option String} :
    filled column value = column ↔ (truthy value = true → truthy column = true) := by
  unfold filled
  cases hv : truthy value with
  | false => simp
  | true =>
    cases hc : truthy column with
    | true => simp
    | false =>
      simp only [Bool.not_false, Bool.and_self, if_true, forall_const, Bool.false_eq_true, iff_false]
      rintro rfl
      rw [hv] at hc
      cases hc

theorem upgradeToNormal_eq_iff : Requests.upgradeToNormal row = row ↔ row.level ≠ "local" := by
  by_cases hlevel : row.level = "local"
  · refine iff_of_false (fun h => ?_) (not_not_intro hlevel)
    have hraised : (Requests.upgradeToNormal row).level = "normal" := by simp [Requests.upgradeToNormal, upgradeToNormal, hlevel]
    rw [h, hlevel] at hraised
    exact absurd hraised (by decide)
  · exact iff_of_true (by simp [Requests.upgradeToNormal, upgradeToNormal, hlevel]) hlevel

theorem bound_eq_iff : bound pending.email pending.phone row = row ↔ NothingToBind pending row := by
  rw [NothingToBind, ← filled_eq_iff, ← filled_eq_iff, ← upgradeToNormal_eq_iff]
  refine ⟨fun h => ?_, fun ⟨hlevel, hemail, hphone⟩ => ?_⟩
  · have hemail : filled row.email pending.email = row.email := congrArg (fun r : LoginRow => r.email) h
    have hphone : filled row.phone pending.phone = row.phone := congrArg (fun r : LoginRow => r.phone) h
    rw [bound, hemail, hphone] at h
    exact ⟨h, hemail, hphone⟩
  · rw [bound, hemail, hphone]
    exact hlevel

/-! ## Counts -/

theorem lockColumns_clear_iff (h : lockIsActive now row.toUserRow = false) :
    lockColumns row = lockColumns (clearExpiredLock now row) ↔ row.isLocked = false := by
  refine ⟨fun hsame => ?_, fun hlocked => by simp [clearExpiredLock, hlocked]⟩
  have hfree := (checkAccountLocked_free h).2
  have hcolumn : row.isLocked = (clearExpiredLock now row).isLocked := congrArg (fun c => c.2.1) hsame
  rw [hcolumn, hfree]

/-- a failed attempt leaves a trace in the columns -/
theorem lockColumns_failedLogin_ne (h : lockIsActive now row.toUserRow = false) :
    lockColumns row ≠ lockColumns (failedLogin now (clearExpiredLock now row)) := by
  intro hsame
  have hcount : row.failedLoginAttempts = (clearExpiredLock now row).failedLoginAttempts + 1 := congrArg Prod.fst hsame
  have hlock : row.isLocked = decide ((clearExpiredLock now row).failedLoginAttempts ≥ failLockThreshold - 1) :=
    congrArg (fun c => c.2.1) hsame
  cases hlocked : row.isLocked with
  | false => simp [clearExpiredLock, hlocked] at hcount
  | true =>
    -- the lock that has run out is cleared with its count, and one attempt does not lock again
    cases huntil : row.lockedUntil with
    | none => simp [lockIsActive, hlocked, huntil] at h
    | some lockedUntil =>
      have hover : ¬ lockedUntil > now := by simpa [lockIsActive, hlocked, huntil] using h
      simp [clearExpiredLock, hlocked, huntil, hover, failLockThreshold] at hlock

/-! ## What is left -/

/-- the row that a request leaves, whether it raises or not -/
def rowOf : Except Raised LoginRow → LoginRow
  | .ok row => row
  | .error e => e.row

theorem isOk_assertAdmissionAllowed (row : LoginRow) : (assertAdmissionAllowed row).isOk = admitted row := by
  unfold assertAdmissionAllowed admitted
  split_ifs with hp hr
  · simp [hp, Except.isOk, Except.toBool]
  · simp [hr, Except.isOk, Except.toBool]
  · simp [hp, hr, Except.isOk, Except.toBool]

theorem rowOf_assertAdmissionAllowed (row : LoginRow) : rowOf (assertAdmissionAllowed row) = row := by
  unfold assertAdmissionAllowed
  split_ifs
  · rfl
  · rfl
  · rfl

@[simp] theorem admitted_clearExpiredLock : admitted (clearExpiredLock now row) = admitted row := by
  unfold clearExpiredLock
  split
  · rfl
  · rfl
  · split_ifs
    · rfl
    · rfl

section Answers

variable {r one two : Except Raised LoginRow}

theorem answer_refuses : (db.answer u r).Refuses ↔ r.isOk = false := by
  rcases r with e | row <;> simp [Db.answer, Left.Refuses, Except.isOk, Except.toBool]

theorem answer_logsIn : (db.answer u r).LogsIn u ↔ r.isOk = true := by
  rcases r with e | row <;> simp [Db.answer, Left.LogsIn, Except.isOk, Except.toBool]

/-- who is put is found -/
theorem find_put {users : List User} {w : User} (h : (users.find? fun v => decide (v.id = w.id)).isSome) :
    (users.map fun v => if v.id = w.id then w else v).find? (fun v => decide (v.id = w.id)) = some w := by
  induction users with
  | nil => cases h
  | cons v users ih =>
    by_cases hv : v.id = w.id
    · simp [hv]
    · rw [List.find?_cons_of_neg (by simp [hv])] at h
      rw [List.map_cons, if_neg hv, List.find?_cons_of_neg (by simp [hv])]
      exact ih h

theorem answer_account (h : db.users.find? (fun v => decide (v.id = u.id)) = some u) :
    (db.answer u r).account u = some { u with toLoginRow := rowOf r } := by
  have hput : ∀ row : LoginRow, (db.put { u with toLoginRow := row }).users.find? (fun v => decide (v.id = u.id)) =
      some { u with toLoginRow := row } := by
    intro row
    have hsome : (db.users.find? fun v => decide (v.id = u.id)).isSome := by rw [h]; rfl
    exact find_put (w := { u with toLoginRow := row }) hsome
  rcases r with e | row
  · exact hput _
  · exact hput _

/-- the law, on the rows alone -/
structure RowsAlike (now : ℤ) (row : LoginRow) (one two : Except Raised LoginRow) : Prop where
  logsIn : two.isOk = one.isOk
  counts : two.isOk = false → lockColumns (rowOf two) = lockColumns (rowOf one)
  locked : lockIsActive now row.toUserRow = true → (one.isOk = false ∧ rowOf one = row) ∧ two.isOk = false ∧ rowOf two = row

theorem alike_answers {db' : Db} (h : db.users.find? (fun v => decide (v.id = u.id)) = some u)
    (h' : db'.users.find? (fun v => decide (v.id = u.id)) = some u) :
    Alike now u (db.answer u one) (db'.answer u two) ↔ RowsAlike now u.toLoginRow one two := by
  have hsame : ∀ row : LoginRow, ({ u with toLoginRow := row } : User) = u ↔ row = u.toLoginRow :=
    fun row => ⟨fun hu => congrArg (fun v : User => v.toLoginRow) hu, fun hrow => by rw [hrow]⟩
  constructor
  · rintro ⟨hlogs, hrefuses, hlocked⟩
    simp only [answer_logsIn, answer_refuses, answer_account h, answer_account h', Option.map_some, Option.some.injEq,
      hsame, Bool.not_eq_true] at hlogs hrefuses hlocked
    exact ⟨Bool.eq_iff_iff.2 hlogs, fun hno => (hrefuses hno).2, hlocked⟩
  · rintro ⟨hlogs, hcounts, hlocked⟩
    constructor <;> simp only [answer_logsIn, answer_refuses, answer_account h, answer_account h', Option.map_some,
      Option.some.injEq, hsame, Bool.not_eq_true]
    · exact Bool.eq_iff_iff.1 hlogs
    · exact fun hno => ⟨hno, hcounts hno⟩
    · exact hlocked

end Answers

/-! ## The two registrations -/

theorem registerLocal_eq {name p : Text}
    (h : db.users.find? (fun v => decide (v.username = normalizeUsername name)) = some u) :
    registerLocal env name p db = db.answer u (Requests.registerLocal env.now (u.accepts env.ph p) true u.toLoginRow) := by
  rw [registerLocal, h]

theorem consumePending_eq (h : Completes env q pending s db u) :
    consumePending env s db = (db.consume s.txnId).answer u (Requests.consumePendingRegistration env.now
      (u.accepts env.ph pending.hashedPassword) pending.email pending.phone u.toLoginRow) := by
  have hfresh : pending.consumed = false := by
    have hstored := h.stored
    rw [storePending, Option.bind_eq_bind, Option.bind_eq_some_iff] at hstored
    obtain ⟨hashed, -, hpending⟩ := hstored
    rw [← Option.some.inj hpending]
  have htime : ¬ pending.expiresAt ≤ env.now := not_le.2 h.inTime
  simp only [consumePending, h.there, hfresh, htime, h.codes, h.found, Bool.false_eq_true, if_false]

/-- under a lock: the contacts are bound before the lock is looked at -/
theorem rowsAlike_active {one two : Bool} (h : lockIsActive now row.toUserRow = true) :
    RowsAlike now row (Requests.registerLocal now one true row)
      (Requests.consumePendingRegistration now two pending.email pending.phone row) ↔
        two = false ∨ NothingToBind pending row := by
  rw [registerLocal_active h]
  cases two with
  | false => exact iff_of_true ⟨rfl, fun _ => rfl, fun _ => ⟨⟨rfl, rfl⟩, rfl, rfl⟩⟩ (Or.inl rfl)
  | true =>
    rw [consume_active h, ← bound_eq_iff]
    refine ⟨fun halike => Or.inr (halike.locked h).2.2, fun hsame => ?_⟩
    have hbound : bound pending.email pending.phone row = row := hsame.resolve_left (by decide)
    exact ⟨rfl, fun _ => congrArg lockColumns hbound, fun _ => ⟨⟨rfl, rfl⟩, rfl, hbound⟩⟩

/-- without one: who is refused for the password has to be counted, and the second step counts nothing -/
theorem rowsAlike_free {one two : Bool} (h : lockIsActive now row.toUserRow = false) :
    RowsAlike now row (Requests.registerLocal now one true row)
      (Requests.consumePendingRegistration now two pending.email pending.phone row) ↔
        one = true ∧ (two = true ∨ admitted row = false ∧ row.isLocked = false) := by
  have hlock : ¬ lockIsActive now row.toUserRow = true := by simp [h]
  cases one with
  | false =>
    refine iff_of_false (fun halike => ?_) (by simp)
    rw [registerLocal_wrong h] at halike
    have hcounts := halike.counts halike.logsIn
    cases two with
    | false => exact lockColumns_failedLogin_ne h hcounts
    | true =>
      rw [consume_right h, rowOf_assertAdmissionAllowed, lockColumns_bound] at hcounts
      have hcount : (clearExpiredLock now row).failedLoginAttempts = (clearExpiredLock now row).failedLoginAttempts + 1 :=
        congrArg Prod.fst hcounts
      omega
  | true =>
    rw [registerLocal_right h]
    cases two with
    | false =>
      have hok : (assertAdmissionAllowed (bound none none (clearExpiredLock now row))).isOk = admitted row := by
        rw [isOk_assertAdmissionAllowed, admitted_bound, admitted_clearExpiredLock]
      have hcolumns : lockColumns (rowOf (assertAdmissionAllowed (bound none none (clearExpiredLock now row)))) =
          lockColumns (clearExpiredLock now row) := by
        rw [rowOf_assertAdmissionAllowed, lockColumns_bound]
      refine ⟨fun halike => ⟨rfl, Or.inr ⟨?_, ?_⟩⟩, fun ⟨_, hno⟩ => ?_⟩
      · exact hok.symm.trans halike.logsIn.symm
      · exact (lockColumns_clear_iff h).1 ((halike.counts rfl).trans hcolumns)
      · obtain ⟨hwaits, hlocked⟩ := hno.resolve_left (by decide)
        refine ⟨(hok.trans hwaits).symm, fun _ => ?_, fun hactive => absurd hactive hlock⟩
        exact ((lockColumns_clear_iff h).2 hlocked).trans hcolumns.symm
    | true =>
      rw [consume_right h]
      refine iff_of_true ⟨?_, fun _ => ?_, fun hactive => absurd hactive hlock⟩ ⟨rfl, Or.inl rfl⟩
      · rw [isOk_assertAdmissionAllowed, isOk_assertAdmissionAllowed, admitted_bound, admitted_bound]
      · rw [rowOf_assertAdmissionAllowed, rowOf_assertAdmissionAllowed, lockColumns_bound, lockColumns_bound]

/-- **Alike.** The two registrations treat an account alike if and only if, under a lock that is active, the stored hash refuses
the hash of the first step or there is nothing to bind; and without one, the password is right and either the stored hash accepts
that hash too, or the account is not admitted and has no lock that has run out. -/
theorem alike_iff (env : Env) (q : FirstStep) (pending : PendingRegistration) (s : SecondStep) (name : Text) (db : Db) (u : User)
    (hsteps : Completes env q pending s db u)
    (hname : db.users.find? (fun v => decide (v.username = normalizeUsername name)) = some u) :
    Alike env.now u (registerLocal env name q.password db) (consumePending env s db) ↔ Agree env q.password pending u := by
  have haccount : (db.consume s.txnId).users.find? (fun v => decide (v.id = u.id)) = some u := hsteps.account
  rw [registerLocal_eq hname, consumePending_eq hsteps, alike_answers hsteps.account haccount, Agree]
  cases hactive : lockIsActive env.now u.toUserRow with
  | true => rw [if_pos rfl, rowsAlike_active hactive]
  | false => rw [if_neg Bool.false_ne_true, rowsAlike_free hactive]

/-! ## Runs -/

/-- a hash that shows its password -/
def plainHasher : PasswordHasher where
  hash salt raw := salt ++ '$' :: raw
  verify stored raw := decide (stored.dropWhile (· ≠ '$') = '$' :: raw)

def demoEnv : Env where
  ph := plainHasher
  now := 1000
  apply := false
  newId := 7
  salt := ['a']
  codes _ _ code := decide (code = "1234")

/-- an account with the password `pw` -/
def member : User :=
  { toLoginRow := Issuance.newRow 0 false "normal" none (some "13800000000")
    id := 1
    username := ['m']
    hashedPassword := ['a', '$', 'p', 'w'] }

/-- the same account, locked for good -/
def banned : User := { member with isLocked := true }

def demoFirst : FirstStep where
  username := ['m']
  password := ['p', 'w']
  email := none
  phone := some "13800000000"
  now := 0
  txnId := ['t']
  salt := ['b']

def demoPending : PendingRegistration where
  txnId := ['t']
  username := ['m']
  hashedPassword := ['b', '$', 'p', 'w']
  email := none
  phone := some "13800000000"
  consumed := false
  expiresAt := 900000000

def demoSecond : SecondStep where
  txnId := ['t']
  emailCode := none
  phoneCode := some "1234"

def demoDb (u : User) : Db where
  users := [u]
  pending := [demoPending]

theorem completes_member : Completes demoEnv demoFirst demoPending demoSecond (demoDb member) member :=
  ⟨by decide, by decide, by decide, by rfl, by decide, by decide⟩

theorem completes_banned : Completes demoEnv demoFirst demoPending demoSecond (demoDb banned) banned :=
  ⟨by decide, by decide, by decide, by rfl, by decide, by decide⟩

/-- the right password, and the right code: the one registration logs in, the other refuses -/
theorem right_password_refused :
    Completes demoEnv demoFirst demoPending demoSecond (demoDb member) member ∧
      (registerLocal demoEnv ['m'] ['p', 'w'] (demoDb member)).result = .ok (.tokens 1 "normal") ∧
      (consumePending demoEnv demoSecond (demoDb member)).result = .error (.refused .alreadyRegistered) ∧
      ¬ Alike demoEnv.now member (registerLocal demoEnv ['m'] ['p', 'w'] (demoDb member))
        (consumePending demoEnv demoSecond (demoDb member)) := by
  have hone : (registerLocal demoEnv ['m'] ['p', 'w'] (demoDb member)).result = .ok (.tokens 1 "normal") := by rfl
  have htwo : (consumePending demoEnv demoSecond (demoDb member)).result = .error (.refused .alreadyRegistered) := by rfl
  refine ⟨completes_member, hone, htwo, fun halike => ?_⟩
  obtain ⟨level, hlogs⟩ := halike.logsIn.2 ⟨_, hone⟩
  rw [htwo] at hlogs
  cases hlogs

/-- the account is locked: both refuse -/
theorem alike_iff_demo : Agree demoEnv ['p', 'w'] demoPending banned ∧
    Alike demoEnv.now banned (registerLocal demoEnv ['m'] ['p', 'w'] (demoDb banned))
      (consumePending demoEnv demoSecond (demoDb banned)) := by
  have hagree : Agree demoEnv ['p', 'w'] demoPending banned := by
    rw [Agree, if_pos (by decide)]
    exact Or.inl (by decide)
  exact ⟨hagree, (alike_iff demoEnv demoFirst demoPending demoSecond ['m'] (demoDb banned) banned completes_banned
    (by decide)).2 hagree⟩

end LkmService.Auth.Registration
