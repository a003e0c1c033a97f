/-
The gate before the session tokens (`service_auth.py`, `service_oauth.py`, `service_passkey.py`, `service_2fa.py`,
`router_2fa.py`, `admission.py`).

Every entry is a function of the account that its look-up finds, with the TOTP record beside it, and of what it learns from
elsewhere: whether a password, a code, a link or an assertion holds, whether a statement in a savepoint was taken.

- `Gated`: no tokens for an account that is locked or not admitted, and none for an admin without TOTP who signs in.
- `gate_iff`: that is so unless an existing account of such an admin is registered again: the three registrations give out
  tokens through `_create_auth_response`, which does not look at the TOTP.
- `registered_admin`: an admin who has no TOTP yet gets tokens for name and password.
-/
import LkmService.Auth.Requests

namespace LkmService.Auth.Issuance

open Auth.Requests

/-! ## Accounts and answers -/

/-- `VALID_STATUSES`; an empty status counts as active -/
def validStatuses : List String := ["active", "pending", "rejected", ""]

/-- an account as a request reads it; `totp` is whether its record is enabled, if it has one -/
structure Reading where
  row : LoginRow
  totp : Option Bool
  valid : row.admissionStatus ∈ validStatuses

/-- the fields of a response that tell its kinds apart -/
inductive Answer where
  | tokens
  /-- a temporary token with the purpose `setup` -/
  | setup
  /-- a temporary token for the second factor -/
  | challenge
  /-- the application waits for its review -/
  | pending
  /-- checked, without a token -/
  | verified
  deriving DecidableEq, Repr

inductive Denial where
  | refused (r : Refusal)
  | rateLimited
  | accountLevelInsufficient
  | accountLocked
  | tokenInvalid
  | tokenExpired
  | totpSetupRequired
  | totpNotEnabled
  | totpCodeInvalid
  | recoveryCodeInvalid
  | passkeyFailed
  | oauthProviderError
  | oauthEmailRegistered
  deriving DecidableEq

abbrev Outcome (α : Type) := Except Denial α

def lift {α : Type} : Except Raised α → Outcome α
  | .ok a => .ok a
  | .error e => .error (.refused e.refusal)

/-- what the request learns from elsewhere -/
def require (ok : Bool) (d : Denial) : Outcome Unit := if ok then .ok () else .error d

/-! ## The shared functions -/

section Shared

variable (now : ℤ)

/-- `issue_session_tokens`; `rolesOk` is whether the roles of the session still stand -/
def issueTokens (rolesOk : Bool) (row : LoginRow) : Outcome Answer := do
  let _ ← lift (issueSessionTokens now row)
  require rolesOk .tokenInvalid
  pure .tokens

/-- `_create_auth_response` -/
def createAuthResponse (requires2fa : Bool) (row : LoginRow) : Outcome Answer := do
  let row ← lift (checkAccountLocked now row)
  let row ← lift (assertAdmissionAllowed row)
  if requires2fa then pure .challenge else issueTokens now true row

/-- `build_registration_response` -/
def buildRegistrationResponse (row : LoginRow) : Outcome Answer :=
  if admissionIsActive row.toUserRow then createAuthResponse now false row else .ok .pending

/-- an admin whose TOTP is not enabled -/
def needsSetup (row : LoginRow) (totp : Option Bool) : Bool := decide (row.level = "admin") && decide (totp ≠ some true)

/-- `_check_admin_totp_required` -/
def checkAdminTotpRequired (row : LoginRow) (totp : Option Bool) : Option Answer :=
  if needsSetup row totp then some .setup else none

/-- `finalize_auth_response` -/
def finalizeAuthResponse (totp : Option Bool) (row : LoginRow) : Outcome Answer := do
  let row ← lift (checkAccountLocked now row)
  let row ← lift (assertAdmissionAllowed row)
  match checkAdminTotpRequired row totp with
  | some a => pure a
  | none => createAuthResponse now false row

/-- the row that `create_user_with_profile` makes -/
def newRow (apply : Bool) (level : String) (email phone : Option String) : LoginRow :=
  { level := level
    profileRole := some "member"
    extraRoles := []
    tokenVersion := 0
    email := email
    phone := phone
    isLocked := false
    lockedUntil := none
    admissionStatus := if apply then "pending" else "active"
    updatedAt := some now
    failedLoginAttempts := 0 }

/-- a registration that finds nobody; `created` is false when the name has been taken meanwhile -/
def register (apply created : Bool) (level : String) (email phone : Option String) : Outcome Answer := do
  require created (.refused .alreadyRegistered)
  buildRegistrationResponse now (newRow now apply level email phone)

end Shared

/-! ## The entries -/

inductive Entry where
  | loginPassword (withinRate passwordOk taken : Bool)
  | loginCode (codeOk : Bool)
  | magicLink (purpose : String) (link : Outcome Unit)
  | passkey (assertionOk : Bool)
  | oauth (providerOk emailTaken created : Bool) (email : Option String)
  | registerLocal (passwordOk taken created : Bool)
  | registerByVerify (codeOk created : Bool) (email phone : Option String)
  | registerNormal (transaction : Outcome Unit) (passwordOk created : Bool) (email phone : Option String)
  | verify2fa (purpose : String) (tempOk : Bool) (recoveryOk codeOk : Option Bool)
  | setupComplete (tempOk transactionOk codeOk : Bool)
  | stepUp (recoveryOk codeOk : Option Bool) (rolesOk : Bool)
  | refresh (stored : Outcome Unit) (rolesOk : Bool)

/-- a login or a registration; the others belong to an account that has signed in, or is about to with its second factor -/
def Entry.signsIn : Entry → Bool
  | .verify2fa .. => false
  | .setupComplete .. => false
  | .stepUp .. => false
  | .refresh .. => false
  | _ => true

/-- a recovery code if there is one, else a TOTP code; each is none, wrong or right -/
def secondFactor (totp : Option Bool) (recoveryOk codeOk : Option Bool) : Outcome Unit :=
  match recoveryOk, codeOk with
  | some ok, _ => require ok .recoveryCodeInvalid
  | none, some ok => do
    require (decide (totp = some true)) .totpNotEnabled
    require ok .totpCodeInvalid
  | none, none => .error .totpCodeInvalid

/-- `find…` and `get_…_or_raise`: nobody is an error -/
def orRaise {α : Type} (d : Denial) : Option α → Outcome α
  | some a => .ok a
  | none => .error d

def requireNotLocal (row : LoginRow) : Outcome Unit := require (decide (row.level ≠ "local")) .accountLevelInsufficient

/-- a request through an entry; `found` is the account that its look-up finds -/
def serve (now : ℤ) (apply : Bool) (found : Option Reading) : Entry → Outcome Answer
  | .loginPassword withinRate passwordOk taken => do
    require withinRate .rateLimited
    let a ← orRaise (.refused .invalidCredentials) found
    let row ← lift (checkAccountLocked now a.row)
    require passwordOk (.refused .invalidCredentials)
    let row ← lift (assertAdmissionAllowed row)
    finalizeAuthResponse now a.totp (isolatedUpdate taken (resetLoginFailures now) row)
  | .loginCode codeOk => do
    require codeOk (.refused .codeInvalid)
    let a ← orRaise (.refused .userNotFound) found
    requireNotLocal a.row
    let row ← lift (checkAccountLocked now a.row)
    let row ← lift (assertAdmissionAllowed row)
    finalizeAuthResponse now a.totp row
  | .magicLink purpose link => do
    link
    let a ← orRaise (.refused .userNotFound) found
    requireNotLocal a.row
    require (!needsSetup a.row a.totp) .totpSetupRequired
    if purpose = "reset" then pure .verified else createAuthResponse now false a.row
  | .passkey assertionOk => do
    require assertionOk .passkeyFailed
    let a ← orRaise (.refused .userNotFound) found
    requireNotLocal a.row
    finalizeAuthResponse now a.totp a.row
  | .oauth providerOk emailTaken created email => do
    require providerOk .oauthProviderError
    match found with
    | some a => do
      let row ← lift (checkAccountLocked now a.row)
      finalizeAuthResponse now a.totp row
    | none => do
      require (!emailTaken) .oauthEmailRegistered
      register now apply created "normal" email none
  | .registerLocal passwordOk taken created =>
    match found with
    | some a => do
      let row ← lift (loginOrError now passwordOk taken none none a.row)
      createAuthResponse now false row
    | none => register now apply created "local" none none
  | .registerByVerify codeOk created email phone => do
    require codeOk (.refused .codeInvalid)
    match found with
    | some a => do
      let row ← lift (checkAccountLocked now a.row)
      createAuthResponse now false (Requests.upgradeToNormal row)
    | none => register now apply created "normal" email phone
  | .registerNormal transaction passwordOk created email phone => do
    transaction
    match found with
    | some a => do
      require passwordOk (.refused .alreadyRegistered)
      createAuthResponse now false
        (Requests.upgradeToNormal { a.row with email := filled a.row.email email, phone := filled a.row.phone phone })
    | none => register now apply created "normal" email phone
  | .verify2fa purpose tempOk recoveryOk codeOk => do
    require (decide (purpose = "2fa" ∨ purpose = "recovery")) .tokenInvalid
    let a ← orRaise (.refused .userNotFound) found
    secondFactor a.totp recoveryOk codeOk
    require tempOk .tokenInvalid
    if purpose = "recovery" then pure .verified else issueTokens now true a.row
  | .setupComplete tempOk transactionOk codeOk => do
    require tempOk .tokenInvalid
    require transactionOk .tokenInvalid
    let a ← orRaise .totpNotEnabled found
    require (decide (a.totp = some false)) .totpNotEnabled
    require codeOk .totpCodeInvalid
    issueTokens now true a.row
  | .stepUp recoveryOk codeOk rolesOk => do
    let a ← orRaise (.refused .userNotFound) found
    secondFactor a.totp recoveryOk codeOk
    issueTokens now rolesOk a.row
  | .refresh stored rolesOk => do
    stored
    let a ← orRaise (.refused .userNotFound) found
    require (!lockIsActive now a.row.toUserRow) .accountLocked
    require (admissionIsActive a.row.toUserRow) .accountLocked
    issueTokens now rolesOk a.row

/-! ## The law -/

/-- the account that a request is about: the one it finds, or the one it makes -/
def Entry.subject (now : ℤ) (apply : Bool) (found : Option Reading) (e : Entry) : Option (LoginRow × Option Bool) :=
  match found, e with
  | some a, _ => some (a.row, a.totp)
  | none, .oauth _ _ _ email => some (newRow now apply "normal" email none, none)
  | none, .registerLocal .. => some (newRow now apply "local" none none, none)
  | none, .registerByVerify _ _ email phone => some (newRow now apply "normal" email phone, none)
  | none, .registerNormal _ _ _ email phone => some (newRow now apply "normal" email phone, none)
  | none, _ => none

structure Gated (now : ℤ) (apply : Bool) (found : Option Reading) (e : Entry) : Prop where
  /-- tokens are for somebody who is neither locked nor waiting nor turned down -/
  admitted : serve now apply found e = .ok .tokens → ∃ row totp, e.subject now apply found = some (row, totp) ∧
    lockIsActive now row.toUserRow = false ∧ admissionIsActive row.toUserRow = true
  /-- an admin without TOTP who signs in gets a setup token or an error -/
  setup : e.signsIn = true → ∀ row totp, e.subject now apply found = some (row, totp) → needsSetup row totp = true →
    serve now apply found e = .ok .setup ∨ ∃ d, serve now apply found e = .error d

/-- an existing account passes its registration -/
def Entry.passes : Entry → Bool
  | .registerLocal passwordOk .. => passwordOk
  | .registerByVerify codeOk .. => codeOk
  | .registerNormal transaction passwordOk .. => (match transaction with | .ok _ => true | .error _ => false) && passwordOk
  | _ => false

/-- the admin without TOTP who registers an account that exists -/
def Entry.bypasses (now : ℤ) (e : Entry) (a : Reading) : Bool :=
  e.passes && needsSetup a.row a.totp && !lockIsActive now a.row.toUserRow && admissionIsActive a.row.toUserRow

/-! ## The gates -/

variable {now : ℤ} {row row' : LoginRow} {totp : Option Bool} {a : Answer} {d : Denial}

/-- what the gates look at is that of the other row, and the lock is over -/
structure Opened (now : ℤ) (row row' : LoginRow) : Prop where
  level : row'.level = row.level
  status : row'.admissionStatus = row.admissionStatus
  before : lockIsActive now row.toUserRow = false
  after : lockIsActive now row'.toUserRow = false

theorem Opened.trans {row'' : LoginRow} (h : Opened now row row') (h' : Opened now row' row'') : Opened now row row'' :=
  ⟨h'.level.trans h.level, h'.status.trans h.status, h.before, h'.after⟩

/-- the gate of the lock lets through who is not locked, with the lock off -/
theorem checkAccountLocked_spec (now : ℤ) (row : LoginRow) :
    if lockIsActive now row.toUserRow then lift (checkAccountLocked now row) = .error (.refused .invalidCredentials)
    else ∃ row', lift (checkAccountLocked now row) = .ok row' ∧ Opened now row row' := by
  cases hlocked : row.isLocked with
  | false =>
    have hactive : lockIsActive now row.toUserRow = false := by simp [lockIsActive, hlocked]
    rw [hactive, if_neg Bool.false_ne_true]
    exact ⟨row, by simp [checkAccountLocked, hlocked, lift], rfl, rfl, hactive, hactive⟩
  | true =>
    cases hactive : lockIsActive now row.toUserRow with
    | true =>
      rw [if_pos rfl]
      simp [checkAccountLocked, hlocked, hactive, lift]
    | false =>
      rw [if_neg Bool.false_ne_true]
      refine ⟨clearExpiredLock now row, by simp [checkAccountLocked, hlocked, hactive, lift], ?_⟩
      cases huntil : row.lockedUntil with
      | none => simp [lockIsActive, hlocked, huntil] at hactive
      | some lockedUntil =>
        have hover : ¬ lockedUntil > now := by simpa [lockIsActive, hlocked, huntil] using hactive
        simp only [clearExpiredLock, hlocked, huntil, if_neg hover]
        exact ⟨rfl, rfl, hactive, by simp [lockIsActive]⟩

theorem admission_iff (h : row.admissionStatus ∈ validStatuses) :
    admissionIsActive row.toUserRow = true ↔ row.admissionStatus ≠ "pending" ∧ row.admissionStatus ≠ "rejected" := by
  simp only [validStatuses, List.mem_cons, List.not_mem_nil, or_false] at h
  rcases h with h | h | h | h <;> simp [admissionIsActive, h]

theorem assertAdmissionAllowed_spec (h : row.admissionStatus ∈ validStatuses) :
    if admissionIsActive row.toUserRow then lift (assertAdmissionAllowed row) = .ok row
    else ∃ d, lift (assertAdmissionAllowed row) = .error d := by
  by_cases hactive : admissionIsActive row.toUserRow = true
  · obtain ⟨hp, hr⟩ := (admission_iff h).1 hactive
    rw [if_pos hactive]
    simp [assertAdmissionAllowed, hp, hr, lift]
  · rw [if_neg hactive]
    by_cases hp : row.admissionStatus = "pending"
    · exact ⟨.refused .admissionPending, by simp [assertAdmissionAllowed, hp, lift]⟩
    · have hr : row.admissionStatus = "rejected" := by
        by_contra hr
        exact hactive ((admission_iff h).2 ⟨hp, hr⟩)
      exact ⟨.refused .admissionRejected, by simp [assertAdmissionAllowed, hr, lift]⟩

/-! ## What the shared functions answer -/

/-- who is let through: not locked, and admitted -/
def Clear (now : ℤ) (row : LoginRow) : Prop := lockIsActive now row.toUserRow = false ∧ admissionIsActive row.toUserRow = true

theorem Opened.clear (h : Opened now row row') : Clear now row' ↔ Clear now row := by
  have hstatus : admissionIsActive row'.toUserRow = admissionIsActive row.toUserRow := by
    unfold admissionIsActive
    rw [h.status]
  unfold Clear
  rw [hstatus, h.before, h.after]

theorem Opened.valid (h : Opened now row row') (hv : row.admissionStatus ∈ validStatuses) : row'.admissionStatus ∈ validStatuses :=
  h.status ▸ hv

/-- the two gates, one after the other -/
theorem gates_spec (hv : row.admissionStatus ∈ validStatuses) {α : Type} (f : LoginRow → Outcome α) :
    (Clear now row ∧ ∃ row', Opened now row row' ∧
      (do let r ← lift (checkAccountLocked now row); let r ← lift (assertAdmissionAllowed r); f r) = f row') ∨
    (¬ Clear now row ∧
      ∃ d, (do let r ← lift (checkAccountLocked now row); let r ← lift (assertAdmissionAllowed r); f r) = .error d) := by
  have hlock := checkAccountLocked_spec now row
  by_cases hactive : lockIsActive now row.toUserRow = true
  · rw [if_pos hactive] at hlock
    refine .inr ⟨fun hclear => ?_, _, by rw [hlock]; rfl⟩
    rw [hclear.1] at hactive
    cases hactive
  · rw [if_neg hactive] at hlock
    obtain ⟨row', hrow', hopen⟩ := hlock
    have hadmission := assertAdmissionAllowed_spec (hopen.valid hv)
    by_cases hadmitted : admissionIsActive row'.toUserRow = true
    · rw [if_pos hadmitted] at hadmission
      exact .inl ⟨hopen.clear.1 ⟨hopen.after, hadmitted⟩, row', hopen, by rw [hrow']; exact congrArg (· >>= f) hadmission⟩
    · rw [if_neg hadmitted] at hadmission
      obtain ⟨d, hd⟩ := hadmission
      refine .inr ⟨fun hclear => hadmitted (hopen.clear.2 hclear).2, d, ?_⟩
      rw [hrow']
      exact congrArg (· >>= f) hd

theorem issueTokens_spec (hv : row.admissionStatus ∈ validStatuses) (rolesOk : Bool) :
    (Clear now row ∧ rolesOk = true ∧ issueTokens now rolesOk row = .ok .tokens) ∨
      (¬ (Clear now row ∧ rolesOk = true) ∧ ∃ d, issueTokens now rolesOk row = .error d) := by
  have hissue : issueTokens now rolesOk row =
      (do let r ← lift (checkAccountLocked now row); let _ ← lift (assertAdmissionAllowed r)
          require rolesOk .tokenInvalid; pure .tokens) := by
    unfold issueTokens issueSessionTokens
    cases checkAccountLocked now row with
    | error e => rfl
    | ok r => rfl
  rw [hissue]
  rcases gates_spec hv fun _ => (do require rolesOk .tokenInvalid; pure Answer.tokens : Outcome Answer) with
    ⟨hclear, row', -, heq⟩ | ⟨hclear, d, heq⟩
  · cases rolesOk with
    | true => exact .inl ⟨hclear, rfl, heq⟩
    | false => exact .inr ⟨fun h => (nomatch h.2), _, heq⟩
  · exact .inr ⟨fun h => hclear h.1, d, heq⟩

theorem createAuthResponse_spec (hv : row.admissionStatus ∈ validStatuses) :
    (Clear now row ∧ createAuthResponse now false row = .ok .tokens) ∨
      (¬ Clear now row ∧ ∃ d, createAuthResponse now false row = .error d) := by
  unfold createAuthResponse
  simp only [Bool.false_eq_true, if_false]
  rcases gates_spec hv (issueTokens now true) with ⟨hclear, row', hopen, heq⟩ | ⟨hclear, d, heq⟩
  · rcases issueTokens_spec (hopen.valid hv) true with ⟨-, -, hok⟩ | ⟨hnot, -⟩
    · exact .inl ⟨hclear, heq.trans hok⟩
    · exact absurd ⟨hopen.clear.2 hclear, rfl⟩ hnot
  · exact .inr ⟨hclear, d, heq⟩

theorem needsSetup_congr (h : row'.level = row.level) : needsSetup row' totp = needsSetup row totp := by
  rw [needsSetup, needsSetup, h]

theorem finalizeAuthResponse_spec (hv : row.admissionStatus ∈ validStatuses) :
    (Clear now row ∧ finalizeAuthResponse now totp row = .ok (if needsSetup row totp then .setup else .tokens)) ∨
      (¬ Clear now row ∧ ∃ d, finalizeAuthResponse now totp row = .error d) := by
  unfold finalizeAuthResponse
  rcases gates_spec hv fun r => match checkAdminTotpRequired r totp with
    | some a => (pure a : Outcome Answer)
    | none => createAuthResponse now false r with ⟨hclear, row', hopen, heq⟩ | ⟨hclear, d, heq⟩
  · refine .inl ⟨hclear, heq.trans ?_⟩
    unfold checkAdminTotpRequired
    rw [needsSetup_congr hopen.level]
    split_ifs
    · rfl
    · rcases createAuthResponse_spec (hopen.valid hv) with ⟨-, hok⟩ | ⟨hnot, -⟩
      · exact hok
      · exact absurd (hopen.clear.2 hclear) hnot
  · exact .inr ⟨hclear, d, heq⟩

/-! ## Sound outcomes -/

/-- the law, of one account and one outcome -/
structure Sound (now : ℤ) (row : LoginRow) (totp : Option Bool) (signsIn : Bool) (out : Outcome Answer) : Prop where
  admitted : out = .ok .tokens → Clear now row
  setup : signsIn = true → needsSetup row totp = true → out = .ok .setup ∨ ∃ d, out = .error d

variable {signsIn : Bool} {out : Outcome Answer}

theorem sound_error : Sound now row totp signsIn (.error d) := ⟨fun h => (nomatch h), fun _ _ => .inr ⟨d, rfl⟩⟩

theorem sound_bind {α : Type} {x : Outcome α} {f : α → Outcome Answer} (h : ∀ v, x = .ok v → Sound now row totp signsIn (f v)) :
    Sound now row totp signsIn (x >>= f) := by
  cases x with
  | error d => exact sound_error
  | ok v => exact h v rfl

/-- the look-up that finds somebody -/
theorem sound_found {found : Reading} {f : Reading → Outcome Answer} (h : Sound now row totp signsIn (f found)) :
    Sound now row totp signsIn (orRaise d (some found) >>= f) := h

theorem Opened.sound (h : Opened now row row') (hs : Sound now row' totp signsIn out) : Sound now row totp signsIn out := by
  refine ⟨fun hout => h.clear.1 (hs.admitted hout), fun hsign hsetup => hs.setup hsign ?_⟩
  rw [needsSetup_congr h.level]
  exact hsetup

theorem sound_finalize (hv : row.admissionStatus ∈ validStatuses) : Sound now row totp signsIn (finalizeAuthResponse now totp row) := by
  rcases finalizeAuthResponse_spec hv with ⟨hclear, hok⟩ | ⟨-, d, herror⟩
  · rw [hok]
    refine ⟨fun _ => hclear, fun _ hsetup => .inl ?_⟩
    rw [if_pos hsetup]
  · rw [herror]
    exact sound_error

theorem sound_issue (hv : row.admissionStatus ∈ validStatuses) (rolesOk : Bool) :
    Sound now row totp false (issueTokens now rolesOk row) := by
  rcases issueTokens_spec hv rolesOk with ⟨hclear, -, hok⟩ | ⟨-, d, herror⟩
  · rw [hok]
    exact ⟨fun _ => hclear, fun h => (nomatch h)⟩
  · rw [herror]
    exact sound_error

/-- the response without a look at the TOTP: sound for nobody who is let through and needs one -/
theorem sound_create (hv : row.admissionStatus ∈ validStatuses) :
    Sound now row totp true (createAuthResponse now false row) ↔ ¬ (Clear now row ∧ needsSetup row totp = true) := by
  rcases createAuthResponse_spec hv with ⟨hclear, hok⟩ | ⟨hnot, d, herror⟩
  · rw [hok]
    constructor
    · rintro hs ⟨-, hsetup⟩
      rcases hs.setup rfl hsetup with h | ⟨d, h⟩
      · cases h
      · cases h
    · intro hno
      exact ⟨fun _ => hclear, fun _ hsetup => absurd ⟨hclear, hsetup⟩ hno⟩
  · rw [herror]
    exact iff_of_true sound_error fun h => hnot h.1

theorem opened_of_check (h : lift (checkAccountLocked now row) = .ok row') : Opened now row row' := by
  have hspec := checkAccountLocked_spec now row
  split at hspec
  · rw [hspec] at h
    cases h
  · obtain ⟨r, hr, hopen⟩ := hspec
    rw [hr] at h
    rwa [← Except.ok.inj h]

theorem eq_of_assert (h : lift (assertAdmissionAllowed row) = .ok row') : row' = row := by
  unfold assertAdmissionAllowed at h
  split_ifs at h
  · cases h
  · cases h
  · exact (Except.ok.inj h).symm

/-- a row whose lock is over stays so through the statement of a login -/
theorem opened_reset (taken : Bool) (h : lockIsActive now row.toUserRow = false) :
    Opened now row (isolatedUpdate taken (resetLoginFailures now) row) := by
  cases taken with
  | false => exact ⟨rfl, rfl, h, h⟩
  | true => exact ⟨rfl, rfl, h, by simp [isolatedUpdate, resetLoginFailures, lockIsActive]⟩

/-- the level rises from local to normal only -/
theorem needsSetup_upgrade : needsSetup (Requests.upgradeToNormal row) totp = needsSetup row totp := by
  unfold needsSetup Requests.upgradeToNormal Auth.upgradeToNormal
  split_ifs with hlocal
  · simp [hlocal]
  · rfl

/-! ## The entries, one by one -/

variable {apply : Bool} {found : Reading}

/-- the login of a password -/
theorem sound_password (withinRate passwordOk taken : Bool) :
    Sound now found.row found.totp true (serve now apply (some found) (.loginPassword withinRate passwordOk taken)) := by
  refine sound_bind fun _ _ => sound_found ?_
  refine sound_bind fun r hr => sound_bind fun _ _ => sound_bind fun r' hr' => ?_
  have hopen := opened_of_check hr
  obtain rfl := eq_of_assert hr'
  have hreset := hopen.trans (opened_reset taken hopen.after)
  exact hreset.sound (sound_finalize (hreset.valid found.valid))

theorem sound_code (codeOk : Bool) : Sound now found.row found.totp true (serve now apply (some found) (.loginCode codeOk)) := by
  refine sound_bind fun _ _ => sound_found ?_
  refine sound_bind fun _ _ => sound_bind fun r hr => sound_bind fun r' hr' => ?_
  have hopen := opened_of_check hr
  obtain rfl := eq_of_assert hr'
  exact hopen.sound (sound_finalize (hopen.valid found.valid))

/-- a link looks at the TOTP itself -/
theorem sound_link (purpose : String) (link : Outcome Unit) :
    Sound now found.row found.totp true (serve now apply (some found) (.magicLink purpose link)) := by
  refine sound_bind fun _ _ => sound_found ?_
  refine sound_bind fun _ _ => sound_bind fun _ hsetup => ?_
  have hno : needsSetup found.row found.totp = false := by
    cases h : needsSetup found.row found.totp with
    | false => rfl
    | true =>
      rw [h] at hsetup
      cases hsetup
  split_ifs
  · exact ⟨fun h => (nomatch h), fun _ h => absurd h (by simp [hno])⟩
  · exact (sound_create found.valid).2 fun h => absurd h.2 (by simp [hno])

theorem sound_passkey (assertionOk : Bool) :
    Sound now found.row found.totp true (serve now apply (some found) (.passkey assertionOk)) :=
  sound_bind fun _ _ => sound_found (sound_bind fun _ _ => sound_finalize found.valid)

theorem sound_oauth (providerOk emailTaken created : Bool) (email : Option String) :
    Sound now found.row found.totp true (serve now apply (some found) (.oauth providerOk emailTaken created email)) := by
  refine sound_bind fun _ _ => sound_bind fun r hr => ?_
  have hopen := opened_of_check hr
  exact hopen.sound (sound_finalize (hopen.valid found.valid))

theorem sound_verify (purpose : String) (tempOk : Bool) (recoveryOk codeOk : Option Bool) :
    Sound now found.row found.totp false (serve now apply (some found) (.verify2fa purpose tempOk recoveryOk codeOk)) := by
  refine sound_bind fun _ _ => sound_found ?_
  refine sound_bind fun _ _ => sound_bind fun _ _ => ?_
  split_ifs
  · exact ⟨fun h => (nomatch h), fun h => (nomatch h)⟩
  · exact sound_issue found.valid true

theorem sound_complete (tempOk transactionOk codeOk : Bool) :
    Sound now found.row found.totp false (serve now apply (some found) (.setupComplete tempOk transactionOk codeOk)) := by
  refine sound_bind fun _ _ => sound_bind fun _ _ => sound_found ?_
  exact sound_bind fun _ _ => sound_bind fun _ _ => sound_issue found.valid true

theorem sound_stepUp (recoveryOk codeOk : Option Bool) (rolesOk : Bool) :
    Sound now found.row found.totp false (serve now apply (some found) (.stepUp recoveryOk codeOk rolesOk)) :=
  sound_found (sound_bind fun _ _ => sound_issue found.valid rolesOk)

theorem sound_refresh (stored : Outcome Unit) (rolesOk : Bool) :
    Sound now found.row found.totp false (serve now apply (some found) (.refresh stored rolesOk)) :=
  sound_bind fun _ _ => sound_found (sound_bind fun _ _ => sound_bind fun _ _ => sound_issue found.valid rolesOk)

/-- the three registrations of an account that exists -/
theorem sound_registered {row' : LoginRow} (hclear : Clear now row' ↔ Clear now found.row)
    (hsetup : needsSetup row' found.totp = needsSetup found.row found.totp) (hv : row'.admissionStatus ∈ validStatuses) :
    Sound now found.row found.totp true (createAuthResponse now false row') ↔
      ¬ (Clear now found.row ∧ needsSetup found.row found.totp = true) := by
  rw [← hclear, ← hsetup, ← sound_create hv]
  constructor
  · intro h
    exact ⟨fun hout => hclear.2 (h.admitted hout), fun hs hn => h.setup hs (hsetup ▸ hn)⟩
  · intro h
    exact ⟨fun hout => hclear.1 (h.admitted hout), fun hs hn => h.setup hs (hsetup.symm ▸ hn)⟩

/-- `upgrade_to_normal`, on a row that differs in the contacts at most -/
structure Upgraded (row row' : LoginRow) : Prop where
  level : ∀ totp, needsSetup row' totp = needsSetup row totp
  status : row'.admissionStatus = row.admissionStatus
  clear : ∀ now, Clear now row' ↔ Clear now row

theorem upgraded_fill (row : LoginRow) (email phone : Option String) :
    Upgraded row (Requests.upgradeToNormal { row with email := email, phone := phone }) :=
  ⟨fun _ => needsSetup_upgrade, rfl, fun _ => Iff.rfl⟩

theorem Entry.bypasses_iff {e : Entry} (hpasses : e.passes = true) :
    e.bypasses now found = false ↔ ¬ (Clear now found.row ∧ needsSetup found.row found.totp = true) := by
  unfold Entry.bypasses Clear
  rw [hpasses]
  cases needsSetup found.row found.totp <;> cases lockIsActive now found.row.toUserRow <;>
    cases admissionIsActive found.row.toUserRow <;> simp

theorem Entry.bypasses_of_refused {e : Entry} (hpasses : e.passes = false) : e.bypasses now found = false := by
  simp [Entry.bypasses, hpasses]

/-- a lock that is over, then the registration -/
theorem sound_unlocked (email phone : Option String) :
    Sound now found.row found.totp true (do
      let r ← lift (checkAccountLocked now found.row)
      createAuthResponse now false
        (Requests.upgradeToNormal { r with email := filled r.email email, phone := filled r.phone phone })) ↔
      ¬ (Clear now found.row ∧ needsSetup found.row found.totp = true) := by
  have hspec := checkAccountLocked_spec now found.row
  split at hspec
  · rename_i hlocked
    rw [hspec]
    refine iff_of_true sound_error fun h => ?_
    rw [h.1.1] at hlocked
    cases hlocked
  · obtain ⟨r, hr, hopen⟩ := hspec
    rw [hr]
    have hup := upgraded_fill r (filled r.email email) (filled r.phone phone)
    exact sound_registered ((hup.clear now).trans hopen.clear) ((hup.level _).trans (needsSetup_congr hopen.level))
      (hup.status ▸ hopen.valid found.valid)

theorem sound_registerLocal (passwordOk taken created : Bool) :
    Sound now found.row found.totp true (serve now apply (some found) (.registerLocal passwordOk taken created)) ↔
      Entry.bypasses now (.registerLocal passwordOk taken created) found = false := by
  cases passwordOk with
  | true =>
    rw [Entry.bypasses_iff rfl, ← sound_unlocked none none]
    have hserve : serve now apply (some found) (.registerLocal true taken created) = (do
        let r ← lift (checkAccountLocked now found.row)
        createAuthResponse now false
          (Requests.upgradeToNormal { r with email := filled r.email none, phone := filled r.phone none })) := by
      simp only [serve, loginOrError]
      cases checkAccountLocked now found.row <;> rfl
    rw [hserve]
  | false =>
    refine iff_of_true (sound_bind fun v hv => ?_) (Entry.bypasses_of_refused rfl)
    unfold loginOrError at hv
    cases hcheck : checkAccountLocked now found.row with
    | error e =>
      rw [hcheck] at hv
      cases hv
    | ok r =>
      rw [hcheck] at hv
      cases hv

theorem sound_registerByVerify (codeOk created : Bool) (email phone : Option String) :
    Sound now found.row found.totp true (serve now apply (some found) (.registerByVerify codeOk created email phone)) ↔
      Entry.bypasses now (.registerByVerify codeOk created email phone) found = false := by
  cases codeOk with
  | true =>
    rw [Entry.bypasses_iff rfl, ← sound_unlocked none none]
    exact Iff.rfl
  | false => exact iff_of_true sound_error (Entry.bypasses_of_refused rfl)

theorem sound_registerNormal (transaction : Outcome Unit) (passwordOk created : Bool) (email phone : Option String) :
    Sound now found.row found.totp true
        (serve now apply (some found) (.registerNormal transaction passwordOk created email phone)) ↔
      Entry.bypasses now (.registerNormal transaction passwordOk created email phone) found = false := by
  cases transaction with
  | error d => exact iff_of_true sound_error (Entry.bypasses_of_refused rfl)
  | ok u =>
    cases passwordOk with
    | true =>
      rw [Entry.bypasses_iff rfl]
      have hup := upgraded_fill found.row (filled found.row.email email) (filled found.row.phone phone)
      exact sound_registered (hup.clear now) (hup.level _) (hup.status ▸ found.valid)
    | false => exact iff_of_true sound_error (Entry.bypasses_of_refused rfl)

/-- the law for an account that exists -/
theorem sound_iff (e : Entry) :
    Sound now found.row found.totp e.signsIn (serve now apply (some found) e) ↔ e.bypasses now found = false := by
  cases e with
  | loginPassword => exact iff_of_true (sound_password ..) (Entry.bypasses_of_refused rfl)
  | loginCode => exact iff_of_true (sound_code ..) (Entry.bypasses_of_refused rfl)
  | magicLink => exact iff_of_true (sound_link ..) (Entry.bypasses_of_refused rfl)
  | passkey => exact iff_of_true (sound_passkey ..) (Entry.bypasses_of_refused rfl)
  | oauth => exact iff_of_true (sound_oauth ..) (Entry.bypasses_of_refused rfl)
  | registerLocal => exact sound_registerLocal ..
  | registerByVerify => exact sound_registerByVerify ..
  | registerNormal => exact sound_registerNormal ..
  | verify2fa => exact iff_of_true (sound_verify ..) (Entry.bypasses_of_refused rfl)
  | setupComplete => exact iff_of_true (sound_complete ..) (Entry.bypasses_of_refused rfl)
  | stepUp => exact iff_of_true (sound_stepUp ..) (Entry.bypasses_of_refused rfl)
  | refresh => exact iff_of_true (sound_refresh ..) (Entry.bypasses_of_refused rfl)

/-! ## Nobody found -/

/-- a registration: tokens at once, unless it is an application -/
theorem sound_register (created : Bool) (level : String) (email phone : Option String) (hlevel : level ≠ "admin") :
    Sound now (newRow now apply level email phone) none signsIn (register now apply created level email phone) := by
  have hno : needsSetup (newRow now apply level email phone) none = false := by simp [needsSetup, newRow, hlevel]
  refine sound_bind fun _ _ => ?_
  unfold buildRegistrationResponse
  cases apply with
  | true => exact ⟨fun h => (nomatch h), fun _ h => absurd h (by simp [hno])⟩
  | false =>
    refine ⟨fun _ => ⟨rfl, rfl⟩, fun _ h => absurd h (by simp [hno])⟩

/-- the law, whoever is found or made -/
theorem gated_of_sound {found : Option Reading} {e : Entry} (hsubject : e.subject now apply found = some (row, totp))
    (h : Sound now row totp e.signsIn (serve now apply found e)) : Gated now apply found e := by
  refine ⟨fun hout => ⟨row, totp, hsubject, h.admitted hout⟩, fun hsign row' totp' hsubject' hsetup => ?_⟩
  have heq : (row, totp) = (row', totp') := Option.some.inj (hsubject.symm.trans hsubject')
  obtain ⟨rfl, rfl⟩ := Prod.mk.inj heq
  exact h.setup hsign hsetup

theorem sound_of_gated {found : Option Reading} {e : Entry} (hsubject : e.subject now apply found = some (row, totp))
    (h : Gated now apply found e) : Sound now row totp e.signsIn (serve now apply found e) := by
  refine ⟨fun hout => ?_, fun hsign hsetup => h.setup hsign row totp hsubject hsetup⟩
  obtain ⟨row', totp', hsubject', hclear⟩ := h.admitted hout
  have heq : (row, totp) = (row', totp') := Option.some.inj (hsubject.symm.trans hsubject')
  obtain ⟨rfl, rfl⟩ := Prod.mk.inj heq
  exact hclear

/-- an entry that finds nobody and makes nobody ends in an error -/
theorem gated_of_error {e : Entry} (hsubject : e.subject now apply none = none)
    (h : ∃ d, serve now apply none e = .error d) : Gated now apply none e := by
  refine ⟨fun hout => ?_, fun _ row totp hsubject' => ?_⟩
  · obtain ⟨d, hd⟩ := h
    rw [hd] at hout
    cases hout
  · rw [hsubject] at hsubject'
    cases hsubject'

theorem error_bind {α β : Type} {x : Outcome α} {f : α → Outcome β} (h : ∀ v, ∃ d, f v = .error d) : ∃ d, x >>= f = .error d := by
  cases x with
  | error d => exact ⟨d, rfl⟩
  | ok v => exact h v

/-- nobody is found -/
theorem gated_none (e : Entry) : Gated now apply none e := by
  cases e with
  | oauth =>
    refine gated_of_sound rfl (sound_bind fun _ _ => ?_)
    exact sound_bind fun _ _ => sound_register _ _ _ _ (by decide)
  | registerLocal => exact gated_of_sound rfl (sound_register _ _ _ _ (by decide))
  | registerByVerify => exact gated_of_sound rfl (sound_bind fun _ _ => sound_register _ _ _ _ (by decide))
  | registerNormal => exact gated_of_sound rfl (sound_bind fun _ _ => sound_register _ _ _ _ (by decide))
  | loginPassword => exact gated_of_error rfl (error_bind fun _ => ⟨_, rfl⟩)
  | loginCode => exact gated_of_error rfl (error_bind fun _ => ⟨_, rfl⟩)
  | magicLink => exact gated_of_error rfl (error_bind fun _ => ⟨_, rfl⟩)
  | passkey => exact gated_of_error rfl (error_bind fun _ => ⟨_, rfl⟩)
  | verify2fa => exact gated_of_error rfl (error_bind fun _ => ⟨_, rfl⟩)
  | setupComplete => exact gated_of_error rfl (error_bind fun _ => error_bind fun _ => ⟨_, rfl⟩)
  | stepUp => exact gated_of_error rfl ⟨_, rfl⟩
  | refresh => exact gated_of_error rfl (error_bind fun _ => ⟨_, rfl⟩)

/-! ## The law and its exception -/

/-- **Every entry is gated, except where an existing admin without TOTP registers.** -/
theorem gate_iff (now : ℤ) (apply : Bool) (found : Option Reading) (e : Entry) :
    Gated now apply found e ↔ ∀ a, found = some a → e.bypasses now a = false := by
  cases found with
  | none =>
    refine iff_of_true (gated_none e) fun a h => ?_
    cases h
  | some a =>
    constructor
    · intro h b hb
      cases hb
      exact (sound_iff e).1 (sound_of_gated (by cases e <;> rfl) h)
    · intro h
      exact gated_of_sound (by cases e <;> rfl) ((sound_iff e).2 (h a rfl))

/-- an admin, active and not locked, who has not set up TOTP -/
def newAdmin : Reading where
  row := { newRow 0 false "admin" (some "admin@lkm.org") none with profileRole := some "admin" }
  totp := none
  valid := by decide

/-- the name and the password of an admin, sent to the registration: tokens, where the login answers with a setup token -/
theorem registered_admin : serve 1 false (some newAdmin) (.registerLocal true true true) = .ok .tokens ∧
    serve 1 false (some newAdmin) (.loginPassword true true true) = .ok .setup ∧
    ¬ Gated 1 false (some newAdmin) (.registerLocal true true true) := by
  have htokens : serve 1 false (some newAdmin) (.registerLocal true true true) = .ok .tokens := by decide
  refine ⟨htokens, by decide, fun h => ?_⟩
  rcases h.setup rfl newAdmin.row newAdmin.totp rfl (by decide) with hsetup | ⟨d, hd⟩
  · rw [htokens] at hsetup
    cases hsetup
  · rw [htokens] at hd
    cases hd

end LkmService.Auth.Issuance
