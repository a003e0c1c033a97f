/-
Which requests end a session that they were not meant to end (`deps.py`, `service_authz.py`, `repository.py`,
`models.py`).

Both paths of authorisation refuse a token that is more than five seconds older than `updated_at`, as they would after
a change of the password; but every UPDATE of the row moves that column. `sessions_survive_iff`: over a run without
revocation and without a change of role, a token stays valid exactly when every UPDATE of its user's row comes within
the tolerance of its issue. `second_login_ends_session` is the run of one sign-in elsewhere.
-/
import LkmService.Auth.Requests

namespace LkmService.Auth.Requests

/-! ## Which requests update the row, and which are meant to end a session -/

/-- a lock that has run out, and that the next gate clears -/
def lapsed (now : ℤ) (row : LoginRow) : Bool := row.isLocked && !lockIsActive now row.toUserRow

/-- the request commits an UPDATE of the row, when the gates let its user through -/
def Call.updates (now : ℤ) (row : LoginRow) : Call → Bool
  | .loginPassword passwordOk taken => passwordOk && (taken || lapsed now row)
  | .signIn => lapsed now row
  | .registerLocal passwordOk _ => passwordOk && lapsed now row
  | .registerByVerify => lapsed now row
  | .consumePendingRegistration passwordOk email phone =>
    passwordOk && (lapsed now row || filled row.email email ≠ row.email || filled row.phone phone ≠ row.phone)
  | .bindVerify contact value codeOk taken => codeOk && !taken && contactOf contact row ≠ some value
  | .unbind contact secondFactorOk oauthBindings =>
    secondFactorOk && decide (1 < countLoginWays row oauthBindings) && truthy (contactOf contact row)
  | .updateProfile => false
  | .decideAdmission _ => row.admissionStatus = "pending"
  | .cmdUnlock => row.isLocked || row.lockedUntil.isSome || row.failedLoginAttempts ≠ 0
  | .resetPassword => true
  | .revokeAll => true
  | .changeRole account => account ≠ row.toAccount

/-- a new password, a revocation, a rejection, a change of role -/
def Call.revokes : Call → Bool
  | .resetPassword => true
  | .revokeAll => true
  | .decideAdmission approve => !approve
  | .changeRole _ => true
  | _ => false

/-- the request would raise the account to the next level -/
def Call.raises (row : LoginRow) : Call → Bool
  | .registerLocal _ _ => row.level = "local"
  | .registerByVerify => row.level = "local"
  | .consumePendingRegistration _ _ _ => row.level = "local"
  | .bindVerify _ _ _ _ => row.level = "local"
  | _ => false

/-- the operation may end the session of this token on purpose -/
def Op.ends (p : Payload) (user : UserId) (r : Realm) : Op → Bool
  | .request other call => other = user && (call.revokes || (r.rows user).any call.raises)
  | .revokeAccessToken jti => jtiOf p.jti = some jti
  | .createUser _ _ => false
  | .redisForgets _ _ => false

/-- no operation of the run is one that ends the session on purpose -/
def spared (p : Payload) (user : UserId) : Realm → List (ℕ × Op) → Bool
  | _, [] => true
  | r, (elapsed, op) :: rest => !op.ends p user r && spared p user (step r elapsed op) rest

def Op.updates (user : UserId) (now : ℤ) (r : Realm) : Op → Bool
  | .request other call => other = user && (r.rows user).any fun row => call.updates now row
  | _ => false

def Op.updateTimes (user : UserId) (r : Realm) (elapsed : ℕ) (op : Op) : List ℤ :=
  if op.updates user (r.now + elapsed) r then [r.now + elapsed] else []

/-- when the run updates the user's row -/
def updateTimes (user : UserId) : Realm → List (ℕ × Op) → List ℤ
  | _, [] => []
  | r, (elapsed, op) :: rest => op.updateTimes user r elapsed ++ updateTimes user (step r elapsed op) rest

/-- some session comes of the token -/
def Valid (path : World → Payload → Except AuthErr CurrentUser) (r : Realm) (p : Payload) : Prop :=
  ∃ active, Accepts (path r.world p) active

/-- an update at this time is within the tolerance of the token's issue, as the local path counts -/
def RecentLocal (p : Payload) (time : ℤ) : Prop := ∃ issued, fromTimestamp p.iat = some issued ∧ time - issued ≤ iatTolerance

def RecentSeam (p : Payload) (time : ℤ) : Prop := time - (fromTimestamp p.iat).getD 0 ≤ iatTolerance

/-! ## What one request does to a row in good standing -/

theorem lockIsActive_later {now later : ℤ} {row : UserRow} (hle : now ≤ later) (h : lockIsActive now row = false) :
    lockIsActive later row = false := by
  unfold lockIsActive at h ⊢
  cases hlocked : row.isLocked with
  | false => simp
  | true =>
    cases huntil : row.lockedUntil with
    | none => simp [hlocked, huntil] at h
    | some until_ =>
      simp only [hlocked, huntil, Bool.true_and, decide_eq_false_iff_not, not_lt, gt_iff_lt] at h ⊢
      omega

/-- the row as the gate leaves it, when no lock holds -/
def gated (row : LoginRow) : LoginRow :=
  if row.isLocked then { row with isLocked := false, lockedUntil := none, failedLoginAttempts := 0 } else row

theorem gated_isLocked (row : LoginRow) : (gated row).isLocked = false := by
  unfold gated
  split_ifs with hlocked
  · rfl
  · simpa using hlocked

theorem gated_eq_iff (row : LoginRow) : gated row = row ↔ row.isLocked = false := by
  constructor
  · intro heq
    rw [← heq]
    exact gated_isLocked row
  · intro hlocked
    simp [gated, hlocked]

theorem gated_account (row : LoginRow) : (gated row).toAccount = row.toAccount := by
  unfold gated
  split_ifs <;> rfl

theorem gated_admission (row : LoginRow) : (gated row).admissionStatus = row.admissionStatus := by
  unfold gated
  split_ifs <;> rfl

theorem checkAccountLocked_unlocked {now : ℤ} {row : LoginRow} (h : row.isLocked = false) :
    checkAccountLocked now row = .ok row := by
  simp [checkAccountLocked, h]

theorem checkAccountLocked_open {now : ℤ} {row : LoginRow} (h : lockIsActive now row.toUserRow = false) :
    checkAccountLocked now row = .ok (gated row) := by
  unfold checkAccountLocked gated
  cases hlocked : row.isLocked with
  | false => simp
  | true =>
    cases huntil : row.lockedUntil with
    | none => simp [lockIsActive, hlocked, huntil] at h
    | some until_ =>
      have hle : ¬ until_ > now := by simpa [lockIsActive, hlocked, huntil] using h
      simp [h, clearExpiredLock, hlocked, huntil, hle]

theorem assertAdmissionAllowed_open {row : LoginRow} (h : admissionIsActive row.toUserRow = true) :
    assertAdmissionAllowed row = .ok row := by
  have hstatus : row.admissionStatus = "" ∨ row.admissionStatus = "active" := by
    by_cases hempty : row.admissionStatus = ""
    · exact Or.inl hempty
    · exact Or.inr (by simpa [admissionIsActive, hempty] using h)
  rcases hstatus with hstatus | hstatus
  · simp [assertAdmissionAllowed, hstatus]
  · simp [assertAdmissionAllowed, hstatus]

theorem issueSessionTokens_unlocked {now : ℤ} {row : LoginRow} (hlocked : row.isLocked = false)
    (hadm : admissionIsActive row.toUserRow = true) : issueSessionTokens now row = .ok row := by
  unfold issueSessionTokens
  rw [checkAccountLocked_unlocked hlocked]
  exact assertAdmissionAllowed_open hadm

theorem admissionIsActive_congr {row other : UserRow} (h : other.admissionStatus = row.admissionStatus) :
    admissionIsActive other = admissionIsActive row := by
  unfold admissionIsActive
  rw [h]

theorem issueSessionTokens_open {now : ℤ} {row : LoginRow} (hlock : lockIsActive now row.toUserRow = false)
    (hadm : admissionIsActive row.toUserRow = true) : issueSessionTokens now row = .ok (gated row) := by
  unfold issueSessionTokens
  rw [checkAccountLocked_open hlock]
  exact assertAdmissionAllowed_open ((admissionIsActive_congr (gated_admission row)).trans hadm)

theorem upgradeToNormal_above {row : LoginRow} (h : row.level ≠ "local") : upgradeToNormal row = row := by
  simp [upgradeToNormal, Auth.upgradeToNormal, h]

/-- the request ends with its session: what it commits keeps the account, its admission and the absence of a lock, and
differs from what it found exactly when it updates -/
structure Edit (now : ℤ) (row : LoginRow) (changed : Bool) (edited : LoginRow) : Prop where
  account : edited.toAccount = row.toAccount
  admission : edited.admissionStatus = row.admissionStatus
  unlocked : lockIsActive now edited.toUserRow = false
  changes : changed = true → edited ≠ row ∨ edited.updatedAt = some now
  keeps : changed = false → edited = row

/-- the request either commits such a row or raises, and then it updates nothing -/
def Serves (now : ℤ) (row : LoginRow) (changed : Bool) : Except Raised LoginRow → Prop
  | .ok edited => Edit now row changed edited
  | .error _ => changed = false

theorem lockIsActive_of_unlocked {now : ℤ} {row : UserRow} (h : row.isLocked = false) : lockIsActive now row = false := by
  simp [lockIsActive, h]

section Open

variable {now : ℤ} {row : LoginRow} (hlock : lockIsActive now row.toUserRow = false)
  (hadm : admissionIsActive row.toUserRow = true)

include hlock

theorem lapsed_open : lapsed now row = row.isLocked := by
  simp [lapsed, hlock]

theorem edit_same : Edit now row false row := ⟨rfl, rfl, hlock, by simp, fun _ => rfl⟩

theorem edit_gated : Edit now row (lapsed now row) (gated row) := by
  rw [lapsed_open hlock]
  refine ⟨gated_account row, gated_admission row, lockIsActive_of_unlocked (gated_isLocked row), ?_, ?_⟩
  · intro hlocked
    left
    rw [Ne, gated_eq_iff]
    simp [hlocked]
  · intro hlocked
    exact (gated_eq_iff row).2 hlocked

include hadm

theorem serves_loginPassword (passwordOk taken : Bool) :
    Serves now row (passwordOk && (taken || lapsed now row)) (loginPassword now passwordOk taken row) := by
  have hadm' : admissionIsActive (gated row).toUserRow = true :=
    (admissionIsActive_congr (gated_admission row)).trans hadm
  unfold loginPassword
  rw [checkAccountLocked_open hlock]
  cases passwordOk with
  | false => simp [Except.bind, Serves]
  | true =>
    simp only [Except.bind, if_true, assertAdmissionAllowed_open hadm', Bool.true_and]
    cases taken with
    | false =>
      simp only [isolatedUpdate, Bool.false_eq_true, if_false, Bool.false_or]
      rw [issueSessionTokens_unlocked (gated_isLocked row) hadm']
      exact edit_gated hlock
    | true =>
      simp only [isolatedUpdate, if_true, Bool.true_or]
      have hissued : issueSessionTokens now (resetLoginFailures now (gated row)) =
          .ok (resetLoginFailures now (gated row)) := issueSessionTokens_unlocked rfl hadm'
      rw [hissued]
      exact ⟨gated_account row, gated_admission row, lockIsActive_of_unlocked rfl, fun _ => Or.inr rfl, by simp⟩

theorem serves_signIn : Serves now row (lapsed now row) (issueSessionTokens now row) := by
  rw [issueSessionTokens_open hlock hadm]
  exact edit_gated hlock

theorem serves_registerLocal (hlevel : row.level ≠ "local") (passwordOk taken : Bool) :
    Serves now row (passwordOk && lapsed now row) (registerLocal now passwordOk taken row) := by
  have hadm' : admissionIsActive (gated row).toUserRow = true :=
    (admissionIsActive_congr (gated_admission row)).trans hadm
  have hlevel' : (gated row).level ≠ "local" := by
    rw [show (gated row).level = row.level from congrArg Account.level (gated_account row)]
    exact hlevel
  unfold registerLocal loginOrError
  rw [checkAccountLocked_open hlock]
  cases passwordOk with
  | false => simp [Except.bind, Serves]
  | true =>
    have hsame : ({ gated row with
        email := filled (gated row).email none, phone := filled (gated row).phone none } : LoginRow) = gated row := by
      simp [filled, truthy]
    simp only [Except.bind, if_true, Bool.true_and]
    rw [hsame, upgradeToNormal_above hlevel', issueSessionTokens_unlocked (gated_isLocked row) hadm']
    exact edit_gated hlock

theorem serves_registerByVerify (hlevel : row.level ≠ "local") :
    Serves now row (lapsed now row) (registerByVerify now row) := by
  have hadm' : admissionIsActive (gated row).toUserRow = true :=
    (admissionIsActive_congr (gated_admission row)).trans hadm
  have hlevel' : (gated row).level ≠ "local" := by
    rw [show (gated row).level = row.level from congrArg Account.level (gated_account row)]
    exact hlevel
  unfold registerByVerify
  rw [checkAccountLocked_open hlock]
  simp only [Except.bind]
  rw [upgradeToNormal_above hlevel', issueSessionTokens_unlocked (gated_isLocked row) hadm']
  exact edit_gated hlock

theorem serves_consumePendingRegistration (hlevel : row.level ≠ "local") (passwordOk : Bool)
    (email phone : Option String) :
    Serves now row
      (passwordOk && (lapsed now row || filled row.email email ≠ row.email || filled row.phone phone ≠ row.phone))
      (consumePendingRegistration now passwordOk email phone row) := by
  unfold consumePendingRegistration
  cases passwordOk with
  | false => simp [Serves]
  | true =>
    simp only [if_true, Bool.true_and]
    rw [upgradeToNormal_above (by exact hlevel), issueSessionTokens_open (by exact hlock) (by exact hadm)]
    rw [lapsed_open hlock]
    refine ⟨gated_account _, gated_admission _, lockIsActive_of_unlocked (gated_isLocked _), ?_, ?_⟩
    · intro hchanged
      left
      intro heq
      have hlocked : row.isLocked = false := by
        rw [← heq]
        exact gated_isLocked _
      rw [(gated_eq_iff _).2 (by exact hlocked)] at heq
      have hemail := congrArg (fun r : LoginRow => r.email) heq
      have hphone := congrArg (fun r : LoginRow => r.phone) heq
      dsimp only at hemail hphone
      simp [hlocked, hemail, hphone] at hchanged
    · intro hkept
      simp only [Bool.or_eq_false_iff, decide_eq_false_iff_not, not_not] at hkept
      obtain ⟨⟨hlocked, hemail⟩, hphone⟩ := hkept
      rw [(gated_eq_iff _).2 (by exact hlocked), hemail, hphone]

omit hlock hadm in
theorem contactOf_setContact (contact : Contact) (value : Option String) (row : LoginRow) :
    contactOf contact (setContact contact value row) = value := by
  cases contact <;> rfl

omit hlock hadm in
theorem setContact_contactOf (contact : Contact) (row : LoginRow) :
    setContact contact (contactOf contact row) row = row := by
  cases contact <;> rfl

omit hadm in
theorem edit_setContact (contact : Contact) (value : Option String) :
    Edit now row (decide (contactOf contact row ≠ value)) (setContact contact value row) := by
  refine ⟨by cases contact <;> rfl, by cases contact <;> rfl, by cases contact <;> exact hlock, ?_, ?_⟩
  · intro hchanged
    left
    intro heq
    have hvalue : contactOf contact row = value := by
      rw [← heq, contactOf_setContact]
    simp [hvalue] at hchanged
  · intro hkept
    have hvalue : contactOf contact row = value := by simpa using of_decide_eq_false hkept
    rw [← hvalue, setContact_contactOf]

omit hadm in
theorem serves_bindVerify (hlevel : row.level ≠ "local") (contact : Contact) (value : String) (codeOk taken : Bool) :
    Serves now row (codeOk && !taken && contactOf contact row ≠ some value)
      (bindVerify contact value codeOk taken row) := by
  unfold bindVerify
  cases codeOk with
  | false => simp [Serves]
  | true =>
    cases taken with
    | true => simp [Serves]
    | false =>
      have hlevel' : (setContact contact (some value) row).level ≠ "local" := by cases contact <;> exact hlevel
      simp only [Bool.true_eq_false, Bool.false_eq_true, if_false, upgradeToNormal_above hlevel', Bool.true_and,
        Bool.not_false]
      exact edit_setContact hlock contact (some value)

omit hadm in
theorem serves_unbind (contact : Contact) (secondFactorOk oauthBindings : Bool) :
    Serves now row
      (secondFactorOk && decide (1 < countLoginWays row oauthBindings) && truthy (contactOf contact row))
      (unbind contact secondFactorOk oauthBindings row) := by
  unfold unbind
  cases secondFactorOk with
  | false => simp [Serves]
  | true =>
    by_cases hways : countLoginWays row oauthBindings ≤ 1
    · simp [hways, Serves]
    · have hmore : 1 < countLoginWays row oauthBindings := not_le.1 hways
      cases hbound : truthy (contactOf contact row) with
      | false => simp [hways, Serves]
      | true =>
        have hne : contactOf contact row ≠ none := by
          intro hnone
          simp [hnone, truthy] at hbound
        have hedit := edit_setContact hlock contact none
        simp only [hne, ne_eq, not_false_eq_true, decide_true] at hedit
        simpa [hways, hmore, Serves] using hedit

omit hlock in
theorem serves_decideAdmission (approve : Bool) :
    Serves now row (decide (row.admissionStatus = "pending")) (decideAdmission approve row) := by
  have hstatus : (if row.admissionStatus = "" then "active" else row.admissionStatus) = "active" :=
    of_decide_eq_true hadm
  have hnot : row.admissionStatus ≠ "pending" := by
    intro hpending
    simp [hpending] at hstatus
  unfold decideAdmission
  rw [hstatus]
  simp [Serves, hnot]

omit hlock hadm in
theorem serves_cmdUnlock :
    Serves now row (row.isLocked || row.lockedUntil.isSome || row.failedLoginAttempts ≠ 0) (.ok (cmdUnlock row)) := by
  refine ⟨rfl, rfl, lockIsActive_of_unlocked rfl, ?_, ?_⟩
  · intro hchanged
    left
    intro heq
    rw [← heq] at hchanged
    simp [cmdUnlock] at hchanged
  · intro hkept
    simp only [Bool.or_eq_false_iff, Option.isSome_eq_false_iff, Option.isNone_iff_eq_none, decide_eq_false_iff_not,
      not_not] at hkept
    obtain ⟨⟨hlocked, huntil⟩, hattempts⟩ := hkept
    unfold cmdUnlock
    rw [← hlocked, ← huntil, ← hattempts]

/-- one call, unless it is meant to end the session -/
theorem serves_call (call : Call) (hrevokes : call.revokes = false) (hraises : call.raises row = false) :
    Serves now row (call.updates now row) (serve now call row) := by
  cases call with
  | loginPassword passwordOk taken => exact serves_loginPassword hlock hadm passwordOk taken
  | signIn => exact serves_signIn hlock hadm
  | registerLocal passwordOk taken =>
    exact serves_registerLocal hlock hadm (of_decide_eq_false hraises) passwordOk taken
  | registerByVerify => exact serves_registerByVerify hlock hadm (of_decide_eq_false hraises)
  | consumePendingRegistration passwordOk email phone =>
    exact serves_consumePendingRegistration hlock hadm (of_decide_eq_false hraises) passwordOk email phone
  | bindVerify contact value codeOk taken =>
    exact serves_bindVerify hlock (of_decide_eq_false hraises) contact value codeOk taken
  | unbind contact secondFactorOk oauthBindings => exact serves_unbind hlock contact secondFactorOk oauthBindings
  | updateProfile => exact edit_same hlock
  | decideAdmission approve => exact serves_decideAdmission hadm approve
  | cmdUnlock => exact serves_cmdUnlock
  | resetPassword => cases hrevokes
  | revokeAll => cases hrevokes
  | changeRole account => cases hrevokes

end Open

/-- what the request's session leaves of the row -/
structure Leaves (now : ℤ) (row : LoginRow) (changed : Bool) (after : LoginRow) : Prop where
  account : after.toAccount = row.toAccount
  admission : after.admissionStatus = row.admissionStatus
  unlocked : lockIsActive now after.toUserRow = false
  updatedAt : after.updatedAt = if changed then some now else row.updatedAt

theorem leaves_getAuthSession {now : ℤ} {row : LoginRow} {changed : Bool} {result : Except Raised LoginRow}
    (hlock : lockIsActive now row.toUserRow = false) (h : Serves now row changed result) :
    Leaves now row changed (getAuthSession now row result) := by
  cases result with
  | error raised =>
    have hchanged : changed = false := h
    exact ⟨rfl, rfl, hlock, by simp [hchanged, getAuthSession]⟩
  | ok edited =>
    have hedit : Edit now row changed edited := h
    unfold getAuthSession
    dsimp only
    split_ifs with hsame
    · refine ⟨rfl, rfl, hlock, ?_⟩
      cases hchanged : changed with
      | false => rfl
      | true =>
        rcases hedit.changes hchanged with hne | hstamp
        · exact absurd hsame hne
        · rw [← hsame]
          exact hstamp
    · refine ⟨hedit.account, hedit.admission, hedit.unlocked, ?_⟩
      cases hchanged : changed with
      | false => exact absurd (hedit.keeps hchanged) hsame
      | true => rfl

/-! ## What one operation does to a token in good standing -/

/-- the checks that both paths share, on the row they find -/
structure Standing (r : Realm) (p : Payload) (user : UserId) (active : List String) (row : LoginRow) : Prop where
  named : p.userId = some (some user)
  unrefused : Unrefused r.world p
  found : r.rows user = some row
  roles : ∃ selected, sessionRolesClaim p.activeRoles = some selected ∧
    sessionRoles r.policy row.toUserRow selected = some active
  unlocked : lockIsActive r.now row.toUserRow = false
  admitted : admissionIsActive row.toUserRow = true

theorem standing_iff {r : Realm} {p : Payload} {user : UserId} (hid : p.userId = some (some user))
    {found : UserRow} {active : List String} :
    Passes r.world p found active ↔ ∃ row, row.toUserRow = found ∧ Standing r p user active row := by
  constructor
  · intro h
    obtain ⟨other, selected, hpre, hrow, hroles⟩ := h.prechecked
    obtain ⟨hun, hclaim, hother⟩ := precheck_ok.1 hpre
    rw [hid] at hother
    obtain rfl : user = other := by simpa using hother
    obtain ⟨row, hfound, rfl⟩ := Option.map_eq_some_iff.1 hrow
    exact ⟨row, rfl, hid, hun, hfound, ⟨selected, hclaim, hroles⟩, h.unlocked, h.admitted⟩
  · intro h
    obtain ⟨row, rfl, hstanding⟩ := h
    obtain ⟨selected, hclaim, hroles⟩ := hstanding.roles
    refine ⟨⟨user, selected, precheck_ok.2 ⟨hstanding.unrefused, hclaim, hid⟩, ?_, hroles⟩, hstanding.unlocked,
      hstanding.admitted⟩
    simp [Realm.world, hstanding.found]

theorem sessionRoles_congr {policy : Policy} {row other : UserRow} (h : other.toAccount = row.toAccount)
    (selected : Option (List String)) : sessionRoles policy other selected = sessionRoles policy row selected := by
  unfold sessionRoles Account.role
  rw [h]

/-- Redis refuses no more than before -/
theorem unrefused_of {r : Realm} (later : Realm) {p : Payload} {user : UserId} (hid : p.userId = some (some user))
    (h : Unrefused r.world p) (hparse : later.parseInt = r.parseInt)
    (hblocked : ∀ jti, jtiOf p.jti = some jti → later.blocked jti = true → r.blocked jti = true)
    (hcached : later.cachedVersion user = r.cachedVersion user ∨ later.cachedVersion user = none) :
    Unrefused later.world p := by
  obtain ⟨hjti, hstale⟩ := h
  refine ⟨?_, ?_⟩
  · cases hid' : jtiOf p.jti with
    | none => simp [isJtiBlocked, hid']
    | some jti =>
      have hopen : r.blocked jti = false := by simpa [isJtiBlocked, hid', Realm.world] using hjti
      cases hlater : later.blocked jti with
      | false => simp [isJtiBlocked, hid', Realm.world, hlater]
      | true =>
        have := hblocked jti hid' hlater
        rw [hopen] at this
        cases this
  · intro other hother
    rw [hid] at hother
    obtain rfl : user = other := by simpa using hother
    have hbefore := hstale user hid
    unfold tokenVersionIsStale at hbefore ⊢
    split
    · rfl
    · rcases hcached with hsame | hgone
      · simpa [Realm.world, hparse, hsame] using hbefore
      · simp [Realm.world, hgone]

/-- a spared call writes no version to Redis -/
theorem announces_spared {row : LoginRow} {call : Call} (h : call.revokes = false) : call.announces row = none := by
  cases call with
  | decideAdmission approve =>
    cases approve with
    | true => rfl
    | false => cases h
  | resetPassword => cases h
  | revokeAll => cases h
  | _ => rfl

/-- what an operation leaves of the user's row and of what both paths ask -/
structure Spares (r later : Realm) (p : Payload) (user : UserId) (active : List String) (row after : LoginRow)
    (times : List ℤ) : Prop where
  standing : Standing later p user active after
  account : after.toAccount = row.toAccount
  updatedAt : after.updatedAt = times.getLast?.or row.updatedAt
  revoked : (jtiOf p.jti).any later.revoked = (jtiOf p.jti).any r.revoked
  parseInt : later.parseInt = r.parseInt

theorem Standing.later {r later : Realm} {p : Payload} {user : UserId} {active : List String} {row after : LoginRow}
    (h : Standing r p user active row) (hpolicy : later.policy = r.policy) (hfound : later.rows user = some after)
    (haccount : after.toAccount = row.toAccount) (hadmission : after.admissionStatus = row.admissionStatus)
    (hunlocked : lockIsActive later.now after.toUserRow = false) (hun : Unrefused later.world p) :
    Standing later p user active after := by
  obtain ⟨selected, hclaim, hroles⟩ := h.roles
  refine ⟨h.named, hun, hfound, ⟨selected, hclaim, ?_⟩, hunlocked, ?_⟩
  · rw [hpolicy, sessionRoles_congr haccount]
    exact hroles
  · rw [admissionIsActive_congr hadmission]
    exact h.admitted

theorem step_spares {r : Realm} {p : Payload} {user : UserId} {active : List String} {row : LoginRow} (elapsed : ℕ)
    {op : Op} (h : Standing r p user active row) (hspared : op.ends p user r = false) :
    ∃ after, Spares r (step r elapsed op) p user active row after (op.updateTimes user r elapsed) := by
  have hlock : lockIsActive (r.now + elapsed) row.toUserRow = false := lockIsActive_later (by omega) h.unlocked
  cases op with
  | request other call =>
    by_cases hother : other = user
    · subst hother
      have hends : call.revokes = false ∧ call.raises row = false := by
        simpa [Op.ends, h.found] using hspared
      have hleaves := leaves_getAuthSession hlock (serves_call hlock h.admitted call hends.1 hends.2)
      have hun : Unrefused (step r elapsed (.request other call)).world p := by
        apply unrefused_of (step r elapsed (.request other call)) h.named h.unrefused rfl (fun _ _ hblocked => hblocked)
        left
        simp [step, h.found, announces_spared hends.1]
      refine ⟨_, h.later rfl (by simp [step, h.found]) hleaves.account hleaves.admission hleaves.unlocked hun,
        hleaves.account, ?_, rfl, rfl⟩
      rw [hleaves.updatedAt]
      unfold Op.updateTimes
      cases hupdates : call.updates (r.now + elapsed) row with
      | false => simp [Op.updates, h.found, hupdates]
      | true => simp [Op.updates, h.found, hupdates]
    · have hfound : (step r elapsed (.request other call)).rows user = some row := by
        simp [step, Function.update_of_ne (Ne.symm hother), h.found]
      have hun : Unrefused (step r elapsed (.request other call)).world p := by
        apply unrefused_of (step r elapsed (.request other call)) h.named h.unrefused rfl (fun _ _ hblocked => hblocked)
        left
        simp [step, Ne.symm hother]
      exact ⟨row, h.later rfl hfound rfl rfl hlock hun, rfl, by simp [Op.updateTimes, Op.updates, hother], rfl, rfl⟩
  | createUser other fresh =>
    have hfound : (step r elapsed (.createUser other fresh)).rows user = some row := by
      by_cases hother : user = other
      · subst hother
        simp [step, h.found]
      · simp only [step]
        split_ifs
        · rw [Function.update_of_ne hother]
          exact h.found
        · exact h.found
    exact ⟨row, h.later rfl hfound rfl rfl hlock h.unrefused, rfl, by simp [Op.updateTimes, Op.updates], rfl, rfl⟩
  | revokeAccessToken jti =>
    have hne : jtiOf p.jti ≠ some jti := of_decide_eq_false hspared
    have hun : Unrefused (step r elapsed (.revokeAccessToken jti)).world p := by
      apply unrefused_of (step r elapsed (.revokeAccessToken jti)) h.named h.unrefused rfl
      · intro own hown hblocked
        have hdiffer : own ≠ jti := fun heq => hne (by rw [hown, heq])
        simpa [step, hdiffer] using hblocked
      · exact Or.inl rfl
    refine ⟨row, h.later rfl h.found rfl rfl hlock hun, rfl, by simp [Op.updateTimes, Op.updates], ?_, rfl⟩
    cases hown : jtiOf p.jti with
    | none => rfl
    | some own =>
      have hdiffer : own ≠ jti := fun heq => hne (by rw [hown, heq])
      simp [step, hdiffer]
  | redisForgets jtis users =>
    have hun : Unrefused (step r elapsed (.redisForgets jtis users)).world p := by
      apply unrefused_of (step r elapsed (.redisForgets jtis users)) h.named h.unrefused rfl
      · intro own _ hblocked
        have hboth : r.blocked own = true ∧ jtis own = false := by simpa [step] using hblocked
        exact hboth.1
      · cases hforgot : users user with
        | false => exact Or.inl (by simp [step, hforgot])
        | true => exact Or.inr (by simp [step, hforgot])
    exact ⟨row, h.later rfl h.found rfl rfl hlock hun, rfl, by simp [Op.updateTimes, Op.updates], rfl, rfl⟩

/-! ## What a run does -/

theorem runOps_spares {r : Realm} {p : Payload} {user : UserId} {active : List String} {row : LoginRow}
    {run : List (ℕ × Op)} (h : Standing r p user active row) (hspared : spared p user r run = true) :
    ∃ after, Spares r (runOps r run) p user active row after (updateTimes user r run) := by
  induction run generalizing r row with
  | nil => exact ⟨row, h, rfl, by simp [updateTimes], rfl, rfl⟩
  | cons entry rest ih =>
    obtain ⟨elapsed, op⟩ := entry
    have hboth : op.ends p user r = false ∧ spared p user (step r elapsed op) rest = true := by
      simpa [spared] using hspared
    obtain ⟨mid, hmid⟩ := step_spares elapsed h hboth.1
    obtain ⟨after, hafter⟩ := ih hmid.standing hboth.2
    refine ⟨after, hafter.standing, hafter.account.trans hmid.account, ?_, hafter.revoked.trans hmid.revoked,
      hafter.parseInt.trans hmid.parseInt⟩
    rw [hafter.updatedAt, hmid.updatedAt, ← Option.or_assoc]
    simp [updateTimes, List.getLast?_append]

/-- the clock goes forward -/
theorem le_updateTimes (user : UserId) (r : Realm) (run : List (ℕ × Op)) :
    (∀ time ∈ updateTimes user r run, r.now ≤ time) ∧ (updateTimes user r run).Pairwise (· ≤ ·) := by
  induction run generalizing r with
  | nil => simp [updateTimes]
  | cons entry rest ih =>
    obtain ⟨elapsed, op⟩ := entry
    obtain ⟨hle, hsorted⟩ := ih (step r elapsed op)
    have hnow : (step r elapsed op).now = r.now + elapsed := by
      cases op <;> rfl
    rw [hnow] at hle
    have hown : ∀ time ∈ op.updateTimes user r elapsed, time = r.now + elapsed := by
      intro time htime
      unfold Op.updateTimes at htime
      split_ifs at htime
      · simpa using htime
      · simp at htime
    refine ⟨?_, ?_⟩
    · intro time htime
      rcases List.mem_append.1 htime with hfirst | hrest
      · rw [hown time hfirst]
        omega
      · have := hle time hrest
        omega
    · unfold updateTimes
      refine List.pairwise_append.2 ⟨?_, hsorted, ?_⟩
      · unfold Op.updateTimes
        split_ifs <;> simp
      · intro first hfirst time htime
        rw [hown first hfirst]
        exact hle time htime

/-- for a bound on the time, it is enough to ask the last update -/
theorem last_updateTime_iff {user : UserId} {r : Realm} {run : List (ℕ × Op)} {recent : ℤ → Prop}
    (hmono : ∀ time later, time ≤ later → recent later → recent time) {updatedAt : Option ℤ}
    (hbefore : ∀ time, updatedAt = some time → recent time) :
    (∀ time, (updateTimes user r run).getLast?.or updatedAt = some time → recent time) ↔
      ∀ time ∈ updateTimes user r run, recent time := by
  have hsorted := (le_updateTimes user r run).2
  rcases List.eq_nil_or_concat (updateTimes user r run) with hnil | ⟨front, last, hlast⟩
  · simpa [hnil] using hbefore
  · rw [hlast] at hsorted ⊢
    simp only [List.concat_eq_append, List.getLast?_append, List.getLast?_singleton, Option.some_or, Option.some.injEq,
      List.mem_append, List.mem_singleton]
    constructor
    · intro h time htime
      rcases htime with hfront | rfl
      · have hle : time ≤ last := by
          rw [List.concat_eq_append, List.pairwise_append] at hsorted
          exact hsorted.2.2 time hfront last (by simp)
        exact hmono time last hle (h last rfl)
      · exact h time rfl
    · intro h time htime
      exact h time (Or.inr htime.symm)

/-! ## The two paths after a run -/

theorem valid_localPath {r : Realm} {p : Payload} {user : UserId} (hid : p.userId = some (some user)) :
    Valid localPath r p ↔ ∃ active row, Standing r p user active row ∧ p.tokenVersion.differs row.tokenVersion = false ∧
      ∀ time, row.updatedAt = some time → RecentLocal p time := by
  constructor
  · intro h
    obtain ⟨active, haccepts⟩ := h
    obtain ⟨found, hpasses, hversion, hfresh⟩ := accepts_localPath.1 haccepts
    obtain ⟨row, rfl, hstanding⟩ := (standing_iff hid).1 hpasses
    exact ⟨active, row, hstanding, hversion, hfresh⟩
  · intro h
    obtain ⟨active, row, hstanding, hversion, hfresh⟩ := h
    exact ⟨active, accepts_localPath.2 ⟨row.toUserRow, (standing_iff hid).2 ⟨row, rfl, hstanding⟩, hversion, hfresh⟩⟩

theorem valid_seamPath {r : Realm} {p : Payload} {user : UserId} (hid : p.userId = some (some user)) :
    Valid seamPath r p ↔ ∃ active row, Standing r p user active row ∧ (jtiOf p.jti).any r.revoked = false ∧
      p.tokenVersion.expected r.parseInt = some (row.tokenVersion : ℤ) ∧
      ∀ time, row.updatedAt = some time → RecentSeam p time := by
  constructor
  · intro h
    obtain ⟨active, haccepts⟩ := h
    obtain ⟨found, hpasses, hrevoked, hversion, hfresh⟩ := accepts_seamPath.1 haccepts
    obtain ⟨row, rfl, hstanding⟩ := (standing_iff hid).1 hpasses
    exact ⟨active, row, hstanding, hrevoked, hversion, hfresh⟩
  · intro h
    obtain ⟨active, row, hstanding, hrevoked, hversion, hfresh⟩ := h
    exact ⟨active, accepts_seamPath.2
      ⟨row.toUserRow, (standing_iff hid).2 ⟨row, rfl, hstanding⟩, hrevoked, hversion, hfresh⟩⟩

theorem Standing.row_unique {r : Realm} {p : Payload} {user : UserId} {active other : List String} {row found : LoginRow}
    (h : Standing r p user active row) (h' : Standing r p user other found) : found = row :=
  Option.some.inj (h'.found.symm.trans h.found)

theorem recentLocal_mono {p : Payload} (time later : ℤ) (hle : time ≤ later) (h : RecentLocal p later) :
    RecentLocal p time := by
  obtain ⟨issued, hissued, hrecent⟩ := h
  exact ⟨issued, hissued, by omega⟩

theorem recentSeam_mono {p : Payload} (time later : ℤ) (hle : time ≤ later) (h : RecentSeam p later) :
    RecentSeam p time := by
  unfold RecentSeam at h ⊢
  omega

theorem localPath_after {r : Realm} {p : Payload} {user : UserId} {run : List (ℕ × Op)}
    (hid : p.userId = some (some user)) (hspared : spared p user r run = true) (hvalid : Valid localPath r p) :
    Valid localPath (runOps r run) p ↔ ∀ time ∈ updateTimes user r run, RecentLocal p time := by
  obtain ⟨active, row, hstanding, hversion, hfresh⟩ := (valid_localPath hid).1 hvalid
  obtain ⟨after, hafter⟩ := runOps_spares hstanding hspared
  rw [← last_updateTime_iff recentLocal_mono hfresh, ← hafter.updatedAt, valid_localPath hid]
  constructor
  · intro h
    obtain ⟨other, found, hfound, _, hlater⟩ := h
    rw [← hafter.standing.row_unique hfound]
    exact hlater
  · intro h
    refine ⟨active, after, hafter.standing, ?_, h⟩
    rw [hafter.account]
    exact hversion

theorem seamPath_after {r : Realm} {p : Payload} {user : UserId} {run : List (ℕ × Op)}
    (hid : p.userId = some (some user)) (hspared : spared p user r run = true) (hvalid : Valid seamPath r p) :
    Valid seamPath (runOps r run) p ↔ ∀ time ∈ updateTimes user r run, RecentSeam p time := by
  obtain ⟨active, row, hstanding, hrevoked, hversion, hfresh⟩ := (valid_seamPath hid).1 hvalid
  obtain ⟨after, hafter⟩ := runOps_spares hstanding hspared
  rw [← last_updateTime_iff recentSeam_mono hfresh, ← hafter.updatedAt, valid_seamPath hid]
  constructor
  · intro h
    obtain ⟨other, found, hfound, _, _, hlater⟩ := h
    rw [← hafter.standing.row_unique hfound]
    exact hlater
  · intro h
    refine ⟨active, after, hafter.standing, ?_, ?_, h⟩
    · rw [hafter.revoked]
      exact hrevoked
    · rw [hafter.parseInt, hafter.account]
      exact hversion

/-- **Sessions that survive.** Over any run without a new password, a revocation, a rejection or a change of role of
this user, a token that a path accepted before is accepted after by that path exactly when every UPDATE of the user's
row in the run comes at most five seconds after the token's issue. Failed logins and changes of the profile update
nothing; a login with the password always does, and so does a change of the e-mail address or of the phone number. -/
theorem sessions_survive_iff (r : Realm) (run : List (ℕ × Op)) (p : Payload) (user : UserId)
    (hid : p.userId = some (some user)) (hspared : spared p user r run = true) :
    (Valid localPath r p →
      (Valid localPath (runOps r run) p ↔ ∀ time ∈ updateTimes user r run, RecentLocal p time)) ∧
    (Valid seamPath r p →
      (Valid seamPath (runOps r run) p ↔ ∀ time ∈ updateTimes user r run, RecentSeam p time)) :=
  ⟨localPath_after hid hspared, seamPath_after hid hspared⟩

/-- one member, whose row was last updated at the epoch -/
def memberRealm : Realm :=
  { policy := ⟨[], []⟩
    now := 100000000
    rows := fun user =>
      if user = 7 then
        some
          { level := "normal"
            profileRole := some "member"
            extraRoles := []
            tokenVersion := 1
            email := some "m@lkm"
            phone := none
            isLocked := false
            lockedUntil := none
            admissionStatus := "active"
            updatedAt := some 0
            failedLoginAttempts := 0 }
      else none
    revoked := fun _ => false
    blocked := fun _ => false
    cachedVersion := fun _ => none
    parseInt := fun _ => none }

/-- given out in the same second -/
def memberToken : Payload := ⟨.absent, some "a", some (some 7), .int 1, 100⟩

/-- a minute later somebody has guessed a password, and the member has a new picture -/
def quietRun : List (ℕ × Op) :=
  [(60000000, .request 7 (.loginPassword false true)), (1000000, .request 7 .updateProfile)]

theorem sessions_survive_iff_demo :
    Valid localPath (runOps memberRealm quietRun) memberToken ∧ Valid seamPath (runOps memberRealm quietRun) memberToken := by
  have hquiet : updateTimes 7 memberRealm quietRun = [] := by decide
  have hsurvive := sessions_survive_iff memberRealm quietRun memberToken 7 rfl (by decide +kernel)
  rw [hquiet] at hsurvive
  have hlocal : localPath memberRealm.world memberToken =
      .ok ⟨7, "normal", "member", ["normal:member"], some "m@lkm", none⟩ := by decide +kernel
  have hseam : seamPath memberRealm.world memberToken =
      .ok ⟨7, "normal", "member", ["normal:member"], none, none⟩ := by decide +kernel
  exact ⟨(hsurvive.1 ⟨_, _, hlocal, rfl⟩).2 (by simp), (hsurvive.2 ⟨_, _, hseam, rfl⟩).2 (by simp)⟩

/-- A member signs in again with the password, on another device and six seconds later: nothing was revoked, and the
first session is over on both paths. -/
theorem second_login_ends_session :
    spared memberToken 7 memberRealm [(6000000, .request 7 (.loginPassword true true))] = true ∧
    localPath memberRealm.world memberToken = .ok ⟨7, "normal", "member", ["normal:member"], some "m@lkm", none⟩ ∧
    seamPath memberRealm.world memberToken = .ok ⟨7, "normal", "member", ["normal:member"], none, none⟩ ∧
    localPath (runOps memberRealm [(6000000, .request 7 (.loginPassword true true))]).world memberToken =
      .error .tokenExpired ∧
    seamPath (runOps memberRealm [(6000000, .request 7 (.loginPassword true true))]).world memberToken =
      .error .tokenExpired := by
  decide +kernel

end LkmService.Auth.Requests
