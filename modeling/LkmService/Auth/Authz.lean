/-
The verdict on an access token, taken twice (`deps.py`, `service_authz.py`, `token_revocation.py`).

`localPath` reads the user in the request's own process; `seamPath` sends the version, the issue time and the token
id to `authorizeUser`. Both start with `precheck`, which asks Redis. `paths_agree` says which tokens each path accepts,
where the two agree, and that the questions to Redis only refuse.
-/
import Mathlib.Data.Rat.Floor
import LkmService.Auth.Levels

namespace LkmService.Auth

/-! ## The token and the stores -/

/-- the `token_version` of a decoded payload, by its JSON type -/
inductive VersionClaim where
  | absent
  | null
  | int (value : ℤ)
  | bool (value : Bool)
  | num (value : ℚ)
  | text (value : String)
  | other

inductive RolesClaim where
  | absent
  | roles (names : List String)
  | malformed

/-- the payload of a token whose signature, audience, expiry and type have passed; `iat` is required of it -/
structure Payload where
  activeRoles : RolesClaim
  jti : Option String
  /-- `none` is missing or empty, `some none` is no identifier -/
  userId : Option (Option UserId)
  tokenVersion : VersionClaim
  iat : ℚ

structure UserRow extends Account where
  email : Option String
  phone : Option String
  isLocked : Bool
  lockedUntil : Option ℤ
  admissionStatus : String
  updatedAt : Option ℤ

structure World where
  policy : Policy
  /-- microseconds since the epoch, as all times here -/
  now : ℤ
  users : UserId → Option UserRow
  /-- the table of revoked access tokens -/
  revoked : String → Bool
  /-- the `jti:block` keys that Redis answers with; nothing when it is unreachable -/
  blocked : String → Bool
  /-- the version Redis answers with -/
  cachedVersion : UserId → Option ℤ
  /-- `int` of a text -/
  parseInt : String → Option ℤ

inductive AuthErr where
  | tokenInvalid
  | tokenExpired
  | userNotFound
  | accountLocked
  | forbidden
  /-- an exception that no handler turns into a refusal of its own -/
  | uncaught
  deriving DecidableEq

structure CurrentUser where
  id : UserId
  accountLevel : String
  role : String
  activeRoles : List String
  email : Option String
  phone : Option String
  deriving DecidableEq

/-! ## The shared checks -/

/-- `session_roles_claim`; the outer `none` is the `ValueError` -/
def sessionRolesClaim : RolesClaim → Option (Option (List String))
  | .absent => some none
  | .roles names => some (some names)
  | .malformed => none

/-- `int` of the claim's value; a fraction is cut towards zero -/
def VersionClaim.toInt (parseInt : String → Option ℤ) : VersionClaim → Option ℤ
  | .absent => none
  | .null => none
  | .int value => some value
  | .bool value => some (if value then 1 else 0)
  | .num value => some (value.num.tdiv value.den)
  | .text value => parseInt value
  | .other => none

/-- a missing or empty token id is no id -/
def jtiOf (jti : Option String) : Option String := jti.filter (· ≠ "")

def isJtiBlocked (w : World) (jti : Option String) : Bool := (jtiOf jti).any w.blocked

/-- only what is provably older than the cached version is stale -/
def tokenVersionIsStale (w : World) (user : UserId) (claim : VersionClaim) : Bool :=
  match claim with
  | .bool _ => false
  | _ =>
    match claim.toInt w.parseInt, w.cachedVersion user with
    | some carried, some cached => carried < cached
    | _, _ => false

/-- what `_resolve_current_user` does before the two paths part -/
def precheck (w : World) (p : Payload) : Except AuthErr (UserId × Option (List String)) :=
  match sessionRolesClaim p.activeRoles with
  | none => .error .tokenInvalid
  | some selected =>
    if isJtiBlocked w p.jti then .error .tokenExpired
    else
      match p.userId with
      | none => .error .tokenInvalid
      | some none => .error .tokenInvalid
      | some (some user) =>
        if tokenVersionIsStale w user p.tokenVersion then .error .tokenExpired else .ok (user, selected)

/-- a lock without an end is permanent -/
def lockIsActive (now : ℤ) (row : UserRow) : Bool :=
  row.isLocked && (match row.lockedUntil with | none => true | some lockedUntil => decide (lockedUntil > now))

def admissionIsActive (row : UserRow) : Bool :=
  (if row.admissionStatus = "" then "active" else row.admissionStatus) = "active"

/-- to the nearest integer, ties to the even one -/
def roundHalfEven (q : ℚ) : ℤ := if q - ⌊q⌋ = 1 / 2 ∧ ⌊q⌋ % 2 = 0 then ⌊q⌋ else ⌊q + 1 / 2⌋

/-- `datetime.fromtimestamp` in microseconds; `none` where it raises, outside of the years 1 to 9999 -/
def fromTimestamp (seconds : ℚ) : Option ℤ :=
  let micros := roundHalfEven (seconds * 1000000)
  if -62135596800000000 ≤ micros ∧ micros < 253402300800000000 then some micros else none

/-- the clock tolerance of five seconds -/
def iatTolerance : ℤ := 5000000

/-- the separation check, and the roles the session runs with -/
def sessionRoles (policy : Policy) (row : UserRow) (selected : Option (List String)) : Option (List String) :=
  if satisfiesConstraints (authorizedRoles row.level row.role row.extraRoles) policy.ssd = false then none
  else activatedRoles policy row.level row.role row.extraRoles selected

/-! ## The local path -/

/-- `token_ver is not None and token_ver != user.token_version`: a text is never equal to a number -/
def VersionClaim.differs (version : ℤ) : VersionClaim → Bool
  | .absent => false
  | .null => false
  | .int value => value ≠ version
  | .bool value => (if value then 1 else 0) ≠ version
  | .num value => value ≠ version
  | .text _ => true
  | .other => true

/-- the tail of `_resolve_current_user` with the seam off -/
def localPath (w : World) (p : Payload) : Except AuthErr CurrentUser :=
  match precheck w p with
  | .error e => .error e
  | .ok (user, selected) =>
    match w.users user with
    | none => .error .userNotFound
    | some row =>
      if lockIsActive w.now row then .error .accountLocked
      else if ¬ admissionIsActive row then .error .accountLocked
      else if p.tokenVersion.differs row.tokenVersion then .error .tokenExpired
      else
        let stale : Except AuthErr Bool :=
          match row.updatedAt with
          | none => .ok false
          | some updated =>
            match fromTimestamp p.iat with
            | none => .error .uncaught
            | some issued => .ok (decide (updated - issued > iatTolerance))
        match stale with
        | .error e => .error e
        | .ok true => .error .tokenExpired
        | .ok false =>
          match sessionRoles w.policy row selected with
          | none => .error .tokenInvalid
          | some active =>
            .ok
              { id := user
                accountLevel := row.level
                role := row.role
                activeRoles := active
                email := row.email
                phone := row.phone }

/-! ## The seam -/

inductive Cause where
  | notFound
  | locked
  | sessionRevoked
  | passwordChanged
  | notAdmin
  deriving DecidableEq

structure Verdict where
  accountLevel : String
  role : String
  activeRoles : List String

/-- `authorize_user`; an issue time that is no date counts as the epoch -/
def authorizeUser (w : World) (user : UserId) (expectTokenVersion : ℤ) (iat : Option ℚ) (requireAdmin : Bool)
    (jti : Option String) (selected : Option (List String)) : Except Cause Verdict :=
  if (jtiOf jti).any w.revoked then .error .sessionRevoked
  else
    match w.users user with
    | none => .error .notFound
    | some row =>
      if lockIsActive w.now row then .error .locked
      else if ¬ admissionIsActive row then .error .locked
      else if expectTokenVersion ≠ row.tokenVersion then .error .sessionRevoked
      else
        let stale : Bool :=
          match row.updatedAt, iat with
          | some updated, some seconds => decide (updated - (fromTimestamp seconds).getD 0 > iatTolerance)
          | _, _ => false
        if stale then .error .passwordChanged
        else if requireAdmin ∧ row.level ≠ "admin" then .error .notAdmin
        else
          match sessionRoles w.policy row selected with
          | none => .error .sessionRevoked
          | some active => .ok { accountLevel := row.level, role := row.role, activeRoles := active }

/-- `_fail_current_user` -/
def Cause.toErr : Cause → AuthErr
  | .locked => .accountLocked
  | .sessionRevoked => .tokenExpired
  | .passwordChanged => .tokenExpired
  | .notFound => .userNotFound
  | .notAdmin => .forbidden

/-- `int(payload.get("token_version", 0))`; `none` where `int` raises -/
def VersionClaim.expected (parseInt : String → Option ℤ) : VersionClaim → Option ℤ
  | .absent => some 0
  | claim => claim.toInt parseInt

/-- the answer gives the roles the session selected, each once -/
def rolesProven (active : List String) : Option (List String) → Bool
  | none => true
  | some roles => decide active.Nodup && active.all (· ∈ roles) && roles.all (· ∈ active)

/-- `_resolve_current_user` with the seam on, over an answer that arrives -/
def seamPath (w : World) (p : Payload) : Except AuthErr CurrentUser :=
  match precheck w p with
  | .error e => .error e
  | .ok (user, selected) =>
    match p.tokenVersion.expected w.parseInt with
    | none => .error .uncaught
    | some expected =>
      match authorizeUser w user expected (some p.iat) false p.jti selected with
      | .error cause => .error cause.toErr
      | .ok verdict =>
        if rolesProven verdict.activeRoles selected then
          .ok
            { id := user
              accountLevel := verdict.accountLevel
              role := if verdict.role = "" then "member" else verdict.role
              activeRoles := verdict.activeRoles
              email := none
              phone := none }
        else .error .tokenInvalid

/-! ## What each path accepts -/

/-- the path accepts the token and gives the session these roles -/
def Accepts (result : Except AuthErr CurrentUser) (active : List String) : Prop :=
  ∃ user, result = .ok user ∧ user.activeRoles = active

/-- the checks that both paths make, on the row they find -/
structure Passes (w : World) (p : Payload) (row : UserRow) (active : List String) : Prop where
  prechecked : ∃ user selected, precheck w p = .ok (user, selected) ∧ w.users user = some row ∧
    sessionRoles w.policy row selected = some active
  unlocked : lockIsActive w.now row = false
  admitted : admissionIsActive row = true

/-- issued no more than the tolerance before the last update; the local path has no answer for a time that is no date -/
def FreshLocal (p : Payload) (row : UserRow) : Prop :=
  ∀ updated, row.updatedAt = some updated → ∃ issued, fromTimestamp p.iat = some issued ∧ updated - issued ≤ iatTolerance

def FreshSeam (p : Payload) (row : UserRow) : Prop :=
  ∀ updated, row.updatedAt = some updated → updated - (fromTimestamp p.iat).getD 0 ≤ iatTolerance

theorem accepts_localPath {w : World} {p : Payload} {active : List String} :
    Accepts (localPath w p) active ↔
      ∃ row, Passes w p row active ∧ p.tokenVersion.differs row.tokenVersion = false ∧ FreshLocal p row := by
  constructor
  · rintro ⟨user, hok, rfl⟩
    unfold localPath at hok
    rcases hpre : precheck w p with e | ⟨id, selected⟩
    · simp [hpre] at hok
    · rcases hrow : w.users id with _ | row
      · simp [hpre, hrow] at hok
      · simp only [hpre, hrow] at hok
        split_ifs at hok with hlock hadm hver
        have hfresh : FreshLocal p row := by
          intro updated hupdated
          simp only [hupdated] at hok
          rcases hissued : fromTimestamp p.iat with _ | issued
          · simp [hissued] at hok
          · refine ⟨issued, rfl, ?_⟩
            by_contra hlate
            simp [hissued, show updated - issued > iatTolerance by omega] at hok
        split at hok
        · cases hok
        · cases hok
        · rcases hroles : sessionRoles w.policy row selected with _ | active
          · simp [hroles] at hok
          · simp only [hroles, Except.ok.injEq] at hok
            subst hok
            exact ⟨row, ⟨⟨id, selected, hpre, hrow, hroles⟩, by simpa using hlock, by simpa using hadm⟩,
              by simpa using hver, hfresh⟩
  · rintro ⟨row, ⟨⟨id, selected, hpre, hrow, hroles⟩, hlock, hadm⟩, hver, hfresh⟩
    have hstale : (match row.updatedAt with
        | none => (.ok false : Except AuthErr Bool)
        | some updated =>
          match fromTimestamp p.iat with
          | none => .error .uncaught
          | some issued => .ok (decide (updated - issued > iatTolerance))) = .ok false := by
      rcases hupdated : row.updatedAt with _ | updated
      · rfl
      · obtain ⟨issued, hissued, hle⟩ := hfresh updated hupdated
        simp only [hissued, Except.ok.injEq, decide_eq_false_iff_not]
        omega
    exact ⟨⟨id, row.level, row.role, active, row.email, row.phone⟩,
      by simp [localPath, hpre, hrow, hlock, hadm, hver, hstale, hroles], rfl⟩

/-- the roles a session runs with always pass the seam's last check -/
theorem sessionRoles_proven {policy : Policy} {row : UserRow} {selected : Option (List String)} {active : List String}
    (h : sessionRoles policy row selected = some active) : rolesProven active selected = true := by
  rcases selected with _ | roles
  · rfl
  · unfold sessionRoles at h
    split_ifs at h
    obtain ⟨hnodup, hmem⟩ := activatedRoles_selected h
    simp only [rolesProven, Bool.and_eq_true, decide_eq_true_eq, List.all_eq_true]
    exact ⟨⟨hnodup, fun role hrole => (hmem role).1 hrole⟩, fun role hrole => (hmem role).2 hrole⟩

/-- what `authorize_user` allows a front-end session -/
theorem authorizeUser_ok {w : World} {user : UserId} {expected : ℤ} {iat : ℚ} {jti : Option String}
    {selected : Option (List String)} {verdict : Verdict} :
    authorizeUser w user expected (some iat) false jti selected = .ok verdict ↔
      (jtiOf jti).any w.revoked = false ∧ ∃ row, w.users user = some row ∧ lockIsActive w.now row = false ∧
        admissionIsActive row = true ∧ expected = row.tokenVersion ∧
        (∀ updated, row.updatedAt = some updated → updated - (fromTimestamp iat).getD 0 ≤ iatTolerance) ∧
        ∃ active, sessionRoles w.policy row selected = some active ∧ verdict = ⟨row.level, row.role, active⟩ := by
  constructor
  · intro hok
    unfold authorizeUser at hok
    rcases hrow : w.users user with _ | row
    · simp only [hrow] at hok
      split_ifs at hok
    · simp only [hrow] at hok
      split_ifs at hok with hrevoked hlock hadm hver hstale hadmin
      rcases hroles : sessionRoles w.policy row selected with _ | active
      · simp [hroles] at hok
      · simp only [hroles, Except.ok.injEq] at hok
        refine ⟨by simpa using hrevoked, row, rfl, by simpa using hlock, by simpa using hadm, by simpa using hver,
          fun updated hupdated => ?_, active, hroles, hok.symm⟩
        simpa [hupdated] using hstale
  · rintro ⟨hrevoked, row, hrow, hlock, hadm, hver, hfresh, active, hroles, rfl⟩
    have hstale : (match row.updatedAt, some iat with
        | some updated, some seconds => decide (updated - (fromTimestamp seconds).getD 0 > iatTolerance)
        | _, _ => false) = false := by
      rcases hupdated : row.updatedAt with _ | updated
      · rfl
      · have := hfresh updated hupdated
        simp only [decide_eq_false_iff_not]
        omega
    simp [authorizeUser, hrevoked, hrow, hlock, hadm, hver, hstale, hroles]

theorem accepts_seamPath {w : World} {p : Payload} {active : List String} :
    Accepts (seamPath w p) active ↔
      ∃ row, Passes w p row active ∧ (jtiOf p.jti).any w.revoked = false ∧
        p.tokenVersion.expected w.parseInt = some (row.tokenVersion : ℤ) ∧ FreshSeam p row := by
  constructor
  · rintro ⟨user, hok, rfl⟩
    unfold seamPath at hok
    rcases hpre : precheck w p with e | ⟨id, selected⟩
    · simp [hpre] at hok
    · rcases hexp : p.tokenVersion.expected w.parseInt with _ | expected
      · simp [hpre, hexp] at hok
      · rcases hauth : authorizeUser w id expected (some p.iat) false p.jti selected with cause | verdict
        · simp [hpre, hexp, hauth] at hok
        · obtain ⟨hrevoked, row, hrow, hlock, hadm, hver, hfresh, active, hroles, rfl⟩ := authorizeUser_ok.1 hauth
          simp only [hpre, hexp, hauth] at hok
          split_ifs at hok
          all_goals
            simp only [Except.ok.injEq] at hok
            subst hok
            exact ⟨row, ⟨⟨id, selected, hpre, hrow, hroles⟩, hlock, hadm⟩, hrevoked, by rw [hver], hfresh⟩
  · rintro ⟨row, ⟨⟨id, selected, hpre, hrow, hroles⟩, hlock, hadm⟩, hrevoked, hexp, hfresh⟩
    have hauth : authorizeUser w id row.tokenVersion (some p.iat) false p.jti selected =
        .ok ⟨row.level, row.role, active⟩ :=
      authorizeUser_ok.2 ⟨hrevoked, row, hrow, hlock, hadm, rfl, hfresh, active, hroles, rfl⟩
    refine ⟨⟨id, row.level, if row.role = "" then "member" else row.role, active, none, none⟩, ?_, rfl⟩
    simp only [seamPath, hpre, hexp, hauth, sessionRoles_proven hroles, if_true]

/-! ## The two paths -/

/-- neither question to Redis refuses the token -/
def Unrefused (w : World) (p : Payload) : Prop :=
  isJtiBlocked w p.jti = false ∧
    ∀ user, p.userId = some (some user) → tokenVersionIsStale w user p.tokenVersion = false

/-- the same stores with a Redis that answers nothing -/
def World.unasked (w : World) : World := { w with blocked := fun _ => false, cachedVersion := fun _ => none }

theorem unrefused_unasked (w : World) (p : Payload) : Unrefused w.unasked p := by
  refine ⟨?_, fun user _ => ?_⟩
  · simp [isJtiBlocked, World.unasked]
  · unfold tokenVersionIsStale
    split
    · rfl
    · simp [World.unasked]

theorem precheck_ok {w : World} {p : Payload} {user : UserId} {selected : Option (List String)} :
    precheck w p = .ok (user, selected) ↔
      Unrefused w p ∧ sessionRolesClaim p.activeRoles = some selected ∧ p.userId = some (some user) := by
  unfold precheck Unrefused
  rcases sessionRolesClaim p.activeRoles with _ | claimed
  · simp
  · rcases hblocked : isJtiBlocked w p.jti with _ | _
    · rcases hid : p.userId with _ | _ | id
      · simp
      · simp
      · rcases hstale : tokenVersionIsStale w id p.tokenVersion with _ | _
        · simp only [hstale, Bool.false_eq_true, if_false, Except.ok.injEq, Prod.mk.injEq, Option.some.injEq, true_and]
          constructor
          · rintro ⟨rfl, rfl⟩
            exact ⟨fun other hother => hother ▸ hstale, rfl, rfl⟩
          · rintro ⟨_, rfl, rfl⟩
            exact ⟨rfl, rfl⟩
        · simp [hstale]
    · simp

/-- without Redis, the checks on the row are the same ones -/
theorem passes_unasked {w : World} {p : Payload} {row : UserRow} {active : List String} :
    Passes w p row active ↔ Unrefused w p ∧ Passes w.unasked p row active := by
  constructor
  · rintro ⟨⟨user, selected, hpre, hrow, hroles⟩, hlock, hadm⟩
    obtain ⟨hun, hsel, hid⟩ := precheck_ok.1 hpre
    exact ⟨hun, ⟨user, selected, precheck_ok.2 ⟨unrefused_unasked w p, hsel, hid⟩, hrow, hroles⟩, hlock, hadm⟩
  · rintro ⟨hun, ⟨user, selected, hpre, hrow, hroles⟩, hlock, hadm⟩
    obtain ⟨_, hsel, hid⟩ := precheck_ok.1 hpre
    exact ⟨⟨user, selected, precheck_ok.2 ⟨hun, hsel, hid⟩, hrow, hroles⟩, hlock, hadm⟩

/-- with an integer version and an issue time that is a date, the two paths ask the row the same -/
theorem accepts_iff {w : World} {p : Payload} {version : ℤ} (hversion : p.tokenVersion = .int version)
    (hjti : (jtiOf p.jti).any w.revoked = false) (hiat : (fromTimestamp p.iat).isSome) (active : List String) :
    Accepts (localPath w p) active ↔ Accepts (seamPath w p) active := by
  obtain ⟨issued, hissued⟩ := Option.isSome_iff_exists.1 hiat
  have hsame : ∀ row : UserRow, (p.tokenVersion.differs row.tokenVersion = false ∧ FreshLocal p row) ↔
      (p.tokenVersion.expected w.parseInt = some (row.tokenVersion : ℤ) ∧ FreshSeam p row) := by
    intro row
    simp [hversion, VersionClaim.differs, VersionClaim.expected, VersionClaim.toInt, FreshLocal, FreshSeam, hissued]
  rw [accepts_localPath, accepts_seamPath]
  refine exists_congr fun row => and_congr_right fun _ => ?_
  rw [hsame row]
  simp [hjti]

/-- **The two paths.** Each accepts exactly the tokens that pass the shared checks and its own reading of the version,
of the issue time and, on the seam, of the table of revoked tokens. They agree on every token with an integer version,
a date for its issue time and an id that is not in the table. What Redis answers refuses on both paths alike, and never
accepts a token that would be refused without it. -/
theorem paths_agree (w : World) (p : Payload) (active : List String) :
    (Accepts (localPath w p) active ↔
      ∃ row, Passes w p row active ∧ p.tokenVersion.differs row.tokenVersion = false ∧ FreshLocal p row) ∧
    (Accepts (seamPath w p) active ↔
      ∃ row, Passes w p row active ∧ (jtiOf p.jti).any w.revoked = false ∧
        p.tokenVersion.expected w.parseInt = some (row.tokenVersion : ℤ) ∧ FreshSeam p row) ∧
    (∀ version, p.tokenVersion = .int version → (jtiOf p.jti).any w.revoked = false → (fromTimestamp p.iat).isSome →
      (Accepts (localPath w p) active ↔ Accepts (seamPath w p) active)) ∧
    (Accepts (localPath w p) active ↔ Unrefused w p ∧ Accepts (localPath w.unasked p) active) ∧
    (Accepts (seamPath w p) active ↔ Unrefused w p ∧ Accepts (seamPath w.unasked p) active) := by
  refine ⟨accepts_localPath, accepts_seamPath, fun version hversion hjti hiat => accepts_iff hversion hjti hiat active,
    ?_, ?_⟩
  · rw [accepts_localPath, accepts_localPath, ← exists_and_left]
    refine exists_congr fun row => ?_
    rw [passes_unasked, and_assoc]
  · rw [accepts_seamPath, accepts_seamPath, ← exists_and_left]
    refine exists_congr fun row => ?_
    rw [passes_unasked, and_assoc]
    rfl

/-- a member at token version 1, with one revoked token in the table and nothing in Redis -/
def memberAtOne : World :=
  { policy := ⟨[], []⟩
    now := 0
    users := fun _ =>
      some
        { level := "normal"
          profileRole := some "member"
          extraRoles := []
          tokenVersion := 1
          email := none
          phone := none
          isLocked := false
          lockedUntil := none
          admissionStatus := "active"
          updatedAt := some 0 }
    revoked := fun jti => jti = "out"
    blocked := fun _ => false
    cachedVersion := fun _ => none
    parseInt := fun _ => none }

theorem paths_agree_demo :
    Accepts (localPath memberAtOne ⟨.absent, none, some (some 7), .int 1, 100⟩) ["normal:member"] ↔
      Accepts (seamPath memberAtOne ⟨.absent, none, some (some 7), .int 1, 100⟩) ["normal:member"] :=
  (paths_agree memberAtOne ⟨.absent, none, some (some 7), .int 1, 100⟩ ["normal:member"]).2.2.1 1 rfl rfl
    (by decide +kernel)

/-- A token without a version passes the local path at version 1, and the seam reads it as version 0. A token whose id
is in the table passes the local path too, which does not look there. An id that only Redis blocks is refused where the
checks on the row would accept. -/
theorem paths_differ :
    (localPath memberAtOne ⟨.absent, none, some (some 7), .absent, 100⟩ =
        .ok ⟨7, "normal", "member", ["normal:member"], none, none⟩ ∧
      seamPath memberAtOne ⟨.absent, none, some (some 7), .absent, 100⟩ = .error .tokenExpired) ∧
    (localPath memberAtOne ⟨.absent, some "out", some (some 7), .int 1, 100⟩ =
        .ok ⟨7, "normal", "member", ["normal:member"], none, none⟩ ∧
      seamPath memberAtOne ⟨.absent, some "out", some (some 7), .int 1, 100⟩ = .error .tokenExpired) ∧
    (seamPath { memberAtOne with blocked := fun jti => jti = "cut" } ⟨.absent, some "cut", some (some 7), .int 1, 100⟩ =
        .error .tokenExpired ∧
      seamPath memberAtOne ⟨.absent, some "cut", some (some 7), .int 1, 100⟩ =
        .ok ⟨7, "normal", "member", ["normal:member"], none, none⟩) := by
  decide +kernel

end LkmService.Auth
