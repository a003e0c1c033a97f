/-
An account's level and role, and the operations that move them
(`service_authz.py`, `service_roles.py`, `service_2fa.py` and the registration of `service_auth.py`).

The level is a column of `users` and the primary role one of `profiles`; each operation writes one or both.
`composite_stays_known`: when every step of a run meets `Op.Fits`, the two columns form a role the policy knows in
every state. `incubated_columnist` is a run that leaves the policy.
-/
import Mathlib.Data.Finset.Basic
import LkmService.Auth.Roles

namespace LkmService.Auth

/-! ## The accounts -/

abbrev UserId := ℕ

structure Account where
  level : String
  /-- `none` when the profile row is missing -/
  profileRole : Option String
  extraRoles : List String
  tokenVersion : ℕ
  deriving DecidableEq

/-- `profile.role if profile else "member"` -/
def Account.role (a : Account) : String := a.profileRole.getD "member"

/-- `cur_role_raw if cur_role_raw else "member"` -/
def Account.curRole (a : Account) : String :=
  match a.profileRole with
  | none => "member"
  | some role => if role = "" then "member" else role

/-- `ProfileRepository.set_role`: an update of the profile row, if there is one -/
def Account.setRole (a : Account) (role : String) : Account := { a with profileRole := a.profileRole.map fun _ => role }

inductive AuthzErr where
  | notFound
  | invalidInput (message : String)
  | totpNotEnabled
  deriving DecidableEq

/-! ## Rising only -/

/-- `_LEVEL_RANK` -/
def levelRank : List (String × ℤ) := [("local", 0), ("normal", 1), ("admin", 2)]

/-- `_ROLE_RANK` -/
def roleRank : List (String × ℤ) :=
  [("member", 0), ("columnist", 1), ("author", 2), ("incubated_member", 3), ("org_member", 4), ("admin", 5),
    ("super_admin", 6)]

def rankOf (table : List (String × ℤ)) (value : Option String) : ℤ :=
  (value.bind fun text => table.lookup text).getD (-1)

def levelRises (level : String) (unlockLevel : Option String) : Bool :=
  unlockLevel.isSome && decide (rankOf levelRank unlockLevel > rankOf levelRank (some level))

/-- a role outside the table is never overwritten -/
def roleRises (role : String) (unlockRole : Option String) : Bool :=
  unlockRole.isSome && decide (rankOf roleRank (some role) ≥ 0) &&
    decide (rankOf roleRank unlockRole > rankOf roleRank (some role))

def newLevel (level : String) (unlockLevel : Option String) : String :=
  if levelRises level unlockLevel then unlockLevel.getD level else level

def newRole (role : String) (unlockRole : Option String) : String :=
  if roleRises role unlockRole then unlockRole.getD role else role

/-- `_apply_upgrades` -/
def applyUpgrades (policy : Policy) (a : Account) (unlockLevel unlockRole : Option String) :
    Except AuthzErr (Account × ℕ) :=
  let level := newLevel a.level unlockLevel
  let role := newRole a.curRole unlockRole
  if levelRises a.level unlockLevel || roleRises a.curRole unlockRole then
    if satisfiesConstraints (authorizedRoles level role a.extraRoles) policy.ssd then
      let raised := { a with level := level, tokenVersion := a.tokenVersion + 1 }
      .ok (if roleRises a.curRole unlockRole then raised.setRole role else raised, 1)
    else .error (.invalidInput "Upgrade violates SSD")
  else .ok (a, 0)

/-- `None` and the empty text are no target -/
def falsy (value : Option String) : Bool := value = none || value = some ""

def grantExamUnlock (policy : Policy) (a : Account) (unlockLevel unlockRole : Option String) :
    Except AuthzErr (Account × ℕ) :=
  if falsy unlockLevel && falsy unlockRole then .ok (a, 0) else applyUpgrades policy a unlockLevel unlockRole

def grantIncubation (policy : Policy) (a : Account) : Except AuthzErr (Account × ℕ) :=
  let role := if a.curRole = "member" then "incubated_member" else a.curRole
  if a.level ≠ "admin" ∨ a.curRole = "member" then
    if satisfiesConstraints (authorizedRoles "admin" role a.extraRoles) policy.ssd then
      let raised := { a with level := "admin", tokenVersion := a.tokenVersion + 1 }
      .ok (if a.curRole = "member" then raised.setRole "incubated_member" else raised, 1)
    else .error (.invalidInput "Upgrade violates SSD")
  else .ok (a, 0)

/-! ## The other operations -/

/-- `set_user_role`: an extra role is added or removed; the two columns stay -/
def setUserRole (policy : Policy) (a : Account) (roleName : String) (assigned : Bool) :
    Except AuthzErr (Account × Bool) :=
  if roleName ∉ knownRoles then .error (.invalidInput "Unknown role")
  else if ¬ roleName.startsWith (a.level ++ ":") then .error (.invalidInput "Role account level mismatch")
  else if roleName = compositeRole a.level a.curRole then
    if assigned then .ok (a, false) else .error (.invalidInput "Primary role cannot be revoked")
  else if assigned ∧
      satisfiesConstraints (authorizedRoles a.level a.curRole (a.extraRoles ++ [roleName])) policy.ssd = false then
    .error (.invalidInput "Role assignment violates SSD")
  else
    let extraRoles := if assigned then a.extraRoles.insert roleName else a.extraRoles.filter (· ≠ roleName)
    if extraRoles = a.extraRoles then .ok (a, false)
    else .ok ({ a with extraRoles := extraRoles, tokenVersion := a.tokenVersion + 1 }, true)

/-- `disable_2fa`; `proved` says that the second factor is enabled and was given -/
def disable2fa (a : Account) (proved : Bool) : Except AuthzErr Account :=
  if proved then .ok (if a.level = "admin" then { a with level := "normal" } else a) else .error .totpNotEnabled

def upgradeToNormal (a : Account) : Account := if a.level = "local" then { a with level := "normal" } else a

/-- `create_user_with_profile`: `register_local`, or a registration by a verified contact -/
def createUserWithProfile (byContact : Bool) : Account :=
  { level := if byContact then "normal" else "local"
    profileRole := some "member"
    extraRoles := []
    tokenVersion := 0 }

/-! ## Runs -/

theorem map_ok {α β : Type} {f : α → β} {x : Except AuthzErr α} {b : β} (h : x.map f = .ok b) :
    ∃ a, x = .ok a ∧ f a = b := by
  cases x with
  | error e => cases h
  | ok a =>
    cases h
    exact ⟨a, rfl, rfl⟩

abbrev Accounts := UserId → Option Account

inductive Op where
  | register (user : UserId) (byContact : Bool)
  | upgradeToNormal (user : UserId)
  | grantExamUnlock (user : UserId) (unlockLevel unlockRole : Option String)
  | grantIncubation (user : UserId)
  | setUserRole (user : UserId) (roleName : String) (assigned : Bool)
  | disable2fa (user : UserId) (proved : Bool)

/-- a change of one account; an error rolls back, and without a row nothing happens -/
def Accounts.alter (s : Accounts) (user : UserId) (change : Account → Except AuthzErr Account) : Accounts :=
  match s user with
  | none => s
  | some a =>
    match change a with
    | .ok a' => Function.update s user (some a')
    | .error _ => s

def step (policy : Policy) (s : Accounts) : Op → Accounts
  | .register user byContact =>
    if (s user).isSome then s else Function.update s user (some (createUserWithProfile byContact))
  | .upgradeToNormal user => s.alter user fun a => .ok (upgradeToNormal a)
  | .grantExamUnlock user unlockLevel unlockRole =>
    s.alter user fun a => (grantExamUnlock policy a unlockLevel unlockRole).map Prod.fst
  | .grantIncubation user => s.alter user fun a => (grantIncubation policy a).map Prod.fst
  | .setUserRole user roleName assigned => s.alter user fun a => (setUserRole policy a roleName assigned).map Prod.fst
  | .disable2fa user proved => s.alter user fun a => disable2fa a proved

def run (policy : Policy) (s : Accounts) (ops : List Op) : Accounts := ops.foldl (step policy) s

/-! ## What a step must meet -/

/-- the separation check refuses the account with these columns -/
def violatesSsd (policy : Policy) (level role : String) (extraRoles : List String) : Bool :=
  !satisfiesConstraints (authorizedRoles level role extraRoles) policy.ssd

/-- an unlock raises the two columns together: to `admin` only with a role of that level, a content role only on
`normal`, and a role of `admin` only there; the role `admin` is in the rank table and in no known role -/
def UnlockFits (level role : String) (unlockLevel unlockRole : Option String) : Prop :=
  (unlockLevel = some "admin" →
    level = "admin" ∨ unlockRole ∈ [some "incubated_member", some "org_member", some "super_admin"]) ∧
  (unlockRole ∈ [some "columnist", some "author"] → level = "local" → unlockLevel = some "normal") ∧
  (unlockRole ∈ [some "incubated_member", some "org_member", some "super_admin"] →
    level = "admin" ∨ unlockLevel = some "admin") ∧
  (unlockRole = some "admin" → role ∈ ["content_reviewer", "content_publisher", "super_admin"])

instance (level role : String) (unlockLevel unlockRole : Option String) :
    Decidable (UnlockFits level role unlockLevel unlockRole) :=
  inferInstanceAs (Decidable (_ ∧ _ ∧ _ ∧ _))

/-- the condition on the state before a step and on its input -/
def Op.Fits (policy : Policy) (s : Accounts) : Op → Prop
  | .grantExamUnlock user unlockLevel unlockRole =>
    ∀ a, s user = some a → UnlockFits a.level a.role unlockLevel unlockRole ∨
      violatesSsd policy (newLevel a.level unlockLevel) (newRole a.role unlockRole) a.extraRoles = true
  | .grantIncubation user =>
    ∀ a, s user = some a → a.level = "admin" ∨ a.role = "member" ∨
      violatesSsd policy "admin" a.role a.extraRoles = true
  | .disable2fa user proved => ∀ a, s user = some a → proved = true → a.level ≠ "admin"
  | _ => True

/-- every step of the run meets its condition -/
def AllFit (policy : Policy) (s : Accounts) : List Op → Prop
  | [] => True
  | op :: ops => op.Fits policy s ∧ AllFit policy (step policy s op) ops

/-! ## The invariant -/

/-- the pairs of columns that form a known role -/
def knownPairs : List (String × String) :=
  [("local", "member"), ("normal", "member"), ("normal", "columnist"), ("normal", "author"),
    ("admin", "incubated_member"), ("admin", "org_member"), ("admin", "content_reviewer"),
    ("admin", "content_publisher"), ("admin", "super_admin")]

/-- the account has a profile row, and its columns form a known role -/
def Account.Known (a : Account) : Prop := ∃ role, a.profileRole = some role ∧ (a.level, role) ∈ knownPairs

def AllKnown (s : Accounts) : Prop := ∀ user a, s user = some a → a.Known

theorem composite_known : ∀ pair ∈ knownPairs, compositeRole pair.1 pair.2 ∈ knownRoles := by
  decide

theorem Account.Known.composite {a : Account} (h : a.Known) : compositeRole a.level a.role ∈ knownRoles := by
  obtain ⟨role, hrole, hpair⟩ := h
  have := composite_known _ hpair
  simpa [Account.role, hrole] using this

theorem nonempty_of_known : ∀ pair ∈ knownPairs, pair.2 ≠ "" := by
  decide

/-- on a known account the two readings of the role are one -/
theorem Account.Known.curRole {a : Account} (h : a.Known) : a.curRole = a.role := by
  obtain ⟨role, hrole, hpair⟩ := h
  have := nonempty_of_known _ hpair
  simp only [Account.curRole, Account.role, hrole, Option.getD_some]
  exact if_neg this

theorem Account.Known.pair {a : Account} (h : a.Known) : (a.level, a.role) ∈ knownPairs := by
  obtain ⟨role, hrole, hpair⟩ := h
  simpa [Account.role, hrole] using hpair

theorem Account.Known.of_setRole {a : Account} {level role : String} {tokenVersion : ℕ} (h : a.Known)
    (hpair : (level, role) ∈ knownPairs) :
    (({ a with level := level, tokenVersion := tokenVersion } : Account).setRole role).Known := by
  obtain ⟨old, hold, _⟩ := h
  exact ⟨role, by simp [Account.setRole, hold], hpair⟩

theorem Account.Known.of_level {a : Account} {level : String} {tokenVersion : ℕ} (h : a.Known)
    (hpair : (level, a.role) ∈ knownPairs) :
    ({ a with level := level, tokenVersion := tokenVersion } : Account).Known := by
  obtain ⟨role, hrole, _⟩ := h
  exact ⟨role, hrole, by simpa [Account.role, hrole] using hpair⟩

/-! ## The unlock -/

/-- the ranks of the tables are not negative -/
theorem rank_ge : ∀ table ∈ [levelRank, roleRank], ∀ entry ∈ table, (0 : ℤ) ≤ entry.2 := by
  decide

theorem neg_one_le_rankOf {table : List (String × ℤ)} (h : table ∈ [levelRank, roleRank]) (value : Option String) :
    -1 ≤ rankOf table value := by
  rcases hvalue : value.bind fun text => table.lookup text with _ | rank
  · simp [rankOf, hvalue]
  · obtain ⟨text, _, hlookup⟩ := Option.bind_eq_some_iff.1 hvalue
    obtain ⟨l₁, l₂, hsplit, _⟩ := List.lookup_eq_some_iff.1 hlookup
    have := rank_ge table h (text, rank) (by simp [hsplit])
    simp only [rankOf, hvalue, Option.getD_some]
    omega

/-- a target outside its rank table never raises anything -/
theorem rank_other {table : List (String × ℤ)} {text : String} (h : text ∉ table.map Prod.fst) :
    rankOf table (some text) = -1 := by
  have hlookup : table.lookup text = none := by
    rw [List.lookup_eq_none_iff]
    intro entry hentry
    have : text ≠ entry.1 := fun heq => h (heq ▸ List.mem_map_of_mem hentry)
    simpa using this
  simp [rankOf, hlookup]

theorem newLevel_other {level text : String} (h : text ∉ levelRank.map Prod.fst) :
    newLevel level (some text) = newLevel level none := by
  have : -1 ≤ rankOf levelRank (some level) := neg_one_le_rankOf (by simp) _
  have hrises : levelRises level (some text) = false := by
    simp only [levelRises, rank_other h, Option.isSome_some, Bool.true_and, decide_eq_false_iff_not]
    omega
  rw [newLevel, hrises]
  rfl

theorem newRole_other {role text : String} (h : text ∉ roleRank.map Prod.fst) :
    newRole role (some text) = newRole role none := by
  have : -1 ≤ rankOf roleRank (some role) := neg_one_le_rankOf (by simp) _
  have hrises : roleRises role (some text) = false := by
    simp only [roleRises, rank_other h, Option.isSome_some, Bool.true_and, Bool.and_eq_false_iff,
      decide_eq_false_iff_not]
    omega
  rw [newRole, hrises]
  rfl

/-- the targets a rank table knows, and none -/
def targets (table : List (String × ℤ)) : List (Option String) := none :: table.map fun entry => some entry.1

/-- any target stands for one of the table: the text itself, or none -/
theorem exists_target (table : List (String × ℤ)) (target : Option String) :
    target ∈ targets table ∨ ∃ text, target = some text ∧ text ∉ table.map Prod.fst := by
  rcases target with _ | text
  · exact Or.inl (by simp [targets])
  · by_cases h : text ∈ table.map Prod.fst
    · obtain ⟨entry, hentry, rfl⟩ := List.mem_map.1 h
      exact Or.inl (List.mem_cons_of_mem _ (List.mem_map_of_mem hentry))
    · exact Or.inr ⟨text, rfl, h⟩

theorem unlock_targets : ∀ pair ∈ knownPairs, ∀ unlockLevel ∈ targets levelRank, ∀ unlockRole ∈ targets roleRank,
    (UnlockFits pair.1 pair.2 unlockLevel unlockRole ↔
      (newLevel pair.1 unlockLevel, newRole pair.2 unlockRole) ∈ knownPairs) := by
  decide

/-- from a known pair, the condition on an unlock is exact -/
theorem unlock_known {level role : String} (h : (level, role) ∈ knownPairs) (unlockLevel unlockRole : Option String) :
    UnlockFits level role unlockLevel unlockRole ↔
      (newLevel level unlockLevel, newRole role unlockRole) ∈ knownPairs := by
  have hrole : ∀ unlockLevel ∈ targets levelRank, (UnlockFits level role unlockLevel unlockRole ↔
      (newLevel level unlockLevel, newRole role unlockRole) ∈ knownPairs) := by
    intro unlockLevel hlevel
    rcases exists_target roleRank unlockRole with hr | ⟨text, rfl, hr⟩
    · exact unlock_targets _ h _ hlevel _ hr
    · rw [newRole_other hr, ← unlock_targets _ h _ hlevel none (by simp [targets])]
      simp [roleRank] at hr
      simp [UnlockFits, hr]
  rcases exists_target levelRank unlockLevel with hl | ⟨text, rfl, hl⟩
  · exact hrole _ hl
  · rw [newLevel_other hl, ← hrole none (by simp [targets])]
    simp [levelRank] at hl
    simp [UnlockFits, hl]

/-! ## One step -/

theorem known_grantExamUnlock {policy : Policy} {a : Account} {unlockLevel unlockRole : Option String}
    {result : Account × ℕ} (h : a.Known)
    (hfits : UnlockFits a.level a.role unlockLevel unlockRole ∨
      violatesSsd policy (newLevel a.level unlockLevel) (newRole a.role unlockRole) a.extraRoles = true)
    (hok : grantExamUnlock policy a unlockLevel unlockRole = .ok result) : result.1.Known := by
  simp only [grantExamUnlock, applyUpgrades, h.curRole] at hok
  split_ifs at hok with hfalsy hrises hssd hrole
  · cases hok
    exact h
  · cases hok
    have hpair : (newLevel a.level unlockLevel, newRole a.role unlockRole) ∈ knownPairs := by
      refine (unlock_known h.pair _ _).1 (hfits.resolve_right ?_)
      simp [violatesSsd, hssd]
    exact h.of_setRole hpair
  · cases hok
    have hpair : (newLevel a.level unlockLevel, newRole a.role unlockRole) ∈ knownPairs := by
      refine (unlock_known h.pair _ _).1 (hfits.resolve_right ?_)
      simp [violatesSsd, hssd]
    have hsame : newRole a.role unlockRole = a.role := by
      simp [newRole, hrole]
    exact h.of_level (hsame ▸ hpair)
  · cases hok
    exact h

theorem known_grantIncubation {policy : Policy} {a : Account} {result : Account × ℕ} (h : a.Known)
    (hfits : a.level = "admin" ∨ a.role = "member" ∨ violatesSsd policy "admin" a.role a.extraRoles = true)
    (hok : grantIncubation policy a = .ok result) : result.1.Known := by
  simp only [grantIncubation, h.curRole] at hok
  split_ifs at hok with hrises hmember hssd hssd
  · cases hok
    exact h.of_setRole (by decide)
  · cases hok
    have hlevel : a.level = "admin" := by
      rcases hfits with hlevel | hm | hv
      · exact hlevel
      · exact absurd hm hmember
      · simp [violatesSsd, hssd] at hv
    exact h.of_level (hlevel ▸ h.pair)
  · cases hok
    exact h

theorem known_setUserRole {policy : Policy} {a : Account} {roleName : String} {assigned : Bool}
    {result : Account × Bool} (h : a.Known) (hok : setUserRole policy a roleName assigned = .ok result) :
    result.1.Known := by
  simp only [setUserRole] at hok
  split_ifs at hok <;> cases hok <;> exact h

theorem known_disable2fa {a result : Account} {proved : Bool} (h : a.Known)
    (hfits : proved = true → a.level ≠ "admin") (hok : disable2fa a proved = .ok result) : result.Known := by
  simp only [disable2fa] at hok
  split_ifs at hok with hproved hlevel
  · exact absurd hlevel (hfits hproved)
  · cases hok
    exact h

theorem known_upgradeToNormal {a : Account} (h : a.Known) : (upgradeToNormal a).Known := by
  unfold upgradeToNormal
  split_ifs with hlevel
  · have hpair := h.pair
    have hrole : ∀ pair ∈ knownPairs, pair.1 = "local" → ("normal", pair.2) ∈ knownPairs := by
      decide
    exact h.of_level (hrole _ hpair hlevel)
  · exact h

theorem known_createUserWithProfile (byContact : Bool) : (createUserWithProfile byContact).Known := by
  cases byContact
  · exact ⟨"member", rfl, by decide⟩
  · exact ⟨"member", rfl, by decide⟩

/-- a change keeps all accounts known when it keeps the changed one known -/
theorem allKnown_alter {s : Accounts} {user : UserId} {change : Account → Except AuthzErr Account} (hs : AllKnown s)
    (h : ∀ a a', s user = some a → a.Known → change a = .ok a' → a'.Known) : AllKnown (s.alter user change) := by
  unfold Accounts.alter
  rcases ha : s user with _ | a
  · exact hs
  · rcases hchange : change a with e | a'
    · simpa only [hchange] using hs
    · simp only [hchange]
      intro other b hb
      by_cases heq : other = user
      · subst heq
        simp only [Function.update_self, Option.some.injEq] at hb
        subst hb
        exact h a a' ha (hs other a ha) hchange
      · simp only [Function.update_of_ne heq] at hb
        exact hs other b hb

/-- the step: an operation that fits keeps every account known -/
theorem allKnown_step {policy : Policy} {s : Accounts} {op : Op} (hs : AllKnown s) (hfits : op.Fits policy s) :
    AllKnown (step policy s op) := by
  cases op with
  | register user byContact =>
    intro other b hb
    simp only [step] at hb
    split_ifs at hb with hsome
    · exact hs other b hb
    · by_cases heq : other = user
      · subst heq
        simp only [Function.update_self, Option.some.injEq] at hb
        subst hb
        exact known_createUserWithProfile byContact
      · rw [Function.update_of_ne heq] at hb
        exact hs other b hb
  | upgradeToNormal user =>
    simp only [step]
    refine allKnown_alter hs fun a a' _ ha hok => ?_
    cases hok
    exact known_upgradeToNormal ha
  | grantExamUnlock user unlockLevel unlockRole =>
    simp only [step]
    refine allKnown_alter hs fun a a' hmem ha hok => ?_
    obtain ⟨result, hresult, rfl⟩ := map_ok hok
    exact known_grantExamUnlock ha (hfits a hmem) hresult
  | grantIncubation user =>
    simp only [step]
    refine allKnown_alter hs fun a a' hmem ha hok => ?_
    obtain ⟨result, hresult, rfl⟩ := map_ok hok
    exact known_grantIncubation ha (hfits a hmem) hresult
  | setUserRole user roleName assigned =>
    simp only [step]
    refine allKnown_alter hs fun a a' _ ha hok => ?_
    obtain ⟨result, hresult, rfl⟩ := map_ok hok
    exact known_setUserRole ha hresult
  | disable2fa user proved =>
    exact allKnown_alter hs fun a a' hmem ha hok => known_disable2fa ha (hfits a hmem) hok

/-! ## Runs -/

/-- the account's columns form a known role, the account is authorized for it, and for known roles only -/
def Account.InPolicy (a : Account) : Prop :=
  compositeRole a.level a.role ∈ knownRoles ∧
    compositeRole a.level a.role ∈ authorizedRoles a.level a.role a.extraRoles ∧
    ∀ role ∈ authorizedRoles a.level a.role a.extraRoles, role ∈ knownRoles

theorem Account.Known.inPolicy {a : Account} (h : a.Known) : a.InPolicy :=
  ⟨h.composite, primary_authorized h.composite, fun _ hrole => known_of_mem_roleClosure hrole⟩

theorem allKnown_run {policy : Policy} {s : Accounts} {ops : List Op} (hs : AllKnown s) (h : AllFit policy s ops) :
    AllKnown (run policy s ops) := by
  induction ops generalizing s with
  | nil => exact hs
  | cons op ops ih => exact ih (allKnown_step hs h.1) h.2

/-- **The stored role stays known.** In a run from no accounts whose steps all fit, the level and the role of every
account form a role of the policy, in every state reached. -/
theorem composite_stays_known (policy : Policy) (ops : List Op) (h : AllFit policy (fun _ => none) ops)
    (user : UserId) (a : Account) (ha : run policy (fun _ => none) ops user = some a) : a.InPolicy :=
  (allKnown_run (fun _ _ hnone => by cases hnone) h user a ha).inPolicy

/-- an unlock that raises both columns together fits, and an extra role moves neither -/
theorem composite_stays_known_demo :
    (Account.mk "admin" (some "org_member") ["admin:content_reviewer"] 2).InPolicy :=
  composite_stays_known ⟨[], []⟩
    [.register 1 true, .grantExamUnlock 1 (some "admin") (some "org_member"),
      .setUserRole 1 "admin:content_reviewer" true]
    ⟨trivial, fun a ha => Or.inl (by cases ha; decide), trivial, trivial⟩ 1 _ (by with_unfolding_all rfl)

/-- A columnist who is incubated: the level rises to `admin`, the role stays, and `admin:columnist` is no role. -/
theorem incubated_columnist :
    ∃ a, run ⟨[], []⟩ (fun _ => none)
        [.register 1 true, .grantExamUnlock 1 none (some "columnist"), .grantIncubation 1] 1 = some a ∧
      ¬ a.InPolicy :=
  ⟨⟨"admin", some "columnist", [], 2⟩, rfl, fun h => absurd h.1 (by decide)⟩

/-- an administrator who turns the second factor off keeps a role of `admin` on the level `normal` -/
example : (run ⟨[], []⟩ (fun _ => none) [.register 1 true, .grantIncubation 1, .disable2fa 1 true] 1).map
    (fun a => compositeRole a.level a.role) = some "normal:incubated_member" := rfl

end LkmService.Auth
