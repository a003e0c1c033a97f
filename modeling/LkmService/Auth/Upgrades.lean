/-
The operations on an account's level and roles, as concurrent sessions.

Modelled from `service_authz.py` (`grant_exam_unlock`, `_apply_upgrades`, `grant_incubation`), `service_roles.py`
(`set_user_role`), `service_auth.py` (`upgrade_to_normal` with the load of its user) and `repository.py` over the row
store of `Lib.Sql`. The number of a row of `users` and of `profiles` is the user's id. What the operations compute from
the two columns is that of `Auth.Levels`.

`set_user_role` locks the user within a join (`with_for_update(of=User)`). After a wait the store reads the locked row
again, but the profile is still the one of the statement's snapshot: the read of the profile comes before the lock.
`checkedAgainst` is no column: it is the primary role that an assignment was checked against.

Outside the tables is what the sessions have announced (`notify_user_updated`): it is sent on its own connection, and no
rollback undoes it. The pre-check cache of the token versions is left out: it only rejects sooner.
-/
import LkmService.Auth.Levels
import LkmService.Lib.Atomic

namespace LkmService.Auth.Upgrades

open Session Sql

/-! ## Rows -/

structure User where
  accountLevel : String
  tokenVersion : ℕ := 0
deriving DecidableEq, Repr

structure Profile where
  role : String := "member"
deriving DecidableEq, Repr

structure UserRole where
  userId : ℕ
  roleName : String
  checkedAgainst : String
deriving DecidableEq, Repr

inductive Tbl where
  | users
  | profiles
  | userRoles
deriving DecidableEq, Repr

open Tbl

abbrev Row : Tbl → Type
  | .users => User
  | .profiles => Profile
  | .userRoles => UserRole

/-- the primary key of `user_roles` -/
inductive Index where
  | userRole (userId : ℕ) (roleName : String)
deriving DecidableEq, Repr

inductive Exn where
  | notFound
  | invalidInput (message : String)
  /-- a flush whose UPDATE finds no row -/
  | staleData
deriving DecidableEq, Repr

/-! ## Announcements -/

inductive Fx : Type → Type where
  | notifyUserUpdated (user : ℕ) : Fx Unit

/-- the users whose update a session has announced -/
abbrev Announced := ℕ → List ℕ

instance : Effects Fx Announced where
  exec i x sent :=
    match x with
    | .notifyUserUpdated user => ((), Function.update sent i (sent i ++ [user]))

abbrev Store := Db Row Index Announced

abbrev Prg (α : Type) := Prog (Stmt Row Index Fx) Exn α

def notifyUserUpdated (user : ℕ) : Prg Unit := perform (.notifyUserUpdated user)

/-! ## The repositories -/

/-- `row[1] or "member"`, of a profile that may be missing -/
def currentRole (role : Option String) : String :=
  match role with
  | none => "member"
  | some role => if role = "" then "member" else role

def lockUserRow (user : ℕ) : Prg Unit := do
  let _ ← lockRow users user fun _ => true
  pure ()

/-- `get_level_and_role`: one SELECT with an outer join -/
def getLevelAndRole (user : ℕ) : Prg (Option (String × Option String)) :=
  query fun l => ((l users).find? fun q => decide (q.1 = user)).map fun q =>
    (q.2.accountLevel, ((l profiles).find? fun p => decide (p.1 = user)).map fun p => p.2.role)

def setAccountLevel (user : ℕ) (level : String) : Prg Unit := do
  let _ ← updateRow users user (fun _ => true) fun u => { u with accountLevel := level }
  pure ()

def setRole (user : ℕ) (role : String) : Prg Unit := do
  let _ ← updateRow profiles user (fun _ => true) fun p => { p with role := role }
  pure ()

def bumpTokenVersion (user : ℕ) : Prg Unit := do
  let _ ← updateRow users user (fun _ => true) fun u => { u with tokenVersion := u.tokenVersion + 1 }
  pure ()

def listRoles (user : ℕ) : Prg (List String) := do
  let rows ← select userRoles fun _ r => decide (r.userId = user)
  pure (rows.map fun q => q.2.roleName)

def UserRole.is (user : ℕ) (roleName : String) (r : UserRole) : Bool := decide (r.userId = user ∧ r.roleName = roleName)

/-- `UserRoleRepository.add` -/
def addRole (user : ℕ) (roleName checkedAgainst : String) : Prg Bool := do
  let inserted ← insertUnique userRoles (.userRole user roleName) (UserRole.is user roleName)
    { userId := user, roleName := roleName, checkedAgainst := checkedAgainst }
  pure inserted.isSome

/-- DELETE … WHERE user_id AND role_name, over the candidate rows; the answer is the number of rows deleted -/
def deleteRoles (user : ℕ) (roleName : String) : List ℕ → Prg ℕ
  | [] => pure 0
  | n :: ns => do
    let gone ← deleteIf userRoles n (UserRole.is user roleName)
    let k ← deleteRoles user roleName ns
    pure (k + if gone then 1 else 0)

/-- `UserRoleRepository.remove` -/
def removeRole (user : ℕ) (roleName : String) : Prg Bool := do
  let rows ← select userRoles fun _ r => UserRole.is user roleName r
  let k ← deleteRoles user roleName (rows.map Prod.fst)
  pure (decide (k ≠ 0))

/-! ## Rising -/

def only (c : Bool) (p : Prg Unit) : Prg Unit := if c then p else pure ()

/-- what `_apply_upgrades` does once something rises -/
def raiseAccount (policy : Policy) (user : ℕ) (level role : String) (setLevel setProfile : Bool) : Prg ℕ := do
  only setLevel (setAccountLevel user level)
  only setProfile (setRole user role)
  let extraRoles ← listRoles user
  if satisfiesConstraints (authorizedRoles level role extraRoles) policy.ssd = false then
    .raise (.invalidInput "Upgrade violates SSD")
  else do
    bumpTokenVersion user
    notifyUserUpdated user
    pure 1

def applyUpgrades (policy : Policy) (user : ℕ) (unlockLevel unlockRole : Option String) : Prg ℕ := do
  lockUserRow user
  match ← getLevelAndRole user with
  | none => pure 0
  | some (level, raw) =>
    let role := currentRole raw
    if levelRises level unlockLevel || roleRises role unlockRole then
      raiseAccount policy user (newLevel level unlockLevel) (newRole role unlockRole) (levelRises level unlockLevel)
        (roleRises role unlockRole)
    else pure 0

def grantExamUnlock (policy : Policy) (user : ℕ) (unlockLevel unlockRole : Option String) : Prg ℕ :=
  if falsy unlockLevel && falsy unlockRole then pure 0 else applyUpgrades policy user unlockLevel unlockRole

def grantIncubation (policy : Policy) (user : ℕ) : Prg ℕ := do
  lockUserRow user
  match ← getLevelAndRole user with
  | none => pure 0
  | some (level, raw) =>
    let role := currentRole raw
    if decide (level ≠ "admin") || decide (role = "member") then
      raiseAccount policy user "admin" (if role = "member" then "incubated_member" else role) (decide (level ≠ "admin"))
        (decide (role = "member"))
    else pure 0

/-- the UPDATE that a flush sends for a changed user -/
def flushUser (user : ℕ) (f : User → User) : Prg Unit := do
  match ← updateRow users user (fun _ => true) f with
  | none => .raise .staleData
  | some _ => pure ()

/-- The user is loaded first. `binds`: the caller has flushed another column of the row before, and so holds its lock -/
def upgradeToNormal (user : ℕ) (binds : Bool) : Prg ℕ := do
  let rows ← select users fun n _ => decide (n = user)
  match rows.head? with
  | none => .raise .notFound
  | some (_, u) => do
    only binds (flushUser user id)
    if u.accountLevel = "local" then do
      flushUser user fun u => { u with accountLevel := "normal" }
      notifyUserUpdated user
      pure 1
    else pure 0

/-! ## Roles -/

/-- whether the role has been added or removed -/
def assignRole (policy : Policy) (user : ℕ) (level primary roleName : String) (assigned : Bool) : Prg Bool :=
  if assigned then do
    let current ← listRoles user
    if satisfiesConstraints (authorizedRoles level primary (current ++ [roleName])) policy.ssd = false then
      .raise (.invalidInput "Role assignment violates SSD")
    else addRole user roleName primary
  else removeRole user roleName

/-- the change of `set_user_role`, after its checks of the level and the primary role -/
def changeRole (policy : Policy) (user : ℕ) (level primary roleName : String) (assigned : Bool) : Prg ℕ := do
  let changed ← assignRole policy user level primary roleName assigned
  if changed then do
    bumpTokenVersion user
    notifyUserUpdated user
    pure 1
  else pure 0

/-- the answer is 1 for `True` -/
def setUserRole (policy : Policy) (user : ℕ) (roleName : String) (assigned : Bool) : Prg ℕ :=
  if roleName ∉ knownRoles then .raise (.invalidInput "Unknown role")
  else do
    let rows ← select profiles fun n _ => decide (n = user)
    match ← lockRow users user fun _ => true with
    | none => .raise .notFound
    | some u =>
      let primary := currentRole (rows.head?.map fun q => q.2.role)
      if ¬ roleName.startsWith (u.accountLevel ++ ":") then .raise (.invalidInput "Role account level mismatch")
      else if roleName = compositeRole u.accountLevel primary then
        if assigned then pure 0 else .raise (.invalidInput "Primary role cannot be revoked")
      else changeRole policy user u.accountLevel primary roleName assigned

/-! ## Requests -/

inductive Request where
  | upgradeToNormal (user : ℕ) (binds : Bool)
  | grantExamUnlock (user : ℕ) (unlockLevel unlockRole : Option String)
  | grantIncubation (user : ℕ)
  | setUserRole (user : ℕ) (roleName : String) (assigned : Bool)

def Request.user : Request → ℕ
  | .upgradeToNormal user _ => user
  | .grantExamUnlock user _ _ => user
  | .grantIncubation user => user
  | .setUserRole user _ _ => user

def Request.body (policy : Policy) : Request → Prg ℕ
  | .upgradeToNormal user binds => Upgrades.upgradeToNormal user binds
  | .grantExamUnlock user unlockLevel unlockRole => Upgrades.grantExamUnlock policy user unlockLevel unlockRole
  | .grantIncubation user => Upgrades.grantIncubation policy user
  | .setUserRole user roleName assigned => Upgrades.setUserRole policy user roleName assigned

/-- the session of the request commits at its end, and rolls back when it raises -/
def Request.prog (policy : Policy) (r : Request) : Prg ℕ := transaction (r.body policy)

end LkmService.Auth.Upgrades
