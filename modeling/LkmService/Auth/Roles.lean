/-
The role policy shared by the services (`core/rbac_roles.py`).

A role is the text `level:role`. `roleClosure` adds the juniors a role inherits, `satisfiesConstraints` counts a
closure against the separation constraints of the deployment, and `activatedRoles` selects the roles a session
runs with. `mem_roleClosure` says what the closure holds; `activatedRoles_selected` what a selected session gets.
-/
import Mathlib.Data.List.Dedup
import Mathlib.Data.List.Sort
import Mathlib.Data.String.Basic
import LkmService.Lib.Worklist

namespace LkmService.Auth

open Worklist

/-! ## The policy -/

/-- the roles the system defines, `KNOWN_ROLES` -/
def knownRoles : List String :=
  ["local:member", "normal:member", "normal:columnist", "normal:author", "admin:incubated_member",
    "admin:org_member", "admin:content_reviewer", "admin:content_publisher", "admin:super_admin"]

/-- the roles a role inherits directly, `ROLE_INHERITANCE` -/
def juniors (role : String) : List String :=
  if role = "normal:columnist" then ["normal:member"]
  else if role = "normal:author" then ["normal:columnist"]
  else if role = "admin:org_member" then ["admin:incubated_member"]
  else if role = "admin:super_admin" then ["admin:org_member"]
  else []

/-- a role authorizes itself and what its juniors authorize -/
def Authorizes (senior junior : String) : Prop :=
  Relation.ReflTransGen (fun a b => b ∈ juniors a) senior junior

/-- a bound on how many of its roles one closure may hold; `_load_constraints` lets no other through -/
structure SeparationConstraint where
  roles : List String
  maxRoles : ℕ
  nodup : roles.Nodup
  known : ∀ role ∈ roles, role ∈ knownRoles
  pos : 0 < maxRoles
  lt : maxRoles < roles.length

/-- one entry of the deployment's policy, `_load_constraints`; `none` stops the start -/
def loadConstraint (roles : List String) (maximum : ℤ) : Option SeparationConstraint :=
  if h : roles.Nodup ∧ (∀ role ∈ roles, role ∈ knownRoles) ∧ 0 < maximum ∧ maximum < roles.length then
    some
      { roles := roles
        maxRoles := maximum.toNat
        nodup := h.1
        known := h.2.1
        pos := by omega
        lt := by omega }
  else none

/-- the constraints of the deployment: on what may be assigned together, and on what may be active together -/
structure Policy where
  ssd : List SeparationConstraint
  dsd : List SeparationConstraint

/-! ## The functions -/

/-- `sorted` on role names -/
def sorted (roles : List String) : List String := roles.insertionSort (· ≤ ·)

/-- every known role given, and its transitive juniors; `pending.pop()` takes from the end -/
def roleClosure (roles : List String) : List String :=
  let pending := (roles.filter (· ∈ knownRoles)).reverse
  sorted (worklist juniors (pending.length + (knownRoles.map fun role => (juniors role).length).sum) [] pending)

/-- cardinalities are checked against the closure -/
def satisfiesConstraints (roles : List String) (constraints : List SeparationConstraint) : Bool :=
  constraints.all fun item => (item.roles.filter (· ∈ roleClosure roles)).length ≤ item.maxRoles

def compositeRole (accountLevel role : String) : String := accountLevel ++ ":" ++ role

/-- the direct assignments of the account's own level, and the primary role -/
def assignedRoles (accountLevel primaryRole : String) (assigned : List String) : List String :=
  sorted (List.insert (compositeRole accountLevel primaryRole)
    (assigned.filter fun role => role.startsWith (accountLevel ++ ":") && decide (role ∈ knownRoles)).dedup)

/-- the assigned roles and every junior they authorize -/
def authorizedRoles (accountLevel primaryRole : String) (extraRoles : List String) : List String :=
  roleClosure (assignedRoles accountLevel primaryRole extraRoles)

/-- the loop of `activated_roles`: a candidate joins when it adds something and no constraint breaks -/
def chooseRoles (policy : Policy) : List String → List String → List String
  | chosen, [] => chosen
  | chosen, role :: candidates =>
    if role ∉ roleClosure chosen ∧ satisfiesConstraints (chosen ++ [role]) policy.dsd = true then
      chooseRoles policy (chosen ++ [role]) candidates
    else chooseRoles policy chosen candidates

/-- the roles a session runs with; `none` is the `ValueError` -/
def activatedRoles (policy : Policy) (accountLevel primaryRole : String) (extraRoles : List String)
    (selectedRoles : Option (List String)) : Option (List String) :=
  let direct := assignedRoles accountLevel primaryRole extraRoles
  let available := roleClosure direct
  if satisfiesConstraints available policy.ssd = false then none
  else
    let selected :=
      match selectedRoles with
      | none => some (sorted (chooseRoles policy [] (compositeRole accountLevel primaryRole :: (direct ++ available))))
      | some roles => if roles.Nodup ∧ ∀ role ∈ roles, role ∈ available then some (sorted roles) else none
    selected.filter fun roles => satisfiesConstraints roles policy.dsd

/-! ## What the closure holds -/

theorem mem_sorted {role : String} {roles : List String} : role ∈ sorted roles ↔ role ∈ roles :=
  List.mem_insertionSort _

theorem nodup_sorted {roles : List String} : (sorted roles).Nodup ↔ roles.Nodup :=
  (List.perm_insertionSort _ roles).nodup_iff

/-- inheritance stays among the known roles -/
theorem known_juniors : ∀ senior ∈ knownRoles, ∀ junior ∈ juniors senior, junior ∈ knownRoles := by
  decide

theorem Authorizes.known {senior junior : String} (h : Authorizes senior junior) (hsenior : senior ∈ knownRoles) :
    junior ∈ knownRoles := by
  induction h with
  | refl => exact hsenior
  | tail _ hstep ih => exact known_juniors _ ih _ hstep

/-- **The closure.** It holds what the known roles among the given ones authorize, and nothing else. -/
theorem mem_roleClosure {role : String} {roles : List String} :
    role ∈ roleClosure roles ↔ ∃ senior ∈ roles, senior ∈ knownRoles ∧ Authorizes senior role := by
  rw [roleClosure, mem_sorted]
  exact mem_worklist_roots known_juniors

/-- no closure leaves the policy -/
theorem known_of_mem_roleClosure {role : String} {roles : List String} (h : role ∈ roleClosure roles) :
    role ∈ knownRoles := by
  obtain ⟨senior, _, hknown, hreach⟩ := mem_roleClosure.1 h
  exact hreach.known hknown

theorem mem_roleClosure_self {role : String} {roles : List String} (h : role ∈ roles) (hknown : role ∈ knownRoles) :
    role ∈ roleClosure roles :=
  mem_roleClosure.2 ⟨role, h, hknown, .refl⟩

theorem mem_assignedRoles {role accountLevel primaryRole : String} {assigned : List String} :
    role ∈ assignedRoles accountLevel primaryRole assigned ↔
      role = compositeRole accountLevel primaryRole ∨
        role ∈ assigned ∧ role.startsWith (accountLevel ++ ":") = true ∧ role ∈ knownRoles := by
  rw [assignedRoles, mem_sorted, List.mem_insert_iff, List.mem_dedup, List.mem_filter, Bool.and_eq_true,
    decide_eq_true_eq]

/-- the primary role is authorized exactly when the policy knows it, or an extra role brings it -/
theorem primary_authorized {accountLevel primaryRole : String} {assigned : List String}
    (h : compositeRole accountLevel primaryRole ∈ knownRoles) :
    compositeRole accountLevel primaryRole ∈ authorizedRoles accountLevel primaryRole assigned :=
  mem_roleClosure_self (mem_assignedRoles.2 (Or.inl rfl)) h

/-! ## What a session gets -/

/-- a session that selected roles gets those, each once -/
theorem activatedRoles_selected {policy : Policy} {accountLevel primaryRole : String}
    {extraRoles selected active : List String}
    (h : activatedRoles policy accountLevel primaryRole extraRoles (some selected) = some active) :
    active.Nodup ∧ ∀ role, role ∈ active ↔ role ∈ selected := by
  simp only [activatedRoles] at h
  split_ifs at h with hssd hsel
  · have hactive : sorted selected = active := by
      simp only [Option.filter_eq_some_iff, Option.some.injEq] at h
      exact h.1
    subst hactive
    exact ⟨nodup_sorted.2 hsel.1, fun role => mem_sorted⟩
  · simp at h

end LkmService.Auth
