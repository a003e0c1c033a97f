/-
The role hierarchy itself (`_validate_hierarchy` and `role_closure` of `core/rbac_roles.py`).

`Auth/Roles` computes with the hierarchy that is shipped. Here `KNOWN_ROLES` and `ROLE_INHERITANCE` are arbitrary, so
that a closure can also be asked of a hierarchy that the validation would refuse.

- `validateHierarchy_ok_iff`: a hierarchy is accepted if and only if its edges join known roles of one level and there
  is no cycle.
- `closeRoles_ends`: the work list comes to an end on every hierarchy, cycles included.
- `Accepted.mem_closure_iff`: in an accepted hierarchy the closure is what can be reached.
- `shipped_accepted`, `closure_shipped`: the shipped hierarchy is accepted, and its closure is the one of `Auth/Roles`.
-/
import LkmService.Auth.Roles
import LkmService.Lib.Graph
import LkmService.Lib.OrderedDict
import LkmService.Lib.Sorted

namespace LkmService.Auth

open Relation Worklist OrderedDict LkmService.Graph

/-- `KNOWN_ROLES` and `ROLE_INHERITANCE` -/
structure RoleHierarchy where
  known : List String
  inheritance : List (String × List String)
  keyed : Keyed inheritance

namespace RoleHierarchy

variable {h : RoleHierarchy} {role senior junior : String} {roles others : List String}

/-- `ROLE_INHERITANCE.get(role, ())` -/
def juniors (h : RoleHierarchy) (role : String) : List String := (get? h.inheritance role).getD []

inductive Refusal where
  | cycle (role : String)
  | unknownRole
  | crossesLevels
deriving DecidableEq

def Refusal.message : Refusal → String
  | .cycle role => "Role inheritance cycle at " ++ role
  | .unknownRole => "Role inheritance references unknown role"
  | .crossesLevels => "Role inheritance crosses account levels"

/-- `role.split(":", 1)[0]` -/
def levelPart (role : String) : List Char := role.toList.takeWhile (· ≠ ':')

/-- what `visit` checks of an edge -/
def checkEdge (h : RoleHierarchy) (role junior : String) : Except Refusal Unit :=
  if role ∉ h.known ∨ junior ∉ h.known then .error .unknownRole
  else if levelPart role ≠ levelPart junior then .error .crossesLevels
  else .ok ()

/-- `_validate_hierarchy` -/
def validateHierarchy (h : RoleHierarchy) : Except Refusal Unit := do
  let _ ← visitAll h.juniors h.checkEdge .cycle (h.inheritance.map Prod.fst)
  pure ()

/-- the roles that a closure can come by -/
def mentioned (h : RoleHierarchy) : List String := h.known ++ h.inheritance.flatMap Prod.snd

/-- `pending` at the start; `pop()` takes from the end -/
def startingRoles (h : RoleHierarchy) (roles : List String) : List String := (roles.filter (· ∈ h.known)).reverse

/-- the `while` loop of `role_closure`, `none` while it runs -/
def closeRoles (h : RoleHierarchy) (fuel : ℕ) (roles : List String) : Option (List String) :=
  (loop h.juniors fuel [] (h.startingRoles roles)).map sorted

/-- `role_closure` -/
def closure (h : RoleHierarchy) (roles : List String) : List String :=
  sorted (worklist h.juniors (work h.juniors h.mentioned [] (h.startingRoles roles)) [] (h.startingRoles roles))

/-- a role inherits another directly -/
def Inherits (h : RoleHierarchy) (senior junior : String) : Prop := junior ∈ h.juniors senior

/-! ## What is accepted -/

/-- an edge within one level of the known roles -/
structure SoundEdge (h : RoleHierarchy) (senior junior : String) : Prop where
  above : senior ∈ h.known
  below : junior ∈ h.known
  level : levelPart senior = levelPart junior

/-- what the hierarchy is meant to be -/
structure Accepted (h : RoleHierarchy) : Prop where
  edges : ∀ senior junior, h.Inherits senior junior → h.SoundEdge senior junior
  acyclic : Acyclic h.Inherits

theorem checkEdge_ok_iff : h.checkEdge senior junior = .ok () ↔ h.SoundEdge senior junior := by
  unfold checkEdge
  split_ifs with hunknown hlevel
  · refine iff_of_false (by simp) fun hsound => ?_
    rcases hunknown with hsenior | hjunior
    · exact hsenior hsound.above
    · exact hjunior hsound.below
  · exact iff_of_false (by simp) fun hsound => hlevel hsound.level
  · obtain ⟨hsenior, hjunior⟩ := not_or.1 hunknown
    exact iff_of_true rfl ⟨not_not.1 hsenior, not_not.1 hjunior, not_not.1 hlevel⟩

theorem key_of_juniors (hne : h.juniors role ≠ []) : role ∈ h.inheritance.map Prod.fst := by
  by_contra hkey
  refine hne ?_
  rw [juniors, get?_eq_none_iff.2 hkey]
  rfl

/-- the recursion of `visit` ends by itself: any deeper one does the same -/
theorem validateHierarchy_fuel {fuel : ℕ} (hfuel : h.inheritance.length < fuel) :
    (do
      let _ ← (h.inheritance.map Prod.fst).foldlM (visit h.juniors h.checkEdge .cycle fuel []) []
      pure ()) = h.validateHierarchy := by
  rw [visitAll_fuel (fun _ => key_of_juniors) (by simpa using hfuel)]
  rfl

theorem validateHierarchy_ok_iff : h.validateHierarchy = .ok () ↔ h.Accepted := by
  have hvisit : (∃ visited, visitAll h.juniors h.checkEdge .cycle (h.inheritance.map Prod.fst) = .ok visited) ↔
      (∀ senior, ∀ junior ∈ h.juniors senior, h.checkEdge senior junior = .ok ()) ∧ Acyclic h.Inherits :=
    visitAll_ok_iff fun _ => key_of_juniors
  constructor
  · intro hok
    obtain ⟨visited, hrun, -⟩ := bind_ok hok
    obtain ⟨hcheck, hacyclic⟩ := hvisit.1 ⟨visited, hrun⟩
    exact ⟨fun senior junior hedge => checkEdge_ok_iff.1 (hcheck senior junior hedge), hacyclic⟩
  · intro haccepted
    obtain ⟨visited, hrun⟩ := hvisit.2
      ⟨fun senior junior hedge => checkEdge_ok_iff.2 (haccepted.edges senior junior hedge), haccepted.acyclic⟩
    rw [validateHierarchy, hrun]
    rfl

/-! ## The closure -/

theorem mem_startingRoles : role ∈ h.startingRoles roles ↔ role ∈ roles ∧ role ∈ h.known := by
  simp [startingRoles]

theorem startingRoles_mentioned (hrole : role ∈ h.startingRoles roles) : role ∈ h.mentioned :=
  List.mem_append_left _ (mem_startingRoles.1 hrole).2

theorem juniors_mentioned (hedge : h.Inherits senior junior) : junior ∈ h.mentioned := by
  unfold Inherits juniors at hedge
  rcases hget : get? h.inheritance senior with _ | below
  · simp [hget] at hedge
  · have hentry : (senior, below) ∈ h.inheritance := (get?_eq_some_iff h.keyed).1 hget
    refine List.mem_append_right _ (List.mem_flatMap.2 ⟨_, hentry, ?_⟩)
    simpa [hget] using hedge

/-- **The work list ends.** On every hierarchy, whatever edges it has. -/
theorem closeRoles_ends (h : RoleHierarchy) (roles : List String) :
    ∃ steps, ∀ fuel, steps ≤ fuel → h.closeRoles fuel roles = some (h.closure roles) := by
  refine ⟨work h.juniors h.mentioned [] (h.startingRoles roles), fun fuel hfuel => ?_⟩
  have hends : loop h.juniors (work h.juniors h.mentioned [] (h.startingRoles roles)) [] (h.startingRoles roles) =
      some (worklist h.juniors (work h.juniors h.mentioned [] (h.startingRoles roles)) [] (h.startingRoles roles)) :=
    loop_eq le_rfl (fun _ => startingRoles_mentioned) fun _ _ _ => juniors_mentioned
  rw [closeRoles, loop_mono hends hfuel]
  rfl

theorem mem_closure : role ∈ h.closure roles ↔ ∃ senior ∈ roles, senior ∈ h.known ∧ ReflTransGen h.Inherits senior role := by
  rw [closure, mem_sorted, mem_worklist_iff le_rfl (fun _ => startingRoles_mentioned) fun _ _ _ => juniors_mentioned]
  constructor
  · rintro ⟨senior, hsenior, hreach⟩
    obtain ⟨hmem, hknown⟩ := mem_startingRoles.1 hsenior
    exact ⟨senior, hmem, hknown, hreach⟩
  · rintro ⟨senior, hmem, hknown, hreach⟩
    exact ⟨senior, mem_startingRoles.2 ⟨hmem, hknown⟩, hreach⟩

/-- `sorted` of distinct roles -/
theorem pairwise_sorted (hnodup : roles.Nodup) : (sorted roles).Pairwise fun a b => id a < id b := by
  have hstrict : (roles.insertionSort fun a b => id a ≤ id b).Pairwise fun a b => id a < id b :=
    Sorted.pairwise_sorted (by simpa using hnodup)
  exact hstrict

theorem pairwise_closure (h : RoleHierarchy) (roles : List String) : (h.closure roles).Pairwise fun a b => id a < id b :=
  pairwise_sorted (nodup_worklist List.nodup_nil)

/-- closures are equal when they hold the same roles -/
theorem closure_ext (hmem : ∀ role, role ∈ h.closure roles ↔ role ∈ h.closure others) : h.closure roles = h.closure others :=
  Sorted.eq_of_mem_iff (pairwise_closure h roles) (pairwise_closure h others) hmem

/-- monotone on every hierarchy -/
theorem closure_mono (hsub : roles ⊆ others) : h.closure roles ⊆ h.closure others := by
  intro role hrole
  obtain ⟨senior, hmem, hknown, hreach⟩ := mem_closure.1 hrole
  exact mem_closure.2 ⟨senior, hsub hmem, hknown, hreach⟩

theorem mem_closure_append : role ∈ h.closure (roles ++ others) ↔ role ∈ h.closure roles ∨ role ∈ h.closure others := by
  simp only [mem_closure, List.mem_append, or_and_right, exists_or]

theorem Accepted.known (ha : h.Accepted) (hreach : ReflTransGen h.Inherits senior role) (hknown : senior ∈ h.known) :
    role ∈ h.known := by
  induction hreach with
  | refl => exact hknown
  | tail _ hedge _ => exact (ha.edges _ _ hedge).below

/-- the closure is what can be reached of the known roles -/
theorem Accepted.mem_closure_iff (ha : h.Accepted) :
    role ∈ h.closure roles ↔ role ∈ h.known ∧ ∃ senior ∈ roles, ReflTransGen h.Inherits senior role := by
  rw [mem_closure]
  constructor
  · rintro ⟨senior, hmem, hknown, hreach⟩
    exact ⟨ha.known hreach hknown, senior, hmem, hreach⟩
  · rintro ⟨hrole, senior, hmem, hreach⟩
    refine ⟨senior, hmem, ?_, hreach⟩
    -- a role that is not known has no edges
    rcases hreach.cases_head with rfl | ⟨_, hedge, _⟩
    · exact hrole
    · exact (ha.edges _ _ hedge).above

theorem Accepted.closure_idem (ha : h.Accepted) (roles : List String) : h.closure (h.closure roles) = h.closure roles := by
  refine closure_ext fun role => ?_
  constructor
  · intro hrole
    obtain ⟨hknown, middle, hmiddle, hreach⟩ := ha.mem_closure_iff.1 hrole
    obtain ⟨-, senior, hmem, hfirst⟩ := ha.mem_closure_iff.1 hmiddle
    exact ha.mem_closure_iff.2 ⟨hknown, senior, hmem, hfirst.trans hreach⟩
  · intro hrole
    obtain ⟨hknown, -⟩ := ha.mem_closure_iff.1 hrole
    exact ha.mem_closure_iff.2 ⟨hknown, role, hrole, .refl⟩

/-! ## The shipped hierarchy -/

/-- `ROLE_INHERITANCE` as it is shipped -/
def shipped : RoleHierarchy where
  known := knownRoles
  inheritance :=
    [("normal:columnist", ["normal:member"]), ("normal:author", ["normal:columnist"]),
      ("admin:org_member", ["admin:incubated_member"]), ("admin:super_admin", ["admin:org_member"])]
  keyed := by
    unfold Keyed
    decide

/-- the module loads -/
theorem shipped_accepted : shipped.validateHierarchy = .ok () := by decide

theorem juniors_shipped (role : String) : shipped.juniors role = Auth.juniors role := by
  unfold juniors Auth.juniors shipped get?
  by_cases hcolumnist : role = "normal:columnist"
  · subst hcolumnist
    rfl
  by_cases hauthor : role = "normal:author"
  · subst hauthor
    rfl
  by_cases horg : role = "admin:org_member"
  · subst horg
    rfl
  by_cases hsuper : role = "admin:super_admin"
  · subst hsuper
    rfl
  simp [hcolumnist, hauthor, horg, hsuper, List.find?, Ne.symm hcolumnist, Ne.symm hauthor, Ne.symm horg, Ne.symm hsuper]

theorem closure_shipped (roles : List String) : shipped.closure roles = roleClosure roles := by
  have hedges : shipped.Inherits = fun senior junior => junior ∈ Auth.juniors senior := by
    funext senior junior
    rw [Inherits, juniors_shipped]
  have hmem : ∀ role, role ∈ shipped.closure roles ↔ role ∈ roleClosure roles := fun role => by
    rw [mem_closure, mem_roleClosure, hedges]
    rfl
  have hstrict : (roleClosure roles).Pairwise fun a b => id a < id b := pairwise_sorted (nodup_worklist List.nodup_nil)
  exact Sorted.eq_of_mem_iff (pairwise_closure shipped roles) hstrict hmem

/-! ## The hierarchy and its closure -/

/-- **The role closure.** Validation accepts the hierarchies whose edges join known roles of one level without a cycle;
the work list ends on all of them and on all others; and of an accepted hierarchy the closure is the set of roles that
can be reached, idempotent, monotone, and of a union the union. -/
theorem closure_of_hierarchy (h : RoleHierarchy) :
    (h.validateHierarchy = .ok () ↔
      (∀ senior junior, h.Inherits senior junior →
        senior ∈ h.known ∧ junior ∈ h.known ∧ levelPart senior = levelPart junior) ∧
        ∀ role, ¬ TransGen h.Inherits role role) ∧
    (∀ roles, ∃ steps, ∀ fuel, steps ≤ fuel → h.closeRoles fuel roles = some (h.closure roles)) ∧
    (h.validateHierarchy = .ok () →
      (∀ roles role, role ∈ h.closure roles ↔ role ∈ h.known ∧ ∃ senior ∈ roles, ReflTransGen h.Inherits senior role) ∧
      (∀ roles, h.closure (h.closure roles) = h.closure roles) ∧
      (∀ roles others, roles ⊆ others → h.closure roles ⊆ h.closure others) ∧
      ∀ roles others role, role ∈ h.closure (roles ++ others) ↔ role ∈ h.closure roles ∨ role ∈ h.closure others) := by
  refine ⟨?_, closeRoles_ends h, fun hok => ?_⟩
  · rw [validateHierarchy_ok_iff]
    constructor
    · intro ha
      refine ⟨fun senior junior hedge => ?_, ha.acyclic⟩
      obtain ⟨hsenior, hjunior, hlevel⟩ := ha.edges senior junior hedge
      exact ⟨hsenior, hjunior, hlevel⟩
    · rintro ⟨hedges, hacyclic⟩
      refine ⟨fun senior junior hedge => ?_, hacyclic⟩
      obtain ⟨hsenior, hjunior, hlevel⟩ := hedges senior junior hedge
      exact ⟨hsenior, hjunior, hlevel⟩
  · have ha := validateHierarchy_ok_iff.1 hok
    exact ⟨fun _ _ => ha.mem_closure_iff, ha.closure_idem, fun _ _ hsub => closure_mono hsub, fun _ _ _ => mem_closure_append⟩

end RoleHierarchy

end LkmService.Auth
