/-
The activation of session roles under any role policy (`core/rbac_roles.py`, `authorize_user` of `service_authz.py`).

`RolePolicy` is what the start accepts: known roles, a hierarchy among them, and the two lists of constraints; the
policy of the deployment is `shipped`. `activation_sound`: what a session gets is authorized, within both kinds of
constraints and, by default, maximal and accepted again, exactly when the policy knows the primary role or refuses the
account anyway. `columnist_at_admin` is an account whose columns leave the policy: its default names a role that
authorizes nothing, twice, and a session that asks for it is refused.
-/
import LkmService.Auth.Authz
import LkmService.Lib.Greedy

namespace LkmService.Auth

open Worklist Greedy

/-! ## The policy -/

/-- the start also refuses a cycle and a junior of another level, which no result here needs -/
structure Hierarchy where
  knownRoles : List String
  /-- `ROLE_INHERITANCE.get(role, ())` -/
  inheritance : String → List String
  known : ∀ senior ∈ knownRoles, ∀ junior ∈ inheritance senior, junior ∈ knownRoles

/-- a bound on how many of its roles one closure may hold -/
structure Separation (H : Hierarchy) where
  roles : List String
  maxRoles : ℕ
  nodup : roles.Nodup
  known : ∀ role ∈ roles, role ∈ H.knownRoles
  pos : 0 < maxRoles
  lt : maxRoles < roles.length

structure RolePolicy extends Hierarchy where
  ssd : List (Separation toHierarchy)
  dsd : List (Separation toHierarchy)

/-- the constraint holds of a closure -/
def Separation.Holds {H : Hierarchy} (item : Separation H) (closure : List String) : Prop :=
  (item.roles.filter (· ∈ closure)).length ≤ item.maxRoles

/-- a smaller closure meets every bound a larger one meets -/
theorem Separation.Holds.anti {H : Hierarchy} {item : Separation H} {roles roles' : List String}
    (h : item.Holds roles') (hsub : roles ⊆ roles') : item.Holds roles :=
  le_trans (List.monotone_filter_right _ fun role hrole => by simpa using hsub (by simpa using hrole)).length_le h

/-! ## The functions -/

namespace Hierarchy

variable (H : Hierarchy)

/-- every known role given, and its transitive juniors -/
def roleClosure (roles : List String) : List String :=
  let pending := (roles.filter (· ∈ H.knownRoles)).reverse
  sorted (worklist H.inheritance
    (pending.length + (H.knownRoles.map fun role => (H.inheritance role).length).sum) [] pending)

def satisfiesConstraints (roles : List String) (constraints : List (Separation H)) : Bool :=
  constraints.all fun item => (item.roles.filter (· ∈ H.roleClosure roles)).length ≤ item.maxRoles

def assignedRoles (accountLevel primaryRole : String) (assigned : List String) : List String :=
  sorted (List.insert (compositeRole accountLevel primaryRole)
    (assigned.filter fun role => role.startsWith (accountLevel ++ ":") && decide (role ∈ H.knownRoles)).dedup)

def authorizedRoles (accountLevel primaryRole : String) (extraRoles : List String) : List String :=
  H.roleClosure (H.assignedRoles accountLevel primaryRole extraRoles)

end Hierarchy

namespace RolePolicy

variable (P : RolePolicy)

/-- the loop of `activated_roles` -/
def chooseRoles (candidates : List String) : List String :=
  greedy (fun chosen role => decide (role ∈ P.roleClosure chosen)) (fun chosen => P.satisfiesConstraints chosen P.dsd)
    [] candidates

/-- the roles a session runs with; `none` is the `ValueError` -/
def activatedRoles (accountLevel primaryRole : String) (extraRoles : List String)
    (selectedRoles : Option (List String)) : Option (List String) :=
  let direct := P.assignedRoles accountLevel primaryRole extraRoles
  let available := P.roleClosure direct
  if P.satisfiesConstraints available P.ssd = false then none
  else
    let selected :=
      match selectedRoles with
      | none => some (sorted (P.chooseRoles (compositeRole accountLevel primaryRole :: (direct ++ available))))
      | some roles => if roles.Nodup ∧ ∀ role ∈ roles, role ∈ available then some (sorted roles) else none
    selected.filter fun roles => P.satisfiesConstraints roles P.dsd

/-- the separation check of `authorize_user`, and the activation -/
def sessionRoles (row : UserRow) (selected : Option (List String)) : Option (List String) :=
  if P.satisfiesConstraints (P.authorizedRoles row.level row.role row.extraRoles) P.ssd = false then none
  else P.activatedRoles row.level row.role row.extraRoles selected

/-- `authorize_user` under the policy; the stores are those of `w`, whose own policy is not asked -/
def authorizeUser (w : World) (user : UserId) (expectTokenVersion : ℤ) (iat : Option ℚ) (requireAdmin : Bool)
    (jti : Option String) (selected : Option (List String)) : Except Cause Verdict :=
  if (jtiOf jti).any w.revoked then .error .sessionRevoked
  else
    match w.users user with
    | none => .error .notFound
    | some row =>
      if lockIsActive w.now row then .error .locked
      else if ¬ admissionIsActive row then .error .locked
      else if expectTokenVersion ≠ row.tokenVersion then .error .sessionRevoked
      else
        let stale : Bool :=
          match row.updatedAt, iat with
          | some updated, some seconds => decide (updated - (fromTimestamp seconds).getD 0 > iatTolerance)
          | _, _ => false
        if stale then .error .passwordChanged
        else if requireAdmin ∧ row.level ≠ "admin" then .error .notAdmin
        else
          match P.sessionRoles row selected with
          | none => .error .sessionRevoked
          | some active => .ok { accountLevel := row.level, role := row.role, activeRoles := active }

end RolePolicy

/-! ## The policy of the deployment -/

def SeparationConstraint.lift (item : SeparationConstraint) : Separation ⟨knownRoles, juniors, known_juniors⟩ :=
  ⟨item.roles, item.maxRoles, item.nodup, item.known, item.pos, item.lt⟩

/-- the hierarchy in the code, with the constraints of the deployment -/
def shipped (policy : Policy) : RolePolicy :=
  { knownRoles := knownRoles
    inheritance := juniors
    known := known_juniors
    ssd := policy.ssd.map SeparationConstraint.lift
    dsd := policy.dsd.map SeparationConstraint.lift }

@[simp] theorem roleClosure_shipped (policy : Policy) (roles : List String) :
    (shipped policy).roleClosure roles = roleClosure roles := rfl

@[simp] theorem assignedRoles_shipped (policy : Policy) (accountLevel primaryRole : String) (assigned : List String) :
    (shipped policy).assignedRoles accountLevel primaryRole assigned =
      assignedRoles accountLevel primaryRole assigned := rfl

@[simp] theorem authorizedRoles_shipped (policy : Policy) (accountLevel primaryRole : String) (extraRoles : List String) :
    (shipped policy).authorizedRoles accountLevel primaryRole extraRoles =
      authorizedRoles accountLevel primaryRole extraRoles := rfl

@[simp] theorem satisfiesConstraints_ssd (policy : Policy) (roles : List String) :
    (shipped policy).satisfiesConstraints roles (shipped policy).ssd = satisfiesConstraints roles policy.ssd :=
  List.all_map

@[simp] theorem satisfiesConstraints_dsd (policy : Policy) (roles : List String) :
    (shipped policy).satisfiesConstraints roles (shipped policy).dsd = satisfiesConstraints roles policy.dsd :=
  List.all_map

theorem chooseRoles_eq_greedy (policy : Policy) (chosen candidates : List String) :
    chooseRoles policy chosen candidates =
      greedy (fun chosen role => decide (role ∈ roleClosure chosen))
        (fun chosen => satisfiesConstraints chosen policy.dsd) chosen candidates := by
  induction candidates generalizing chosen with
  | nil => rfl
  | cons role candidates ih => simp only [chooseRoles, greedy, decide_eq_false_iff_not, ih]

@[simp] theorem chooseRoles_shipped (policy : Policy) (candidates : List String) :
    (shipped policy).chooseRoles candidates = chooseRoles policy [] candidates := by
  simp only [chooseRoles_eq_greedy, RolePolicy.chooseRoles, roleClosure_shipped, satisfiesConstraints_dsd]
  rfl

/-- the shipped policy activates what the services activate -/
@[simp] theorem activatedRoles_shipped (policy : Policy) (accountLevel primaryRole : String) (extraRoles : List String)
    (selectedRoles : Option (List String)) :
    (shipped policy).activatedRoles accountLevel primaryRole extraRoles selectedRoles =
      activatedRoles policy accountLevel primaryRole extraRoles selectedRoles := by
  simp only [RolePolicy.activatedRoles, activatedRoles, roleClosure_shipped, assignedRoles_shipped,
    satisfiesConstraints_ssd, satisfiesConstraints_dsd, chooseRoles_shipped]
  rfl

@[simp] theorem sessionRoles_shipped (policy : Policy) (row : UserRow) (selected : Option (List String)) :
    (shipped policy).sessionRoles row selected = sessionRoles policy row selected := by
  simp only [RolePolicy.sessionRoles, sessionRoles, authorizedRoles_shipped, satisfiesConstraints_ssd,
    activatedRoles_shipped]

theorem authorizeUser_shipped (w : World) : (shipped w.policy).authorizeUser w = authorizeUser w := by
  funext user expectTokenVersion iat requireAdmin jti selected
  simp only [RolePolicy.authorizeUser, sessionRoles_shipped]
  rfl

/-! ## The closure -/

namespace Hierarchy

variable {H : Hierarchy} {role : String} {roles roles' : List String}

/-- a role authorizes itself and what its juniors authorize -/
def Authorizes (H : Hierarchy) (senior junior : String) : Prop :=
  Relation.ReflTransGen (fun a b => b ∈ H.inheritance a) senior junior

theorem Authorizes.known {senior junior : String} (h : H.Authorizes senior junior) (hsenior : senior ∈ H.knownRoles) :
    junior ∈ H.knownRoles := by
  induction h with
  | refl => exact hsenior
  | tail _ hstep ih => exact H.known _ ih _ hstep

theorem mem_roleClosure : role ∈ H.roleClosure roles ↔ ∃ senior ∈ roles, senior ∈ H.knownRoles ∧ H.Authorizes senior role := by
  rw [roleClosure, mem_sorted]
  exact mem_worklist_roots H.known

theorem known_of_mem_roleClosure (h : role ∈ H.roleClosure roles) : role ∈ H.knownRoles := by
  obtain ⟨senior, _, hknown, hreach⟩ := mem_roleClosure.1 h
  exact hreach.known hknown

theorem mem_roleClosure_self (h : role ∈ roles) (hknown : role ∈ H.knownRoles) : role ∈ H.roleClosure roles :=
  mem_roleClosure.2 ⟨role, h, hknown, .refl⟩

theorem roleClosure_mono (h : roles ⊆ roles') : H.roleClosure roles ⊆ H.roleClosure roles' := by
  intro role hrole
  obtain ⟨senior, hmem, hrest⟩ := mem_roleClosure.1 hrole
  exact mem_roleClosure.2 ⟨senior, h hmem, hrest⟩

/-- roles of a closure authorize nothing outside it -/
theorem roleClosure_subset (h : ∀ role ∈ roles, role ∈ H.knownRoles → role ∈ H.roleClosure roles') :
    H.roleClosure roles ⊆ H.roleClosure roles' := by
  intro role hrole
  obtain ⟨junior, hmem, hknown, hreach⟩ := mem_roleClosure.1 hrole
  obtain ⟨senior, hsenior, hseniorKnown, habove⟩ := mem_roleClosure.1 (h junior hmem hknown)
  exact mem_roleClosure.2 ⟨senior, hsenior, hseniorKnown, habove.trans hreach⟩

/-- a closure is sorted and holds each role once, so its members determine it -/
theorem roleClosure_eq (h : ∀ role, role ∈ H.roleClosure roles ↔ role ∈ H.roleClosure roles') :
    H.roleClosure roles = H.roleClosure roles' := by
  have hnodup : ∀ given, (H.roleClosure given).Nodup := fun given => nodup_sorted.2 (nodup_worklist List.nodup_nil)
  have hperm := (List.perm_ext_iff_of_nodup (hnodup roles) (hnodup roles')).2 h
  exact hperm.eq_of_pairwise' (List.pairwise_insertionSort _ _) (List.pairwise_insertionSort _ _)

theorem roleClosure_roleClosure : H.roleClosure (H.roleClosure roles) = H.roleClosure roles := by
  refine roleClosure_eq fun role => ⟨fun h => ?_, fun h => ?_⟩
  · exact roleClosure_subset (fun _ hmem _ => hmem) h
  · exact mem_roleClosure_self h (known_of_mem_roleClosure h)

theorem mem_assignedRoles {accountLevel primaryRole : String} {assigned : List String} :
    role ∈ H.assignedRoles accountLevel primaryRole assigned ↔
      role = compositeRole accountLevel primaryRole ∨
        role ∈ assigned ∧ role.startsWith (accountLevel ++ ":") = true ∧ role ∈ H.knownRoles := by
  rw [assignedRoles, mem_sorted, List.mem_insert_iff, List.mem_dedup, List.mem_filter, Bool.and_eq_true,
    decide_eq_true_eq]

/-! ## The constraints -/

theorem satisfiesConstraints_iff {constraints : List (Separation H)} :
    H.satisfiesConstraints roles constraints = true ↔ ∀ item ∈ constraints, item.Holds (H.roleClosure roles) := by
  simp [satisfiesConstraints, Separation.Holds]

theorem satisfiesConstraints_anti {constraints : List (Separation H)} (hsub : H.roleClosure roles ⊆ H.roleClosure roles')
    (h : H.satisfiesConstraints roles' constraints = true) : H.satisfiesConstraints roles constraints = true :=
  satisfiesConstraints_iff.2 fun item hitem => Separation.Holds.anti (satisfiesConstraints_iff.1 h item hitem) hsub

/-- a session without roles breaks no bound -/
theorem satisfiesConstraints_nil {constraints : List (Separation H)} : H.satisfiesConstraints [] constraints = true := by
  refine satisfiesConstraints_iff.2 fun item _ => ?_
  have hnone : ∀ role, role ∉ H.roleClosure [] := fun role h => by simpa using mem_roleClosure.1 h
  simp [Separation.Holds, hnone]

end Hierarchy

/-! ## What a session gets -/

namespace RolePolicy

variable {P : RolePolicy} {accountLevel primaryRole : String} {extraRoles selected active : List String}

/-- the active roles are authorized and within the constraints, as the authorized closure is -/
structure Within (P : RolePolicy) (accountLevel primaryRole : String) (extraRoles active : List String) : Prop where
  authorized : active ⊆ P.authorizedRoles accountLevel primaryRole extraRoles
  ssd : ∀ item ∈ P.ssd, item.Holds (P.authorizedRoles accountLevel primaryRole extraRoles)
  dsd : ∀ item ∈ P.dsd, item.Holds (P.roleClosure active)

/-- what the default selection promises beside that -/
structure Default (P : RolePolicy) (accountLevel primaryRole : String) (extraRoles active : List String) : Prop where
  /-- an authorized role that the session does not have would break a bound -/
  maximal : ∀ role ∈ P.authorizedRoles accountLevel primaryRole extraRoles, role ∉ P.roleClosure active →
    ∃ item ∈ P.dsd, ¬ item.Holds (P.roleClosure (active ++ [role]))
  whole : (∀ item ∈ P.dsd, item.Holds (P.authorizedRoles accountLevel primaryRole extraRoles)) →
    P.roleClosure active = P.authorizedRoles accountLevel primaryRole extraRoles
  again : P.activatedRoles accountLevel primaryRole extraRoles (some active) = some active

/-- the default selection before it is sorted -/
def defaultRoles (P : RolePolicy) (accountLevel primaryRole : String) (extraRoles : List String) : List String :=
  P.chooseRoles (compositeRole accountLevel primaryRole ::
    (P.assignedRoles accountLevel primaryRole extraRoles ++ P.authorizedRoles accountLevel primaryRole extraRoles))

/-- the static check looks at the authorized closure itself -/
theorem satisfiesConstraints_available :
    P.satisfiesConstraints (P.roleClosure (P.assignedRoles accountLevel primaryRole extraRoles)) P.ssd = true ↔
      ∀ item ∈ P.ssd, item.Holds (P.authorizedRoles accountLevel primaryRole extraRoles) := by
  rw [Hierarchy.satisfiesConstraints_iff, Hierarchy.roleClosure_roleClosure, Hierarchy.authorizedRoles]

theorem activatedRoles_some :
    P.activatedRoles accountLevel primaryRole extraRoles (some selected) = some active ↔
      (∀ item ∈ P.ssd, item.Holds (P.authorizedRoles accountLevel primaryRole extraRoles)) ∧ selected.Nodup ∧
        selected ⊆ P.authorizedRoles accountLevel primaryRole extraRoles ∧ active = sorted selected ∧
        P.satisfiesConstraints active P.dsd = true := by
  rw [← satisfiesConstraints_available]
  simp only [activatedRoles]
  split_ifs with hrefused hselected
  · simp [hrefused]
  · rw [Option.filter_eq_some_iff, Option.some.injEq]
    constructor
    · rintro ⟨rfl, hdsd⟩
      exact ⟨by simpa using hrefused, hselected.1, fun role h => hselected.2 role h, rfl, hdsd⟩
    · rintro ⟨-, -, -, rfl, hdsd⟩
      exact ⟨rfl, hdsd⟩
  · simp only [Option.filter_none, reduceCtorEq, false_iff]
    rintro ⟨-, hnodup, hsub, -⟩
    exact hselected ⟨hnodup, fun role h => hsub h⟩

theorem activatedRoles_none :
    P.activatedRoles accountLevel primaryRole extraRoles none = some active ↔
      (∀ item ∈ P.ssd, item.Holds (P.authorizedRoles accountLevel primaryRole extraRoles)) ∧
        active = sorted (P.defaultRoles accountLevel primaryRole extraRoles) ∧
        P.satisfiesConstraints active P.dsd = true := by
  rw [← satisfiesConstraints_available]
  simp only [activatedRoles]
  split_ifs with hrefused
  · simp [hrefused]
  · rw [Option.filter_eq_some_iff, Option.some.injEq]
    constructor
    · rintro ⟨rfl, hdsd⟩
      exact ⟨by simpa using hrefused, rfl, hdsd⟩
    · rintro ⟨-, rfl, hdsd⟩
      exact ⟨rfl, hdsd⟩

/-! ## The default selection -/

theorem roleClosure_sorted {roles : List String} : P.roleClosure (sorted roles) = P.roleClosure roles :=
  Hierarchy.roleClosure_eq fun role => by simp only [Hierarchy.mem_roleClosure, mem_sorted]

/-- the default breaks no dynamic constraint, whatever the columns hold -/
theorem defaultRoles_dsd : P.satisfiesConstraints (P.defaultRoles accountLevel primaryRole extraRoles) P.dsd = true :=
  greedy_ok _ (fun chosen => P.satisfiesConstraints chosen P.dsd) Hierarchy.satisfiesConstraints_nil

/-- an authorized role is had by the default, or cannot join it -/
theorem defaultRoles_maximal {role : String} (h : role ∈ P.authorizedRoles accountLevel primaryRole extraRoles) :
    role ∈ P.roleClosure (P.defaultRoles accountLevel primaryRole extraRoles) ∨
      P.satisfiesConstraints (P.defaultRoles accountLevel primaryRole extraRoles ++ [role]) P.dsd = false := by
  have hknown := Hierarchy.known_of_mem_roleClosure h
  have hcandidate : role ∈ compositeRole accountLevel primaryRole ::
      (P.assignedRoles accountLevel primaryRole extraRoles ++ P.authorizedRoles accountLevel primaryRole extraRoles) :=
    List.mem_cons_of_mem _ (List.mem_append_right _ h)
  have hgreedy := greedy_maximal (fun chosen role => decide (role ∈ P.roleClosure chosen))
    (fun chosen => P.satisfiesConstraints chosen P.dsd) []
    (fun l l' hsub y hy => by simpa using Hierarchy.roleClosure_mono hsub (by simpa using hy))
    (fun l l' hsub hl' => Hierarchy.satisfiesConstraints_anti (Hierarchy.roleClosure_mono hsub) hl')
    hcandidate (fun l hl => by simpa using Hierarchy.mem_roleClosure_self hl hknown)
  simpa [defaultRoles, chooseRoles] using hgreedy

/-- without a conflict the default authorizes all that the account does -/
theorem defaultRoles_whole
    (h : ∀ item ∈ P.dsd, item.Holds (P.authorizedRoles accountLevel primaryRole extraRoles))
    (hsub : ∀ role ∈ P.defaultRoles accountLevel primaryRole extraRoles, role ∈ P.knownRoles →
      role ∈ P.authorizedRoles accountLevel primaryRole extraRoles) :
    P.roleClosure (P.defaultRoles accountLevel primaryRole extraRoles) =
      P.authorizedRoles accountLevel primaryRole extraRoles := by
  refine Hierarchy.roleClosure_eq fun role => ⟨fun hrole => Hierarchy.roleClosure_subset hsub hrole, fun hrole => ?_⟩
  rcases defaultRoles_maximal hrole with hhad | hbreak
  · exact hhad
  · exfalso
    have hall : P.satisfiesConstraints (P.assignedRoles accountLevel primaryRole extraRoles) P.dsd = true :=
      Hierarchy.satisfiesConstraints_iff.2 h
    have hjoin : P.roleClosure (P.defaultRoles accountLevel primaryRole extraRoles ++ [role]) ⊆
        P.roleClosure (P.assignedRoles accountLevel primaryRole extraRoles) := by
      refine Hierarchy.roleClosure_subset fun other hother hknown => ?_
      rcases List.mem_append.1 hother with hother | hother
      · exact hsub other hother hknown
      · exact (List.mem_singleton.1 hother) ▸ hrole
    have hok := Hierarchy.satisfiesConstraints_anti hjoin hall
    rw [hbreak] at hok
    cases hok

section Known

variable (hprimary : compositeRole accountLevel primaryRole ∈ P.knownRoles)
include hprimary

theorem known_of_mem_assignedRoles {role : String} (h : role ∈ P.assignedRoles accountLevel primaryRole extraRoles) :
    role ∈ P.knownRoles := by
  rcases Hierarchy.mem_assignedRoles.1 h with rfl | ⟨_, _, hknown⟩
  · exact hprimary
  · exact hknown

theorem mem_candidates {role : String}
    (h : role ∈ compositeRole accountLevel primaryRole ::
      (P.assignedRoles accountLevel primaryRole extraRoles ++ P.authorizedRoles accountLevel primaryRole extraRoles)) :
    role ∈ P.authorizedRoles accountLevel primaryRole extraRoles := by
  rcases List.mem_cons.1 h with rfl | h
  · exact Hierarchy.mem_roleClosure_self (Hierarchy.mem_assignedRoles.2 (Or.inl rfl)) hprimary
  · rcases List.mem_append.1 h with h | h
    · exact Hierarchy.mem_roleClosure_self h (known_of_mem_assignedRoles hprimary h)
    · exact h

theorem defaultRoles_subset :
    P.defaultRoles accountLevel primaryRole extraRoles ⊆ P.authorizedRoles accountLevel primaryRole extraRoles := by
  intro role h
  rcases mem_of_mem_greedy h with h | h
  · simp at h
  · exact mem_candidates hprimary h

theorem defaultRoles_nodup : (P.defaultRoles accountLevel primaryRole extraRoles).Nodup := by
  refine greedy_nodup (fun l role hrole hfrom => ?_) List.nodup_nil
  rcases hfrom with hfrom | hfrom
  · simp at hfrom
  · have hknown := Hierarchy.known_of_mem_roleClosure (mem_candidates hprimary hfrom)
    simpa using Hierarchy.mem_roleClosure_self hrole hknown

end Known

/-- a primary role outside the policy authorizes nothing, and is the first that the default takes -/
theorem primary_mem_defaultRoles (h : compositeRole accountLevel primaryRole ∉ P.knownRoles) :
    compositeRole accountLevel primaryRole ∈ P.defaultRoles accountLevel primaryRole extraRoles := by
  have hfree : P.satisfiesConstraints [compositeRole accountLevel primaryRole] P.dsd = true := by
    have hsub : P.roleClosure [compositeRole accountLevel primaryRole] ⊆ P.roleClosure [] := by
      intro role hrole
      obtain ⟨senior, hmem, hknown, _⟩ := Hierarchy.mem_roleClosure.1 hrole
      exact absurd (List.mem_singleton.1 hmem ▸ hknown) h
    exact Hierarchy.satisfiesConstraints_anti hsub Hierarchy.satisfiesConstraints_nil
  have hnew : compositeRole accountLevel primaryRole ∉ P.roleClosure [] :=
    fun hmem => h (Hierarchy.known_of_mem_roleClosure hmem)
  simp only [defaultRoles, chooseRoles, greedy]
  rw [if_pos ⟨by simpa using hnew, by simpa using hfree⟩]
  exact subset_greedy (by simp)

/-! ## Soundness -/

theorem within_of_activatedRoles {choice : Option (List String)}
    (hchoice : choice = none → compositeRole accountLevel primaryRole ∈ P.knownRoles)
    (h : P.activatedRoles accountLevel primaryRole extraRoles choice = some active) :
    P.Within accountLevel primaryRole extraRoles active := by
  rcases choice with _ | selected
  · obtain ⟨hssd, rfl, hdsd⟩ := activatedRoles_none.1 h
    exact ⟨fun role hrole => defaultRoles_subset (hchoice rfl) (mem_sorted.1 hrole), hssd,
      Hierarchy.satisfiesConstraints_iff.1 hdsd⟩
  · obtain ⟨hssd, _, hsub, rfl, hdsd⟩ := activatedRoles_some.1 h
    exact ⟨fun role hrole => hsub (mem_sorted.1 hrole), hssd, Hierarchy.satisfiesConstraints_iff.1 hdsd⟩

theorem default_of_activatedRoles (hprimary : compositeRole accountLevel primaryRole ∈ P.knownRoles)
    (h : P.activatedRoles accountLevel primaryRole extraRoles none = some active) :
    P.Default accountLevel primaryRole extraRoles active := by
  obtain ⟨hssd, rfl, hdsd⟩ := activatedRoles_none.1 h
  have hsub : P.defaultRoles accountLevel primaryRole extraRoles ⊆ _ := defaultRoles_subset hprimary
  refine ⟨fun role hrole hnot => ?_, fun hall => ?_, ?_⟩
  · rw [roleClosure_sorted] at hnot
    have hbreak := (defaultRoles_maximal hrole).resolve_left hnot
    by_contra hnone
    push Not at hnone
    have hok : P.satisfiesConstraints (sorted (P.defaultRoles accountLevel primaryRole extraRoles) ++ [role]) P.dsd = true :=
      Hierarchy.satisfiesConstraints_iff.2 hnone
    have hsame := Hierarchy.satisfiesConstraints_anti (Hierarchy.roleClosure_mono
      (show P.defaultRoles accountLevel primaryRole extraRoles ++ [role] ⊆ _ from fun other hother => by
        simpa [mem_sorted] using hother)) hok
    rw [hbreak] at hsame
    cases hsame
  · rw [roleClosure_sorted]
    exact defaultRoles_whole hall fun role hrole _ => hsub hrole
  · refine activatedRoles_some.2 ⟨hssd, nodup_sorted.2 (defaultRoles_nodup hprimary),
      fun role hrole => hsub (mem_sorted.1 hrole), ?_, hdsd⟩
    exact ((List.pairwise_insertionSort _ _).insertionSort_eq).symm

/-- what `authorize_user` allows went through the activation of the row's columns -/
theorem activated_of_authorizeUser {w : World} {user : UserId} {row : UserRow} {expectTokenVersion : ℤ} {iat : Option ℚ}
    {requireAdmin : Bool} {jti : Option String} {choice : Option (List String)} {verdict : Verdict}
    (hrow : w.users user = some row)
    (h : P.authorizeUser w user expectTokenVersion iat requireAdmin jti choice = .ok verdict) :
    P.activatedRoles row.level row.role row.extraRoles choice = some verdict.activeRoles := by
  unfold authorizeUser at h
  simp only [hrow] at h
  split_ifs at h
  rcases hsession : P.sessionRoles row choice with _ | active
  · simp [hsession] at h
  · simp only [hsession, Except.ok.injEq] at h
    subst h
    unfold sessionRoles at hsession
    split_ifs at hsession
    exact hsession

/-- what activation promises for the columns of one row, asked directly or through `authorize_user` -/
structure Sound (P : RolePolicy) (row : UserRow) : Prop where
  within : ∀ choice active, P.activatedRoles row.level row.role row.extraRoles choice = some active →
    P.Within row.level row.role row.extraRoles active
  default : ∀ active, P.activatedRoles row.level row.role row.extraRoles none = some active →
    P.Default row.level row.role row.extraRoles active
  verdict : ∀ (w : World) user expectTokenVersion iat requireAdmin jti choice verdict, w.users user = some row →
    P.authorizeUser w user expectTokenVersion iat requireAdmin jti choice = .ok verdict →
    P.Within row.level row.role row.extraRoles verdict.activeRoles ∧
      (choice = none → P.Default row.level row.role row.extraRoles verdict.activeRoles)

/-- the policy knows the primary role, or refuses every session of the account -/
def Covers (P : RolePolicy) (row : UserRow) : Prop :=
  compositeRole row.level row.role ∈ P.knownRoles ∨
    ∃ item ∈ P.ssd, ¬ item.Holds (P.authorizedRoles row.level row.role row.extraRoles)

theorem Covers.known {row : UserRow} (h : P.Covers row) {choice : Option (List String)}
    (hactive : P.activatedRoles row.level row.role row.extraRoles choice = some active) :
    compositeRole row.level row.role ∈ P.knownRoles := by
  rcases h with hknown | ⟨item, hitem, hbroken⟩
  · exact hknown
  · cases choice with
    | none => exact absurd ((activatedRoles_none.1 hactive).1 item hitem) hbroken
    | some selected => exact absurd ((activatedRoles_some.1 hactive).1 item hitem) hbroken

/-- **Activation is sound where the policy covers the account.** Under every hierarchy and constraints, and for every
row: what a session gets is authorized and within both kinds of constraints, the default is maximal, authorizes
everything when nothing conflicts and is accepted when asked for again, exactly when the primary role is a known one or
the static constraints refuse the account. -/
theorem activation_sound (P : RolePolicy) (row : UserRow) : P.Sound row ↔ P.Covers row := by
  constructor
  · intro h
    by_contra hnot
    simp only [Covers, not_or, not_exists, not_and, not_not] at hnot
    obtain ⟨hunknown, hssd⟩ := hnot
    have hdsd : P.satisfiesConstraints (sorted (P.defaultRoles row.level row.role row.extraRoles)) P.dsd = true := by
      rw [Hierarchy.satisfiesConstraints_iff, roleClosure_sorted, ← Hierarchy.satisfiesConstraints_iff]
      exact defaultRoles_dsd
    have hactive := activatedRoles_none.2 ⟨hssd, rfl, hdsd⟩
    have hprimary := (h.within none _ hactive).authorized (mem_sorted.2 (primary_mem_defaultRoles hunknown))
    exact hunknown (Hierarchy.known_of_mem_roleClosure hprimary)
  · intro h
    refine ⟨fun choice active hactive => within_of_activatedRoles (fun _ => h.known hactive) hactive,
      fun active hactive => default_of_activatedRoles (h.known hactive) hactive, ?_⟩
    intro w user expectTokenVersion iat requireAdmin jti choice verdict hrow hok
    have hactive := activated_of_authorizeUser hrow hok
    refine ⟨within_of_activatedRoles (fun _ => h.known hactive) hactive, ?_⟩
    rintro rfl
    exact default_of_activatedRoles (h.known hactive) hactive

end RolePolicy

/-- a row with the columns of the account, neither locked nor waiting for admission -/
def rowOf (a : Account) : UserRow :=
  { a with
    email := none
    phone := none
    isLocked := false
    lockedUntil := none
    admissionStatus := "active"
    updatedAt := none }

/-- A columnist is incubated: the level rises to `admin`, the role stays, and `admin:columnist` is no role. The account
authorizes nothing, its default session names that role twice, and asking for this session again is refused. -/
theorem columnist_at_admin :
    ∃ a, run ⟨[], []⟩ (fun _ => none)
        [.register 1 true, .grantExamUnlock 1 none (some "columnist"), .grantIncubation 1] 1 = some a ∧
      (shipped ⟨[], []⟩).authorizedRoles (rowOf a).level (rowOf a).role (rowOf a).extraRoles = [] ∧
      (shipped ⟨[], []⟩).activatedRoles (rowOf a).level (rowOf a).role (rowOf a).extraRoles none =
        some ["admin:columnist", "admin:columnist"] ∧
      (shipped ⟨[], []⟩).activatedRoles (rowOf a).level (rowOf a).role (rowOf a).extraRoles
        (some ["admin:columnist", "admin:columnist"]) = none ∧
      ¬ (shipped ⟨[], []⟩).Sound (rowOf a) := by
  have hdefault : (shipped ⟨[], []⟩).activatedRoles "admin" "columnist" [] none =
      some ["admin:columnist", "admin:columnist"] := by
    decide
  have hnothing : (shipped ⟨[], []⟩).authorizedRoles "admin" "columnist" [] = [] := by
    decide
  refine ⟨⟨"admin", some "columnist", [], 2⟩, by decide, hnothing, hdefault, by decide, fun h => ?_⟩
  have hsub : ["admin:columnist", "admin:columnist"] ⊆
      (shipped ⟨[], []⟩).authorizedRoles "admin" "columnist" [] := (h.within none _ hdefault).authorized
  rw [hnothing] at hsub
  simp at hsub

end LkmService.Auth
