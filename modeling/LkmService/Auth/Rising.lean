/-
What each operation on an account leaves when it commits.

Who holds the lock of a user has the profile and the roles to itself. So what an operation decides under that lock still
stands when it commits (`Outcome`). The law is `OneWay`.

- `rising`: the discipline. No level or role falls, the token version counts the changes of an account, and the
  separation of duties holds.
- `Fits`: when a session may commit.
- `Wrote`: what a session holds, and has announced, with the answer of its program.
- `body_spec`: every operation ends so.
-/
import LkmService.Auth.Upgrades

namespace LkmService.Auth.Upgrades

open Session Sql Sql.Discipline Tbl

abbrev State := Snap Row Announced

abbrev Held := Own Row Index

variable {policy : Policy} {requests : ℕ → Request} {r : Request} {i n m user : ℕ} {o : Held} {σ τ υ : State}
variable {a b : User} {p : Profile} {q : Option Profile}

/-! ## Separation of duties -/

def Assigned (σ : State) (user : ℕ) (name : String) : Prop :=
  ∃ n r, σ.com userRoles n = some r ∧ r.userId = user ∧ r.roleName = name

/-- the constraints hold with every choice of the roles assigned -/
def Separated (policy : Policy) (σ : State) (user : ℕ) (level role : String) : Prop :=
  ∀ extraRoles : List String, (∀ name ∈ extraRoles, Assigned σ user name) →
    satisfiesConstraints (authorizedRoles level role extraRoles) policy.ssd = true

theorem roleClosure_mono {l l' : List String} (h : ∀ role ∈ l, role ∈ l') {role : String} (hrole : role ∈ roleClosure l) :
    role ∈ roleClosure l' := by
  obtain ⟨senior, hmem, hknown, hauth⟩ := mem_roleClosure.1 hrole
  exact mem_roleClosure.2 ⟨senior, h senior hmem, hknown, hauth⟩

/-- fewer roles meet the constraints that more roles meet -/
theorem satisfiesConstraints_anti {l l' : List String} {constraints : List SeparationConstraint}
    (h : ∀ role ∈ l, role ∈ l') (hl : satisfiesConstraints l' constraints = true) :
    satisfiesConstraints l constraints = true := by
  rw [satisfiesConstraints, List.all_eq_true] at hl ⊢
  intro item hitem
  have hle := hl item hitem
  rw [decide_eq_true_eq] at hle ⊢
  refine Nat.le_trans (List.Sublist.length_le ?_) hle
  refine List.monotone_filter_right _ fun role hrole => ?_
  rw [decide_eq_true_eq] at hrole ⊢
  exact roleClosure_mono h hrole

theorem satisfies_of_subset {level role : String} {l l' : List String} {constraints : List SeparationConstraint}
    (h : ∀ name ∈ l, name ∈ l')
    (hl : satisfiesConstraints (authorizedRoles level role l') constraints = true) :
    satisfiesConstraints (authorizedRoles level role l) constraints = true := by
  refine satisfiesConstraints_anti (fun name hname => roleClosure_mono (fun x hx => ?_) hname) hl
  rcases mem_assignedRoles.1 hx with hprimary | ⟨hmem, hlevel⟩
  · exact mem_assignedRoles.2 (Or.inl hprimary)
  · exact mem_assignedRoles.2 (Or.inr ⟨h x hmem, hlevel⟩)

/-! ## The invariant and the order -/

structure Lawful (policy : Policy) (σ : State) : Prop where
  profile : ∀ u a, σ.com users u = some a → ∃ p, σ.com profiles u = some p
  separated : ∀ u a p, σ.com users u = some a → σ.com profiles u = some p →
    Separated policy σ u a.accountLevel (currentRole (some p.role))

/-- the level, the primary role or the roles assigned have changed -/
def Changed (u : ℕ) (a b : User) (σ τ : State) : Prop :=
  b.accountLevel ≠ a.accountLevel ∨ τ.com profiles u ≠ σ.com profiles u ∨
    ∃ name, ¬ (Assigned τ u name ↔ Assigned σ u name)

structure Advance (u : ℕ) (a b : User) (σ τ : State) : Prop where
  level : rankOf levelRank (some a.accountLevel) ≤ rankOf levelRank (some b.accountLevel)
  role : ∀ p, σ.com profiles u = some p →
    ∃ q, τ.com profiles u = some q ∧ rankOf roleRank (some p.role) ≤ rankOf roleRank (some q.role)
  changed : Changed u a b σ τ → b.tokenVersion = a.tokenVersion + 1
  still : ¬ Changed u a b σ τ → b.tokenVersion = a.tokenVersion

/-- the profile and the assigned roles of a user are as they were -/
structure Same (u : ℕ) (σ τ : State) : Prop where
  profile : τ.com profiles u = σ.com profiles u
  roles : ∀ n r, r.userId = u → (τ.com userRoles n = some r ↔ σ.com userRoles n = some r)

theorem Same.refl (u : ℕ) (σ : State) : Same u σ σ := ⟨rfl, fun _ _ _ => Iff.rfl⟩

theorem same_of_com {u : ℕ} (h : τ.com = σ.com) : Same u σ τ := by
  refine ⟨by rw [h], fun n r _ => ?_⟩
  rw [h]

theorem Same.trans {u : ℕ} (h : Same u σ τ) (h' : Same u τ υ) : Same u σ υ :=
  ⟨h'.profile.trans h.profile, fun n r hr => (h'.roles n r hr).trans (h.roles n r hr)⟩

theorem Same.assigned {u : ℕ} (h : Same u σ τ) (name : String) : Assigned τ u name ↔ Assigned σ u name := by
  constructor
  · rintro ⟨n, r, hr, hu, hname⟩
    exact ⟨n, r, (h.roles n r hu).1 hr, hu, hname⟩
  · rintro ⟨n, r, hr, hu, hname⟩
    exact ⟨n, r, (h.roles n r hu).2 hr, hu, hname⟩

theorem Same.separated {u : ℕ} (h : Same u σ τ) {level role : String} (hs : Separated policy σ u level role) :
    Separated policy τ u level role :=
  fun extraRoles hextra => hs extraRoles fun name hname => (h.assigned name).1 (hextra name hname)

theorem Same.not_changed {u : ℕ} (h : Same u σ τ) (a : User) : ¬ Changed u a a σ τ := by
  rintro (hlevel | hprofile | ⟨name, hname⟩)
  · exact hlevel rfl
  · exact hprofile h.profile
  · exact hname (h.assigned name)

theorem Same.advance {u : ℕ} (h : Same u σ τ) (a : User) : Advance u a a σ τ where
  level := le_refl _
  role p hp := ⟨p, h.profile.trans hp, le_refl _⟩
  changed hc := absurd hc (h.not_changed a)
  still _ := rfl

theorem advance_of_com {u : ℕ} (h : τ.com = σ.com) (a : User) : Advance u a a σ τ := (same_of_com h).advance a

/-! ## The discipline -/

def Request.isUpgrade : Request → Bool
  | .upgradeToNormal _ _ => true
  | _ => false

/-- when a session may commit: an upgrade has found nothing to do, and an assignment has been checked against the
committed primary role -/
structure Fits (i : ℕ) (o : Held) (σ : State) (r : Request) : Prop where
  upgrade : r.isUpgrade = true → σ.ext i = []
  checked : ∀ n row p, o.row userRoles n = some (some row) → σ.com profiles r.user = some p →
    row.checkedAgainst = currentRole (some p.role)

/-- who holds the lock of a user finds the profile and the roles as they were -/
structure Rely (i : ℕ) (o : Held) (σ τ : State) : Prop where
  same : ∀ u, o.row users u ≠ none → Same u σ τ
  absent : ∀ u, σ.com users u = none → τ.com users u = none
  sent : τ.ext i = σ.ext i

def rising (policy : Policy) (requests : ℕ → Request) : Discipline Row Index Fx Announced where
  inv := Lawful policy
  rely := Rely
  act _ σ τ := ∀ u a, σ.com users u = some a → ∃ b, τ.com users u = some b ∧ Advance u a b σ τ
  ok _ _ _ _ := True
  okCommit i o σ := Fits i o σ (requests i)
  rely_refl _ _ σ := ⟨fun u _ => Same.refl u σ, fun _ h => h, rfl⟩
  rely_trans _ _ _ _ _ h h' :=
    ⟨fun u hu => (h.same u hu).trans (h'.same u hu), fun u hu => h'.absent u (h.absent u hu), h'.sent.trans h.sent⟩
  act_refl _ σ _ u a ha := ⟨a, ha, (Same.refl u σ).advance a⟩
  grow_inv _ _ _ h := ⟨h.profile, h.separated⟩
  grow_act _ σ _ _ _ u a ha := ⟨a, ha, advance_of_com (by rfl) a⟩
  grow_rely _ _ _ _ _ _ := ⟨fun u _ => same_of_com (by rfl), fun _ h => h, rfl⟩

instance : Lockless (rising policy requests) := ⟨fun _ _ _ => trivial⟩

/-! ## What a session holds -/

/-- of the users and the profiles: the locked user, and its profile if that was written -/
structure Rows (o : Held) (user : ℕ) (b : User) (q : Option Profile) : Prop where
  locked : ∀ n, o.row users n = if n = user then some (some b) else none
  written : ∀ n, o.row profiles n = if n = user then q.map some else none

theorem Rows.held (h : Rows o user b q) : o.row users user = some (some b) := by rw [h.locked, if_pos rfl]

theorem rows_lock (user : ℕ) (a : User) : Rows (({} : Held).put users user (some a)) user a none where
  locked n := by rw [Own.put_row_same, Own.empty_row]
  written n := by
    refine (congrFun (Own.put_row_other (o := ({} : Held)) users user (some a) (by decide)) n).trans ?_
    simp

theorem Rows.put_user (h : Rows o user b q) (c : User) : Rows (o.put users user (some c)) user c q where
  locked n := by
    rw [Own.put_row_same, h.locked]
    split_ifs
    · rfl
    · rfl
  written n := (congrFun (Own.put_row_other users user (some c) (by decide)) n).trans (h.written n)

theorem Rows.put_profile (h : Rows o user b q) (p : Profile) : Rows (o.put profiles user (some p)) user b (some p) where
  locked n := (congrFun (Own.put_row_other profiles user (some p) (by decide)) n).trans (h.locked n)
  written n := by
    rw [Own.put_row_same, h.written]
    split_ifs
    · rfl
    · rfl

theorem Rows.put_role (h : Rows o user b q) (m : ℕ) (w : Option UserRole) : Rows (o.put userRoles m w) user b q where
  locked n := (congrFun (Own.put_row_other userRoles m w (by decide)) n).trans (h.locked n)
  written n := (congrFun (Own.put_row_other userRoles m w (by decide)) n).trans (h.written n)

theorem Rows.take (h : Rows o user b q) (k : Index) : Rows (o.take k) user b q := ⟨h.locked, h.written⟩

/-- the assignments that the session has written are the user's -/
def RolesOf (user : ℕ) (o : Held) (σ : State) : Prop :=
  ∀ n w, o.row userRoles n = some w →
    (∀ r, σ.com userRoles n = some r → r.userId = user) ∧ ∀ r, w = some r → r.userId = user

/-- the other users are left alone -/
theorem same_of_ne (h : Rows o user b q) (hroles : RolesOf user o σ) {u : ℕ} (hu : u ≠ user) :
    (σ.merge o).com users u = σ.com users u ∧ Same u σ (σ.merge o) := by
  refine ⟨Snap.merge_of_none (by rw [h.locked, if_neg hu]) σ, ?_, ?_⟩
  · exact Snap.merge_of_none (by rw [h.written, if_neg hu]) σ
  · intro n r hr
    rcases hown : o.row userRoles n with _ | w
    · rw [Snap.merge_of_none hown]
    · rw [Snap.merge_of_some hown]
      obtain ⟨hcom, hnew⟩ := hroles n w hown
      constructor
      · intro hw
        exact absurd (hr.symm.trans (hnew r hw)) hu
      · intro hc
        exact absurd (hr.symm.trans (hcom r hc)) hu

/-- what a session owes when it commits: only its own user matters -/
theorem good_commit (hl : Lawful policy σ) (h : Rows o user b q) (hroles : RolesOf user o σ)
    (ha : σ.com users user = some a) (hp : σ.com profiles user = some p)
    (hsep : Separated policy (σ.merge o) user b.accountLevel (currentRole (some (q.getD p).role)))
    (hadv : Advance user a b σ (σ.merge o)) : (rising policy requests).Good i o σ (σ.merge o) := by
  have hb : (σ.merge o).com users user = some b := Snap.merge_of_some h.held σ
  have hq : (σ.merge o).com profiles user = some (q.getD p) := by
    rw [Snap.merge_com, h.written, if_pos rfl]
    cases q with
    | none => exact hp
    | some q => rfl
  refine ⟨⟨?_, ?_⟩, ?_, ?_⟩
  · intro u c hc
    by_cases hu : u = user
    · exact ⟨_, hu ▸ hq⟩
    · obtain ⟨husers, hsame⟩ := same_of_ne h hroles hu
      rw [husers] at hc
      obtain ⟨p', hp'⟩ := hl.profile u c hc
      exact ⟨p', hsame.profile.trans hp'⟩
  · intro u c p' hc hp'
    by_cases hu : u = user
    · subst hu
      obtain rfl := Option.some.inj (hb.symm.trans hc)
      obtain rfl := Option.some.inj (hq.symm.trans hp')
      exact hsep
    · obtain ⟨husers, hsame⟩ := same_of_ne h hroles hu
      rw [husers] at hc
      rw [hsame.profile] at hp'
      exact hsame.separated (hl.separated u c p' hc hp')
  · intro u c hc
    by_cases hu : u = user
    · subst hu
      obtain rfl := Option.some.inj (ha.symm.trans hc)
      exact ⟨b, hb, hadv⟩
    · obtain ⟨husers, hsame⟩ := same_of_ne h hroles hu
      exact ⟨c, husers.trans hc, hsame.advance c⟩
  · intro j _ o' hdisjoint
    refine ⟨fun u hu => ?_, fun u hu => ?_, rfl⟩
    · have hne : u ≠ user := by
        rintro rfl
        have hnone := hdisjoint.row users u hu
        rw [h.held] at hnone
        cases hnone
      exact (same_of_ne h hroles hne).2
    · have hne : u ≠ user := by
        rintro rfl
        rw [ha] at hu
        cases hu
      exact (same_of_ne h hroles hne).1.trans hu

/-! ## How a request ends -/

/-- one assignment is added or removed -/
inductive RoleChange (policy : Policy) (user : ℕ) (level : String) (o : Held) (σ : State) : Prop
  | assigned (n : ℕ) (row : UserRole) (hroles : ∀ m, o.row userRoles m = if m = n then some (some row) else none)
      (hrow : row.userId = user) (hfresh : σ.com userRoles n = none) (hnew : ¬ Assigned σ user row.roleName)
      (hsep : ∀ extraRoles, (∀ name ∈ extraRoles, name = row.roleName ∨ Assigned σ user name) →
        satisfiesConstraints (authorizedRoles level row.checkedAgainst extraRoles) policy.ssd = true)
  | revoked (name : String) (hroles : ∀ m w, o.row userRoles m = some w ↔
        w = none ∧ ∃ row, σ.com userRoles m = some row ∧ row.userId = user ∧ row.roleName = name)
      (hold : Assigned σ user name)

/-- nothing has changed, or the user's row with its profile or with an assignment -/
inductive Outcome (policy : Policy) (user : ℕ) (o : Held) (σ : State) : ℕ → Prop
  | same (h : ∀ t n w, o.row t n = some w → σ.com t n = w) : Outcome policy user o σ 0
  | raised (a b : User) (p : Profile) (q : Option Profile) (ha : σ.com users user = some a)
      (hp : σ.com profiles user = some p) (hrows : Rows o user b q) (hroles : ∀ n, o.row userRoles n = none)
      (hversion : b.tokenVersion = a.tokenVersion + 1)
      (hlevel : rankOf levelRank (some a.accountLevel) ≤ rankOf levelRank (some b.accountLevel))
      (hrole : rankOf roleRank (some p.role) ≤ rankOf roleRank (some (q.getD p).role))
      (hchange : b.accountLevel ≠ a.accountLevel ∨ q.getD p ≠ p)
      (hsep : Separated policy σ user b.accountLevel (currentRole (some (q.getD p).role))) : Outcome policy user o σ 1
  | role (a : User) (p : Profile) (ha : σ.com users user = some a) (hp : σ.com profiles user = some p)
      (hrows : Rows o user { a with tokenVersion := a.tokenVersion + 1 } none)
      (hchange : RoleChange policy user a.accountLevel o σ) : Outcome policy user o σ 1

/-- what a session holds, and has announced, with the answer of its program -/
def Wrote (policy : Policy) (i : ℕ) (r : Request) (k : ℕ) (o : Held) (σ : State) : Prop :=
  σ.ext i = (if k = 0 then [] else [r.user]) ∧ (Outcome policy r.user o σ k ∨ r.isUpgrade = true ∧ k = 1)

/-- what the others cannot touch while the session holds the lock of the user -/
structure Undisturbed (user : ℕ) (o : Held) (σ τ : State) : Prop where
  same : Same user σ τ
  com : ∀ t n, o.row t n ≠ none → τ.com t n = σ.com t n

theorem RoleChange.later {level : String} (h : RoleChange policy user level o σ) (hl : Undisturbed user o σ τ) :
    RoleChange policy user level o τ := by
  cases h with
  | assigned n row hroles hrow hfresh hnew hsep =>
    refine .assigned n row hroles hrow ((hl.com userRoles n (by simp [hroles])).trans hfresh) ?_ ?_
    · exact fun hassigned => hnew ((hl.same.assigned _).1 hassigned)
    · exact fun extraRoles hextra => hsep extraRoles fun name hname =>
        (hextra name hname).imp_right (hl.same.assigned name).1
  | revoked name hroles hold =>
    refine .revoked name (fun m w => ?_) ((hl.same.assigned name).2 hold)
    rw [hroles]
    refine and_congr_right fun _ => exists_congr fun row => ?_
    constructor
    · rintro ⟨hrow, hu, hname⟩
      exact ⟨(hl.same.roles m row hu).2 hrow, hu, hname⟩
    · rintro ⟨hrow, hu, hname⟩
      exact ⟨(hl.same.roles m row hu).1 hrow, hu, hname⟩

/-- only the rows of the assignments count -/
theorem RoleChange.of_row {level : String} {o' : Held} (h : RoleChange policy user level o σ)
    (hrow : ∀ n, o'.row userRoles n = o.row userRoles n) : RoleChange policy user level o' σ := by
  cases h with
  | assigned n row hroles hu hfresh hnew hsep =>
    exact .assigned n row (fun m => (hrow m).trans (hroles m)) hu hfresh hnew hsep
  | revoked name hroles hold =>
    refine .revoked name (fun m w => ?_) hold
    rw [hrow]
    exact hroles m w

theorem Outcome.later {k : ℕ} (h : Outcome policy user o σ k) (hrely : Rely i o σ τ)
    (hcom : ∀ t n, o.row t n ≠ none → τ.com t n = σ.com t n) : Outcome policy user o τ k := by
  cases h with
  | same h => exact .same fun t n w hw => (hcom t n (by simp [hw])).trans (h t n w hw)
  | raised a b p q ha hp hrows hroles hversion hlevel hrole hchange hsep =>
    have hlock : o.row users user ≠ none := by simp [hrows.held]
    have hsame := hrely.same user hlock
    exact .raised a b p q ((hcom _ _ hlock).trans ha) (hsame.profile.trans hp) hrows hroles hversion hlevel hrole
      hchange (hsame.separated hsep)
  | role a p ha hp hrows hchange =>
    have hlock : o.row users user ≠ none := by simp [hrows.held]
    have hsame := hrely.same user hlock
    exact .role a p ((hcom _ _ hlock).trans ha) (hsame.profile.trans hp) hrows (hchange.later ⟨hsame, hcom⟩)

theorem Wrote.later {k : ℕ} (h : Wrote policy i r k o σ) (hrely : Rely i o σ τ)
    (hcom : ∀ t n, o.row t n ≠ none → τ.com t n = σ.com t n) : Wrote policy i r k o τ :=
  ⟨hrely.sent.trans h.1, h.2.imp_left fun houtcome => houtcome.later hrely hcom⟩

/-! ## The commit -/

/-- an account whose roles have not been written keeps them -/
theorem assigned_of_none (hroles : ∀ n, o.row userRoles n = none) (name : String) :
    Assigned (σ.merge o) user name ↔ Assigned σ user name := by
  have hcom : (σ.merge o).com userRoles = σ.com userRoles := funext fun n => Snap.merge_of_none (hroles n) σ
  simp only [Assigned, hcom]

theorem written_profile (hrows : Rows o user b q) (hp : σ.com profiles user = some p) :
    (σ.merge o).com profiles user = some (q.getD p) := by
  rw [Snap.merge_com, hrows.written, if_pos rfl]
  cases q with
  | none => exact hp
  | some q => rfl

/-- an account that has changed with a new token version -/
theorem advance_of_changed (hp : σ.com profiles user = some p) (hrows : Rows o user b q)
    (hversion : b.tokenVersion = a.tokenVersion + 1)
    (hlevel : rankOf levelRank (some a.accountLevel) ≤ rankOf levelRank (some b.accountLevel))
    (hrole : rankOf roleRank (some p.role) ≤ rankOf roleRank (some (q.getD p).role))
    (hchanged : Changed user a b σ (σ.merge o)) : Advance user a b σ (σ.merge o) where
  level := hlevel
  role p' hp' := by
    obtain rfl := Option.some.inj (hp.symm.trans hp')
    exact ⟨_, written_profile hrows hp, hrole⟩
  changed _ := hversion
  still hstill := absurd hchanged hstill

theorem assigned_merge {row : UserRole} (hroles : ∀ m, o.row userRoles m = if m = n then some (some row) else none)
    (hrow : row.userId = user) (hfresh : σ.com userRoles n = none) (name : String) :
    Assigned (σ.merge o) user name ↔ name = row.roleName ∨ Assigned σ user name := by
  constructor
  · rintro ⟨m, r, hr, hu, hname⟩
    rw [Snap.merge_com, hroles] at hr
    split_ifs at hr with hm
    · obtain rfl := Option.some.inj hr
      exact Or.inl hname.symm
    · exact Or.inr ⟨m, r, hr, hu, hname⟩
  · rintro (rfl | ⟨m, r, hr, hu, hname⟩)
    · exact ⟨n, row, Snap.merge_of_some (by rw [hroles, if_pos rfl]) σ, hrow, rfl⟩
    · have hm : m ≠ n := by
        rintro rfl
        rw [hfresh] at hr
        cases hr
      exact ⟨m, r, (Snap.merge_of_none (by rw [hroles, if_neg hm]) σ).trans hr, hu, hname⟩

theorem revoked_merge {name : String} (hroles : ∀ m w, o.row userRoles m = some w ↔
      w = none ∧ ∃ row, σ.com userRoles m = some row ∧ row.userId = user ∧ row.roleName = name) (other : String) :
    Assigned (σ.merge o) user other ↔ other ≠ name ∧ Assigned σ user other := by
  constructor
  · rintro ⟨m, r, hr, hu, hname⟩
    rcases hown : o.row userRoles m with _ | w
    · rw [Snap.merge_of_none hown] at hr
      refine ⟨?_, m, r, hr, hu, hname⟩
      rintro rfl
      have hgone := (hroles m none).2 ⟨rfl, r, hr, hu, hname⟩
      rw [hown] at hgone
      cases hgone
    · rw [Snap.merge_of_some hown, ((hroles m w).1 hown).1] at hr
      cases hr
  · rintro ⟨hne, m, r, hr, hu, hname⟩
    rcases hown : o.row userRoles m with _ | w
    · exact ⟨m, r, (Snap.merge_of_none hown σ).trans hr, hu, hname⟩
    · obtain ⟨-, row, hrow, -, hrowname⟩ := (hroles m w).1 hown
      obtain rfl := Option.some.inj (hr.symm.trans hrow)
      exact absurd (hname.symm.trans hrowname) hne

theorem good_same (hl : Lawful policy σ) : (rising policy requests).Good i o σ σ :=
  ⟨hl, (rising policy requests).act_refl i σ hl, fun j _ o' _ => (rising policy requests).rely_refl j o' σ⟩

/-- an upgrade that fits has done nothing -/
theorem Wrote.outcome {k : ℕ} (h : Wrote policy i r k o σ) (hfits : Fits i o σ r) : Outcome policy r.user o σ k := by
  rcases h.2 with houtcome | ⟨hupgrade, rfl⟩
  · exact houtcome
  · have hsent := h.1
    rw [hfits.upgrade hupgrade] at hsent
    simp at hsent

/-- whoever gains or loses a role has changed -/
theorem RoleChange.changed {level : String} (h : RoleChange policy user level o σ) :
    ∃ name, ¬ (Assigned (σ.merge o) user name ↔ Assigned σ user name) := by
  cases h with
  | assigned n row hroles hrow hfresh hnew hsep =>
    refine ⟨row.roleName, fun hiff => hnew (hiff.1 ?_)⟩
    exact (assigned_merge hroles hrow hfresh _).2 (Or.inl rfl)
  | revoked name hroles hold =>
    refine ⟨name, fun hiff => ?_⟩
    exact ((revoked_merge hroles name).1 (hiff.2 hold)).1 rfl

theorem changed_of_raised (hp : σ.com profiles user = some p) (hrows : Rows o user b q)
    (hchange : b.accountLevel ≠ a.accountLevel ∨ q.getD p ≠ p) : Changed user a b σ (σ.merge o) := by
  rcases hchange with hlevel | hprofile
  · exact Or.inl hlevel
  · refine Or.inr (Or.inl fun heq => hprofile ?_)
    rw [written_profile hrows hp, hp] at heq
    exact Option.some.inj heq

/-- what is announced has changed -/
theorem Outcome.changed {k : ℕ} (h : Outcome policy user o σ k) (hk : k ≠ 0) :
    ∃ a b, σ.com users user = some a ∧ (σ.merge o).com users user = some b ∧ Changed user a b σ (σ.merge o) := by
  cases h with
  | same => exact absurd rfl hk
  | raised a b p q ha hp hrows hroles hversion hlevel hrole hchange hsep =>
    exact ⟨a, b, ha, Snap.merge_of_some hrows.held σ, changed_of_raised hp hrows hchange⟩
  | role a p ha hp hrows hchange =>
    exact ⟨a, _, ha, Snap.merge_of_some hrows.held σ, Or.inr (Or.inr hchange.changed)⟩

/-- the rows of the assignments that a session has written are those of its user -/
theorem RoleChange.rolesOf {level : String} (h : RoleChange policy user level o σ) : RolesOf user o σ := by
  intro m w hw
  cases h with
  | assigned n row hroles hrow hfresh hnew hsep =>
    rw [hroles] at hw
    split_ifs at hw with hm
    subst hm
    refine ⟨fun r hr => ?_, fun r hr => ?_⟩
    · rw [hfresh] at hr
      cases hr
    · obtain rfl := Option.some.inj (Option.some.inj (hw.trans (congrArg some hr)))
      exact hrow
  | revoked name hroles hold =>
    obtain ⟨rfl, row, hrow, hu, -⟩ := (hroles m w).1 hw
    refine ⟨fun r hr => ?_, fun r hr => by cases hr⟩
    obtain rfl := Option.some.inj (hrow.symm.trans hr)
    exact hu

/-- an assignment checked against the committed primary role keeps the duties separated -/
theorem RoleChange.separated (h : RoleChange policy user a.accountLevel o σ) (hl : Lawful policy σ)
    (ha : σ.com users user = some a) (hp : σ.com profiles user = some p)
    (hchecked : ∀ n row, o.row userRoles n = some (some row) → row.checkedAgainst = currentRole (some p.role)) :
    Separated policy (σ.merge o) user a.accountLevel (currentRole (some p.role)) := by
  cases h with
  | assigned n row hroles hrow hfresh hnew hsep =>
    intro extraRoles hextra
    rw [← hchecked n row (by rw [hroles, if_pos rfl])]
    exact hsep extraRoles fun name hname => (assigned_merge hroles hrow hfresh name).1 (hextra name hname)
  | revoked name hroles hold =>
    exact fun extraRoles hextra => hl.separated _ a p ha hp extraRoles fun other hother =>
      ((revoked_merge hroles other).1 (hextra other hother)).2

/-- a session that fits may commit what its request has written -/
theorem Wrote.good {k : ℕ} (h : Wrote policy i r k o σ) (hl : Lawful policy σ) (hfits : Fits i o σ r) :
    (rising policy requests).Good i o σ (σ.merge o) := by
  cases h.outcome hfits with
  | same hrows =>
    rw [Snap.merge_of_unchanged hrows]
    exact good_same hl
  | raised a b p q ha hp hrows hroles hversion hlevel hrole hchange hsep =>
    have hassigned : ∀ name, Assigned (σ.merge o) r.user name ↔ Assigned σ r.user name := assigned_of_none hroles
    refine good_commit hl hrows (fun n w hw => by simp [hroles] at hw) ha hp ?_ ?_
    · exact fun extraRoles hextra => hsep extraRoles fun name hname => (hassigned name).1 (hextra name hname)
    · exact advance_of_changed hp hrows hversion hlevel hrole (changed_of_raised hp hrows hchange)
  | role a p ha hp hrows hchange =>
    refine good_commit hl hrows hchange.rolesOf ha hp ?_ ?_
    · exact hchange.separated hl ha hp fun n row hrow => hfits.checked n row p hrow hp
    · exact advance_of_changed hp hrows rfl (le_refl _) (le_refl _) (Or.inr (Or.inr hchange.changed))

/-! ## The statements under the lock -/

/-- since `σ₀` session `i` holds the lock of the user, whose row it has as `b` and whose profile, if it has written it,
as `q`; committed are `a` and `p`, and it has announced `sent` -/
structure Grip (σ₀ : State) (i user : ℕ) (a : User) (p : Profile) (sent : List ℕ) (b : User) (q : Option Profile) (o : Held)
    (σ : State) : Prop where
  rows : Rows o user b q
  account : σ.com users user = some a
  stored : σ.com profiles user = some p
  sent : σ.ext i = sent
  since : Same user σ₀ σ

variable {σ₀ : State} {sent : List ℕ}

theorem Grip.later (h : Grip σ₀ i user a p sent b q o σ) (hl : (rising policy requests).Later i o σ τ) :
    Grip σ₀ i user a p sent b q o τ := by
  have hlock : o.row users user ≠ none := by simp [h.rows.held]
  have hrely : Rely i o σ τ := hl.rely
  exact ⟨h.rows, (hl.com _ _ hlock).trans h.account, (hrely.same user hlock).profile.trans h.stored,
    hrely.sent.trans h.sent, h.since.trans (hrely.same user hlock)⟩

theorem Grip.undisturbed (h : Grip σ₀ i user a p sent b q o σ) (hl : (rising policy requests).Later i o σ τ) :
    Undisturbed user o σ τ :=
  ⟨hl.rely.same user (by simp [h.rows.held]), hl.com⟩

/-- no assignment is written -/
def NoRoles (o : Held) : Prop := ∀ n, o.row userRoles n = none

theorem NoRoles.put (h : NoRoles o) {t : Tbl} (ht : t ≠ userRoles) (m : ℕ) (w : Option (Row t)) : NoRoles (o.put t m w) :=
  fun n => (congrFun (Own.put_row_other t m w ht.symm) n).trans (h n)

theorem updateUser_spec {f : User → User} (h : Grip σ₀ i user a p sent b q o σ) :
    (rising policy requests).wp i (updateRow users user (fun _ => true) f : Prg _) (Returns fun _ o' τ =>
      o' = o.put users user (some (f b)) ∧ Grip σ₀ i user a p sent (f b) q o' τ ∧ Undisturbed user o σ τ) o σ :=
  wp_updateOwned rfl h.rows.held fun _ hl =>
    have h' := h.later hl
    ⟨rfl, ⟨h'.rows.put_user (f b), h'.account, h'.stored, h'.sent, h'.since⟩, h.undisturbed hl⟩

theorem setAccountLevel_spec {level : String} (h : Grip σ₀ i user a p sent b q o σ) (hroles : NoRoles o) :
    (rising policy requests).wp i (setAccountLevel user level) (Returns fun _ o τ =>
      Grip σ₀ i user a p sent { b with accountLevel := level } q o τ ∧ NoRoles o) o σ := by
  refine wp_seq (updateUser_spec h) fun _ o' τ h' => wp_return ⟨h'.2.1, ?_⟩
  rw [h'.1]
  exact hroles.put (by decide) _ _

theorem setRole_spec {role : String} (h : Grip σ₀ i user a p sent b q o σ) (hroles : NoRoles o) :
    (rising policy requests).wp i (setRole user role) (Returns fun _ o τ =>
      Grip σ₀ i user a p sent b (some { role := role }) o τ ∧ NoRoles o) o σ := by
  have hview : ∀ τ, (rising policy requests).Later i o σ τ → o.view τ profiles user = some (q.getD p) := by
    intro τ hl
    rw [Own.view, h.rows.written, if_pos rfl, (h.later hl).stored]
    cases q with
    | none => rfl
    | some q => rfl
  refine wp_bind (wp_updateRow (fun τ hl hmiss => ?_) fun τ row hl _ _ => ?_)
  · have := hmiss _ (hview τ hl)
    cases this
  · have h' := h.later hl
    exact wp_return ⟨⟨h'.rows.put_profile _, h'.account, h'.stored, h'.sent, h'.since⟩, hroles.put (by decide) _ _⟩

/-- what `list_roles` finds under the lock -/
theorem listRoles_spec (h : Grip σ₀ i user a p sent b q o σ) (hroles : NoRoles o) :
    (rising policy requests).wp i (listRoles user) (Returns fun l o τ =>
      Grip σ₀ i user a p sent b q o τ ∧ NoRoles o ∧ ∀ name, name ∈ l ↔ Assigned σ₀ user name) o σ := by
  refine wp_bind (wp_select fun τ hl rows hmem _ => wp_return ⟨h.later hl, hroles, fun name => ?_⟩)
  rw [← (h.later hl).since.assigned name]
  constructor
  · intro hname
    obtain ⟨⟨n, row⟩, hrow, rfl⟩ := List.mem_map.1 hname
    obtain ⟨hview, huser⟩ := (hmem n row).1 hrow
    rw [Own.view_of_none (hroles n)] at hview
    exact ⟨n, row, hview, by simpa using huser, rfl⟩
  · rintro ⟨n, row, hrow, huser, rfl⟩
    refine List.mem_map.2 ⟨(n, row), (hmem n row).2 ⟨?_, by simpa using huser⟩, rfl⟩
    rwa [Own.view_of_none (hroles n)]

theorem bumpTokenVersion_spec (h : Grip σ₀ i user a p sent b q o σ) :
    (rising policy requests).wp i (bumpTokenVersion user) (Returns fun _ o' τ =>
      o' = o.put users user (some { b with tokenVersion := b.tokenVersion + 1 }) ∧
        Grip σ₀ i user a p sent { b with tokenVersion := b.tokenVersion + 1 } q o' τ ∧ Undisturbed user o σ τ) o σ :=
  wp_seq (updateUser_spec h) fun _ _ _ h' => wp_return h'

/-- an announcement changes no row -/
theorem good_announce (hl : Lawful policy σ) (x : Fx Unit) :
    (rising policy requests).Good i o σ { σ with ext := (Effects.exec i x σ.ext).2 } := by
  cases x with
  | notifyUserUpdated user =>
    refine ⟨⟨hl.profile, hl.separated⟩, fun u c hc => ⟨c, hc, advance_of_com (by rfl) c⟩, ?_⟩
    intro j hj o' _
    exact ⟨fun u _ => same_of_com (by rfl), fun u hu => hu, Function.update_of_ne hj _ _⟩

theorem notifyUserUpdated_spec (h : Grip σ₀ i user a p [] b q o σ) :
    (rising policy requests).wp i (notifyUserUpdated user) (Returns fun _ o' τ =>
      o' = o ∧ Grip σ₀ i user a p [user] b q o' τ ∧ Undisturbed user o σ τ) o σ := by
  refine wp_perform fun τ hl _ => ⟨good_announce hl.inv _, rfl, ?_⟩
  have h' := h.later hl
  have hkept := h.undisturbed hl
  refine ⟨⟨h'.rows, h'.account, h'.stored, ?_, h'.since.trans (same_of_com (by rfl))⟩,
    hkept.same.trans (same_of_com (by rfl)), hkept.com⟩
  change Function.update τ.ext i (τ.ext i ++ [user]) i = [user]
  rw [Function.update_self, h'.sent, List.nil_append]

/-- what the session finds when it asks for the user's level and role -/
theorem getLevelAndRole_spec (h : Grip σ₀ i user a p sent b none o σ) :
    (rising policy requests).wp i (getLevelAndRole user) (Returns fun x o' τ =>
      x = some (b.accountLevel, some p.role) ∧ o' = o ∧ Grip σ₀ i user a p sent b none o' τ) o σ := by
  refine wp_query fun τ hl l hmem _ => ⟨?_, rfl, h.later hl⟩
  have h' := h.later hl
  have hprofile : o.view τ profiles user = some p := by
    rw [Own.view, h'.rows.written, if_pos rfl, h'.stored]
    rfl
  rw [find_number (hmem users) user, find_number (hmem profiles) user, Own.view_of_row h'.rows.held, hprofile]
  rfl

/-- the lock of the user, if there is such a user -/
theorem lockUserRow_spec (hsent : σ.ext i = []) :
    (rising policy requests).wp i (lockUserRow user) (Returns fun _ o τ =>
      (o = {} ∧ τ.com users user = none ∧ τ.ext i = []) ∨
        ∃ σ₀ a p, Lawful policy σ₀ ∧ Grip σ₀ i user a p [] a none o τ ∧ NoRoles o) {} σ := by
  refine wp_bind (wp_lockRow (fun τ hl hmiss => ?_) fun τ a hl hview _ => ?_)
  · refine wp_return (Or.inl ⟨rfl, ?_, (hl.rely.sent).trans hsent⟩)
    rcases hcom : τ.com users user with _ | a
    · rfl
    · have := hmiss a hcom
      cases this
  · have hlawful : Lawful policy τ := hl.inv
    obtain ⟨p, hp⟩ := hlawful.profile user a hview
    refine wp_return (Or.inr ⟨τ, a, p, hlawful, ⟨rows_lock user a, hview, hp, hl.rely.sent.trans hsent, Same.refl _ _⟩, ?_⟩)
    intro n
    exact congrFun (Own.put_row_other (o := ({} : Held)) users user (some a) (by decide)) n

/-! ## Ranks -/

theorem currentRole_of_rank {role : String} (h : -1 < rankOf roleRank (some role)) : currentRole (some role) = role := by
  have hne : role ≠ "" := by
    rintro rfl
    exact absurd h (by decide)
  exact if_neg hne

/-- an empty role counts as `member`, which is no lower -/
theorem rank_currentRole (role : String) :
    rankOf roleRank (some role) ≤ rankOf roleRank (some (currentRole (some role))) := by
  by_cases h : role = ""
  · subst h
    decide
  · have hsame : currentRole (some role) = role := if_neg h
    rw [hsame]

theorem rank_lt_admin {level : String} (h : level ≠ "admin") :
    rankOf levelRank (some level) < rankOf levelRank (some "admin") := by
  have hall : ∀ entry ∈ levelRank, entry.1 ≠ "admin" → entry.2 < rankOf levelRank (some "admin") := by decide
  rcases hlookup : levelRank.lookup level with _ | rank
  · have hrank : rankOf levelRank (some level) = -1 := by simp [rankOf, hlookup]
    rw [hrank]
    decide
  · obtain ⟨l₁, l₂, hsplit, _⟩ := List.lookup_eq_some_iff.1 hlookup
    have hlt := hall (level, rank) (by rw [hsplit]; simp) h
    have hrank : rankOf levelRank (some level) = rank := by simp [rankOf, hlookup]
    rwa [hrank]

/-- an unlock that raises the level -/
theorem level_raised {level : String} {unlockLevel : Option String} (h : levelRises level unlockLevel = true) :
    rankOf levelRank (some level) < rankOf levelRank (some (newLevel level unlockLevel)) := by
  rw [newLevel, if_pos h]
  simp only [levelRises, Bool.and_eq_true, decide_eq_true_eq] at h
  cases unlockLevel with
  | none => simp at h
  | some text => exact h.2

theorem role_raised {role : String} {unlockRole : Option String} (h : roleRises role unlockRole = true) :
    rankOf roleRank (some role) < rankOf roleRank (some (newRole role unlockRole)) := by
  rw [newRole, if_pos h]
  simp only [roleRises, Bool.and_eq_true, decide_eq_true_eq] at h
  cases unlockRole with
  | none => simp at h
  | some text => exact h.2

/-! ## The grants -/

theorem only_spec {c : Bool} {x : Prg Unit} {P : Held → State → Prop} (hskip : c = false → P o σ)
    (hrun : c = true → (rising policy requests).wp i x (Returns fun _ => P) o σ) :
    (rising policy requests).wp i (only c x) (Returns fun _ => P) o σ := by
  cases c with
  | false => exact wp_return (hskip rfl)
  | true => exact hrun rfl

/-- what is raised, and that the constraints have been checked with it -/
theorem raiseAccount_spec {level role : String} {setLevel setProfile : Bool}
    (h : Grip σ₀ i user a p [] a none o σ) (hroles : NoRoles o) :
    (rising policy requests).wp i (raiseAccount policy user level role setLevel setProfile) (Returns fun k o τ =>
      k = 1 ∧ NoRoles o ∧ Separated policy σ₀ user level role ∧ Grip σ₀ i user a p [user]
        { accountLevel := if setLevel then level else a.accountLevel, tokenVersion := a.tokenVersion + 1 }
        (if setProfile then some { role := role } else none) o τ) o σ := by
  have hlevel : (rising policy requests).wp i (only setLevel (setAccountLevel user level)) (Returns fun _ o τ =>
      Grip σ₀ i user a p [] { a with accountLevel := if setLevel then level else a.accountLevel } none o τ ∧ NoRoles o)
      o σ := by
    refine only_spec (fun hc => ?_) fun hc => ?_
    · rw [hc]
      exact ⟨h, hroles⟩
    · rw [hc]
      exact setAccountLevel_spec h hroles
  refine wp_seq hlevel fun _ o₁ τ₁ h₁ => ?_
  have hrole : (rising policy requests).wp i (only setProfile (setRole user role)) (Returns fun _ o τ =>
      Grip σ₀ i user a p [] { a with accountLevel := if setLevel then level else a.accountLevel }
        (if setProfile then some { role := role } else none) o τ ∧ NoRoles o) o₁ τ₁ := by
    refine only_spec (fun hc => ?_) fun hc => ?_
    · rw [hc]
      exact h₁
    · rw [hc]
      exact setRole_spec h₁.1 h₁.2
  refine wp_seq hrole fun _ o₂ τ₂ h₂ => ?_
  refine wp_seq (listRoles_spec h₂.1 h₂.2) fun extraRoles o₃ τ₃ h₃ => ?_
  obtain ⟨hgrip, hnone, hextra⟩ := h₃
  by_cases hssd : satisfiesConstraints (authorizedRoles level role extraRoles) policy.ssd = false
  · rw [if_pos hssd]
    exact wp_fail _
  · rw [if_neg hssd]
    have hsep : Separated policy σ₀ user level role := fun l hl =>
      satisfies_of_subset (fun name hname => (hextra name).2 (hl name hname)) (by simpa using hssd)
    refine wp_seq (bumpTokenVersion_spec hgrip) fun _ o₄ τ₄ h₄ => ?_
    obtain ⟨rfl, hbumped, -⟩ := h₄
    refine wp_seq (notifyUserUpdated_spec hbumped) fun _ o₅ τ₅ h₅ => ?_
    obtain ⟨rfl, hsent, -⟩ := h₅
    exact wp_return ⟨rfl, hnone.put (by decide) _ _, hsep, hsent⟩

/-- a grant that raises what it says -/
theorem raiseAccount_wrote {level role : String} {setLevel setProfile : Bool}
    (h : Grip σ₀ i r.user a p [] a none o σ) (hroles : NoRoles o) (hsome : setLevel = true ∨ setProfile = true)
    (hlevel : if setLevel then rankOf levelRank (some a.accountLevel) < rankOf levelRank (some level)
      else level = a.accountLevel)
    (hrole : if setProfile then rankOf roleRank (some (currentRole (some p.role))) < rankOf roleRank (some role)
      else role = currentRole (some p.role)) :
    (rising policy requests).wp i (raiseAccount policy r.user level role setLevel setProfile)
      (Returns (Wrote policy i r)) o σ := by
  refine wp_returns_mono (raiseAccount_spec h hroles) fun k o' τ hk => ?_
  obtain ⟨rfl, hnone, hsep, hgrip⟩ := hk
  have hlow := rank_currentRole p.role
  refine ⟨hgrip.sent, Or.inl (.raised a _ p _ hgrip.account hgrip.stored hgrip.rows hnone rfl ?_ ?_ ?_ ?_)⟩
  · cases setLevel with
    | true => exact le_of_lt (by simpa using hlevel)
    | false => exact le_refl _
  · cases setProfile with
    | true =>
      have hlt : rankOf roleRank (some (currentRole (some p.role))) < rankOf roleRank (some role) := by simpa using hrole
      exact le_of_lt (lt_of_le_of_lt hlow hlt)
    | false => exact le_refl _
  · rcases hsome with rfl | rfl
    · left
      intro heq
      have heq' : level = a.accountLevel := heq
      simp [heq'] at hlevel
    · right
      intro heq
      have heq' : role = p.role := congrArg Profile.role heq
      have hlt : rankOf roleRank (some (currentRole (some p.role))) < rankOf roleRank (some role) := by simpa using hrole
      rw [heq'] at hlt
      omega
  · have hlevel' : (if setLevel then level else a.accountLevel) = level := by
      cases setLevel with
      | true => rfl
      | false => exact (by simpa using hlevel : level = a.accountLevel).symm
    have hrole' : currentRole (some ((if setProfile then some { role := role } else none : Option Profile).getD p).role) =
        role := by
      cases setProfile with
      | true =>
        have hlt : rankOf roleRank (some (currentRole (some p.role))) < rankOf roleRank (some role) := by
          simpa using hrole
        have hge := neg_one_le_rankOf (by simp : roleRank ∈ [levelRank, roleRank]) (some (currentRole (some p.role)))
        exact currentRole_of_rank (lt_of_le_of_lt hge hlt)
      | false => exact (by simpa using hrole : role = currentRole (some p.role)).symm
    rw [hlevel', hrole']
    exact hgrip.since.separated hsep

/-- nothing but locks -/
theorem wrote_locked (h : Grip σ₀ i r.user a p [] a none o σ) (hroles : NoRoles o) : Wrote policy i r 0 o σ := by
  refine ⟨h.sent, Or.inl (.same fun t n w hw => ?_)⟩
  cases t with
  | users =>
    rw [h.rows.locked] at hw
    split_ifs at hw with hn
    · rw [hn, h.account]
      exact Option.some.inj hw
  | profiles =>
    rw [h.rows.written] at hw
    simp at hw
  | userRoles =>
    rw [hroles] at hw
    cases hw

theorem wrote_nothing (hsent : σ.ext i = []) : Wrote policy i r 0 {} σ :=
  ⟨hsent, Or.inl (.same fun t n w hw => by simp at hw)⟩

/-- without a user there is no row to be found after the lock -/
theorem getLevelAndRole_none (hnone : σ.com users user = none) (hsent : σ.ext i = []) :
    (rising policy requests).wp i (getLevelAndRole user) (Returns fun x o τ => x = none ∧ o = {} ∧ τ.ext i = []) {} σ := by
  refine wp_query fun τ hl l hmem _ => ⟨?_, rfl, hl.rely.sent.trans hsent⟩
  have hcom : τ.com users user = none := hl.rely.absent user hnone
  rw [find_number (hmem users) user, Own.view_empty, hcom]
  rfl

theorem applyUpgrades_wrote {unlockLevel unlockRole : Option String} (hsent : σ.ext i = []) :
    (rising policy requests).wp i (applyUpgrades policy r.user unlockLevel unlockRole) (Returns (Wrote policy i r)) {} σ := by
  refine wp_seq (lockUserRow_spec hsent) fun _ o' τ hlock => ?_
  rcases hlock with ⟨rfl, hnone, hsent'⟩ | ⟨σ₀, a, p, -, hgrip, hroles⟩
  · refine wp_seq (getLevelAndRole_none hnone hsent') fun x o₁ τ₁ hx => ?_
    obtain ⟨rfl, rfl, hsent₁⟩ := hx
    exact wp_return (wrote_nothing hsent₁)
  · refine wp_seq (getLevelAndRole_spec hgrip) fun x o₁ τ₁ hx => ?_
    obtain ⟨rfl, rfl, hgrip₁⟩ := hx
    dsimp only
    by_cases hrises : (levelRises a.accountLevel unlockLevel || roleRises (currentRole (some p.role)) unlockRole) = true
    · rw [if_pos hrises]
      refine raiseAccount_wrote hgrip₁ hroles (by simpa using hrises) ?_ ?_
      · split_ifs with hl
        · exact level_raised hl
        · exact if_neg hl
      · split_ifs with hr
        · exact role_raised hr
        · exact if_neg hr
    · rw [if_neg hrises]
      exact wp_return (wrote_locked hgrip₁ hroles)

theorem grantIncubation_wrote (hsent : σ.ext i = []) :
    (rising policy requests).wp i (grantIncubation policy r.user) (Returns (Wrote policy i r)) {} σ := by
  refine wp_seq (lockUserRow_spec hsent) fun _ o' τ hlock => ?_
  rcases hlock with ⟨rfl, hnone, hsent'⟩ | ⟨σ₀, a, p, -, hgrip, hroles⟩
  · refine wp_seq (getLevelAndRole_none hnone hsent') fun x o₁ τ₁ hx => ?_
    obtain ⟨rfl, rfl, hsent₁⟩ := hx
    exact wp_return (wrote_nothing hsent₁)
  · refine wp_seq (getLevelAndRole_spec hgrip) fun x o₁ τ₁ hx => ?_
    obtain ⟨rfl, rfl, hgrip₁⟩ := hx
    dsimp only
    by_cases hrises : (decide (a.accountLevel ≠ "admin") || decide (currentRole (some p.role) = "member")) = true
    · rw [if_pos hrises]
      refine raiseAccount_wrote hgrip₁ hroles (by simpa using hrises) ?_ ?_
      · by_cases hadmin : a.accountLevel = "admin"
        · simp [hadmin]
        · simpa [hadmin] using rank_lt_admin hadmin
      · by_cases hmember : currentRole (some p.role) = "member"
        · rw [hmember]
          decide
        · simp [hmember]
    · rw [if_neg hrises]
      exact wp_return (wrote_locked hgrip₁ hroles)

theorem grantExamUnlock_wrote {unlockLevel unlockRole : Option String} (hsent : σ.ext i = []) :
    (rising policy requests).wp i (grantExamUnlock policy r.user unlockLevel unlockRole) (Returns (Wrote policy i r)) {}
      σ := by
  rw [grantExamUnlock]
  split_ifs
  · exact wp_return (wrote_nothing hsent)
  · exact applyUpgrades_wrote hsent

/-! ## The upgrade -/

/-- a flush announces nothing -/
theorem flushUser_sent {f : User → User} (hsent : σ.ext i = []) :
    (rising policy requests).wp i (flushUser user f) (Returns fun _ _ τ => τ.ext i = []) o σ := by
  refine wp_bind (wp_updateRow (fun τ _ _ => wp_fail _) fun τ row hl _ _ => ?_)
  exact wp_return (hl.rely.sent.trans hsent)

/-- the caller's flush takes the lock, and leaves our columns -/
theorem flushUser_id (hsent : σ.ext i = []) :
    (rising policy requests).wp i (flushUser user id) (Returns fun _ o τ =>
      (∀ t n w, o.row t n = some w → τ.com t n = w) ∧ τ.ext i = []) {} σ := by
  refine wp_bind (wp_updateRow (fun τ _ _ => wp_fail _) fun τ row hl hview _ => ?_)
  refine wp_return ⟨fun t n w hw => ?_, hl.rely.sent.trans hsent⟩
  by_cases heq : t = users ∧ n = user
  · obtain ⟨rfl, rfl⟩ := heq
    rw [Own.put_row_self, Option.some.injEq] at hw
    exact hview.trans hw
  · rw [Own.put_row_of_ne _ _ _ fun ht hn => heq ⟨ht, hn⟩] at hw
    simp at hw

theorem notifyUserUpdated_sent (hsent : σ.ext i = []) :
    (rising policy requests).wp i (notifyUserUpdated user) (Returns fun _ _ τ => τ.ext i = [user]) o σ := by
  refine wp_perform fun τ hl _ => ⟨good_announce hl.inv _, ?_⟩
  have hnone : τ.ext i = [] := hl.rely.sent.trans hsent
  change Function.update τ.ext i (τ.ext i ++ [user]) i = [user]
  rw [Function.update_self, hnone, List.nil_append]

/-- an upgrade that finds the level `local` writes and announces -/
theorem upgradeToNormal_wrote {binds : Bool} (hr : r = .upgradeToNormal user binds) (hsent : σ.ext i = []) :
    (rising policy requests).wp i (upgradeToNormal user binds) (Returns (Wrote policy i r)) {} σ := by
  refine wp_bind (wp_select fun τ hl rows hmem _ => ?_)
  have hsent' : τ.ext i = [] := hl.rely.sent.trans hsent
  dsimp only
  rcases rows.head? with _ | ⟨n, u⟩
  · exact wp_fail _
  · have hbinds : (rising policy requests).wp i (only binds (flushUser user id)) (Returns fun _ o τ =>
        (∀ t n w, o.row t n = some w → τ.com t n = w) ∧ τ.ext i = []) {} τ :=
      only_spec (fun _ => ⟨fun t n w hw => by simp at hw, hsent'⟩) fun _ => flushUser_id hsent'
    refine wp_seq hbinds fun _ o₁ τ₁ h₁ => ?_
    obtain ⟨hrows, hsent₁⟩ := h₁
    split_ifs
    · refine wp_seq (flushUser_sent hsent₁) fun _ o₂ τ₂ hsent₂ => ?_
      refine wp_seq (notifyUserUpdated_sent hsent₂) fun _ o₃ τ₃ hsent₃ => ?_
      rw [hr]
      exact wp_return ⟨hsent₃, Or.inr ⟨rfl, rfl⟩⟩
    · exact wp_return ⟨hsent₁, Or.inl (.same hrows)⟩

/-! ## The roles -/

theorem addRole_spec {roleName primary : String} (h : Grip σ₀ i user a p [] a none o σ) (hroles : NoRoles o)
    (hsep : ∀ extraRoles, (∀ name ∈ extraRoles, name = roleName ∨ Assigned σ₀ user name) →
      satisfiesConstraints (authorizedRoles a.accountLevel primary extraRoles) policy.ssd = true) :
    (rising policy requests).wp i (addRole user roleName primary) (Returns fun added o τ =>
      Grip σ₀ i user a p [] a none o τ ∧ (added = false → NoRoles o) ∧
        (added = true → RoleChange policy user a.accountLevel o τ)) o σ := by
  refine wp_bind (wp_insertUnique (fun τ _ _ hl _ _ => ?_) fun τ hl hnone => ?_)
  · exact wp_return ⟨h.later hl, fun _ => hroles, nofun⟩
  · have h' := h.later hl
    refine wp_return ⟨⟨(h'.rows.put_role _ _).take _, h'.account, h'.stored, h'.sent, h'.since.trans ?_⟩, nofun, fun _ => ?_⟩
    · exact same_of_com (by rfl)
    · have hassigned : ∀ name, Assigned (τ.bump userRoles (τ.next userRoles)) user name ↔ Assigned σ₀ user name :=
        fun name => h'.since.assigned name
      refine .assigned (τ.next userRoles) { userId := user, roleName := roleName, checkedAgainst := primary } ?_ rfl ?_ ?_ ?_
      · intro m
        rw [Own.take_row, Own.put_row_same, hroles]
      · exact (hl.fresh userRoles _ (le_refl _)).1
      · rintro ⟨m, row, hrow, huser, hname⟩
        have hclash := hnone m row (by rw [Own.view_of_none (hroles m)]; exact hrow)
        simp [UserRole.is, huser, hname] at hclash
      · exact fun extraRoles hextra => hsep extraRoles fun name hname => (hextra name hname).imp_right (hassigned name).1

/-- the rows that the user has of a role are there, and go one by one -/
theorem deleteRoles_spec {roleName : String} (ns done : List ℕ) (h : Grip σ₀ i user a p [] a none o σ)
    (hdone : ∀ m, o.row userRoles m = if m ∈ done then some none else none) (hnodup : (done ++ ns).Nodup)
    (hns : ∀ n ∈ ns, ∃ row, σ₀.com userRoles n = some row ∧ row.userId = user ∧ row.roleName = roleName) :
    (rising policy requests).wp i (deleteRoles user roleName ns) (Returns fun k o τ =>
      k = ns.length ∧ Grip σ₀ i user a p [] a none o τ ∧
        ∀ m, o.row userRoles m = if m ∈ done ++ ns then some none else none) o σ := by
  induction ns generalizing done o σ with
  | nil => exact wp_return ⟨rfl, h, by simpa using hdone⟩
  | cons n ns ih =>
    obtain ⟨row, hrow, huser, hname⟩ := hns n List.mem_cons_self
    have hn : n ∉ done := fun hmem => (List.disjoint_of_nodup_append hnodup) hmem List.mem_cons_self
    have hcom : ∀ τ, (rising policy requests).Later i o σ τ → o.view τ userRoles n = some row := by
      intro τ hl
      rw [Own.view_of_none (by rw [hdone, if_neg hn])]
      exact ((h.later hl).since.roles n row huser).2 hrow
    refine wp_bind (wp_deleteIf (fun τ hl hmiss => ?_) fun τ r hl _ _ => ?_)
    · have := hmiss row (hcom τ hl)
      simp [UserRole.is, huser, hname] at this
    · have h' := h.later hl
      have hgrip : Grip σ₀ i user a p [] a none (o.put userRoles n none) τ :=
        ⟨h'.rows.put_role _ _, h'.account, h'.stored, h'.sent, h'.since⟩
      have hrest := ih (done ++ [n]) hgrip ?_ (by simpa using hnodup) fun m hm => hns m (List.mem_cons_of_mem _ hm)
      · refine wp_seq hrest fun k o' τ' hk => ?_
        obtain ⟨rfl, hgrip', hrows⟩ := hk
        exact wp_return ⟨rfl, hgrip', by simpa using hrows⟩
      · intro m
        rw [Own.put_row_same, hdone]
        by_cases hm : m = n
        · simp [hm]
        · simp [hm]

theorem removeRole_spec {roleName : String} (h : Grip σ₀ i user a p [] a none o σ) (hroles : NoRoles o) :
    (rising policy requests).wp i (removeRole user roleName) (Returns fun removed o τ =>
      Grip σ₀ i user a p [] a none o τ ∧ (removed = false → NoRoles o) ∧
        (removed = true → RoleChange policy user a.accountLevel o τ)) o σ := by
  refine wp_bind (wp_select fun τ hl rows hmem hpair => ?_)
  have h' := h.later hl
  have hfound : ∀ n, n ∈ rows.map Prod.fst ↔
      ∃ row, σ₀.com userRoles n = some row ∧ row.userId = user ∧ row.roleName = roleName := by
    intro n
    constructor
    · intro hn
      obtain ⟨⟨m, row⟩, hrow, rfl⟩ := List.mem_map.1 hn
      obtain ⟨hview, his⟩ := (hmem m row).1 hrow
      rw [Own.view_of_none (hroles m)] at hview
      have his' : row.userId = user ∧ row.roleName = roleName := by simpa [UserRole.is] using his
      exact ⟨row, (h'.since.roles m row his'.1).1 hview, his'⟩
    · rintro ⟨row, hrow, huser, hname⟩
      refine List.mem_map.2 ⟨(n, row), (hmem n row).2 ⟨?_, by simp [UserRole.is, huser, hname]⟩, rfl⟩
      rw [Own.view_of_none (hroles n)]
      exact (h'.since.roles n row huser).2 hrow
  have hnodup := nodup_numbers hpair
  refine wp_seq (deleteRoles_spec (rows.map Prod.fst) [] h' (fun m => by simp [hroles m]) (by simpa using hnodup)
    fun n hn => (hfound n).1 hn) fun k o' τ' hk => ?_
  obtain ⟨rfl, hgrip, hrows⟩ := hk
  simp only [List.nil_append] at hrows
  refine wp_return ⟨hgrip, fun hnone => ?_, fun hsome => ?_⟩
  · have hempty : rows.map Prod.fst = [] := by simpa using hnone
    intro m
    rw [hrows, hempty]
    simp
  · obtain ⟨n, hn⟩ : ∃ n, n ∈ rows.map Prod.fst := by
      refine List.exists_mem_of_ne_nil _ fun hempty => ?_
      simp [hempty] at hsome
    refine .revoked roleName (fun m w => ?_) ?_
    · rw [hrows]
      constructor
      · intro hw
        split_ifs at hw with hm
        obtain ⟨row, hrow, huser, hname⟩ := (hfound m).1 hm
        exact ⟨(Option.some.inj hw).symm, row, (hgrip.since.roles m row huser).2 hrow, huser, hname⟩
      · rintro ⟨rfl, row, hrow, huser, hname⟩
        rw [if_pos ((hfound m).2 ⟨row, (hgrip.since.roles m row huser).1 hrow, huser, hname⟩)]
    · obtain ⟨row, hrow, huser, hname⟩ := (hfound n).1 hn
      exact ⟨n, row, (hgrip.since.roles n row huser).2 hrow, huser, hname⟩

theorem assignRole_spec {primary roleName : String} {assigned : Bool} (h : Grip σ₀ i user a p [] a none o σ)
    (hroles : NoRoles o) :
    (rising policy requests).wp i (assignRole policy user a.accountLevel primary roleName assigned)
      (Returns fun changed o τ => Grip σ₀ i user a p [] a none o τ ∧ (changed = false → NoRoles o) ∧
        (changed = true → RoleChange policy user a.accountLevel o τ)) o σ := by
  cases assigned with
  | false => exact removeRole_spec h hroles
  | true =>
    refine wp_seq (listRoles_spec h hroles) fun current o' τ h' => ?_
    obtain ⟨hgrip, hnone, hcurrent⟩ := h'
    split_ifs with hssd
    · exact wp_fail _
    · refine addRole_spec hgrip hnone fun extraRoles hextra => ?_
      refine satisfies_of_subset (fun name hname => ?_) (by simpa using hssd)
      rcases hextra name hname with rfl | hassigned
      · exact List.mem_append_right _ (List.mem_singleton_self _)
      · exact List.mem_append_left _ ((hcurrent name).2 hassigned)

theorem changeRole_wrote {primary roleName : String} {assigned : Bool} (h : Grip σ₀ i r.user a p [] a none o σ)
    (hroles : NoRoles o) :
    (rising policy requests).wp i (changeRole policy r.user a.accountLevel primary roleName assigned)
      (Returns (Wrote policy i r)) o σ := by
  refine wp_seq (assignRole_spec h hroles) fun changed o₁ τ₁ h₁ => ?_
  obtain ⟨hgrip, hsame, hchange⟩ := h₁
  cases changed with
  | false => exact wp_return (wrote_locked hgrip (hsame rfl))
  | true =>
    refine wp_seq (bumpTokenVersion_spec hgrip) fun _ o₂ τ₂ h₂ => ?_
    obtain ⟨rfl, hbumped, hkept⟩ := h₂
    refine wp_seq (notifyUserUpdated_spec hbumped) fun _ o₃ τ₃ h₃ => ?_
    obtain ⟨rfl, hsent, hkept'⟩ := h₃
    refine wp_return ⟨hsent.sent, Or.inl (.role a p hsent.account hsent.stored hsent.rows ?_)⟩
    refine RoleChange.later (RoleChange.of_row ((hchange rfl).later hkept) fun n => ?_) hkept'
    exact congrFun (Own.put_row_other _ _ _ (by decide)) n

/-- after the lock, with whatever primary role the statement has found -/
theorem checkedRole_wrote {primary roleName : String} {assigned : Bool} (h : Grip σ₀ i r.user a p [] a none o σ)
    (hroles : NoRoles o) :
    (rising policy requests).wp i
      (if ¬ roleName.startsWith (a.accountLevel ++ ":") then .raise (.invalidInput "Role account level mismatch")
        else if roleName = compositeRole a.accountLevel primary then
          if assigned then pure 0 else .raise (.invalidInput "Primary role cannot be revoked")
        else changeRole policy r.user a.accountLevel primary roleName assigned)
      (Returns (Wrote policy i r)) o σ := by
  by_cases hlevel : roleName.startsWith (a.accountLevel ++ ":") = true
  · rw [if_neg (not_not.2 hlevel)]
    by_cases hprimary : roleName = compositeRole a.accountLevel primary
    · rw [if_pos hprimary]
      cases assigned with
      | true => exact wp_return (wrote_locked h hroles)
      | false => exact wp_fail _
    · rw [if_neg hprimary]
      exact changeRole_wrote h hroles
  · rw [if_pos hlevel]
    exact wp_fail _

theorem setUserRole_wrote {roleName : String} {assigned : Bool} (hsent : σ.ext i = []) :
    (rising policy requests).wp i (setUserRole policy r.user roleName assigned) (Returns (Wrote policy i r)) {} σ := by
  rw [setUserRole]
  by_cases hknown : roleName ∉ knownRoles
  · rw [if_pos hknown]
    exact wp_fail _
  · rw [if_neg hknown]
    refine wp_bind (wp_select fun τ hl rows _ _ => ?_)
    have hsent' : τ.ext i = [] := hl.rely.sent.trans hsent
    dsimp only
    refine wp_bind (wp_lockRow (fun υ hl' _ => wp_fail _) fun υ a hl' hview _ => ?_)
    have hlawful : Lawful policy υ := hl'.inv
    obtain ⟨p, hp⟩ := hlawful.profile r.user a hview
    have hgrip : Grip υ i r.user a p [] a none (({} : Held).put users r.user (some a)) υ :=
      ⟨rows_lock r.user a, hview, hp, hl'.rely.sent.trans hsent', Same.refl _ _⟩
    have hnone : NoRoles (({} : Held).put users r.user (some a)) := fun n =>
      congrFun (Own.put_row_other (o := ({} : Held)) users r.user (some a) (by decide)) n
    exact checkedRole_wrote hgrip hnone

theorem body_spec (r : Request) (hsent : σ.ext i = []) :
    (rising policy requests).wp i (r.body policy) (Returns (Wrote policy i r)) {} σ := by
  cases r with
  | upgradeToNormal user binds => exact upgradeToNormal_wrote rfl hsent
  | grantExamUnlock user unlockLevel unlockRole =>
    exact grantExamUnlock_wrote (r := .grantExamUnlock user unlockLevel unlockRole) hsent
  | grantIncubation user => exact grantIncubation_wrote (r := .grantIncubation user) hsent
  | setUserRole user roleName assigned => exact setUserRole_wrote (r := .setUserRole user roleName assigned) hsent

end LkmService.Auth.Upgrades
