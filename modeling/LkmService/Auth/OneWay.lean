/-
Levels and roles only rise, whatever the order of the operations on an account.

Two operations stand against it. `upgrade_to_normal` decides on a level that it has read without a lock, writes `normal`
over what has been committed since, and leaves the token version. `set_user_role` checks an assignment against the
primary role of its statement's snapshot, which a grant may have changed while it waited for the lock of the user.

- `OneWay`: the law, for a run.
- `one_way`: it holds while no other upgrade commits than one that has found nothing to do, and each assignment has been
  checked against the primary role it is committed with.
- `raises_unchanged`: an operation that raises has changed nothing, in every run.
- `grants_collide`: two runs in which the law is broken.
-/
import LkmService.Auth.Rising

namespace LkmService.Auth.Upgrades

open Session Sql Sql.Discipline Tbl

abbrev Sessions := Session.World (Stmt Row Index Fx) Store Exn ℕ

variable {policy : Policy} {requests : ℕ → Request} {r : Request} {i n user : ℕ} {o : Held} {σ τ : State}
variable {d : Store} {w : Sessions} {ms pre post : List Move} {k : ℕ} {m : Move}

/-! ## One commit each -/

theorem plain_only {c : Bool} {p : Prg Unit} (h : Plain p) : Plain (only c p) := by
  exact plain_ite h (plain_pure _)

theorem plain_lockUserRow (user : ℕ) : Plain (lockUserRow user) :=
  plain_bind (plain_lockRow users user _) fun _ => plain_pure _

theorem plain_listRoles (user : ℕ) : Plain (listRoles user) := plain_bind (plain_select _ _) fun _ => plain_pure _

theorem plain_announce (user : ℕ) :
    Plain (do bumpTokenVersion user; notifyUserUpdated user; pure 1 : Prg ℕ) := by
  refine plain_bind ?_ fun _ => plain_bind (plain_perform _) fun _ => plain_pure _
  exact plain_bind (plain_updateRow _ _ _ _) fun _ => plain_pure _

theorem plain_raiseAccount {level role : String} {setLevel setProfile : Bool} :
    Plain (raiseAccount policy user level role setLevel setProfile) := by
  refine plain_bind (plain_only ?_) fun _ => plain_bind (plain_only ?_) fun _ => ?_
  · exact plain_bind (plain_updateRow users _ _ _) fun _ => plain_pure _
  · exact plain_bind (plain_updateRow profiles _ _ _) fun _ => plain_pure _
  · refine plain_bind (plain_listRoles user) fun extraRoles => ?_
    exact plain_ite (plain_raise _) (plain_announce user)

theorem plain_applyUpgrades {unlockLevel unlockRole : Option String} :
    Plain (applyUpgrades policy user unlockLevel unlockRole) := by
  refine plain_bind (plain_lockUserRow user) fun _ => plain_bind (plain_query _) fun found => ?_
  rcases found with _ | ⟨level, raw⟩
  · exact plain_pure _
  · exact plain_ite plain_raiseAccount (plain_pure _)

theorem plain_grantIncubation : Plain (grantIncubation policy user) := by
  refine plain_bind (plain_lockUserRow user) fun _ => plain_bind (plain_query _) fun found => ?_
  rcases found with _ | ⟨level, raw⟩
  · exact plain_pure _
  · exact plain_ite plain_raiseAccount (plain_pure _)

theorem plain_flushUser {f : User → User} : Plain (flushUser user f) := by
  refine plain_bind (plain_updateRow _ _ _ _) fun row => ?_
  cases row with
  | none => exact plain_raise _
  | some u => exact plain_pure _

theorem plain_upgradeToNormal {binds : Bool} : Plain (upgradeToNormal user binds) := by
  refine plain_bind (plain_select _ _) fun rows => ?_
  rcases rows.head? with _ | ⟨n, u⟩
  · exact plain_raise _
  · refine plain_bind (plain_only plain_flushUser) fun _ => ?_
    refine plain_ite ?_ (plain_pure _)
    exact plain_bind plain_flushUser fun _ => plain_bind (plain_perform _) fun _ => plain_pure _

theorem plain_deleteRoles {roleName : String} (ns : List ℕ) : Plain (deleteRoles user roleName ns) := by
  induction ns with
  | nil => exact plain_pure _
  | cons n ns ih => exact plain_bind (plain_deleteIf _ _ _) fun _ => plain_bind ih fun _ => plain_pure _

theorem plain_assignRole {level primary roleName : String} {assigned : Bool} :
    Plain (assignRole policy user level primary roleName assigned) := by
  cases assigned with
  | false => exact plain_bind (plain_select _ _) fun _ => plain_bind (plain_deleteRoles _) fun _ => plain_pure _
  | true =>
    refine plain_bind (plain_listRoles user) fun current => ?_
    refine plain_ite (plain_raise _) ?_
    exact plain_bind (plain_insertUnique _ _ _ _) fun _ => plain_pure _

theorem plain_changeRole {level primary roleName : String} {assigned : Bool} :
    Plain (changeRole policy user level primary roleName assigned) := by
  exact plain_bind plain_assignRole fun _ => plain_ite (plain_announce user) (plain_pure _)

theorem plain_setUserRole {roleName : String} {assigned : Bool} :
    Plain (setUserRole policy user roleName assigned) := by
  refine plain_ite (plain_raise _) (plain_bind (plain_select _ _) fun rows => plain_bind (plain_lockRow _ _ _) fun row => ?_)
  cases row with
  | none => exact plain_raise _
  | some u =>
    refine plain_ite (plain_raise _) (plain_ite (plain_ite (plain_pure _) (plain_raise _)) ?_)
    exact plain_changeRole

theorem plain_body (r : Request) : Plain (r.body policy) := by
  cases r with
  | upgradeToNormal user binds => exact plain_upgradeToNormal
  | grantExamUnlock user unlockLevel unlockRole =>
    exact plain_ite (plain_pure _) plain_applyUpgrades
  | grantIncubation user => exact plain_grantIncubation
  | setUserRole user roleName assigned => exact plain_setUserRole

/-! ## The runs -/

def init (policy : Policy) (d : Store) (requests : ℕ → Request) : Sessions :=
  start d fun i => (requests i).prog policy

/-- the accounts are lawful, and no session has begun -/
structure Starts (policy : Policy) (d : Store) : Prop where
  lawful : Lawful policy d.snap
  own : ∀ i, d.own i = {}
  silent : ∀ i, d.ext i = []

/-- what is committed and announced after the moves -/
def after (policy : Policy) (d : Store) (requests : ℕ → Request) (ms : List Move) : State :=
  (Session.run (init policy d requests) ms).st.snap

/-- session `i` has written assignment `n` of the user, and another primary role is committed than it was checked
against -/
def staleCheck (d : Store) (i user n : ℕ) : Bool :=
  match (d.cell userRoles n).mine i, (d.cell profiles user).committed with
  | some (some row), some p => decide (row.checkedAgainst ≠ currentRole (some p.role))
  | _, _ => false

/-- no upgrade commits that has found the level `local`, and no assignment whose check is stale -/
def settled (requests : ℕ → Request) (w : Sessions) : Move → Prop
  | .run i => committing w i = true → ((requests i).isUpgrade = true → w.st.ext i = []) ∧
      ∀ n < (w.st.tab userRoles).next, staleCheck w.st i (requests i).user n = false
  | .crash _ => True

instance (requests : ℕ → Request) (w : Sessions) : DecidablePred (settled requests w)
  | .run i => inferInstanceAs (Decidable (committing w i = true → ((requests i).isUpgrade = true → w.st.ext i = []) ∧
      ∀ n < (w.st.tab userRoles).next, staleCheck w.st i (requests i).user n = false))
  | .crash _ => inferInstanceAs (Decidable True)

theorem checked_of_not_stale {p : Profile} {row : UserRole} (h : staleCheck w.st i user n = false)
    (hrow : (w.st.own i).row userRoles n = some (some row)) (hp : w.st.snap.com profiles user = some p) :
    row.checkedAgainst = currentRole (some p.role) := by
  change (w.st.cell userRoles n).mine i = some (some row) at hrow
  change (w.st.cell profiles user).committed = some p at hp
  rw [staleCheck, hrow, hp] at h
  simpa using h

theorem lt_of_own {row : Option UserRole} (h : (w.st.own i).row userRoles n = some row) :
    n < (w.st.tab userRoles).next := by
  by_contra hn
  rw [Nat.not_lt] at hn
  change (w.st.cell userRoles n).mine i = some row at h
  rw [w.st.fresh userRoles n hn] at h
  simp at h

theorem stepOk_of_settled (h : settled requests w m) : (rising policy requests).protocol.stepOk w m := by
  refine stepOk_of_commits (fun _ _ _ _ => trivial) fun i hi hcommit => ?_
  subst hi
  obtain ⟨hupgrade, hstale⟩ := h hcommit
  exact ⟨hupgrade, fun n row p hrow hp => checked_of_not_stale (hstale n (lt_of_own hrow)) hrow hp⟩

/-- what a session answers, and what it has announced -/
def Sent (i : ℕ) (r : Request) : Except Exn ℕ → Held → State → Prop
  | .ok k, _, σ => σ.ext i = if k = 0 then [] else [r.user]
  | .error _, _, _ => True

theorem prog_spec (hsent : σ.ext i = []) :
    (rising policy requests).wp i ((requests i).prog policy) (Sent i (requests i)) {} σ := by
  refine wp_transactionEnds (body_spec (requests i) hsent) (fun k o τ hwrote υ hl hfits => ?_) fun _ _ => trivial
  have hwrote' := hwrote.later hl.rely hl.com
  exact ⟨hwrote'.good hl.inv hfits, hwrote'.1⟩

theorem safe_init (hd : Starts policy d) : (rising policy requests).protocol.Safe (init policy d requests) := by
  refine safe_start hd.lawful (fun _ => trivial) hd.own fun i => ?_
  exact wp_mono (prog_spec (hd.silent i)) fun _ _ _ _ => trivial

theorem legal_of_settled (h : Along (settled requests) (init policy d requests) ms) :
    (rising policy requests).protocol.Legal (init policy d requests) ms :=
  h.mono fun _ _ => stepOk_of_settled

theorem stable_wrote (i : ℕ) :
    Stable (rising policy requests) i (Returns (Wrote policy i (requests i)) : Except Exn ℕ → Held → State → Prop) := by
  intro r o σ τ hrely hcom h
  cases r with
  | ok k => exact Wrote.later h hrely hcom
  | error e => trivial

theorem stage (hd : Starts policy d) (h : Along (settled requests) (init policy d requests) ms) (i : ℕ) :
    Stage (rising policy requests) (Returns (Wrote policy i (requests i))) i
      (Session.run (init policy d requests) ms) := by
  refine Stage.run (safe_init hd) (legal_of_settled h) (stable_wrote i) ?_
  refine stage_start rfl (plain_body (requests i)) ?_
  rw [hd.own i]
  exact body_spec (requests i) (hd.silent i)

/-! ## The law -/

/-- levels and roles only rise in the run `ms` -/
structure OneWay (policy : Policy) (d : Store) (requests : ℕ → Request) (ms : List Move) : Prop where
  /-- no move lowers the level or the role of a user, and the token version counts the moves that change them -/
  rises : ∀ pre m post u a, ms = pre ++ m :: post → (after policy d requests pre).com users u = some a →
    ∃ b, (after policy d requests (pre ++ [m])).com users u = some b ∧
      Advance u a b (after policy d requests pre) (after policy d requests (pre ++ [m]))
  /-- an operation announces its user exactly when it has changed it -/
  announced : ∀ i k, (Session.run (init policy d requests) ms).answer i = some (.ok k) →
    ((after policy d requests ms).ext i = [(requests i).user] ∧ ∃ pre post a b, ms = pre ++ .run i :: post ∧
      (after policy d requests pre).com users (requests i).user = some a ∧
      (after policy d requests (pre ++ [.run i])).com users (requests i).user = some b ∧
      Changed (requests i).user a b (after policy d requests pre) (after policy d requests (pre ++ [.run i]))) ∨
    ((after policy d requests ms).ext i = [] ∧ ∀ pre m post, ms = pre ++ m :: post → Protocol.who m = i →
      (after policy d requests (pre ++ [m])).com = (after policy d requests pre).com)
  /-- an operation that raises changes nothing -/
  raised : ∀ pre m post e, ms = pre ++ m :: post →
    (Session.run (init policy d requests) ms).answer (Protocol.who m) = some (.error e) →
    (after policy d requests (pre ++ [m])).com = (after policy d requests pre).com
  /-- the duties of every user stay separated -/
  separated : ∀ pre, pre <+: ms → Lawful policy (after policy d requests pre)

theorem along_initial {ok : Sessions → Move → Prop} (h : Along ok w ms) (hpre : pre <+: ms) : Along ok w pre := by
  obtain ⟨post, rfl⟩ := hpre
  exact ((along_append pre post).1 h).1

/-- **Rollback.** An operation that raises has changed nothing at any of its moves, in every run. -/
theorem raises_unchanged (hd : ∀ i, d.own i = {}) (pre post : List Move) (m : Move) (e : Exn)
    (h : (Session.run (init policy d requests) (pre ++ m :: post)).answer (Protocol.who m) = some (.error e)) :
    (after policy d requests (pre ++ [m])).com = (after policy d requests pre).com :=
  unchanged_of_raised hd (fun i => plain_body (requests i)) h

theorem step_rises (hd : Starts policy d) (h : Along (settled requests) (init policy d requests) (pre ++ m :: post)) :
    (rising policy requests).act (Protocol.who m) (after policy d requests pre) (after policy d requests (pre ++ [m])) := by
  have hlegal := (along_append pre (m :: post)).1 (legal_of_settled h)
  have hsafe := (rising policy requests).protocol.run_safe (safe_init hd) hlegal.1
  rw [after, after, run_snoc]
  rcases (rising policy requests).protocol.step_act hsafe hlegal.2.1 with hstay | hact
  · rw [hstay]
    exact (rising policy requests).act_refl _ _ hsafe.inv.1
  · exact hact

/-- the session that commits a change -/
theorem commit_changed (hd : Starts policy d) (h : Along (settled requests) (init policy d requests) (pre ++ .run i :: post))
    (hcommit : committing (Session.run (init policy d requests) pre) i = true) (hk : k ≠ 0)
    (hwrote : Wrote policy i (requests i) k ((Session.run (init policy d requests) pre).st.own i)
      (after policy d requests pre)) :
    ∃ a b, (after policy d requests pre).com users (requests i).user = some a ∧
      (after policy d requests (pre ++ [.run i])).com users (requests i).user = some b ∧
      Changed (requests i).user a b (after policy d requests pre) (after policy d requests (pre ++ [.run i])) := by
  have hparts := (along_append pre (.run i :: post)).1 h
  obtain ⟨hupgrade, hstale⟩ := hparts.2.1 hcommit
  have houtcome := hwrote.outcome ⟨hupgrade, fun n row p hrow hp =>
    checked_of_not_stale (hstale n (lt_of_own hrow)) hrow hp⟩
  obtain ⟨_, -, hst, -⟩ := (stage hd hparts.1 i).commits hcommit
  have hafter : after policy d requests (pre ++ [.run i]) =
      (after policy d requests pre).merge ((Session.run (init policy d requests) pre).st.own i) := by
    rw [after, run_snoc, hst, Db.snap_finish_true]
    rfl
  rw [hafter]
  exact houtcome.changed hk

theorem answered_sent (hd : Starts policy d) (h : Along (settled requests) (init policy d requests) ms)
    (hanswer : (Session.run (init policy d requests) ms).answer i = some (.ok k)) :
    (after policy d requests ms).ext i = if k = 0 then [] else [(requests i).user] := by
  have hwp : (rising policy requests).wp i ((requests i).prog policy) (Sent i (requests i)) (d.own i) d.snap := by
    rw [hd.own i]
    exact prog_spec (hd.silent i)
  refine answered (Q := Sent i (requests i)) (safe_init hd) (legal_of_settled h) ?_ rfl hwp hanswer
  intro r o σ τ hrely _ hr
  cases r with
  | ok k => exact hrely.sent.trans hr
  | error e => trivial

/-- an operation that answers 0 has written what was there -/
theorem Wrote.unchanged (h : Wrote policy i r 0 o σ) : (σ.merge o).com = σ.com := by
  obtain ⟨-, houtcome | ⟨-, hone⟩⟩ := h
  · cases houtcome with
    | same hrows => rw [Snap.merge_of_unchanged hrows]
  · cases hone

/-- **One way.** Levels and roles only rise while the operations are settled. -/
theorem one_way (policy : Policy) (d : Store) (requests : ℕ → Request) (ms : List Move) (hd : Starts policy d)
    (h : Along (settled requests) (init policy d requests) ms) : OneWay policy d requests ms := by
  refine ⟨?_, ?_, ?_, ?_⟩
  · intro pre m post u a he ha
    subst he
    exact step_rises hd h u a ha
  · intro i k hanswer
    have hsent := answered_sent hd h hanswer
    by_cases hk : k = 0
    · subst hk
      refine Or.inr ⟨hsent, fun pre m post he hm => ?_⟩
      subst he
      subst hm
      refine unchanged_of_answer (stage hd (along_initial h (List.prefix_append _ _))) hanswer fun a ha o σ hwrote => ?_
      obtain rfl := Except.ok.inj ha
      exact Wrote.unchanged hwrote
    · obtain ⟨pre, post, rfl, hcommit, hwrote⟩ :=
        exists_commit (fun pre hpre => stage hd (along_initial h hpre) i) (answer_start _ i) hanswer
      refine Or.inl ⟨by simpa [hk] using hsent, ?_⟩
      obtain ⟨a, b, ha, hb, hchanged⟩ := commit_changed hd h hcommit hk hwrote
      exact ⟨pre, post, a, b, rfl, ha, hb, hchanged⟩
  · intro pre m post e he hanswer
    subst he
    exact raises_unchanged hd.own pre post m e hanswer
  · intro pre hpre
    have hsafe := (rising policy requests).protocol.run_safe (safe_init hd) (legal_of_settled (along_initial h hpre))
    exact hsafe.inv.1

/-! ## Two runs -/

/-- who is incubated does not review -/
def reviewers : Policy where
  ssd := [
    { roles := ["admin:incubated_member", "admin:content_reviewer"]
      maxRoles := 1
      nodup := by decide
      known := by decide
      pos := by decide
      lt := by decide }]
  dsd := []

/-- a normal member, and one who has not been approved yet -/
def accounts : Store where
  tab
    | .users => Table.ofList [{ accountLevel := "normal" }, { accountLevel := "local" }]
    | .profiles => Table.ofList [{}, {}]
    | .userRoles => {}
  ext := fun _ => []

def accountRequests : ℕ → Request
  | 0 => .grantIncubation 0
  | 1 => .setUserRole 0 "admin:content_reviewer" true
  | 2 => .grantIncubation 1
  | _ => .upgradeToNormal 1 false

theorem no_roles (name : String) (u : ℕ) : ¬ Assigned accounts.snap u name := by
  intro ⟨n, row, hrow, _⟩
  cases hrow

theorem starts_accounts : Starts reviewers accounts where
  lawful := by
    refine ⟨fun u a ha => ?_, fun u a p ha hp extraRoles hextra => ?_⟩
    · match u with
      | 0 => exact ⟨_, rfl⟩
      | 1 => exact ⟨_, rfl⟩
      | u + 2 => cases ha
    · obtain rfl : extraRoles = [] := by
        refine List.eq_nil_iff_forall_not_mem.2 fun name hname => ?_
        exact no_roles name u (hextra name hname)
      match u with
      | 0 =>
        obtain rfl : { accountLevel := "normal" } = a := Option.some.inj ha
        obtain rfl : ({} : Profile) = p := Option.some.inj hp
        decide
      | 1 =>
        obtain rfl : { accountLevel := "local" } = a := Option.some.inj ha
        obtain rfl : ({} : Profile) = p := Option.some.inj hp
        decide
      | u + 2 => cases ha
  own i := by
    refine Own.ext (funext fun t => funext fun n => ?_) (funext fun k => propext ?_)
    · cases t <;> rfl
    · simp [Db.own, accounts]
  silent _ := rfl

/-- one after the other: the assignment is refused, and the upgrade finds nothing to do -/
theorem one_way_demo :
    OneWay reviewers accounts accountRequests ((List.range 4).flatMap (moves · 12)) :=
  one_way reviewers accounts accountRequests _ starts_accounts (by decide +kernel)

/-- the assignment and the upgrade have read before the grants commit -/
def crossed : List Move := moves 1 1 ++ moves 3 1 ++ [0, 2, 1, 3].flatMap (moves · 12)

/-- Both grants commit between the read and the write of another operation. The assignment joins two roles of which
only one may be held, and the upgrade lowers the level from `admin`, with the token version of the grant. -/
theorem grants_collide :
    let before := after reviewers accounts accountRequests (moves 1 1 ++ moves 3 1 ++ moves 0 12 ++ moves 2 12)
    let last := after reviewers accounts accountRequests crossed
    (last.com users 0, last.com profiles 0, last.com userRoles 0) =
      (some { accountLevel := "admin", tokenVersion := 2 }, some { role := "incubated_member" },
        some { userId := 0, roleName := "admin:content_reviewer", checkedAgainst := "member" }) ∧
    (before.com users 1, last.com users 1) =
      (some { accountLevel := "admin", tokenVersion := 1 }, some { accountLevel := "normal", tokenVersion := 1 }) ∧
    ¬ OneWay reviewers accounts accountRequests crossed := by
  refine ⟨by decide +kernel, by decide +kernel, fun h => ?_⟩
  have hlawful := h.separated crossed (List.prefix_refl _)
  have husers : (after reviewers accounts accountRequests crossed).com users 0 =
      some { accountLevel := "admin", tokenVersion := 2 } := by decide +kernel
  have hprofile : (after reviewers accounts accountRequests crossed).com profiles 0 =
      some { role := "incubated_member" } := by decide +kernel
  have hrole : (after reviewers accounts accountRequests crossed).com userRoles 0 =
      some { userId := 0, roleName := "admin:content_reviewer", checkedAgainst := "member" } := by decide +kernel
  have hsep := hlawful.separated 0 _ _ husers hprofile ["admin:content_reviewer"] fun name hname =>
    ⟨0, _, hrole, rfl, (List.mem_singleton.1 hname).symm⟩
  revert hsep
  decide +kernel

end LkmService.Auth.Upgrades
