/-
The count of failed logins.

A failed attempt is counted in a savepoint of the request's own transaction and then refused, and `get_auth_session` rolls
the transaction back: the count is lost with it, and the lock that it would have set.

- `Onward`: every commit leaves the lock of an account as it was, or clears it.
- `Exact`: the count is that of the failed attempts since the last reset, the account is locked when that reaches the
  threshold, and no login that was under way before erases such a lock.
- `account_clear`: in no run anything is counted or locked.
- `lockout_exact_iff`: a run is exact if and only if no attempt on the account has failed.
- `failures_forgotten`: after five wrong passwords the sixth guess is let in.
-/
import LkmService.Auth.Logins

namespace LkmService.Auth.Logins

open Session Sql Sql.Discipline Auth.Requests Tbl

abbrev State := Snap Row Unit

abbrev Held := Own Row Index

abbrev Sessions := Session.World (Stmt Row Index (NoFx Unit)) Store Exn Unit

variable {verifypwd : Verify} {σ τ υ : State} {o : Held} {i n : ℕ} {u u' loaded : User} {now : ℤ}

/-! ## What a commit does to a lock -/

/-- the columns of the lock are the same, or cleared -/
def Lowers (u u' : User) : Prop :=
  (u'.failedLoginAttempts = u.failedLoginAttempts ∧ u'.isLocked = u.isLocked ∧ u'.lockedUntil = u.lockedUntil) ∨ u'.Clear

theorem Lowers.refl (u : User) : Lowers u u := Or.inl ⟨rfl, rfl, rfl⟩

theorem Lowers.trans {u'' : User} (h : Lowers u u') (h' : Lowers u' u'') : Lowers u u'' := by
  rcases h' with ⟨hcount, hlocked, huntil⟩ | hclear
  · rcases h with ⟨hcount', hlocked', huntil'⟩ | ⟨hcount', hlocked', huntil'⟩
    · exact Or.inl ⟨hcount.trans hcount', hlocked.trans hlocked', huntil.trans huntil'⟩
    · exact Or.inr ⟨hcount.trans hcount', hlocked.trans hlocked', huntil.trans huntil'⟩
  · exact Or.inr hclear

/-- what the flush writes is clear, as nothing but a reset has come between -/
theorem Lowers.flushed (h : Lowers loaded u) : (flushed now loaded u).Clear := by
  have hcount : loaded.failedLoginAttempts = 0 → u.failedLoginAttempts = 0 := by
    rcases h with ⟨hcount, _, _⟩ | ⟨hcount, _, _⟩
    · exact fun hzero => hcount.trans hzero
    · exact fun _ => hcount
  have hlocked : loaded.isLocked = false → u.isLocked = false := by
    rcases h with ⟨_, hlocked, _⟩ | ⟨_, hlocked, _⟩
    · exact fun hfalse => hlocked.trans hfalse
    · exact fun _ => hlocked
  have huntil : loaded.lockedUntil = none → u.lockedUntil = none := by
    rcases h with ⟨_, _, huntil⟩ | ⟨_, _, huntil⟩
    · exact fun hnone => huntil.trans hnone
    · exact fun _ => huntil
  refine ⟨?_, ?_, ?_⟩
  · simp only [Logins.flushed]
    split_ifs with hzero
    · rfl
    · exact hcount (not_not.1 hzero)
  · simp only [Logins.flushed]
    split_ifs with hyes
    · rfl
    · exact hlocked (by simpa using hyes)
  · simp only [Logins.flushed]
    split_ifs with hyes
    · rfl
    · exact huntil (by simpa using hyes)

def Onward (σ τ : State) : Prop := ∀ n u, σ.com users n = some u → ∃ u', τ.com users n = some u' ∧ Lowers u u'

theorem onward_of_com (h : τ.com = σ.com) : Onward σ τ := fun n u hu => ⟨u, by rw [h]; exact hu, Lowers.refl u⟩

theorem Onward.trans (h : Onward σ τ) (h' : Onward τ υ) : Onward σ υ := by
  intro n u hu
  obtain ⟨u', hu', hlower⟩ := h n u hu
  obtain ⟨u'', hu'', hlower'⟩ := h' n u' hu'
  exact ⟨u'', hu'', hlower.trans hlower'⟩

def lowering : Discipline Row Index (NoFx Unit) Unit where
  inv _ := True
  rely _ _ := Onward
  act _ := Onward
  ok _ _ _ _ := True
  rely_refl _ _ _ := onward_of_com rfl
  rely_trans _ _ _ _ _ h h' := h.trans h'
  act_refl _ _ _ := onward_of_com rfl
  grow_inv _ _ _ _ := trivial
  grow_act _ _ _ _ _ := onward_of_com (by rfl)
  grow_rely _ _ _ _ _ _ := onward_of_com (by rfl)

instance : Lockless lowering := ⟨fun _ _ _ => trivial⟩

/-! ## What a request that returns has written -/

/-- the session has written nothing but cleared rows -/
def Resets (o : Held) : Prop := ∀ n v, o.row users n = some v → ∃ u, v = some u ∧ u.Clear

theorem resets_nil : Resets {} := by
  intro n v hv
  cases hv

theorem Resets.put (h : Resets o) (hu : u.Clear) : Resets (o.put users n (some u)) := by
  intro m v hv
  rw [Own.put_row_same] at hv
  split_ifs at hv with hm
  · exact ⟨u, (Option.some.inj hv).symm, hu⟩
  · exact h m v hv

/-- the row that the session sees has come from the loaded one -/
def Loaded (n : ℕ) (loaded : User) (o : Held) (σ : State) : Prop := ∃ u, o.view σ users n = some u ∧ Lowers loaded u

theorem Loaded.later (h : Loaded n loaded o σ) (hon : Onward σ τ) : Loaded n loaded o τ := by
  obtain ⟨u, hview, hlower⟩ := h
  rcases hrow : o.row users n with _ | v
  · rw [Own.view_of_none hrow] at hview
    obtain ⟨u', hu', hlower'⟩ := hon n u hview
    exact ⟨u', by rw [Own.view_of_none hrow]; exact hu', hlower.trans hlower'⟩
  · rw [Own.view_of_row hrow] at hview
    exact ⟨u, by rw [Own.view_of_row hrow]; exact hview, hlower⟩

/-- what a statement of a request leaves -/
def Leaves (n : ℕ) (loaded : User) (o : Held) (σ : State) : Prop := Resets o ∧ Loaded n loaded o σ

/-- a statement that clears the row -/
theorem update_spec {f : User → User} (h : Leaves n loaded o σ) (hf : ∀ u, Lowers loaded u → (f u).Clear) :
    lowering.wp i (update n f) (Returns fun _ o τ => Leaves n loaded o τ) o σ := by
  refine wp_bind (wp_updateRow (fun τ hl hmiss => wp_return ?_) fun τ u hl hview _ => wp_return ?_)
  · exact ⟨h.1, h.2.later hl.rely⟩
  · obtain ⟨u', hview', hlower⟩ := h.2.later hl.rely
    obtain rfl := Option.some.inj (hview.symm.trans hview')
    refine ⟨h.1.put (hf u hlower), f u, ?_, Or.inr (hf u hlower)⟩
    exact Own.view_of_row (Own.put_row_self users n _)

theorem flushGate_spec (h : Leaves n loaded o σ) :
    lowering.wp i (flushGate n now loaded u) (Returns fun _ o τ => Leaves n loaded o τ) o σ := by
  unfold flushGate
  split_ifs
  · exact wp_return h
  · exact update_spec h fun _ => Lowers.flushed

theorem gate_spec {P : User → Held → State → Prop} (h : ∀ u, P u o σ) :
    lowering.wp i (gate now loaded) (Returns P) o σ := by
  unfold gate
  split
  · exact wp_return (h _)
  · exact wp_fail _

theorem admission_spec (h : Leaves n loaded o σ) :
    lowering.wp i (admission u) (Returns fun _ o τ => Leaves n loaded o τ) o σ := by
  unfold admission
  split
  · exact wp_return h
  · exact wp_fail _

theorem refresh_spec (h : Leaves n loaded o σ) :
    lowering.wp i (refresh n) (Returns fun _ o τ => Leaves n loaded o τ) o σ :=
  wp_bind (wp_select fun _ hl _ _ _ => wp_return ⟨h.1, h.2.later hl.rely⟩)

theorem proceed_spec {proceeds : Bool} {P : Held → State → Prop} (h : P o σ) :
    lowering.wp i (proceed proceeds) (Returns fun _ => P) o σ := by
  unfold proceed
  split_ifs
  · exact wp_return h
  · exact wp_fail _

/-- a failed attempt never returns -/
theorem recordFailedAttempt_spec {q : Attempt} {r : Refusal} {P : Unit → Held → State → Prop} (h : Leaves n loaded o σ) :
    lowering.wp i (recordFailedAttempt n q loaded u r) (Returns P) o σ := by
  have hcount : ∀ (f : User → User) (o : Held) (σ : State),
      lowering.wp i (update n f) (Returns fun _ _ _ => True) o σ := fun f o σ =>
    wp_bind (wp_updateRow (fun _ _ _ => wp_return trivial) fun _ _ _ _ _ => wp_return trivial)
  have hrefresh : ∀ (o : Held) (σ : State), lowering.wp i (refresh n) (Returns fun _ _ _ => True) o σ := fun o σ =>
    wp_bind (wp_select fun _ _ _ _ _ => wp_return trivial)
  refine wp_seq (flushGate_spec h) fun _ _ _ _ => wp_seq (hcount _ _ _) fun _ _ _ _ => ?_
  exact wp_seq (hrefresh _ _) fun _ _ _ _ => wp_fail _

theorem leaves_loaded (hview : σ.com users n = some u) : Leaves n u {} σ := ⟨resets_nil, u, hview, Lowers.refl u⟩

/-- a request that looks an account up first -/
theorem lookup_spec {p : User → Bool} {body : List (ℕ × User) → Prg Unit}
    (hnone : ∀ τ, lowering.wp i (body []) (Returns fun _ o _ => Resets o) {} τ)
    (hsome : ∀ n u l τ, Leaves n u {} τ → lowering.wp i (body ((n, u) :: l)) (Returns fun _ o _ => Resets o) {} τ) :
    lowering.wp i (select users (fun _ u => p u) >>= body) (Returns fun _ o _ => Resets o) {} σ := by
  refine wp_bind (wp_select fun τ _ l hmem _ => ?_)
  rcases l with _ | ⟨⟨n, u⟩, l⟩
  · exact hnone τ
  · exact hsome n u l τ (leaves_loaded ((hmem n u).1 List.mem_cons_self).1)

theorem loginPassword_spec (q : Attempt) :
    lowering.wp i (loginPassword verifypwd q) (Returns fun _ o _ => Resets o) {} σ := by
  refine lookup_spec (fun τ => wp_fail _) fun n loaded _ τ h => ?_
  refine wp_seq (P := fun _ o τ => Leaves n loaded o τ) (gate_spec fun _ => h) fun u o τ h => ?_
  split_ifs
  · refine wp_seq (admission_spec h) fun _ o τ h => wp_seq (flushGate_spec h) fun _ o τ h => ?_
    refine wp_seq (update_spec h fun _ _ => ⟨rfl, rfl, rfl⟩) fun _ o τ h => ?_
    exact wp_seq (refresh_spec h) fun _ o τ h => proceed_spec h.1
  · exact recordFailedAttempt_spec h

theorem registerLocal_spec (q : Attempt) :
    lowering.wp i (registerLocal verifypwd q) (Returns fun _ o _ => Resets o) {} σ := by
  refine lookup_spec (fun τ => wp_fail _) fun n loaded _ τ h => ?_
  refine wp_seq (P := fun _ o τ => Leaves n loaded o τ) (gate_spec fun _ => h) fun u o τ h => ?_
  split_ifs
  · exact recordFailedAttempt_spec h
  · rcases verifypwd q.password u.hashedPassword with _ | _ | _
    · exact wp_fail _
    · exact recordFailedAttempt_spec h
    · exact wp_seq (flushGate_spec h) fun _ o τ h => proceed_spec h.1

theorem loginWithout_spec (q : Attempt) :
    lowering.wp i (loginWithout q) (Returns fun _ o _ => Resets o) {} σ := by
  refine lookup_spec (fun τ => wp_fail _) fun n loaded _ τ h => ?_
  refine wp_seq (P := fun _ o τ => Leaves n loaded o τ) (gate_spec fun _ => h) fun u o τ h => ?_
  refine wp_seq (admission_spec h) fun _ o τ h => wp_seq (flushGate_spec h) fun _ o τ h => proceed_spec h.1

theorem body_spec (r : Request) : lowering.wp i (r.body verifypwd) (Returns fun _ o _ => Resets o) {} σ := by
  cases r with
  | loginPassword q => exact loginPassword_spec q
  | registerLocal q => exact registerLocal_spec q
  | loginWithout q => exact loginWithout_spec q
  | cmdUnlock username now =>
    refine lookup_spec (fun τ => wp_return resets_nil) fun n loaded _ τ h => ?_
    simp only [List.head?_cons]
    split_ifs
    · exact wp_returns_mono (update_spec h fun _ => Lowers.flushed) fun _ _ _ => And.left
    · exact wp_return resets_nil
  | resetPassword account hash now =>
    refine lookup_spec (fun τ => wp_fail _) fun n loaded _ τ h => ?_
    exact wp_returns_mono (update_spec h fun _ hlower => hlower.flushed) fun _ _ _ => And.left

/-! ## Transactions -/

theorem plain_update {f : User → User} : Plain (update n f) := plain_bind (plain_updateRow _ _ _ _) fun _ => plain_pure _

theorem plain_refresh : Plain (refresh n) := plain_bind (plain_select _ _) fun _ => plain_pure _

theorem plain_gate : Plain (gate now loaded) := by
  unfold gate
  split
  · exact plain_pure _
  · exact plain_raise _

theorem plain_admission : Plain (admission u) := by
  unfold admission
  split
  · exact plain_pure _
  · exact plain_raise _

theorem plain_flushGate : Plain (flushGate n now loaded u) := plain_ite (plain_pure _) plain_update

theorem plain_proceed {proceeds : Bool} : Plain (proceed proceeds) := plain_ite (plain_pure _) (plain_raise _)

theorem plain_recordFailedAttempt {q : Attempt} {r : Refusal} : Plain (recordFailedAttempt n q loaded u r) :=
  plain_bind plain_flushGate fun _ => plain_bind plain_update fun _ => plain_bind plain_refresh fun _ => plain_raise _

theorem plain_body (r : Request) : Plain (r.body verifypwd) := by
  cases r with
  | loginPassword q =>
    refine plain_bind (plain_select _ _) fun rows => ?_
    rcases rows.head? with _ | ⟨n, loaded⟩
    · exact plain_raise _
    · refine plain_bind plain_gate fun u => plain_ite ?_ plain_recordFailedAttempt
      refine plain_bind plain_admission fun _ => plain_bind plain_flushGate fun _ => plain_bind plain_update fun _ => ?_
      exact plain_bind plain_refresh fun _ => plain_proceed
  | registerLocal q =>
    refine plain_bind (plain_select _ _) fun rows => ?_
    rcases rows.head? with _ | ⟨n, loaded⟩
    · exact plain_raise _
    · refine plain_bind plain_gate fun u => plain_ite plain_recordFailedAttempt ?_
      rcases verifypwd q.password u.hashedPassword with _ | _ | _
      · exact plain_raise _
      · exact plain_recordFailedAttempt
      · exact plain_bind plain_flushGate fun _ => plain_proceed
  | loginWithout q =>
    refine plain_bind (plain_select _ _) fun rows => ?_
    rcases rows.head? with _ | ⟨n, loaded⟩
    · exact plain_raise _
    · refine plain_bind plain_gate fun u => plain_bind plain_admission fun _ => ?_
      exact plain_bind plain_flushGate fun _ => plain_proceed
  | cmdUnlock username now =>
    refine plain_bind (plain_select _ _) fun rows => ?_
    rcases rows.head? with _ | ⟨n, loaded⟩
    · exact plain_pure _
    · exact plain_ite plain_update (plain_pure _)
  | resetPassword account hash now =>
    refine plain_bind (plain_select _ _) fun rows => ?_
    rcases rows.head? with _ | ⟨n, loaded⟩
    · exact plain_raise _
    · exact plain_update

/-! ## Runs -/

variable {d : Store} {requests : ℕ → Request} {w : Sessions} {ms pre post : List Move} {m : Move} {k : ℕ}

def init (verifypwd : Verify) (d : Store) (requests : ℕ → Request) : Sessions := start d fun j => (requests j).prog verifypwd

/-- the account after the moves, as it is committed -/
def account (verifypwd : Verify) (d : Store) (requests : ℕ → Request) (n : ℕ) (ms : List Move) : Option User :=
  (Session.run (init verifypwd d requests) ms).st.snap.com users n

theorem safe_init (hd : ∀ j, d.own j = {}) : lowering.protocol.Safe (init verifypwd d requests) := by
  refine safe_start trivial (fun _ => trivial) hd fun j => ?_
  refine wp_mono (wp_transaction (body_spec (requests j)) fun _ o τ h υ _ _ => ?_) fun _ _ _ _ => trivial
  have hon : Onward υ (υ.merge o) := by
    intro n u hu
    rcases hrow : o.row users n with _ | v
    · exact ⟨u, by rw [Snap.merge_of_none hrow]; exact hu, Lowers.refl u⟩
    · obtain ⟨u', rfl, hclear⟩ := h n v hrow
      exact ⟨u', Snap.merge_of_some hrow υ, Or.inr hclear⟩
  exact ⟨trivial, hon, fun _ _ _ _ => hon⟩

theorem stage (hd : ∀ j, d.own j = {}) (ms : List Move) (j : ℕ) :
    Stage lowering (Returns fun _ o _ => Resets o) j (Session.run (init verifypwd d requests) ms) := by
  refine Stage.run (safe_init hd) (legal_of_ok (fun _ _ _ _ => trivial) (fun _ _ _ => trivial) _ ms) ?_ ?_
  · intro r o σ τ _ _ h
    cases r with
    | ok _ => exact h
    | error e => trivial
  · refine stage_start rfl (plain_body (requests j)) ?_
    rw [hd j]
    exact body_spec (requests j)

/-! ## The count as it should be -/

/-- the account that the request is about -/
def Request.picks : Request → User → Bool
  | .loginPassword q, u => u.hasIdentity q.account
  | .registerLocal q, u => decide (u.username = q.account)
  | .loginWithout q, u => u.hasIdentity q.account
  | .cmdUnlock username _, u => decide (u.username = username)
  | .resetPassword account _ _, u => u.hasIdentity account

def Request.picked (r : Request) (σ : State) : Option ℕ :=
  (List.range (σ.next users)).find? fun n => (σ.com users n).any r.picks

/-- the move ends an attempt on the account that has failed -/
def fails (n : ℕ) (w : Sessions) (m : Move) : Bool :=
  match w.answer (Protocol.who m), (Session.step w m).answer (Protocol.who m) with
  | none, some (.error (.failed n' _)) => decide (n' = n)
  | _, _ => false

/-- the move commits a login on the account (with what it takes back of an expired lock), an administrator's unlock or a
new password -/
def resets (requests : ℕ → Request) (n : ℕ) (w : Sessions) : Move → Bool
  | .run i => committing w i && decide ((requests i).picked w.st.snap = some n)
  | .crash _ => false

/-- one move of the count, which is `k` before it -/
def countMove (requests : ℕ → Request) (n k : ℕ) (w : Sessions) (m : Move) : ℕ :=
  if fails n w m then k + 1 else if resets requests n w m then 0 else k

/-- the failed attempts on the account since its last reset, with `k` of them before the run -/
def tally (requests : ℕ → Request) (n : ℕ) : ℕ → Sessions → List Move → ℕ
  | k, _, [] => k
  | k, w, m :: ms => tally requests n (countMove requests n k w m) (Session.step w m) ms

theorem tally_snoc (requests : ℕ → Request) (n k : ℕ) (w : Sessions) (ms : List Move) (m : Move) :
    tally requests n k w (ms ++ [m]) = countMove requests n (tally requests n k w ms) (Session.run w ms) m := by
  induction ms generalizing k w with
  | nil => rfl
  | cons a ms ih => exact ih (countMove requests n k w a) (Session.step w a)

/-- nothing is counted where nothing fails -/
theorem tally_of_none (h : Along (fun w m => fails n w m = false) w ms) : tally requests n 0 w ms = 0 := by
  induction ms generalizing w with
  | nil => rfl
  | cons m ms ih =>
    have hmove : countMove requests n 0 w m = 0 := by
      rw [countMove, h.1]
      simp
    rw [tally, hmove]
    exact ih h.2

/-- a failed attempt changes no account -/
theorem com_of_fails (hstage : ∀ j, Stage lowering (Returns fun _ o _ => Resets o) j w) (h : fails n w m = true) :
    (Session.step w m).st.snap.com = w.st.snap.com := by
  refine step_com fun i hi => ?_
  by_contra hcommit
  subst hi
  obtain ⟨a, _, _, hanswer⟩ := (hstage i).commits (by simpa using hcommit)
  simp only [fails, Protocol.who, hanswer] at h
  split at h
  next heq => simp at heq
  next => cases h

/-- no move counts or locks -/
theorem clear_step (hstage : ∀ j, Stage lowering (Returns fun _ o _ => Resets o) j w)
    (hu : w.st.snap.com users n = some u) (hclear : u.Clear) (m : Move) :
    ∃ u', (Session.step w m).st.snap.com users n = some u' ∧ u'.Clear := by
  rcases step_commit hstage m with hsame | ⟨i, a, rfl, _, hresets, hst, _⟩
  · exact ⟨u, by rw [hsame]; exact hu, hclear⟩
  · rw [hst]
    rcases hrow : (w.st.own i).row users n with _ | v
    · exact ⟨u, by rw [Snap.merge_of_none hrow]; exact hu, hclear⟩
    · obtain ⟨u', rfl, hclear'⟩ := hresets n v hrow
      exact ⟨u', Snap.merge_of_some hrow _, hclear'⟩

/-- whatever is tried, nothing is ever counted, and nothing is locked -/
theorem account_clear (hd : ∀ j, d.own j = {}) (hu : d.snap.com users n = some u) (hclear : u.Clear) (ms : List Move) :
    ∃ u', account verifypwd d requests n ms = some u' ∧ u'.Clear := by
  induction ms using List.reverseRecOn with
  | nil => exact ⟨u, hu, hclear⟩
  | append_singleton ms m ih =>
    obtain ⟨u', hu', hclear'⟩ := ih
    rw [account, run_snoc]
    exact clear_step (fun j => stage hd ms j) hu' hclear' m

/-! ## The law -/

/-- the count and the lock are those of `k` failed attempts -/
def Counts (k : ℕ) (u : User) : Prop := u.failedLoginAttempts = k ∧ (u.isLocked = true ↔ failLockThreshold ≤ k)

theorem User.Clear.counts (h : u.Clear) : Counts 0 u := ⟨h.1, by simp [h.2.1, failLockThreshold]⟩

def Request.isLogin : Request → Bool
  | .loginPassword _ | .registerLocal _ | .loginWithout _ => true
  | _ => false

/-- in every state of a run that begins with nothing counted -/
structure Exact (verifypwd : Verify) (d : Store) (requests : ℕ → Request) (n : ℕ) (ms : List Move) : Prop where
  counts : ∀ pre, pre <+: ms → ∀ u, account verifypwd d requests n pre = some u →
    Counts (tally requests n 0 (init verifypwd d requests) pre) u
  /-- a login that was under way before the lock does not erase it -/
  kept : ∀ pre mid i, pre ++ mid ++ [.run i] <+: ms → (requests i).isLogin = true → .run i ∈ pre → ∀ u u' u'',
    account verifypwd d requests n pre = some u → account verifypwd d requests n (pre ++ mid) = some u' →
    account verifypwd d requests n (pre ++ mid ++ [.run i]) = some u'' →
    u.isLocked = false → u'.isLocked = true → u''.isLocked = true

/-- **The lockout.** In a run from an account on which nothing is counted, the count and the lock are as they should be
in every state, if and only if no attempt on the account has failed. -/
theorem lockout_exact_iff (verifypwd : Verify) (d : Store) (requests : ℕ → Request) (ms : List Move)
    (hd : ∀ i, d.own i = {}) (n : ℕ) (u₀ : User) (hu : d.snap.com users n = some u₀) (h₀ : u₀.Clear) :
    Exact verifypwd d requests n ms ↔ Along (fun w m => fails n w m = false) (init verifypwd d requests) ms := by
  have hclear : ∀ ms, ∃ u, account verifypwd d requests n ms = some u ∧ u.Clear := account_clear hd hu h₀
  constructor
  · intro h
    refine along_iff.2 fun pre m post he => ?_
    have hpre : pre ++ [m] <+: ms := ⟨post, by rw [he]; simp⟩
    by_contra hfails
    have hfails : fails n (Session.run (init verifypwd d requests) pre) m = true := by simpa using hfails
    obtain ⟨u, hu', _⟩ := hclear pre
    have hafter : account verifypwd d requests n (pre ++ [m]) = some u := by
      rw [account, run_snoc, com_of_fails (fun j => stage hd pre j) hfails]
      exact hu'
    have hbefore := (h.counts pre ((List.prefix_append _ _).trans hpre) u hu').1
    have hnext := (h.counts (pre ++ [m]) hpre u hafter).1
    rw [tally_snoc, countMove, if_pos hfails, ← hbefore] at hnext
    omega
  · intro hclean
    refine ⟨fun pre hpre u hu' => ?_, fun pre mid i _ _ _ u u' u'' _ hmid _ _ hlocked => ?_⟩
    · obtain ⟨x, hx, hzero⟩ := hclear pre
      obtain rfl := Option.some.inj (hx.symm.trans hu')
      obtain ⟨post, rfl⟩ := hpre
      rw [tally_of_none ((along_append pre post).1 hclean).1]
      exact hzero.counts
    · obtain ⟨x, hx, hzero⟩ := hclear (pre ++ mid)
      obtain rfl := Option.some.inj (hx.symm.trans hmid)
      rw [hzero.2.1] at hlocked
      cases hlocked

/-! ## Two runs -/

/-- a hash that is the password -/
def plainVerify : Verify := fun password hash => some (password == hash)

def alice : User where
  username := "alice"
  level := "normal"
  profileRole := none
  extraRoles := []
  tokenVersion := 0
  email := none
  phone := none
  isLocked := false
  lockedUntil := none
  admissionStatus := "active"
  updatedAt := none
  failedLoginAttempts := 0
  hashedPassword := "secret123456"

def fresh : Store where
  tab
    | .users => Table.ofList [alice]
  ext := ()

theorem own_fresh (i : ℕ) : fresh.own i = {} := by
  refine Own.ext (funext fun t => ?_) (funext fun k => propext ?_)
  · rcases t with _
    rfl
  · simp [Db.own, fresh]

def guess (password : String) : Request :=
  .loginPassword { account := "alice", password := password, now := 0, later := 0, proceeds := true }

/-- five wrong guesses, and the right one -/
def guesses : ℕ → Request
  | 5 => guess "secret123456"
  | _ => guess "wrongpass"

theorem lockout_exact_iff_demo : Exact plainVerify fresh guesses 0 (moves 5 12) :=
  (lockout_exact_iff plainVerify fresh guesses (moves 5 12) own_fresh 0 alice (by decide) (by decide)).2
    (by decide)

/-- Five wrong passwords have left no trace, and the sixth guess is let in. -/
theorem failures_forgotten :
    let ms := [0, 1, 2, 3, 4].flatMap (moves · 12)
    let w := Session.run (init plainVerify fresh guesses) (ms ++ moves 5 12)
    [0, 1, 2, 3, 4].map w.answer = List.replicate 5 (some (.error (.failed 0 .invalidCredentials))) ∧
    account plainVerify fresh guesses 0 ms = some alice ∧
    tally guesses 0 0 (init plainVerify fresh guesses) ms = 5 ∧
    w.answer 5 = some (.ok ()) ∧
    ¬ Exact plainVerify fresh guesses 0 (ms ++ moves 5 12) := by
  have hcom : account plainVerify fresh guesses 0 ([0, 1, 2, 3, 4].flatMap (moves · 12)) = some alice := by decide
  have hcount : tally guesses 0 0 (init plainVerify fresh guesses) ([0, 1, 2, 3, 4].flatMap (moves · 12)) = 5 := by
    decide
  refine ⟨by decide, hcom, hcount, by decide, fun h => ?_⟩
  have hcounts := h.counts _ (List.prefix_append _ _) alice hcom
  rw [hcount] at hcounts
  exact absurd hcounts.1 (by decide)

end LkmService.Auth.Logins
