/-
What a transaction commits, told of the moment at which one of its statements has been run. The statement is the one
that takes a snapshot of the tables (`Cmd.snapshot`).

- `wpAt i p Q o σ`: the program `p` of session `i` keeps the discipline, ends only after it has taken its snapshot, and
  then in `Q υ`, where `υ` was committed at that moment.
- `wp_of_wpAt`: what is left of that where the moment does not matter.
- `commits_at`: in a run, the session that commits has taken its snapshot at one of the moves before.
-/
import LkmService.Lib.Atomic

namespace LkmService.Sql

open Session

set_option linter.unusedSectionVars false

variable {T : Type} [DecidableEq T] {Row : T → Type} {K : Type} [DecidableEq K] {X : Type}
variable {Fx : Type → Type} [Effects Fx X] {ε α γ : Type}

def Cmd.isSnapshot {β : Type} : Cmd Row K β → Bool
  | .snapshot => true
  | _ => false

def Stmt.isSnapshot {β : Type} : Stmt Row K Fx β → Bool
  | .sql c => c.isSnapshot
  | .fx _ => false

namespace Discipline

variable {D : Discipline Row K Fx X} {i : ℕ} {o : Own Row K} {σ : Snap Row X}
variable {w : World (Stmt Row K Fx) (Db Row K X) ε α} {m : Move}
variable {Q : Snap Row X → Except ε α → Own Row K → Snap Row X → Prop}

/-! ## Preconditions that look back -/

/-- the same over the store; a program that ends without the statement has raised -/
def WpAt (D : Discipline Row K Fx X) (i : ℕ) (Q : Snap Row X → Except ε α → Own Row K → Snap Row X → Prop) :
    Prog (Stmt Row K Fx) ε α → Db Row K X → Prop
  | .done r, d => ∃ e, r = .error e ∧ ∀ υ, Q υ r (d.own i) d.snap
  | .op c k, d => ∀ d', D.protocol.rely i d d' → D.protocol.inv d' → D.protocol.ok i c d' →
      ∀ b e, Machine.exec i c d' = some (b, e) → D.protocol.Good i d' e ∧
        if c.isSnapshot then D.protocol.wp i (k b) (fun r f => Q d'.snap r (f.own i) f.snap) e else WpAt D i Q (k b) e

def wpAt (D : Discipline Row K Fx X) (i : ℕ) (p : Prog (Stmt Row K Fx) ε α)
    (Q : Snap Row X → Except ε α → Own Row K → Snap Row X → Prop) (o : Own Row K) (σ : Snap Row X) : Prop :=
  ∀ d : Db Row K X, d.own i = o → d.snap = σ → WpAt D i Q p d

theorem wpAt_raise {e : ε} (h : ∀ υ, Q υ (.error e) o σ) :
    D.wpAt i (Prog.raise e : Prog (Stmt Row K Fx) ε α) Q o σ := by
  rintro d rfl rfl
  exact ⟨e, rfl, h⟩

/-- a program that takes no snapshot -/
def Unseen : Prog (Stmt Row K Fx) ε α → Prop
  | .done _ => True
  | .op c k => c.isSnapshot = false ∧ ∀ b, Unseen (k b)

/-- what is run before the snapshot -/
theorem wpAt_bind {p : Prog (Stmt Row K Fx) ε γ} {f : γ → Prog (Stmt Row K Fx) ε α} (hp : Unseen p)
    (h : D.wp i p (fun r o τ =>
      match r with
      | .ok a => D.wpAt i (f a) Q o τ
      | .error e => ∀ υ, Q υ (.error e) o τ) o σ) : D.wpAt i (p >>= f) Q o σ := by
  intro d ho hσ
  have hwp := h d ho hσ
  clear ho hσ h
  induction p generalizing d with
  | done r =>
    cases r with
    | ok a => exact hwp d rfl rfl
    | error e => exact ⟨e, rfl, hwp⟩
  | op c k ih =>
    intro d' hr hinv hok b e he
    obtain ⟨hg, hk⟩ := hwp d' hr hinv hok b e he
    rw [hp.1]
    exact ⟨hg, ih b (hp.2 b) e hk⟩

/-- the statement that takes the snapshot -/
theorem wpAt_query {β : Type} {f : ((t : T) → List (ℕ × Row t)) → β} {g : β → Prog (Stmt Row K Fx) ε α}
    (h : ∀ τ, D.Later i o σ τ → ∀ l : (t : T) → List (ℕ × Row t), (∀ t n r, (n, r) ∈ l t ↔ o.view τ t n = some r) →
      (∀ t, (l t).Pairwise fun a b => a.1 < b.1) → D.wp i (g (f l)) (Q τ) o τ) :
    D.wpAt i (query f >>= g) Q o σ := by
  rintro d rfl rfl d' ⟨ho, hcom, hrely⟩ hinv hok b e he
  obtain ⟨rfl, rfl⟩ : (fun t => (d'.tab t).rows i) = b ∧ d' = e := by
    simpa [Machine.exec, Cmd.exec] using he
  refine ⟨good_refl hinv, ?_⟩
  have hfresh : d'.snap.Fresh (d.own i) := by
    intro t n hn
    rw [← ho]
    simp only [Db.own, Db.snap, d'.fresh t n hn, Cell.mine_empty, and_self]
  have hrows : ∀ t n r, (n, r) ∈ (d'.tab t).rows i ↔ (d.own i).view d'.snap t n = some r := by
    intro t n r
    rw [← ho]
    exact Table.mem_rows
  exact h d'.snap ⟨hrely, hcom, hinv.1, hfresh⟩ _ hrows (fun t => (d'.tab t).rows_pairwise i) d' ho rfl

/-- what is run after the program that takes the snapshot -/
theorem wpAt_then {p : Prog (Stmt Row K Fx) ε γ} {f : γ → Prog (Stmt Row K Fx) ε α}
    {P : Snap Row X → Except ε γ → Own Row K → Snap Row X → Prop} (h : D.wpAt i p P o σ)
    (hf : ∀ υ a o τ, P υ (.ok a) o τ → D.wp i (f a) (Q υ) o τ)
    (he : ∀ υ e o τ, P υ (.error e) o τ → Q υ (.error e) o τ) : D.wpAt i (p >>= f) Q o σ := by
  intro d ho hσ
  have hp := h d ho hσ
  clear ho hσ h
  induction p generalizing d with
  | done r =>
    obtain ⟨e, rfl, hall⟩ := hp
    exact ⟨e, rfl, fun υ => he υ _ _ _ (hall υ)⟩
  | op c k ih =>
    intro d' hr hinv hok b e hexec
    obtain ⟨hg, hk⟩ := hp d' hr hinv hok b e hexec
    refine ⟨hg, ?_⟩
    split_ifs at hk ⊢
    · refine (D.protocol.wp_bind i (k b) f _ e).2 (D.protocol.wp_mono i hk fun r e' hrP => ?_)
      cases r with
      | ok a => exact hf _ a _ _ hrP e' rfl rfl
      | error x => exact he _ x _ _ hrP
    · exact ih b e hk

theorem wp_of_wpAt {p : Prog (Stmt Row K Fx) ε α} {Q' : Except ε α → Own Row K → Snap Row X → Prop}
    (h : D.wpAt i p Q o σ) (hQ : ∀ υ r o τ, Q υ r o τ → Q' r o τ) : D.wp i p Q' o σ := by
  intro d ho hσ
  have hp := h d ho hσ
  clear ho hσ h
  induction p generalizing d with
  | done r =>
    obtain ⟨-, -, hall⟩ := hp
    exact hQ d.snap _ _ _ (hall _)
  | op c k ih =>
    intro d' hr hinv hok b e he
    obtain ⟨hg, hk⟩ := hp d' hr hinv hok b e he
    refine ⟨hg, ?_⟩
    split_ifs at hk
    · exact D.protocol.wp_mono i hk fun r f hrf => hQ _ _ _ _ hrf
    · exact ih b e hk

/-- what happens before the next statement does not matter, if the others cannot undo `Q` -/
theorem WpAt.stable (hQ : ∀ υ, Stable D i (Q υ)) {p : Prog (Stmt Row K Fx) ε α} {d d' : Db Row K X} (h : WpAt D i Q p d)
    (hr : D.protocol.rely i d d') : WpAt D i Q p d' := by
  cases p with
  | done r =>
    obtain ⟨e, he, hall⟩ := h
    obtain ⟨ho, hcom, hrely⟩ := hr
    rw [WpAt, ho]
    exact ⟨e, he, fun υ => hQ υ r _ _ _ hrely hcom (hall υ)⟩
  | op c k => exact fun d'' hr' => h d'' (D.protocol.rely_trans i d d' d'' hr hr')

/-! ## Runs -/

/-- session `i` is about to take its snapshot -/
def snapshotting (w : World (Stmt Row K Fx) (Db Row K X) ε α) (i : ℕ) : Bool :=
  match w.prog i with
  | some (.op c _) => c.isSnapshot
  | _ => false

theorem ended_run (h : ended w i = true) (ms : List Move) : ended (run w ms) i = true := by
  induction ms generalizing w with
  | nil => exact h
  | cons m ms ih => exact ih (ended_step h m)

theorem not_committing_of_ended (h : ended w i = true) : committing w i = false := by
  rcases hp : w.prog i with _ | (r | ⟨c, k⟩)
  · simp [committing, hp]
  · simp [committing, hp]
  · simp [ended, hp] at h

/-- **Looking back.** By induction on the schedule: before the snapshot the program keeps its precondition, and what it
has from then on is a stage of a transaction that ends in `Q` of what was committed at that move. -/
theorem commits_at {ms : List Move} {p : Prog (Stmt Row K Fx) ε α} (hw : D.protocol.Safe w) (hl : D.protocol.Legal w ms)
    (hQ : ∀ υ, Stable D i (Q υ)) (hp : w.prog i = some (p.andThen endTransaction)) (hplain : Plain p)
    (h : WpAt D i Q p w.st) (hc : committing (run w ms) i = true) :
    ∃ pre post a, ms = pre ++ .run i :: post ∧ snapshotting (run w pre) i = true ∧
      Q (run w pre).st.snap (.ok a) ((run w ms).st.own i) (run w ms).st.snap ∧
      (step (run w ms) (.run i)).st.snap = (run w ms).st.snap.merge ((run w ms).st.own i) := by
  induction ms generalizing w p with
  | nil =>
    exfalso
    cases p with
    | done r =>
      obtain ⟨e, rfl, -⟩ := h
      have hend : committing w i = false := by rw [committing, hp]; rfl
      rw [run_nil, hend] at hc
      cases hc
    | op c k =>
      have hend := hplain.1
      have hcommit : committing w i = false := by
        rw [committing, hp]
        rcases c with c | x
        · simp only [Stmt.isEnd, Bool.or_eq_false_iff] at hend
          exact hend.1
        · rfl
      rw [run_nil, hcommit] at hc
      cases hc
  | cons m ms ih =>
    have hs := D.protocol.step_safe hw hl.1
    have hover : ¬ ended (step w m) i = true := by
      intro hend
      rw [run_cons, not_committing_of_ended (ended_run hend ms)] at hc
      cases hc
    -- the rest of the program is run from the next state on
    suffices hnext : (∃ q : Prog (Stmt Row K Fx) ε α, (step w m).prog i = some (q.andThen endTransaction) ∧ Plain q ∧
        WpAt D i Q q (step w m).st) ∨ m = .run i ∧ snapshotting w i = true ∧ Stage D (Q w.st.snap) i (step w m) by
      rcases hnext with ⟨q, hq, hqplain, hwp⟩ | ⟨rfl, hat, hstage⟩
      · obtain ⟨pre, post, a, rfl, hat, hfound⟩ := ih hs hl.2 hq hqplain hwp hc
        exact ⟨m :: pre, post, a, rfl, hat, hfound⟩
      · obtain ⟨a, hfound, hst, -⟩ := (hstage.run hs hl.2 (hQ _)).commits hc
        exact ⟨[], ms, a, rfl, hat, hfound, by rw [run_cons, hst, Db.snap_finish_true]⟩
    by_cases hi : i = Protocol.who m
    · cases m with
      | crash j =>
        have hj : i = j := hi
        exact absurd (by simp [ended, step, hj]) hover
      | run j =>
        have hj : i = j := hi
        subst hj
        cases p with
        | done r =>
          obtain ⟨e, rfl, -⟩ := h
          refine absurd ?_ hover
          rw [step_op hp rfl]
          simp [ended, Prog.andThen, Prog.raise]
        | op c k =>
          rcases he : Machine.exec i c w.st with _ | ⟨b, d⟩
          · have hstay : step w (.run i) = w := by simp [step, hp, Prog.andThen, he]
            rw [hstay]
            exact Or.inl ⟨_, hp, hplain, h⟩
          · have hok := hl.1
            rw [Protocol.stepOk, hp] at hok
            obtain ⟨-, hk⟩ := h w.st (D.protocol.rely_refl i _) hw.inv hok b d he
            have hmove : step w (.run i) = ⟨d, Function.update w.prog i (some ((k b).andThen endTransaction))⟩ :=
              step_op hp he
            rw [hmove]
            split_ifs at hk with hsnap
            · -- from here on the moment is fixed
              refine Or.inr ⟨rfl, ?_, .within (k b) (by simp) (hplain.2 b) hk⟩
              rw [snapshotting, hp]
              exact hsnap
            · exact Or.inl ⟨k b, by simp, hplain.2 b, hk⟩
    · refine Or.inl ?_
      rcases D.protocol.step_cases hw hl.1 with hstay | ⟨hg, ho, -⟩
      · rw [hstay]
        exact ⟨p, hp, hplain, h⟩
      · exact ⟨p, (ho i hi).trans hp, hplain, h.stable hQ (hg.rely i hi)⟩

end Discipline

end LkmService.Sql
