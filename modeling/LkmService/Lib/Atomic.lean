/-
Transactions as atomic steps. A session whose program is `transaction p` changes the committed rows in one move, the
one that commits, and what it then answers is what `p` has returned.

- `Plain p`: the program leaves the end of the transaction to its caller.
- `Stage D Q i w`: session `i` is within such a program, which ends in `Q`, or it has come to its end.
- `Stage.commits`, `Stage.rollsBack`, `Stage.answering`: the move that ends it, with what `Q` says of the rows that the
  session has written.
- `step_com`: every other move leaves the committed rows as they are.
- `unchanged_of_answer`, `exists_commit`: what an answer says of the moves of its session.
- `free`: the discipline for results that need nothing but this.
-/
import LkmService.Lib.Discipline

namespace LkmService.Sql

open Session

set_option linter.unusedSectionVars false

variable {T : Type} [DecidableEq T] {Row : T → Type} {K : Type} [DecidableEq K] {X : Type}
variable {Fx : Type → Type} [Effects Fx X] {ε ε' α γ : Type}

/-! ## Programs that leave the end of the transaction to their caller -/

def Stmt.isEnd {β : Type} : Stmt Row K Fx β → Bool
  | .sql c => c.isCommit || c.isRollback
  | .fx _ => false

def Plain : Prog (Stmt Row K Fx) ε α → Prop
  | .done _ => True
  | .op c k => c.isEnd = false ∧ ∀ b, Plain (k b)

@[simp] theorem plain_pure (a : α) : Plain (pure a : Prog (Stmt Row K Fx) ε α) := trivial

@[simp] theorem plain_raise (e : ε) : Plain (.raise e : Prog (Stmt Row K Fx) ε α) := trivial

theorem plain_call {β : Type} {c : Stmt Row K Fx β} (h : c.isEnd = false) : Plain (.call c : Prog (Stmt Row K Fx) ε β) :=
  ⟨h, fun _ => trivial⟩

theorem plain_andThen {p : Prog (Stmt Row K Fx) ε γ} {f : Except ε γ → Prog (Stmt Row K Fx) ε' α} (h : Plain p)
    (hf : ∀ r, Plain (f r)) : Plain (p.andThen f) := by
  induction p with
  | done r => exact hf r
  | op c k ih => exact ⟨h.1, fun b => ih b (h.2 b)⟩

theorem plain_bind {p : Prog (Stmt Row K Fx) ε γ} {f : γ → Prog (Stmt Row K Fx) ε α} (h : Plain p)
    (hf : ∀ a, Plain (f a)) : Plain (p >>= f) := by
  refine plain_andThen h fun r => ?_
  cases r with
  | ok a => exact hf a
  | error e => trivial

theorem plain_ite {c : Prop} [Decidable c] {p q : Prog (Stmt Row K Fx) ε α} (hp : Plain p) (hq : Plain q) :
    Plain (if c then p else q) := by
  split_ifs
  · exact hp
  · exact hq

@[simp] theorem plain_select (t : T) (p : ℕ → Row t → Bool) : Plain (select t p : Prog (Stmt Row K Fx) ε _) :=
  plain_call rfl

@[simp] theorem plain_lockRow (t : T) (n : ℕ) (p : Row t → Bool) :
    Plain (lockRow t n p : Prog (Stmt Row K Fx) ε _) := plain_call rfl

@[simp] theorem plain_perform {β : Type} (x : Fx β) : Plain (perform x : Prog (Stmt Row K Fx) ε _) := plain_call rfl

@[simp] theorem plain_updateRow (t : T) (n : ℕ) (p : Row t → Bool) (f : Row t → Row t) :
    Plain (updateRow t n p f : Prog (Stmt Row K Fx) ε _) := plain_call rfl

@[simp] theorem plain_deleteIf (t : T) (n : ℕ) (p : Row t → Bool) :
    Plain (deleteIf t n p : Prog (Stmt Row K Fx) ε _) := plain_call rfl

@[simp] theorem plain_insert (t : T) (r : Row t) : Plain (insert t r : Prog (Stmt Row K Fx) ε _) := plain_call rfl

@[simp] theorem plain_insertUnique (t : T) (k : K) (clash : Row t → Bool) (r : Row t) :
    Plain (insertUnique t k clash r : Prog (Stmt Row K Fx) ε _) := plain_call rfl

theorem plain_updateAll {t : T} {p : Row t → Bool} {f : Row t → Row t} (ns : List ℕ) :
    Plain (updateAll t p f ns : Prog (Stmt Row K Fx) ε _) := by
  induction ns with
  | nil => exact plain_pure _
  | cons n ns ih => exact plain_bind (plain_updateRow _ _ _ _) fun _ => plain_bind ih fun _ => plain_pure _

theorem plain_lockKey (k : K) : Plain (lockKey k : Prog (Stmt Row K Fx) ε _) := plain_call rfl

@[simp] theorem plain_query {β : Type} (f : ((t : T) → List (ℕ × Row t)) → β) :
    Plain (query f : Prog (Stmt Row K Fx) ε _) := plain_bind (plain_call rfl) fun _ => plain_pure _

/-- how the transaction around a program ends -/
def endTransaction : Except ε α → Prog (Stmt Row K Fx) ε α
  | .ok a => do commit; pure a
  | .error e => do rollback; Prog.raise e

theorem transaction_eq (p : Prog (Stmt Row K Fx) ε α) : transaction p = p.andThen endTransaction := by
  unfold transaction
  rfl

namespace Discipline

variable {D : Discipline Row K Fx X} {i : ℕ} {w : World (Stmt Row K Fx) (Db Row K X) ε α} {m : Move}
variable {Q : Except ε α → Own Row K → Snap Row X → Prop} {P : ℕ → Except ε α → Own Row K → Snap Row X → Prop}

/-! ## Moves that do not commit -/

/-- **Frame.** Only a commit changes the committed rows. -/
theorem step_com (h : ∀ i, m = .run i → committing w i = false) : (step w m).st.snap.com = w.st.snap.com := by
  cases m with
  | crash i =>
    change (w.st.finish i false).snap.com = _
    rw [Db.snap_finish_false]
  | run i =>
    have hc := h i rfl
    rcases hp : w.prog i with _ | (r | ⟨c, k⟩)
    · simp only [step, hp]
    · simp only [step, hp]
    · rcases he : Machine.exec i c w.st with _ | ⟨b, d⟩
      · simp only [step, hp, he]
      · rw [step_op hp he]
        cases c with
        | fx x =>
          obtain ⟨-, rfl⟩ : (Effects.exec i x w.st.ext).1 = b ∧ { w.st with ext := (Effects.exec i x w.st.ext).2 } = d := by
            simpa [Machine.exec] using he
          rfl
        | sql c =>
          simp only [committing, hp] at hc
          by_cases hr : c.isRollback = true
          · cases c with
            | rollback =>
              obtain rfl : w.st.finish i false = d := by simpa [Machine.exec, Cmd.exec] using he
              change (w.st.finish i false).snap.com = _
              rw [Db.snap_finish_false]
            | _ => simp [Cmd.isRollback] at hr
          · exact funext fun t => funext fun n => (exec_keeps hc (by simpa using hr) he).1 t n

/-- session `i` is about to roll back -/
def rollingBack (w : World (Stmt Row K Fx) (Db Row K X) ε α) (i : ℕ) : Bool :=
  match w.prog i with
  | some (.op (.sql c) _) => c.isRollback
  | _ => false

/-- the move ends the transaction of its session, and undoes what that has written -/
def undoes (w : World (Stmt Row K Fx) (Db Row K X) ε α) : Move → Bool
  | .run i => rollingBack w i
  | .crash _ => true

theorem undone_snap (h : undoes w m = true) : (step w m).st.snap = w.st.snap := by
  cases m with
  | crash i =>
    change (w.st.finish i false).snap = _
    exact Db.snap_finish_false _
  | run i =>
    simp only [undoes, rollingBack] at h
    rcases hp : w.prog i with _ | (r | ⟨c | x, k⟩)
    · simp [hp] at h
    · simp [hp] at h
    · simp only [hp] at h
      cases c with
      | rollback =>
        rw [step_op hp rfl]
        exact Db.snap_finish_false _
      | _ => simp [Cmd.isRollback] at h
    · simp [hp] at h

theorem undone_com (h : undoes w m = true) : (step w m).st.snap.com = w.st.snap.com := by
  rw [undone_snap h]

/-! ## The stages of a transaction -/

/-- what a session has found when its program ends, and the others cannot undo -/
def Stable (D : Discipline Row K Fx X) (i : ℕ) (Q : Except ε α → Own Row K → Snap Row X → Prop) : Prop :=
  ∀ r o σ τ, D.rely i o σ τ → (∀ t n, o.row t n ≠ none → τ.com t n = σ.com t n) → Q r o σ → Q r o τ

inductive Stage (D : Discipline Row K Fx X) (Q : Except ε α → Own Row K → Snap Row X → Prop) (i : ℕ)
    (w : World (Stmt Row K Fx) (Db Row K X) ε α) : Prop where
  | within (q : Prog (Stmt Row K Fx) ε α) (prog : w.prog i = some (q.andThen endTransaction)) (plain : Plain q)
      (wp : D.protocol.wp i q (fun r e => Q r (e.own i) e.snap) w.st)
  | «over» (h : ended w i = true)

theorem stage_start {d : Db Row K X} {prog : ℕ → Prog (Stmt Row K Fx) ε α} {p : Prog (Stmt Row K Fx) ε α}
    (hprog : prog i = transaction p) (hplain : Plain p) (h : D.wp i p Q (d.own i) d.snap) :
    Stage D Q i (start d prog) := by
  refine .within p ?_ hplain (h d rfl rfl)
  rw [← transaction_eq, ← hprog]
  rfl

theorem ended_step (h : ended w i = true) (m : Move) : ended (step w m) i = true := by
  rcases hp : w.prog i with _ | (r | ⟨c, k⟩)
  · have hlost : (step w m).prog i = none := Protocol.run_lost i [m] hp
    simp [ended, hlost]
  · rcases answer_step (World.answer_eq_some.2 hp) m with ha | hn
    · simp [ended, World.answer_eq_some.1 ha]
    · simp [ended, hn]
  · simp [ended, hp] at h

theorem Stage.step (hw : D.protocol.Safe w) (hm : D.protocol.stepOk w m) (hQ : Stable D i Q) (h : Stage D Q i w) :
    Stage D Q i (step w m) := by
  cases h with
  | «over» h => exact .over (ended_step h m)
  | within q hp hplain hwp =>
    by_cases hi : i = Protocol.who m
    · cases m with
      | crash j =>
        have hj : i = j := hi
        refine .over ?_
        simp [ended, Session.step, hj]
      | run j =>
        have hj : i = j := hi
        subst hj
        cases q with
        | done r =>
          refine .over ?_
          cases r with
          | ok a =>
            rw [step_op hp rfl]
            simp [ended, Prog.andThen]
          | error e =>
            rw [step_op hp rfl]
            simp [ended, Prog.andThen, Prog.raise]
        | op c k =>
          rcases he : Machine.exec i c w.st with _ | ⟨b, d⟩
          · have hstay : Session.step w (.run i) = w := by simp [Session.step, hp, Prog.andThen, he]
            rw [hstay]
            exact .within _ hp hplain hwp
          · rw [Protocol.stepOk, hp] at hm
            obtain ⟨-, hk⟩ := hwp w.st (D.protocol.rely_refl i _) hw.inv hm b d he
            rw [step_op hp he]
            exact .within (k b) (by simp) (hplain.2 b) hk
    · rcases D.protocol.step_cases hw hm with hstay | ⟨hg, ho, -⟩
      · rw [hstay]
        exact .within q hp hplain hwp
      · refine .within q ((ho i hi).trans hp) hplain (D.protocol.wp_stable i ?_ hwp (hg.rely i hi))
        intro r d e hr hrely
        obtain ⟨hown, hcom, hrest⟩ := hrely
        rw [hown]
        exact hQ r _ _ _ hrest hcom hr

theorem Stage.run {ms : List Move} (hw : D.protocol.Safe w) (hl : D.protocol.Legal w ms) (hQ : Stable D i Q)
    (h : Stage D Q i w) : Stage D Q i (run w ms) := by
  induction ms generalizing w with
  | nil => exact h
  | cons m ms ih => exact ih (D.protocol.step_safe hw hl.1) hl.2 (h.step hw hl.1 hQ)

/-- **Commit.** The session that commits has come to the end of its program, and answers what the program returned. -/
theorem Stage.commits (h : Stage D Q i w) (hc : committing w i = true) :
    ∃ a, Q (.ok a) (w.st.own i) w.st.snap ∧ (Session.step w (.run i)).st = w.st.finish i true ∧
      (Session.step w (.run i)).answer i = some (.ok a) := by
  cases h with
  | «over» h =>
    rcases hp : w.prog i with _ | (r | ⟨c, k⟩)
    · simp [committing, hp] at hc
    · simp [committing, hp] at hc
    · simp [ended, hp] at h
  | within q hp hplain hwp =>
    cases q with
    | done r =>
      cases r with
      | ok a =>
        refine ⟨a, hwp, ?_, ?_⟩
        · rw [step_op hp rfl]
        · rw [step_op hp rfl, World.answer_eq_some]
          simp [Prog.andThen]
      | error e =>
        have : committing w i = false := by rw [committing, hp]; rfl
        rw [this] at hc
        simp at hc
    | op c k =>
      have hend := hplain.1
      rcases c with c | x
      · have : committing w i = c.isCommit := by rw [committing, hp]; rfl
        simp only [Stmt.isEnd, Bool.or_eq_false_iff] at hend
        rw [this, hend.1] at hc
        simp at hc
      · have : committing w i = false := by rw [committing, hp]; rfl
        rw [this] at hc
        simp at hc

/-- the session that rolls back has come to the end of its program, and raises what the program has raised -/
theorem Stage.rollsBack (h : Stage D Q i w) (hr : rollingBack w i = true) :
    ∃ e, Q (.error e) (w.st.own i) w.st.snap ∧ (Session.step w (.run i)).answer i = some (.error e) := by
  cases h with
  | «over» h =>
    rcases hp : w.prog i with _ | (r | ⟨c, k⟩)
    · simp [rollingBack, hp] at hr
    · simp [rollingBack, hp] at hr
    · simp [ended, hp] at h
  | within q hp hplain hwp =>
    cases q with
    | done r =>
      cases r with
      | ok a =>
        have : rollingBack w i = false := by rw [rollingBack, hp]; rfl
        rw [this] at hr
        simp at hr
      | error e =>
        refine ⟨e, hwp, ?_⟩
        rw [step_op hp rfl, World.answer_eq_some]
        simp [Prog.andThen, Prog.raise]
    | op c k =>
      have hend := hplain.1
      rcases c with c | x
      · have : rollingBack w i = c.isRollback := by rw [rollingBack, hp]; rfl
        simp only [Stmt.isEnd, Bool.or_eq_false_iff] at hend
        rw [this, hend.2] at hr
        simp at hr
      · have : rollingBack w i = false := by rw [rollingBack, hp]; rfl
        rw [this] at hr
        simp at hr

/-! ## Answers -/

theorem answer_run {r : Except ε α} (h : w.answer i = some r) (ms : List Move) :
    (Session.run w ms).answer i = some r ∨ (Session.run w ms).prog i = none := by
  induction ms generalizing w with
  | nil => exact Or.inl h
  | cons m ms ih =>
    rcases answer_step h m with hstep | hlost
    · exact ih hstep
    · exact Or.inr (Protocol.run_lost i ms hlost)

/-- what one move does: nothing to the committed rows, or a session commits what it has written and answers -/
theorem step_commit (h : ∀ i, Stage D (P i) i w) (m : Move) :
    (Session.step w m).st.snap.com = w.st.snap.com ∨
      ∃ i a, m = .run i ∧ committing w i = true ∧ P i (.ok a) (w.st.own i) w.st.snap ∧
        (Session.step w m).st.snap = w.st.snap.merge (w.st.own i) ∧ (Session.step w m).answer i = some (.ok a) := by
  by_cases hc : ∃ i, m = .run i ∧ committing w i = true
  · obtain ⟨i, rfl, hcommit⟩ := hc
    obtain ⟨a, hQ, hst, hanswer⟩ := (h i).commits hcommit
    refine Or.inr ⟨i, a, rfl, hcommit, hQ, ?_, hanswer⟩
    rw [hst, Db.snap_finish_true]
  · refine Or.inl (step_com fun i hi => ?_)
    by_contra hcommit
    exact hc ⟨i, hi, by simpa using hcommit⟩

/-- **All or nothing.** Of a session that has answered, no move has changed the committed rows but the one that
committed what its answer tells of; of one that has raised, none. -/
theorem unchanged_of_answer {pre post : List Move} {r : Except ε α} (h : ∀ i, Stage D (P i) i (Session.run w pre))
    (hanswer : (Session.run w (pre ++ m :: post)).answer (Protocol.who m) = some r)
    (hr : ∀ a, r = .ok a → ∀ o σ, P (Protocol.who m) (.ok a) o σ → (σ.merge o).com = σ.com) :
    (Session.run w (pre ++ [m])).st.snap.com = (Session.run w pre).st.snap.com := by
  rw [run_snoc]
  rcases step_commit h m with hcom | ⟨i, a, rfl, -, hP, hst, hans⟩
  · exact hcom
  · have hsplit : pre ++ Move.run i :: post = (pre ++ [Move.run i]) ++ post := by simp
    rw [hsplit, run_append, run_snoc] at hanswer
    change World.answer _ i = _ at hanswer
    rcases answer_run hans post with hfinal | hlost
    · rw [hfinal, Option.some.injEq] at hanswer
      rw [hst]
      exact hr a hanswer.symm _ _ hP
    · simp [World.answer, hlost] at hanswer

/-- a transaction that has not been ended has not answered -/
theorem result_endTransaction (q : Prog (Stmt Row K Fx) ε α) : (q.andThen endTransaction).result = none := by
  cases q with
  | done r =>
    cases r with
    | ok a => rfl
    | error e => rfl
  | op c k => rfl

/-- only the move that commits leads to an answer that is no exception -/
theorem Stage.answers {a : α} (h : Stage D Q i w) (hbefore : w.answer i ≠ some (.ok a))
    (hafter : (Session.step w m).answer i = some (.ok a)) : m = .run i ∧ committing w i = true := by
  cases h with
  | «over» h =>
    rcases hp : w.prog i with _ | (r | ⟨c, k⟩)
    · have hlost : (Session.step w m).prog i = none := Protocol.run_lost i [m] hp
      simp [World.answer, hlost] at hafter
    · have hr := World.answer_eq_some.2 hp
      rcases answer_step hr m with hsame | hlost
      · rw [hsame, Option.some.injEq] at hafter
        exact absurd (hafter ▸ hr) hbefore
      · simp [World.answer, hlost] at hafter
    · simp [ended, hp] at h
  | within q hp _ _ =>
    have hresult := result_endTransaction q
    cases m with
    | crash j =>
      by_cases hj : i = j
      · simp [World.answer, Session.step, hj] at hafter
      · simp [World.answer, Session.step, Function.update_of_ne hj, hp, hresult] at hafter
    | run j =>
      by_cases hj : i = j
      · subst hj
        refine ⟨rfl, ?_⟩
        cases q with
        | done r =>
          cases r with
          | ok b =>
            rw [committing, hp]
            rfl
          | error e =>
            rw [step_op hp rfl, World.answer_eq_some] at hafter
            simp [Prog.andThen, Prog.raise] at hafter
        | op c k =>
          rcases he : Machine.exec i c w.st with _ | ⟨b, d⟩
          · have hstay : Session.step w (.run i) = w := by simp [Session.step, hp, Prog.andThen, he]
            rw [hstay] at hafter
            exact absurd hafter hbefore
          · rw [step_op hp he] at hafter
            simp [World.answer, result_endTransaction] at hafter
      · rcases hq : w.prog j with _ | (r | ⟨c, k⟩)
        · simp [World.answer, Session.step, hq, hp, hresult] at hafter
        · simp [World.answer, Session.step, hq, hp, hresult] at hafter
        · rcases he : Machine.exec j c w.st with _ | ⟨b, d⟩
          · simp [World.answer, Session.step, hq, he, hp, hresult] at hafter
          · simp [World.answer, Session.step, hq, he, Function.update_of_ne hj, hp, hresult] at hafter

/-- a session ends when its connection is lost, when it commits or when it rolls back -/
theorem Stage.ends (h : Stage D Q i w) (hbefore : ended w i = false) (hafter : ended (Session.step w m) i = true) :
    m = .crash i ∨ m = .run i ∧ (committing w i = true ∨ rollingBack w i = true) := by
  have hopen : ∀ (v : World (Stmt Row K Fx) (Db Row K X) ε α) (q : Prog (Stmt Row K Fx) ε α),
      v.prog i = some (q.andThen endTransaction) → ended v i = false := by
    intro v q hv
    have hresult := result_endTransaction q
    rw [ended, hv]
    cases hq : q.andThen endTransaction with
    | done r =>
      rw [hq] at hresult
      cases hresult
    | op c k => rfl
  cases h with
  | «over» h => simp [h] at hbefore
  | within q hp _ _ =>
    by_cases hi : i = Protocol.who m
    · cases m with
      | crash j =>
        have hj : i = j := hi
        exact .inl (by rw [hj])
      | run j =>
        have hj : i = j := hi
        subst hj
        refine .inr ⟨rfl, ?_⟩
        cases q with
        | done r =>
          cases r with
          | ok a =>
            left
            rw [committing, hp]
            rfl
          | error e =>
            right
            rw [rollingBack, hp]
            rfl
        | op c k =>
          rcases he : Machine.exec i c w.st with _ | ⟨b, d⟩
          · have hstay : Session.step w (.run i) = w := by simp [Session.step, hp, Prog.andThen, he]
            rw [hstay, hbefore] at hafter
            cases hafter
          · rw [step_op hp he, hopen _ (k b) (by simp)] at hafter
            cases hafter
    · rw [hopen _ q ((Protocol.step_prog hi).trans hp)] at hafter
      cases hafter

/-- the move with which a session answers: it commits what its program returned, or undoes it and raises -/
theorem Stage.answering {r : Except ε α} (h : Stage D Q i w) (hbefore : w.answer i = none)
    (hafter : (Session.step w m).answer i = some r) :
    m = .run i ∧ Q r (w.st.own i) w.st.snap ∧
      ((∃ a, r = .ok a) ∧ (Session.step w m).st = w.st.finish i true ∨
        (∃ e, r = .error e) ∧ (Session.step w m).st.snap = w.st.snap) := by
  have hopen : ended w i = false := by
    rcases hp : w.prog i with _ | (r' | ⟨c, k⟩)
    · have hlost : (Session.step w m).prog i = none := Protocol.run_lost i [m] hp
      simp [World.answer, hlost] at hafter
    · rw [World.answer_eq_some.2 hp] at hbefore
      cases hbefore
    · simp [ended, hp]
  have hclosed : ended (Session.step w m) i = true := by
    rw [ended, World.answer_eq_some.1 hafter]
  rcases h.ends hopen hclosed with rfl | ⟨rfl, hc | hr⟩
  · simp [World.answer, Session.step] at hafter
  · obtain ⟨a, hQ, hst, hanswer⟩ := h.commits hc
    obtain rfl : Except.ok a = r := Option.some.inj (hanswer.symm.trans hafter)
    exact ⟨rfl, hQ, Or.inl ⟨⟨a, rfl⟩, hst⟩⟩
  · obtain ⟨e, hQ, hanswer⟩ := h.rollsBack hr
    obtain rfl : Except.error e = r := Option.some.inj (hanswer.symm.trans hafter)
    exact ⟨rfl, hQ, Or.inr ⟨⟨e, rfl⟩, undone_snap hr⟩⟩

/-! ## What is missing while a transaction runs -/

section Excused

variable {missing : Snap Row X → Prop} {whose : X → Option ℕ} {plain : ℕ → Prop}

/-- what is missing is missing because of a session that is in its transaction still -/
def Excused (missing : Snap Row X → Prop) (whose : X → Option ℕ) (w : World (Stmt Row K Fx) (Db Row K X) ε α) : Prop :=
  missing w.st.snap → ∃ i, whose w.st.snap.ext = some i ∧ ended w i = false

/-- a session that has ended leaves everything as it is -/
theorem snap_of_ended (h : ended w (Protocol.who m) = true) : (Session.step w m).st.snap = w.st.snap := by
  cases m with
  | crash i => exact undone_snap rfl
  | run i =>
    have hi : ended w i = true := h
    rcases hp : w.prog i with _ | (r | ⟨c, k⟩)
    · simp only [Session.step, hp]
    · simp only [Session.step, hp]
    · simp [ended, hp] at hi

/-- no session that makes something missing commits like that, and none that has done so fails: the excuse holds -/
theorem excused_step (hw : D.protocol.Safe w) (hm : D.protocol.stepOk w m)
    (hact : ∀ i σ τ, D.act i σ τ → missing τ → whose τ.ext = some i ∨ (missing σ ∧ whose τ.ext = whose σ.ext))
    (hcommit : ∀ i a o σ, P i (.ok a) o σ → whose σ.ext = some i → ¬ missing (σ.merge o))
    (hundo : undoes w m = true → whose w.st.snap.ext = some (Protocol.who m) → ¬ missing w.st.snap)
    (hstage : ∀ i, whose (Session.step w m).st.snap.ext = some i → Stage D (P i) i w) (h : Excused missing whose w) :
    Excused missing whose (Session.step w m) := by
  intro hmissing
  have hopen : ∃ i, whose (Session.step w m).st.snap.ext = some i ∧ ended w i = false := by
    by_cases hstay : (Session.step w m).st.snap = w.st.snap
    · rw [hstay] at hmissing ⊢
      exact h hmissing
    · have hbusy : ended w (Protocol.who m) = false := by
        by_contra hended
        exact hstay (snap_of_ended (by simpa using hended))
      rcases D.protocol.step_act hw hm with hsame | ha
      · exact absurd (congrArg Db.snap hsame) hstay
      · rcases hact _ _ _ ha hmissing with hmine | ⟨hbefore, hwhose⟩
        · exact ⟨_, hmine, hbusy⟩
        · rw [hwhose]
          exact h hbefore
  obtain ⟨i, hi, hopen⟩ := hopen
  refine ⟨i, hi, ?_⟩
  by_contra hended
  rcases (hstage i hi).ends hopen (by simpa using hended) with rfl | ⟨rfl, hc | hr⟩
  · rw [undone_snap (w := w) (m := .crash i) rfl] at hmissing hi
    exact hundo rfl hi hmissing
  · obtain ⟨a, hQ, hst, -⟩ := (hstage i hi).commits hc
    rw [hst, Db.snap_finish_true] at hmissing hi
    exact hcommit i a _ _ hQ hi hmissing
  · have hundoes : undoes w (.run i) = true := hr
    rw [undone_snap hundoes] at hmissing hi
    exact hundo hundoes hi hmissing

theorem excused_run {ms : List Move} (hw : D.protocol.Safe w) (hl : D.protocol.Legal w ms)
    (hact : ∀ i σ τ, D.act i σ τ → missing τ → whose τ.ext = some i ∨ (missing σ ∧ whose τ.ext = whose σ.ext))
    (hplain : ∀ i σ τ, D.act i σ τ → whose τ.ext = whose σ.ext ∨ (whose τ.ext = some i ∧ plain i))
    (hstable : ∀ i, Stable D i (P i)) (hcommit : ∀ i a o σ, P i (.ok a) o σ → whose σ.ext = some i → ¬ missing (σ.merge o))
    (hundo : Along (fun w m => undoes w m = true → whose w.st.snap.ext = some (Protocol.who m) → ¬ missing w.st.snap) w ms)
    (hstage : ∀ i, plain i → Stage D (P i) i w) (hwhose : ∀ i, whose w.st.snap.ext = some i → plain i)
    (h : Excused missing whose w) : Excused missing whose (Session.run w ms) := by
  induction ms generalizing w with
  | nil => exact h
  | cons m ms ih =>
    have hwhose' : ∀ i, whose (Session.step w m).st.snap.ext = some i → plain i := by
      intro i hi
      rcases D.protocol.step_act hw hl.1 with hsame | ha
      · exact hwhose i (hsame ▸ hi)
      · rcases hplain _ _ _ ha with hsame | ⟨hmine, hp⟩
        · exact hwhose i (hsame ▸ hi)
        · obtain rfl : Protocol.who m = i := Option.some.inj (hmine.symm.trans hi)
          exact hp
    apply ih (D.protocol.step_safe hw hl.1) hl.2 hundo.2
    · intro i hi
      exact (hstage i hi).step hw hl.1 (hstable i)
    · exact hwhose'
    · exact excused_step hw hl.1 hact hcommit hundo.1 (fun i hi => hstage i (hwhose' i hi)) h

end Excused

theorem answer_start {d : Db Row K X} (p : ℕ → Prog (Stmt Row K Fx) ε α) (i : ℕ) :
    (start d fun i => transaction (p i)).answer i = none := by
  have hp : (start d fun i => transaction (p i)).prog i = some ((p i).andThen endTransaction) := by
    rw [← transaction_eq]
    rfl
  rw [World.answer, hp]
  exact result_endTransaction (p i)

/-- **Results.** What the program of a session ends in still holds when the session has answered. -/
theorem answered {p : Prog (Stmt Row K Fx) ε α} {ms : List Move} {r : Except ε α} (hw : D.protocol.Safe w)
    (hl : D.protocol.Legal w ms) (hQ : Stable D i Q) (hp : w.prog i = some p) (h : D.wp i p Q (w.st.own i) w.st.snap)
    (hr : (Session.run w ms).answer i = some r) : Q r ((Session.run w ms).st.own i) (Session.run w ms).st.snap := by
  refine D.protocol.run_result i (Q := fun r d => Q r (d.own i) d.snap) ?_ hw hl hp (h w.st rfl rfl) hr
  intro r d e hd hrely
  obtain ⟨hown, hcom, hrest⟩ := hrely
  rw [hown]
  exact hQ r _ _ _ hrest hcom hd

/-- who has answered without raising has committed -/
theorem exists_commit {ms : List Move} {a : α} (h : ∀ pre, pre <+: ms → Stage D Q i (Session.run w pre))
    (hstart : w.answer i = none) (hanswer : (Session.run w ms).answer i = some (.ok a)) :
    ∃ pre post, ms = pre ++ .run i :: post ∧ committing (Session.run w pre) i = true ∧
      Q (.ok a) ((Session.run w pre).st.own i) (Session.run w pre).st.snap := by
  induction ms using List.reverseRecOn with
  | nil => simp [hstart] at hanswer
  | append_singleton ms m ih =>
    by_cases hbefore : (Session.run w ms).answer i = some (.ok a)
    · obtain ⟨pre, post, rfl, hc⟩ := ih (fun pre hpre => h pre (hpre.trans (List.prefix_append _ _))) hbefore
      exact ⟨pre, post ++ [m], by simp, hc⟩
    · rw [run_snoc] at hanswer
      have hstage := h ms (List.prefix_append _ _)
      obtain ⟨rfl, hcommit⟩ := hstage.answers hbefore hanswer
      obtain ⟨b, hQ, -, hb⟩ := hstage.commits hcommit
      rw [hb, Option.some.injEq, Except.ok.injEq] at hanswer
      exact ⟨ms, [], rfl, hcommit, hanswer ▸ hQ⟩

/-! ## Nothing but transactions -/

/-- the discipline that asks nothing of anyone -/
def free : Discipline Row K Fx X where
  inv _ := True
  rely _ _ _ _ := True
  act _ _ _ := True
  ok _ _ _ _ := True
  rely_refl _ _ _ := trivial
  rely_trans _ _ _ _ _ _ _ := trivial
  act_refl _ _ _ := trivial
  grow_inv _ _ _ _ := trivial
  grow_act _ _ _ _ _ := trivial
  grow_rely _ _ _ _ _ _ := trivial

instance : Lockless (free : Discipline Row K Fx X) := ⟨fun _ _ _ => trivial⟩

theorem free_safe {d : Db Row K X} {p : ℕ → Prog (Stmt Row K Fx) ε α}
    {Q : ℕ → Except ε α → Own Row K → Snap Row X → Prop} (ho : ∀ i, d.own i = {})
    (h : ∀ i, free.wp i (p i) (Q i) {} d.snap) :
    (free : Discipline Row K Fx X).protocol.Safe (start d fun i => transaction (p i)) := by
  refine safe_start trivial (fun _ => trivial) ho fun i => ?_
  have hp : free.wp i (p i) (Returns fun _ _ _ => True) {} d.snap := by
    refine wp_mono (h i) fun r o σ _ => ?_
    cases r with
    | ok a => trivial
    | error e => trivial
  exact wp_mono (wp_transaction hp fun _ _ _ _ _ _ _ => ⟨trivial, trivial, fun _ _ _ _ => trivial⟩) fun _ _ _ _ => trivial

theorem free_legal (w : World (Stmt Row K Fx) (Db Row K X) ε α) (ms : List Move) :
    (free : Discipline Row K Fx X).protocol.Legal w ms :=
  legal_of_ok (fun _ _ _ _ => trivial) (fun _ _ _ => trivial) w ms

theorem free_stage {d : Db Row K X} {p : ℕ → Prog (Stmt Row K Fx) ε α}
    {Q : ℕ → Except ε α → Own Row K → Snap Row X → Prop} (ho : ∀ i, d.own i = {}) (hplain : ∀ i, Plain (p i))
    (hQ : ∀ i, Stable (free : Discipline Row K Fx X) i (Q i)) (h : ∀ i, free.wp i (p i) (Q i) {} d.snap) (ms : List Move) :
    Stage (free : Discipline Row K Fx X) (Q i) i (Session.run (start d fun i => transaction (p i)) ms) := by
  refine Stage.run (free_safe ho h) (free_legal _ ms) (hQ i) ?_
  refine stage_start rfl (hplain i) ?_
  rw [ho i]
  exact h i

/-- of a program that leaves the end of the transaction to its caller nothing more need be known -/
theorem free_plain {p : Prog (Stmt Row K Fx) ε α} (h : Plain p) (d : Db Row K X) :
    (free : Discipline Row K Fx X).protocol.wp i p (fun _ _ => True) d := by
  induction p generalizing d with
  | done r => trivial
  | op c k ih =>
    intro s _ hinv _ b t he
    refine ⟨?_, ih b (h.2 b) t⟩
    have hend := h.1
    cases c with
    | sql c =>
      simp only [Stmt.isEnd, Bool.or_eq_false_iff] at hend
      exact exec_good hinv hend.1 hend.2 he
    | fx x =>
      obtain ⟨-, rfl⟩ : (Effects.exec i x s.ext).1 = b ∧ { s with ext := (Effects.exec i x s.ext).2 } = t := by
        simpa [Machine.exec] using he
      exact ⟨⟨trivial, fun _ => trivial⟩, trivial, fun j _ => ⟨rfl, fun _ _ _ => rfl, trivial⟩⟩

/-- **Rollback.** In every run, a session that has raised has changed no committed row at any of its moves. -/
theorem unchanged_of_raised {d : Db Row K X} {p : ℕ → Prog (Stmt Row K Fx) ε α} (ho : ∀ i, d.own i = {})
    (hplain : ∀ i, Plain (p i)) {pre post : List Move} {e : ε}
    (hanswer : (Session.run (start d fun i => transaction (p i)) (pre ++ m :: post)).answer (Protocol.who m) =
      some (.error e)) :
    (Session.run (start d fun i => transaction (p i)) (pre ++ [m])).st.snap.com =
      (Session.run (start d fun i => transaction (p i)) pre).st.snap.com := by
  have hwp : ∀ i, (free : Discipline Row K Fx X).wp i (p i) (fun _ _ _ => True) {} d.snap := fun i d' _ _ =>
    free_plain (hplain i) d'
  refine unchanged_of_answer (P := fun _ _ _ _ => True)
    (fun i => free_stage ho hplain (fun _ _ _ _ _ _ _ _ => trivial) hwp pre) hanswer ?_
  intro a ha
  cases ha

end Discipline

end LkmService.Sql
