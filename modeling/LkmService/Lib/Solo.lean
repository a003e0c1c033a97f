/-
A session that runs while all the others stand still.

- `Protocol.ends P i p Q s`: run alone from `s`, the program `p` of session `i` never waits, meets the conditions of the
  protocol and ends in `Q`. `ends_run`: so does every long enough schedule of its moves.
- `answers_alone`: a session that nobody stands in the way of comes to its end.
- `Discipline.solo`: the same over what the session owns and what is committed, when no other session owns anything. There
  is one rule for each statement, as for `Discipline.wp`.
- `leads i p Q μ`: session `i` runs the program `p` alone where it sees the rows `μ`, and ends in `Q` of its outcome and of
  what it then sees. `leads_transaction`: an outcome without an exception is committed.
-/
import LkmService.Lib.Unique

namespace LkmService.Session

variable {F : Type → Type} {S ε ε' α γ : Type} [Machine F S]

namespace Protocol

/-! ## Programs that end -/

def ends (P : Protocol F S) (i : ℕ) : Prog F ε α → (Except ε α → S → Prop) → S → Prop
  | .done r, Q, s => Q r s
  | .op c k, Q, s => P.ok i c s ∧ ∃ b t, Machine.exec i c s = some (b, t) ∧ ends P i (k b) Q t

variable {P : Protocol F S} {i : ℕ} {s : S} {w : World F S ε α}

theorem ends_mono {p : Prog F ε α} {Q Q' : Except ε α → S → Prop} (h : P.ends i p Q s) (hQ : ∀ r t, Q r t → Q' r t) :
    P.ends i p Q' s := by
  induction p generalizing s with
  | done r => exact hQ r s h
  | op c k ih =>
    obtain ⟨hok, b, t, he, hk⟩ := h
    exact ⟨hok, b, t, he, ih b hk⟩

theorem ends_andThen {p : Prog F ε α} {f : Except ε α → Prog F ε' γ} {Q : Except ε' γ → S → Prop}
    (h : P.ends i p (fun r t => P.ends i (f r) Q t) s) : P.ends i (p.andThen f) Q s := by
  induction p generalizing s with
  | done r => exact h
  | op c k ih =>
    obtain ⟨hok, b, t, he, hk⟩ := h
    exact ⟨hok, b, t, he, ih b hk⟩

/-- moves of a session that has ended change nothing -/
theorem run_done {r : Except ε α} (hp : w.prog i = some (.done r)) (k : ℕ) : run w (moves i k) = w := by
  induction k with
  | zero => rfl
  | succ k ih =>
    have hstep : step w (.run i) = w := by simp [step, hp]
    rw [moves, List.replicate_succ, run_cons, hstep]
    exact ih

theorem legal_done {r : Except ε α} (hp : w.prog i = some (.done r)) (k : ℕ) : P.Legal w (moves i k) := by
  induction k with
  | zero => trivial
  | succ k ih =>
    have hstep : step w (.run i) = w := by simp [step, hp]
    refine ⟨by simp [stepOk, hp], ?_⟩
    rw [hstep]
    exact ih

/-- **A session that runs alone.** After enough of its moves it has ended, and nothing else has happened. -/
theorem ends_run {p : Prog F ε α} {Q : Except ε α → S → Prop} (h : P.ends i p Q w.st) (hp : w.prog i = some p) :
    ∃ k₀ r t, Q r t ∧ ∀ k, k₀ ≤ k →
      run w (moves i k) = ⟨t, Function.update w.prog i (some (.done r))⟩ ∧ P.Legal w (moves i k) := by
  induction p generalizing w with
  | done r =>
    refine ⟨0, r, w.st, h, fun k _ => ⟨?_, legal_done hp k⟩⟩
    rw [run_done hp, ← hp, Function.update_eq_self]
  | op c k ih =>
    obtain ⟨hok, b, t, he, hk⟩ := h
    have hstep := step_op hp he
    obtain ⟨k₀, r, u, hQ, hall⟩ := ih b (w := step w (.run i)) (by rw [hstep]; exact hk) (by simp [hstep])
    refine ⟨k₀ + 1, r, u, hQ, fun l hl => ?_⟩
    obtain ⟨l, rfl⟩ : ∃ l', l = l' + 1 := ⟨l - 1, by omega⟩
    obtain ⟨hrun, hlegal⟩ := hall l (by omega)
    rw [moves, List.replicate_succ, run_cons]
    refine ⟨?_, ?_, hlegal⟩
    · rw [show List.replicate l (Move.run i) = moves i l from rfl, hrun, hstep]
      simp
    · simpa only [stepOk, hp] using hok

end Protocol

end LkmService.Session

namespace LkmService.Sql

open Session

set_option linter.unusedSectionVars false

variable {T : Type} [DecidableEq T] {Row : T → Type} {K : Type} [DecidableEq K] {X : Type}
  {Fx : Type → Type} [Effects Fx X] {ε α γ : Type}

namespace Discipline

/-! ## Sessions over the store -/

/-- no other session owns anything -/
def Alone (i : ℕ) (d : Db Row K X) : Prop := ∀ j, j ≠ i → d.own j = {}

/-- run alone, the program ends in `Q` -/
def solo (D : Discipline Row K Fx X) (i : ℕ) (p : Prog (Stmt Row K Fx) ε α)
    (Q : Except ε α → Own Row K → Snap Row X → Prop) (o : Own Row K) (σ : Snap Row X) : Prop :=
  ∀ d : Db Row K X, d.own i = o → d.snap = σ → Alone i d →
    D.protocol.ends i p (fun r e => Alone i e ∧ Q r (e.own i) e.snap) d

variable {D : Discipline Row K Fx X} {i : ℕ} {o : Own Row K} {σ : Snap Row X} {t : T} {n : ℕ}
  {index : (t : T) → Row t → Option K}

theorem fresh_own (i : ℕ) (d : Db Row K X) : d.snap.Fresh (d.own i) := by
  intro t n hn
  simp only [Db.own, Db.snap, d.fresh t n hn, Cell.mine_empty, and_self]

theorem solo_pure {a : α} {Q : Except ε α → Own Row K → Snap Row X → Prop} (h : Q (.ok a) o σ) :
    D.solo i (pure a : Prog (Stmt Row K Fx) ε α) Q o σ := by
  rintro d rfl rfl ha
  exact ⟨ha, h⟩

theorem solo_mono {p : Prog (Stmt Row K Fx) ε α} {Q Q' : Except ε α → Own Row K → Snap Row X → Prop}
    (h : D.solo i p Q o σ) (hQ : ∀ r o τ, Q r o τ → Q' r o τ) : D.solo i p Q' o σ :=
  fun d ho hσ ha => Protocol.ends_mono (h d ho hσ ha) fun r _ he => ⟨he.1, hQ r _ _ he.2⟩

/-- the program ends without an exception -/
def Answers (P : α → Own Row K → Snap Row X → Prop) : Except ε α → Own Row K → Snap Row X → Prop
  | .ok a => P a
  | .error _ => fun _ _ => False

theorem solo_seq {p : Prog (Stmt Row K Fx) ε γ} {f : γ → Prog (Stmt Row K Fx) ε α}
    {P : γ → Own Row K → Snap Row X → Prop} {Q : Except ε α → Own Row K → Snap Row X → Prop}
    (h : D.solo i p (Answers P) o σ) (hf : ∀ a o τ, P a o τ → D.solo i (f a) Q o τ) : D.solo i (p >>= f) Q o σ := by
  intro d ho hσ ha
  rw [Prog.bind_eq]
  apply Protocol.ends_andThen
  refine Protocol.ends_mono (h d ho hσ ha) ?_
  intro r e he
  cases r with
  | ok a => exact hf a _ _ he.2 e rfl rfl he.1
  | error x => exact he.2.elim

theorem solo_return {P : α → Own Row K → Snap Row X → Prop} {a : α} (h : P a o σ) :
    D.solo i (pure a : Prog (Stmt Row K Fx) ε α) (Answers P) o σ := solo_pure h

theorem solo_select {p : ℕ → Row t → Bool} {P : List (ℕ × Row t) → Own Row K → Snap Row X → Prop}
    (h : σ.Fresh o → ∀ l : List (ℕ × Row t), (∀ n r, (n, r) ∈ l ↔ o.view σ t n = some r ∧ p n r = true) →
      P l o σ) : D.solo i (select t p : Prog (Stmt Row K Fx) ε _) (Answers P) o σ := by
  rintro d rfl rfl ha
  refine ⟨nofun, ((d.tab t).rows i).filter (fun q => p q.1 q.2), d, rfl, ha, ?_⟩
  refine h (fresh_own i d) _ ?_
  intro n r
  rw [List.mem_filter, Table.mem_rows]
  rfl

theorem alone_put {d : Db Row K X} (ha : Alone i d) (t : T) (n : ℕ) (v : Option (Row t)) : Alone i (d.put i t n v) := by
  intro j hj
  rw [Db.own_put_other d hj]
  · exact ha j hj
  · exact congrFun (congrFun (congrArg Own.row (ha j hj)) t) n

theorem not_busy {d : Db Row K X} (ha : Alone i d) (t : T) (n : ℕ) : (d.cell t n).busy i = false := by
  rcases hp : (d.cell t n).pending with _ | ⟨j, v⟩
  · simp [Cell.busy, hp]
  · by_contra hb
    have hj : j ≠ i := by simpa [Cell.busy, hp] using hb
    have hrow := congrFun (congrFun (congrArg Own.row (ha j hj)) t) n
    simp [Db.own, Cell.mine, hp] at hrow

theorem not_keyBusy {d : Db Row K X} (ha : Alone i d) (k : K) : d.keyBusy i k = false := by
  rcases hk : d.key k with _ | j
  · simp [Db.keyBusy, hk]
  · by_contra hb
    have hj : j ≠ i := by simpa [Db.keyBusy, hk] using hb
    have hkey := congrFun (congrArg Own.key (ha j hj)) k
    simp [Db.own, hk] at hkey

/-- no row that another session has written stands in the way of an insert -/
theorem not_undecided {d : Db Row K X} (ha : Alone i d) (clash : Row t → Bool) :
    ((List.range (d.tab t).next).map (d.cell t)).any (Cell.undecided i clash) = false := by
  rw [List.any_eq_false]
  intro c hm
  obtain ⟨m, -, rfl⟩ := List.mem_map.1 hm
  have hb := not_busy ha t m
  rcases hp : (d.cell t m).pending with _ | ⟨j, v⟩
  · simp [Cell.undecided, hp]
  · have hj : j = i := by simpa [Cell.busy, hp] using hb
    simp [Cell.undecided, hp, hj]

/-- a row in sight is written at once -/
theorem solo_updateRow {p : Row t → Bool} {f : Row t → Row t} {r : Row t}
    {P : Option (Row t) → Own Row K → Snap Row X → Prop} (hv : o.view σ t n = some r) (hp : p r = true)
    (h : σ.Fresh o → P (some (f r)) (o.put t n (some (f r))) σ) :
    D.solo i (updateRow t n p f : Prog (Stmt Row K Fx) ε _) (Answers P) o σ := by
  rintro d rfl rfl ha
  have hfresh := fresh_own i d
  refine ⟨nofun, some (f r), d.put i t n (some (f r)), ?_, alone_put ha t n _, ?_⟩
  · change Cmd.onRow i t n p _ _ none none d = _
    rw [Cmd.onRow, Db.view_own, hv]
    simp only [hp, if_true, not_busy ha, Bool.false_eq_true, if_false]
  · rw [Db.own_put_self, Db.snap_put, Snap.bump_of_lt (hfresh.lt_of_view hv)]
    exact h hfresh

/-- an insert gives way to a row in sight, or goes through at once -/
theorem solo_insertEntry {r : Row t} {k : K} [∀ r' : Row t, Decidable (index t r' = some k)]
    {P : Option ℕ → Own Row K → Snap Row X → Prop}
    (hmiss : σ.Fresh o → ∀ m, Filed index (σ.merge o) t m k → P none o σ)
    (hhit : σ.Fresh o → (∀ m r', o.view σ t m = some r' → index t r' ≠ some k) →
      P (some (σ.next t)) ((o.put t (σ.next t) (some r)).take k) (σ.bump t (σ.next t))) :
    D.solo i (insertUnique t k (fun r' => index t r' = some k) r : Prog (Stmt Row K Fx) ε _) (Answers P) o σ := by
  rintro d rfl rfl ha
  have hfresh := fresh_own i d
  refine ⟨nofun, ?_⟩
  by_cases hc : ((List.range (d.tab t).next).map (d.cell t)).any
      (Cell.conflict i fun r' => decide (index t r' = some k)) = true
  · refine ⟨none, d, ?_, ha, ?_⟩
    · change Cmd.exec i (.insertUnique t k _ r) d = _
      simp only [Cmd.exec]
      rw [if_pos hc]
    · obtain ⟨c, hm, hcl⟩ := List.any_eq_true.1 hc
      obtain ⟨m, -, rfl⟩ := List.mem_map.1 hm
      obtain ⟨r', hv, hr'⟩ := Cell.view_of_conflict hcl
      exact hmiss hfresh m ⟨r', hv, of_decide_eq_true hr'⟩
  · have hundecided := not_undecided ha fun r' : Row t => decide (index t r' = some k)
    refine ⟨some (d.tab t).next, (d.put i t (d.tab t).next (some r)).takeKey i k, ?_, ?_, ?_⟩
    · change Cmd.exec i (.insertUnique t k _ r) d = _
      simp only [Cmd.exec]
      rw [if_neg hc, hundecided, not_keyBusy ha, Bool.or_self, if_neg Bool.false_ne_true]
    · intro j hj
      rw [Db.own_takeKey_other _ hj k (not_keyBusy (alone_put ha t _ _) k)]
      exact alone_put ha t _ _ j hj
    · rw [Db.own_takeKey_self, Db.own_put_self]
      change P _ _ (d.put i t _ _).snap
      rw [Db.snap_put]
      refine hhit hfresh ?_
      intro m r' hv
      have hmem : d.cell t m ∈ (List.range (d.tab t).next).map (d.cell t) :=
        List.mem_map_of_mem (List.mem_range.2 (hfresh.lt_of_view hv))
      have := Cell.clash_of_view (List.any_eq_false.1 (by simpa using hc) _ hmem)
        (List.any_eq_false.1 hundecided _ hmem) hv
      exact of_decide_eq_false this

/-- a transaction that is alone commits -/
theorem solo_transaction {p : Prog (Stmt Row K Fx) ε α} {P : α → Own Row K → Snap Row X → Prop}
    {Q : α → Snap Row X → Prop} (h : D.solo i p (Answers P) o σ)
    (hcommit : ∀ a o τ, P a o τ → D.okCommit i o τ ∧ Q a (τ.merge o)) :
    D.solo i (transaction p) (Answers fun a o τ => o = {} ∧ Q a τ) o σ := by
  intro d ho hσ ha
  unfold transaction
  apply Protocol.ends_andThen
  refine Protocol.ends_mono (h d ho hσ ha) ?_
  intro r e ⟨ha, hr⟩
  cases r with
  | ok a =>
    obtain ⟨hok, hQ⟩ := hcommit a _ _ hr
    refine ⟨fun _ => hok, (), e.finish i true, rfl, ?_, ?_, ?_⟩
    · intro j hj
      rw [Db.own_finish, if_neg hj]
      exact ha j hj
    · rw [Db.own_finish, if_pos rfl]
    · rw [Db.snap_finish_true]
      exact hQ
  | error x => exact hr.elim

/-! ## Programs that need nothing of the others -/

/-- nothing waits for a session that owns nothing -/
theorem exec_alone {β : Type} {d : Db Row K X} (ha : Alone i d) (c : Stmt Row K Fx β) :
    ∃ b e, Machine.exec i c d = some (b, e) ∧ Alone i e := by
  have honRow : ∀ {γ : Type} {t : T} {n : ℕ} {p : Row t → Bool} {new : Row t → Option (Row t)} {hit : Row t → γ}
      {miss : γ} {busy : Option γ}, ∃ b e, Cmd.onRow i t n p new hit miss busy d = some (b, e) ∧ Alone i e := by
    intro γ t n p new hit miss busy
    simp only [Cmd.onRow, not_busy ha, Bool.false_eq_true, if_false]
    split
    · exact ⟨_, d, rfl, ha⟩
    · split_ifs
      · exact ⟨_, _, rfl, alone_put ha t n _⟩
      · exact ⟨_, d, rfl, ha⟩
  have hfinish : ∀ b, Alone i (d.finish i b) := by
    intro b j hj
    rw [Db.own_finish, if_neg hj]
    exact ha j hj
  have htake : ∀ {e : Db Row K X} (k : K), Alone i e → Alone i (e.takeKey i k) := by
    intro e k he j hj
    rw [Db.own_takeKey_other _ hj k (not_keyBusy he k)]
    exact he j hj
  rcases c with c | x
  · cases c with
    | select t p => exact ⟨_, d, rfl, ha⟩
    | lockRow => exact honRow
    | tryLockRow => exact honRow
    | updateRow => exact honRow
    | deleteRow => exact honRow
    | deleteIf => exact honRow
    | insert t r => exact ⟨_, _, rfl, alone_put ha t _ _⟩
    | insertUnique t k clash r =>
      simp only [Machine.exec, Cmd.exec, not_undecided ha, not_keyBusy ha, Bool.or_self, Bool.false_eq_true, if_false]
      split_ifs
      · exact ⟨_, d, rfl, ha⟩
      · exact ⟨_, _, rfl, htake k (alone_put ha t _ _)⟩
    | snapshot => exact ⟨_, d, rfl, ha⟩
    | lockKey k =>
      simp only [Machine.exec, Cmd.exec, not_keyBusy ha, Bool.false_eq_true, if_false]
      exact ⟨_, _, rfl, htake k ha⟩
    | commit => exact ⟨_, _, rfl, hfinish true⟩
    | rollback => exact ⟨_, _, rfl, hfinish false⟩
  · exact ⟨_, _, rfl, ha⟩

/-- **Progress.** A session that nobody stands in the way of comes to its end. -/
theorem answers_alone {w : World (Stmt Row K Fx) (Db Row K X) ε α} {p : Prog (Stmt Row K Fx) ε α}
    (hp : w.prog i = some p) (ha : Alone i w.st) : ∃ k r, (run w (moves i k)).answer i = some r := by
  induction p generalizing w with
  | done r => exact ⟨0, r, World.answer_eq_some.2 hp⟩
  | op c k ih =>
    obtain ⟨b, e, he, ha'⟩ := exec_alone ha c
    have hstep := step_op hp he
    obtain ⟨m, r, hr⟩ := ih b (w := step w (.run i)) (by simp [hstep]) (by rw [hstep]; exact ha')
    exact ⟨m + 1, r, hr⟩

end Discipline

/-! ## What a session sees while it runs alone -/

namespace Snap

/-- row `n` of table `t` is written -/
def set (t : T) (n : ℕ) (v : Option (Row t)) (σ : Snap Row X) : Snap Row X :=
  { σ.bump t n with com := Function.update σ.com t (Function.update (σ.com t) n v) }

variable {σ : Snap Row X} {t t' : T} {n : ℕ}

theorem set_com_self (v : Option (Row t)) (m : ℕ) : (σ.set t n v).com t m = if m = n then v else σ.com t m := by
  simp [set, Function.update_apply]

theorem set_com_other (v : Option (Row t)) (h : t' ≠ t) : (σ.set t n v).com t' = σ.com t' := by
  simp [set, Function.update_of_ne h]

end Snap

/-- the committed rows, with what session `i` has written over them -/
def Db.sight (i : ℕ) (d : Db Row K X) : Snap Row X := d.snap.merge (d.own i)

namespace Discipline

theorem sight_put (d : Db Row K X) (i : ℕ) (t : T) (n : ℕ) (v : Option (Row t)) :
    (d.put i t n v).sight i = (d.sight i).set t n v := by
  have hcom : ((d.put i t n v).sight i).com = ((d.sight i).set t n v).com := by
    funext t'
    simp only [Db.sight, Db.own_put_self, Db.snap_put]
    by_cases h : t' = t
    · subst h
      rw [Snap.merge_put_self]
      funext m
      rw [Snap.set_com_self, Function.update_apply]
      rfl
    · rw [Snap.merge_put_other _ _ _ _ h, Snap.set_com_other _ h]
      rfl
  have hnext : ((d.put i t n v).sight i).next = ((d.sight i).set t n v).next := by
    simp only [Db.sight, Db.snap_put, Snap.merge_next]
    rfl
  have hext : ((d.put i t n v).sight i).ext = ((d.sight i).set t n v).ext := rfl
  cases hs : (d.put i t n v).sight i
  cases hs' : (d.sight i).set t n v
  simp only [hs, hs'] at hcom hnext hext
  rw [hcom, hnext, hext]

/-- run by session `i` while the others have nothing open, the program ends in `Q` of what the session then sees -/
def leads (i : ℕ) (p : Prog (Stmt Row K Fx) ε α) (Q : Except ε α → Snap Row X → Prop) (μ : Snap Row X) : Prop :=
  ∀ d : Db Row K X, Alone i d → d.sight i = μ → ∃ r e, p.alone i d = some (r, e) ∧ Alone i e ∧ Q r (e.sight i)

variable {i : ℕ} {μ : Snap Row X} {t : T} {n : ℕ} {Q : Except ε α → Snap Row X → Prop}

theorem leads_pure {a : α} (h : Q (.ok a) μ) : leads i (pure a : Prog (Stmt Row K Fx) ε α) Q μ :=
  fun d ha hμ => ⟨.ok a, d, rfl, ha, hμ ▸ h⟩

theorem leads_raise {x : ε} (h : Q (.error x) μ) : leads i (.raise x : Prog (Stmt Row K Fx) ε α) Q μ :=
  fun d ha hμ => ⟨.error x, d, rfl, ha, hμ ▸ h⟩

theorem leads_mono {p : Prog (Stmt Row K Fx) ε α} {P : Except ε α → Snap Row X → Prop} (h : leads i p P μ)
    (hQ : ∀ r ν, P r ν → Q r ν) : leads i p Q μ := by
  intro d ha hμ
  obtain ⟨r, e, hrun, he, hr⟩ := h d ha hμ
  exact ⟨r, e, hrun, he, hQ r _ hr⟩

theorem leads_seq {p : Prog (Stmt Row K Fx) ε γ} {f : γ → Prog (Stmt Row K Fx) ε α} {P : Except ε γ → Snap Row X → Prop}
    (h : leads i p P μ) (hok : ∀ a ν, P (.ok a) ν → leads i (f a) Q ν) (herror : ∀ x ν, P (.error x) ν → Q (.error x) ν) :
    leads i (p >>= f) Q μ := by
  intro d ha hμ
  obtain ⟨r, e, hrun, he, hr⟩ := h d ha hμ
  cases r with
  | ok a =>
    obtain ⟨r', e', hrun', he', hr'⟩ := hok a _ hr e he rfl
    exact ⟨r', e', by rw [Prog.alone_ok hrun, hrun'], he', hr'⟩
  | error x => exact ⟨.error x, e, Prog.alone_error hrun, he, herror x _ hr⟩

/-- the first program raises nothing -/
theorem leads_then {p : Prog (Stmt Row K Fx) ε γ} {f : γ → Prog (Stmt Row K Fx) ε α} {P : γ → Snap Row X → Prop}
    (h : leads i p (fun r ν => ∃ a, r = .ok a ∧ P a ν) μ) (hf : ∀ a ν, P a ν → leads i (f a) Q ν) :
    leads i (p >>= f) Q μ := by
  refine leads_seq h (fun a ν ⟨a', ha, hP⟩ => ?_) fun x ν ⟨a, ha, _⟩ => ?_
  · obtain rfl := Except.ok.inj ha
    exact hf a ν hP
  · cases ha

theorem leads_select {p : ℕ → Row t → Bool} {f : List (ℕ × Row t) → Prog (Stmt Row K Fx) ε α}
    (h : ∀ l : List (ℕ × Row t), (∀ n r, (n, r) ∈ l ↔ μ.com t n = some r ∧ p n r = true) → leads i (f l) Q μ) :
    leads i (select t p >>= f) Q μ := by
  rintro d ha rfl
  refine h (((d.tab t).rows i).filter fun q => p q.1 q.2) (fun n r => ?_) d ha rfl
  rw [List.mem_filter, Table.mem_rows]
  rfl

/-- an insert gives way to a row in sight, or goes through at once -/
theorem leads_insertUnique {k : K} {clash : Row t → Bool} {r : Row t} {Q : Except ε (Option ℕ) → Snap Row X → Prop}
    (hmiss : ∀ m r', μ.com t m = some r' → clash r' = true → Q (.ok none) μ)
    (hhit : ∀ n, μ.com t n = none → (∀ m r', μ.com t m = some r' → clash r' = false) →
      Q (.ok (some n)) (μ.set t n (some r))) :
    leads i (insertUnique t k clash r : Prog (Stmt Row K Fx) ε _) Q μ := by
  rintro d ha rfl
  by_cases hc : ((List.range (d.tab t).next).map (d.cell t)).any (Cell.conflict i clash) = true
  · obtain ⟨c, hm, hcl⟩ := List.any_eq_true.1 hc
    obtain ⟨m, -, rfl⟩ := List.mem_map.1 hm
    obtain ⟨r', hv, hr'⟩ := Cell.view_of_conflict hcl
    have he : Machine.exec i (.sql (.insertUnique t k clash r) : Stmt Row K Fx _) d = some (none, d) := by
      change Cmd.exec i (.insertUnique t k clash r) d = _
      simp only [Cmd.exec]
      rw [if_pos hc]
    exact ⟨.ok none, d, Prog.alone_op he, ha, hmiss m r' hv hr'⟩
  · have he : Machine.exec i (.sql (.insertUnique t k clash r) : Stmt Row K Fx _) d =
        some (some (d.tab t).next, (d.put i t (d.tab t).next (some r)).takeKey i k) := by
      change Cmd.exec i (.insertUnique t k clash r) d = _
      simp only [Cmd.exec]
      rw [if_neg hc, not_undecided ha, not_keyBusy ha, Bool.or_self, if_neg Bool.false_ne_true]
    refine ⟨.ok (some (d.tab t).next), _, Prog.alone_op he, ?_, ?_⟩
    · intro j hj
      rw [Db.own_takeKey_other _ hj k (not_keyBusy (alone_put ha t _ _) k)]
      exact alone_put ha t _ _ j hj
    · have hnone : (d.sight i).com t (d.tab t).next = none := by
        obtain ⟨hcom, hown⟩ := fresh_own i d t (d.tab t).next (Nat.le_refl _)
        rw [Db.sight, Snap.merge_of_none hown, hcom]
      have hclear : ∀ m r', (d.sight i).com t m = some r' → clash r' = false := by
        intro m r' hv
        have hlt : m < (d.tab t).next := (fresh_own i d).lt_of_view hv
        have hmem : d.cell t m ∈ (List.range (d.tab t).next).map (d.cell t) := List.mem_map_of_mem (List.mem_range.2 hlt)
        exact Cell.clash_of_view (List.any_eq_false.1 (by simpa using hc) _ hmem)
          (List.any_eq_false.1 (not_undecided ha clash) _ hmem) hv
      have hsight : ((d.put i t (d.tab t).next (some r)).takeKey i k).sight i =
          (d.sight i).set t (d.tab t).next (some r) := by
        rw [← sight_put, Db.sight, Db.own_takeKey_self]
        rfl
      rw [hsight]
      exact hhit _ hnone hclear

/-- a row that meets the condition is deleted at once -/
theorem leads_deleteIf {p : Row t → Bool} {Q : Except ε Bool → Snap Row X → Prop}
    (hmiss : (∀ r, μ.com t n = some r → p r = false) → Q (.ok false) μ)
    (hhit : ∀ r, μ.com t n = some r → p r = true → Q (.ok true) (μ.set t n none)) :
    leads i (deleteIf t n p : Prog (Stmt Row K Fx) ε _) Q μ := by
  rintro d ha rfl
  have hexec : Machine.exec i (.sql (.deleteIf t n p) : Stmt Row K Fx _) d =
      Cmd.onRow i t n p (fun _ => none) (fun _ => true) false none d := rfl
  rcases hv : (d.sight i).com t n with _ | r
  · have hcell : (d.cell t n).view i = none := (Db.view_own ..).trans hv
    rw [Cmd.onRow, hcell] at hexec
    exact ⟨.ok false, d, Prog.alone_op hexec, ha, hmiss fun r hr => by rw [hv] at hr; cases hr⟩
  · have hcell : (d.cell t n).view i = some r := (Db.view_own ..).trans hv
    simp only [Cmd.onRow, hcell, not_busy ha, Bool.false_eq_true, if_false] at hexec
    by_cases hp : p r = true
    · rw [if_pos hp] at hexec
      exact ⟨.ok true, _, Prog.alone_op hexec, alone_put ha t n none, sight_put d i t n none ▸ hhit r hv hp⟩
    · rw [if_neg hp] at hexec
      refine ⟨.ok false, d, Prog.alone_op hexec, ha, hmiss fun r' hr' => ?_⟩
      obtain rfl : r = r' := Option.some.inj (hv.symm.trans hr')
      exact Bool.eq_false_iff.2 hp

/-- a transaction that runs alone commits what it sees at its end, unless it has raised -/
theorem leads_transaction {p : Prog (Stmt Row K Fx) ε α} (h : leads i p Q μ) {d : Db Row K X} (hquiet : ∀ j, d.own j = {})
    (hμ : d.snap = μ) : ∃ r e, (transaction p).alone i d = some (r, e) ∧ (∀ j, e.own j = {}) ∧
      ((∃ a, r = .ok a ∧ Q (.ok a) e.snap) ∨ ∃ x ν, r = .error x ∧ Q (.error x) ν) := by
  obtain ⟨r, e, hrun, ha, hQ⟩ := h d (fun j _ => hquiet j) (by rw [Db.sight, hquiet i, Snap.merge_empty, hμ])
  have hown : ∀ b j, (e.finish i b).own j = {} := by
    intro b j
    rw [Db.own_finish]
    split_ifs with hj
    · rfl
    · exact ha j hj
  unfold transaction
  cases r with
  | ok a =>
    refine ⟨.ok a, e.finish i true, ?_, hown true, Or.inl ⟨a, rfl, ?_⟩⟩
    · rw [Prog.alone_andThen, hrun]
      rfl
    · rw [Db.snap_finish_true]
      exact hQ
  | error x =>
    refine ⟨.error x, e.finish i false, ?_, hown false, Or.inr ⟨x, _, rfl, hQ⟩⟩
    rw [Prog.alone_andThen, hrun]
    rfl

end Discipline

end LkmService.Sql
