/-
Consumer dedup: within a scope the handler of an event succeeds at most once.

The invariant is carried by the advisory lock. While the lock of an event is free, every success of the event is
recorded; the session that holds the lock may have one that is not (`discipline`, `lock`). A delivery that finds no
record under the lock is therefore the first to succeed.
-/
import LkmService.Lib.Discipline
import LkmService.Worker.Model

namespace LkmService.Worker

open Session Sql Sql.Discipline Tbl

abbrev State := Snap Row Ext

abbrev Held := Own Row Key

variable {env : Env} {i j : ℕ} {o : Held} {σ τ : State}

/-! ## The invariant -/

/-- the event is recorded as processed in the scope -/
def Processed (σ : State) (s e : String) : Prop := ∃ n, σ.com processed n = some ⟨s, e⟩

/-- the successful runs of the handler for the event in the scope -/
def successes (σ : State) (s e : String) : List Note :=
  σ.ext.log.filter fun x => x.mark == .success && x.scope == s && x.key == some e

structure Inv (σ : State) : Prop where
  once : ∀ s e, (successes σ s e).length ≤ 1
  recorded : ∀ s e, Processed σ s e → ∃ i, ⟨.success, i, s, some e⟩ ∈ σ.ext.log
  acked : ∀ i s e, ⟨.ack, i, s, some e⟩ ∈ σ.ext.log → Processed σ s e
  skipped : ∀ i s e, ⟨.skip, i, s, some e⟩ ∈ σ.ext.log → Processed σ s e ∧ ∃ j, j ≠ i ∧ ⟨.success, j, s, some e⟩ ∈ σ.ext.log
  failed : ∀ m i s e, m = .failure ∨ m = .nack → ⟨m, i, s, some e⟩ ∈ σ.ext.log → ⟨.success, i, s, some e⟩ ∉ σ.ext.log

/-- what session `i` may rely on: nobody else writes its notes, and nobody else succeeds under a lock it holds -/
structure Rely (env : Env) (i : ℕ) (o : Held) (σ τ : State) : Prop where
  log : ∀ x, x ∈ σ.ext.log → x ∈ τ.ext.log
  mine : ∀ x, x.session = i → x ∈ τ.ext.log → x ∈ σ.ext.log
  processed : ∀ s e, Processed σ s e → Processed τ s e
  held : ∀ s e, o.key (env.lock s e) → (∀ j, ⟨.success, j, s, some e⟩ ∈ τ.ext.log → ⟨.success, j, s, some e⟩ ∈ σ.ext.log) ∧
    (Processed τ s e → Processed σ s e)

theorem Rely.refl (env : Env) (i : ℕ) (o : Held) (σ : State) : Rely env i o σ σ :=
  ⟨fun _ h => h, fun _ _ h => h, fun _ _ h => h, fun _ _ _ => ⟨fun _ h => h, id⟩⟩

theorem Rely.trans {υ : State} (h : Rely env i o σ τ) (h' : Rely env i o τ υ) : Rely env i o σ υ where
  log x hx := h'.log x (h.log x hx)
  mine x hi hx := h.mine x hi (h'.mine x hi hx)
  processed s e hp := h'.processed s e (h.processed s e hp)
  held s e hk := ⟨fun j hj => (h.held s e hk).1 j ((h'.held s e hk).1 j hj),
    fun hp => (h.held s e hk).2 ((h'.held s e hk).2 hp)⟩

/-- the successes under the lock, save those of its holder, are recorded -/
def Locked (env : Env) (k : Key) (holder : Option ℕ) (σ : State) : Prop :=
  ∀ j s e, ⟨.success, j, s, some e⟩ ∈ σ.ext.log → env.lock s e = k → holder ≠ some j → Processed σ s e

def discipline (env : Env) : Discipline Row Key Fx Ext where
  inv := Inv
  rely := Rely env
  act _ _ _ := True
  ok _ _ _ _ := True
  lock := Locked env
  rely_refl := Rely.refl env
  rely_trans _ _ _ _ _ := Rely.trans
  act_refl _ _ _ := trivial
  grow_inv _ _ _ h := { h with }
  grow_act _ _ _ _ _ := trivial
  grow_rely i o σ _ _ _ := { Rely.refl env i o σ with }
  grow_lock _ _ _ _ _ h := h
  take_lock _ _ _ h j s e hm hk _ := h j s e hm hk (by simp)

/-! ## Notes -/

/-- the state after session `i` has noted `m` -/
def logged (σ : State) (x : Note) : State := { σ with ext := { log := x :: σ.ext.log } }

/-- what a delivery has to know before it notes `m` -/
structure Notable (env : Env) (i : ℕ) (o : Held) (σ : State) (m : Mark) (s e : String) : Prop where
  success : m = .success → o.key (env.lock s e) ∧ (∀ j, ⟨.success, j, s, some e⟩ ∉ σ.ext.log) ∧
    ∀ m', m' = .failure ∨ m' = .nack → ⟨m', i, s, some e⟩ ∉ σ.ext.log
  failed : m = .failure ∨ m = .nack → ⟨.success, i, s, some e⟩ ∉ σ.ext.log
  ack : m = .ack → Processed σ s e
  skip : m = .skip → Processed σ s e ∧ ∃ j, j ≠ i ∧ ⟨.success, j, s, some e⟩ ∈ σ.ext.log

theorem Inv.push (env : Env) (o : Held) (h : Inv σ) {m : Mark} {s : String} {k : Option String}
    (hn : ∀ e, k = some e → Notable env i o σ m s e) : Inv (logged σ ⟨m, i, s, k⟩) where
  once s' e := by
    by_cases hx : m = .success ∧ s = s' ∧ k = some e
    · obtain ⟨rfl, rfl, rfl⟩ := hx
      have hnil : successes σ s e = [] := by
        refine List.filter_eq_nil_iff.2 fun x hx hc => ?_
        simp only [Bool.and_eq_true, beq_iff_eq] at hc
        obtain ⟨⟨hm, hs⟩, hk⟩ := hc
        refine ((hn e rfl).success rfl).2.1 x.session ?_
        rw [← hm, ← hs, ← hk]
        exact hx
      have hcons : successes (logged σ ⟨.success, i, s, some e⟩) s e = ⟨.success, i, s, some e⟩ :: successes σ s e := by
        simp [successes, logged]
      rw [hcons, hnil]
      exact Nat.le_refl _
    · have hsame : successes (logged σ ⟨m, i, s, k⟩) s' e = successes σ s' e := by
        simp only [successes, logged]
        rw [List.filter_cons_of_neg]
        simpa only [Bool.and_eq_true, beq_iff_eq, and_assoc] using hx
      rw [hsame]
      exact h.once s' e
  recorded s' e hp := by
    obtain ⟨j, hj⟩ := h.recorded s' e hp
    exact ⟨j, List.mem_cons_of_mem _ hj⟩
  acked j s' e hx := by
    rcases List.mem_cons.1 hx with heq | hx
    · simp only [Note.mk.injEq] at heq
      obtain ⟨hm, -, rfl, hk⟩ := heq
      exact (hn e hk.symm).ack hm.symm
    · exact h.acked j s' e hx
  skipped j s' e hx := by
    rcases List.mem_cons.1 hx with heq | hx
    · simp only [Note.mk.injEq] at heq
      obtain ⟨hm, rfl, rfl, hk⟩ := heq
      obtain ⟨hp, j', hne, hj⟩ := (hn e hk.symm).skip hm.symm
      exact ⟨hp, j', hne, List.mem_cons_of_mem _ hj⟩
    · obtain ⟨hp, j', hne, hj⟩ := h.skipped j s' e hx
      exact ⟨hp, j', hne, List.mem_cons_of_mem _ hj⟩
  failed m' j s' e hm' hx hs := by
    rcases List.mem_cons.1 hx with heq | hx <;> rcases List.mem_cons.1 hs with heq' | hs
    · simp only [Note.mk.injEq] at heq heq'
      rw [← heq'.1] at heq
      rw [heq.1] at hm'
      simp at hm'
    · simp only [Note.mk.injEq] at heq
      obtain ⟨hm, hj, hs', hk⟩ := heq
      rw [hj, hs'] at hs
      exact (hn e hk.symm).failed (hm ▸ hm') hs
    · simp only [Note.mk.injEq] at heq'
      obtain ⟨hm, hj, hs', hk⟩ := heq'
      rw [hj, hs'] at hx
      exact ((hn e hk.symm).success hm.symm).2.2 m' hm' hx
    · exact h.failed m' j s' e hm' hx hs

theorem wp_note {m : Mark} {d : Delivery} {Q : Except Exn Unit → Held → State → Prop}
    (hn : ∀ τ, (discipline env).Later i o σ τ → ∀ e, d.key = some e → Notable env i o τ m d.scope e)
    (hQ : ∀ τ, (discipline env).Later i o σ τ → Q (.ok ()) o (logged τ ⟨m, i, d.scope, d.key⟩)) :
    (discipline env).wp i (note m d) Q o σ := by
  refine wp_performLock fun τ hl _ => ⟨⟨?_, trivial, fun j hj o' hd => ?_⟩, fun k v hv hlock => ?_, hQ τ hl⟩
  · exact Inv.push env o hl.inv (hn τ hl)
  · refine ⟨fun x hx => List.mem_cons_of_mem _ hx, fun x hx hmem => ?_, fun _ _ h => h, fun s e hk => ⟨fun j' hm => ?_, id⟩⟩
    · rcases List.mem_cons.1 hmem with rfl | hmem
      · exact absurd hx.symm hj
      · exact hmem
    · rcases List.mem_cons.1 hm with heq | hm
      · simp only [Note.mk.injEq] at heq
        obtain ⟨hmark, -, rfl, hkey⟩ := heq
        exact absurd ((hn τ hl e hkey.symm).success hmark.symm).1 (hd.key _ hk)
      · exact hm
  · intro j s e hm hk hne
    rcases List.mem_cons.1 hm with heq | hm
    · -- a success is noted under its lock
      simp only [Note.mk.injEq] at heq
      obtain ⟨hmark, rfl, rfl, hkey⟩ := heq
      have := ((hn τ hl e hkey.symm).success hmark.symm).1
      rw [hk] at this
      exact absurd (hv.2 this) hne
    · exact hlock j s e hm hk hne

theorem wp_work {n : ℕ} {Q : Except Exn Unit → Held → State → Prop} (hi : Inv σ) (hf : σ.Fresh o)
    (hQ : ∀ τ, (discipline env).Later i o σ τ → Q (.ok ()) o τ) : (discipline env).wp i (work n) Q o σ := by
  induction n generalizing σ with
  | zero => exact wp_pure (hQ σ (Later.refl hi hf))
  | succ n ih =>
    refine wp_bind (wp_performLock fun τ hl _ => ⟨⟨hl.inv, trivial, fun j _ o' _ => Rely.refl env j o' τ⟩,
      fun _ _ _ h => h, ?_⟩)
    exact ih hl.inv hl.fresh fun υ hl' => hQ υ (hl.trans hl')

/-! ## What a session knows of its own notes -/

/-- session `i` has not noted `m` -/
def Clean (i : ℕ) (m : Mark) (σ : State) : Prop := ∀ s k, ⟨m, i, s, k⟩ ∉ σ.ext.log

theorem Clean.later {m : Mark} (h : Clean i m σ) (hl : (discipline env).Later i o σ τ) : Clean i m τ :=
  fun s k hx => h s k (Rely.mine hl.rely _ rfl hx)

theorem Clean.push {m : Mark} (h : Clean i m σ) {x : Note} (hx : x.mark ≠ m) : Clean i m (logged σ x) := by
  intro s k hmem
  rcases List.mem_cons.1 hmem with rfl | hmem
  · exact hx rfl
  · exact h s k hmem

/-- the locks of a session all of whose successes are recorded may be released -/
theorem locked_release {k : Key} (h : ∀ s e, ⟨.success, i, s, some e⟩ ∈ σ.ext.log → Processed σ s e)
    (hl : Locked env k (some i) σ) : Locked env k none σ := by
  intro j s e hm hk _
  by_cases hj : j = i
  · exact h s e (hj ▸ hm)
  · exact hl j s e hm hk (by simpa using Ne.symm hj)

/-! ## The handler -/

/-- the handler runs where no success of its event is known, under the event's lock -/
structure Called (env : Env) (i : ℕ) (d : Delivery) (o : Held) (σ : State) : Prop where
  lock : ∀ e, d.key = some e → o.key (env.lock d.scope e) ∧ ∀ j, ⟨.success, j, d.scope, some e⟩ ∉ σ.ext.log
  success : Clean i .success σ
  failure : Clean i .failure σ
  nack : Clean i .nack σ

theorem Called.later {d : Delivery} (h : Called env i d o σ) (hl : (discipline env).Later i o σ τ) :
    Called env i d o τ where
  lock e he := ⟨(h.lock e he).1, fun j hj => (h.lock e he).2 j ((Rely.held hl.rely _ _ (h.lock e he).1).1 j hj)⟩
  success := h.success.later hl
  failure := h.failure.later hl
  nack := h.nack.later hl

theorem Called.push {d : Delivery} (h : Called env i d o σ) {x : Note} (hs : x.mark ≠ .success) (hf : x.mark ≠ .failure)
    (hn : x.mark ≠ .nack) : Called env i d o (logged σ x) where
  lock e he := ⟨(h.lock e he).1, fun j hj => by
    rcases List.mem_cons.1 hj with rfl | hj
    · exact hs rfl
    · exact (h.lock e he).2 j hj⟩
  success := h.success.push hs
  failure := h.failure.push hf
  nack := h.nack.push hn

/-- the notes of a delivery whose handler has returned -/
structure Succeeded (i : ℕ) (d : Delivery) (σ : State) : Prop where
  noted : ⟨.success, i, d.scope, d.key⟩ ∈ σ.ext.log
  only : ∀ s k, ⟨.success, i, s, k⟩ ∈ σ.ext.log → s = d.scope ∧ k = d.key

theorem Succeeded.later {d : Delivery} (h : Succeeded i d σ) (hl : (discipline env).Later i o σ τ) : Succeeded i d τ :=
  ⟨Rely.log hl.rely _ h.noted, fun s k hx => h.only s k (Rely.mine hl.rely _ rfl hx)⟩

theorem wp_handler {d : Delivery} {Q : Except Exn Unit → Held → State → Prop} (hc : Called env i d o σ)
    (hok : ∀ τ, Inv τ → τ.Fresh o → Succeeded i d τ → Q (.ok ()) o τ)
    (herr : ∀ x τ, Clean i .success τ → Q (.error x) o τ) : (discipline env).wp i (handler d) Q o σ := by
  refine wp_bind (wp_note (fun τ _ e _ => ⟨by simp, by simp, by simp, by simp⟩) fun τ hl => ?_)
  have hc₁ := (hc.later hl).push (x := ⟨.start, i, d.scope, d.key⟩) (by simp) (by simp) (by simp)
  have hi₁ : Inv (logged τ ⟨.start, i, d.scope, d.key⟩) :=
    Inv.push env o hl.inv fun e _ => ⟨by simp, by simp, by simp, by simp⟩
  refine wp_bind (wp_work hi₁ hl.fresh fun υ hl₁ => ?_)
  have hc₂ := hc₁.later hl₁
  show (discipline env).wp i (if d.ok = true then _ else _) Q o υ
  split_ifs with hd
  · refine wp_note (fun ω hl₂ e he => ?_) fun ω hl₂ => ?_
    · have hc₃ := hc₂.later hl₂
      refine ⟨fun _ => ⟨(hc₃.lock e he).1, (hc₃.lock e he).2, ?_⟩, by simp, by simp, by simp⟩
      rintro m' (rfl | rfl)
      · exact hc₃.failure _ _
      · exact hc₃.nack _ _
    · have hc₃ := hc₂.later hl₂
      refine hok _ ?_ hl₂.fresh ⟨List.mem_cons_self, fun s k hx => ?_⟩
      · refine Inv.push env o hl₂.inv fun e he => ?_
        refine ⟨fun _ => ⟨(hc₃.lock e he).1, (hc₃.lock e he).2, ?_⟩, by simp, by simp, by simp⟩
        rintro m' (rfl | rfl)
        · exact hc₃.failure _ _
        · exact hc₃.nack _ _
      · rcases List.mem_cons.1 hx with heq | hx
        · simp only [Note.mk.injEq, true_and] at heq
          exact heq
        · exact absurd hx (hc₃.success _ _)
  · refine wp_bind (wp_note (fun ω hl₂ e he => ⟨by simp, fun _ => (hc₂.later hl₂).success _ _, by simp, by simp⟩)
      fun ω hl₂ => wp_raise _ (herr _ _ ?_))
    exact (hc₂.later hl₂).success.push (by simp)

/-! ## The record -/

theorem wp_alreadyProcessed {s e : String} {Q : Except Exn Bool → Held → State → Prop}
    (ho : ∀ n, o.row processed n = none)
    (hQ : ∀ τ b, (discipline env).Later i o σ τ → (b = true ↔ Processed τ s e) → Q (.ok b) o τ) :
    (discipline env).wp i (alreadyProcessed s e) Q o σ := by
  refine wp_bind (wp_select fun τ hl l hmem _ => wp_pure (hQ τ _ hl ?_))
  have hrow : ∀ n r, (n, r) ∈ l ↔ τ.com processed n = some r ∧ r = ⟨s, e⟩ := by
    intro n r
    rw [hmem, Own.view_of_none (ho n), Bool.and_eq_true, beq_iff_eq, beq_iff_eq, EventProcessed.ext_iff]
  rcases l with _ | ⟨⟨n, r⟩, l⟩
  · simp only [List.isEmpty_nil, Bool.not_true, Bool.false_eq_true, false_iff]
    rintro ⟨n, hn⟩
    have := (hrow n ⟨s, e⟩).2 ⟨hn, rfl⟩
    simp at this
  · simp only [List.isEmpty_cons, Bool.not_false, true_iff]
    obtain ⟨hn, rfl⟩ := (hrow n r).1 List.mem_cons_self
    exact ⟨n, hn⟩

/-- the commit of the record, under the lock of its event and after its success -/
theorem wp_commitRecord {d : Delivery} {e : String} {n : ℕ} {Q : Except Exn Unit → Held → State → Prop}
    (ho : ∀ m v, o.row processed m = some v → m = n ∧ v = some ⟨d.scope, e⟩)
    (hn : o.row processed n = some (some ⟨d.scope, e⟩)) (hfree : σ.com processed n = none)
    (hkey : o.key (env.lock d.scope e)) (hd : d.key = some e) (hs : Succeeded i d σ)
    (hQ : ∀ τ, Processed τ d.scope e → Q (.ok ()) {} τ) : (discipline env).wp i commit Q o σ := by
  refine wp_commitLock fun τ hl _ => ?_
  have hs' := hs.later hl
  have hfree' : τ.com processed n = none := (hl.com_eq hn).trans hfree
  have hold : ∀ s' e', Processed τ s' e' → Processed (τ.merge o) s' e' := by
    rintro s' e' ⟨m, hm⟩
    refine ⟨m, ?_⟩
    rcases hr : o.row processed m with _ | v
    · rwa [Snap.merge_of_none hr]
    · rw [(ho m v hr).1, hfree'] at hm
      simp at hm
  have hnew : ∀ s' e', Processed (τ.merge o) s' e' → Processed τ s' e' ∨ s' = d.scope ∧ e' = e := by
    rintro s' e' ⟨m, hm⟩
    rcases Snap.merge_cases hm with hr | ⟨-, hc⟩
    · have := (ho m _ hr).2
      simp only [Option.some.injEq, EventProcessed.mk.injEq] at this
      exact Or.inr this
    · exact Or.inl ⟨m, hc⟩
  have hrec : Processed (τ.merge o) d.scope e := ⟨n, Snap.merge_of_some hn τ⟩
  refine ⟨⟨?_, trivial, fun j _ o' hdis => ?_⟩, fun k v _ hlock => ?_, hQ _ hrec⟩
  · exact
    { once := hl.inv.once
      recorded := fun s' e' hp => by
        rcases hnew s' e' hp with hp | ⟨rfl, rfl⟩
        · exact hl.inv.recorded s' e' hp
        · exact ⟨i, hd ▸ hs'.noted⟩
      acked := fun j s' e' hx => hold _ _ (hl.inv.acked j s' e' hx)
      skipped := fun j s' e' hx => (hl.inv.skipped j s' e' hx).imp (hold _ _) id
      failed := hl.inv.failed }
  · refine ⟨fun _ h => h, fun _ _ h => h, hold, fun s' e' hk => ⟨fun _ h => h, fun hp => ?_⟩⟩
    rcases hnew s' e' hp with hp | ⟨rfl, rfl⟩
    · exact hp
    · exact absurd hkey (hdis.key _ hk)
  · intro j s' e' hm hk hne
    by_cases hv : v = some j ∧ j = i
    · obtain ⟨-, rfl⟩ := hv
      obtain ⟨rfl, he⟩ := hs'.only s' _ hm
      rw [hd, Option.some.injEq] at he
      exact he ▸ hrec
    · refine hold _ _ (hlock j s' e' hm hk fun hvj => hv ⟨hvj, ?_⟩)
      rw [hvj] at hne
      by_contra hji
      rw [if_neg (by simpa using hji)] at hne
      exact hne rfl

theorem wp_recordProcessed {d : Delivery} {e : String} {Q : Except Exn Bool → Held → State → Prop}
    (hrow : ∀ n, o.row processed n = none) (hkey : o.key (env.lock d.scope e)) (hd : d.key = some e)
    (hs : Succeeded i d σ) (hQ : ∀ b τ, Processed τ d.scope e → Q (.ok b) {} τ) :
    (discipline env).wp i (recordProcessed d.scope e) Q o σ := by
  refine wp_bind (wp_insertUnique (fun τ m r hl hv hc => ?_) fun τ hl _ => ?_)
  · -- a conflicting row is the event's own record
    simp only [Bool.and_eq_true, beq_iff_eq] at hc
    rw [Own.view_of_none (hrow m)] at hv
    have hp : Processed τ d.scope e := ⟨m, hv.trans (congrArg some (EventProcessed.ext hc.1 hc.2))⟩
    refine wp_bind (wp_rollbackLock fun υ hl' => ⟨fun k _ => locked_release fun s' e' hx => ?_, ?_⟩)
    · obtain ⟨rfl, he⟩ := ((hs.later hl).later hl').only s' _ hx
      rw [hd, Option.some.injEq] at he
      exact he ▸ Rely.processed hl'.rely _ _ hp
    · refine wp_bind (wp_alreadyProcessed (fun _ => rfl) fun ω b hl'' hb => ?_)
      have hpω := Rely.processed hl''.rely _ _ (Rely.processed hl'.rely _ _ hp)
      obtain rfl := hb.2 hpω
      exact wp_pure (hQ false ω hpω)
  · have hf := hl.fresh processed _ (Nat.le_refl _)
    refine wp_bind (wp_commitRecord (n := τ.next processed) (d := d) (fun m v hm => ?_) ?_ hf.1 (Or.inr hkey) hd
      (hs.later (hl.bump processed _)) fun υ hp => wp_pure (hQ true υ hp))
    · rw [Own.take_row, Own.put_row_same, hrow] at hm
      split_ifs at hm with hmn
      · simp only [Option.some.injEq] at hm
        exact ⟨hmn, hm.symm⟩
    · rw [Own.take_row, Own.put_row_self]

/-! ## A delivery -/

/-- what a delivery knows at the end of its dispatch -/
def Ended (i : ℕ) (d : Delivery) (r : Except Exn Unit) (σ : State) : Prop :=
  ∀ e, d.key = some e →
    match r with
    | .ok _ => Processed σ d.scope e
    | .error _ => Clean i .success σ

theorem wp_closing {p : Op Unit} {Q : Except Exn Unit → Held → State → Prop}
    (h : (discipline env).wp i p (fun r o τ => ∀ υ, (discipline env).Later i o τ υ →
      (∀ k, o.key k → Locked env k (some i) υ → Locked env k none υ) ∧ Q r {} υ) o σ) :
    (discipline env).wp i (closing p) Q o σ :=
  wp_andThen (wp_mono h fun _ _ _ hr => wp_andThen (wp_rollbackLock fun υ hl =>
    ⟨(hr υ hl).1, wp_done (hr υ hl).2⟩))

theorem wp_dispatchWithDedup {d : Delivery} {Q : Except Exn Unit → Held → State → Prop} (hq : ∀ m, Clean i m σ)
    (hQ : ∀ r τ, Ended i d r τ → Q r {} τ) : (discipline env).wp i (dispatchWithDedup env d) Q {} σ := by
  unfold dispatchWithDedup
  split
  · next hd =>
    -- a message without an event id is not deduplicated
    refine wp_handler ⟨fun e he => ?_, hq _, hq _, hq _⟩ (fun τ _ _ _ => hQ _ τ ?_) fun x τ _ => hQ _ τ ?_
    · rw [hd] at he; simp at he
    all_goals
      intro e he
      rw [hd] at he
      simp at he
  · next e hd =>
    have hended : ∀ {υ} (a : Unit), Processed υ d.scope e → Ended i d (.ok a) υ := by
      intro υ a hp e' he
      rw [hd, Option.some.injEq] at he
      exact he ▸ hp
    refine wp_closing (wp_bind (wp_lockKey fun τ hl hlock => ?_))
    have hfree : Locked env (env.lock d.scope e) none τ := hlock.resolve_left id
    have hclean : ∀ m, Clean i m τ := fun m => (hq m).later hl
    refine wp_bind (wp_alreadyProcessed (fun _ => rfl) fun υ b hl₁ hb => ?_)
    have hclean₁ : ∀ m, Clean i m υ := fun m => (hclean m).later hl₁
    show (discipline env).wp i (if b = true then _ else _) _ _ υ
    split_ifs with hdone
    · have hp := hb.1 hdone
      refine wp_bind (wp_note (fun ω hl₂ e' he => ?_) fun ω hl₂ => ?_)
      · rw [hd, Option.some.injEq] at he
        subst he
        have hpω := Rely.processed hl₂.rely _ _ hp
        obtain ⟨j, hj⟩ := hl₂.inv.recorded _ _ hpω
        refine ⟨by simp, by simp, by simp, fun _ => ⟨hpω, j, ?_, hj⟩⟩
        rintro rfl
        exact ((hclean₁ .success).later hl₂) _ _ hj
      · have hcl : Clean i .success (logged ω ⟨.skip, i, d.scope, d.key⟩) :=
          ((hclean₁ .success).later hl₂).push (by simp)
        have hpω : Processed (logged ω ⟨.skip, i, d.scope, d.key⟩) d.scope e := Rely.processed hl₂.rely _ _ hp
        refine wp_rollbackLock fun χ hl₃ => ⟨fun k _ => locked_release fun s' e' hx => ?_, fun ψ hl₄ => ⟨?_, ?_⟩⟩
        · exact absurd hx ((hcl.later hl₃) _ _)
        · intro k hk
          simp at hk
        · exact hQ _ ψ (hended () (Rely.processed hl₄.rely _ _ (Rely.processed hl₃.rely _ _ hpω)))
    · -- under the lock every success is recorded, so there is none
      have hnone : ∀ j, ⟨.success, j, d.scope, some e⟩ ∉ υ.ext.log := by
        intro j hj
        have hkey := (Rely.held hl₁.rely d.scope e (Or.inl rfl)).1 j hj
        exact hdone (hb.2 (Rely.processed hl₁.rely _ _ (hfree j d.scope e hkey rfl (by simp))))
      refine wp_bind (wp_handler ⟨fun e' he => ?_, hclean₁ _, hclean₁ _, hclean₁ _⟩ (fun ω _ _ hs => ?_) fun x ω hcl χ hl₂ => ⟨?_, ?_⟩)
      · rw [hd, Option.some.injEq] at he
        exact he ▸ ⟨Or.inl rfl, hnone⟩
      · refine wp_bind (wp_recordProcessed (fun _ => rfl) (Or.inl rfl) hd hs fun b χ hp => wp_pure fun ψ hl₂ => ⟨?_, ?_⟩)
        · intro k hk
          simp at hk
        · exact hQ _ ψ (hended () (Rely.processed hl₂.rely _ _ hp))
      · exact fun k _ => locked_release fun s' e' hx => absurd hx ((hcl.later hl₂) _ _)
      · exact hQ _ χ fun _ _ => hcl.later hl₂

theorem wp_consume {d : Delivery} (hq : ∀ m, Clean i m σ) :
    (discipline env).wp i (consume env d) (fun _ _ _ => True) {} σ := by
  refine wp_andThen (wp_dispatchWithDedup hq fun r τ hr => ?_)
  rcases r with x | a
  · refine wp_note (fun υ hl e he => ⟨by simp, fun _ => ?_, by simp, by simp⟩) fun _ _ => trivial
    exact (Clean.later (hr e he) hl) _ _
  · exact wp_note (fun υ hl e he => ⟨by simp, by simp, fun _ => Rely.processed hl.rely _ _ (hr e he), by simp⟩)
      fun _ _ => trivial

/-! ## Every run -/

/-- the connection of a delivery is not lost between the success of its handler and the record of the event -/
def NoLostRecord (w : World (Stmt Row Key Fx) Store Exn Unit) : Move → Prop
  | .run _ => True
  | .crash i => ∀ s e, ⟨.success, i, s, some e⟩ ∈ w.st.ext.log → Processed w.st.snap s e

theorem inv_empty : Inv (({ ext := {} } : Store).snap) where
  once _ _ := Nat.zero_le _
  recorded s e := by
    rintro ⟨n, hn⟩
    rw [Db.com_empty] at hn
    simp at hn
  acked _ _ _ h := absurd h List.not_mem_nil
  skipped _ _ _ h := absurd h List.not_mem_nil
  failed _ _ _ _ _ h := absurd h List.not_mem_nil

theorem safe_init (env : Env) (deliveries : ℕ → Delivery) :
    (discipline env).protocol.Safe (init env deliveries) :=
  safe_start inv_empty (fun _ _ _ _ h => absurd h List.not_mem_nil) (fun _ => Db.own_empty _)
    fun _ => wp_consume fun _ _ _ h => absurd h List.not_mem_nil

theorem legal_init {deliveries : ℕ → Delivery} {ms : List Move} (h : Along NoLostRecord (init env deliveries) ms) :
    (discipline env).protocol.Legal (init env deliveries) ms := by
  refine (discipline env).protocol.legal_of_along (fun w m hi hm => ?_) (safe_init env deliveries) h
  cases m with
  | run i =>
    simp only [Protocol.stepOk]
    split
    · next c _ _ =>
      cases c with
      | sql c => exact fun _ => trivial
      | fx x => trivial
    · trivial
  | crash i => exact fun k hk => locked_release hm (hk ▸ hi.2 k)

/-- what is known of the deliveries at every moment -/
structure Deduped (σ : State) : Prop where
  /-- within a scope the handler of an event succeeds at most once -/
  once : ∀ s e, (successes σ s e).length ≤ 1
  /-- only a success is recorded: a failed handler leaves the event as it was -/
  recorded : ∀ s e, Processed σ s e → ∃ i, ⟨.success, i, s, some e⟩ ∈ σ.ext.log
  failed : ∀ i s e, ⟨.failure, i, s, some e⟩ ∈ σ.ext.log → ⟨.success, i, s, some e⟩ ∉ σ.ext.log
  /-- an event is skipped only after another delivery of the same scope has succeeded -/
  skipped : ∀ i s e, ⟨.skip, i, s, some e⟩ ∈ σ.ext.log → ∃ j, j ≠ i ∧ ⟨.success, j, s, some e⟩ ∈ σ.ext.log
  /-- no event is acknowledged before it has been processed in its scope -/
  acked : ∀ i s e, ⟨.ack, i, s, some e⟩ ∈ σ.ext.log → ∃ j, ⟨.success, j, s, some e⟩ ∈ σ.ext.log

theorem Inv.deduped (h : Inv σ) : Deduped σ where
  once := h.once
  recorded := h.recorded
  failed i s e := h.failed .failure i s e (Or.inl rfl)
  skipped i s e hx := (h.skipped i s e hx).2
  acked i s e hx := h.recorded s e (h.acked i s e hx)

/-- a delivery that finds the lock of its event free and the event unrecorded calls the handler -/
theorem runs_again {w : World (Stmt Row Key Fx) Store Exn Unit} {d : Delivery} {e : String} (hd : d.key = some e)
    (hp : w.prog i = some (consume env d)) (ho : w.st.own i = {}) (hk : w.st.key (env.lock d.scope e) = none)
    (hn : ¬ Processed w.st.snap d.scope e) :
    ⟨.start, i, d.scope, some e⟩ ∈ (run w [.run i, .run i, .run i]).st.ext.log := by
  obtain ⟨k, hc, k₁, hc₁, k₂, hc₂⟩ : ∃ k, consume env d = .op (.sql (.lockKey (env.lock d.scope e))) k ∧
      ∃ k₁, k () = .op (.sql (.select processed fun _ r => r.scope == d.scope && r.eventId == e)) k₁ ∧
        ∃ k₂, k₁ [] = .op (.fx (.note .start d.scope d.key)) k₂ := by
    unfold consume dispatchWithDedup
    split
    · next hd' => rw [hd] at hd'; simp at hd'
    · next e' hd' =>
      rw [hd, Option.some.injEq] at hd'
      subst hd'
      exact ⟨_, rfl, _, rfl, _, rfl⟩
  have hview : ∀ n r, (w.st.cell processed n).view i = some r → ¬ (r.scope = d.scope ∧ r.eventId = e) := by
    intro n r hr hre
    rw [Db.view_own, ho, Own.view_empty] at hr
    exact hn ⟨n, hr.trans (congrArg some (EventProcessed.ext hre.1 hre.2))⟩
  -- the lock is free, no record is seen, and the handler is called
  have h₁ := step_op (i := i) (s := w.st.takeKey i (env.lock d.scope e)) (b := ()) (hp.trans (congrArg some hc))
    (by simp [Machine.exec, Cmd.exec, Db.keyBusy, hk])
  have h₂ := step_op (w := step w (.run i)) (i := i) (s := w.st.takeKey i (env.lock d.scope e)) (b := []) (c := .sql _)
    (by rw [h₁]; simp only [Function.update_self]; rw [hc₁]) (by
      rw [h₁]
      have hrows : ((w.st.tab processed).rows i).filter (fun q => q.2.scope == d.scope && q.2.eventId == e) = [] := by
        refine List.filter_eq_nil_iff.2 fun q hq hre => ?_
        obtain ⟨n, r⟩ := q
        simp only [Bool.and_eq_true, beq_iff_eq] at hre
        exact hview n r (Table.mem_rows.1 hq) hre
      simp only [Machine.exec, Cmd.exec, Option.some.injEq, Prod.mk.injEq, and_true]
      exact hrows)
  have h₃ := step_op (w := step (step w (.run i)) (.run i)) (i := i) (c := .fx _) (b := ()) (k := k₂)
    (s := { w.st.takeKey i (env.lock d.scope e) with ext := { log := ⟨.start, i, d.scope, d.key⟩ :: w.st.ext.log } })
    (by rw [h₂]; simp only [Function.update_self]; rw [hc₂]) (by rw [h₂]; rfl)
  rw [run_cons, run_cons, run_cons, run_nil, h₃, hd]
  exact List.mem_cons_self

/-- four deliveries of one event: a handler that raises, one that returns, a redelivery, and another scope -/
def demoDeliveries : ℕ → Delivery
  | 0 => ⟨"points", some "e", 1, false⟩
  | 1 => ⟨"points", some "e", 1, true⟩
  | 2 => ⟨"points", some "e", 1, true⟩
  | _ => ⟨"stats", some "e", 1, true⟩

/-- the deliveries of a schedule one after the other -/
def demoMoves (sessions : List ℕ) : List Move := sessions.flatMap fun i => List.replicate 12 (.run i)

theorem along_demoMoves (w : World (Stmt Row Key Fx) Store Exn Unit) (sessions : List ℕ) :
    Along NoLostRecord w (demoMoves sessions) := by
  have hrun : ∀ (ms : List Move) w, (∀ m ∈ ms, ∃ i, m = .run i) → Along NoLostRecord w ms := by
    intro ms
    induction ms with
    | nil => exact fun _ _ => trivial
    | cons m ms ih =>
      intro w hm
      obtain ⟨i, rfl⟩ := hm m List.mem_cons_self
      exact ⟨trivial, ih _ fun m' hm' => hm m' (List.mem_cons_of_mem _ hm')⟩
  refine hrun _ w fun m hm => ?_
  obtain ⟨i, -, hi⟩ := List.mem_flatMap.1 hm
  exact ⟨i, List.eq_of_mem_replicate hi⟩

end LkmService.Worker
