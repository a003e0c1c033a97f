/-
What `update_cas` promises, in every run of sessions that load a row, assign to the object, call and commit.

The row is the work of the committed calls, one after the other; a call that hits raises the version by one, and of the calls with
one expected version at most one is among them. A call that misses writes nothing of its own. It reads the row again into the
object and reports that version, and like every call it writes first what has been assigned to the object (`miss_changes`).

- `Sound`: what one call has done, from the row it has worked on to the object after it.
- `Law`, `compare_and_set`: every committed row is what its history makes of it, and the history is what the sessions have done.
-/
import LkmService.Repository.Model

namespace LkmService.Repository

open Session Sql Sql.Discipline Versions Tbl

variable {Col Val : Type} [DecidableEq Col] [DecidableEq Val]

abbrev State (Col Val : Type) := Snap (Row Col Val) Unit

abbrev Held (Col Val : Type) := Own (Row Col Val) Index

set_option linter.unusedSectionVars false

variable {m : Mapping Col Val} {scripts : ℕ → Script Col Val} {i n : ℕ} {o : Held Col Val} {σ σ₀ τ : State Col Val}
  {r r₀ r' : Record Col Val} {c : Call Col Val} {obj : Obj Col Val} {l l' : List (Edit (Values Col Val))}

/-! ## The law -/

/-- the edits of one author -/
def by_ (i : ℕ) (l : List (Edit (Values Col Val))) : List (Edit (Values Col Val)) := l.filter fun e => decide (e.author = i)

/-- the row is what its history makes of the row at the start -/
def Traced (r₀ r : Record Col Val) : Prop := Made overlay r₀.attrs r.history r.attrs

/-- what a call of session `i` has done; `r₀` is the row at the start -/
structure Sound (m : Mapping Col Val) (r₀ : Record Col Val) (i n : ℕ) (x : Report Col Val) : Prop where
  /-- the object is the row as it has been read again, a row that there has been -/
  fresh : x.after.pending = []
  traced : Traced r₀ x.after.loaded
  /-- a hit: from the version expected to the next, and no column but those named -/
  updated : x.outcome = .updated → ∃ b, Traced r₀ b ∧ x.after.loaded.history = b.history ++ x.edits i ∧
    (∀ v, x.call.expectedVersion = some v → b.attrs.version = v) ∧ x.after.loaded.attrs.version = b.attrs.version + 1 ∧
    ∀ col, (∀ e ∈ x.edits i, e.delta.lookup col = none) → x.after.loaded.attrs.value col = b.attrs.value col
  /-- a miss: the version was not the one expected, and what is reported is the row as it has been read again -/
  conflict : ∀ current, x.outcome = .conflict current → current = m.current n x.after.loaded ∧
    ∃ v b, x.call.expectedVersion = some v ∧ Traced r₀ b ∧ b.history <+: x.after.loaded.history ∧ b.attrs.version ≠ v

/-- a call that expects the version has hit -/
def Report.hits (v : ℕ) (x : Report Col Val) : Bool :=
  match x.outcome with
  | .updated => decide (x.call.expectedVersion = some v)
  | .conflict _ => false

/-- the committed state after a schedule -/
def after (m : Mapping Col Val) (d : Store Col Val) (scripts : ℕ → Script Col Val) (ms : List Move) : State Col Val :=
  (run (init m d scripts) ms).st.snap

/-- how a session has ended -/
def answers (m : Mapping Col Val) (d : Store Col Val) (scripts : ℕ → Script Col Val) (ms : List Move) (i : ℕ) :
    Option (Except Exn (Answer Col Val)) := (run (init m d scripts) ms).answer i

/-- no transaction is open, and no row has been written yet -/
structure Starts (d : Store Col Val) : Prop where
  own : ∀ i, d.own i = {}
  unwritten : ∀ n r, d.snap.com rows n = some r → r.history = []

/-- what a session that has committed has done -/
structure Done (m : Mapping Col Val) (σ₀ σ : State Col Val) (i : ℕ) (s : Script Col Val) (answer : Answer Col Val)
    (r₀ r : Record Col Val) : Prop where
  start : σ₀.com rows s.row = some r₀
  row : σ.com rows s.row = some r
  /-- its part of the history is what its calls and flushes have written, in their order -/
  edits : by_ i r.history = s.edits i answer
  reports : ∀ x ∈ answer.reports, Sound m r₀ i s.row x ∧ x.after.loaded.history <+: r.history

structure Law (m : Mapping Col Val) (d : Store Col Val) (scripts : ℕ → Script Col Val) (ms : List Move) : Prop where
  rows : ∀ n r, (after m d scripts ms).com rows n = some r → ∃ r₀, d.snap.com rows n = some r₀ ∧ Traced r₀ r ∧
    r.attrs.version = r₀.attrs.version + r.history.countP Edit.raises
  sessions : ∀ i answer, answers m d scripts ms i = some (.ok answer) →
    ∃ r₀ r, Done m d.snap (after m d scripts ms) i (scripts i) answer r₀ r
  /-- of the calls that expect one version at most one hits, in one session … -/
  one : ∀ i answer v, answers m d scripts ms i = some (.ok answer) → answer.reports.countP (Report.hits v) ≤ 1
  /-- … and in two -/
  other : ∀ i j answer answer' v, answers m d scripts ms i = some (.ok answer) → answers m d scripts ms j = some (.ok answer') →
    i ≠ j → (scripts i).row = (scripts j).row → 0 < answer.reports.countP (Report.hits v) →
    answer'.reports.countP (Report.hits v) = 0

/-! ## The discipline -/

/-- a row stays, its history grows, and nobody else writes in the name of session `i` -/
def Grows (i : ℕ) (σ τ : State Col Val) : Prop :=
  ∀ n r, σ.com rows n = some r → ∃ r', τ.com rows n = some r' ∧ r.history <+: r'.history ∧ by_ i r'.history = by_ i r.history

theorem Grows.trans {υ : State Col Val} (h : Grows i σ τ) (h' : Grows i τ υ) : Grows i σ υ := by
  intro n r hr
  obtain ⟨r', hr', hpre, hby⟩ := h n r hr
  obtain ⟨r'', hr'', hpre', hby'⟩ := h' n r' hr'
  exact ⟨r'', hr'', hpre.trans hpre', hby'.trans hby⟩

theorem Grows.refl (i : ℕ) (σ : State Col Val) : Grows i σ σ := fun _ r hr => ⟨r, hr, List.prefix_rfl, rfl⟩

def discipline (σ₀ : State Col Val) : Discipline (Row Col Val) Index (NoFx Unit) Unit where
  inv σ := ∀ n r, σ.com rows n = some r → ∃ r₀, σ₀.com rows n = some r₀ ∧ Traced r₀ r
  rely i _ := Grows i
  act _ _ _ := True
  ok _ x _ _ := nomatch x
  rely_refl i _ := Grows.refl i
  rely_trans _ _ _ _ _ := Grows.trans
  act_refl _ _ _ := trivial
  grow_inv _ _ _ h := h
  grow_act _ _ _ _ _ := trivial
  grow_rely i _ σ _ _ _ := Grows.refl i σ

instance : Lockless (discipline σ₀) := ⟨fun _ _ _ => trivial⟩

/-! ## What a session has written -/

/-- session `i` sees row `n` as `r`, and `l` is what it has written of it -/
structure Stage (σ₀ : State Col Val) (r₀ : Record Col Val) (i n : ℕ) (l : List (Edit (Values Col Val))) (r : Record Col Val)
    (o : Held Col Val) (σ : State Col Val) : Prop where
  start : σ₀.com rows n = some r₀
  own : o = {} ∨ o = ({} : Held Col Val).put rows n (some r)
  view : o.view σ rows n = some r
  traced : Traced r₀ r
  mine : by_ i r.history = l
  /-- what the others have written is committed -/
  base : ∃ b, σ.com rows n = some b ∧ b.history <+: r.history ∧ ∀ j, j ≠ i → by_ j r.history = by_ j b.history

/-- while the session has written nothing the row may be written by others -/
theorem Stage.later (h : Stage σ₀ r₀ i n l r o σ) (hl : (discipline σ₀).Later i o σ τ) :
    ∃ r', Stage σ₀ r₀ i n l r' o τ ∧ r.history <+: r'.history := by
  obtain ⟨b, hb, hpre, hby⟩ := h.base
  rcases h.own with ho | ho
  · subst ho
    obtain ⟨r', hr', hgrow, hmine⟩ := hl.rely n r h.view
    obtain ⟨r₁, hstart, htraced⟩ := hl.inv n r' hr'
    obtain rfl : r₁ = r₀ := Option.some.inj (hstart.symm.trans h.start)
    exact ⟨r', ⟨hstart, .inl rfl, hr', htraced, hmine.trans h.mine, r', hr', List.prefix_rfl, fun _ _ => rfl⟩, hgrow⟩
  · have hcom : τ.com rows n = σ.com rows n := hl.com rows n (by rw [ho]; simp)
    have hview : o.view τ rows n = some r := Own.view_of_row (by rw [ho]; simp)
    exact ⟨r, ⟨h.start, .inr ho, hview, h.traced, h.mine, b, hcom.trans hb, hpre, hby⟩, List.prefix_rfl⟩

theorem by_append (i : ℕ) (l l' : List (Edit (Values Col Val))) : by_ i (l ++ l') = by_ i l ++ by_ i l' := List.filter_append ..

/-- the row with one more edit of the session -/
theorem Stage.write (h : Stage σ₀ r₀ i n l r o σ) {e : Edit (Values Col Val)} (hauthor : e.author = i)
    (hmeets : e.meets r.attrs.version) : Stage σ₀ r₀ i n (l ++ [e]) (r.write e) (o.put rows n (some (r.write e))) σ := by
  obtain ⟨b, hb, hpre, hby⟩ := h.base
  have hown : o.put rows n (some (r.write e)) = ({} : Held Col Val).put rows n (some (r.write e)) := by
    rcases h.own with ho | ho
    · rw [ho]
    · rw [ho, Own.put_put]
  refine ⟨h.start, .inr hown, Own.view_of_row (by simp), h.traced.snoc e hmeets, ?_, b, hb, ?_, fun j hj => ?_⟩
  · change by_ i (r.history ++ [e]) = l ++ [e]
    rw [by_append, h.mine]
    simp [by_, hauthor]
  · exact hpre.trans (List.prefix_append _ _)
  · change by_ j (r.history ++ [e]) = _
    rw [by_append, hby j hj]
    simp [by_, hauthor, hj.symm]

/-- what the commit of the session adds -/
theorem Stage.good (h : Stage σ₀ r₀ i n l r o σ) (hinv : (discipline σ₀).inv σ) : (discipline σ₀).Good i o σ (σ.merge o) := by
  obtain ⟨b, hb, hpre, hby⟩ := h.base
  rcases h.own with ho | ho
  · subst ho
    exact ⟨hinv, trivial, fun j _ _ _ => Grows.refl j σ⟩
  · have hcom : ∀ k, (σ.merge o).com rows k = if k = n then some r else σ.com rows k := by
      intro k
      rw [ho, Snap.merge_put_self, Function.update_apply]
      rfl
    refine ⟨fun k r' hr' => ?_, trivial, fun j hj o' hd k r' hr' => ?_⟩
    · rw [hcom] at hr'
      split_ifs at hr' with hk
      · obtain rfl := Option.some.inj hr'
        exact ⟨r₀, hk ▸ h.start, h.traced⟩
      · exact hinv k r' hr'
    · rw [hcom]
      split_ifs with hk
      · subst hk
        obtain rfl : b = r' := Option.some.inj (hb.symm.trans hr')
        exact ⟨r, rfl, hpre, hby j hj⟩
      · exact ⟨r', hr', List.prefix_rfl, rfl⟩

/-- the row that the session holds -/
theorem Stage.held (h : Stage σ₀ r₀ i n l r o σ) (ho : o.row rows n = some (some r)) (hl : (discipline σ₀).Later i o σ τ) :
    Stage σ₀ r₀ i n l r o τ := by
  obtain ⟨r', h', -⟩ := h.later hl
  have hview : o.view τ rows n = some r := Own.view_of_row ho
  obtain rfl : r' = r := Option.some.inj (h'.view.symm.trans hview)
  exact h'

/-! ## Several edits of one row -/

def Record.writeAll (r : Record Col Val) (l : List (Edit (Values Col Val))) : Record Col Val := l.foldl (fun r e => r.write e) r

theorem writeAll_history : (r.writeAll l).history = r.history ++ l := by
  induction l generalizing r with
  | nil => simp [Record.writeAll]
  | cons e l ih =>
    change ((r.write e).writeAll l).history = _
    rw [ih]
    simp [Record.write]

theorem writeAll_version : (r.writeAll l).attrs.version = r.attrs.version + l.countP Edit.raises := by
  induction l generalizing r with
  | nil => rfl
  | cons e l ih =>
    change ((r.write e).writeAll l).attrs.version = _
    rw [ih, List.countP_cons]
    simp only [Record.write, Edit.apply]
    omega

/-- a column that no edit names -/
theorem writeAll_value {col : Col} (h : ∀ e ∈ l, e.delta.lookup col = none) :
    (r.writeAll l).attrs.value col = r.attrs.value col := by
  induction l generalizing r with
  | nil => rfl
  | cons e l ih =>
    change ((r.write e).writeAll l).attrs.value col = _
    rw [ih fun e' he' => h e' (List.mem_cons_of_mem _ he')]
    simp [Record.write, Edit.apply, overlay, h e List.mem_cons_self]

theorem flushed_cases (i : ℕ) (obj : Obj Col Val) (stamp : Values Col Val) :
    flushed i obj stamp = [] ∨ ∃ e, flushed i obj stamp = [e] ∧ e.author = i ∧ e.kind = .plain := by
  unfold flushed
  split_ifs
  · exact .inl rfl
  · exact .inr ⟨_, rfl, rfl, rfl⟩

theorem flushed_raises (i : ℕ) (obj : Obj Col Val) (stamp : Values Col Val) : (flushed i obj stamp).countP Edit.raises = 0 := by
  rcases flushed_cases i obj stamp with h | ⟨e, h, -, hkind⟩
  · rw [h]
    rfl
  · simp [h, Edit.raises, hkind]

theorem flushed_expects (i : ℕ) (obj : Obj Col Val) (stamp : Values Col Val) (v : ℕ) :
    (flushed i obj stamp).countP (Edit.expects v) = 0 := by
  rcases flushed_cases i obj stamp with h | ⟨e, h, -, hkind⟩
  · rw [h]
    rfl
  · simp [h, Edit.expects, hkind]

/-! ## The statements of a call -/

/-- the row of a SELECT by the primary key -/
theorem rowOf_wp {α : Type} {f : Option (Record Col Val) → Op Col Val α} {P : α → Held Col Val → State Col Val → Prop}
    (h : ∀ τ, (discipline σ₀).Later i o σ τ → (discipline σ₀).wp i (f (o.view τ rows n)) (Returns P) o τ) :
    (discipline σ₀).wp i (rowOf n >>= f) (Returns P) o σ := by
  rw [rowOf, Prog.bind_assoc]
  refine wp_selectHead (f := fun q => f (q.map Prod.snd)) (fun τ hl hnone => ?_) fun τ k r hl hv hk => ?_
  · have hview : o.view τ rows n = none := by
      rcases hv : o.view τ rows n with _ | r
      · rfl
      · have := hnone n r hv
        simp at this
    have hwp := h τ hl
    rwa [hview] at hwp
  · obtain rfl : k = n := of_decide_eq_true hk
    have hwp := h τ hl
    rwa [hv] at hwp

/-- what a flush leaves of the row that it finds -/
theorem flush_spec {stamp : Values Col Val} (h : Stage σ₀ r₀ i n l r o σ) :
    (discipline σ₀).wp i (flush i n obj stamp) (Returns fun _ o' τ => ∃ b, Stage σ₀ r₀ i n (l ++ flushed i obj stamp)
      (b.writeAll (flushed i obj stamp)) o' τ ∧ r.history <+: b.history ∧ (o.row rows n = some (some r) →
      b = r ∧ o'.row rows n = some (some (b.writeAll (flushed i obj stamp))))) o σ := by
  unfold flush
  rcases flushed_cases i obj stamp with hnone | ⟨e, hone, hauthor, hkind⟩
  · rw [hnone]
    refine wp_return ⟨r, ?_, List.prefix_rfl, fun ho => ⟨rfl, ho⟩⟩
    rw [List.append_nil]
    exact h
  · rw [hone]
    refine wp_bind (wp_updateRow (fun τ _ hmiss => wp_fail _) fun τ b hl hview _ => wp_return ?_)
    have hmeets : e.meets b.attrs.version := fun v hv => by simp [Edit.expects, hkind] at hv
    obtain ⟨b', h', hpre⟩ := h.later hl
    obtain rfl : b' = b := Option.some.inj (h'.view.symm.trans hview)
    refine ⟨b', h'.write hauthor hmeets, hpre, fun ho => ⟨?_, by simp [Record.writeAll]⟩⟩
    exact Option.some.inj (h'.view.symm.trans ((h.held ho hl).view))

/-- the edit of a call meets the version that the UPDATE has compared -/
theorem meets_iff {v : ℕ} : (c.edit i).meets v ↔ ∀ w, c.expectedVersion = some w → v = w := by
  simp [Edit.meets, Edit.expects, Call.edit]

theorem not_meets (h : (c.expectedVersion.all fun v => decide (r.attrs.version = v)) = false) :
    ∃ v, c.expectedVersion = some v ∧ r.attrs.version ≠ v := by
  rcases he : c.expectedVersion with _ | v
  · simp [he] at h
  · refine ⟨v, rfl, ?_⟩
    simpa [he] using h

/-- the report of a call -/
abbrev report (c : Call Col Val) (obj : Obj Col Val) (q : Outcome Col Val × Obj Col Val) : Report Col Val :=
  { call := c, before := obj, outcome := q.1, after := q.2 }

/-- a hit, from the row `b`; the flush writes over it, and the row is read again -/
theorem sound_hit {b : Record Col Val} (hb : Traced r₀ b) (hmeets : (c.edit i).meets b.attrs.version)
    (hr : r = b.writeAll (c.edit i :: flushed i obj c.flushStamp)) (hr₀ : Traced r₀ r) :
    Sound m r₀ i n (report c obj (.updated, { loaded := r })) where
  fresh := rfl
  traced := hr₀
  updated _ := by
    refine ⟨b, hb, ?_, meets_iff.1 hmeets, ?_, fun col hcol => ?_⟩
    · rw [hr]
      exact writeAll_history
    · rw [hr, writeAll_version, List.countP_cons, flushed_raises]
      rfl
    · rw [hr]
      exact writeAll_value hcol
  conflict _ h := nomatch h

/-- a miss of the row `b`; the row is read again as `r` -/
theorem sound_miss {b : Record Col Val} (hb : Traced r₀ b)
    (hmiss : (c.expectedVersion.all fun v => decide (b.attrs.version = v)) = false) (hpre : b.history <+: r.history)
    (hr₀ : Traced r₀ r) : Sound m r₀ i n (report c obj (.conflict (m.current n r), { loaded := r })) where
  fresh := rfl
  traced := hr₀
  updated h := nomatch h
  conflict current h := by
    obtain ⟨v, hv, hne⟩ := not_meets hmiss
    exact ⟨(Outcome.conflict.inj h).symm, v, b, hv, hb, hpre, hne⟩

theorem versionSnapshot_spec (h : Stage σ₀ r₀ i n l r o σ) :
    (discipline σ₀).wp i (versionSnapshot m n obj) (Returns fun q o' τ => ∃ r', q = (m.current n r', { loaded := r' }) ∧
      Stage σ₀ r₀ i n l r' o' τ ∧ r.history <+: r'.history) o σ := by
  refine rowOf_wp fun τ hl => ?_
  obtain ⟨r', h', hpre⟩ := h.later hl
  rw [h'.view]
  exact wp_return ⟨r', rfl, h', hpre⟩

theorem refresh_spec (h : Stage σ₀ r₀ i n l r o σ) (ho : o.row rows n = some (some r)) :
    (discipline σ₀).wp i (refresh n) (Returns fun obj' o' τ => obj' = { loaded := r } ∧ Stage σ₀ r₀ i n l r o' τ) o σ := by
  refine rowOf_wp fun τ hl => ?_
  have h' := h.held ho hl
  rw [h'.view]
  exact wp_return ⟨rfl, h'⟩

/-- **One call.** -/
theorem updateCas_spec (h : Stage σ₀ r₀ i n l r o σ) :
    (discipline σ₀).wp i (updateCas m i n obj c) (Returns fun q o' τ => ∃ r', q.2 = { loaded := r' } ∧
      Stage σ₀ r₀ i n (l ++ (report c obj q).edits i) r' o' τ ∧ r.history <+: r'.history ∧
      Sound m r₀ i n (report c obj q)) o σ := by
  have hflushed : flushed i { obj with loaded := m.synchronize c obj.loaded } c.flushStamp = flushed i obj c.flushStamp := rfl
  refine wp_bind (wp_updateRow (fun τ hl hmiss => ?_) fun τ b hl hview hmeets => ?_)
  · obtain ⟨b, hb, hpre⟩ := h.later hl
    refine wp_seq (flush_spec hb) fun _ o' υ ⟨r₁, h₁, hpre₁, _⟩ => ?_
    rw [hflushed] at h₁
    refine wp_seq (versionSnapshot_spec h₁) fun q o'' ω ⟨r', hq, h', hpre'⟩ => wp_return ?_
    subst hq
    have hgrow : b.history <+: r'.history := by
      refine hpre₁.trans (List.IsPrefix.trans ?_ hpre')
      rw [writeAll_history]
      exact List.prefix_append _ _
    exact ⟨r', rfl, h', hpre.trans hgrow, sound_miss hb.traced (hmiss b hb.view) hgrow h'.traced⟩
  · obtain ⟨b', hb, hpre⟩ := h.later hl
    obtain rfl : b' = b := Option.some.inj (hb.view.symm.trans hview)
    have hedit : (c.edit i).meets b'.attrs.version := by
      rw [meets_iff]
      intro w hw
      simpa [hw] using hmeets
    have hwrite := hb.write rfl hedit
    refine wp_seq (flush_spec hwrite) fun _ o' υ ⟨r₁, h₁, _, hheld⟩ => ?_
    obtain ⟨rfl, hown⟩ := hheld (by simp)
    rw [hflushed] at h₁ hown
    refine wp_seq (refresh_spec h₁ hown) fun obj' o'' ω ⟨hobj, h'⟩ => wp_return ?_
    subst hobj
    refine ⟨_, rfl, ?_, ?_, sound_hit hb.traced hedit rfl h'.traced⟩
    · simpa [Report.edits] using h'
    · rw [writeAll_history]
      exact hpre.trans ((List.prefix_append _ _).trans (List.prefix_append _ _))

/-! ## Sessions -/

theorem perform_spec (actions : List (Action Col Val)) (h : Stage σ₀ r₀ i n l r o σ) :
    (discipline σ₀).wp i (perform m i n actions obj) (Returns fun answer o' τ => ∃ r',
      Stage σ₀ r₀ i n (l ++ answer.reports.flatMap (Report.edits i)) r' o' τ ∧ r.history <+: r'.history ∧
      ∀ x ∈ answer.reports, Sound m r₀ i n x ∧ x.after.loaded.history <+: r'.history) o σ := by
  induction actions generalizing obj l r o σ with
  | nil =>
    refine wp_return ⟨r, ?_, List.prefix_rfl, fun x hx => absurd hx List.not_mem_nil⟩
    simpa using h
  | cons action actions ih =>
    cases action with
    | assign c v => exact ih h
    | call c =>
      refine wp_seq (updateCas_spec h) fun q o' τ ⟨r₁, hq, h₁, hpre₁, hsound⟩ => ?_
      refine wp_seq (ih h₁) fun answer o'' υ ⟨r', h', hpre', hreports⟩ => wp_return ?_
      refine ⟨r', by simpa using h', hpre₁.trans hpre', fun x hx => ?_⟩
      rcases List.mem_cons.1 hx with rfl | hx
      · refine ⟨hsound, ?_⟩
        rw [hq]
        exact hpre'
      · exact hreports x hx

theorem body_spec (s : Script Col Val) (hclean : ∀ n r, σ₀.com rows n = some r → r.history = []) :
    (discipline σ₀).wp i (s.body m i) (Returns fun answer o' τ => ∃ r₀ r', Stage σ₀ r₀ i s.row (s.edits i answer) r' o' τ ∧
      ∀ x ∈ answer.reports, Sound m r₀ i s.row x ∧ x.after.loaded.history <+: r'.history) {} σ₀ := by
  have hload : (discipline σ₀).wp i (getOrRaise s.row) (Returns fun _ o' τ => ∃ r₀ r, Stage σ₀ r₀ i s.row [] r o' τ) {} σ₀ := by
    refine rowOf_wp fun τ hl => ?_
    rcases hv : ({} : Held Col Val).view τ rows s.row with _ | r
    · exact wp_fail _
    · obtain ⟨r₀, hstart, htraced⟩ := hl.inv s.row r hv
      obtain ⟨r', hr', -, hmine⟩ := hl.rely s.row r₀ hstart
      obtain rfl : r' = r := Option.some.inj (hr'.symm.trans hv)
      rw [hclean s.row r₀ hstart] at hmine
      exact wp_return ⟨r₀, r', hstart, .inl rfl, hv, htraced, hmine, r', hv, List.prefix_rfl, fun _ _ => rfl⟩
  refine wp_seq hload fun obj o τ ⟨r₀, r, h⟩ => ?_
  refine wp_seq (perform_spec s.actions h) fun answer o' υ ⟨r₁, h₁, _, hreports⟩ => ?_
  refine wp_seq (flush_spec h₁) fun _ o'' ω ⟨b, h', hpre, _⟩ => ?_
  split_ifs
  · exact wp_fail _
  · refine wp_return ⟨r₀, _, by simpa [Script.edits] using h', fun x hx => ⟨(hreports x hx).1, ?_⟩⟩
    rw [writeAll_history]
    exact (hreports x hx).2.trans (hpre.trans (List.prefix_append _ _))

/-- what is known of a session that has ended -/
def Ended (m : Mapping Col Val) (σ₀ : State Col Val) (i : ℕ) (s : Script Col Val) :
    Except Exn (Answer Col Val) → Held Col Val → State Col Val → Prop :=
  Returns fun answer _ σ => ∃ r₀ r, Done m σ₀ σ i s answer r₀ r

theorem prog_spec (s : Script Col Val) (hclean : ∀ n r, σ₀.com rows n = some r → r.history = []) :
    (discipline σ₀).wp i (s.prog m i) (Ended m σ₀ i s) {} σ₀ := by
  refine wp_transactionEnds (body_spec s hclean) (fun answer o τ ⟨r₀, r, h, hreports⟩ υ hl _ => ?_) fun _ _ => trivial
  obtain ⟨r', h', hpre⟩ := h.later hl
  refine ⟨h'.good hl.inv, r₀, r', h'.start, ?_, h'.mine, fun x hx => ⟨(hreports x hx).1, (hreports x hx).2.trans hpre⟩⟩
  exact h'.view

/-! ## Runs -/

variable {d : Store Col Val}

theorem Starts.inv (h : Starts d) : (discipline d.snap).inv d.snap := by
  intro n r hr
  refine ⟨r, hr, ?_⟩
  rw [Traced, h.unwritten n r hr]
  exact .nil

theorem safe_init (h : Starts d) (scripts : ℕ → Script Col Val) : (discipline d.snap).protocol.Safe (init m d scripts) :=
  safe_start h.inv (fun _ => trivial) h.own fun i => wp_mono (prog_spec (scripts i) h.unwritten) fun _ _ _ _ => trivial

theorem legal_init (scripts : ℕ → Script Col Val) (ms : List Move) :
    (discipline d.snap).protocol.Legal (init m d scripts) ms :=
  legal_of_ok (fun _ x _ _ => nomatch x) (fun _ _ _ => trivial) _ _

/-- a session that has answered has done what it says, whatever the others have done since -/
theorem done_of_answer (h : Starts d) (ms : List Move) {answer : Answer Col Val}
    (ha : answers m d scripts ms i = some (.ok answer)) :
    ∃ r₀ r, Done m d.snap (after m d scripts ms) i (scripts i) answer r₀ r := by
  refine (discipline d.snap).protocol.run_result (i := i)
    (Q := fun q (e : Store Col Val) => Ended m d.snap i (scripts i) q (e.own i) e.snap)
    (fun q e f hq hrely => ?_) (safe_init h scripts) (legal_init scripts ms) rfl
    (prog_spec (scripts i) h.unwritten d (h.own i) rfl) ha
  cases q with
  | error x => trivial
  | ok a =>
    obtain ⟨r₀, r, hdone⟩ := hq
    obtain ⟨r', hr', hpre, hby⟩ := hrely.2.2 _ r hdone.row
    exact ⟨r₀, r', hdone.start, hr', hby.trans hdone.edits,
      fun x hx => ⟨(hdone.reports x hx).1, (hdone.reports x hx).2.trans hpre⟩⟩

/-! ## One hit for a version -/

theorem report_expects (x : Report Col Val) (v : ℕ) :
    (x.edits i).countP (Edit.expects v) = if x.hits v = true then 1 else 0 := by
  obtain ⟨call, before, outcome, after⟩ := x
  cases outcome with
  | updated => simp [Report.edits, Report.hits, List.countP_cons, flushed_expects, Edit.expects, Call.edit]
  | conflict current => simp [Report.edits, Report.hits, flushed_expects]

/-- the edits of a session that expect a version are those of its hits -/
theorem countP_edits (s : Script Col Val) (answer : Answer Col Val) (v : ℕ) :
    (s.edits i answer).countP (Edit.expects v) = answer.reports.countP (Report.hits v) := by
  rw [Script.edits, List.countP_append, flushed_expects, Nat.add_zero]
  induction answer.reports with
  | nil => rfl
  | cons x reports ih =>
    rw [List.flatMap_cons, List.countP_append, ih, report_expects, List.countP_cons]
    omega

/-- two authors share no edit -/
theorem countP_by {i j : ℕ} (hij : i ≠ j) (p : Edit (Values Col Val) → Bool) (l : List (Edit (Values Col Val))) :
    (by_ i l).countP p + (by_ j l).countP p ≤ l.countP p := by
  have hsub : List.Sublist (by_ j l) (l.filter fun e => !decide (e.author = i)) := by
    have hfilter : by_ j l = by_ j (l.filter fun e => !decide (e.author = i)) := by
      rw [by_, by_, List.filter_filter]
      refine List.filter_congr fun e _ => ?_
      by_cases hj : e.author = j
      · simp [hj, hij.symm]
      · simp [hj]
    rw [hfilter]
    exact List.filter_sublist
  rw [List.countP_eq_countP_filter_add l p fun e => decide (e.author = i)]
  exact Nat.add_le_add_left hsub.countP_le _

/-- **Compare and set.** -/
theorem compare_and_set (m : Mapping Col Val) (d : Store Col Val) (scripts : ℕ → Script Col Val) (ms : List Move) (h : Starts d) :
    Law m d scripts ms := by
  have hrows : ∀ n r, (after m d scripts ms).com rows n = some r → ∃ r₀, d.snap.com rows n = some r₀ ∧ Traced r₀ r :=
    ((discipline d.snap).protocol.run_inv (safe_init h scripts) (legal_init scripts ms)).1
  refine ⟨fun n r hr => ?_, fun i answer ha => done_of_answer h ms ha, fun i answer v ha => ?_,
    fun i j answer answer' v ha ha' hij hrow hpos => ?_⟩
  · obtain ⟨r₀, hr₀, htraced⟩ := hrows n r hr
    exact ⟨r₀, hr₀, htraced, htraced.version⟩
  · obtain ⟨r₀, r, hdone⟩ := done_of_answer h ms ha
    obtain ⟨_, -, htraced⟩ := hrows _ r hdone.row
    calc answer.reports.countP (Report.hits v) = (by_ i r.history).countP (Edit.expects v) := by
          rw [hdone.edits, countP_edits]
      _ ≤ r.history.countP (Edit.expects v) := List.filter_sublist.countP_le
      _ ≤ 1 := htraced.at_most_one v
  · obtain ⟨r₀, r, hdone⟩ := done_of_answer h ms ha
    obtain ⟨r₀', r', hdone'⟩ := done_of_answer h ms ha'
    obtain rfl : r = r' := Option.some.inj (hdone.row.symm.trans (hrow ▸ hdone'.row))
    obtain ⟨_, -, htraced⟩ := hrows _ r hdone.row
    have hsum := (countP_by hij (Edit.expects v) r.history).trans (htraced.at_most_one v)
    rw [hdone.edits, hdone'.edits, countP_edits, countP_edits] at hsum
    omega

/-! ## Runs on one row -/

inductive Field where
  | title | slug
deriving DecidableEq

def demoMapping : Mapping Field ℕ where
  versionSnapshotFields := [.slug, .title]
  jsonable v := v
  synchronize _ r := r

def demo : Store Field ℕ := { tab := fun _ => Table.ofList [{ attrs := { version := 1, value := fun _ => 0 } }], ext := () }

theorem starts_demo : Starts demo := by
  refine ⟨fun i => Own.ext rfl (funext fun k => nomatch k), fun n r hr => ?_⟩
  have hr' : [({ attrs := { version := 1, value := fun _ => 0 } } : Record Field ℕ)][n]? = some r := hr
  obtain rfl := List.mem_singleton.1 (List.mem_of_getElem? hr')
  rfl

/-- a new title for version 1; the same from another session, which has a new slug unwritten or not; and one for any version -/
def demoScripts : ℕ → Script Field ℕ
  | 0 => { row := 0, actions := [.call { expectedVersion := some 1, values := [(.title, 10)] }] }
  | 1 => { row := 0, actions := [.call { expectedVersion := some 1, values := [(.title, 20)] }] }
  | 2 => { row := 0, actions := [.assign .slug 7, .call { expectedVersion := some 1, values := [(.title, 20)] }] }
  | _ => { row := 0, actions := [.call { expectedVersion := none, values := [(.slug, 30)] }] }

/-- all load version 1; the first session commits before the others call -/
def demoMoves : List Move :=
  moves 1 1 ++ moves 2 1 ++ moves 3 1 ++ moves 0 4 ++ moves 1 3 ++ moves 2 4 ++ moves 3 3

/-- a call of a session that has missed -/
def missed (p : Report Field ℕ → Bool) (q : Option (Except Exn (Answer Field ℕ))) : Bool :=
  match q with
  | some (.ok answer) => answer.reports.any fun x => decide (x.outcome ≠ .updated) && p x
  | _ => false

/-- a miss leaves the object -/
def ObjectStays (m : Mapping Field ℕ) (d : Store Field ℕ) (scripts : ℕ → Script Field ℕ) (ms : List Move) : Prop :=
  ∀ i answer, answers m d scripts ms i = some (.ok answer) → ∀ x ∈ answer.reports, x.outcome ≠ .updated →
    x.after.loaded.attrs = x.before.loaded.attrs ∧ x.after.pending = x.before.pending

/-- a miss writes nothing -/
def RowStays (m : Mapping Field ℕ) (d : Store Field ℕ) (scripts : ℕ → Script Field ℕ) (ms : List Move) : Prop :=
  ∀ i answer, answers m d scripts ms i = some (.ok answer) → ∀ x ∈ answer.reports, x.outcome ≠ .updated → x.edits i = []

theorem exists_missed {p : Report Field ℕ → Bool} {q : Option (Except Exn (Answer Field ℕ))} (h : missed p q = true) :
    ∃ answer, q = some (.ok answer) ∧ ∃ x ∈ answer.reports, x.outcome ≠ .updated ∧ p x = true := by
  unfold missed at h
  split at h
  · next answer =>
    obtain ⟨x, hx, hp⟩ := List.any_eq_true.1 h
    simp only [Bool.and_eq_true, decide_eq_true_eq] at hp
    exact ⟨answer, rfl, x, hx, hp⟩
  · cases h

/-- a miss reads the new version into the object, and writes the slug assigned before -/
theorem miss_changes : Starts demo ∧ ¬ ObjectStays demoMapping demo demoScripts demoMoves ∧
    ¬ RowStays demoMapping demo demoScripts demoMoves := by
  refine ⟨starts_demo, fun hstays => ?_, fun hstays => ?_⟩
  · obtain ⟨answer, ha, x, hx, hmiss, hp⟩ := exists_missed
      (p := fun x => decide (x.after.loaded.attrs.version ≠ x.before.loaded.attrs.version))
      (q := answers demoMapping demo demoScripts demoMoves 1) (by decide)
    rw [(hstays 1 answer ha x hx hmiss).1] at hp
    simp at hp
  · obtain ⟨answer, ha, x, hx, hmiss, hp⟩ := exists_missed (p := fun x => !(x.edits 2).isEmpty)
      (q := answers demoMapping demo demoScripts demoMoves 2) (by decide)
    rw [hstays 2 answer ha x hx hmiss] at hp
    simp at hp

/-- version 1 is hit once, and the call for any version adds its slug to the title -/
theorem compare_and_set_demo :
    ((after demoMapping demo demoScripts demoMoves).com rows 0).map (fun r =>
      (r.attrs.version, r.attrs.value .title, r.attrs.value .slug)) = some (3, 10, 30) ∧
    Law demoMapping demo demoScripts demoMoves :=
  ⟨by decide, compare_and_set demoMapping demo demoScripts demoMoves starts_demo⟩

end LkmService.Repository
