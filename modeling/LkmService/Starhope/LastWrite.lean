/-
The last write wins, as long as no push works on rows that have changed since it read them.

- `Cmd.sound`: what a statement of a push has to find.
- `last_write_wins`: in a run of sound steps every entity is what the newest of its committed writes says, no push raises
  and no row is replaced by an older one.
- `older_write_wins`: runs in which one step is not sound.
-/
import LkmService.Starhope.Merge

namespace LkmService.Starhope

open Session Session.Protocol Sql

set_option linter.unusedSectionVars false

variable {Col Val : Type} [Fintype Col] [DecidableEq Val]

/-! ## The condition -/

/-- what the statement has to find, unless it has to wait:
- the batch is not mixed on the rows that a push finds;
- an UPDATE finds no newer row, and the columns that it leaves alone as they were loaded;
- an INSERT finds the id free;
- a COMMIT leaves no row older than a delete that has found no row. -/
def Cmd.sound (requests : ℕ → Request Col Val) (i : ℕ) {β : Type} (cmd : Cmd Col Val β) (s : Store Col Val) : Bool :=
  match cmd with
  | .selectByIds user ids =>
    match requests i with
    | .push p =>
      match stage p with
      | .ok (upserts, deletes) => !mixed (fun id => if id ∈ ids then s.rowOf i user id else none) deletes [] upserts
      | .error _ => true
    | _ => true
  | .update id loaded o =>
    (s.cell id).busy i || ((s.cell id).view i).all fun c =>
      decide (c.version.1 ≤ o.version.1) && decide (∀ k, o.values k = loaded.values k → c.values k = loaded.values k) &&
        decide (o.deletedAt = loaded.deletedAt.map .utc → c.deletedAt = loaded.deletedAt)
  | .insert _ id _ => (s.cell id).busy i || ((s.cell id).view i).isNone
  | .commit _ missed => (s.missed ++ missed).all fun x => (s.rowOf i x.user x.id).all fun r => decide (x.time ≤ r.version.1)
  | _ => true

/-! ## The invariant -/

/-- the versions that have been committed -/
def logged (log : List (Write Col Val)) (user : User) (id : Id) (v : Version Col Val) : Prop :=
  ∃ x ∈ log, x.user = user ∧ x.id = id ∧ x.version = v

/-- the row is what the newest write says; without a row there have only been deletes -/
def Settled (log missed : List (Write Col Val)) (user : User) (id : Id) : Option (Row Col Val) → Prop
  | none => ∀ x ∈ log, x.user = user → x.id = id → x ∈ missed
  | some r => r.Proper ∧ Newest (logged log user id) r.version

variable {known : Write Col Val → Prop} {requests : ℕ → Request Col Val} {s s' t : Store Col Val} {i j : ℕ} {user : User}
  {id : Id} {p : Push Col Val} {us : List (Staged Col Val)} {ds : List (Id × ℤ)}

structure Inv (known : Write Col Val → Prop) (s : Store Col Val) : Prop where
  log : ∀ x ∈ s.log, known x
  missed : ∀ x ∈ s.missed, x.value = none
  settled : ∀ user id, Settled s.log s.missed user id (s.committed user id)

/-- nothing that is committed is undone -/
structure Onward (s t : Store Col Val) : Prop where
  rows : ∀ user id r, s.committed user id = some r → ∃ r', t.committed user id = some r' ∧ r.version.1 ≤ r'.version.1
  log : ∀ x ∈ s.log, x ∈ t.log

theorem Onward.refl (s : Store Col Val) : Onward s s := ⟨fun _ _ r hr => ⟨r, hr, le_rfl⟩, fun _ h => h⟩

theorem Onward.trans (h : Onward s s') (h' : Onward s' t) : Onward s t := by
  refine ⟨fun user id r hr => ?_, fun x hx => h'.log x (h.log x hx)⟩
  obtain ⟨r', hr', hle⟩ := h.rows user id r hr
  obtain ⟨r'', hr'', hle'⟩ := h'.rows user id r' hr'
  exact ⟨r'', hr'', hle.trans hle'⟩

/-- what session `i` may rely on -/
structure Rely (i : ℕ) (s t : Store Col Val) : Prop where
  onward : Onward s t
  mine : ∀ id, (t.cell id).mine i = (s.cell id).mine i
  held : ∀ id, (s.cell id).mine i ≠ none → (t.cell id).committed = (s.cell id).committed

theorem Rely.refl (i : ℕ) (s : Store Col Val) : Rely i s s := ⟨.refl s, fun _ => rfl, fun _ _ => rfl⟩

theorem Rely.trans (h : Rely i s s') (h' : Rely i s' t) : Rely i s t := by
  refine ⟨h.onward.trans h'.onward, fun id => (h'.mine id).trans (h.mine id), fun id hid => ?_⟩
  exact (h'.held id (by rwa [h.mine id])).trans (h.held id hid)

/-- what a step of session `i` leaves of the others -/
structure Step (i : ℕ) (s t : Store Col Val) : Prop where
  onward : Onward s t
  mine : ∀ j, j ≠ i → ∀ id, (t.cell id).mine j = (s.cell id).mine j
  held : ∀ j, j ≠ i → ∀ id, (s.cell id).mine j ≠ none → (t.cell id).committed = (s.cell id).committed

theorem Step.rely (h : Step i s t) (hj : j ≠ i) : Rely j s t := ⟨h.onward, h.mine j hj, h.held j hj⟩

theorem committed_of_cell (h : ∀ id, (t.cell id).committed = (s.cell id).committed) (user : User) (id : Id) :
    t.committed user id = s.committed user id := by
  rw [Store.committed, Store.committed, h]

theorem onward_of_cell (h : ∀ id, (t.cell id).committed = (s.cell id).committed) (hlog : t.log = s.log) : Onward s t := by
  refine ⟨fun user id r hr => ⟨r, ?_, le_rfl⟩, fun x hx => by rwa [hlog]⟩
  rwa [committed_of_cell h]

theorem Inv.of_cell (hinv : Inv known s) (h : ∀ id, (t.cell id).committed = (s.cell id).committed) (hlog : t.log = s.log)
    (hmissed : t.missed = s.missed) : Inv known t := by
  refine ⟨fun x hx => hinv.log x (by rwa [← hlog]), fun x hx => hinv.missed x (by rwa [← hmissed]), fun user id => ?_⟩
  rw [hlog, hmissed, committed_of_cell h]
  exact hinv.settled user id

/-! ## Steps -/

theorem finish_committed (keep : Bool) (id : Id) : ((s.finish i keep).cell id).committed =
    if keep then ((s.cell id).mine i).getD (s.cell id).committed else (s.cell id).committed := Cell.committed_finish i keep _

theorem finish_mine (keep : Bool) (hj : j ≠ i) (id : Id) : ((s.finish i keep).cell id).mine j = (s.cell id).mine j := by
  rw [Store.finish, Cell.mine_finish, if_neg hj]

theorem finish_held (keep : Bool) (hj : j ≠ i) (id : Id) (h : (s.cell id).mine j ≠ none) :
    ((s.finish i keep).cell id).committed = (s.cell id).committed := by
  rw [finish_committed, Cell.mine_exclusive h hj.symm]
  simp

theorem rollback_step (i : ℕ) (s : Store Col Val) : Step i s (s.finish i false) :=
  ⟨onward_of_cell (fun _ => finish_committed false _) rfl, fun _ hj => finish_mine false hj, fun _ hj => finish_held false hj⟩

theorem rollback_inv (h : Inv known s) : Inv known (s.finish i false) :=
  h.of_cell (fun _ => finish_committed false _) rfl rfl

theorem put_committed (r : Row Col Val) (id' : Id) : ((s.put i id r).cell id').committed = (s.cell id').committed := by
  by_cases h : id' = id
  · subst h
    simp [Store.put]
  · simp [Store.put, h]

theorem put_mine_self (r : Row Col Val) : ((s.put i id r).cell id).mine i = some (some r) := by
  simp [Store.put]

theorem put_mine_of_ne (r : Row Col Val) {id' : Id} (h : id' ≠ id) : ((s.put i id r).cell id').mine j = (s.cell id').mine j := by
  simp [Store.put, h]

theorem put_step (r : Row Col Val) (hbusy : (s.cell id).busy i = false) : Step i s (s.put i id r) := by
  refine ⟨onward_of_cell (put_committed r) rfl, fun j hj id' => ?_, fun _ _ id' _ => put_committed r id'⟩
  by_cases h : id' = id
  · subst h
    rw [Cell.mine_of_not_busy hbusy hj]
    simp [Store.put, Cell.mine_put_of_ne hj]
  · exact put_mine_of_ne r h

theorem put_inv (h : Inv known s) (r : Row Col Val) : Inv known (s.put i id r) := h.of_cell (put_committed r) rfl rfl

theorem same_step (h : t.cell = s.cell) (hlog : t.log = s.log) : Step i s t :=
  ⟨onward_of_cell (fun _ => by rw [h]) hlog, fun _ _ _ => by rw [h], fun _ _ _ _ => by rw [h]⟩

theorem same_inv (hinv : Inv known s) (h : t.cell = s.cell) (hlog : t.log = s.log) (hmissed : t.missed = s.missed) : Inv known t :=
  hinv.of_cell (fun _ => by rw [h]) hlog hmissed

/-- pushes, pulls and time that passes -/
def merging (known : Write Col Val → Prop) (requests : ℕ → Request Col Val) : Protocol (Cmd Col Val) (Store Col Val) where
  inv := Inv known
  rely := Rely
  act _ s t := Onward s t
  ok i cmd s := cmd.sound requests i s = true
  rely_refl := Rely.refl
  rely_trans _ _ _ _ h h' := h.trans h'
  drop_inv _ _ h _ := rollback_inv h
  drop_act i s _ _ := (rollback_step i s).onward
  drop_rely i s _ _ _ hj := (rollback_step i s).rely hj

/-! ## Statements under the protocol -/

variable {α β : Type} {Q : Except Exn α → Store Col Val → Prop}

/-- one statement, and what comes after it -/
theorem wp_stmt {cmd : Cmd Col Val β} {f : β → Prg Col Val α}
    (h : ∀ s' b t, Rely i s s' → Inv known s' → cmd.sound requests i s' = true → cmd.exec i s' = some (b, t) →
      (Inv known t ∧ Step i s' t) ∧ (merging known requests).wp i (f b) Q t) :
    (merging known requests).wp i (Prog.call cmd >>= f) Q s := by
  intro s' hrely hinv hok b t he
  obtain ⟨⟨hinv', hstep⟩, hwp⟩ := h s' b t hrely hinv hok he
  exact ⟨⟨hinv', hstep.onward, fun j hj => hstep.rely hj⟩, hwp⟩

/-- a statement that leaves the rows and the log alone -/
theorem wp_quiet {cmd : Cmd Col Val β} {f : β → Prg Col Val α}
    (hquiet : ∀ s b t, cmd.exec i s = some (b, t) → t.cell = s.cell ∧ t.log = s.log ∧ t.missed = s.missed)
    (h : ∀ s' b t, Rely i s s' → Inv known s' → cmd.sound requests i s' = true → cmd.exec i s' = some (b, t) →
      Rely i s' t → (merging known requests).wp i (f b) Q t) :
    (merging known requests).wp i (Prog.call cmd >>= f) Q s := by
  refine wp_stmt fun s' b t hrely hinv hok he => ?_
  obtain ⟨hcell, hlog, hmissed⟩ := hquiet s' b t he
  refine ⟨⟨same_inv hinv hcell hlog hmissed, same_step hcell hlog⟩, h s' b t hrely hinv hok he ?_⟩
  exact ⟨onward_of_cell (fun _ => by rw [hcell]) hlog, fun _ => by rw [hcell], fun _ _ => by rw [hcell]⟩

/-! ## The flush -/

variable {rows : Id → Option (Row Col Val)} {w : Work Col Val} {o : Obj Col Val}

/-- no uncommitted row of the session -/
def Clean (i : ℕ) (s : Store Col Val) (id : Id) : Prop := (s.cell id).mine i = none

/-- the session has written the object over a row that is no newer -/
def Wrote (i : ℕ) (user : User) (id : Id) (o : Obj Col Val) (s : Store Col Val) : Prop :=
  ∃ a, (s.cell id).mine i = some (some a) ∧ a.userId = user ∧ a.Proper ∧ a.version = o.version ∧
    ∀ c, (s.cell id).committed = some c → c.userId = user ∧ c.version.1 ≤ o.version.1

/-- the rows that were found were committed and are there still, or newer ones -/
def Seen (user : User) (rows : Id → Option (Row Col Val)) (s : Store Col Val) : Prop :=
  ∀ id r, rows id = some r → logged s.log user id r.version ∧ ∃ r', s.committed user id = some r' ∧ r.version.1 ≤ r'.version.1

theorem Clean.later (h : Clean i s id) (hrely : Rely i s t) : Clean i t id := (hrely.mine id).trans h

theorem Wrote.later (h : Wrote i user id o s) (hrely : Rely i s t) : Wrote i user id o t := by
  obtain ⟨a, ha, huser, hproper, hversion, hcom⟩ := h
  refine ⟨a, (hrely.mine id).trans ha, huser, hproper, hversion, fun c hc => hcom c ?_⟩
  rwa [← hrely.held id (by simp [ha])]

theorem Seen.onward (h : Seen user rows s) (hon : Onward s t) : Seen user rows t := by
  intro id r hr
  obtain ⟨⟨x, hx, hmatch⟩, r', hr', hle⟩ := h id r hr
  obtain ⟨r'', hr'', hle'⟩ := hon.rows user id r' hr'
  exact ⟨⟨x, hon.log x hx, hmatch⟩, r'', hr'', hle.trans hle'⟩

theorem Wrote.put (h : Wrote i user id o s) {id' : Id} {r : Row Col Val} (hne : id ≠ id') : Wrote i user id o (s.put i id' r) := by
  obtain ⟨a, ha, huser, hproper, hversion, hcom⟩ := h
  exact ⟨a, (put_mine_of_ne r hne).trans ha, huser, hproper, hversion, fun c hc => hcom c (by rwa [put_committed] at hc)⟩

theorem Clean.view (h : Clean i s id) : (s.cell id).view i = (s.cell id).committed := by
  simp [Cell.view, show (s.cell id).mine i = none from h]

theorem Clean.rowOf (h : Clean i s id) : s.rowOf i user id = s.committed user id := by
  rw [Store.rowOf, h.view, Store.committed]

theorem committed_eq_some {r : Row Col Val} : s.committed user id = some r ↔ (s.cell id).committed = some r ∧ r.userId = user := by
  simp [Store.committed, Option.filter_eq_some_iff]

/-- the row that the flush leaves says what the object says -/
theorem row_version {a : Row Col Val} (ho : o.Proper) (hvalues : a.values = o.values) (hupdated : a.updatedAt = o.updatedAt.instant)
    (hdeleted : a.deletedAt = o.deletedAt.map Moment.instant) : a.Proper ∧ a.version = o.version := by
  rcases hd : o.deletedAt with _ | d
  · refine ⟨fun x hx => ?_, ?_⟩
    · rw [hdeleted, hd] at hx
      cases hx
    · simp [Row.version, Obj.version, hdeleted, hd, hupdated, hvalues]
  · refine ⟨fun x hx => ?_, ?_⟩
    · rw [hdeleted, hd] at hx
      obtain rfl := Option.some.inj hx
      rw [hupdated, ho.deleted d hd]
    · simp [Row.version, Obj.version, hdeleted, hd]

theorem row_spec (ho : o.Proper) (user : User) (now : ℤ) : (o.row user now).Proper ∧ (o.row user now).version = o.version :=
  row_version ho rfl rfl rfl

/-- an UPDATE that leaves nothing of another push -/
theorem apply_spec {loaded c : Row Col Val} (ho : o.Proper) (now : ℤ) (hupdated : o.updatedAt ≠ .utc loaded.updatedAt)
    (hvalues : ∀ k, o.values k = loaded.values k → c.values k = loaded.values k)
    (hdeleted : o.deletedAt = loaded.deletedAt.map .utc → c.deletedAt = loaded.deletedAt) :
    (o.apply loaded now c).Proper ∧ (o.apply loaded now c).version = o.version := by
  refine row_version ho (funext fun k => ?_) ?_ ?_
  · by_cases hk : o.values k = loaded.values k
    · simp [Obj.apply, hk, hvalues k hk]
    · simp [Obj.apply, hk]
  · simp [Obj.apply, hupdated]
  · by_cases hd : o.deletedAt = loaded.deletedAt.map .utc
    · have hinstant : (loaded.deletedAt.map Moment.utc).map Moment.instant = loaded.deletedAt := by
        cases loaded.deletedAt with
        | none => rfl
        | some d => rfl
      simp only [Obj.apply, if_pos hd]
      rw [hdeleted hd, hd, hinstant]
    · simp [Obj.apply, hd]

/-- what the flush has to do with an id -/
structure Due (user : User) (s : Store Col Val) (i : ℕ) (id : Id) (loaded : Row Col Val) (o : Obj Col Val) : Prop where
  clean : Clean i s id
  row : ∃ r, s.committed user id = some r
  proper : o.Proper
  updated : o.updatedAt ≠ .utc loaded.updatedAt

theorem Due.later {loaded : Row Col Val} (h : Due user s i id loaded o) (hrely : Rely i s t) : Due user t i id loaded o := by
  obtain ⟨r, hr⟩ := h.row
  obtain ⟨r', hr', -⟩ := hrely.onward.rows user id r hr
  exact ⟨h.clean.later hrely, ⟨r', hr'⟩, h.proper, h.updated⟩

/-- what a part of the flush leaves of the ids that it does not touch -/
structure Frame (i : ℕ) (user : User) (touched : List Id) (s t : Store Col Val) : Prop where
  onward : Onward s t
  clean : ∀ id, id ∉ touched → Clean i s id → Clean i t id
  wrote : ∀ id o, id ∉ touched → Wrote i user id o s → Wrote i user id o t

theorem Frame.refl (i : ℕ) (user : User) (touched : List Id) (s : Store Col Val) : Frame i user touched s s :=
  ⟨.refl s, fun _ _ h => h, fun _ _ _ h => h⟩

theorem Rely.frame (h : Rely i s t) (user : User) (touched : List Id) : Frame i user touched s t :=
  ⟨h.onward, fun _ _ hclean => hclean.later h, fun _ _ _ hwrote => hwrote.later h⟩

theorem Frame.trans {touched touched' : List Id} (h : Frame i user touched s s') (h' : Frame i user touched' s' t) :
    Frame i user (touched ++ touched') s t := by
  refine ⟨h.onward.trans h'.onward, fun id hid hclean => ?_, fun id o hid hwrote => ?_⟩
  · rw [List.mem_append, not_or] at hid
    exact h'.clean id hid.2 (h.clean id hid.1 hclean)
  · rw [List.mem_append, not_or] at hid
    exact h'.wrote id o hid.2 (h.wrote id o hid.1 hwrote)

theorem put_frame (r : Row Col Val) (hbusy : (s.cell id).busy i = false) (user : User) : Frame i user [id] s (s.put i id r) := by
  refine ⟨(put_step r hbusy).onward, fun id' hid hclean => ?_, fun id' o hid hwrote => ?_⟩
  · exact (put_mine_of_ne r (by simpa using hid)).trans hclean
  · exact hwrote.put (by simpa using hid)

/-- the answer of one program for the next -/
theorem wp_then {γ : Type} {x : Prg Col Val γ} {f : γ → Prg Col Val α} {P : γ → Store Col Val → Prop}
    (hx : (merging known requests).wp i x (fun r t => ∃ a, r = .ok a ∧ P a t) s)
    (hf : ∀ a t, P a t → (merging known requests).wp i (f a) Q t) : (merging known requests).wp i (x >>= f) Q s := by
  rw [wp_bind]
  refine (merging known requests).wp_mono i hx fun r t hr => ?_
  obtain ⟨a, rfl, ha⟩ := hr
  exact hf a t ha

/-- an UPDATE in a run of sound steps -/
theorem wp_update {loaded : Row Col Val} {f : Unit → Prg Col Val α} (hdue : Due user s i id loaded o)
    (h : ∀ t, Frame i user [id] s t → Wrote i user id o t → (merging known requests).wp i (f ()) Q t) :
    (merging known requests).wp i (Prog.call (.update id loaded o) >>= f) Q s := by
  refine wp_stmt fun s' _ t hrely hinv hok he => ?_
  obtain ⟨hclean, ⟨r, hr⟩, hproper, hupdated⟩ := hdue.later hrely
  obtain ⟨hcell, huser⟩ := committed_eq_some.1 hr
  simp only [Cmd.exec, hclean.view, hcell] at he
  by_cases hbusy : (s'.cell id).busy i = true
  · simp [hbusy] at he
  · rw [if_neg hbusy] at he
    obtain ⟨-, rfl⟩ := exec_inj he
    have hfree : (s'.cell id).busy i = false := by simpa using hbusy
    simp only [Cmd.sound, hclean.view, hcell, hfree, Bool.false_or, Option.all_some, Bool.and_eq_true, decide_eq_true_eq] at hok
    obtain ⟨⟨hle, hvalues⟩, hdeleted⟩ := hok
    obtain ⟨hproper', hversion⟩ := apply_spec hproper s'.now hupdated hvalues hdeleted
    refine ⟨⟨put_inv hinv _, put_step _ hfree⟩, h _ ?_ ?_⟩
    · exact (hrely.frame user []).trans (put_frame _ hfree user)
    · refine ⟨_, put_mine_self _, huser, hproper', hversion, fun c hc => ?_⟩
      rw [put_committed, hcell] at hc
      obtain rfl := Option.some.inj hc
      exact ⟨huser, hle⟩

/-- an INSERT in a run of sound steps -/
theorem wp_insert {f : Bool → Prg Col Val α} (hclean : Clean i s id) (ho : o.Proper)
    (h : ∀ t, Frame i user [id] s t → Wrote i user id o t → (merging known requests).wp i (f true) Q t) :
    (merging known requests).wp i (Prog.call (.insert user id o) >>= f) Q s := by
  refine wp_stmt fun s' b t hrely hinv hok he => ?_
  have hclean' := hclean.later hrely
  simp only [Cmd.exec] at he
  by_cases hbusy : (s'.cell id).busy i = true
  · simp [hbusy] at he
  · have hfree : (s'.cell id).busy i = false := by simpa using hbusy
    have hnone : (s'.cell id).view i = none := by simpa [Cmd.sound, hfree] using hok
    have hcom : (s'.cell id).committed = none := by rwa [hclean'.view] at hnone
    rw [if_neg hbusy, hnone, if_neg (by simp)] at he
    obtain ⟨rfl, rfl⟩ := exec_inj he
    obtain ⟨hproper, hversion⟩ := row_spec ho user s'.now
    refine ⟨⟨put_inv hinv _, put_step _ hfree⟩, h _ ?_ ?_⟩
    · exact (hrely.frame user []).trans (put_frame _ hfree user)
    · refine ⟨_, put_mine_self _, rfl, hproper, hversion, fun c hc => ?_⟩
      rw [put_committed, hcom] at hc
      cases hc

/-- the objects of the list are written, and no other -/
theorem flushUpdates_spec (l : List (Id × Row Col Val × Obj Col Val)) (hnodup : (l.map Prod.fst).Nodup)
    (hdue : ∀ x ∈ l, Due user s i x.1 x.2.1 x.2.2) :
    (merging known requests).wp i (flushUpdates l) (fun r t => ∃ a, r = .ok a ∧
      Frame i user (l.map Prod.fst) s t ∧ ∀ x ∈ l, Wrote i user x.1 x.2.2 t) s := by
  induction l generalizing s with
  | nil => exact ⟨(), rfl, .refl i user _ s, nofun⟩
  | cons x l ih =>
    obtain ⟨id, r, o⟩ := x
    rw [List.map_cons, List.nodup_cons] at hnodup
    refine wp_update (hdue _ List.mem_cons_self) fun t hframe hwrote => ?_
    have hdue' : ∀ x ∈ l, Due user t i x.1 x.2.1 x.2.2 := by
      intro x hx
      have hne : x.1 ≠ id := by
        rintro rfl
        exact hnodup.1 (List.mem_map.2 ⟨x, hx, rfl⟩)
      obtain ⟨hclean, ⟨r, hr⟩, hproper, hupdated⟩ := hdue x (List.mem_cons_of_mem _ hx)
      obtain ⟨r', hr', -⟩ := hframe.onward.rows user x.1 r hr
      exact ⟨hframe.clean x.1 (by simpa using hne) hclean, ⟨r', hr'⟩, hproper, hupdated⟩
    refine (merging known requests).wp_mono i (ih hnodup.2 hdue') fun a u ha => ?_
    obtain ⟨b, rfl, hframe', hall⟩ := ha
    refine ⟨b, rfl, by simpa using hframe.trans hframe', fun y hy => ?_⟩
    rcases List.mem_cons.1 hy with rfl | hy
    · exact hframe'.wrote id o hnodup.1 hwrote
    · exact hall y hy

/-- the new objects are inserted -/
theorem flushInserts_spec (l : List (Id × Obj Col Val)) (hnodup : (l.map Prod.fst).Nodup)
    (hdue : ∀ x ∈ l, Clean i s x.1 ∧ x.2.Proper) :
    (merging known requests).wp i (flushInserts user l) (fun r t => ∃ a, r = .ok a ∧
      Frame i user (l.map Prod.fst) s t ∧ ∀ x ∈ l, Wrote i user x.1 x.2 t) s := by
  induction l generalizing s with
  | nil => exact ⟨(), rfl, .refl i user _ s, nofun⟩
  | cons x l ih =>
    obtain ⟨id, o⟩ := x
    rw [List.map_cons, List.nodup_cons] at hnodup
    obtain ⟨hclean, hproper⟩ := hdue _ List.mem_cons_self
    refine wp_insert hclean hproper fun t hframe hwrote => ?_
    have hdue' : ∀ x ∈ l, Clean i t x.1 ∧ x.2.Proper := by
      intro x hx
      have hne : x.1 ≠ id := by
        rintro rfl
        exact hnodup.1 (List.mem_map.2 ⟨x, hx, rfl⟩)
      obtain ⟨hclean, hproper⟩ := hdue x (List.mem_cons_of_mem _ hx)
      exact ⟨hframe.clean x.1 (by simpa using hne) hclean, hproper⟩
    refine (merging known requests).wp_mono i (ih hnodup.2 hdue') fun a u ha => ?_
    obtain ⟨b, rfl, hframe', hall⟩ := ha
    refine ⟨b, rfl, by simpa using hframe.trans hframe', fun y hy => ?_⟩
    rcases List.mem_cons.1 hy with rfl | hy
    · exact hframe'.wrote id o hnodup.1 hwrote
    · exact hall y hy

/-! ## The commit -/

/-- every object has been written or says what its row said -/
def Flushed (i : ℕ) (user : User) (rows : Id → Option (Row Col Val)) (w : Work Col Val) (s : Store Col Val) : Prop :=
  ∀ id, (∃ o, w.existing id = some o ∧ Wrote i user id o s) ∨
    (Clean i s id ∧ ∀ o, w.existing id = some o → ∃ r, rows id = some r ∧ o.version = r.version)

theorem Flushed.later (h : Flushed i user rows w s) (hrely : Rely i s t) : Flushed i user rows w t := by
  intro id
  rcases h id with ⟨o, ho, hwrote⟩ | ⟨hclean, hsame⟩
  · exact .inl ⟨o, ho, hwrote.later hrely⟩
  · exact .inr ⟨hclean.later hrely, hsame⟩

/-- the state after the COMMIT of a batch -/
def Store.commit (s : Store Col Val) (i : ℕ) (writes missed : List (Write Col Val)) : Store Col Val :=
  { s.finish i true with log := s.log ++ writes, missed := s.missed ++ missed }

theorem commit_cell (writes missed : List (Write Col Val)) (id : Id) :
    ((s.commit i writes missed).cell id).committed = ((s.cell id).mine i).getD (s.cell id).committed :=
  finish_committed true id

theorem mem_writesOf {x : Write Col Val} : x ∈ writesOf user us ds ↔ x.user = user ∧
    ((∃ u ∈ us, u.id = x.id ∧ x.version = u.version) ∨ ∃ d ∈ ds, d.1 = x.id ∧ x.version = (d.2, none)) := by
  obtain ⟨xu, xid, xt, xv⟩ := x
  simp only [writesOf, List.mem_append, List.mem_map, Write.mk.injEq, Write.version, Staged.version, Prod.mk.injEq]
  constructor
  · rintro (⟨u, hu, rfl, rfl, rfl, rfl⟩ | ⟨d, hd, rfl, rfl, rfl, rfl⟩)
    · exact ⟨rfl, .inl ⟨u, hu, rfl, rfl, rfl⟩⟩
    · exact ⟨rfl, .inr ⟨d, hd, rfl, rfl, rfl⟩⟩
  · rintro ⟨rfl, ⟨u, hu, rfl, rfl, rfl⟩ | ⟨d, hd, rfl, rfl, rfl⟩⟩
    · exact .inl ⟨u, hu, rfl, rfl, rfl, rfl⟩
    · exact .inr ⟨d, hd, rfl, rfl, rfl, rfl⟩

/-- the writes of a batch are the versions that the merge has compared, besides the row that was found -/
theorem versions_iff {v : Version Col Val} : versions rows us ds id v ↔ (∃ r, rows id = some r ∧ v = r.version) ∨
    ∃ x ∈ writesOf user us ds, x.id = id ∧ x.version = v := by
  simp only [mem_writesOf, versions, upserted]
  constructor
  · rintro ((h | ⟨u, hu, rfl, rfl⟩) | ⟨d, hd, rfl, rfl⟩)
    · exact .inl h
    · exact .inr ⟨⟨user, u.id, u.time, some u.values⟩, ⟨rfl, .inl ⟨u, hu, rfl, rfl⟩⟩, rfl, rfl⟩
    · exact .inr ⟨⟨user, d.1, d.2, none⟩, ⟨rfl, .inr ⟨d, hd, rfl, rfl⟩⟩, rfl, rfl⟩
  · rintro (h | ⟨x, ⟨-, ⟨u, hu, hid, hv⟩ | ⟨d, hd, hid, hv⟩⟩, rfl, rfl⟩)
    · exact .inl (.inl h)
    · exact .inl (.inr ⟨u, hu, hid, hv⟩)
    · exact .inr ⟨d, hd, hid, hv⟩

/-- a batch without an object for an id has only deletes of it, and they are missed -/
theorem mem_missedOf {x : Write Col Val} (hmerged : Merged rows us ds w) (hx : x ∈ writesOf user us ds)
    (hnone : w.existing x.id = none) : x ∈ missedOf user rows us ds := by
  obtain ⟨hrow, hno⟩ := hmerged.absent _ hnone
  obtain ⟨huser, ⟨u, hu, hid, -⟩ | ⟨d, hd, hid, hv⟩⟩ := mem_writesOf.1 hx
  · exact absurd hid (hno u hu)
  · refine List.mem_map.2 ⟨d, List.mem_filter.2 ⟨hd, ?_⟩, ?_⟩
    · rw [hid, hrow]
      simpa using hno
    · obtain ⟨xu, xid, xt, xv⟩ := x
      simp only [Write.version, Prod.mk.injEq] at hv
      obtain ⟨rfl, rfl⟩ := hv
      change d.1 = xid at hid
      rw [← huser, hid]

theorem missedOf_value {x : Write Col Val} (hx : x ∈ missedOf user rows us ds) : x.value = none := by
  obtain ⟨d, -, rfl⟩ := List.mem_map.1 hx
  rfl

theorem logged_append {log : List (Write Col Val)} {v : Version Col Val} {user' : User} :
    logged (log ++ writesOf user us ds) user' id v ↔
      logged log user' id v ∨ (user' = user ∧ ∃ x ∈ writesOf user us ds, x.id = id ∧ x.version = v) := by
  simp only [logged, List.mem_append]
  constructor
  · rintro ⟨x, hx | hx, rfl, rfl, rfl⟩
    · exact .inl ⟨x, hx, rfl, rfl, rfl⟩
    · exact .inr ⟨(mem_writesOf.1 hx).1, x, hx, rfl, rfl⟩
  · rintro (⟨x, hx, rfl, rfl, rfl⟩ | ⟨rfl, x, hx, rfl, rfl⟩)
    · exact ⟨x, .inl hx, rfl, rfl, rfl⟩
    · exact ⟨x, .inr hx, (mem_writesOf.1 hx).1, rfl, rfl⟩

/-- a row of the user that the session has not written, after the COMMIT -/
theorem settled_clean (hinv : Inv known s) (hseen : Seen user rows s) (hmerged : Merged rows us ds w)
    (hclean : Clean i s id) (hsame : ∀ o, w.existing id = some o → ∃ r, rows id = some r ∧ o.version = r.version)
    (hok : (Cmd.commit (writesOf user us ds) (missedOf user rows us ds) : Cmd Col Val Unit).sound requests i s = true) :
    Settled (s.log ++ writesOf user us ds) (s.missed ++ missedOf user rows us ds) user id (s.committed user id) := by
  have hsettled := hinv.settled user id
  rcases hcom : s.committed user id with _ | c
  · rw [hcom] at hsettled
    intro x hx huser hid
    rcases List.mem_append.1 hx with hx | hx
    · exact List.mem_append_left _ (hsettled x hx huser hid)
    · refine List.mem_append_right _ (mem_missedOf hmerged hx ?_)
      by_contra hne
      obtain ⟨o, ho⟩ := Option.ne_none_iff_exists'.1 hne
      rw [hid] at ho
      obtain ⟨r, hr, -⟩ := hsame o ho
      obtain ⟨-, r', hr', -⟩ := hseen id r hr
      rw [hcom] at hr'
      cases hr'
  · rw [hcom] at hsettled
    obtain ⟨hproper, hmem, hall⟩ := hsettled
    refine ⟨hproper, logged_append.2 (.inl hmem), fun v hv => ?_⟩
    rcases logged_append.1 hv with hv | ⟨-, x, hx, hid, rfl⟩
    · exact hall v hv
    · rcases ho : w.existing id with _ | o
      · rw [← hid] at ho
        have hmissed := List.mem_append_right s.missed (mem_missedOf hmerged hx ho)
        simp only [Cmd.sound, List.all_eq_true, Option.all_eq_true, decide_eq_true_eq] at hok
        refine hok x hmissed c ?_
        rw [(mem_writesOf.1 hx).1, hid, hclean.rowOf, hcom]
      · obtain ⟨r, hr, hversion⟩ := hsame o ho
        obtain ⟨-, r', hr', hle⟩ := hseen id r hr
        rw [hcom] at hr'
        obtain rfl := Option.some.inj hr'
        have hle' := (hmerged.newest id o ho).2 _ (versions_iff.2 (.inr ⟨x, hx, hid, rfl⟩))
        rw [hversion] at hle'
        exact hle'.trans hle

/-- a row that the session has written, after the COMMIT -/
theorem settled_wrote {a : Row Col Val} (hinv : Inv known s) (hseen : Seen user rows s) (hmerged : Merged rows us ds w)
    (ho : w.existing id = some o) (ha : (s.cell id).mine i = some (some a)) (huser : a.userId = user) (hproper : a.Proper)
    (hversion : a.version = o.version) (hcom : ∀ c, (s.cell id).committed = some c → c.userId = user ∧ c.version.1 ≤ o.version.1)
    (hok : (Cmd.commit (writesOf user us ds) (missedOf user rows us ds) : Cmd Col Val Unit).sound requests i s = true) :
    Settled (s.log ++ writesOf user us ds) (s.missed ++ missedOf user rows us ds) user id (some a) := by
  have hsettled := hinv.settled user id
  obtain ⟨hmem, hall⟩ := hmerged.newest id o ho
  refine ⟨hproper, ?_, fun v hv => ?_⟩
  · rw [hversion, logged_append]
    rcases versions_iff.1 hmem with ⟨r, hr, hv⟩ | ⟨x, hx, hid, hv⟩
    · rw [hv]
      exact .inl (hseen id r hr).1
    · exact .inr ⟨rfl, x, hx, hid, hv⟩
  · rw [hversion]
    rcases logged_append.1 hv with hv | ⟨-, x, hx, hid, rfl⟩
    · rcases hrow : s.committed user id with _ | c
      · rw [hrow] at hsettled
        obtain ⟨x, hx, hxuser, hxid, rfl⟩ := hv
        have hmissed := List.mem_append_left (missedOf user rows us ds) (hsettled x hx hxuser hxid)
        simp only [Cmd.sound, List.all_eq_true, Option.all_eq_true, decide_eq_true_eq] at hok
        rw [← hversion]
        refine hok x hmissed a ?_
        simp [hxuser, hxid, Store.rowOf, Cell.view, ha, huser]
      · rw [hrow] at hsettled
        exact (hsettled.2.2 v hv).trans (hcom c (committed_eq_some.1 hrow).1).2
    · exact hall _ (versions_iff.2 (.inr ⟨x, hx, hid, rfl⟩))

/-- **Commit.** The COMMIT of a push keeps the invariant and undoes nothing. -/
theorem commit_good (hinv : Inv known s) (hknown : ∀ x ∈ writesOf user us ds, known x) (hseen : Seen user rows s)
    (hmerged : Merged rows us ds w) (hflushed : Flushed i user rows w s)
    (hok : (Cmd.commit (writesOf user us ds) (missedOf user rows us ds) : Cmd Col Val Unit).sound requests i s = true) :
    Inv known (s.commit i (writesOf user us ds) (missedOf user rows us ds)) ∧
      Step i s (s.commit i (writesOf user us ds) (missedOf user rows us ds)) := by
  -- the rows of the other users stay
  have hothers : ∀ user' id, user' ≠ user →
      (s.commit i (writesOf user us ds) (missedOf user rows us ds)).committed user' id = s.committed user' id := by
    intro user' id hne
    rw [Store.committed, commit_cell]
    rcases hflushed id with ⟨o, -, a, ha, huser, -, -, hcom⟩ | ⟨hclean, -⟩
    · have hnone : s.committed user' id = none := by
        by_contra hsome
        obtain ⟨c, hc⟩ := Option.ne_none_iff_exists'.1 hsome
        obtain ⟨hcell, hcuser⟩ := committed_eq_some.1 hc
        exact hne (hcuser.symm.trans (hcom c hcell).1)
      rw [hnone, ha]
      simp only [Option.getD_some, Option.filter_eq_none_iff, Option.some.injEq]
      rintro r rfl
      simpa [huser] using hne.symm
    · rw [show (s.cell id).mine i = none from hclean]
      rfl
  -- a row of the user is the object that was written, or stays
  have hown : ∀ id, (∃ o a, w.existing id = some o ∧ (s.cell id).mine i = some (some a) ∧ a.userId = user ∧ a.Proper ∧
      a.version = o.version ∧ (∀ c, (s.cell id).committed = some c → c.userId = user ∧ c.version.1 ≤ o.version.1) ∧
      (s.commit i (writesOf user us ds) (missedOf user rows us ds)).committed user id = some a) ∨
      (Clean i s id ∧ (∀ o, w.existing id = some o → ∃ r, rows id = some r ∧ o.version = r.version) ∧
        (s.commit i (writesOf user us ds) (missedOf user rows us ds)).committed user id = s.committed user id) := by
    intro id
    rcases hflushed id with ⟨o, ho, a, ha, huser, hproper, hversion, hcom⟩ | ⟨hclean, hsame⟩
    · refine .inl ⟨o, a, ho, ha, huser, hproper, hversion, hcom, ?_⟩
      rw [Store.committed, commit_cell, ha]
      simp [huser]
    · refine .inr ⟨hclean, hsame, ?_⟩
      rw [Store.committed, commit_cell, show (s.cell id).mine i = none from hclean]
      rfl
  refine ⟨⟨fun x hx => ?_, fun x hx => ?_, fun user' id => ?_⟩, ⟨⟨fun user' id r hr => ?_, fun x hx => ?_⟩, fun j hj id => ?_,
    fun j hj id hid => ?_⟩⟩
  · rcases List.mem_append.1 hx with hx | hx
    · exact hinv.log x hx
    · exact hknown x hx
  · rcases List.mem_append.1 hx with hx | hx
    · exact hinv.missed x hx
    · exact missedOf_value hx
  · by_cases hne : user' = user
    · subst hne
      rcases hown id with ⟨o, a, ho, ha, huser, hproper, hversion, hcom, hrow⟩ | ⟨hclean, hsame, hrow⟩
      · rw [hrow]
        exact settled_wrote hinv hseen hmerged ho ha huser hproper hversion hcom hok
      · rw [hrow]
        exact settled_clean hinv hseen hmerged hclean hsame hok
    · rw [hothers user' id hne]
      have hsettled := hinv.settled user' id
      rcases hrow : s.committed user' id with _ | c
      · rw [hrow] at hsettled
        intro x hx hxuser hxid
        rcases List.mem_append.1 hx with hx | hx
        · exact List.mem_append_left _ (hsettled x hx hxuser hxid)
        · exact absurd (hxuser.symm.trans (mem_writesOf.1 hx).1) hne
      · rw [hrow] at hsettled
        refine ⟨hsettled.1, logged_append.2 (.inl hsettled.2.1), fun v hv => ?_⟩
        rcases logged_append.1 hv with hv | ⟨heq, -⟩
        · exact hsettled.2.2 v hv
        · exact absurd heq hne
  · by_cases hne : user' = user
    · subst hne
      rcases hown id with ⟨o, a, -, -, -, -, hversion, hcom, hrow⟩ | ⟨-, -, hrow⟩
      · refine ⟨a, hrow, ?_⟩
        rw [hversion]
        exact (hcom r (committed_eq_some.1 hr).1).2
      · exact ⟨r, hrow.trans hr, le_rfl⟩
    · exact ⟨r, (hothers user' id hne).trans hr, le_rfl⟩
  · exact List.mem_append_left _ hx
  · exact finish_mine true hj id
  · exact finish_held true hj id hid

/-! ## A push -/

/-- distinct writes of an id have distinct times -/
def Distinct (known : Write Col Val → Prop) : Prop :=
  ∀ x y, known x → known y → x.user = y.user → x.id = y.id → x.time = y.time → x = y

theorem dirty_eq_false {r : Row Col Val} (h : o.dirty r = false) :
    o.values = r.values ∧ o.updatedAt = .utc r.updatedAt ∧ o.deletedAt = r.deletedAt.map .utc := by
  simp only [Obj.dirty, Bool.not_eq_false', Bool.and_eq_true, decide_eq_true_eq] at h
  exact ⟨funext h.1.1, h.1.2, h.2⟩

theorem dirty_of_eq {r : Row Col Val} (hvalues : o.values = r.values) (hupdated : o.updatedAt = .utc r.updatedAt)
    (hdeleted : o.deletedAt = r.deletedAt.map .utc) : o.dirty r = false := by
  simp [Obj.dirty, hvalues, hupdated, hdeleted]

theorem version_of_clean {r : Row Col Val} (h : o.dirty r = false) : o.version = r.version := by
  obtain ⟨hvalues, hupdated, hdeleted⟩ := dirty_eq_false h
  have hobj : o = r.obj := by
    cases o
    simp_all [Row.obj]
  rw [hobj, r.obj_version]

theorem live_of_version {r : Row Col Val} {v : Col → Val} {time : ℤ} (h : r.version = (time, some v)) :
    r.values = v ∧ r.updatedAt = time ∧ r.deletedAt = none := by
  rcases hd : r.deletedAt with _ | d
  · simp only [Row.version, hd, Option.getD_none, Option.isNone_none, if_true, Prod.mk.injEq, Option.some.injEq] at h
    exact ⟨h.2, h.1, rfl⟩
  · simp [Row.version, hd] at h

/-- an object with changes has a time of its own: `onupdate` is not used -/
theorem updated_ne {r : Row Col Val} (hd : Distinct known) (hknown : ∀ x ∈ writesOf user us ds, known x) (hmerged : Merged rows us ds w)
    (hr : rows id = some r) (ho : w.existing id = some o) (hproper : r.Proper) (hlogged : ∃ x, known x ∧ x.user = user ∧ x.id = id ∧ x.version = r.version)
    (hdirty : o.dirty r = true) : o.updatedAt ≠ .utc r.updatedAt := by
  intro hsame
  have htime : o.version.1 = r.version.1 := by
    rw [(hmerged.proper id o ho).time, hsame, ← r.obj_version, hproper.obj.time]
    rfl
  rcases hmerged.kept id r o hr ho with rfl | hlt | ⟨u, hu, hid, hut, rfl⟩
  · have hno := dirty_of_eq (o := r.obj) rfl rfl rfl
    rw [hno] at hdirty
    cases hdirty
  · omega
  · obtain ⟨x, hx, hxuser, hxid, hxversion⟩ := hlogged
    have hy := hknown ⟨user, u.id, u.time, some u.values⟩ (mem_writesOf.2 ⟨rfl, .inl ⟨u, hu, rfl, rfl⟩⟩)
    have hxtime : x.time = u.time := by
      rw [hut, ← hxversion]
      rfl
    have heq := hd x _ hx hy hxuser (hxid.trans hid.symm) hxtime
    rw [heq] at hxversion
    obtain ⟨hvalues, -, hdeleted⟩ := live_of_version hxversion.symm
    have hno := dirty_of_eq (o := u.obj) hvalues.symm hsame (by rw [hdeleted]; rfl)
    rw [hno] at hdirty
    cases hdirty

/-- the objects that are written -/
theorem mem_dirtyObjs {ids : List Id} {x : Id × Row Col Val × Obj Col Val} : x ∈ dirtyObjs rows w ids ↔
    x.1 ∈ ids ∧ rows x.1 = some x.2.1 ∧ w.existing x.1 = some x.2.2 ∧ x.2.2.dirty x.2.1 = true := by
  obtain ⟨id, r, o⟩ := x
  simp only [dirtyObjs, List.mem_filterMap, List.mem_insertionSort]
  constructor
  · rintro ⟨id', hid', h⟩
    split at h
    · next r' o' hr ho =>
      split_ifs at h with hdirty
      obtain ⟨rfl, rfl, rfl⟩ : id' = id ∧ r' = r ∧ o' = o := by simpa using h
      exact ⟨hid', hr, ho, hdirty⟩
    · cases h
  · rintro ⟨hid, hr, ho, hdirty⟩
    exact ⟨id, hid, by simp [hr, ho, hdirty]⟩

theorem nodup_dirtyObjs {ids : List Id} (h : ids.Nodup) : ((dirtyObjs rows w ids).map Prod.fst).Nodup := by
  have hsorted : (ids.insertionSort fun a b => ¬ b < a).Nodup := (List.perm_insertionSort _ ids).nodup_iff.2 h
  refine List.Nodup.sublist ?_ hsorted
  rw [dirtyObjs, List.map_filterMap]
  generalize ids.insertionSort (fun a b => ¬ b < a) = l
  induction l with
  | nil => exact .slnil
  | cons id l ih =>
    rw [List.filterMap_cons]
    split
    · exact ih.cons _
    · next b hb =>
      have hfst : b = id := by
        simp only [Option.map_eq_some_iff] at hb
        obtain ⟨x, hx, rfl⟩ := hb
        split at hx
        · split_ifs at hx
          rw [← Option.some.inj hx]
        · cases hx
      rw [hfst]
      exact ih.cons_cons id

theorem mem_newObjs {x : Id × Obj Col Val} : x ∈ newObjs w ↔ x.1 ∈ w.added ∧ w.existing x.1 = some x.2 := by
  obtain ⟨id, o⟩ := x
  simp only [newObjs, List.mem_filterMap, Option.map_eq_some_iff]
  constructor
  · rintro ⟨id', hid', o', ho', heq⟩
    obtain ⟨rfl, rfl⟩ := Prod.mk.inj heq
    exact ⟨hid', ho'⟩
  · rintro ⟨hid, ho⟩
    exact ⟨id, hid, o, ho, rfl⟩

theorem nodup_newObjs (h : w.added.Nodup) : ((newObjs w).map Prod.fst).Nodup := by
  refine List.Nodup.sublist ?_ h
  rw [newObjs, List.map_filterMap]
  generalize w.added = l
  induction l with
  | nil => exact .slnil
  | cons id l ih =>
    rw [List.filterMap_cons]
    split
    · exact ih.cons _
    · next b hb =>
      obtain rfl : id = b := by
        cases ho : w.existing id with
        | none => simp [ho] at hb
        | some o => simpa [ho] using hb
      exact ih.cons_cons id

theorem mem_batchIds : id ∈ batchIds us ds ↔ (∃ u ∈ us, u.id = id) ∨ ∃ d ∈ ds, d.1 = id := by
  simp [batchIds, List.mem_dedup]

/-- both parts of the flush -/
theorem flush_spec (hd : Distinct known) (hknown : ∀ x ∈ writesOf user us ds, known x) (hinv : Inv known s)
    (hmerged : Merged rows us ds w) (hrows : ∀ id r, rows id = some r → id ∈ batchIds us ds ∧ s.committed user id = some r)
    (hclean : ∀ id, Clean i s id) (hseen : Seen user rows s) :
    (merging known requests).wp i (flushUpdates (dirtyObjs rows w (batchIds us ds)) >>= fun _ => flushInserts user (newObjs w))
      (fun r t => ∃ a, r = .ok a ∧ Seen user rows t ∧ Flushed i user rows w t) s := by
  have hdue : ∀ x ∈ dirtyObjs rows w (batchIds us ds), Due user s i x.1 x.2.1 x.2.2 := by
    intro x hx
    obtain ⟨-, hr, ho, hdirty⟩ := mem_dirtyObjs.1 hx
    have hcom := (hrows _ _ hr).2
    have hsettled := hinv.settled user x.1
    rw [hcom] at hsettled
    obtain ⟨y, hy, hyuser, hyid, hyversion⟩ := hsettled.2.1
    refine ⟨hclean x.1, ⟨_, hcom⟩, hmerged.proper _ _ ho, ?_⟩
    exact updated_ne hd hknown hmerged hr ho hsettled.1 ⟨y, hinv.log y hy, hyuser, hyid, hyversion⟩ hdirty
  have hapart : ∀ id, id ∈ w.added → id ∉ (dirtyObjs rows w (batchIds us ds)).map Prod.fst := by
    intro id hid hmem
    obtain ⟨x, hx, rfl⟩ := List.mem_map.1 hmem
    have hnone := ((hmerged.added _).1 hid).1
    rw [(mem_dirtyObjs.1 hx).2.1] at hnone
    cases hnone
  refine wp_then (flushUpdates_spec _ (nodup_dirtyObjs (List.nodup_dedup _)) hdue) fun _ t ht => ?_
  obtain ⟨hframe, hwrote⟩ := ht
  have hnew : ∀ x ∈ newObjs w, Clean i t x.1 ∧ x.2.Proper := by
    intro x hx
    obtain ⟨hid, ho⟩ := mem_newObjs.1 hx
    exact ⟨hframe.clean _ (hapart _ hid) (hclean _), hmerged.proper _ _ ho⟩
  refine (merging known requests).wp_mono i (flushInserts_spec _ (nodup_newObjs hmerged.nodup) hnew) fun a u ha => ?_
  obtain ⟨b, rfl, hframe', hwrote'⟩ := ha
  refine ⟨b, rfl, hseen.onward (hframe.onward.trans hframe'.onward), fun id => ?_⟩
  have hadded : ∀ id, id ∉ w.added → id ∉ (newObjs w).map Prod.fst := by
    intro id hid hmem
    obtain ⟨x, hx, rfl⟩ := List.mem_map.1 hmem
    exact hid (mem_newObjs.1 hx).1
  rcases ho : w.existing id with _ | o
  · have hid : id ∉ w.added := fun h => ((hmerged.added id).1 h).2 ho
    have hid' : id ∉ (dirtyObjs rows w (batchIds us ds)).map Prod.fst := by
      intro hmem
      obtain ⟨x, hx, rfl⟩ := List.mem_map.1 hmem
      rw [(mem_dirtyObjs.1 hx).2.2.1] at ho
      cases ho
    exact .inr ⟨hframe'.clean id (hadded id hid) (hframe.clean id hid' (hclean id)), nofun⟩
  · rcases hr : rows id with _ | r
    · have hid : id ∈ w.added := (hmerged.added id).2 ⟨hr, by simp [ho]⟩
      exact .inl ⟨o, rfl, hwrote' (id, o) (mem_newObjs.2 ⟨hid, ho⟩)⟩
    · have hid : id ∉ w.added := by
        intro h
        rw [((hmerged.added id).1 h).1] at hr
        cases hr
      cases hdirty : o.dirty r with
      | true =>
        have hmem : (id, r, o) ∈ dirtyObjs rows w (batchIds us ds) := mem_dirtyObjs.2 ⟨(hrows id r hr).1, hr, ho, hdirty⟩
        exact .inl ⟨o, rfl, hframe'.wrote id o (hadded id hid) (hwrote _ hmem)⟩
      | false =>
        have hid' : id ∉ (dirtyObjs rows w (batchIds us ds)).map Prod.fst := by
          intro hmem
          obtain ⟨⟨id', r', o'⟩, hx, rfl⟩ := List.mem_map.1 hmem
          obtain ⟨-, hr', ho', hdirty'⟩ := mem_dirtyObjs.1 hx
          obtain rfl := Option.some.inj (hr.symm.trans hr')
          obtain rfl := Option.some.inj (ho.symm.trans ho')
          rw [hdirty] at hdirty'
          cases hdirty'
        refine .inr ⟨hframe'.clean id (hadded id hid) (hframe.clean id hid' (hclean id)), fun o' ho' => ⟨r, rfl, ?_⟩⟩
        obtain rfl := Option.some.inj ho'
        exact version_of_clean hdirty

/-- `push`, up to the commit -/
theorem push_spec (hd : Distinct known) (hp : requests i = .push p) (hstage : stage p = .ok (us, ds))
    (hhonest : ∀ u ∈ us, u.Honest) (hknown : ∀ x ∈ writesOf p.user us ds, known x) (hclean : ∀ id, Clean i s id) :
    (merging known requests).wp i (push p.user us ds) (fun r t => ∃ a rows w, r = .ok (a, missedOf p.user rows us ds) ∧
      Merged rows us ds w ∧ Seen p.user rows t ∧ Flushed i p.user rows w t) s := by
  -- from the rows that were found on
  have hfound : ∀ rows t (rest : Prg Col Val (ℕ × List (Write Col Val))),
      (∀ w, merge rows us ds = .ok w → rest = do
        flushUpdates (dirtyObjs rows w (batchIds us ds))
        flushInserts p.user (newObjs w)
        pure (w.synced, missedOf p.user rows us ds)) →
      (∀ id r, rows id = some r → id ∈ batchIds us ds ∧ t.committed p.user id = some r) → Inv known t →
      mixed rows ds [] us = false → (∀ id, Clean i t id) → (merging known requests).wp i rest (fun r t => ∃ a rows w, r = .ok (a, missedOf p.user rows us ds) ∧
        Merged rows us ds w ∧ Seen p.user rows t ∧ Flushed i p.user rows w t) t := by
    intro rows t rest hrest hrows hinv hmixed hclean
    have hsettled : ∀ id r, rows id = some r → r.Proper ∧ logged t.log p.user id r.version := by
      intro id r hr
      have h := hinv.settled p.user id
      rw [(hrows id r hr).2] at h
      exact ⟨h.1, h.2.1⟩
    obtain ⟨w, hmerge, hmerged⟩ := merge_spec (fun id r hr => (hsettled id r hr).1) hhonest hmixed
    rw [hrest w hmerge]
    have hseen : Seen p.user rows t := fun id r hr => ⟨(hsettled id r hr).2, r, (hrows id r hr).2, le_rfl⟩
    have hflush : (merging known requests).wp i _ _ _ := flush_spec hd hknown hinv hmerged hrows hclean hseen
    rw [wp_bind] at hflush
    refine (wp_bind _ i _ _ _ _).2 ?_
    refine (merging known requests).wp_mono i hflush fun r u hr => ?_
    cases r with
    | error e =>
      obtain ⟨a, ha, -⟩ := hr
      cases ha
    | ok a =>
      refine wp_then hr fun _ v hv => ?_
      exact ⟨w.synced, rows, w, rfl, hmerged, hv⟩
  rw [push]
  by_cases hids : batchIds us ds = []
  · -- an empty batch
    have hempty : us = [] ∧ ds = [] := by simpa [batchIds] using hids
    obtain ⟨rfl, rfl⟩ := hempty
    refine ⟨0, fun _ => none, found fun _ => none, rfl, ?_, fun id r hr => (by cases hr),
      fun id => .inr ⟨hclean id, fun o ho => by cases ho⟩⟩
    have hspec : ∃ w : Work Col Val, merge (fun _ => none) [] [] = .ok w ∧ Merged (fun _ => none) [] [] w := 
      merge_spec (fun id r hr => by cases hr) (fun u hu => by cases hu) rfl
    obtain ⟨w, hw, hmerged⟩ := hspec
    obtain rfl := Except.ok.inj hw
    exact hmerged
  · simp only [hids, if_false]
    refine wp_quiet (fun s b t he => ?_) fun s' b t hrely hinv hok he hrely' => ?_
    · obtain ⟨-, rfl⟩ := exec_inj he
      exact ⟨rfl, rfl, rfl⟩
    · obtain ⟨rfl, rfl⟩ := exec_inj he
      have hclean' : ∀ id, Clean i s' id := fun id => (hclean id).later hrely
      refine hfound _ s' _ (fun w hw => by rw [hw]) (fun id r hr => ?_) hinv ?_ hclean'
      · split_ifs at hr with hid
        rw [(hclean' id).rowOf] at hr
        exact ⟨hid, hr⟩
      · simpa [Cmd.sound, hp, hstage] using hok

theorem bind_ok {γ δ ε : Type} {x : Except ε γ} {f : γ → Except ε δ} {b : δ} (h : x >>= f = .ok b) : ∃ a, x = .ok a ∧ f a = .ok b := by
  cases x with
  | error e => cases h
  | ok a => exact ⟨a, rfl, h⟩

theorem bind_error {γ δ ε : Type} {x : Except ε γ} {f : γ → Except ε δ} {e : ε} (h : x >>= f = .error e) :
    x = .error e ∨ ∃ a, x = .ok a ∧ f a = .error e := by
  cases x with
  | error e' => exact .inl (congrArg _ (Except.error.inj h))
  | ok a => exact .inr ⟨a, rfl, h⟩

theorem mapM_ok {γ δ ε : Type} {f : γ → Except ε δ} {l : List γ} {l' : List δ} (h : l.mapM f = .ok l') (y : δ) (hy : y ∈ l') :
    ∃ x ∈ l, f x = .ok y := by
  induction l generalizing l' with
  | nil =>
    obtain rfl : [] = l' := Except.ok.inj h
    cases hy
  | cons x l ih =>
    rw [List.mapM_cons] at h
    obtain ⟨z, hz, h⟩ := bind_ok h
    obtain ⟨zs, hzs, h⟩ := bind_ok h
    obtain rfl : z :: zs = l' := Except.ok.inj h
    rcases List.mem_cons.1 hy with rfl | hy
    · exact ⟨x, List.mem_cons_self, hz⟩
    · obtain ⟨x', hx', hfx⟩ := ih hzs hy
      exact ⟨x', List.mem_cons_of_mem _ hx', hfx⟩

theorem mapM_error {γ δ ε : Type} {f : γ → Except ε δ} {l : List γ} {e : ε} (h : l.mapM f = .error e) : ∃ x ∈ l, f x = .error e := by
  induction l with
  | nil => cases h
  | cons x l ih =>
    rw [List.mapM_cons] at h
    rcases bind_error h with h | ⟨z, -, h⟩
    · exact ⟨x, List.mem_cons_self, h⟩
    · rcases bind_error h with h | ⟨zs, -, h⟩
      · obtain ⟨x', hx', hfx⟩ := ih h
        exact ⟨x', List.mem_cons_of_mem _ hx', hfx⟩
      · cases h

/-- every time of the push is one of the years 1 to 9999 in UTC -/
def Push.Fits (p : Push Col Val) : Prop :=
  (∀ u, some u ∈ p.upserts → u.updatedAt.fits) ∧ ∀ d ∈ p.deletes, d.deletedAt.fits

theorem honest_of_staged {u : Upsert Col Val} {v : Staged Col Val} (h : u.staged = .ok v) : v.Honest := by
  obtain ⟨time, htime, h⟩ := bind_ok h
  obtain rfl := Except.ok.inj h
  rw [asUtc] at htime
  split_ifs at htime
  exact Except.ok.inj htime

/-- what is staged -/
theorem honest_of_stage (h : stage p = .ok (us, ds)) : ∀ u ∈ us, u.Honest := by
  rw [stage] at h
  split_ifs at h
  obtain ⟨parsed, -, h⟩ := bind_ok h
  split_ifs at h
  obtain ⟨staged, hstaged, h⟩ := bind_ok h
  obtain ⟨deletes, -, h⟩ := bind_ok h
  obtain ⟨rfl, rfl⟩ := Prod.mk.inj (Except.ok.inj h)
  intro u hu
  obtain ⟨raw, -, hraw⟩ := mapM_ok hstaged u hu
  exact honest_of_staged hraw

/-- a push whose times fit is refused only as not valid -/
theorem invalid_of_stage {e : Exn} (hfits : p.Fits) (h : stage p = .error e) : e = .invalidInput := by
  rw [stage] at h
  split_ifs at h
  · exact (Except.error.inj h).symm
  · rcases bind_error h with h | ⟨parsed, hparsed, h⟩
    · obtain ⟨raw, -, hraw⟩ := mapM_error h
      cases raw with
      | none => exact (Except.error.inj hraw).symm
      | some u => cases hraw
    · split_ifs at h
      · exact (Except.error.inj h).symm
      · rcases bind_error h with h | ⟨staged, -, h⟩
        · obtain ⟨u, hu, hstaged⟩ := mapM_error h
          obtain ⟨raw, hmem, hraw⟩ := mapM_ok hparsed u hu
          have hsome : raw = some u := by
            cases raw with
            | none => cases hraw
            | some v => rw [Except.ok.inj hraw]
          rw [hsome] at hmem
          rcases bind_error hstaged with h | ⟨_, -, h⟩
          · rw [asUtc, if_pos (hfits.1 u hmem)] at h
            cases h
          · cases h
        · rcases bind_error h with h | ⟨_, -, h⟩
          · obtain ⟨d, hd, hstaged⟩ := mapM_error h
            rcases bind_error hstaged with h | ⟨_, -, h⟩
            · rw [asUtc, if_pos (hfits.2 d hd)] at h
              cases h
            · cases h
          · cases h

/-! ## Requests -/

/-- the writes of a request that is valid -/
def Request.writes : Request Col Val → List (Write Col Val)
  | .push p =>
    match stage p with
    | .ok (us, ds) => writesOf p.user us ds
    | .error _ => []
  | _ => []

/-- a push whose times fit is refused only as not valid; what it has committed is in the log -/
def Request.Ends (request : Request Col Val) (r : Except Exn (Answer Col Val)) (s : Store Col Val) : Prop :=
  (∀ a, r = .ok a → ∀ x ∈ request.writes, x ∈ s.log) ∧
    ∀ p, request = .push p → p.Fits → ∀ e, r = .error e → e = .invalidInput

theorem Request.Ends.later {request : Request Col Val} {r : Except Exn (Answer Col Val)} (h : request.Ends r s) (hon : Onward s t) :
    request.Ends r t := ⟨fun a ha x hx => hon.log x (h.1 a ha x hx), h.2⟩

theorem wp_rollback {f : Unit → Prg Col Val α} (hf : ∀ t, (merging known requests).wp i (f ()) Q t) :
    (merging known requests).wp i (Prog.call .rollback >>= f) Q s := by
  refine wp_stmt fun s' _ t _ hinv _ he => ?_
  obtain ⟨-, rfl⟩ := exec_inj he
  exact ⟨⟨rollback_inv hinv, rollback_step i s'⟩, hf _⟩

theorem pushEntity_spec (hd : Distinct known) (hp : requests i = .push p) (hknown : ∀ x ∈ (requests i).writes, known x)
    (hclean : ∀ id, Clean i s id) : (merging known requests).wp i (pushEntity p) (fun r t =>
      (∀ a, r = .ok a → ∀ x ∈ (requests i).writes, x ∈ t.log) ∧ (p.Fits → ∀ e, r = .error e → e = .invalidInput)) s := by
  rcases hstage : stage p with e | ⟨us, ds⟩
  · have hprog : pushEntity p = (do
        Prog.call .rollback
        .raise e : Prg Col Val PushResult) := by
      simp only [pushEntity, hstage]
    rw [hprog]
    refine wp_rollback fun t => ⟨fun a ha => (by cases ha), fun hfits e' he' => ?_⟩
    obtain rfl := Except.error.inj he'
    exact invalid_of_stage hfits hstage
  · have hwrites : (requests i).writes = writesOf p.user us ds := by
      simp only [hp, Request.writes, hstage]
    rw [hwrites] at hknown ⊢
    simp only [pushEntity, hstage]
    rw [wp_andThen]
    refine (merging known requests).wp_mono i (Q := fun r t => ∃ a rows w, r = .ok (a, missedOf p.user rows us ds) ∧
      Merged rows us ds w ∧ Seen p.user rows t ∧ Flushed i p.user rows w t) ?_ fun r t hr => ?_
    · rw [wp_bind]
      refine (merging known requests).wp_mono i (push_spec hd hp hstage (honest_of_stage hstage) hknown hclean) fun r t hr => ?_
      obtain ⟨a, rows, w, rfl, hmerged, hseen, hflushed⟩ := hr
      refine wp_quiet (fun s b t he => ?_) fun s' b t hrely _ _ he hrely' => ?_
      · obtain ⟨-, rfl⟩ := exec_inj he
        exact ⟨rfl, rfl, rfl⟩
      · have hlater := hrely.trans hrely'
        exact ⟨(a, b), rows, w, rfl, hmerged, hseen.onward hlater.onward, hflushed.later hlater⟩
    obtain ⟨a, rows, w, rfl, hmerged, hseen, hflushed⟩ := hr
    refine wp_stmt fun s' _ t' hrely hinv hok he => ?_
    obtain ⟨-, rfl⟩ := exec_inj he
    refine ⟨commit_good hinv hknown (hseen.onward hrely.onward) hmerged (hflushed.later hrely) hok, ?_⟩
    exact ⟨fun _ _ x hx => List.mem_append_right _ hx, fun _ _ he' => by cases he'⟩

theorem wp_pull {f : PullData Col Val → Prg Col Val α} {since : Option ℤ}
    (hf : ∀ d t, (merging known requests).wp i (f d) Q t) :
    (merging known requests).wp i (pullEntity user since >>= f) Q s := by
  refine wp_quiet (fun s b t he => ?_) fun s' b t _ _ _ _ _ => ?_
  · obtain ⟨-, rfl⟩ := exec_inj he
    exact ⟨rfl, rfl, rfl⟩
  refine wp_quiet (fun s b t he => ?_) fun s' b t _ _ _ _ _ => ?_
  · obtain ⟨-, rfl⟩ := exec_inj he
    exact ⟨rfl, rfl, rfl⟩
  refine wp_quiet (fun s b t he => ?_) fun s' b t _ _ _ _ _ => hf _ t
  · obtain ⟨-, rfl⟩ := exec_inj he
    exact ⟨rfl, rfl, rfl⟩

theorem device_spec (n : ℕ) (since : Option ℤ) (copy : Copy Col Val) :
    (merging known requests).wp i (device user n since copy) (fun r _ => ∃ c, r = .ok c ∧ True) s := by
  induction n generalizing since copy s with
  | zero => exact ⟨copy, rfl, trivial⟩
  | succ n ih => exact wp_pull fun _ _ => ih _ _

theorem prog_spec (hd : Distinct known) (hknown : ∀ x ∈ (requests i).writes, known x) (hclean : ∀ id, Clean i s id) :
    (merging known requests).wp i (requests i).prog (fun r t => (requests i).Ends r t) s := by
  rcases hp : requests i with p | ⟨user, pulls⟩ | dt
  · rw [← hp, show (requests i).prog = pushEntity p >>= fun result => pure (.pushed result) by rw [hp]; rfl, wp_bind]
    refine (merging known requests).wp_mono i (pushEntity_spec hd hp hknown hclean) fun r t hr => ?_
    cases r with
    | error e =>
      refine ⟨nofun, fun p' hp' hfits e' he' => ?_⟩
      obtain rfl := Except.error.inj he'
      rw [hp] at hp'
      obtain rfl := Request.push.inj hp'
      exact hr.2 hfits e rfl
    | ok result => exact ⟨fun _ _ => hr.1 result rfl, fun _ _ _ _ he => by cases he⟩
  · refine wp_then (device_spec pulls none fun _ => none) fun copy t _ => ?_
    exact ⟨fun _ _ _ hx => (nomatch hx), nofun⟩
  · refine wp_quiet (fun s b t he => ?_) fun s' b t _ _ _ _ _ => ?_
    · obtain ⟨-, rfl⟩ := exec_inj he
      exact ⟨rfl, rfl, rfl⟩
    · exact ⟨fun _ _ _ hx => (nomatch hx), nofun⟩

/-! ## The law -/

abbrev Sessions (Col Val : Type) [DecidableEq Val] := World (Cmd Col Val) (Store Col Val) Exn (Answer Col Val)

def init (s : Store Col Val) (requests : ℕ → Request Col Val) : Sessions Col Val := start s fun i => (requests i).prog

/-- no transaction is open, and the log tells where the rows come from -/
structure Starts (s : Store Col Val) : Prop where
  clean : ∀ i id, (s.cell id).mine i = none
  missed : ∀ x ∈ s.missed, x.value = none
  settled : ∀ user id, Settled s.log s.missed user id (s.committed user id)

/-- all writes that there are -/
def allWrites (s : Store Col Val) (requests : ℕ → Request Col Val) (x : Write Col Val) : Prop :=
  x ∈ s.log ∨ ∃ i, x ∈ (requests i).writes

theorem Starts.inv (h : Starts s) : Inv (allWrites s requests) s := ⟨fun _ hx => .inl hx, h.missed, h.settled⟩

/-- the next statement of the program is sound -/
def soundNext (requests : ℕ → Request Col Val) (i : ℕ) (s : Store Col Val) : Prg Col Val (Answer Col Val) → Bool
  | .op cmd _ => cmd.sound requests i s
  | .done _ => true

def careful (requests : ℕ → Request Col Val) (w : Sessions Col Val) : Move → Prop
  | .run i => (w.prog i).all (soundNext requests i w.st) = true
  | .crash _ => True

instance (requests : ℕ → Request Col Val) (w : Sessions Col Val) : DecidablePred (careful requests w)
  | .run i => inferInstanceAs (Decidable ((w.prog i).all (soundNext requests i w.st) = true))
  | .crash _ => inferInstanceAs (Decidable True)

theorem stepOk_of_careful {w : Sessions Col Val} {m : Move} (h : careful requests w m) : (merging known requests).stepOk w m := by
  refine stepOk_of _ (fun _ _ => trivial) ?_
  rintro β i cmd f rfl hp
  have hsound : soundNext requests i w.st (.op cmd f) = true := by simpa [careful, hp] using h
  exact hsound

/-- the row is what the write says -/
def Reflects (x : Write Col Val) (row : Option (Row Col Val)) : Prop :=
  match x.value with
  | some v => ∃ r, row = some r ∧ r.values = v ∧ r.updatedAt = x.time ∧ r.deletedAt = none
  | none => ∀ r, row = some r → r.deletedAt = some x.time

/-- the newest write of an id -/
def Write.Latest (x : Write Col Val) (log : List (Write Col Val)) : Prop :=
  x ∈ log ∧ ∀ y ∈ log, y.user = x.user → y.id = x.id → y.time ≤ x.time

theorem reflects_of_settled {x : Write Col Val} {row : Option (Row Col Val)} {log missed : List (Write Col Val)}
    (hd : ∀ y ∈ log, y.user = x.user → y.id = x.id → y.time = x.time → y = x) (hmissed : ∀ y ∈ missed, y.value = none)
    (h : Settled log missed x.user x.id row) (hx : x.Latest log) : Reflects x row := by
  rcases row with _ | r
  · have hvalue := hmissed x (h x hx.1 rfl rfl)
    rw [Reflects, hvalue]
    exact nofun
  · obtain ⟨-, ⟨y, hy, hyuser, hyid, hyversion⟩, hall⟩ := h
    have hle := hall x.version ⟨x, hx.1, rfl, rfl, rfl⟩
    have hle' := hx.2 y hy hyuser hyid
    have hversion : x.version = r.version := by
      rw [← hyversion] at hle ⊢
      rw [hd y hy hyuser hyid (le_antisymm hle' hle)]
    rw [Reflects]
    split
    · next v hv =>
      obtain ⟨hvalues, hupdated, hdeleted⟩ := live_of_version (hversion.symm.trans (by rw [Write.version, hv]))
      exact ⟨r, rfl, hvalues, hupdated, hdeleted⟩
    · next hv =>
      intro r' hr'
      obtain rfl := Option.some.inj hr'
      rcases hdel : r.deletedAt with _ | d
      · have hboth := congrArg Prod.snd hversion
        simp [Write.version, hv, Row.version, hdel] at hboth
      · have hboth := congrArg Prod.fst hversion
        simp only [Write.version, Row.version, hdel, Option.getD_some] at hboth
        rw [hboth]

/-- the columns of a folder -/
inductive FolderCol where
  | name
  | parentId
  | sort
deriving DecidableEq, Repr

instance : Fintype FolderCol where
  elems := {.name, .parentId, .sort}
  complete k := by
    cases k
    · decide
    · decide
    · decide

def folder (name : String) : FolderCol → String
  | .name => name
  | .parentId => ""
  | .sort => "0"

/-- an empty table -/
def noFolders : Store FolderCol String where
  now := 1000
  cell _ := {}
  log := []
  missed := []
  itemsTo _ := none
  tombsTo _ := none

def utc (t : ℤ) : Stamp := ⟨t, some 0⟩

def upsertAt (t : Stamp) (name : String) : Option (Upsert FolderCol String) :=
  some { id := "f1".toList, values := folder name, updatedAt := t }

/-- two devices of user 1; session 4 sends the first write without an offset, and a second one with it -/
def folderRequests : ℕ → Request FolderCol String
  | 0 => .push { user := 1, upserts := [upsertAt (utc 10) "old"], deletes := [] }
  | 1 => .push { user := 1, upserts := [upsertAt (utc 20) "newer"], deletes := [] }
  | 2 => .push { user := 1, upserts := [upsertAt (utc 30) "newest"], deletes := [] }
  | 3 => .push { user := 1, upserts := [], deletes := [⟨"f1".toList, utc 40⟩] }
  | 4 => .push { user := 1, upserts := [upsertAt ⟨10, none⟩ "old", upsertAt (utc 20) "newer"], deletes := [] }
  | _ => .wait 1

theorem starts_noFolders : Starts noFolders := ⟨fun _ _ => rfl, nofun, fun _ _ _ hx => by cases hx⟩

/-- the writes of the five requests -/
theorem distinct_folders : Distinct (allWrites noFolders folderRequests) := by
  have hwrites : ∀ x, allWrites noFolders folderRequests x → x = ⟨1, "f1".toList, 10, some (folder "old")⟩ ∨
      x = ⟨1, "f1".toList, 20, some (folder "newer")⟩ ∨ x = ⟨1, "f1".toList, 30, some (folder "newest")⟩ ∨
      x = ⟨1, "f1".toList, 40, none⟩ := by
    rintro x (hx | ⟨i, hx⟩)
    · cases hx
    · match i with
      | 0 => exact .inl (List.mem_singleton.1 hx)
      | 1 => exact .inr (.inl (List.mem_singleton.1 hx))
      | 2 => exact .inr (.inr (.inl (List.mem_singleton.1 hx)))
      | 3 => exact .inr (.inr (.inr (List.mem_singleton.1 hx)))
      | 4 =>
        rcases List.mem_cons.1 hx with hx | hx
        · exact .inl hx
        · exact .inr (.inl (List.mem_singleton.1 hx))
      | _ + 5 => cases hx
  intro x y hx hy _ _ htime
  rcases hwrites x hx with rfl | rfl | rfl | rfl <;> rcases hwrites y hy with rfl | rfl | rfl | rfl <;>
    first | rfl | (exact absurd htime (by decide))

def folders : Sessions FolderCol String := init noFolders folderRequests

/-- the second write, the first, the delete, and the third, one after the other -/
def inTurn : List Move := moves 1 4 ++ moves 0 4 ++ moves 3 4 ++ moves 2 4

/-- what is told of the folder: when it was updated and deleted -/
def times (ms : List Move) : Option (ℤ × Option ℤ) :=
  ((run folders ms).st.committed 1 "f1".toList).map fun r => (r.updatedAt, r.deletedAt)

/-- how a push has been refused -/
def refused (ms : List Move) (i : ℕ) : Option Exn :=
  match (run folders ms).answer i with
  | some (.error e) => some e
  | _ => none

end LkmService.Starhope
