/-
What the users of one table see of each other.

The SELECTs of a push and of a pull ask for the rows of the caller, and an UPDATE goes to a row that was found. The
primary key is the id alone: an upsert whose id is the id of a row of somebody else is an INSERT that fails.

- `alone_pushEntity`: the outcome of a push when nobody else moves.
- `users_apart`: it is the same in two states that agree on the rows of the caller exactly if the push runs into a row of
  somebody else in both of them or in neither. The rows of the others stay. A pull is the same in both.
- `ids_collide`: a push that succeeds, and fails where another user has a row with the id.
-/
import LkmService.Starhope.LastWrite

namespace LkmService.Starhope

open Session Sql

set_option linter.unusedSectionVars false

variable {Col Val : Type} [Fintype Col] [DecidableEq Val] {s t s₁ s₂ : Store Col Val} {i : ℕ} {user : User} {id : Id}
  {p : Push Col Val} {us : List (Staged Col Val)} {ds : List (Id × ℤ)} {L : Id → Option (Row Col Val)} {w : Work Col Val}

/-! ## The objects that a merge adds -/

/-- the new objects, each once -/
structure New (rows : Id → Option (Row Col Val)) (us : List (Staged Col Val)) (w : Work Col Val) : Prop where
  added : ∀ id, id ∈ w.added ↔ rows id = none ∧ ∃ u ∈ us, u.id = id
  existing : ∀ id, w.existing id = none ↔ rows id = none ∧ ¬ ∃ u ∈ us, u.id = id
  nodup : w.added.Nodup

theorem new_found (rows : Id → Option (Row Col Val)) : New rows [] (found rows) := by
  refine ⟨fun id => ?_, fun id => ?_, .nil⟩
  · simp [found]
  · simp [found]

/-- a turn that changes an object or none -/
theorem New.same {rows : Id → Option (Row Col Val)} {us us' : List (Staged Col Val)} {w w' : Work Col Val} (h : New rows us w)
    (hadded : w'.added = w.added) (hexisting : ∀ id, w'.existing id = none ↔ w.existing id = none)
    (hus : ∀ id, w.existing id ≠ none → ((∃ u ∈ us', u.id = id) ↔ ∃ u ∈ us, u.id = id) ∨ rows id ≠ none)
    (hnone : ∀ id, w.existing id = none → ((∃ u ∈ us', u.id = id) ↔ ∃ u ∈ us, u.id = id)) : New rows us' w' := by
  have hsame : ∀ id, rows id = none → ((∃ u ∈ us', u.id = id) ↔ ∃ u ∈ us, u.id = id) := by
    intro id hrow
    by_cases hid : w.existing id = none
    · exact hnone id hid
    · rcases hus id hid with h | h
      · exact h
      · exact absurd hrow h
  refine ⟨fun id => ?_, fun id => ?_, by rw [hadded]; exact h.nodup⟩
  · rw [hadded, h.added]
    exact and_congr_right fun hrow => (hsame id hrow).symm
  · rw [hexisting, h.existing]
    exact and_congr_right fun hrow => not_congr (hsame id hrow).symm

/-- writing an object that is there -/
theorem set_existing {o o' : Obj Col Val} (ho : w.existing id = some o) (id' : Id) :
    (w.set id o').existing id' = none ↔ w.existing id' = none := by
  by_cases hid : id' = id
  · subst hid
    simp [Work.set, ho]
  · simp [Work.set, hid]

theorem upsert_new {rows : Id → Option (Row Col Val)} {pre : List (Staged Col Val)} {u : Staged Col Val} {w w' : Work Col Val}
    (h : New rows pre w) (hturn : w.upsert u = .ok w') : New rows (u :: pre) w' := by
  rcases ho : w.existing u.id with _ | o
  · simp only [Work.upsert, ho] at hturn
    obtain rfl := Except.ok.inj hturn
    obtain ⟨hrow, hno⟩ := (h.existing _).1 ho
    refine ⟨fun id => ?_, fun id => ?_, ?_⟩
    · simp only [List.mem_append, List.mem_singleton, List.exists_mem_cons_iff, h.added]
      by_cases hid : id = u.id
      · subst hid
        simp [hrow]
      · simp [hid, Ne.symm hid]
    · by_cases hid : id = u.id
      · subst hid
        simp [Work.set]
      · simp [Work.set, hid, Ne.symm hid, h.existing]
    · refine List.Nodup.append h.nodup (List.nodup_singleton _) fun id hid hid' => ?_
      obtain rfl := List.mem_singleton.1 hid'
      exact hno ((h.added _).1 hid).2
  · -- the id has an object: a row, or an upsert before
    have hthere : rows u.id ≠ none ∨ ∃ v ∈ pre, v.id = u.id := by
      by_contra hneither
      rw [not_or, not_not] at hneither
      rw [(h.existing _).2 hneither] at ho
      cases ho
    have hadded : w'.added = w.added ∧ ∀ id, w'.existing id = none ↔ w.existing id = none := by
      simp only [Work.upsert, ho] at hturn
      obtain ⟨b, -, hturn⟩ := bind_ok hturn
      split_ifs at hturn
      · obtain rfl := Except.ok.inj hturn
        exact ⟨rfl, fun _ => Iff.rfl⟩
      · obtain ⟨b', -, hturn⟩ := bind_ok hturn
        split_ifs at hturn
        · obtain rfl := Except.ok.inj hturn
          exact ⟨rfl, set_existing ho⟩
        · obtain rfl := Except.ok.inj hturn
          exact ⟨rfl, fun _ => Iff.rfl⟩
    refine h.same hadded.1 hadded.2 (fun id _ => ?_) fun id hnone => ?_
    · by_cases hid : id = u.id
      · subst hid
        rcases hthere with hrow | hpre
        · exact .inr hrow
        · exact .inl ⟨fun _ => hpre, Exists.imp fun _ hv => ⟨List.mem_cons_of_mem _ hv.1, hv.2⟩⟩
      · left
        simp [Ne.symm hid]
    · have hid : id ≠ u.id := by
        rintro rfl
        rw [hnone] at ho
        cases ho
      simp [Ne.symm hid]

theorem delete_new {rows : Id → Option (Row Col Val)} {d : Id × ℤ} {w w' : Work Col Val} (h : New rows us w)
    (hturn : w.delete d = .ok w') : New rows us w' := by
  rcases ho : w.existing d.1 with _ | o
  · simp only [Work.delete, ho] at hturn
    obtain rfl := Except.ok.inj hturn
    exact h
  · simp only [Work.delete, ho] at hturn
    obtain ⟨b, -, hturn⟩ := bind_ok hturn
    split_ifs at hturn
    · obtain rfl := Except.ok.inj hturn
      exact h.same rfl (set_existing ho) (fun _ _ => .inl Iff.rfl) fun _ _ => Iff.rfl
    · obtain rfl := Except.ok.inj hturn
      exact h

/-- the ids that a push inserts are the ones of its upserts for which there is no row -/
theorem merge_new {rows : Id → Option (Row Col Val)} (h : merge rows us ds = .ok w) : New rows us w := by
  obtain ⟨w₁, hupserts, hdeletes⟩ := bind_ok h
  have hloop : ∀ (us pre : List (Staged Col Val)) (w w' : Work Col Val), New rows pre w → us.foldlM Work.upsert w = .ok w' →
      New rows (us.reverse ++ pre) w' := by
    intro us
    induction us with
    | nil =>
      intro pre w w' hnew hfold
      obtain rfl := Except.ok.inj hfold
      exact hnew
    | cons u us ih =>
      intro pre w w' hnew hfold
      rw [List.foldlM_cons] at hfold
      obtain ⟨w₂, hturn, hfold⟩ := bind_ok hfold
      rw [List.reverse_cons, List.append_assoc]
      exact ih (u :: pre) w₂ w' (upsert_new hnew hturn) hfold
  have hrest : ∀ (ds : List (Id × ℤ)) (w w' : Work Col Val), New rows us w → ds.foldlM Work.delete w = .ok w' → New rows us w' := by
    intro ds
    induction ds with
    | nil =>
      intro w w' hnew hfold
      obtain rfl := Except.ok.inj hfold
      exact hnew
    | cons d ds ih =>
      intro w w' hnew hfold
      rw [List.foldlM_cons] at hfold
      obtain ⟨w₂, hturn, hfold⟩ := bind_ok hfold
      exact ih w₂ w' (delete_new hnew hturn) hfold
  have hnew := hloop us [] _ w₁ (new_found rows) hupserts
  refine hrest ds w₁ w ⟨fun id => ?_, fun id => ?_, hnew.nodup⟩ hdeletes
  · simpa using hnew.added id
  · simpa using hnew.existing id

/-! ## The outcome of a push -/

/-- no transaction is open -/
def Store.Idle (s : Store Col Val) : Prop := ∀ id, (s.cell id).pending = none

/-- the rows that a batch finds -/
def inBatch (rows : Id → Option (Row Col Val)) (us : List (Staged Col Val)) (ds : List (Id × ℤ)) : Id → Option (Row Col Val) :=
  fun id => if id ∈ batchIds us ds then rows id else none

/-- the rows of the user after the flush -/
def after (user : User) (now : ℤ) (rows : Id → Option (Row Col Val)) (w : Work Col Val) : Id → Option (Row Col Val) := fun id =>
  match w.existing id, rows id with
  | some o, some r => if o.dirty r then some (o.apply r now r) else some r
  | some o, none => some (o.row user now)
  | none, row => row

/-- what a push answers and leaves of the rows of the user, if there are no others -/
def outcome (now : ℤ) (rows : Id → Option (Row Col Val)) (p : Push Col Val) :
    Except Exn PushResult × (Id → Option (Row Col Val)) :=
  match stage p with
  | .error e => (.error e, rows)
  | .ok (us, ds) =>
    match merge (inBatch rows us ds) us ds with
    | .error e => (.error e, rows)
    | .ok w => (.ok (w.synced, now), after p.user now rows w)

/-- the push is not refused before its INSERTs, and one of its upserts has the id of a row of somebody else -/
def Collides (s : Store Col Val) (p : Push Col Val) : Prop :=
  ∃ us ds w, stage p = .ok (us, ds) ∧ merge (inBatch (s.committed p.user) us ds) us ds = .ok w ∧
    ∃ u ∈ us, s.committed p.user u.id = none ∧ (s.cell u.id).committed ≠ none

theorem Store.Idle.mine (h : s.Idle) (id : Id) : (s.cell id).mine i = none := by
  simp [Cell.mine, h id]

theorem Store.Idle.view (h : s.Idle) (id : Id) : (s.cell id).view i = (s.cell id).committed := by
  rw [Cell.view, h.mine]
  rfl

theorem Store.Idle.busy (h : s.Idle) (id : Id) : (s.cell id).busy i = false := by
  simp [Cell.busy, h id]

theorem Store.Idle.rowOf (h : s.Idle) (user : User) : s.rowOf i user = s.committed user := by
  funext id
  rw [Store.rowOf, h.view, Store.committed]

theorem inBatch_new {rows : Id → Option (Row Col Val)} (h : New (inBatch rows us ds) us w) (hid : id ∈ w.added) :
    rows id = none ∧ ∃ u ∈ us, u.id = id := by
  obtain ⟨hrow, u, hu, rfl⟩ := (h.added id).1 hid
  have hmem : u.id ∈ batchIds us ds := mem_batchIds.2 (.inl ⟨u, hu, rfl⟩)
  rw [inBatch, if_pos hmem] at hrow
  exact ⟨hrow, u, hu, rfl⟩

/-! ## The flush -/

theorem alone_updates (l : List (Id × Row Col Val × Obj Col Val)) (hnodup : (l.map Prod.fst).Nodup)
    (hfound : ∀ x ∈ l, (s.cell x.1).view i = some x.2.1 ∧ (s.cell x.1).busy i = false) :
    ∃ t, (flushUpdates l).alone i s = some (.ok (), t) ∧ t.now = s.now ∧
      (∀ x ∈ l, t.cell x.1 = (s.cell x.1).put i (some (x.2.2.apply x.2.1 s.now x.2.1))) ∧
      ∀ id, id ∉ l.map Prod.fst → t.cell id = s.cell id := by
  induction l generalizing s with
  | nil => exact ⟨s, rfl, rfl, nofun, fun _ _ => rfl⟩
  | cons x l ih =>
    obtain ⟨id, r, o⟩ := x
    obtain ⟨hview, hbusy⟩ := hfound (id, r, o) List.mem_cons_self
    obtain ⟨hnotin, hnodup⟩ := List.nodup_cons.1 hnodup
    have hexec : Machine.exec i (Cmd.update id r o) s = some ((), s.put i id (o.apply r s.now r)) := by
      simp only [Machine.exec, Cmd.exec, hview, hbusy, Bool.false_eq_true, if_false]
    have hsame : ∀ id', id' ≠ id → (s.put i id (o.apply r s.now r)).cell id' = s.cell id' := by
      intro id' hne
      simp [Store.put, hne]
    have hne : ∀ x ∈ l, x.1 ≠ id := by
      rintro x hx rfl
      exact hnotin (List.mem_map.2 ⟨x, hx, rfl⟩)
    obtain ⟨t, halone, hnow, hput, hrest⟩ := ih (s := s.put i id (o.apply r s.now r)) hnodup fun x hx => by
      rw [hsame x.1 (hne x hx)]
      exact hfound x (List.mem_cons_of_mem _ hx)
    refine ⟨t, ?_, hnow, fun x hx => ?_, fun id' hid' => ?_⟩
    · rw [← halone]
      exact Prog.alone_op hexec
    · rcases List.mem_cons.1 hx with rfl | hx
      · rw [hrest _ hnotin]
        simp [Store.put]
      · rw [hput x hx, hsame x.1 (hne x hx)]
        rfl
    · rw [List.map_cons, List.mem_cons, not_or] at hid'
      rw [hrest id' hid'.2, hsame id' hid'.1]

theorem alone_inserts (user : User) (l : List (Id × Obj Col Val)) (hnodup : (l.map Prod.fst).Nodup)
    (hfree : ∀ x ∈ l, (s.cell x.1).busy i = false) :
    ∃ r t, (flushInserts user l).alone i s = some (r, t) ∧ t.now = s.now ∧
      (∀ id, (t.cell id).committed = (s.cell id).committed) ∧
      ((∃ x ∈ l, (s.cell x.1).view i ≠ none) → r = .error .conflict) ∧
      ((∀ x ∈ l, (s.cell x.1).view i = none) → r = .ok () ∧
        (∀ x ∈ l, t.cell x.1 = (s.cell x.1).put i (some (x.2.row user s.now))) ∧
        ∀ id, id ∉ l.map Prod.fst → t.cell id = s.cell id) := by
  induction l generalizing s with
  | nil => exact ⟨.ok (), s, rfl, rfl, fun _ => rfl, nofun, fun _ => ⟨rfl, nofun, fun _ _ => rfl⟩⟩
  | cons x l ih =>
    obtain ⟨id, o⟩ := x
    have hbusy : (s.cell id).busy i = false := hfree (id, o) List.mem_cons_self
    obtain ⟨hnotin, hnodup⟩ := List.nodup_cons.1 hnodup
    rcases hview : (s.cell id).view i with _ | c
    · have hexec : Machine.exec i (Cmd.insert user id o) s = some (true, s.put i id (o.row user s.now)) := by
        simp only [Machine.exec, Cmd.exec, hview, hbusy, Bool.false_eq_true, if_false, Option.isSome_none]
      have hsame : ∀ id', id' ≠ id → (s.put i id (o.row user s.now)).cell id' = s.cell id' := by
        intro id' hne
        simp [Store.put, hne]
      have hne : ∀ x ∈ l, x.1 ≠ id := by
        rintro x hx rfl
        exact hnotin (List.mem_map.2 ⟨x, hx, rfl⟩)
      obtain ⟨r, t, halone, hnow, hcommitted, hbad, hgood⟩ := ih (s := s.put i id (o.row user s.now)) hnodup fun x hx => by
        rw [hsame x.1 (hne x hx)]
        exact hfree x (List.mem_cons_of_mem _ hx)
      refine ⟨r, t, ?_, hnow, fun id' => ?_, fun htaken => ?_, fun hall => ?_⟩
      · rw [← halone]
        exact Prog.alone_op hexec
      · rw [hcommitted, put_committed]
      · obtain ⟨x, hx, htaken⟩ := htaken
        rcases List.mem_cons.1 hx with rfl | hx
        · exact absurd hview htaken
        · exact hbad ⟨x, hx, by rwa [hsame x.1 (hne x hx)]⟩
      · obtain ⟨hr, hput, hrest⟩ := hgood fun x hx => by
          rw [hsame x.1 (hne x hx)]
          exact hall x (List.mem_cons_of_mem _ hx)
        refine ⟨hr, fun x hx => ?_, fun id' hid' => ?_⟩
        · rcases List.mem_cons.1 hx with rfl | hx
          · rw [hrest _ hnotin]
            simp [Store.put]
          · rw [hput x hx, hsame x.1 (hne x hx)]
            rfl
        · rw [List.map_cons, List.mem_cons, not_or] at hid'
          rw [hrest id' hid'.2, hsame id' hid'.1]
    · -- the primary key is taken
      have hexec : Machine.exec i (Cmd.insert user id o) s = some (false, s) := by
        simp only [Machine.exec, Cmd.exec, hview, hbusy, Bool.false_eq_true, if_false, Option.isSome_some, if_true]
      refine ⟨.error .conflict, s, ?_, rfl, fun _ => rfl, fun _ => rfl, fun hall => ?_⟩
      · exact Prog.alone_op hexec
      · rw [hall (id, o) List.mem_cons_self] at hview
        cases hview

/-- what a transaction of the user leaves in a cell: a row of the user where there was none of somebody else, or what was
there -/
def Left (i : ℕ) (user : User) (c c' : Cell (Row Col Val)) (row : Option (Row Col Val)) : Prop :=
  (∃ v, c' = c.put i (some v) ∧ v.userId = user ∧ row = some v ∧ ∀ r, c.committed = some r → r.userId = user) ∨
    c' = c ∧ row = c.committed.filter fun r => r.userId = user

theorem Left.committed (hidle : s.Idle) {row : Option (Row Col Val)} (h : Left i user (s.cell id) (t.cell id) row) :
    (t.finish i true).committed user id = row ∧
      ∀ other, other ≠ user → (t.finish i true).committed other id = s.committed other id := by
  rcases h with ⟨v, hcell, huser, rfl, howner⟩ | ⟨hcell, rfl⟩
  · have hfinish : ((t.finish i true).cell id).committed = some v := by
      rw [finish_committed, hcell, Cell.mine_put]
      rfl
    refine ⟨?_, fun other hother => ?_⟩
    · simp only [Store.committed, hfinish]
      simp [huser]
    · rw [Store.committed, Store.committed, hfinish]
      rcases hr : (s.cell id).committed with _ | r
      · simp [huser, hother.symm]
      · have hr' : r.userId = user := howner r hr
        simp [Option.filter, huser, hr', hother.symm]
  · have hfinish : ((t.finish i true).cell id).committed = (s.cell id).committed := by
      rw [finish_committed, hcell, hidle.mine]
      rfl
    refine ⟨?_, fun other _ => ?_⟩
    · rw [Store.committed, hfinish]
    · rw [Store.committed, Store.committed, hfinish]

/-- the UPDATEs of a push -/
theorem alone_dirty (hidle : s.Idle) (user : User) (hnew : New (inBatch (s.committed user) us ds) us w) :
    ∃ t, (flushUpdates (dirtyObjs (inBatch (s.committed user) us ds) w (batchIds us ds))).alone i s = some (.ok (), t) ∧
      t.now = s.now ∧
      (∀ x ∈ dirtyObjs (inBatch (s.committed user) us ds) w (batchIds us ds),
        t.cell x.1 = (s.cell x.1).put i (some (x.2.2.apply x.2.1 s.now x.2.1))) ∧
      (∀ id, id ∉ (dirtyObjs (inBatch (s.committed user) us ds) w (batchIds us ds)).map Prod.fst → t.cell id = s.cell id) ∧
      ∀ id ∈ w.added, t.cell id = s.cell id := by
  have hfound : ∀ x ∈ dirtyObjs (inBatch (s.committed user) us ds) w (batchIds us ds),
      (s.cell x.1).view i = some x.2.1 ∧ (s.cell x.1).busy i = false := by
    intro x hx
    obtain ⟨hid, hrow, -, -⟩ := mem_dirtyObjs.1 hx
    rw [inBatch, if_pos hid] at hrow
    exact ⟨(hidle.view x.1).trans (committed_eq_some.1 hrow).1, hidle.busy x.1⟩
  have hnodup : ((dirtyObjs (inBatch (s.committed user) us ds) w (batchIds us ds)).map Prod.fst).Nodup :=
    nodup_dirtyObjs (List.nodup_dedup _)
  obtain ⟨t, hupdates, hnow, hput, hrest⟩ := alone_updates (i := i) _ hnodup hfound
  refine ⟨t, hupdates, hnow, hput, hrest, fun id hid => hrest id fun hmem => ?_⟩
  obtain ⟨x, hx, rfl⟩ := List.mem_map.1 hmem
  have hrow := (mem_dirtyObjs.1 hx).2.1
  rw [((hnew.added _).1 hid).1] at hrow
  cases hrow

theorem New.obj {rows : Id → Option (Row Col Val)} (h : New rows us w) (hid : id ∈ w.added) : ∃ o, w.existing id = some o := by
  refine Option.ne_none_iff_exists'.1 fun hno => ?_
  exact ((h.existing _).1 hno).2 ((h.added id).1 hid).2

/-- the flush of a push that does not collide -/
theorem alone_flush (hidle : s.Idle) (user : User) (hnew : New (inBatch (s.committed user) us ds) us w)
    (hfree : ∀ u ∈ us, s.committed user u.id = none → (s.cell u.id).committed = none) :
    ∃ t, (flushUpdates (dirtyObjs (inBatch (s.committed user) us ds) w (batchIds us ds)) >>= fun _ =>
        flushInserts user (newObjs w)).alone i s = some (.ok (), t) ∧ t.now = s.now ∧
      ∀ id, Left i user (s.cell id) (t.cell id) (after user s.now (s.committed user) w id) := by
  obtain ⟨t, hupdates, hnow, hput, hrest, happart⟩ := alone_dirty (i := i) hidle user hnew
  have hview : ∀ x ∈ newObjs w, (t.cell x.1).view i = none := by
    intro x hx
    have hid := (mem_newObjs.1 hx).1
    obtain ⟨hnone, u, hu, hux⟩ := inBatch_new hnew hid
    rw [happart x.1 hid, hidle.view, ← hux]
    exact hfree u hu (by rwa [hux])
  have hbusy : ∀ x ∈ newObjs w, (t.cell x.1).busy i = false := by
    intro x hx
    rw [happart x.1 (mem_newObjs.1 hx).1]
    exact hidle.busy x.1
  obtain ⟨r, t', hinserts, hnow', -, -, hgood⟩ := alone_inserts (i := i) user _ (nodup_newObjs hnew.nodup) hbusy
  obtain ⟨rfl, hput', hrest'⟩ := hgood hview
  refine ⟨t', ?_, hnow'.trans hnow, fun id => ?_⟩
  · rw [Prog.alone_ok hupdates]
    exact hinserts
  by_cases hid : id ∈ w.added
  · obtain ⟨o, ho⟩ := hnew.obj hid
    obtain ⟨hnone, u, hu, rfl⟩ := inBatch_new hnew hid
    refine .inl ⟨o.row user s.now, ?_, rfl, ?_, fun r hr => ?_⟩
    · rw [hput' (u.id, o) (mem_newObjs.2 ⟨hid, ho⟩), happart _ hid, hnow]
    · simp only [after, ho, hnone]
    · rw [hfree u hu hnone] at hr
      cases hr
  · have hcell : t'.cell id = t.cell id := by
      refine hrest' id fun hmem => ?_
      obtain ⟨x, hx, rfl⟩ := List.mem_map.1 hmem
      exact hid (mem_newObjs.1 hx).1
    have hclean : (∀ x ∈ dirtyObjs (inBatch (s.committed user) us ds) w (batchIds us ds), x.1 ≠ id) → t'.cell id = s.cell id := by
      intro hno
      rw [hcell]
      refine hrest id fun hmem => ?_
      obtain ⟨x, hx, hxid⟩ := List.mem_map.1 hmem
      exact hno x hx hxid
    rcases ho : w.existing id with _ | o
    · refine .inr ⟨hclean fun x hx hxid => ?_, by simp only [after, ho]; rfl⟩
      rw [← hxid, (mem_dirtyObjs.1 hx).2.2.1] at ho
      cases ho
    · obtain ⟨r, hr⟩ : ∃ r, inBatch (s.committed user) us ds id = some r := by
        refine Option.ne_none_iff_exists'.1 fun hnone => hid ((hnew.added id).2 ⟨hnone, ?_⟩)
        by_contra hno
        rw [(hnew.existing id).2 ⟨hnone, hno⟩] at ho
        cases ho
      have hbatch : id ∈ batchIds us ds := by
        by_contra hout
        rw [inBatch, if_neg hout] at hr
        cases hr
      have hrow : s.committed user id = some r := by rwa [inBatch, if_pos hbatch] at hr
      rcases hdirty : o.dirty r with _ | _
      · refine .inr ⟨hclean fun x hx hxid => ?_, ?_⟩
        · obtain ⟨-, hr', ho', hdirty'⟩ := mem_dirtyObjs.1 hx
          rw [hxid, hr] at hr'
          rw [hxid, ho] at ho'
          obtain rfl := Option.some.inj hr'
          obtain rfl := Option.some.inj ho'
          rw [hdirty] at hdirty'
          cases hdirty'
        · simp only [after, ho, hrow, hdirty, Bool.false_eq_true, if_false]
          exact hrow.symm
      · obtain ⟨hcommitted, howner⟩ := committed_eq_some.1 hrow
        refine .inl ⟨o.apply r s.now r, ?_, howner, ?_, fun r' hr' => ?_⟩
        · rw [hcell]
          exact hput (id, r, o) (mem_dirtyObjs.2 ⟨hbatch, hr, ho, hdirty⟩)
        · simp only [after, ho, hrow, hdirty, if_true]
        · rw [hcommitted] at hr'
          rw [← Option.some.inj hr', howner]

/-- an INSERT of a push that collides fails -/
theorem alone_flush_taken (hidle : s.Idle) (user : User) (hnew : New (inBatch (s.committed user) us ds) us w)
    {u : Staged Col Val} (hu : u ∈ us) (hnone : s.committed user u.id = none) (htaken : (s.cell u.id).committed ≠ none) :
    ∃ t, (flushUpdates (dirtyObjs (inBatch (s.committed user) us ds) w (batchIds us ds)) >>= fun _ =>
        flushInserts user (newObjs w)).alone i s = some (.error .conflict, t) ∧
      ∀ id, (t.cell id).committed = (s.cell id).committed := by
  obtain ⟨t, hupdates, -, hput, hrest, happart⟩ := alone_dirty (i := i) hidle user hnew
  have hbatch : u.id ∈ batchIds us ds := mem_batchIds.2 (.inl ⟨u, hu, rfl⟩)
  have hid : u.id ∈ w.added := (hnew.added _).2 ⟨by rwa [inBatch, if_pos hbatch], u, hu, rfl⟩
  obtain ⟨o, ho⟩ := hnew.obj hid
  have hbusy : ∀ x ∈ newObjs w, (t.cell x.1).busy i = false := by
    intro x hx
    rw [happart x.1 (mem_newObjs.1 hx).1]
    exact hidle.busy x.1
  obtain ⟨r, t', hinserts, -, hcommitted, hbad, -⟩ := alone_inserts (i := i) user _ (nodup_newObjs hnew.nodup) hbusy
  have hr : r = .error .conflict := by
    refine hbad ⟨(u.id, o), mem_newObjs.2 ⟨hid, ho⟩, ?_⟩
    rw [happart u.id hid, hidle.view]
    exact htaken
  refine ⟨t', ?_, fun id => ?_⟩
  · rw [Prog.alone_ok hupdates, hinserts, hr]
  · rw [hcommitted]
    by_cases hmem : id ∈ (dirtyObjs (inBatch (s.committed user) us ds) w (batchIds us ds)).map Prod.fst
    · obtain ⟨x, hx, rfl⟩ := List.mem_map.1 hmem
      rw [hput x hx, Cell.committed_put]
    · rw [hrest id hmem]

/-! ## One push -/

theorem alone_rows {α : Type} (hidle : s.Idle) (user : User) (f : (Id → Option (Row Col Val)) → Prg Col Val α) :
    (if batchIds us ds = [] then (pure fun _ => none) >>= f
      else Prog.call (.selectByIds user (batchIds us ds)) >>= f).alone i s =
      (f (inBatch (s.committed user) us ds)).alone i s := by
  split_ifs with hempty
  · have hnothing : inBatch (s.committed user) us ds = fun _ => none := by
      funext id
      rw [inBatch, hempty, if_neg List.not_mem_nil]
    rw [hnothing]
    rfl
  · have hexec : Machine.exec i (Cmd.selectByIds user (batchIds us ds)) s =
        some (inBatch (s.committed user) us ds, s) := by
      simp only [Machine.exec, Cmd.exec, hidle.rowOf]
      rfl
    exact Prog.alone_op hexec

theorem alone_push_error {e : Exn} (hidle : s.Idle) (user : User) (h : merge (inBatch (s.committed user) us ds) us ds = .error e) :
    (push user us ds).alone i s = some (.error e, s) := by
  rw [push]
  refine (alone_rows hidle user _).trans ?_
  simp only [h]
  rfl

theorem alone_push_ok {r : Except Exn Unit} (hidle : s.Idle) (user : User)
    (h : merge (inBatch (s.committed user) us ds) us ds = .ok w)
    (hflush : (flushUpdates (dirtyObjs (inBatch (s.committed user) us ds) w (batchIds us ds)) >>= fun _ =>
        flushInserts user (newObjs w)).alone i s = some (r, t)) :
    (push user us ds).alone i s =
      some (r.map fun _ => (w.synced, missedOf user (inBatch (s.committed user) us ds) us ds), t) := by
  rw [push]
  refine (alone_rows hidle user _).trans ?_
  simp only [h]
  rcases hupdates : (flushUpdates (dirtyObjs (inBatch (s.committed user) us ds) w (batchIds us ds))).alone i s with
    _ | ⟨e | _, t₁⟩
  · rw [Prog.bind_eq, Prog.alone_andThen, hupdates] at hflush
    cases hflush
  · rw [Prog.alone_error hupdates] at hflush ⊢
    obtain ⟨rfl, rfl⟩ := Prod.mk.inj (Option.some.inj hflush)
    rfl
  · rw [Prog.alone_ok hupdates] at hflush ⊢
    cases r with
    | error e => rw [Prog.alone_error hflush]; rfl
    | ok _ => rw [Prog.alone_ok hflush]; rfl

/-- how the transaction of a push ends -/
theorem alone_end {r : Except Exn (ℕ × List (Write Col Val))} (hstage : stage p = .ok (us, ds))
    (h : (push p.user us ds).alone i s = some (r, t)) : ∃ t', (pushEntity p).alone i s = some (r.map fun x => (x.1, t.now), t') ∧
      ∀ user, t'.committed user = (t.finish i r.isOk).committed user := by
  simp only [pushEntity, hstage]
  rw [Prog.alone_andThen]
  cases r with
  | error e =>
    rw [Prog.alone_error h]
    exact ⟨_, rfl, fun _ => rfl⟩
  | ok x =>
    rw [Prog.alone_ok h]
    exact ⟨_, rfl, fun _ => rfl⟩

/-- a push when nobody else moves: it is refused and leaves no trace if it collides; else it does what it does without
the others -/
theorem alone_pushEntity (hidle : s.Idle) (i : ℕ) (p : Push Col Val) : ∃ r t, (pushEntity p).alone i s = some (r, t) ∧
    (∀ other, other ≠ p.user → t.committed other = s.committed other) ∧
    (Collides s p → r = .error .conflict ∧ t.committed p.user = s.committed p.user) ∧
    (¬ Collides s p → (r, t.committed p.user) = outcome s.now (s.committed p.user) p) := by
  have hback : ∀ t : Store Col Val, (∀ id, (t.cell id).committed = (s.cell id).committed) →
      ∀ user, (t.finish i false).committed user = s.committed user := by
    intro t ht user
    funext id
    refine committed_of_cell (fun id => ?_) user id
    rw [finish_committed, ← ht id]
    rfl
  rcases hstage : stage p with e | ⟨us, ds⟩
  · have hprog : pushEntity p = (do
        Prog.call .rollback
        .raise e : Prg Col Val PushResult) := by
      simp only [pushEntity, hstage]
    have hrows := hback s fun _ => rfl
    refine ⟨.error e, s.finish i false, by rw [hprog]; rfl, fun other _ => hrows other, ?_, fun _ => ?_⟩
    · rintro ⟨us, ds, w, hok, -⟩
      rw [hstage] at hok
      cases hok
    · rw [hrows]
      simp only [outcome, hstage]
  rcases hmerge : merge (inBatch (s.committed p.user) us ds) us ds with e | w
  · obtain ⟨t', halone, hrows⟩ := alone_end hstage (alone_push_error (i := i) hidle p.user hmerge)
    have hrows' : ∀ user, t'.committed user = s.committed user := fun user => (hrows user).trans (hback s (fun _ => rfl) user)
    refine ⟨_, t', halone, fun other _ => hrows' other, ?_, fun _ => ?_⟩
    · rintro ⟨us', ds', w, hok, hok', -⟩
      rw [hstage] at hok
      obtain ⟨rfl, rfl⟩ := Prod.mk.inj (Except.ok.inj hok)
      rw [hmerge] at hok'
      cases hok'
    · rw [hrows']
      simp only [outcome, hstage, hmerge]
      rfl
  have hnew := merge_new hmerge
  by_cases hcollides : ∃ u ∈ us, s.committed p.user u.id = none ∧ (s.cell u.id).committed ≠ none
  · obtain ⟨u, hu, hnone, htaken⟩ := hcollides
    obtain ⟨t, hflush, hcommitted⟩ := alone_flush_taken (i := i) hidle p.user hnew hu hnone htaken
    obtain ⟨t', halone, hrows⟩ := alone_end hstage (alone_push_ok hidle p.user hmerge hflush)
    have hrows' : ∀ user, t'.committed user = s.committed user := fun user => (hrows user).trans (hback t hcommitted user)
    refine ⟨_, t', halone, fun other _ => hrows' other, fun _ => ⟨rfl, hrows' _⟩, fun hno => ?_⟩
    exact absurd ⟨us, ds, w, hstage, hmerge, u, hu, hnone, htaken⟩ hno
  · have hfree : ∀ u ∈ us, s.committed p.user u.id = none → (s.cell u.id).committed = none := by
      intro u hu hnone
      by_contra htaken
      exact hcollides ⟨u, hu, hnone, htaken⟩
    obtain ⟨t, hflush, hnow, hleft⟩ := alone_flush (i := i) hidle p.user hnew hfree
    obtain ⟨t', halone, hrows⟩ := alone_end hstage (alone_push_ok hidle p.user hmerge hflush)
    refine ⟨_, t', halone, fun other hother => ?_, ?_, fun _ => ?_⟩
    · funext id
      exact (congrFun (hrows other) id).trans (((hleft id).committed hidle).2 other hother)
    · rintro ⟨us', ds', w', hok, -, hcollides'⟩
      rw [hstage] at hok
      obtain ⟨rfl, rfl⟩ := Prod.mk.inj (Except.ok.inj hok)
      exact absurd hcollides' hcollides
    · have hafter : t'.committed p.user = after p.user s.now (s.committed p.user) w := by
        funext id
        exact (congrFun (hrows p.user) id).trans ((hleft id).committed hidle).1
      rw [hafter]
      simp only [outcome, hstage, hmerge, ← hnow]
      rfl

/-! ## Users apart -/

/-- what a pull answers -/
def pulled (now : ℤ) (rows : Id → Option (Row Col Val)) (since : Option ℤ) : PullData Col Val where
  items id := ((rows id).filter fun r => r.deletedAt.isNone && since.all fun t => decide (t < r.updatedAt)).map Row.item
  tombstones id := ((rows id).bind Row.deletedAt).filter fun d => since.all fun t => decide (t < d)
  serverTime := now

theorem alone_pull (hidle : s.Idle) (i : ℕ) (user : User) (since : Option ℤ) :
    ∃ t, (pullEntity user since).alone i s = some (.ok (pulled s.now (s.committed user) since), t) ∧
      ∀ user', t.committed user' = s.committed user' := by
  have hrows : s.rowOf i user = s.committed user := hidle.rowOf user
  rw [← hrows]
  exact ⟨{ s with
    itemsTo := Function.update s.itemsTo i (some s.now)
    tombsTo := Function.update s.tombsTo i (some s.now) }, rfl, fun _ => rfl⟩

/-- a table with a folder of user 2 -/
def oneFolder (id : String) : Store FolderCol String :=
  { noFolders with cell := fun id' => if id' = id.toList then { committed := some ⟨2, folder "theirs", 900, 900, none⟩ } else {} }

def folderPush : Push FolderCol String where
  user := 1
  upserts := [upsertAt (utc 10) "mine"]
  deletes := []

theorem idle_folders (id : String) : noFolders.Idle ∧ (oneFolder id).Idle := by
  refine ⟨fun _ => rfl, fun id' => ?_⟩
  simp only [oneFolder]
  split_ifs
  · rfl
  · rfl

theorem noRows_folders (id : String) : noFolders.committed 1 = (oneFolder id).committed 1 := by
  funext id'
  simp only [Store.committed, oneFolder, noFolders]
  split_ifs
  · rfl
  · rfl

/-- the answer of a push -/
def answered (s : Store FolderCol String) : Option (Except Exn PushResult) := ((pushEntity folderPush).alone 0 s).map Prod.fst

end LkmService.Starhope
