/-
What the merge of a push makes of the rows that it has found.

- `Version`: what a row, an object or a write says of an entity: a time, and the values or that it is deleted.
- `merge_spec`: for each id, the object is the newest among the row that was found and the writes of the batch. A delete
  without a row and an upsert leaves nothing.
- `mixed`: a time without an offset has been taken over and a further write of the id is compared with it. A batch that
  is not mixed does not raise (`merge_ok`).
-/
import LkmService.Starhope.Model

namespace LkmService.Starhope

open Session Sql

variable {Col Val : Type} {w w' : Work Col Val} {rows : Id → Option (Row Col Val)} {id : Id} {u : Staged Col Val}
  {us upserts pre : List (Staged Col Val)} {deletes : List (Id × ℤ)}

/-! ## Comparisons -/

theorem ge_of_aware {x : ℤ} {m : Moment} (h : m.naive = false) : (Moment.utc x).ge m = .ok (decide (m.instant ≤ x)) := by
  have hsame : (Moment.utc x).naive = m.naive := h.symm
  rw [Moment.ge, if_pos hsame]
  rfl

theorem lt_of_aware {x : ℤ} {m : Moment} (h : m.naive = false) : (Moment.utc x).lt m = .ok (decide (x < m.instant)) := by
  have hsame : (Moment.utc x).naive = m.naive := h.symm
  rw [Moment.lt, if_pos hsame]
  rfl

theorem aware_lt {x : ℤ} {m : Moment} (h : m.naive = false) : m.lt (Moment.utc x) = .ok (decide (m.instant < x)) := by
  have hsame : m.naive = (Moment.utc x).naive := h
  rw [Moment.lt, if_pos hsame]
  rfl

/-! ## Versions -/

abbrev Version (Col Val : Type) := ℤ × Option (Col → Val)

def Row.version (r : Row Col Val) : Version Col Val := (r.deletedAt.getD r.updatedAt, if r.deletedAt.isNone then some r.values else none)

def Obj.version (o : Obj Col Val) : Version Col Val :=
  ((o.deletedAt.getD o.updatedAt).instant, if o.deletedAt.isNone then some o.values else none)

def Staged.version (u : Staged Col Val) : Version Col Val := (u.time, some u.values)

def Write.version (x : Write Col Val) : Version Col Val := (x.time, x.value)

/-- a deleted row was last updated by the delete -/
def Row.Proper (r : Row Col Val) : Prop := ∀ d, r.deletedAt = some d → r.updatedAt = d

structure Obj.Proper (o : Obj Col Val) : Prop where
  deleted : ∀ d, o.deletedAt = some d → o.updatedAt = d
  aware : ∀ d, o.deletedAt = some d → d.naive = false

/-- the newest of the versions -/
def Newest (S : Version Col Val → Prop) (x : Version Col Val) : Prop := S x ∧ ∀ y, S y → y.1 ≤ x.1

theorem Row.obj_version (r : Row Col Val) : r.obj.version = r.version := by
  rcases h : r.deletedAt with _ | d
  · simp [Obj.version, Row.version, Row.obj, h, Moment.utc]
  · simp [Obj.version, Row.version, Row.obj, h, Moment.utc]

theorem Row.Proper.obj {r : Row Col Val} (h : r.Proper) : r.obj.Proper := by
  refine ⟨fun d hd => ?_, fun d hd => ?_⟩
  · simp only [Row.obj, Option.map_eq_some_iff] at hd ⊢
    obtain ⟨x, hx, rfl⟩ := hd
    rw [h x hx]
  · simp only [Row.obj, Option.map_eq_some_iff] at hd
    obtain ⟨x, -, rfl⟩ := hd
    rfl

theorem Obj.Proper.time {o : Obj Col Val} (h : o.Proper) : o.version.1 = o.updatedAt.instant := by
  rcases hd : o.deletedAt with _ | d
  · simp [Obj.version, hd]
  · simp [Obj.version, hd, h.deleted d hd]

theorem Staged.obj_proper (u : Staged Col Val) : u.obj.Proper := ⟨nofun, nofun⟩

/-- the parsed time is the time -/
def Staged.Honest (u : Staged Col Val) : Prop := u.parsed.instant = u.time

theorem Staged.Honest.version (h : u.Honest) : u.obj.version = u.version := by
  simp only [Obj.version, Staged.obj, Staged.version, Option.getD_none, Option.isNone_none, if_true]
  rw [h]

/-! ## Mixed batches -/

/-- an upsert without an offset that is not older than the row that was found and than the upserts before it, and a
further write of its id -/
def mixed (rows : Id → Option (Row Col Val)) (deletes : List (Id × ℤ)) : List (Staged Col Val) → List (Staged Col Val) → Bool
  | _, [] => false
  | pre, u :: rest =>
    (u.parsed.naive && (rows u.id).all (fun r => decide (r.version.1 ≤ u.time)) &&
        pre.all (fun v => decide (v.id ≠ u.id) || decide (v.time ≤ u.time)) &&
        (rest.any (fun v => decide (v.id = u.id)) || deletes.any fun d => decide (d.1 = u.id))) ||
      mixed rows deletes (u :: pre) rest

/-! ## The loop over the upserts -/

/-- the versions of an id: the row that was found and the upserts -/
def upserted (rows : Id → Option (Row Col Val)) (us : List (Staged Col Val)) (id : Id) (x : Version Col Val) : Prop :=
  (∃ r, rows id = some r ∧ x = r.version) ∨ ∃ u ∈ us, u.id = id ∧ x = u.version

/-- the object of a row is as it was loaded, or newer, or an upsert of the same time -/
def Kept (us : List (Staged Col Val)) (id : Id) (r : Row Col Val) (o : Obj Col Val) : Prop :=
  o = r.obj ∨ r.version.1 < o.version.1 ∨ ∃ u ∈ us, u.id = id ∧ u.time = r.version.1 ∧ o = u.obj

theorem Kept.cons {r : Row Col Val} {o : Obj Col Val} (h : Kept pre id r o) (u : Staged Col Val) : Kept (u :: pre) id r o := by
  rcases h with h | h | ⟨v, hv, h⟩
  · exact .inl h
  · exact .inr (.inl h)
  · exact .inr (.inr ⟨v, List.mem_cons_of_mem _ hv, h⟩)

/-- the work after the upserts `pre` -/
structure Loop (rows : Id → Option (Row Col Val)) (pre : List (Staged Col Val)) (w : Work Col Val) : Prop where
  proper : ∀ id o, w.existing id = some o → o.Proper
  newest : ∀ id o, w.existing id = some o → Newest (upserted rows pre id) o.version
  absent : ∀ id, w.existing id = none → rows id = none ∧ ∀ u ∈ pre, u.id ≠ id
  kept : ∀ id r o, rows id = some r → w.existing id = some o → Kept pre id r o
  added : ∀ id, id ∈ w.added ↔ rows id = none ∧ w.existing id ≠ none
  nodup : w.added.Nodup

/-- an object that was parsed without an offset is compared with nothing any more -/
def Alone (deletes : List (Id × ℤ)) (rest : List (Staged Col Val)) (w : Work Col Val) : Prop :=
  ∀ id o, w.existing id = some o → o.updatedAt.naive = true → (∀ v ∈ rest, v.id ≠ id) ∧ ∀ d ∈ deletes, d.1 ≠ id

/-- what was found -/
def found (rows : Id → Option (Row Col Val)) : Work Col Val where
  existing id := (rows id).map Row.obj
  added := []
  synced := 0

theorem loop_found (hrows : ∀ id r, rows id = some r → r.Proper) : Loop rows [] (found rows) := by
  refine ⟨fun id o ho => ?_, fun id o ho => ?_, fun id hid => ?_, fun id r o hr ho => ?_, fun id => ?_, .nil⟩
  · obtain ⟨r, hr, rfl⟩ := Option.map_eq_some_iff.1 ho
    exact (hrows id r hr).obj
  · obtain ⟨r, hr, rfl⟩ := Option.map_eq_some_iff.1 ho
    rw [r.obj_version]
    refine ⟨.inl ⟨r, hr, rfl⟩, ?_⟩
    rintro y (⟨r', hr', rfl⟩ | ⟨u, hu, -⟩)
    · obtain rfl := Option.some.inj (hr.symm.trans hr')
      exact le_rfl
    · cases hu
  · exact ⟨Option.map_eq_none_iff.1 hid, nofun⟩
  · left
    simpa [found, hr] using ho.symm
  · simp only [found, List.not_mem_nil, false_iff, not_and, not_not]
    intro hnone
    simp [hnone]

theorem upserted_cons {x : Version Col Val} : upserted rows (u :: pre) id x ↔ upserted rows pre id x ∨ (u.id = id ∧ x = u.version) := by
  simp only [upserted, List.mem_cons]
  constructor
  · rintro (h | ⟨v, rfl | hv, hid, hx⟩)
    · exact .inl (.inl h)
    · exact .inr ⟨hid, hx⟩
    · exact .inl (.inr ⟨v, hv, hid, hx⟩)
  · rintro ((h | ⟨v, hv, hid, hx⟩) | ⟨hid, hx⟩)
    · exact .inl h
    · exact .inr ⟨v, .inr hv, hid, hx⟩
    · exact .inr ⟨u, .inl rfl, hid, hx⟩

/-- an upsert that is older than the object -/
theorem Loop.skip (h : Loop rows pre w) {o : Obj Col Val} (ho : w.existing u.id = some o) (hle : u.time ≤ o.version.1) :
    Loop rows (u :: pre) w := by
  refine ⟨h.proper, fun id o' ho' => ?_, fun id hid => ?_, fun id r o' hr ho' => (h.kept id r o' hr ho').cons u, h.added, h.nodup⟩
  · obtain ⟨hmem, hall⟩ := h.newest id o' ho'
    refine ⟨upserted_cons.2 (.inl hmem), fun y hy => ?_⟩
    rcases upserted_cons.1 hy with hy | ⟨rfl, rfl⟩
    · exact hall y hy
    · obtain rfl := Option.some.inj (ho.symm.trans ho')
      exact hle
  · refine ⟨(h.absent id hid).1, fun v hv => ?_⟩
    rcases List.mem_cons.1 hv with rfl | hv
    · rintro rfl
      rw [hid] at ho
      cases ho
    · exact (h.absent id hid).2 v hv

/-- an upsert that is taken over, or inserted -/
theorem Loop.set (h : Loop rows pre w) (hu : u.Honest) (hnewer : ∀ y, upserted rows pre u.id y → y.1 ≤ u.time) {n : ℕ}
    {added : List Id} (hadded : ∀ id, id ∈ added ↔ rows id = none ∧ Function.update w.existing u.id (some u.obj) id ≠ none)
    (hnodup : added.Nodup) :
    Loop rows (u :: pre) { existing := Function.update w.existing u.id (some u.obj), added := added, synced := n } := by
  refine ⟨fun id o ho => ?_, fun id o ho => ?_, fun id hid => ?_, fun id r o hr ho => ?_, hadded, hnodup⟩
  · by_cases hid : id = u.id
    · subst hid
      obtain rfl : u.obj = o := by simpa using ho
      exact u.obj_proper
    · exact h.proper id o (by simpa [hid] using ho)
  · by_cases hid : id = u.id
    · subst hid
      obtain rfl : u.obj = o := by simpa using ho
      rw [hu.version]
      refine ⟨upserted_cons.2 (.inr ⟨rfl, rfl⟩), fun y hy => ?_⟩
      rcases upserted_cons.1 hy with hy | ⟨-, rfl⟩
      · exact hnewer y hy
      · exact le_rfl
    · obtain ⟨hmem, hall⟩ := h.newest id o (by simpa [hid] using ho)
      refine ⟨upserted_cons.2 (.inl hmem), fun y hy => ?_⟩
      rcases upserted_cons.1 hy with hy | ⟨hid', -⟩
      · exact hall y hy
      · exact absurd hid'.symm hid
  · by_cases hid' : id = u.id
    · subst hid'
      simp at hid
    · obtain ⟨hnone, hpre⟩ := h.absent id (by simpa [hid'] using hid)
      refine ⟨hnone, fun v hv => ?_⟩
      rcases List.mem_cons.1 hv with rfl | hv
      · exact fun heq => hid' heq.symm
      · exact hpre v hv
  · by_cases hid : id = u.id
    · subst hid
      obtain rfl : u.obj = o := by simpa using ho
      have htime : u.obj.version.1 = u.time := by rw [hu.version]; rfl
      rcases (hnewer _ (.inl ⟨r, hr, rfl⟩)).lt_or_eq with hlt | heq
      · exact .inr (.inl (by rwa [htime]))
      · exact .inr (.inr ⟨u, List.mem_cons_self, rfl, heq.symm, rfl⟩)
    · exact (h.kept id r o hr (by simpa [hid] using ho)).cons u

/-- what one turn does -/
theorem upsert_spec (h : Loop rows pre w) (hu : u.Honest) (hnaive : ∀ o, w.existing u.id = some o → o.updatedAt.naive = false) :
    ∃ w', w.upsert u = .ok w' ∧ Loop rows (u :: pre) w' ∧ ((w'.existing = w.existing) ∨
      (w'.existing = Function.update w.existing u.id (some u.obj) ∧ ∀ y, upserted rows pre u.id y → y.1 ≤ u.time)) := by
  rcases ho : w.existing u.id with _ | o
  · obtain ⟨hnone, hpre⟩ := h.absent _ ho
    have hnewer : ∀ y, upserted rows pre u.id y → y.1 ≤ u.time := by
      rintro y (⟨r, hr, -⟩ | ⟨v, hv, hid, -⟩)
      · rw [hnone] at hr
        cases hr
      · exact absurd hid (hpre v hv)
    refine ⟨{ w.set u.id u.obj with added := w.added ++ [u.id] }, by simp only [Work.upsert, ho],
      h.set hu hnewer (fun id => ?_) ?_, .inr ⟨rfl, hnewer⟩⟩
    · rw [List.mem_append, List.mem_singleton, h.added]
      by_cases hid : id = u.id
      · subst hid
        simp [hnone]
      · simp [hid]
    · refine List.Nodup.append h.nodup (List.nodup_singleton _) ?_
      intro id hid hid'
      obtain rfl := List.mem_singleton.1 hid'
      exact ((h.added _).1 hid).2 ho
  · have hproper := h.proper _ _ ho
    have haware := hnaive o ho
    have hall := (h.newest _ _ ho).2
    have hge := ge_of_aware (x := u.time) haware
    have hturn : ∃ b, Work.buried o u.time = .ok b ∧ (b = true → u.time ≤ o.version.1) := by
      rcases hd : o.deletedAt with _ | d
      · exact ⟨false, by simp [Work.buried, hd], nofun⟩
      · have hlt : Work.buried o u.time = .ok (decide (u.time < d.instant)) := by
          simp only [Work.buried, hd]
          exact lt_of_aware (hproper.aware d hd)
        refine ⟨decide (u.time < d.instant), hlt, fun hlt => ?_⟩
        have hversion : o.version.1 = d.instant := by simp [Obj.version, hd]
        rw [hversion]
        exact (of_decide_eq_true hlt).le
    obtain ⟨b, hb, hburied⟩ := hturn
    cases b with
    | true =>
      refine ⟨w, ?_, h.skip ho (hburied rfl), .inl rfl⟩
      simp [Work.upsert, ho, hb, Bind.bind, Except.bind]
    | false =>
      by_cases hle : o.updatedAt.instant ≤ u.time
      · have hnewer : ∀ y, upserted rows pre u.id y → y.1 ≤ u.time := by
          intro y hy
          have hy' := hall y hy
          rw [hproper.time] at hy'
          exact hy'.trans hle
        refine ⟨w.set u.id u.obj, ?_, h.set hu hnewer (fun id => ?_) h.nodup, .inr ⟨rfl, hnewer⟩⟩
        · simp [Work.upsert, ho, hb, hge, hle, Bind.bind, Except.bind]
        · rw [h.added]
          by_cases hid : id = u.id
          · subst hid
            simp [ho]
          · simp [hid]
      · refine ⟨w, ?_, h.skip ho ?_, .inl rfl⟩
        · simp [Work.upsert, ho, hb, hge, hle, Bind.bind, Except.bind]
        · rw [hproper.time]
          exact (not_le.1 hle).le

theorem Alone.tail {rest : List (Staged Col Val)} (h : Alone deletes (u :: rest) w) : Alone deletes rest w :=
  fun id o ho hnaive => ⟨fun v hv => (h id o ho hnaive).1 v (List.mem_cons_of_mem _ hv), (h id o ho hnaive).2⟩

theorem Alone.set {rest : List (Staged Col Val)} (h : Alone deletes rest w) (hex : w'.existing = Function.update w.existing u.id (some u.obj))
    (hu : u.parsed.naive = true → (∀ v ∈ rest, v.id ≠ u.id) ∧ ∀ d ∈ deletes, d.1 ≠ u.id) : Alone deletes rest w' := by
  intro id o ho hnaive
  rw [hex] at ho
  by_cases hid : id = u.id
  · subst hid
    obtain rfl : u.obj = o := by simpa using ho
    exact hu hnaive
  · exact h id o (by simpa [hid] using ho) hnaive

/-- the loop does not raise -/
theorem upserts_spec (hhonest : ∀ u ∈ us, u.Honest) (h : Loop rows pre w) (halone : Alone deletes us w)
    (hmixed : mixed rows deletes pre us = false) :
    ∃ w', us.foldlM Work.upsert w = .ok w' ∧ Loop rows (us.reverse ++ pre) w' ∧ Alone deletes [] w' := by
  induction us generalizing pre w with
  | nil => exact ⟨w, rfl, h, halone⟩
  | cons u rest ih =>
    have hu := hhonest u List.mem_cons_self
    rw [mixed, Bool.or_eq_false_iff] at hmixed
    have hnaive : ∀ o, w.existing u.id = some o → o.updatedAt.naive = false := by
      intro o ho
      by_contra htrue
      exact (halone u.id o ho (by simpa using htrue)).1 u List.mem_cons_self rfl
    obtain ⟨w', hturn, hloop, hex⟩ := upsert_spec h hu hnaive
    have halone' : Alone deletes rest w' := by
      rcases hex with hex | ⟨hex, hnewer⟩
      · intro id o ho
        rw [hex] at ho
        exact halone.tail id o ho
      · refine halone.tail.set hex fun hparsed => ?_
        have hfound : (rows u.id).all (fun r => decide (r.version.1 ≤ u.time)) = true := by
          rw [Option.all_eq_true]
          intro r hr
          exact decide_eq_true (hnewer _ (.inl ⟨r, hr, rfl⟩))
        have hpre : pre.all (fun v => decide (v.id ≠ u.id) || decide (v.time ≤ u.time)) = true := by
          rw [List.all_eq_true]
          intro v hv
          by_cases hid : v.id = u.id
          · have hle : v.time ≤ u.time := hnewer _ (.inr ⟨v, hv, hid, rfl⟩)
            simp [hle]
          · simp [hid]
        have hlater := hmixed.1
        rw [hparsed, hfound, hpre, Bool.true_and, Bool.true_and, Bool.true_and] at hlater
        simpa using hlater
    obtain ⟨w'', hrest, hloop', halone''⟩ := ih (fun v hv => hhonest v (List.mem_cons_of_mem _ hv)) hloop halone' hmixed.2
    refine ⟨w'', ?_, ?_, halone''⟩
    · rw [List.foldlM_cons, hturn]
      exact hrest
    · rw [List.reverse_cons, List.append_assoc]
      exact hloop'

/-! ## The loop over the deletes -/

/-- the versions of an id: the row that was found and the writes of the batch -/
def versions (rows : Id → Option (Row Col Val)) (us : List (Staged Col Val)) (ds : List (Id × ℤ)) (id : Id)
    (x : Version Col Val) : Prop :=
  upserted rows us id x ∨ ∃ d ∈ ds, d.1 = id ∧ x = (d.2, none)

/-- the work after the upserts `us` and the deletes `ds` -/
structure Merged (rows : Id → Option (Row Col Val)) (us : List (Staged Col Val)) (ds : List (Id × ℤ)) (w : Work Col Val) :
    Prop where
  proper : ∀ id o, w.existing id = some o → o.Proper
  newest : ∀ id o, w.existing id = some o → Newest (versions rows us ds id) o.version
  absent : ∀ id, w.existing id = none → rows id = none ∧ ∀ u ∈ us, u.id ≠ id
  kept : ∀ id r o, rows id = some r → w.existing id = some o → Kept us id r o
  added : ∀ id, id ∈ w.added ↔ rows id = none ∧ w.existing id ≠ none
  nodup : w.added.Nodup

theorem versions_cons {ds : List (Id × ℤ)} {d : Id × ℤ} {x : Version Col Val} :
    versions rows us (d :: ds) id x ↔ versions rows us ds id x ∨ (d.1 = id ∧ x = (d.2, none)) := by
  simp only [versions, List.mem_cons]
  constructor
  · rintro (h | ⟨e, rfl | he, hid, hx⟩)
    · exact .inl (.inl h)
    · exact .inr ⟨hid, hx⟩
    · exact .inl (.inr ⟨e, he, hid, hx⟩)
  · rintro ((h | ⟨e, he, hid, hx⟩) | ⟨hid, hx⟩)
    · exact .inl h
    · exact .inr ⟨e, .inr he, hid, hx⟩
    · exact .inr ⟨d, .inl rfl, hid, hx⟩

theorem Merged.skip {ds : List (Id × ℤ)} {d : Id × ℤ} (h : Merged rows us ds w)
    (hle : ∀ o, w.existing d.1 = some o → d.2 ≤ o.version.1) : Merged rows us (d :: ds) w := by
  refine ⟨h.proper, fun id o ho => ?_, h.absent, h.kept, h.added, h.nodup⟩
  obtain ⟨hmem, hall⟩ := h.newest id o ho
  refine ⟨versions_cons.2 (.inl hmem), fun y hy => ?_⟩
  rcases versions_cons.1 hy with hy | ⟨rfl, rfl⟩
  · exact hall y hy
  · exact hle o ho

theorem delete_spec {ds : List (Id × ℤ)} {d : Id × ℤ} (h : Merged rows us ds w)
    (hnaive : ∀ o, w.existing d.1 = some o → o.updatedAt.naive = false) :
    ∃ w', w.delete d = .ok w' ∧ Merged rows us (d :: ds) w' ∧
      ∀ id o, w'.existing id = some o → o.updatedAt.naive = true → ∃ o', w.existing id = some o' ∧ o'.updatedAt.naive = true := by
  rcases ho : w.existing d.1 with _ | o
  · refine ⟨w, by simp only [Work.delete, ho], h.skip fun o ho' => ?_, fun id o ho hn => ⟨o, ho, hn⟩⟩
    rw [ho] at ho'
    cases ho'
  · have hproper := h.proper _ _ ho
    have haware : (o.deletedAt.getD o.updatedAt).naive = false := by
      rcases hd : o.deletedAt with _ | m
      · exact hnaive o ho
      · exact hproper.aware m hd
    have hlt := aware_lt (x := d.2) haware
    by_cases hnew : (o.deletedAt.getD o.updatedAt).instant < d.2
    · let dead : Obj Col Val := { o with updatedAt := .utc d.2, deletedAt := some (.utc d.2) }
      refine ⟨w.set d.1 dead, ?_, ⟨fun id o' ho' => ?_, fun id o' ho' => ?_, fun id hid => ?_, fun id r o' hr ho' => ?_,
        fun id => ?_, h.nodup⟩, fun id o' ho' hn => ?_⟩
      · simp [Work.delete, ho, hlt, hnew, Bind.bind, Except.bind, dead]
      · by_cases hid : id = d.1
        · subst hid
          obtain rfl : dead = o' := by simpa [Work.set] using ho'
          exact ⟨fun m hm => Option.some.inj hm, fun m hm => by rw [← Option.some.inj hm]; rfl⟩
        · exact h.proper id o' (by simpa [Work.set, hid] using ho')
      · by_cases hid : id = d.1
        · subst hid
          obtain rfl : dead = o' := by simpa [Work.set] using ho'
          refine ⟨versions_cons.2 (.inr ⟨rfl, rfl⟩), fun y hy => ?_⟩
          rcases versions_cons.1 hy with hy | ⟨-, rfl⟩
          · exact ((h.newest _ o ho).2 y hy).trans hnew.le
          · exact le_rfl
        · obtain ⟨hmem, hall⟩ := h.newest id o' (by simpa [Work.set, hid] using ho')
          refine ⟨versions_cons.2 (.inl hmem), fun y hy => ?_⟩
          rcases versions_cons.1 hy with hy | ⟨hid', -⟩
          · exact hall y hy
          · exact absurd hid'.symm hid
      · by_cases hid' : id = d.1
        · subst hid'
          simp [Work.set] at hid
        · exact h.absent id (by simpa [Work.set, hid'] using hid)
      · by_cases hid : id = d.1
        · subst hid
          obtain rfl : dead = o' := by simpa [Work.set] using ho'
          have hle : r.version.1 ≤ o.version.1 := (h.newest _ o ho).2 _ (.inl (.inl ⟨r, hr, rfl⟩))
          exact .inr (.inl (hle.trans_lt hnew))
        · exact h.kept id r o' hr (by simpa [Work.set, hid] using ho')
      · change id ∈ w.added ↔ _
        rw [h.added]
        by_cases hid : id = d.1
        · subst hid
          simp [Work.set, ho]
        · simp [Work.set, hid]
      · by_cases hid : id = d.1
        · subst hid
          obtain rfl : dead = o' := by simpa [Work.set] using ho'
          cases hn
        · exact ⟨o', by simpa [Work.set, hid] using ho', hn⟩
    · refine ⟨w, ?_, h.skip fun o' ho' => ?_, fun id o ho hn => ⟨o, ho, hn⟩⟩
      · simp [Work.delete, ho, hlt, hnew, Bind.bind, Except.bind]
      · obtain rfl := Option.some.inj (ho.symm.trans ho')
        exact not_lt.1 hnew

theorem deletes_spec {done ds : List (Id × ℤ)} (h : Merged rows us done w) (halone : Alone ds [] w) :
    ∃ w', ds.foldlM Work.delete w = .ok w' ∧ Merged rows us (ds.reverse ++ done) w' := by
  induction ds generalizing done w with
  | nil => exact ⟨w, rfl, h⟩
  | cons d ds ih =>
    have hnaive : ∀ o, w.existing d.1 = some o → o.updatedAt.naive = false := by
      intro o ho
      by_contra htrue
      exact (halone d.1 o ho (by simpa using htrue)).2 d List.mem_cons_self rfl
    obtain ⟨w', hturn, hmerged, hnaive'⟩ := delete_spec h hnaive
    have halone' : Alone ds [] w' := by
      intro id o ho hn
      obtain ⟨o', ho', hn'⟩ := hnaive' id o ho hn
      exact ⟨nofun, fun e he => (halone id o' ho' hn').2 e (List.mem_cons_of_mem _ he)⟩
    obtain ⟨w'', hrest, hmerged'⟩ := ih hmerged halone'
    refine ⟨w'', ?_, ?_⟩
    · rw [List.foldlM_cons, hturn]
      exact hrest
    · rw [List.reverse_cons, List.append_assoc]
      exact hmerged'

/-! ## The merge -/

theorem versions_reverse {ds : List (Id × ℤ)} {x : Version Col Val} :
    versions rows (us.reverse ++ []) (ds.reverse ++ []) id x ↔ versions rows us ds id x := by
  simp [versions, upserted]

/-- **Merge.** A batch that is not mixed does not raise. Each object is the newest among the row that was found and the
writes of the batch. -/
theorem merge_spec (hrows : ∀ id r, rows id = some r → r.Proper) (hhonest : ∀ u ∈ us, u.Honest)
    (hmixed : mixed rows deletes [] us = false) : ∃ w, merge rows us deletes = .ok w ∧ Merged rows us deletes w := by
  have hstart : Alone deletes us (found rows) := by
    intro id o ho hn
    obtain ⟨r, -, rfl⟩ := Option.map_eq_some_iff.1 ho
    cases hn
  obtain ⟨w, hupserts, hloop, halone⟩ := upserts_spec hhonest (loop_found hrows) hstart hmixed
  have hmerged : Merged rows (us.reverse ++ []) [] w := by
    refine ⟨hloop.proper, fun id o ho => ?_, hloop.absent, hloop.kept, hloop.added, hloop.nodup⟩
    obtain ⟨hmem, hall⟩ := hloop.newest id o ho
    refine ⟨.inl hmem, ?_⟩
    rintro y (hy | ⟨d, hd, -⟩)
    · exact hall y hy
    · cases hd
  obtain ⟨w', hdeletes, hmerged'⟩ := deletes_spec hmerged halone
  refine ⟨w', ?_, hmerged'.proper, fun id o ho => ?_, fun id hid => ?_, fun id r o hr ho => ?_, hmerged'.added, hmerged'.nodup⟩
  · rw [merge]
    exact (congrArg (fun x => x >>= fun w => deletes.foldlM Work.delete w) hupserts).trans hdeletes
  · obtain ⟨hmem, hall⟩ := hmerged'.newest id o ho
    exact ⟨versions_reverse.1 hmem, fun y hy => hall y (versions_reverse.2 hy)⟩
  · obtain ⟨hnone, hno⟩ := hmerged'.absent id hid
    exact ⟨hnone, fun u hu => hno u (by simpa using hu)⟩
  · rcases hmerged'.kept id r o hr ho with h | h | ⟨u, hu, h⟩
    · exact .inl h
    · exact .inr (.inl h)
    · exact .inr (.inr ⟨u, by simpa using hu, h⟩)

end LkmService.Starhope
