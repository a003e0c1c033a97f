/-
What a pull returns of an entity that was pushed.

- `Input`, `Sync`: a payload with its id and time, and a push of payloads. `Writes`: the push creates or replaces the entity
  with the payload.
- `JsonMode`: which floats `model_dump(mode="json")` leaves as they are; the others become `None`. `same_datum_iff`: a field
  comes back as it was iff these are all its floats.
- `after_written`: the row of an entity that was written. All its columns are those of the payload; its time is, unless the
  row had that time before and something else of it has changed.
- `pull_returns_push`: the next full pull returns the payload iff the floats come back and the time is kept.
- `equal_time_moves`: a replacement with the time of the row comes back with the time of the server.

The fields other than the floats and `updated_at` always come back, the answers among them. An UPDATE that does not set
`updated_at`, since the new time equals the loaded one, has it set by `onupdate`.
-/
import LkmService.Starhope.Schemas
import LkmService.Starhope.Users

namespace LkmService.Starhope

open Session Sql Json

set_option linter.unusedSectionVars false

variable {F : Type} {e : Entity}

/-! ## The JSON mode -/

structure JsonMode (F : Type) where
  /-- in a field declared `float` -/
  float : Number F → Bool
  /-- within a field declared `Any` -/
  any : Number F → Bool
  float_finite : ∀ x, float (.finite x) = true
  any_finite : ∀ x, any (.finite x) = true

namespace JsonMode

variable (jm : JsonMode F)

mutual

def value : Value F → Value F
  | .null => .null
  | .bool b => .bool b
  | .int n => .int n
  | .float x => if jm.any x then .float x else .null
  | .str s => .str s
  | .arr items => .arr (values items)
  | .obj members => .obj (entries members)

def values : List (Value F) → List (Value F)
  | [] => []
  | v :: vs => value v :: values vs

def entries : List (Text × Value F) → List (Text × Value F)
  | [] => []
  | (k, v) :: members => (k, value v) :: entries members

end

def datum : Datum F → Datum F
  | .float x => if jm.float x then .float x else .none
  | .list items => .list (jm.values items)
  | .dict members => .dict (jm.entries members)
  | d => d

theorem values_eq_map (items : List (Value F)) : jm.values items = items.map jm.value := by
  induction items with
  | nil => rfl
  | cons v vs ih => rw [values, ih, List.map_cons]

theorem entries_eq_map (members : List (Text × Value F)) :
    jm.entries members = members.map fun entry => (entry.1, jm.value entry.2) := by
  induction members with
  | nil => rfl
  | cons entry members ih => rw [entries, ih, List.map_cons]

end JsonMode

/-- every float within the value meets `P` -/
inductive Leaves (P : Number F → Prop) : Value F → Prop where
  | null : Leaves P .null
  | bool (b : Bool) : Leaves P (.bool b)
  | int (n : ℤ) : Leaves P (.int n)
  | float {x : Number F} (h : P x) : Leaves P (.float x)
  | str (s : Text) : Leaves P (.str s)
  | arr {items : List (Value F)} (h : ∀ v ∈ items, Leaves P v) : Leaves P (.arr items)
  | obj {members : List (Text × Value F)} (h : ∀ entry ∈ members, Leaves P entry.2) : Leaves P (.obj members)

/-- equal in Python: times are compared as instants, and NaN is equal to nothing -/
def Same : Datum F → Datum F → Prop
  | .none, .none => True
  | .str s, .str s' => s = s'
  | .int n, .int n' => n = n'
  | .float x, .float y => x = y ∧ y ≠ .nan
  | .list l, .list l' => l = l' ∧ ∀ v ∈ l', Leaves (· ≠ .nan) v
  | .dict l, .dict l' => l = l' ∧ ∀ entry ∈ l', Leaves (· ≠ .nan) entry.2
  | .time m, .time m' => m.instant = m'.instant
  | _, _ => False

/-- the float is left as it is, and is equal to itself -/
def Comes (keeps : Number F → Bool) (x : Number F) : Prop := x ≠ .nan ∧ keeps x = true

/-- all floats of the field come back -/
def Lossless (jm : JsonMode F) : Datum F → Prop
  | .float x => Comes jm.float x
  | .list items => ∀ v ∈ items, Leaves (Comes jm.any) v
  | .dict members => ∀ entry ∈ members, Leaves (Comes jm.any) entry.2
  | _ => True

variable {jm : JsonMode F}

theorem Leaves.mono {P Q : Number F → Prop} (hPQ : ∀ x, P x → Q x) {v : Value F} (h : Leaves P v) : Leaves Q v := by
  induction h with
  | null => exact .null
  | bool b => exact .bool b
  | int n => exact .int n
  | float h => exact .float (hPQ _ h)
  | str s => exact .str s
  | arr _ ih => exact .arr ih
  | obj _ ih => exact .obj ih

theorem map_eq_self {α : Type} {l : List α} {g : α → α} : l.map g = l ↔ ∀ a ∈ l, g a = a := by
  have hinj : l.map g = l.map id ↔ ∀ a ∈ l, g a = id a := List.map_inj_left
  rwa [List.map_id] at hinj

theorem value_of_leaves {v : Value F} (h : Leaves (Comes jm.any) v) : jm.value v = v := by
  induction h with
  | null => rfl
  | bool b => rfl
  | int n => rfl
  | float h => rw [JsonMode.value, if_pos h.2]
  | str s => rfl
  | arr _ ih => rw [JsonMode.value, JsonMode.values_eq_map, map_eq_self.2 ih]
  | obj _ ih =>
    rw [JsonMode.value, JsonMode.entries_eq_map]
    exact congrArg Value.obj (map_eq_self.2 fun entry hmem => Prod.ext rfl (ih entry hmem))

theorem leaves_of_value {v : Value F} (h : Leaves (· ≠ .nan) v) (hv : jm.value v = v) : Leaves (Comes jm.any) v := by
  induction h with
  | null => exact .null
  | bool b => exact .bool b
  | int n => exact .int n
  | @float x h =>
    rw [JsonMode.value] at hv
    split_ifs at hv with hkept
    exact .float ⟨h, hkept⟩
  | str s => exact .str s
  | arr _ ih =>
    rw [JsonMode.value, JsonMode.values_eq_map, Value.arr.injEq] at hv
    exact .arr fun v hmem => ih v hmem (map_eq_self.1 hv v hmem)
  | obj _ ih =>
    rw [JsonMode.value, JsonMode.entries_eq_map, Value.obj.injEq] at hv
    exact .obj fun entry hmem => ih entry hmem (congrArg Prod.snd (map_eq_self.1 hv entry hmem))

theorem value_same_iff {v : Value F} : (jm.value v = v ∧ Leaves (· ≠ .nan) v) ↔ Leaves (Comes jm.any) v :=
  ⟨fun h => leaves_of_value h.2 h.1, fun h => ⟨value_of_leaves h, h.mono fun _ hx => hx.1⟩⟩

/-- a time of the row is read in UTC -/
def Datum.inUtc : Datum F → Datum F
  | .time m => .time (.utc m.instant)
  | d => d

/-- **One field.** It comes back as it was iff all its floats do. -/
theorem same_datum_iff (d : Datum F) : Same (jm.datum d.inUtc) d ↔ Lossless jm d := by
  cases d with
  | none => exact Iff.rfl
  | str s => exact iff_of_true rfl trivial
  | int n => exact iff_of_true rfl trivial
  | float x =>
    simp only [Datum.inUtc, JsonMode.datum, Lossless, Comes]
    split_ifs with hkept
    · simp [Same, hkept]
    · simp [Same, hkept]
  | list items =>
    simp only [Datum.inUtc, JsonMode.datum, Same, Lossless, JsonMode.values_eq_map, map_eq_self]
    rw [← forall₂_and]
    exact forall₂_congr fun v _ => value_same_iff
  | dict members =>
    simp only [Datum.inUtc, JsonMode.datum, Same, Lossless, JsonMode.entries_eq_map, map_eq_self]
    rw [← forall₂_and]
    refine forall₂_congr fun entry _ => ?_
    rw [← value_same_iff, Prod.ext_iff]
    simp
  | time m => exact iff_of_true rfl trivial

theorem orNone_inUtc {α : Type} {g : α → Datum F} (hg : ∀ a, (g a).inUtc = g a) (a : Option α) :
    (orNone g a).inUtc = orNone g a := by
  cases a with
  | none => rfl
  | some a => exact hg a

theorem modelDump_inUtc (e : Entity) (p : Payload F e) (f : Field e) : modelDump e (inUtc e p) f = (modelDump e p f).inUtc := by
  cases e with
  | questions =>
    obtain ⟨type, content, options, answer, analysis, tags, folderId, difficulty⟩ := p
    cases f with
    | options => exact (orNone_inUtc (fun _ => rfl) options).symm
    | answer => cases answer <;> rfl
    | analysis => exact (orNone_inUtc (fun _ => rfl) analysis).symm
    | folderId => exact (orNone_inUtc (fun _ => rfl) folderId).symm
    | _ => rfl
  | folders =>
    obtain ⟨name, parentId, sort⟩ := p
    cases f with
    | parentId => exact (orNone_inUtc (fun _ => rfl) parentId).symm
    | _ => rfl
  | sessions =>
    obtain ⟨type, mode, questionIds, answers, results, status, startedAt, completedAt, timeLimit, passingGrade⟩ := p
    cases f with
    | results => exact (orNone_inUtc (fun _ => rfl) results).symm
    | completedAt => cases completedAt <;> rfl
    | timeLimit => exact (orNone_inUtc (fun _ => rfl) timeLimit).symm
    | passingGrade => exact (orNone_inUtc (fun _ => rfl) passingGrade).symm
    | _ => rfl
  | agents =>
    obtain ⟨name, avatar, systemPrompt, service, model, temperature, topP, maxTokens⟩ := p
    cases f with
    | avatar => exact (orNone_inUtc (fun _ => rfl) avatar).symm
    | _ => rfl

/-! ## The rows after a push -/

section Rows

variable {Col Val : Type} [Fintype Col] [DecidableEq Val] {s t : Store Col Val} {i : ℕ} {id : Id} {user : User} {now : ℤ}
  {us : List (Staged Col Val)} {ds : List (Id × ℤ)} {w w' : Work Col Val} {rows : Id → Option (Row Col Val)} {o : Obj Col Val}

/-- only session `i` has written anything -/
def Solitary (i : ℕ) (s : Store Col Val) : Prop := ∀ id j v, (s.cell id).pending = some (j, v) → j = i

theorem Solitary.put (h : Solitary i s) (id : Id) (r : Row Col Val) : Solitary i (s.put i id r) := by
  intro id' j v hpending
  by_cases hid : id' = id
  · subst hid
    simp only [Store.put, Function.update_self, Cell.put, Option.some.injEq, Prod.mk.injEq] at hpending
    exact hpending.1.symm
  · simp only [Store.put, Function.update_of_ne hid] at hpending
    exact h id' j v hpending

theorem Solitary.finish (h : Solitary i s) (b : Bool) : (s.finish i b).Idle := by
  intro id
  rcases hp : (s.cell id).pending with _ | ⟨j, v⟩
  · simp [Store.finish, Cell.finish, Cell.mine, hp]
  · obtain rfl := h id j v hp
    simp [Store.finish, Cell.finish, Cell.mine, hp]

theorem Store.Idle.solitary (h : s.Idle) : Solitary i s := by
  intro id j v hpending
  rw [h id] at hpending
  cases hpending

theorem solitary_exec {β : Type} {c : Cmd Col Val β} {b : β} (h : Solitary i s) (he : Cmd.exec i c s = some (b, t)) :
    Solitary i t := by
  cases c with
  | update id loaded o =>
    simp only [Cmd.exec] at he
    split at he
    · obtain ⟨-, rfl⟩ := exec_inj he
      exact h
    · split_ifs at he
      obtain ⟨-, rfl⟩ := exec_inj he
      exact h.put _ _
  | insert user id o =>
    simp only [Cmd.exec] at he
    split_ifs at he
    · obtain ⟨-, rfl⟩ := exec_inj he
      exact h
    · obtain ⟨-, rfl⟩ := exec_inj he
      exact h.put _ _
  | commit writes missed =>
    obtain ⟨-, rfl⟩ := exec_inj he
    exact Store.Idle.solitary (h.finish true)
  | rollback =>
    obtain ⟨-, rfl⟩ := exec_inj he
    exact Store.Idle.solitary (h.finish false)
  | clock | selectByIds | selectChanged | selectTombstones | advance =>
    obtain ⟨-, rfl⟩ := exec_inj he
    exact h

theorem solitary_alone {α : Type} {q : Prg Col Val α} {r : Except Exn α} (h : Solitary i s) (hq : q.alone i s = some (r, t)) :
    Solitary i t := by
  induction q generalizing s with
  | done r' =>
    obtain ⟨-, rfl⟩ := exec_inj hq
    exact h
  | op c k ih =>
    simp only [Prog.alone] at hq
    split at hq
    · next b s' he => exact ih b (solitary_exec h he) hq
    · cases hq

/-- a push ends its transaction -/
theorem idle_pushEntity {p : Push Col Val} {r : Except Exn PushResult} (h : s.Idle) (hp : (pushEntity p).alone i s = some (r, t)) :
    t.Idle := by
  rw [pushEntity] at hp
  split at hp
  · obtain ⟨-, rfl⟩ := exec_inj hp
    exact Solitary.finish h.solitary false
  · rw [Prog.alone_andThen, Option.bind_eq_some_iff] at hp
    obtain ⟨⟨r', s'⟩, hbody, hend⟩ := hp
    have hs' : Solitary i s' := solitary_alone h.solitary hbody
    cases r' with
    | ok x =>
      obtain ⟨-, rfl⟩ := exec_inj hend
      exact hs'.finish true
    | error x =>
      obtain ⟨-, rfl⟩ := exec_inj hend
      exact hs'.finish false

/-- the values of an object are those of the row that was found or of an upsert -/
def Sourced (rows : Id → Option (Row Col Val)) (us : List (Staged Col Val)) (w : Work Col Val) : Prop :=
  ∀ id o, w.existing id = some o → (∃ r, rows id = some r ∧ o.values = r.values) ∨ ∃ u ∈ us, o.values = u.values

theorem Sourced.set (h : Sourced rows us w) (id : Id) {o : Obj Col Val}
    (ho : (∃ r, rows id = some r ∧ o.values = r.values) ∨ ∃ u ∈ us, o.values = u.values) : Sourced rows us (w.set id o) := by
  intro id' o' ho'
  by_cases hid : id' = id
  · subst hid
    simp only [Work.set, Function.update_self] at ho'
    exact Option.some.inj ho' ▸ ho
  · simp only [Work.set, Function.update_of_ne hid] at ho'
    exact h id' o' ho'

theorem sourced_upsert {u : Staged Col Val} (h : Sourced rows us w) (hu : u ∈ us) (hturn : w.upsert u = .ok w') :
    Sourced rows us w' := by
  have hset : Sourced rows us (w.set u.id u.obj) := h.set u.id (Or.inr ⟨u, hu, rfl⟩)
  rcases ho : w.existing u.id with _ | o
  · simp only [Work.upsert, ho] at hturn
    obtain rfl := Except.ok.inj hturn
    exact hset
  · simp only [Work.upsert, ho] at hturn
    obtain ⟨b, -, hturn⟩ := bind_ok hturn
    split_ifs at hturn
    · obtain rfl := Except.ok.inj hturn
      exact h
    · obtain ⟨b', -, hturn⟩ := bind_ok hturn
      split_ifs at hturn
      · obtain rfl := Except.ok.inj hturn
        exact hset
      · obtain rfl := Except.ok.inj hturn
        exact h

theorem sourced_delete {d : Id × ℤ} (h : Sourced rows us w) (hturn : w.delete d = .ok w') : Sourced rows us w' := by
  rcases ho : w.existing d.1 with _ | o
  · simp only [Work.delete, ho] at hturn
    obtain rfl := Except.ok.inj hturn
    exact h
  · simp only [Work.delete, ho] at hturn
    obtain ⟨b, -, hturn⟩ := bind_ok hturn
    split_ifs at hturn
    · obtain rfl := Except.ok.inj hturn
      exact h.set d.1 (h d.1 o ho)
    · obtain rfl := Except.ok.inj hturn
      exact h

theorem sourced_merge (h : merge rows us ds = .ok w) : Sourced rows us w := by
  obtain ⟨w₁, hupserts, hdeletes⟩ := bind_ok h
  have hfound : Sourced rows us { existing := fun id => (rows id).map Row.obj, added := [], synced := 0 } := by
    intro id o ho
    obtain ⟨r, hr, rfl⟩ := Option.map_eq_some_iff.1 ho
    exact Or.inl ⟨r, hr, rfl⟩
  have hloop : ∀ (l : List (Staged Col Val)) (w w' : Work Col Val), (∀ u ∈ l, u ∈ us) → Sourced rows us w →
      l.foldlM Work.upsert w = .ok w' → Sourced rows us w' := by
    intro l
    induction l with
    | nil =>
      intro w w' _ hw hfold
      obtain rfl := Except.ok.inj hfold
      exact hw
    | cons u l ih =>
      intro w w' hsub hw hfold
      rw [List.foldlM_cons] at hfold
      obtain ⟨w₂, hturn, hfold⟩ := bind_ok hfold
      exact ih w₂ w' (fun v hv => hsub v (List.mem_cons_of_mem u hv))
        (sourced_upsert hw (hsub u List.mem_cons_self) hturn) hfold
  have hrest : ∀ (l : List (Id × ℤ)) (w w' : Work Col Val), Sourced rows us w → l.foldlM Work.delete w = .ok w' →
      Sourced rows us w' := by
    intro l
    induction l with
    | nil =>
      intro w w' hw hfold
      obtain rfl := Except.ok.inj hfold
      exact hw
    | cons d l ih =>
      intro w w' hw hfold
      rw [List.foldlM_cons] at hfold
      obtain ⟨w₂, hturn, hfold⟩ := bind_ok hfold
      exact ih w₂ w' (sourced_delete hw hturn) hfold
  exact hrest ds w₁ w (hloop us _ w₁ (fun _ => id) hfound hupserts) hdeletes

theorem apply_values (o : Obj Col Val) (r : Row Col Val) (now : ℤ) : (o.apply r now r).values = o.values := by
  funext k
  simp only [Obj.apply]
  split_ifs with heq
  · exact heq.symm
  · rfl

/-- the row that the flush leaves of an object -/
theorem after_values (ho : w.existing id = some o) : ∃ row, after user now rows w id = some row ∧ row.values = o.values := by
  rcases hr : rows id with _ | r
  · exact ⟨o.row user now, by simp only [after, ho, hr], rfl⟩
  · rcases hd : o.dirty r with _ | _
    · exact ⟨r, by simp [after, ho, hr, hd], (dirty_eq_false hd).1.symm⟩
    · exact ⟨o.apply r now r, by simp [after, ho, hr, hd], apply_values o r now⟩

/-- the time of the object is that of the row, of which nothing else changes, or is not that of the row -/
def Settles (now : ℤ) (rows : Id → Option (Row Col Val)) (id : Id) (values : Col → Val) (updatedAt : Moment) : Prop :=
  ∀ r, rows id = some r → updatedAt = .utc r.updatedAt → (r.values = values ∧ r.deletedAt = none) ∨ now = r.updatedAt

/-- the row of an object that was written last by an upsert -/
theorem after_written (ho : w.existing id = some o) (hlive : o.deletedAt = none) :
    ∃ row, after user now rows w id = some row ∧ row.values = o.values ∧ row.deletedAt = none ∧
      (row.updatedAt = o.updatedAt.instant ↔ Settles now rows id o.values o.updatedAt) := by
  rcases hr : rows id with _ | r
  · refine ⟨o.row user now, by simp only [after, ho, hr], rfl, ?_, iff_of_true rfl fun r hr' => ?_⟩
    · simp [Obj.row, hlive]
    · rw [hr] at hr'
      cases hr'
  · rcases hd : o.dirty r with _ | _
    · obtain ⟨hvalues, hupdated, hdeleted⟩ := dirty_eq_false hd
      have hdead : r.deletedAt = none := by
        rw [hlive] at hdeleted
        exact Option.map_eq_none_iff.1 hdeleted.symm
      refine ⟨r, by simp [after, ho, hr, hd], hvalues.symm, hdead, iff_of_true ?_ fun r' hr' _ => ?_⟩
      · rw [hupdated]
        rfl
      · obtain rfl := Option.some.inj (hr.symm.trans hr')
        exact Or.inl ⟨hvalues.symm, hdead⟩
    · refine ⟨o.apply r now r, by simp [after, ho, hr, hd], apply_values o r now, ?_, ?_⟩
      · simp only [Obj.apply, hlive]
        split_ifs with hsame
        · exact Option.map_eq_none_iff.1 hsame.symm
        · rfl
      · simp only [Obj.apply]
        split_ifs with hsame
        · constructor
          · intro hnow r' hr' _
            obtain rfl := Option.some.inj (hr.symm.trans hr')
            right
            rw [hnow, hsame]
            rfl
          · intro h
            rcases h r hr hsame with ⟨hvalues, hdead⟩ | hnow
            · rw [dirty_of_eq hvalues.symm hsame (by rw [hlive, hdead]; rfl)] at hd
              cases hd
            · rw [hnow, hsame]
              rfl
        · refine iff_of_true rfl fun r' hr' heq => ?_
          obtain rfl := Option.some.inj (hr.symm.trans hr')
          exact absurd heq hsame

/-- the values of a row after a push are those of a row before it or of an upsert -/
theorem after_sourced {row : Row Col Val} (h : merge (inBatch rows us ds) us ds = .ok w)
    (hrow : after user now rows w id = some row) :
    (∃ r, rows id = some r ∧ row.values = r.values) ∨ ∃ u ∈ us, row.values = u.values := by
  rcases ho : w.existing id with _ | o
  · simp only [after, ho] at hrow
    exact Or.inl ⟨row, hrow, rfl⟩
  · obtain ⟨row', hrow', hvalues⟩ : ∃ row', after user now rows w id = some row' ∧ row'.values = o.values := after_values ho
    obtain rfl := Option.some.inj (hrow'.symm.trans hrow)
    rw [hvalues]
    refine (sourced_merge h id o ho).imp_left ?_
    rintro ⟨r, hr, heq⟩
    refine ⟨r, ?_, heq⟩
    rw [inBatch] at hr
    split_ifs at hr
    exact hr

end Rows

/-! ## A push of payloads -/

structure Input (F : Type) (e : Entity) where
  id : Id
  payload : Payload F e
  keysOnce : KeysOnce e payload
  updatedAt : Stamp

def Input.upsert (fl : Floats F) (u : Input F e) : Upsert (Field e) (ColVal F) where
  id := u.id
  values := columns fl e u.payload
  updatedAt := u.updatedAt

/-- a payload that fails its validation is `none` -/
structure Sync (F : Type) (e : Entity) where
  user : User
  upserts : List (Option (Input F e))
  deletes : List Tombstone

def Sync.push (fl : Floats F) (p : Sync F e) : Push (Field e) (ColVal F) where
  user := p.user
  upserts := p.upserts.map (Option.map (Input.upsert fl))
  deletes := p.deletes

variable [DecidableEq F] (fl : Floats F) (jm : JsonMode F)

/-- the push creates or replaces the entity, and this is its last word on it -/
def Writes (s : Store (Field e) (ColVal F)) (p : Sync F e) (u : Input F e) : Prop :=
  ∃ us ds w, stage (p.push fl) = .ok (us, ds) ∧ merge (inBatch (s.committed p.user) us ds) us ds = .ok w ∧
    w.existing u.id = some { values := columns fl e u.payload, updatedAt := u.updatedAt.moment, deletedAt := none }

/-- an entry of `items`: the fields of the input schema; `none` is a `ValidationError` -/
def item (row : Item (Field e) (ColVal F)) : Option (Field e → Datum F) :=
  (validate fl e row.values).map fun p f => jm.datum (modelDump e p f)

/-- the item equals the payload in every field of the input schema -/
def Returns (u : Input F e) (row : Item (Field e) (ColVal F)) : Prop :=
  (∃ fields, item fl jm row = some fields ∧ ∀ f, Same (fields f) (modelDump e u.payload f)) ∧ row.updatedAt = u.updatedAt.instant

variable {fl jm} {s : Store (Field e) (ColVal F)} {p : Sync F e} {u : Input F e}

/-- what is staged are the columns of payloads -/
theorem staged_columns {us : List (Staged (Field e) (ColVal F))} {ds : List (Id × ℤ)} (h : stage (p.push fl) = .ok (us, ds))
    {v : Staged (Field e) (ColVal F)} (hv : v ∈ us) : ∃ u : Input F e, v.values = columns fl e u.payload := by
  rw [stage] at h
  split_ifs at h
  obtain ⟨parsed, hparsed, h⟩ := bind_ok h
  split_ifs at h
  obtain ⟨staged, hstaged, h⟩ := bind_ok h
  obtain ⟨deletes, -, h⟩ := bind_ok h
  obtain ⟨rfl, rfl⟩ := Prod.mk.inj (Except.ok.inj h)
  obtain ⟨x, hx, hstage⟩ := mapM_ok hstaged v hv
  obtain ⟨raw, hraw, hparse⟩ := mapM_ok hparsed x hx
  obtain ⟨input, -, rfl⟩ := List.mem_map.1 hraw
  obtain ⟨time, -, hstage⟩ := bind_ok hstage
  obtain rfl := Except.ok.inj hstage
  cases input with
  | none => cases hparse
  | some u =>
    obtain rfl : u.upsert fl = x := Except.ok.inj hparse
    exact ⟨u, rfl⟩

/-- **One item.** Every field of a row that was written comes back as it was iff all its floats do. -/
theorem item_written (jm : JsonMode F) (u : Input F e) {row : Item (Field e) (ColVal F)} (h : row.values = columns fl e u.payload) :
    ∃ fields, item fl jm row = some fields ∧
      ∀ f, Same (fields f) (modelDump e u.payload f) ↔ Lossless jm (modelDump e u.payload f) := by
  refine ⟨fun f => jm.datum (modelDump e (inUtc e u.payload) f), ?_, fun f => ?_⟩
  · rw [item, h, validate_columns e u.payload u.keysOnce]
    rfl
  · change Same (jm.datum (modelDump e (inUtc e u.payload) f)) _ ↔ _
    rw [modelDump_inUtc]
    exact same_datum_iff _

/-- a push that is not refused and runs into no row of another user -/
theorem alone_written (hidle : s.Idle) (hwrites : Writes fl s p u) (hfree : ¬ Collides s (p.push fl)) (i : ℕ) :
    ∃ r t us ds w, (pushEntity (p.push fl)).alone i s = some (.ok r, t) ∧ t.Idle ∧ stage (p.push fl) = .ok (us, ds) ∧
      merge (inBatch (s.committed p.user) us ds) us ds = .ok w ∧
      w.existing u.id = some { values := columns fl e u.payload, updatedAt := u.updatedAt.moment, deletedAt := none } ∧
      t.committed p.user = after p.user s.now (s.committed p.user) w := by
  obtain ⟨us, ds, w, hstage, hmerge, hw⟩ := hwrites
  obtain ⟨r, t, hrun, -, -, hgood⟩ := alone_pushEntity hidle i (p.push fl)
  have houtcome := hgood hfree
  have hmerge' : merge (inBatch (s.committed (p.push fl).user) us ds) us ds = .ok w := hmerge
  simp only [outcome, hstage, hmerge'] at houtcome
  obtain ⟨rfl, hrows⟩ := Prod.mk.inj houtcome
  exact ⟨_, t, us, ds, w, hrun, idle_pushEntity hidle hrun, hstage, hmerge, hw, hrows⟩

/-- **Push, then pull.** A full pull after a push that creates or replaces an entity returns all rows of the user, and the
entity as it was pushed iff its floats come back and its time is not that of the row it replaces, or nothing else changes. -/
theorem pull_returns_push (jm : JsonMode F) (hidle : s.Idle)
    (hrows : ∀ id r, s.committed p.user id = some r → (validate fl e r.values).isSome)
    (hwrites : Writes fl s p u) (hfree : ¬ Collides s (p.push fl)) (i j : ℕ) :
    ∃ r t d t', (pushEntity (p.push fl)).alone i s = some (.ok r, t) ∧ (pullEntity p.user none).alone j t = some (.ok d, t') ∧
      (∀ id row, d.items id = some row → (item fl jm row).isSome) ∧
      ((∃ row, d.items u.id = some row ∧ Returns fl jm u row) ↔
        (∀ f, Lossless jm (modelDump e u.payload f)) ∧
          Settles s.now (s.committed p.user) u.id (columns fl e u.payload) u.updatedAt.moment) := by
  obtain ⟨r, t, us, ds, w, hrun, ht, hstage, hmerge, hw, hafter⟩ := alone_written hidle hwrites hfree i
  obtain ⟨t', hpull, -⟩ := alone_pull ht j p.user none
  refine ⟨r, t, _, t', hrun, hpull, fun id row hrow => ?_, ?_⟩
  · obtain ⟨row', hrow', rfl⟩ := Option.map_eq_some_iff.1 hrow
    have hcommitted : t.committed p.user id = some row' := (Option.filter_eq_some_iff.1 hrow').1
    rw [hafter] at hcommitted
    rcases after_sourced hmerge hcommitted with ⟨r', hr', hvalues⟩ | ⟨v, hv, hvalues⟩
    · have hvalid := hrows id r' hr'
      rw [← hvalues] at hvalid
      rw [item, Option.isSome_map]
      exact hvalid
    · obtain ⟨u', hu'⟩ := staged_columns hstage hv
      have hcolumns : row'.item.values = columns fl e u'.payload := hvalues.trans hu'
      obtain ⟨fields, hfields, -⟩ := item_written jm u' hcolumns
      rw [hfields]
      rfl
  · obtain ⟨row, hrow, hvalues, hlive, hupdated⟩ :
        ∃ row, after p.user s.now (s.committed p.user) w u.id = some row ∧ row.values = columns fl e u.payload ∧
          row.deletedAt = none ∧ (row.updatedAt = u.updatedAt.moment.instant ↔
            Settles s.now (s.committed p.user) u.id (columns fl e u.payload) u.updatedAt.moment) := after_written hw rfl
    have hitem : (pulled t.now (t.committed p.user) none).items u.id = some row.item := by
      simp only [pulled, hafter, hrow]
      simp [Option.filter, hlive]
    have hcolumns : row.item.values = columns fl e u.payload := hvalues
    obtain ⟨fields, hfields, hsame⟩ := item_written jm u hcolumns
    rw [hitem, ← hupdated]
    constructor
    · rintro ⟨_, hrow', ⟨fields', hfields', hsame'⟩, htime⟩
      obtain rfl := Option.some.inj hrow'
      obtain rfl := Option.some.inj (hfields.symm.trans hfields')
      exact ⟨fun f => (hsame f).1 (hsame' f), htime⟩
    · rintro ⟨hlossless, htime⟩
      exact ⟨_, rfl, ⟨fields, hfields, fun f => (hsame f).2 (hlossless f)⟩, htime⟩

/-! ## Runs -/

/-- the only float is 0.7 -/
def sevenTenths : Floats Unit where
  repr _ := ['0', '.', '7']
  parse _ := .finite ()
  literal _ := by
    refine ⟨⟨false, ['0'], some ['7'], none⟩, ⟨Or.inl rfl, ?_, nofun⟩, rfl, rfl⟩
    rintro ds hds
    obtain rfl : ['7'] = ds := Option.some.inj hds
    refine ⟨nofun, fun c hc => ?_⟩
    rw [List.mem_singleton.1 hc]
    rfl
  parse_repr _ := rfl

/-- NaN and the infinities become `None` -/
def nullMode : JsonMode Unit where
  float x := decide (x = .finite ())
  any x := decide (x = .finite ())
  float_finite _ := rfl
  any_finite _ := rfl

def emptyTable (e : Entity) : Store (Field e) (ColVal Unit) where
  now := 1000
  cell _ := {}
  log := []
  missed := []
  itemsTo _ := none
  tombsTo _ := none

/-- a question whose answer is a string that looks like a list -/
def listLike : Input Unit .questions where
  id := "q1".toList
  payload := (⟨"blank".toList, "?".toList, none, .str "[\"A\"]".toList, none, ["t".toList], none, 1⟩ : QuestionIn)
  keysOnce := trivial
  updatedAt := utc 10

theorem pull_returns_push_demo : ∃ r t d t',
    (pushEntity (Sync.push sevenTenths ⟨1, [some listLike], []⟩)).alone 0 (emptyTable .questions) = some (.ok r, t) ∧
      (pullEntity 1 none).alone 0 t = some (.ok d, t') ∧
      ∃ row, d.items "q1".toList = some row ∧ Returns sevenTenths nullMode listLike row := by
  have hidle : (emptyTable .questions).Idle := fun _ => rfl
  have hrows : ∀ id r, (emptyTable .questions).committed 1 id = some r → (validate sevenTenths .questions r.values).isSome := by
    intro id r hr
    cases hr
  have hwrites : Writes sevenTenths (emptyTable .questions) ⟨1, [some listLike], []⟩ listLike := ⟨_, _, _, rfl, rfl, rfl⟩
  have hfree : ¬ Collides (emptyTable .questions) (Sync.push sevenTenths ⟨1, [some listLike], []⟩) := by
    rintro ⟨us, ds, w, -, -, u, -, -, htaken⟩
    exact htaken rfl
  obtain ⟨r, t, d, t', hpush, hpull, -, hiff⟩ := pull_returns_push nullMode hidle hrows hwrites hfree 0 0
  refine ⟨r, t, d, t', hpush, hpull, hiff.2 ⟨fun f => ?_, fun r hr => ?_⟩⟩
  · cases f with
    | tags =>
      intro v hv
      rw [List.mem_singleton.1 hv]
      exact .str _
    | _ => trivial
  · cases hr

def folderNamed (name : Text) : Input Unit .folders where
  id := "f1".toList
  payload := (⟨name, none, 0⟩ : FolderIn)
  keysOnce := trivial
  updatedAt := utc 10

/-- user 1 has the folder "a" of time 10 -/
def folderTable : Store (Field .folders) (ColVal Unit) :=
  { emptyTable .folders with
    cell := fun id =>
      if id = "f1".toList then
        { committed := some ⟨1, columns sevenTenths .folders (folderNamed ['a']).payload, 900, 10, none⟩ }
      else {} }

/-- the push of another name with the same time, and the pull after it -/
def renamed : Option (Except Exn (PullData (Field .folders) (ColVal Unit))) :=
  ((pushEntity (Sync.push sevenTenths ⟨1, [some (folderNamed ['b'])], []⟩)).alone 0 folderTable).bind fun q =>
    ((pullEntity 1 none).alone 0 q.2).map Prod.fst

/-- A replacement that has the time of the row is written, and comes back with the time of the server. -/
theorem equal_time_moves : Writes sevenTenths folderTable ⟨1, [some (folderNamed ['b'])], []⟩ (folderNamed ['b']) ∧
    ∃ d row, renamed = some (.ok d) ∧ d.items "f1".toList = some row ∧ row.values FolderField.name = .text ['b'] ∧
      row.updatedAt = 1000 ∧ (folderNamed ['b']).updatedAt.instant = 10 ∧
      ¬ Returns sevenTenths nullMode (folderNamed ['b']) row := by
  refine ⟨⟨_, _, _, rfl, rfl, rfl⟩, _, _, rfl, rfl, rfl, rfl, rfl, ?_⟩
  rintro ⟨-, htime⟩
  cases htime

end LkmService.Starhope
