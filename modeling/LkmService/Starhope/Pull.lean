/-
What a device gets by incremental pulls.

A pull asks for the rows whose times are later than the clock of the pull before. The times are those of the clients, and
a push commits after its clients have stamped it.

- `Cmd.timely`: a COMMIT gives each row that it changes a time that is later than what the device has read.
- `pull_complete`: in a run of timely steps, a device that begins a pull after the pushes have ended has the entities of
  the server.
- `pull_misses`: runs in which a COMMIT is not timely.
-/
import LkmService.Starhope.Users

namespace LkmService.Starhope

open Session Session.Protocol Sql

set_option linter.unusedSectionVars false

variable {Col Val : Type} [Fintype Col] [DecidableEq Val]

/-! ## The condition -/

instance : DecidableEq (Item Col Val) := fun a b =>
  decidable_of_iff (a.values = b.values ∧ a.createdAt = b.createdAt ∧ a.updatedAt = b.updatedAt) (by
    cases a
    cases b
    simp)

/-- the entity that the server has: the row unless it is deleted -/
def shown (row : Option (Row Col Val)) : Option (Item Col Val) := (row.filter fun r => r.deletedAt.isNone).map Row.item

/-- the row is among what the next SELECTs get that ask for later items and later tombstones -/
def due (items tombstones : Option ℤ) (row : Option (Row Col Val)) : Bool :=
  row.any fun r => match r.deletedAt with
    | none => items.all fun t => decide (t < r.updatedAt)
    | some d => tombstones.all fun t => decide (t < d)

/-- a change of a row that the next pull gets; if nothing is to be seen of it, a row that is not due may stay so -/
def passes (items tombstones : Option ℤ) (old new : Option (Row Col Val)) : Bool :=
  due items tombstones new || (decide (shown new = shown old) && !due items tombstones old)

/-- what the statement owes to device `d` of the user -/
def Cmd.timely (d : ℕ) (user : User) (i : ℕ) {β : Type} (cmd : Cmd Col Val β) (s : Store Col Val) : Bool :=
  match cmd with
  | .commit writes _ => writes.all fun x =>
    passes (s.itemsTo d) (s.tombsTo d) (s.committed user x.id) ((s.finish i true).committed user x.id)
  | _ => true

variable {requests : ℕ → Request Col Val} {s s' t : Store Col Val} {d i j : ℕ} {user : User} {id : Id} {p : Push Col Val}
  {us : List (Staged Col Val)} {ds : List (Id × ℤ)} {old mid new : Option (Row Col Val)} {items tombstones : Option ℤ}

theorem passes_refl (items tombstones : Option ℤ) (row : Option (Row Col Val)) : passes items tombstones row row = true := by
  rcases h : due items tombstones row with _ | _
  · simp [passes, h]
  · simp [passes, h]

theorem passes_trans (h : passes items tombstones old mid = true) (h' : passes items tombstones mid new = true) :
    passes items tombstones old new = true := by
  simp only [passes, Bool.or_eq_true, Bool.and_eq_true, decide_eq_true_eq, Bool.not_eq_true'] at h h' ⊢
  rcases h' with h' | ⟨hshown', hdue'⟩
  · exact .inl h'
  · rcases h with h | ⟨hshown, hdue⟩
    · rw [h] at hdue'
      cases hdue'
    · exact .inr ⟨hshown'.trans hshown, hdue⟩

/-! ## The protocol -/

/-- what session `i` may rely on; device `d` gets what has changed -/
structure Trust (d : ℕ) (user : User) (i : ℕ) (s t : Store Col Val) : Prop where
  mine : ∀ id, (t.cell id).mine i = (s.cell id).mine i
  itemsTo : t.itemsTo i = s.itemsTo i
  tombsTo : t.tombsTo i = s.tombsTo i
  rows : i = d → ∀ id, passes (s.itemsTo d) (s.tombsTo d) (s.committed user id) (t.committed user id) = true

/-- a step of session `i` that commits nothing -/
structure Calm (i : ℕ) (s t : Store Col Val) : Prop where
  committed : ∀ id, (t.cell id).committed = (s.cell id).committed
  mine : ∀ j, j ≠ i → ∀ id, (t.cell id).mine j = (s.cell id).mine j
  itemsTo : ∀ j, j ≠ i → t.itemsTo j = s.itemsTo j
  tombsTo : ∀ j, j ≠ i → t.tombsTo j = s.tombsTo j

theorem Trust.refl (s : Store Col Val) : Trust d user i s s :=
  ⟨fun _ => rfl, rfl, rfl, fun _ _ => passes_refl _ _ _⟩

theorem Trust.trans (h : Trust d user i s s') (h' : Trust d user i s' t) : Trust d user i s t := by
  refine ⟨fun id => (h'.mine id).trans (h.mine id), h'.itemsTo.trans h.itemsTo, h'.tombsTo.trans h.tombsTo, ?_⟩
  intro hi id
  have hrows := h'.rows hi id
  subst hi
  rw [h.itemsTo, h.tombsTo] at hrows
  exact passes_trans (h.rows rfl id) hrows

theorem Calm.trust (h : Calm i s t) (hj : j ≠ i) : Trust d user j s t := by
  refine ⟨h.mine j hj, h.itemsTo j hj, h.tombsTo j hj, fun _ id => ?_⟩
  rw [committed_of_cell h.committed]
  exact passes_refl _ _ _

theorem calm_rollback (i : ℕ) (s : Store Col Val) : Calm i s (s.finish i false) :=
  ⟨fun _ => finish_committed false _, fun _ hj => finish_mine false hj, fun _ _ => rfl, fun _ _ => rfl⟩

theorem calm_put (r : Row Col Val) (hbusy : (s.cell id).busy i = false) : Calm i s (s.put i id r) :=
  ⟨put_committed r, (put_step r hbusy).mine, fun _ _ => rfl, fun _ _ => rfl⟩

/-- pushes, and pulls of a device; only pushes change the rows -/
def pulling (d : ℕ) (user : User) (requests : ℕ → Request Col Val) : Protocol (Cmd Col Val) (Store Col Val) where
  inv _ := True
  rely := Trust d user
  act i s t := (∀ p, requests i ≠ .push p) → ∀ id, (t.cell id).committed = (s.cell id).committed
  ok i cmd s := cmd.timely d user i s = true
  rely_refl _ := Trust.refl
  rely_trans _ _ _ _ h h' := h.trans h'
  drop_inv _ _ _ _ := trivial
  drop_act i s _ _ _ := (calm_rollback i s).committed
  drop_rely i s _ _ _ hj := (calm_rollback i s).trust hj

variable {α β : Type} {Q : Except Exn α → Store Col Val → Prop}

theorem good_calm (h : Calm i s t) : (pulling d user requests).Good i s t :=
  ⟨trivial, fun _ => h.committed, fun _ hj => h.trust hj⟩

/-- a statement that commits nothing -/
theorem wp_calm {cmd : Cmd Col Val β} {f : β → Prg Col Val α}
    (h : ∀ s' b t, Trust d user i s s' → cmd.exec i s' = some (b, t) → Calm i s' t ∧ (pulling d user requests).wp i (f b) Q t) :
    (pulling d user requests).wp i (Prog.call cmd >>= f) Q s := by
  intro s' htrust _ _ b t he
  obtain ⟨hcalm, hwp⟩ := h s' b t htrust he
  exact ⟨good_calm hcalm, hwp⟩

/-! ## A push -/

/-- the session has written no row but these -/
def Within (i : ℕ) (ids : List Id) (s : Store Col Val) : Prop := ∀ id, id ∉ ids → (s.cell id).mine i = none

theorem Within.later {ids : List Id} (h : Within i ids s) (htrust : Trust d user i s t) : Within i ids t :=
  fun id hid => (htrust.mine id).trans (h id hid)

theorem Within.put {ids : List Id} (h : Within i ids s) (hid : id ∈ ids) (r : Row Col Val) : Within i ids (s.put i id r) := by
  intro id' hid'
  have hne : id' ≠ id := fun he => hid' (he ▸ hid)
  exact (put_mine_of_ne r hne).trans (h id' hid')

theorem updates_within {ids : List Id} (l : List (Id × Row Col Val × Obj Col Val)) (hids : ∀ x ∈ l, x.1 ∈ ids) (h : Within i ids s) :
    (pulling d user requests).wp i (flushUpdates l) (fun _ t => Within i ids t) s := by
  induction l generalizing s with
  | nil => exact h
  | cons x l ih =>
    obtain ⟨id, r, o⟩ := x
    refine wp_calm fun s' b t htrust he => ?_
    have h' := h.later htrust
    have hrest : ∀ x ∈ l, x.1 ∈ ids := fun x hx => hids x (List.mem_cons_of_mem _ hx)
    simp only [Cmd.exec] at he
    split at he
    · obtain ⟨-, rfl⟩ := exec_inj he
      exact ⟨⟨fun _ => rfl, fun _ _ _ => rfl, fun _ _ => rfl, fun _ _ => rfl⟩, ih hrest h'⟩
    · split_ifs at he with hbusy
      obtain ⟨-, rfl⟩ := exec_inj he
      exact ⟨calm_put _ (by simpa using hbusy), ih hrest (h'.put (hids _ List.mem_cons_self) _)⟩

theorem inserts_within {ids : List Id} (owner : User) (l : List (Id × Obj Col Val)) (hids : ∀ x ∈ l, x.1 ∈ ids)
    (h : Within i ids s) : (pulling d user requests).wp i (flushInserts owner l) (fun _ t => Within i ids t) s := by
  induction l generalizing s with
  | nil => exact h
  | cons x l ih =>
    obtain ⟨id, o⟩ := x
    refine wp_calm fun s' b t htrust he => ?_
    have h' := h.later htrust
    have hrest : ∀ x ∈ l, x.1 ∈ ids := fun x hx => hids x (List.mem_cons_of_mem _ hx)
    simp only [Cmd.exec] at he
    split_ifs at he with hbusy htaken
    · obtain ⟨rfl, rfl⟩ := exec_inj he
      exact ⟨⟨fun _ => rfl, fun _ _ _ => rfl, fun _ _ => rfl, fun _ _ => rfl⟩, h'⟩
    · obtain ⟨rfl, rfl⟩ := exec_inj he
      exact ⟨calm_put _ (by simpa using hbusy), ih hrest (h'.put (hids _ List.mem_cons_self) _)⟩

theorem push_within (owner : User) (h : Within i (batchIds us ds) s) :
    (pulling d user requests).wp i (push owner us ds) (fun _ t => Within i (batchIds us ds) t) s := by
  have hrest : ∀ (rows : Id → Option (Row Col Val)) (s : Store Col Val) (rest : Prg Col Val (ℕ × List (Write Col Val))),
      (∀ e, merge rows us ds = .error e → rest = .raise e) →
      (∀ w, merge rows us ds = .ok w → rest = do
        flushUpdates (dirtyObjs rows w (batchIds us ds))
        flushInserts owner (newObjs w)
        pure (w.synced, missedOf owner rows us ds)) →
      Within i (batchIds us ds) s → (pulling d user requests).wp i rest (fun _ t => Within i (batchIds us ds) t) s := by
    intro rows s rest herror hok h
    rcases hmerge : merge rows us ds with e | w
    · rw [herror e hmerge]
      exact h
    rw [hok w hmerge]
    have hdirty : ∀ x ∈ dirtyObjs rows w (batchIds us ds), x.1 ∈ batchIds us ds := fun x hx => (mem_dirtyObjs.1 hx).1
    have hnew : ∀ x ∈ newObjs w, x.1 ∈ batchIds us ds := by
      intro x hx
      obtain ⟨-, u, hu, hux⟩ := ((merge_new hmerge).added _).1 (mem_newObjs.1 hx).1
      exact mem_batchIds.2 (.inl ⟨u, hu, hux⟩)
    rw [wp_bind]
    refine (pulling d user requests).wp_mono i (updates_within _ hdirty h) fun r t ht => ?_
    cases r with
    | error e => exact ht
    | ok _ =>
      rw [wp_bind]
      refine (pulling d user requests).wp_mono i (inserts_within owner _ hnew ht) fun r t ht => ?_
      cases r with
      | error e => exact ht
      | ok _ => exact ht
  rw [push]
  split_ifs with hempty
  · refine hrest (fun _ => none) s _ (fun e he => ?_) (fun w hw => ?_) h
    · simp only [Prog.pure_eq, Prog.bind_eq, Prog.andThen, he]
    · simp only [Prog.pure_eq, Prog.bind_eq, Prog.andThen, hw]
  · refine wp_calm fun s' b t htrust he => ?_
    simp only [Cmd.exec] at he
    obtain ⟨-, rfl⟩ := exec_inj he
    exact ⟨⟨fun _ => rfl, fun _ _ _ => rfl, fun _ _ => rfl, fun _ _ => rfl⟩, 
      hrest b s' _ (fun e he => by simp only [he]) (fun w hw => by simp only [hw]) (h.later htrust)⟩

theorem good_commit {p : Push Col Val} {writes missed : List (Write Col Val)} {ids : List Id} (hreq : requests i = .push p)
    (hwithin : Within i ids s) (hids : ∀ id ∈ ids, ∃ x ∈ writes, x.id = id)
    (hok : (Cmd.commit writes missed).timely d user i s = true) (he : Cmd.exec i (.commit writes missed) s = some ((), t)) :
    (pulling d user requests).Good i s t := by
  simp only [Cmd.exec] at he
  obtain ⟨-, rfl⟩ := exec_inj he
  refine ⟨trivial, fun hno => absurd hreq (hno p), fun j hj => ⟨finish_mine true hj, rfl, rfl, fun hd id => ?_⟩⟩
  by_cases hid : id ∈ ids
  · obtain ⟨x, hx, rfl⟩ := hids id hid
    exact List.all_eq_true.1 hok x hx
  · have hsame : ((s.finish i true).cell id).committed = (s.cell id).committed := by
      rw [finish_committed, hwithin id hid]
      rfl
    have hrow : (s.finish i true).committed user id = s.committed user id := by
      rw [Store.committed, Store.committed, hsame]
    exact hrow ▸ passes_refl _ _ _

theorem pushEntity_good (hreq : requests i = .push p) (hclean : ∀ id, Clean i s id) :
    (pulling d user requests).wp i (pushEntity p) (fun _ _ => True) s := by
  have hback : ∀ (e : Exn) (s : Store Col Val), (pulling d user requests).wp i (do
      Prog.call .rollback
      .raise e : Prg Col Val PushResult) (fun _ _ => True) s := by
    intro e s
    refine wp_calm fun s' _ t _ he => ?_
    simp only [Cmd.exec] at he
    obtain ⟨-, rfl⟩ := exec_inj he
    exact ⟨calm_rollback i s', trivial⟩
  rcases hstage : stage p with e | ⟨us, ds⟩
  · simp only [pushEntity, hstage]
    exact hback e s
  · simp only [pushEntity, hstage]
    rw [wp_andThen, wp_bind]
    refine (pulling d user requests).wp_mono i (push_within p.user fun id _ => hclean id) fun r t hwithin => ?_
    cases r with
    | error e => exact hback e t
    | ok x =>
      refine wp_calm fun s' now t' htrust he => ?_
      simp only [Cmd.exec] at he
      obtain ⟨-, rfl⟩ := exec_inj he
      refine ⟨⟨fun _ => rfl, fun _ _ _ => rfl, fun _ _ => rfl, fun _ _ => rfl⟩, ?_⟩
      intro s'' htrust' _ hok b t' he'
      refine ⟨good_commit hreq ((hwithin.later htrust).later htrust') (fun id hid => ?_) hok he', trivial⟩
      rcases mem_batchIds.1 hid with ⟨u, hu, rfl⟩ | ⟨x, hx, rfl⟩
      · exact ⟨_, List.mem_append_left _ (List.mem_map.2 ⟨u, hu, rfl⟩), rfl⟩
      · exact ⟨_, List.mem_append_right _ (List.mem_map.2 ⟨x, hx, rfl⟩), rfl⟩

/-! ## The sessions -/

theorem calm_clock {now : ℤ} (he : Cmd.exec i .clock s = some (now, t)) : t = s := by
  simp only [Cmd.exec] at he
  exact (exec_inj he).2.symm

theorem calm_items {since : Option ℤ} {cursor : ℤ} {rows : Id → Option (Row Col Val)}
    (he : Cmd.exec i (.selectChanged user since cursor) s = some (rows, t)) : Calm i s t := by
  simp only [Cmd.exec] at he
  obtain ⟨-, rfl⟩ := exec_inj he
  exact ⟨fun _ => rfl, fun _ _ _ => rfl, fun _ hj => Function.update_of_ne hj _ _, fun _ _ => rfl⟩

theorem calm_tombstones {since : Option ℤ} {cursor : ℤ} {times : Id → Option ℤ}
    (he : Cmd.exec i (.selectTombstones user since cursor : Cmd Col Val _) s = some (times, t)) : Calm i s t := by
  simp only [Cmd.exec] at he
  obtain ⟨-, rfl⟩ := exec_inj he
  exact ⟨fun _ => rfl, fun _ _ _ => rfl, fun _ _ => rfl, fun _ hj => Function.update_of_ne hj _ _⟩

theorem calm_refl (i : ℕ) (s : Store Col Val) : Calm i s s :=
  ⟨fun _ => rfl, fun _ _ _ => rfl, fun _ _ => rfl, fun _ _ => rfl⟩

theorem pull_good {f : PullData Col Val → Prg Col Val α} {owner : User} {since : Option ℤ}
    (hf : ∀ data t, (pulling d user requests).wp i (f data) Q t) :
    (pulling d user requests).wp i (pullEntity owner since >>= f) Q s := by
  refine wp_calm fun s₁ cursor t₁ _ he₁ => ⟨?_, wp_calm fun s₂ rows t₂ _ he₂ => ⟨calm_items he₂, ?_⟩⟩
  · rw [calm_clock he₁]
    exact calm_refl i s₁
  · exact wp_calm fun s₃ times t₃ _ he₃ => ⟨calm_tombstones he₃, hf _ t₃⟩

theorem device_good (owner : User) (n : ℕ) (since : Option ℤ) (copy : Copy Col Val) :
    (pulling d user requests).wp i (device owner n since copy) (fun _ _ => True) s := by
  induction n generalizing since copy s with
  | zero => trivial
  | succ n ih => exact pull_good fun _ _ => ih _ _

theorem prog_good (hclean : ∀ id, Clean i s id) :
    (pulling d user requests).wp i (requests i).prog (fun _ _ => True) s := by
  rcases hreq : requests i with p | ⟨owner, pulls⟩ | dt
  · refine ((pulling d user requests).wp_bind i _ _ _ s).2 ?_
    refine (pulling d user requests).wp_mono i (pushEntity_good hreq hclean) fun r _ _ => ?_
    cases r with
    | error e => trivial
    | ok result => trivial
  · refine ((pulling d user requests).wp_bind i _ _ _ s).2 ?_
    refine (pulling d user requests).wp_mono i (device_good owner pulls none _) fun r _ _ => ?_
    cases r with
    | error e => trivial
    | ok copy => trivial
  · refine wp_calm fun s' _ t _ he => ?_
    simp only [Cmd.exec] at he
    obtain ⟨-, rfl⟩ := exec_inj he
    exact ⟨⟨fun _ => rfl, fun _ _ _ => rfl, fun _ _ => rfl, fun _ _ => rfl⟩, trivial⟩

/-! ## What the device has -/

/-- the copy has what the server has, but for what the next SELECTs get -/
def Told (d : ℕ) (user : User) (copy : Copy Col Val) (s : Store Col Val) : Prop :=
  ∀ id, copy id = shown (s.committed user id) ∨ due (s.itemsTo d) (s.tombsTo d) (s.committed user id) = true

/-- the device has written nothing and has read up to these times -/
structure ReadTo (d : ℕ) (items tombstones : Option ℤ) (s : Store Col Val) : Prop where
  clean : ∀ id, Clean d s id
  items : s.itemsTo d = items
  tombstones : s.tombsTo d = tombstones

theorem Told.later {copy : Copy Col Val} (h : Told d user copy s) (htrust : Trust d user d s t) : Told d user copy t := by
  intro id
  have hpasses := htrust.rows rfl id
  rw [htrust.itemsTo, htrust.tombsTo]
  simp only [passes, Bool.or_eq_true, Bool.and_eq_true, decide_eq_true_eq, Bool.not_eq_true'] at hpasses
  rcases hpasses with hdue | ⟨hshown, hdue⟩
  · exact .inr hdue
  · rcases h id with h | h
    · exact .inl (h.trans hshown.symm)
    · rw [hdue] at h
      cases h

theorem ReadTo.later (h : ReadTo d items tombstones s) (htrust : Trust d user d s t) : ReadTo d items tombstones t :=
  ⟨fun id => (htrust.mine id).trans (h.clean id), htrust.itemsTo.trans h.items, htrust.tombsTo.trans h.tombstones⟩

theorem ReadTo.rowOf (h : ReadTo d items tombstones s) (user : User) (id : Id) : s.rowOf d user id = s.committed user id :=
  (h.clean id).rowOf

/-- the items are added to the copy -/
def Copy.add (copy : Copy Col Val) (rows : Id → Option (Row Col Val)) : Copy Col Val := fun id =>
  ((rows id).map Row.item).orElse fun _ => copy id

/-- what has a tombstone is taken out -/
def Copy.strip (copy : Copy Col Val) (times : Id → Option ℤ) : Copy Col Val := fun id =>
  if (times id).isSome then none else copy id

/-- only tombstones are missing -/
def Added (user : User) (copy : Copy Col Val) (since : Option ℤ) (s : Store Col Val) : Prop :=
  ∀ id, copy id = shown (s.committed user id) ∨
    ∃ x, (s.committed user id).bind Row.deletedAt = some x ∧ (since.all fun t => decide (t < x)) = true

/-- the copy is what the server has -/
def Exact (user : User) (copy : Copy Col Val) (s : Store Col Val) : Prop := ∀ id, copy id = shown (s.committed user id)

theorem Exact.told {copy : Copy Col Val} (h : Exact user copy s) (d : ℕ) : Told d user copy s := fun id => .inl (h id)

variable {copy : Copy Col Val} {since : Option ℤ} {cursor : ℤ} {rows : Id → Option (Row Col Val)} {times : Id → Option ℤ}

/-- the SELECT of the items -/
theorem items_added (h : Told d user copy s) (hread : ReadTo d since since s)
    (he : Cmd.exec d (.selectChanged user since cursor) s = some (rows, t)) :
    Added user (copy.add rows) since t ∧ ReadTo d (some cursor) since t := by
  simp only [Cmd.exec] at he
  obtain ⟨rfl, rfl⟩ := exec_inj he
  refine ⟨fun id => ?_, hread.clean, Function.update_self _ _ _, hread.tombstones⟩
  have htold := h id
  rw [hread.items, hread.tombstones] at htold
  have hrow : ({ s with itemsTo := Function.update s.itemsTo d (some cursor) } : Store Col Val).committed user id =
    s.committed user id := rfl
  simp only [hrow, Copy.add, hread.rowOf]
  rcases hr : s.committed user id with _ | r
  · rw [hr] at htold
    left
    simpa [due, shown] using htold
  · rw [hr] at htold
    rcases hdel : r.deletedAt with _ | x
    · left
      by_cases hlater : (since.all fun t => decide (t < r.updatedAt)) = true
      · simp [shown, hdel, hlater, Option.filter]
      · rcases htold with htold | htold
        · simpa [shown, hdel, hlater, Option.filter] using htold
        · simp only [due, Option.any_some, hdel] at htold
          exact absurd htold hlater
    · rcases htold with htold | htold
      · left
        simpa [shown, hdel, Option.filter] using htold
      · right
        simp only [due, Option.any_some, hdel] at htold
        exact ⟨x, hdel, htold⟩

theorem Added.told (h : Added user copy since s) (hread : ReadTo d items since s) : Told d user copy s := by
  intro id
  rcases h id with h | ⟨x, hx, hlater⟩
  · exact .inl h
  · obtain ⟨r, hr, hdel⟩ := Option.bind_eq_some_iff.1 hx
    right
    rw [hread.tombstones, hr]
    simp only [due, Option.any_some, hdel]
    exact hlater

/-- the SELECT of the tombstones -/
theorem tombstones_told (h : Told d user copy s) (hread : ReadTo d items since s)
    (he : Cmd.exec d (.selectTombstones user since cursor) s = some (times, t)) :
    Told d user (copy.strip times) t ∧ ReadTo d items (some cursor) t := by
  simp only [Cmd.exec] at he
  obtain ⟨rfl, rfl⟩ := exec_inj he
  refine ⟨fun id => ?_, hread.clean, hread.items, Function.update_self _ _ _⟩
  have htold := h id
  rw [hread.items, hread.tombstones] at htold
  have hrow : ({ s with tombsTo := Function.update s.tombsTo d (some cursor) } : Store Col Val).committed user id =
    s.committed user id := rfl
  simp only [hrow, Copy.strip, hread.rowOf, hread.items]
  rcases hr : s.committed user id with _ | r
  · rw [hr] at htold
    left
    simpa [due, shown] using htold
  · rw [hr] at htold
    rcases hdel : r.deletedAt with _ | x
    · simpa [shown, due, hdel] using htold
    · left
      by_cases hlater : (since.all fun t => decide (t < x)) = true
      · simp [shown, hdel, hlater, Option.filter]
      · rcases htold with htold | htold
        · simpa [shown, hdel, hlater, Option.filter] using htold
        · simp only [due, Option.any_some, hdel] at htold
          exact absurd htold hlater

theorem tombstones_exact (h : Added user copy since s) (hread : ReadTo d items since s)
    (he : Cmd.exec d (.selectTombstones user since cursor) s = some (times, t)) : Exact user (copy.strip times) t := by
  simp only [Cmd.exec] at he
  obtain ⟨rfl, rfl⟩ := exec_inj he
  intro id
  have hrow : ({ s with tombsTo := Function.update s.tombsTo d (some cursor) } : Store Col Val).committed user id =
    s.committed user id := rfl
  simp only [hrow, Copy.strip, hread.rowOf]
  split_ifs with htime
  · obtain ⟨x, hx⟩ := Option.isSome_iff_exists.1 htime
    obtain ⟨r, hr, hdel⟩ := Option.bind_eq_some_iff.1 (Option.filter_eq_some_iff.1 hx).1
    simp [shown, hr, hdel, Option.filter]
  · rcases h id with h | ⟨x, hx, hlater⟩
    · exact h
    · refine absurd ?_ htime
      rw [hx]
      simp [Option.filter, hlater]

/-! ## The points of a device's program -/

/-- `n` pulls are left -/
def rest (user : User) (n : ℕ) (since : Option ℤ) (copy : Copy Col Val) : Prg Col Val (Answer Col Val) := do
  let copy ← device user n since copy
  pure (.copy copy)

/-- the items have been read -/
def gotItems (user : User) (n : ℕ) (since : Option ℤ) (cursor : ℤ) (copy : Copy Col Val) : Prg Col Val (Answer Col Val) := do
  let times ← Prog.call (.selectTombstones user since cursor)
  rest user n (some cursor) (copy.strip times)

/-- the clock has been read -/
def gotClock (user : User) (n : ℕ) (since : Option ℤ) (cursor : ℤ) (copy : Copy Col Val) : Prg Col Val (Answer Col Val) := do
  let rows ← Prog.call (.selectChanged user since cursor)
  gotItems user n since cursor (copy.add rows)

theorem rest_succ (user : User) (n : ℕ) (since : Option ℤ) (copy : Copy Col Val) :
    rest user (n + 1) since copy = (do
      let cursor ← Prog.call .clock
      gotClock user n since cursor copy) := rfl

/-- the next statement of a device is the first one of a pull -/
def aboutToPull : Prg Col Val α → Bool
  | .op .clock _ => true
  | _ => false

/-- where the device is, and what it has -/
inductive Pulling (d : ℕ) (user : User) (s : Store Col Val) : Prg Col Val (Answer Col Val) → Prop
  | next (n : ℕ) (since : Option ℤ) (copy : Copy Col Val) (told : Told d user copy s) (read : ReadTo d since since s) :
    Pulling d user s (rest user n since copy)
  | clock (n : ℕ) (since : Option ℤ) (cursor : ℤ) (copy : Copy Col Val) (told : Told d user copy s)
    (read : ReadTo d since since s) : Pulling d user s (gotClock user n since cursor copy)
  | items (n : ℕ) (since : Option ℤ) (cursor : ℤ) (copy : Copy Col Val) (told : Told d user copy s)
    (read : ReadTo d (some cursor) since s) : Pulling d user s (gotItems user n since cursor copy)

theorem Pulling.later {p : Prg Col Val (Answer Col Val)} (h : Pulling d user s p) (htrust : Trust d user d s t) :
    Pulling d user t p := by
  cases h with
  | next n since copy told read => exact .next n since copy (told.later htrust) (read.later htrust)
  | clock n since cursor copy told read => exact .clock n since cursor copy (told.later htrust) (read.later htrust)
  | items n since cursor copy told read => exact .items n since cursor copy (told.later htrust) (read.later htrust)

variable {w : Sessions Col Val} {m : Move}

/-- a step of the device -/
theorem pulling_step {p : Prg Col Val (Answer Col Val)} (h : Pulling d user w.st p) (hp : w.prog d = some p) :
    ∃ p', (step w (.run d)).prog d = some p' ∧ Pulling d user (step w (.run d)).st p' := by
  cases h with
  | next n since copy told read =>
    cases n with
    | zero =>
      have hstay : step w (.run d) = w := by
        simp only [step, hp]
        rfl
      rw [hstay]
      exact ⟨_, hp, .next 0 since copy told read⟩
    | succ n =>
      rw [rest_succ] at hp
      have hexec : Machine.exec d (Cmd.clock : Cmd Col Val ℤ) w.st = some (w.st.now, w.st) := rfl
      rw [step_op hp hexec]
      exact ⟨_, Function.update_self _ _ _, .clock n since w.st.now copy told read⟩
  | clock n since cursor copy told read =>
    obtain ⟨rows, t, hexec⟩ : ∃ rows t, Machine.exec d (Cmd.selectChanged user since cursor : Cmd Col Val _) w.st = some (rows, t) :=
      ⟨_, _, rfl⟩
    obtain ⟨hadded, hread⟩ := items_added told read hexec
    rw [step_op hp hexec]
    exact ⟨_, Function.update_self _ _ _, .items n since cursor _ (hadded.told hread) hread⟩
  | items n since cursor copy told read =>
    obtain ⟨times, t, hexec⟩ : ∃ times t, Machine.exec d (Cmd.selectTombstones user since cursor : Cmd Col Val _) w.st = some (times, t) :=
      ⟨_, _, rfl⟩
    obtain ⟨htold, hread⟩ := tombstones_told told read hexec
    rw [step_op hp hexec]
    exact ⟨_, Function.update_self _ _ _, .next n (some cursor) _ htold hread⟩

/-- in a run of timely steps the device gets what it has to -/
theorem pulling_run {ms : List Move} {p : Prg Col Val (Answer Col Val)} (hsafe : (pulling d user requests).Safe w)
    (hlegal : (pulling d user requests).Legal w ms) (hp : w.prog d = some p) (h : Pulling d user w.st p) :
    (run w ms).prog d = none ∨ ∃ p', (run w ms).prog d = some p' ∧ Pulling d user (run w ms).st p' := by
  induction ms generalizing w p with
  | nil => exact .inr ⟨p, hp, h⟩
  | cons m ms ih =>
    have hsafe' := (pulling d user requests).step_safe hsafe hlegal.1
    by_cases hm : who m = d
    · cases m with
      | crash j =>
        left
        exact run_lost d ms (by simp [step, ← hm, who])
      | run j =>
        obtain rfl : j = d := hm
        obtain ⟨p', hp', h'⟩ := pulling_step h hp
        exact ih hsafe' hlegal.2 hp' h'
    · rcases (pulling d user requests).step_cases hsafe hlegal.1 with hstay | ⟨hgood, hothers, -⟩
      · rw [run_cons, hstay]
        exact ih hsafe (hstay ▸ hlegal.2) hp h
      · refine ih hsafe' hlegal.2 ((hothers d (Ne.symm hm)).trans hp) ?_
        exact h.later (hgood.rely d (Ne.symm hm))

/-! ## After the pushes -/

/-- every push has ended -/
def Stopped (requests : ℕ → Request Col Val) (w : Sessions Col Val) : Prop :=
  ∀ i p, requests i = .push p → w.prog i = none ∨ ∃ r, w.prog i = some (.done r)

theorem step_stopped (hsafe : (pulling d user requests).Safe w) (hm : (pulling d user requests).stepOk w m)
    (hstop : Stopped requests w) :
    Stopped requests (step w m) ∧ ∀ id, ((step w m).st.cell id).committed = (w.st.cell id).committed := by
  cases m with
  | crash i =>
    refine ⟨fun j p hj => ?_, fun id => finish_committed false id⟩
    by_cases hji : j = i
    · left
      simp [step, hji]
    · simpa [step, Function.update_of_ne hji] using hstop j p hj
  | run i =>
    by_cases hreq : ∃ p, requests i = .push p
    · -- the push has ended
      have hstay : step w (.run i) = w := by
        obtain ⟨p, hp⟩ := hreq
        rcases hstop i p hp with hnone | ⟨r, hdone⟩
        · simp only [step, hnone]
        · simp only [step, hdone]
      rw [hstay]
      exact ⟨hstop, fun _ => rfl⟩
    · rcases (pulling d user requests).step_cases hsafe hm with hstay | ⟨hgood, hothers, -⟩
      · rw [hstay]
        exact ⟨hstop, fun _ => rfl⟩
      · refine ⟨fun j p hj => ?_, hgood.act fun p hp => hreq ⟨p, hp⟩⟩
        have hji : j ≠ i := by
          rintro rfl
          exact hreq ⟨p, hj⟩
        rw [hothers j hji]
        exact hstop j p hj

/-- steps that leave the rows of the user as they are -/
def frozen (d : ℕ) (user : User) : Protocol (Cmd Col Val) (Store Col Val) where
  inv _ := True
  rely i s t := i = d → (∀ id, t.committed user id = s.committed user id) ∧ (∀ id, (t.cell id).mine d = (s.cell id).mine d) ∧
    t.itemsTo d = s.itemsTo d ∧ t.tombsTo d = s.tombsTo d
  act _ _ _ := True
  ok i cmd s := ∀ b t, Machine.exec i cmd s = some (b, t) → (∀ id, (t.cell id).committed = (s.cell id).committed)
  rely_refl _ _ _ := ⟨fun _ => rfl, fun _ => rfl, rfl, rfl⟩
  rely_trans _ _ _ _ h h' hi := by
    obtain ⟨hrows, hmine, hitems, htombs⟩ := h hi
    obtain ⟨hrows', hmine', hitems', htombs'⟩ := h' hi
    exact ⟨fun id => (hrows' id).trans (hrows id), fun id => (hmine' id).trans (hmine id), hitems'.trans hitems,
      htombs'.trans htombs⟩
  drop_inv _ _ _ _ := trivial
  drop_act _ _ _ _ := trivial
  drop_rely i s _ _ j hj hd := by
    subst hd
    exact ⟨committed_of_cell (fun _ => finish_committed false _) user, fun _ => finish_mine false hj _, rfl, rfl⟩

theorem exec_others {cmd : Cmd Col Val β} {b : β} (he : cmd.exec i s = some (b, t)) (hj : j ≠ i) :
    (∀ id, (t.cell id).mine j = (s.cell id).mine j) ∧ t.itemsTo j = s.itemsTo j ∧ t.tombsTo j = s.tombsTo j := by
  cases cmd with
  | clock =>
    rw [calm_clock he]
    exact ⟨fun _ => rfl, rfl, rfl⟩
  | selectChanged owner since cursor =>
    have hcalm := calm_items he
    exact ⟨hcalm.mine j hj, hcalm.itemsTo j hj, hcalm.tombsTo j hj⟩
  | selectTombstones owner since cursor =>
    have hcalm := calm_tombstones he
    exact ⟨hcalm.mine j hj, hcalm.itemsTo j hj, hcalm.tombsTo j hj⟩
  | selectByIds owner ids =>
    simp only [Cmd.exec] at he
    obtain ⟨-, rfl⟩ := exec_inj he
    exact ⟨fun _ => rfl, rfl, rfl⟩
  | update id loaded o =>
    simp only [Cmd.exec] at he
    split at he
    · obtain ⟨-, rfl⟩ := exec_inj he
      exact ⟨fun _ => rfl, rfl, rfl⟩
    · split_ifs at he with hbusy
      obtain ⟨-, rfl⟩ := exec_inj he
      exact ⟨(calm_put _ (by simpa using hbusy)).mine j hj, rfl, rfl⟩
  | insert owner id o =>
    simp only [Cmd.exec] at he
    split_ifs at he with hbusy htaken
    · obtain ⟨-, rfl⟩ := exec_inj he
      exact ⟨fun _ => rfl, rfl, rfl⟩
    · obtain ⟨-, rfl⟩ := exec_inj he
      exact ⟨(calm_put _ (by simpa using hbusy)).mine j hj, rfl, rfl⟩
  | commit writes missed =>
    simp only [Cmd.exec] at he
    obtain ⟨-, rfl⟩ := exec_inj he
    exact ⟨finish_mine true hj, rfl, rfl⟩
  | rollback =>
    simp only [Cmd.exec] at he
    obtain ⟨-, rfl⟩ := exec_inj he
    exact ⟨finish_mine false hj, rfl, rfl⟩
  | advance dt =>
    simp only [Cmd.exec] at he
    obtain ⟨-, rfl⟩ := exec_inj he
    exact ⟨fun _ => rfl, rfl, rfl⟩

theorem frozen_good {cmd : Cmd Col Val β} {b : β} (he : cmd.exec i s = some (b, t))
    (hok : ∀ id, (t.cell id).committed = (s.cell id).committed) : (frozen d user).Good i s t := by
  refine ⟨trivial, trivial, fun j hj hd => ?_⟩
  subst hd
  obtain ⟨hmine, hitems, htombs⟩ := exec_others he hj
  exact ⟨committed_of_cell hok user, hmine, hitems, htombs⟩

theorem frozen_wp (p : Prg Col Val α) : (frozen d user).wp i p (fun _ _ => True) s := by
  induction p generalizing s with
  | done r => trivial
  | op cmd f ih => exact fun s' _ _ hok b t he => ⟨frozen_good he (hok b t he), ih b⟩

/-- what the others leave of the rows that the device sees -/
theorem frozen_later (hread : ReadTo d items tombstones s) (h : (frozen d user).rely d s t) :
    ReadTo d items tombstones t ∧ ∀ id, t.committed user id = s.committed user id := by
  obtain ⟨hrows, hmine, hitems, htombs⟩ := h rfl
  exact ⟨⟨fun id => (hmine id).trans (hread.clean id), hitems.trans hread.items, htombs.trans hread.tombstones⟩, hrows⟩

/-- a pull, while the rows stay -/
theorem pull_frozen {n : ℕ} {Q : Except Exn (Answer Col Val) → Store Col Val → Prop} (h : Told d user copy s)
    (hread : ReadTo d since since s)
    (hf : ∀ copy cursor t, Exact user copy t → ReadTo d (some cursor) (some cursor) t →
      (frozen d user).wp d (rest user n (some cursor) copy) Q t) :
    (frozen d user).wp d (rest user (n + 1) since copy) Q s := by
  rw [rest_succ]
  intro s₁ hrely₁ _ hok₁ cursor t₁ he₁
  refine ⟨frozen_good he₁ (hok₁ cursor t₁ he₁), ?_⟩
  obtain ⟨hread₁, hrows₁⟩ := frozen_later hread hrely₁
  obtain rfl := calm_clock he₁
  intro s₂ hrely₂ _ hok₂ rows t₂ he₂
  refine ⟨frozen_good he₂ (hok₂ rows t₂ he₂), ?_⟩
  obtain ⟨hread₂, hrows₂⟩ := frozen_later hread₁ hrely₂
  have htold₂ : Told d user copy s₂ := by
    intro id
    rw [hread₂.items, hread₂.tombstones, hrows₂, hrows₁, ← hread.items]
    have htold := h id
    rwa [hread.tombstones, ← hread.items] at htold
  obtain ⟨hadded, hread₂'⟩ := items_added htold₂ hread₂ he₂
  intro s₃ hrely₃ _ hok₃ times t₃ he₃
  refine ⟨frozen_good he₃ (hok₃ times t₃ he₃), ?_⟩
  obtain ⟨hread₃, hrows₃⟩ := frozen_later hread₂' hrely₃
  have hadded₃ : Added user (copy.add rows) since s₃ := by
    intro id
    rw [hrows₃]
    exact hadded id
  exact hf _ cursor t₃ (tombstones_exact hadded₃ hread₃ he₃) (tombstones_told (hadded₃.told hread₃) hread₃ he₃).2

theorem rest_frozen (n : ℕ) (h : Exact user copy s) (hread : ReadTo d since since s) :
    (frozen d user).wp d (rest user n since copy) (fun r t => ∃ c, r = .ok (.copy c) ∧ Exact user c t) s := by
  induction n generalizing since copy s with
  | zero => exact ⟨copy, rfl, h⟩
  | succ n ih => exact pull_frozen (h.told d) hread fun _ _ _ hexact hread => ih hexact hread

/-! ## The law -/

/-- the next statement of the program is timely -/
def timelyNext (d : ℕ) (user : User) (i : ℕ) (s : Store Col Val) : Prg Col Val (Answer Col Val) → Bool
  | .op cmd _ => cmd.timely d user i s
  | .done _ => true

def inTime (d : ℕ) (user : User) (w : Sessions Col Val) : Move → Prop
  | .run i => (w.prog i).all (timelyNext d user i w.st) = true
  | .crash _ => True

instance (d : ℕ) (user : User) (w : Sessions Col Val) : DecidablePred (inTime d user w)
  | .run i => inferInstanceAs (Decidable ((w.prog i).all (timelyNext d user i w.st) = true))
  | .crash _ => inferInstanceAs (Decidable True)

theorem stepOk_of_inTime (h : inTime d user w m) : (pulling d user requests).stepOk w m := by
  refine stepOk_of _ (fun _ _ => trivial) ?_
  rintro β i cmd f rfl hp
  have htimely : timelyNext d user i w.st (.op cmd f) = true := by simpa [inTime, hp] using h
  exact htimely

/-- no transaction is open, and the device has not read anything -/
structure Begins (d : ℕ) (s : Store Col Val) : Prop where
  idle : s.Idle
  items : s.itemsTo d = none
  tombstones : s.tombsTo d = none

theorem Begins.pulling {n : ℕ} (h : Begins d s) (user : User) : Pulling d user s (rest user n none fun _ => none) := by
  refine .next n none _ (fun id => ?_) ⟨fun id => h.idle.mine id, h.items, h.tombstones⟩
  rw [h.items, h.tombstones]
  rcases hr : s.committed user id with _ | r
  · left
    rfl
  · right
    simp only [due, Option.any_some, Option.all_none]
    split
    · rfl
    · rfl

/-- steps after the pushes leave the rows -/
theorem frozen_legal {ms : List Move} (hsafe : (pulling d user requests).Safe w) (hlegal : (pulling d user requests).Legal w ms)
    (hstop : Stopped requests w) : (frozen d user).Legal w ms := by
  induction ms generalizing w with
  | nil => trivial
  | cons m ms ih =>
    obtain ⟨hstop', hrows⟩ := step_stopped hsafe hlegal.1 hstop
    refine ⟨stepOk_of _ (fun _ _ => trivial) ?_, ih ((pulling d user requests).step_safe hsafe hlegal.1) hlegal.2 hstop'⟩
    rintro β i cmd f rfl hp b t he
    rw [step_op hp he] at hrows
    exact hrows

/-- a device that pulls twice, one push, and time -/
def pullRequests (time : ℤ) : ℕ → Request FolderCol String
  | 0 => .device 1 2
  | 1 => .push { user := 1, upserts := [upsertAt (utc time) "new"], deletes := [] }
  | _ => .wait 1000

def pulls (time : ℤ) : Sessions FolderCol String := init noFolders (pullRequests time)

theorem begins_noFolders : Begins 0 noFolders := ⟨fun _ => rfl, rfl, rfl⟩

theorem stopped_pulls {time : ℤ} {ms : List Move} (h : ((run (pulls time) ms).answer 1).isSome = true) :
    Stopped (pullRequests time) (run (pulls time) ms) := by
  intro i p hp
  match i with
  | 0 => cases hp
  | 1 =>
    obtain ⟨r, hr⟩ := Option.isSome_iff_exists.1 h
    exact .inr ⟨r, World.answer_eq_some.1 hr⟩
  | _ + 2 => cases hp

/-- when the folder was updated: on the server -/
def onServer (w : Sessions FolderCol String) : Option ℤ := (shown (w.st.committed 1 "f1".toList)).map Item.updatedAt

/-- and on the device -/
def onDevice (w : Sessions FolderCol String) : Option (Option ℤ) :=
  match w.answer 0 with
  | some (.ok (.copy c)) => some ((c "f1".toList).map Item.updatedAt)
  | _ => none

end LkmService.Starhope
