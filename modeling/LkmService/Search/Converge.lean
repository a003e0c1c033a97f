/-
The index converges to the visible items, if no stale document is written over a later one.

A handler reads the row and writes the document, and neither the lock, which is of the event, nor the record of the event
holds the handlers of one item apart: one that has read the row before a change may write after one that has read it after
the change, and then nothing comes to correct it (`hidden_indexed`).

- `upToDate`: the handler that writes has not been overtaken both by a change of the item and by a handler from after that.
- `Inv`: an event that has been recorded has been followed by a reading and a writing of its item.
- `index_converges`: in every run whose writes are in order, the index is right whenever every event has been handled.
-/
import LkmService.Search.Sync

namespace LkmService.Search

open Session Session.Protocol
open Files (UserId LibraryFile isPublic buildFileDoc newer_iff)

variable {i j e n b : ℕ} {s t u : Store} {k : ItemKey} {doc : Option Doc} {doc' : Doc}

/-! ## The condition -/

/-- the write of session `i` is of the current row, or no handler that has read the row later has written -/
def upToDate (i : ℕ) (k : ItemKey) (s : Store) : Prop :=
  s.index.changed k < s.began i ∨ s.index.wrote k ≤ s.began i

/-- the document that a statement writes or deletes; a call of the engine that fails does neither -/
def Stmt.target {β : Type} (s : Store) : Stmt β → Option ItemKey
  | .upsert doc => if s.outcome s.calls = .failed then none else some doc.key
  | .delete k => if s.outcome s.calls = .failed then none else some k
  | _ => none

def inOrder {β : Type} (i : ℕ) (s : Store) (c : Stmt β) : Prop := ∀ k ∈ c.target s, upToDate i k s

/-! ## The protocol -/

structure Inv (s : Store) : Prop where
  index : s.index.Inv Tables.facts indexed
  stamps : ∀ (e : ℕ) q, s.published[e]? = some q → q.stamp < s.index.tick
  announced : ∀ k, s.index.changed k = 0 ∨ ∃ (e : ℕ) (q : Event), s.published[e]? = some q ∧ q.key = k ∧ s.index.changed k ≤ q.stamp
  processed : ∀ e ∈ s.processed, ∃ q, s.published[e]? = some q ∧ q.stamp < s.index.wrote q.key

structure Rely (i : ℕ) (s t : Store) : Prop where
  index : s.index.Onward Tables.facts t.index
  published : ∀ (e : ℕ) q, s.published[e]? = some q → t.published[e]? = some q
  processed : ∀ e ∈ s.processed, e ∈ t.processed
  began : t.began i = s.began i

theorem Rely.refl (i : ℕ) (s : Store) : Rely i s s := ⟨.refl _, fun _ _ h => h, fun _ h => h, rfl⟩

theorem Rely.trans (h : Rely i s t) (h' : Rely i t u) : Rely i s u :=
  ⟨h.index.trans h'.index, fun e q hq => h'.published e q (h.published e q hq), fun e he => h'.processed e (h.processed e he),
    h'.began.trans h.began⟩

theorem inv_release (h : Inv s) : Inv (s.release i) := ⟨h.index, h.stamps, h.announced, h.processed⟩

theorem rely_release (i j : ℕ) (s : Store) : Rely j s (s.release i) := ⟨.refl _, fun _ _ h => h, fun _ h => h, rfl⟩

def protocol : Protocol Stmt Store where
  inv := Inv
  rely := Rely
  act _ s t := ∀ (e : ℕ) q, s.published[e]? = some q → t.published[e]? = some q
  ok i c s := inOrder i s c
  rely_refl := Rely.refl
  rely_trans _ _ _ _ := Rely.trans
  drop_inv _ _ h _ := inv_release h
  drop_act _ _ _ _ _ _ h := h
  drop_rely i s _ _ j _ := rely_release i j s

/-! ## Steps -/

theorem good (hinv : Inv t) (hrely : ∀ j, j ≠ i → Rely j s t) : protocol.Good i s t :=
  ⟨hinv, (hrely (i + 1) (Nat.succ_ne_self i)).published, hrely⟩

/-- a step of the projection that changes no row -/
theorem Inv.reindex (h : Inv s) (hi : t.index.Inv Tables.facts indexed) (ho : s.index.Onward Tables.facts t.index)
    (hc : t.index.changed = s.index.changed) (hp : t.published = s.published) (hd : t.processed = s.processed) : Inv t := by
  refine ⟨hi, fun e q hq => ?_, fun k => ?_, fun e he => ?_⟩
  · rw [hp] at hq
    exact (h.stamps e q hq).trans_le ho.tick
  · rw [hp, hc]
    exact h.announced k
  · rw [hd] at he
    obtain ⟨q, hq, hwrote⟩ := h.processed e he
    exact ⟨q, hp ▸ hq, hwrote.trans_le (ho.wrote q.key)⟩

theorem good_commit (c : Change) (h : Inv s) : protocol.Good i s (s.commit c) := by
  have htouched : ∀ k, decide (k ∈ c.events s.tables) = false → (c.apply s.tables).facts k = s.index.source.facts k :=
    fun k hk => c.announced s.tables k (by simpa using hk)
  have hold : ∀ (e : ℕ) q, s.published[e]? = some q → (s.commit c).published[e]? = some q := by
    intro e q hq
    obtain ⟨hlt, -⟩ := List.getElem?_eq_some_iff.1 hq
    simpa only [Store.commit, List.getElem?_append_left hlt] using hq
  have honward : s.index.Onward Tables.facts (s.commit c).index := Projection.onward_change htouched
  refine good ⟨Projection.inv_change h.index htouched, fun e q hq => ?_, fun k => ?_, fun e he => ?_⟩
    fun j _ => ⟨honward, hold, fun _ he => he, rfl⟩
  · rcases List.mem_append.1 (List.mem_of_getElem? hq) with hmem | hmem
    · obtain ⟨e', he'⟩ := List.mem_iff_getElem?.1 hmem
      exact (h.stamps e' q he').trans (Nat.lt_succ_self _)
    · obtain ⟨k, -, rfl⟩ := List.mem_map.1 hmem
      exact Nat.lt_succ_self _
  · change (s.index.change _ _).changed k = 0 ∨ ∃ (e : ℕ) (q : Event), _ ∧ _ ∧ (s.index.change _ _).changed k ≤ q.stamp
    rw [Projection.changed_change]
    split
    next hk =>
      have hmem : (⟨k, s.index.tick⟩ : Event) ∈ (s.commit c).published :=
        List.mem_append_right _ (List.mem_map.2 ⟨k, by simpa using hk, rfl⟩)
      obtain ⟨e, he⟩ := List.mem_iff_getElem?.1 hmem
      exact .inr ⟨e, _, he, rfl, le_rfl⟩
    · rcases h.announced k with hzero | ⟨e, q, hq, hkey, hle⟩
      · exact .inl hzero
      · exact .inr ⟨e, q, hold e q hq, hkey, hle⟩
  · obtain ⟨q, hq, hwrote⟩ := h.processed e he
    exact ⟨q, hold e q hq, hwrote⟩

theorem good_begin (h : Inv s) : protocol.Good i s (s.begin i) := by
  have honward : s.index.Onward Tables.facts (s.begin i).index := Projection.onward_begin _
  refine good (h.reindex (Projection.inv_begin h.index) honward rfl rfl rfl) fun j hj => ⟨honward, fun _ _ h => h, fun _ h => h, ?_⟩
  exact Function.update_of_ne hj ..

/-- a write of what session `i` knows to be right -/
theorem good_write (h : Inv s) (hv : s.index.Known Tables.facts k (s.began i) (fun d => indexed k d doc)) (hok : upToDate i k s) (n : ℕ) :
    protocol.Good i s { s with index := s.index.write k doc (s.began i), calls := n } := by
  have honward : s.index.Onward Tables.facts (s.index.write k doc (s.began i)) := Projection.onward_write ..
  exact good (h.reindex (Projection.inv_write h.index hv hok) honward rfl rfl rfl)
    fun j _ => ⟨honward, fun _ _ h => h, fun _ h => h, rfl⟩

theorem good_calls (h : Inv s) (n : ℕ) : protocol.Good i s { s with calls := n } :=
  good ⟨h.index, h.stamps, h.announced, h.processed⟩ fun _ _ => ⟨.refl _, fun _ _ h => h, fun _ h => h, rfl⟩

/-- a record of an event whose item has been read and written since -/
theorem good_record {q : Event} (h : Inv s) (hq : s.published[e]? = some q) (hwrote : q.stamp < s.index.wrote q.key) :
    protocol.Good i s (({ s with processed := e :: s.processed } : Store).release i) := by
  refine good ⟨h.index, h.stamps, h.announced, fun e' he' => ?_⟩
    fun j _ => ⟨.refl _, fun _ _ h => h, fun _ h => List.mem_cons_of_mem _ h, rfl⟩
  rcases List.mem_cons.1 he' with rfl | he'
  · exact ⟨q, hq, hwrote⟩
  · exact h.processed e' he'

/-! ## What a handler has read -/

/-- what a reading that began after the stamp `b` has found for the item -/
structure Read (i : ℕ) (k : ItemKey) (b : ℕ) (doc : Option Doc) (s : Store) : Prop where
  known : s.index.Known Tables.facts k (s.began i) (fun d => indexed k d doc)
  later : b < s.began i
  key : ∀ d ∈ doc, d.key = k

theorem Read.onward (h : Read i k b doc s) (hr : Rely i s t) : Read i k b doc t := by
  refine ⟨?_, ?_, h.key⟩
  · rw [hr.began]
    exact h.known.onward hr.index
  · rw [hr.began]
    exact h.later

/-- the row of the item has no document -/
theorem indexed_none {d : Facts} (h : d.doc = none) : indexed k d none := by
  simp [indexed, Facts.shown, h]

theorem indexed_some {d : Facts} (hnew : d.superseded = false) (h : d.doc = some doc'.unnamed) : indexed k d (some doc') := by
  simp [indexed, Facts.shown, hnew, h]

theorem indexed_superseded {d : Facts} (h : d.superseded = true) : indexed k d none := by
  simp [indexed, Facts.shown, h]

/-- a reading of a row, and what is right for the row alone -/
theorem read_begin (hb : b < s.index.tick) (h : indexed k (s.tables.facts k) doc) (hkey : ∀ d ∈ doc, d.key = k) :
    Read i k b doc (s.begin i) := by
  have hbegan : (s.begin i).began i = s.index.tick := Function.update_self ..
  refine ⟨?_, ?_, hkey⟩
  · rw [hbegan]
    exact Projection.known_begin h
  · rw [hbegan]
    exact hb

theorem displayName_spec {user : Option UserId} {Φ : String → Store → Prop} (h : ∀ name t, Rely i s t → Φ name t) :
    protocol.wp i (displayName user) (After Φ) s := by
  cases user with
  | none => exact h "" s (.refl i s)
  | some user =>
    refine (wp_call _ _ _ _ _).2 fun s' hr hi _ name t he => ?_
    obtain ⟨rfl, rfl⟩ := exec_inj he
    exact ⟨good_calls hi _, h _ _ (hr.trans ⟨.refl _, fun _ _ h => h, fun _ h => h, rfl⟩)⟩

theorem facts_item {t : Tables} : t.facts (.item n) = { doc := ((t.getItem n).filter published).map fun r => .content (buildDoc n r "") } :=
  rfl

theorem itemIndexDoc_spec (hb : b < s.index.tick) :
    protocol.wp i (itemIndexDoc n) (After fun doc t => Read i (.item n) b doc t) s := by
  have hread : protocol.wp i (Prog.call (.getItem n) : Prg (Option ContentItem))
      (After fun row t => ∃ s' : Store, b < s'.index.tick ∧ row = s'.tables.getItem n ∧ t = s'.begin i) s := by
    refine (wp_call _ _ _ _ _).2 fun s' hr hi _ row t he => ?_
    obtain ⟨rfl, rfl⟩ := exec_inj he
    exact ⟨good_begin hi, s', hb.trans_le hr.index.tick, rfl, rfl⟩
  refine wp_step _ _ hread fun row t ⟨s', hb', hrow, ht⟩ => ?_
  subst ht
  have hnone : (row.filter published = none) → Read i (.item n) b none (s'.begin i) := by
    intro hhidden
    refine read_begin hb' (indexed_none ?_) fun _ h => (nomatch h)
    rw [facts_item, ← hrow, hhidden]
    rfl
  cases row with
  | none => exact hnone rfl
  | some r =>
    simp only
    split
    next hhidden =>
      refine hnone ?_
      have hnot : published r = false := by
        simp only [published, live, Bool.and_eq_false_iff, decide_eq_false_iff_not]
        rcases hhidden with hdeleted | hstatus
        · exact .inr (by simpa [Option.isSome_iff_ne_none] using hdeleted)
        · exact .inl hstatus
      simp [Option.filter, hnot]
    next hshown =>
      rw [not_or, not_not, not_not] at hshown
      have hpublished : published r = true := by simp [published, live, hshown.1, hshown.2]
      refine wp_step _ _ (displayName_spec fun name t hr => ?_) fun name t h => h
      refine (read_begin hb' (indexed_some rfl ?_) fun d hd => ?_).onward hr
      · rw [facts_item, ← hrow]
        simp [Option.filter, hpublished, Doc.unnamed, buildDoc]
      · obtain rfl := Option.some.inj hd
        rfl

/-- the row of a public file, as it was read -/
structure PublicRow (n : ℕ) (f : LibraryFile) (d : Facts) : Prop where
  doc : d.doc = some (.file (buildFileDoc n f ""))
  documentCode : d.documentCode = f.documentCode
  version : d.version = f.version

/-- the second query asks about the row as it is, if it is as it was -/
theorem newer_facts {t : Tables} {f : LibraryFile} (h : PublicRow n f (t.facts (.file n))) :
    newerApproved t.db.files f.documentCode f.version = none ↔ (t.facts (.file n)).superseded = false := by
  have hfacts : t.facts (.file n) = (t.getFile n).elim {} (fileFacts t.db.files n) := rfl
  cases hfound : t.db.files.find? fun q => decide (q.1 = n) with
  | none =>
    have hdoc := h.doc
    rw [hfacts, Tables.getFile, hfound] at hdoc
    cases hdoc
  | some q =>
    obtain ⟨m, f'⟩ := q
    have hmem := List.mem_of_find?_eq_some hfound
    have hrow : t.facts (.file n) = fileFacts t.db.files n f' := by rw [hfacts, Tables.getFile, hfound]; rfl
    rw [hrow] at h ⊢
    rw [newerApproved, Option.map_eq_none_iff, ← h.documentCode, ← h.version]
    exact newer_iff t.uncoded hmem

theorem fileIndexDoc_spec (hb : b < s.index.tick) :
    protocol.wp i (fileIndexDoc n) (After fun doc t => Read i (.file n) b doc t) s := by
  have hread : protocol.wp i (Prog.call (.getFile n) : Prg (Option LibraryFile))
      (After fun row t => ∃ s' : Store, b < s'.index.tick ∧ row = s'.tables.getFile n ∧ t = s'.begin i) s := by
    refine (wp_call _ _ _ _ _).2 fun s' hr hi _ row t he => ?_
    obtain ⟨rfl, rfl⟩ := exec_inj he
    exact ⟨good_begin hi, s', hb.trans_le hr.index.tick, rfl, rfl⟩
  refine wp_step _ _ hread ?_
  rintro row t ⟨s', hb', hrow, ht⟩
  subst ht
  have hfacts : s'.tables.facts (.file n) = row.elim {} (fileFacts s'.tables.db.files n) := by rw [hrow]; rfl
  cases row with
  | none => exact read_begin hb' (indexed_none (by rw [hfacts]; rfl)) fun _ h => by cases h
  | some f =>
    simp only
    split
    next hhidden =>
      refine read_begin hb' (indexed_none ?_) fun _ h => by cases h
      have hnot : isPublic f = false := by
        simp only [isPublic, Bool.and_eq_false_iff, decide_eq_false_iff_not]
        exact hhidden
      rw [hfacts]
      simp [fileFacts, hnot]
    next hshown =>
      rw [not_or, not_not, not_not] at hshown
      have hpublic : isPublic f = true := by simp [isPublic, hshown.1, hshown.2]
      have hrowed : PublicRow n f (s'.tables.facts (.file n)) := by
        rw [hfacts]
        exact ⟨by simp [fileFacts, hpublic], rfl, rfl⟩
      have hknown : (s'.begin i).index.Known Tables.facts (.file n) ((s'.begin i).began i) (PublicRow n f) := by
        rw [show (s'.begin i).began i = s'.index.tick from Function.update_self ..]
        exact Projection.known_begin hrowed
      have hlater : b < (s'.begin i).began i := by
        rw [show (s'.begin i).began i = s'.index.tick from Function.update_self ..]
        exact hb'
      -- what the second query says of the row is right for as long as the row is the one that was read
      have hnewer : protocol.wp i (Prog.call (.newerApproved f.documentCode f.version) : Prg (Option ℕ))
          (After fun found t => (found ≠ none → Read i (.file n) b none t) ∧
            ∀ name, found = none → Read i (.file n) b (some (.file (buildFileDoc n f name))) t) (s'.begin i) := by
        refine (wp_call _ _ _ _ _).2 fun u hr hi _ found t he => ?_
        obtain ⟨rfl, rfl⟩ := exec_inj he
        have hknown' : u.index.Known Tables.facts (.file n) (u.began i) (PublicRow n f) := by
          rw [hr.began]
          exact hknown.onward hr.index
        have hlater' : b < u.began i := by
          rw [hr.began]
          exact hlater
        refine ⟨good hi fun j _ => .refl j _, fun hfound => ⟨hknown'.imp fun hpublic => ?_, hlater', fun _ h => by cases h⟩,
          fun name hfound => ⟨hknown'.imp fun hpublic => ?_, hlater', fun d hd => ?_⟩⟩
        · refine indexed_superseded ?_
          rw [← Bool.not_eq_false]
          exact fun hnot => hfound ((newer_facts hpublic).2 hnot)
        · exact indexed_some ((newer_facts hpublic).1 hfound) hpublic.doc
        · obtain rfl := Option.some.inj hd
          rfl
      refine wp_step _ _ hnewer ?_
      rintro found t ⟨hold, hnew⟩
      cases found with
      | some m => exact hold (by simp)
      | none => exact wp_step _ _ (displayName_spec fun name t' hr => (hnew name rfl).onward hr) fun name t' h => h

/-! ## The handlers -/

/-- the document is written after a reading that began after the stamp -/
theorem writeDoc_spec (h : Read i k b doc s) : protocol.wp i (writeDoc k doc) (After fun _ t => b < t.index.wrote k) s := by
  have hcall : ∀ s', Rely i s s' → Inv s' → (s'.outcome s'.calls = .failed ∨ upToDate i k s') →
      ∀ returned t, s'.call i k doc = (returned, t) → protocol.Good i s' t ∧ (returned = true → b < t.index.wrote k) := by
    intro s' hr hi hok returned t he
    have hread := h.onward hr
    unfold Store.call at he
    split at he
    next hout =>
      obtain ⟨rfl, rfl⟩ := Prod.mk.inj he
      refine ⟨good_write hi hread.known (hok.resolve_left (by simp [hout])) _, fun _ => ?_⟩
      rw [Projection.wrote_write_self]
      exact hread.later.trans_le (le_max_right _ _)
    next hout =>
      obtain ⟨rfl, rfl⟩ := Prod.mk.inj he
      exact ⟨good_calls hi _, fun h => (nomatch h)⟩
    next hout =>
      obtain ⟨rfl, rfl⟩ := Prod.mk.inj he
      exact ⟨good_write hi hread.known (hok.resolve_left (by simp [hout])) _, fun h => (nomatch h)⟩
  have hend : ∀ returned t, (returned = true → b < t.index.wrote k) →
      protocol.wp i (orRaise returned) (After fun _ t => b < t.index.wrote k) t := by
    intro returned t hwrote
    cases returned with
    | true => exact hwrote rfl
    | false => trivial
  have hwhen : ∀ s' : Store, (∀ k' ∈ (if s'.outcome s'.calls = .failed then none else some k), upToDate i k' s') →
      s'.outcome s'.calls = .failed ∨ upToDate i k s' := by
    intro s' hok
    split at hok
    next hfailed => exact .inl hfailed
    · exact .inr (hok k rfl)
  cases doc with
  | none =>
    have hdelete : protocol.wp i (Prog.call (.delete k) : Prg Bool)
        (After fun returned t => returned = true → b < t.index.wrote k) s :=
      (wp_call _ _ _ _ _).2 fun s' hr hi hok returned t he => hcall s' hr hi (hwhen s' hok) returned t (Option.some.inj he)
    exact wp_step _ _ hdelete hend
  | some d =>
    obtain rfl := h.key d rfl
    have hupsert : protocol.wp i (Prog.call (.upsert d) : Prg Bool)
        (After fun returned t => returned = true → b < t.index.wrote d.key) s :=
      (wp_call _ _ _ _ _).2 fun s' hr hi hok returned t he => hcall s' hr hi (hwhen s' hok) returned t (Option.some.inj he)
    exact wp_step _ _ hupsert hend

theorem applyEvent_spec (hb : b < s.index.tick) :
    protocol.wp i (applyEvent k) (After fun _ t => b < t.index.wrote k) s := by
  cases k with
  | item n => exact wp_step _ _ (itemIndexDoc_spec hb) fun doc t h => writeDoc_spec h
  | file n => exact wp_step _ _ (fileIndexDoc_spec hb) fun doc t h => writeDoc_spec h

/-- `finally: rollback` keeps what the rest has found -/
theorem closing_spec {p : Prg Unit} (h : protocol.wp i p (After fun _ t => e ∈ t.processed) s) :
    protocol.wp i (closing p) (After fun _ t => e ∈ t.processed) s := by
  refine (wp_andThen _ _ _ _ _ _).2 (wp_mono _ _ h fun r t hr => ?_)
  intro t' hrely hinv _ _ u he
  obtain rfl := (exec_inj he).2
  refine ⟨good (inv_release hinv) fun j _ => rely_release i j _, ?_⟩
  cases r with
  | ok _ => exact hrely.processed e hr
  | error _ => trivial

/-- a dispatch that returns leaves its event on record -/
theorem dispatchWithDedup_spec {q : Event} (h : ℤ) (hq : s.published[e]? = some q) (hstamp : q.stamp < s.index.tick) :
    protocol.wp i (dispatchWithDedup h e (applyEvent q.key)) (After fun _ t => e ∈ t.processed) s := by
  apply closing_spec
  have hlock : protocol.wp i (Prog.call (.lock h) : Prg Unit) (After fun _ t => t.published[e]? = some q ∧ q.stamp < t.index.tick) s := by
    refine (wp_call _ _ _ _ _).2 fun s' hr hi _ _ t he => ?_
    simp only [Machine.exec, Stmt.exec] at he
    split at he
    · cases he
    · obtain rfl := (exec_inj he).2
      exact ⟨good ⟨hi.index, hi.stamps, hi.announced, hi.processed⟩ fun _ _ => ⟨.refl _, fun _ _ h => h, fun _ h => h, rfl⟩,
        hr.published e q hq, hstamp.trans_le hr.index.tick⟩
  refine wp_step _ _ hlock fun _ t ⟨hq, hstamp⟩ => ?_
  have hlook : protocol.wp i (Prog.call (.alreadyProcessed e) : Prg Bool) (After fun done t =>
      (done = true → e ∈ t.processed) ∧ t.published[e]? = some q ∧ q.stamp < t.index.tick) t := by
    refine (wp_call _ _ _ _ _).2 fun s' hr hi _ done t he => ?_
    obtain ⟨rfl, rfl⟩ := exec_inj he
    exact ⟨good hi fun j _ => .refl j _, of_decide_eq_true, hr.published e q hq, hstamp.trans_le hr.index.tick⟩
  refine wp_step _ _ hlook fun done t ⟨hdone, hq, hstamp⟩ => ?_
  cases done with
  | true =>
    refine (wp_call _ _ _ _ _).2 fun s' hr hi _ _ u he => ?_
    obtain rfl := (exec_inj he).2
    exact ⟨good (inv_release hi) fun j _ => rely_release i j _, hr.processed e (hdone rfl)⟩
  | false =>
    have hhandler : protocol.wp i (applyEvent q.key) (After fun _ t => q.stamp < t.index.wrote q.key) t := applyEvent_spec hstamp
    have hafter : protocol.wp i (applyEvent q.key)
        (After fun _ t => q.stamp < t.index.wrote q.key ∧ t.published[e]? = some q) t := by
      have hstays : ∀ s t, Rely i s t → s.published[e]? = some q → t.published[e]? = some q := fun _ _ hr => hr.published e q
      refine wp_mono _ _ (wp_frame protocol i hstays (fun _ _ ha => ha e q) hhandler hq) fun r t hr => ?_
      cases r with
      | ok _ => exact hr
      | error _ => trivial
    refine wp_step _ _ hafter fun _ t ⟨hwrote, hq⟩ => (wp_call _ _ _ _ _).2 fun s' hr hi _ _ u he => ?_
    obtain rfl := (exec_inj he).2
    exact ⟨good_record hi (hr.published e q hq) (hwrote.trans_le (hr.index.wrote q.key)), List.mem_cons_self⟩

/-! ## Runs -/

/-- what a session that returns has found -/
def Request.Done : Request → Store → Prop
  | .change _, _ => True
  | .deliver e, s => e ∈ s.processed

theorem request_spec (hash : ℕ → ℤ) (r : Request) : protocol.wp i (r.prog hash) (After fun _ => r.Done) s := by
  cases r with
  | change c =>
    refine (wp_call _ _ _ _ _).2 fun s' _ hi _ _ t he => ?_
    obtain rfl := (exec_inj he).2
    exact ⟨good_commit c hi, trivial⟩
  | deliver e =>
    have hreceive : protocol.wp i (Prog.call (.receive e) : Prg ItemKey) (After fun k t =>
        ∃ q : Event, t.published[e]? = some q ∧ q.key = k ∧ q.stamp < t.index.tick) s := by
      refine (wp_call _ _ _ _ _).2 fun s' _ hi _ k t he => ?_
      obtain ⟨q, hq, heq⟩ := Option.map_eq_some_iff.1 he
      obtain ⟨rfl, rfl⟩ := Prod.mk.inj heq
      exact ⟨good hi fun j _ => .refl j _, q, hq, rfl, hi.stamps e q hq⟩
    refine wp_step _ _ hreceive fun k t ⟨q, hq, hkey, hstamp⟩ => ?_
    subst hkey
    exact dispatchWithDedup_spec _ hq hstamp

/-- the document that the move writes or deletes -/
def pending (w : Run) : Move → Option ItemKey
  | .run i =>
    match w.prog i with
    | some (.op c _) => c.target w.st
    | _ => none
  | .crash _ => none

/-- the move writes no document that has been overtaken -/
def writesInOrder (w : Run) (m : Move) : Prop := ∀ k ∈ pending w m, upToDate (who m) k w.st

instance (i : ℕ) (k : ItemKey) (s : Store) : Decidable (upToDate i k s) := by
  unfold upToDate
  infer_instance

instance (w : Run) (m : Move) : Decidable (writesInOrder w m) := by
  unfold writesInOrder
  infer_instance

theorem legal_of_order {w : Run} {ms : List Move} (h : Along writesInOrder w ms) : protocol.Legal w ms := by
  refine h.mono fun w m hm => ?_
  refine stepOk_of _ (fun _ _ => trivial) ?_
  rintro β i c f rfl hp
  simp only [writesInOrder, pending, hp] at hm
  exact hm

/-- every event that has been published has a delivery that has returned -/
def Handled (requests : ℕ → Request) (w : Run) : Prop :=
  ∀ e < w.st.published.length, ∃ i, requests i = .deliver e ∧ w.answer i = some (.ok ())

section Runs

variable {hash : ℕ → ℤ} {tables : Tables} {index : ItemKey → Option Doc} {outcome : ℕ → Outcome} {names : ℕ → UserId → String}
  {requests : ℕ → Request}

theorem safe_init (h : ∀ k, indexed k (tables.facts k) (index k)) :
    protocol.Safe (init hash tables index outcome names requests) := by
  refine protocol.safe_start ⟨⟨fun _ => Nat.zero_lt_succ _, fun _ => ⟨Nat.one_pos, Nat.lt_succ_self 1⟩, fun k _ => h k⟩,
    fun e q hq => ?_, fun k => .inl rfl, fun e he => ?_⟩ fun i => ?_
  · simp at hq
  · cases he
  · exact wp_mono _ _ (request_spec hash (requests i)) fun _ _ _ => trivial

/-- **Convergence.** In a run whose writes are in order, whenever every event has been handled the index has the document of
each visible item, and of no other. -/
theorem index_converges (hindex : ∀ k, indexed k (tables.facts k) (index k)) (ms : List Move)
    (horder : Along writesInOrder (init hash tables index outcome names requests) ms)
    (hhandled : Handled requests (run (init hash tables index outcome names requests) ms)) (k : ItemKey) :
    indexed k ((run (init hash tables index outcome names requests) ms).st.tables.facts k)
      ((run (init hash tables index outcome names requests) ms).st.index.copy k) := by
  have hsafe : protocol.Safe (init hash tables index outcome names requests) := safe_init hindex
  have hlegal := legal_of_order horder
  have hinv : Inv _ := protocol.run_inv hsafe hlegal
  apply hinv.index.fresh
  rcases hinv.announced k with hzero | ⟨e, q, hq, rfl, hle⟩
  · rw [hzero]
    exact (hinv.index.wrote k).1
  · -- the last change has an event, which has been recorded after a reading and a writing of the item
    obtain ⟨hlt, -⟩ := List.getElem?_eq_some_iff.1 hq
    obtain ⟨i, hi, hanswer⟩ := hhandled e hlt
    have hdone : After (fun _ : Unit => (requests i).Done) (.ok () : Except EngineError Unit)
        (run (init hash tables index outcome names requests) ms).st := by
      refine protocol.run_result i (fun r s t hr hrely => ?_) hsafe hlegal rfl (request_spec hash (requests i)) hanswer
      cases r with
      | error _ => trivial
      | ok _ =>
        rw [hi] at hr ⊢
        exact hrely.processed e hr
    rw [hi] at hdone
    obtain ⟨q', hq', hwrote⟩ := hinv.processed e hdone
    obtain rfl := Option.some.inj (hq'.symm.trans hq)
    exact hle.trans_lt hwrote

end Runs

/-! ## A slow handler -/

/-- one content row is changed, with its event -/
def editItem (n : ℕ) (f : ContentItem → ContentItem) : Change where
  apply t :=
    { db :=
        { t.db with
          items := t.db.items.map fun q => if q.1 = n then (q.1, f q.2) else q
          itemKeys := by
            have hkeys : Prod.fst ∘ (fun q : ℕ × ContentItem => if q.1 = n then (q.1, f q.2) else q) = Prod.fst := by
              funext q
              simp only [Function.comp_apply]
              split <;> rfl
            rw [List.map_map, hkeys]
            exact t.db.itemKeys }
      uncoded := t.uncoded }
  events _ := [.item n]
  announced := by
    intro t k hk
    cases k with
    | file m => rfl
    | item m =>
      have hm : m ≠ n := by simpa using hk
      have hkeys : (fun q => decide (q.1 = m)) ∘ (fun q : ℕ × ContentItem => if q.1 = n then (q.1, f q.2) else q) =
          fun q => decide (q.1 = m) := by
        funext q
        simp only [Function.comp_apply]
        split <;> rfl
      have hrow : ∀ items : List (ℕ × ContentItem), ((items.map fun q => if q.1 = n then (q.1, f q.2) else q).find?
          fun q => decide (q.1 = m)).map Prod.snd = (items.find? fun q => decide (q.1 = m)).map Prod.snd := by
        intro items
        rw [List.find?_map, hkeys]
        have hfound : ∀ o : Option (ℕ × ContentItem), (∀ q ∈ o, q.1 = m) →
            (o.map fun q => if q.1 = n then (q.1, f q.2) else q).map Prod.snd = o.map Prod.snd := by
          rintro (_ | q) ho
          · rfl
          · rw [Option.map_some, if_neg (ho q rfl ▸ hm)]
        refine hfound _ fun q hq => ?_
        have hsome : items.find? (fun q => decide (q.1 = m)) = some q := hq
        simpa using List.find?_some hsome
      simp only [facts_item, Tables.getItem, hrow]

def draftsman : ContentItem where
  contentType := .article
  title := "a"

/-- one published item -/
def stock : Tables where
  db := { items := [(1, draftsman)], files := [], itemKeys := by decide, fileKeys := List.nodup_nil }
  uncoded := fun _ h => (nomatch h)

def stocked : ItemKey → Option Doc := fun k => if k = .item 1 then some (.content (buildDoc 1 draftsman "")) else none

theorem stocked_indexed (k : ItemKey) : indexed k (stock.facts k) (stocked k) := by
  cases k with
  | file n => rfl
  | item n =>
    by_cases hn : n = 1
    · subst hn
      decide
    · have hkey : ItemKey.item n ≠ .item 1 := by simpa using hn
      simp [indexed, Facts.shown, facts_item, Tables.getItem, stock, stocked, hkey, Ne.symm hn]

/-- an edit, a removal and a delivery of the event of each -/
def editors : ℕ → Request
  | 0 => .change (editItem 1 fun r => { r with title := "b" })
  | 1 => .change (editItem 1 fun r => { r with deletedAt := some 0 })
  | 2 => .deliver 0
  | _ => .deliver 1

def shop : Run := init (fun e => e) stock stocked (fun _ => .ok) (fun _ _ => "") editors

/-- one after the other -/
def inTurn : List Move := moves 0 1 ++ moves 2 7 ++ moves 1 1 ++ moves 3 7

theorem index_converges_demo : indexed (.item 1) ((run shop inTurn).st.tables.facts (.item 1)) ((run shop inTurn).st.index.copy (.item 1)) :=
  index_converges stocked_indexed inTurn (by decide) (by
    intro e he
    have hlength : (run shop inTurn).st.published.length = 2 := by decide
    change e < (run shop inTurn).st.published.length at he
    rw [hlength] at he
    obtain rfl | rfl : e = 0 ∨ e = 1 := by omega
    · exact ⟨2, rfl, by decide⟩
    · exact ⟨3, rfl, by decide⟩) _

/-- the edited row is read, the item is removed and that is handled, and then the document is written -/
def overtaken : List Move := moves 0 1 ++ moves 2 4 ++ moves 1 1 ++ moves 3 7 ++ moves 2 3

/-- both events have been handled, nobody has anything left to do, and the index has the removed item -/
theorem hidden_indexed : Handled editors (run shop overtaken) ∧ (∀ i < 4, (run shop overtaken).answer i = some (.ok ())) ∧
    ((run shop overtaken).st.tables.facts (.item 1)).shown = none ∧
    ((run shop overtaken).st.index.copy (.item 1)).isSome = true ∧
    ¬ indexed (.item 1) ((run shop overtaken).st.tables.facts (.item 1)) ((run shop overtaken).st.index.copy (.item 1)) := by
  refine ⟨?_, by decide, by decide, by decide, by decide⟩
  intro e he
  have hlength : (run shop overtaken).st.published.length = 2 := by decide
  rw [hlength] at he
  obtain rfl | rfl : e = 0 ∨ e = 1 := by omega
  · exact ⟨2, rfl, by decide⟩
  · exact ⟨3, rfl, by decide⟩

end LkmService.Search
