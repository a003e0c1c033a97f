/-
Every session that inserts outbox rows keeps the discipline of the outbox: business transactions with
`enqueue_outbox`, `replay_failure`, `requeue`, and the consumer that stores dead letters.
-/
import LkmService.Outbox.Relay

namespace LkmService.Outbox

open Session Sql Sql.Discipline Tbl

variable {P : Type} {env : Env P} {calls : ℕ → Call P} {i : ℕ} {o o' : Held P} {σ τ : State P}

/-! ## Keys -/

/-- the session has inserted the key row of `e` -/
structure NewKey (o : Held P) (σ : State P) (e : String) : Prop where
  row : ∃ k, o.row keys k = some (some e)
  key : o.key (.event e)
  free : ∀ k, σ.com keys k ≠ some e

theorem NewKey.later {e : String} (h : NewKey o σ e) (hl : (discipline env calls).Later i o σ τ) : NewKey o τ e :=
  ⟨h.row, h.key, Rely.key_free hl.rely e h.key h.free⟩

/-- from `o` and `σ` the session has come to `o'` and `σ'` by taking keys only -/
structure Keyed (o : Held P) (σ : State P) (o' : Held P) (σ' : State P) : Prop where
  row : ∀ t, t ≠ Tbl.keys → o'.row t = o.row t
  keys : ∀ k v, o.row Tbl.keys k = some v → o'.row Tbl.keys k = some v
  com : ∀ t n, o.row t n ≠ none → σ'.com t n = σ.com t n
  newKey : ∀ e, NewKey o σ e → NewKey o' σ' e

theorem Keyed.of_later (hl : (discipline env calls).Later i o σ τ) (hr : ∀ t, t ≠ Tbl.keys → o'.row t = o.row t)
    (hk : ∀ k v, o.row Tbl.keys k = some v → o'.row Tbl.keys k = some v) (hkey : ∀ k, o.key k → o'.key k) :
    Keyed o σ o' τ where
  row := hr
  keys := hk
  com := hl.com
  newKey e h := by
    have h' := h.later hl
    obtain ⟨k, hrow⟩ := h'.row
    exact ⟨⟨k, hk k _ hrow⟩, hkey _ h'.key, h'.free⟩

theorem Keyed.later (hl : (discipline env calls).Later i o σ τ) : Keyed o σ o τ :=
  .of_later hl (fun _ _ => rfl) (fun _ _ h => h) fun _ h => h

theorem Keyed.refl (o : Held P) (σ : State P) : Keyed o σ o σ :=
  ⟨fun _ _ => rfl, fun _ _ h => h, fun _ _ _ => rfl, fun _ h => h⟩

theorem Keyed.trans {o₁ o₂ : Held P} {σ₁ σ₂ : State P} (h : Keyed o σ o₁ σ₁) (h' : Keyed o₁ σ₁ o₂ σ₂) :
    Keyed o σ o₂ σ₂ where
  row t ht := (h'.row t ht).trans (h.row t ht)
  keys k v hk := h'.keys k v (h.keys k v hk)
  com t n hn := by
    refine (h'.com t n ?_).trans (h.com t n hn)
    by_cases ht : t = Tbl.keys
    · subst ht
      obtain ⟨v, hv⟩ := Option.ne_none_iff_exists'.1 hn
      simp [h.keys n v hv]
    · rwa [h.row t ht]
  newKey e he := h'.newKey e (h.newKey e he)

/-- an event without a key has no row -/
theorem Inv.no_row (h : Inv calls σ) {e : String} (hk : ∀ k, σ.com keys k ≠ some e) {m : ℕ} {r : OutboxMessage P}
    (hr : σ.com outbox m = some r) : r.eventId ≠ e := by
  rintro rfl
  obtain ⟨c, cp, hc, hrow⟩ := h.copy hr
  subst hrow
  obtain ⟨k, hk'⟩ := h.events.key c cp hc
  exact hk k (hk'.trans (by rw [← event_id_of_copy (h.places.event_eq hc hr)]))

/-- a row of the key table stays in the session's view -/
theorem view_key_later {e : String} (hl : (discipline env calls).Later i o σ τ) {k : ℕ}
    (h : o.view σ keys k = some e) : o.view τ keys k = some e := by
  rcases hr : o.row keys k with _ | v
  · rw [Own.view_of_none hr] at h ⊢
    exact Rely.keys hl.rely k e h
  · rwa [Own.view_of_row hr] at h ⊢

/-- the key row of an event that has one is locked -/
theorem wp_lockEventKey {e : String} {Q : Except Exn Unit → Held P → State P → Prop} (hL : Lawful env calls i o σ)
    (hex : ∃ k, o.view σ keys k = some e)
    (hQ : ∀ o' υ, Lawful env calls i o' υ → Keyed o σ o' υ → (∃ k, o'.row keys k = some (some e)) → KeyHeld o' υ e →
      Q (.ok ()) o' υ) :
    (discipline env calls).wp i (lockEventKey e) Q o σ := by
  obtain ⟨k₀, hk₀⟩ := hex
  refine wp_bind (wp_select fun τ hl l hmem _ => ?_)
  rcases l with _ | ⟨⟨k, e'⟩, l⟩
  · have := (hmem k₀ e).2 ⟨view_key_later hl hk₀, by simp⟩
    simp at this
  · obtain ⟨hv, he⟩ := (hmem k e').1 List.mem_cons_self
    simp only [beq_iff_eq] at he
    subst he
    refine wp_bind (wp_lockRow (fun υ hl' hmiss => ?_) fun υ r hl' hv' hp => wp_pure ?_)
    · have := hmiss e' (view_key_later hl' hv)
      simp at this
    · simp only [beq_iff_eq] at hp
      subst hp
      have hall := hl.trans hl'
      have hL' := hL.later hall
      rcases hr : o.row keys k with _ | v
      · have hc : υ.com keys k = some r := by rwa [Own.view_of_none hr] at hv'
        exact hQ _ υ (hL'.put_key hc fun v hv => by simp [hr] at hv)
          (.of_later hall (fun t ht => Own.put_row_other _ _ _ ht) (fun k' w hw => Own.put_row_of_some _ hr hw)
            fun _ h => h) ⟨k, Own.put_row_self _ _ _⟩ (Or.inl ⟨k, Own.put_row_self _ _ _, hc⟩)
      · rw [Own.view_of_row hr] at hv'
        subst hv'
        rw [Own.put_self hr]
        refine hQ o υ hL' (.later hall) ⟨k, hr⟩ ?_
        obtain ⟨e, he, hc | ⟨-, hown, hn, -⟩⟩ := hL'.key_row k _ hr <;> simp only [Option.some.injEq] at he <;>
          subst he
        · exact Or.inl ⟨k, hr, hc⟩
        · exact Or.inr ⟨hown, hn⟩

/-! ## enqueue_outbox -/

theorem wp_legacyHit {e : String} {b : Bool} {Q : Except Exn Bool → Held P → State P → Prop} (h₀ : Q (.ok false) o σ)
    (hQ : ∀ υ c, (discipline env calls).Later i o σ υ → Q (.ok c) o υ) :
    (discipline env calls).wp i (legacyHit e b) Q o σ := by
  cases b with
  | false => exact wp_pure h₀
  | true =>
    exact wp_bind (wp_select fun τ hl _ _ _ => wp_bind (wp_select fun υ hl' _ _ _ => wp_bind (wp_select
      fun ω hl'' _ _ _ => wp_pure (hQ ω _ ((hl.trans hl').trans hl'')))))

theorem wp_legacyHit_skip {e : String} {b : Bool} {Q : Except Exn Bool → Held P → State P → Prop} (hb : b = false)
    (h : Q (.ok false) o σ) : (discipline env calls).wp i (legacyHit e b) Q o σ := by
  subst hb
  exact wp_pure h

/-- the key insert of `enqueue_outbox` -/
theorem wp_insertKey {e : String} {Q : Except Exn (Option ℕ) → Held P → State P → Prop}
    (hL : Lawful env calls i o σ)
    (hold : ∀ υ k, Lawful env calls i o υ → Keyed o σ o υ → o.view υ keys k = some e → Q (.ok none) o υ)
    (hnew : ∀ o' υ n, Lawful env calls i o' υ → Keyed o σ o' υ → NewKey o' υ e →
      (∀ k, o.row keys k ≠ some (some e)) → Q (.ok (some n)) o' υ) :
    (discipline env calls).wp i (insertUnique keys (.event e) (fun k => k == e) e) Q o σ := by
  refine wp_insertUnique (fun τ k r hl hv hc => ?_) fun τ hl hn => ?_
  · simp only [beq_iff_eq] at hc
    exact hold τ k (hL.later hl) (.later hl) (hc ▸ hv)
  · have hfresh := hl.fresh keys _ (Nat.le_refl _)
    have hlb := hl.bump keys (τ.next keys)
    have hb := hL.later hlb
    have hview : ∀ k e', o.view τ keys k = some e' → e' ≠ e := fun k e' hk => by simpa using hn k e' hk
    have hcom : ∀ k, τ.com keys k ≠ some e := by
      intro k hk
      rcases hr : o.row keys k with _ | v
      · exact hview k e (by rw [Own.view_of_none hr, hk]) rfl
      · obtain ⟨e', rfl, hx | ⟨hx, -⟩⟩ := hb.key_row k v hr
        · rw [Snap.bump_com, hk, Option.some.injEq] at hx
          exact hview k e' (Own.view_of_row hr) hx.symm
        · rw [Snap.bump_com, hk] at hx; simp at hx
    refine hnew _ _ _ (hb.new_key hfresh.1 hfresh.2 hview) (.of_later hlb (fun t ht => Own.put_row_other _ _ _ ht)
      (fun k v hv => Own.put_row_of_some _ hfresh.2 hv) fun _ h => Or.inr h)
      ⟨⟨_, by rw [Own.take_row, Own.put_row_self]⟩, Or.inl rfl, hcom⟩ fun k hk => hview k e (Own.view_of_row hk) rfl

/-- the id that an event goes out under is not empty -/
theorem Enqueue.eid_ne (q : Enqueue P) : q.eid ≠ "" := by
  unfold Enqueue.eid
  split
  · split_ifs with h
    · exact q.uuid.2
    · exact h
  · exact q.uuid.2

/-- the first enqueue of an event -/
theorem wp_enqueueNew {q : Enqueue P} {Q : Except Exn (Option (OutboxMessage P)) → Held P → State P → Prop}
    (hL : Lawful env calls i o σ)
    (hnone : ∀ o' υ, Lawful env calls i o' υ → Keyed o σ o' υ → Q (.ok none) o' υ)
    (hsome : ∀ o' υ r, Lawful env calls i o' υ → Keyed o σ o' υ → IsNew r → NewKey o' υ r.eventId →
      (∀ k, o.row keys k ≠ some (some r.eventId)) → Q (.ok (some r)) o' υ) :
    (discipline env calls).wp i (enqueueOutbox env q false) Q o σ := by
  unfold enqueueOutbox
  by_cases hbus : (!env.messageBusEnabled) = true
  · rw [if_pos hbus]
    exact wp_pure (hnone o σ hL (Keyed.refl o σ))
  · rw [if_neg hbus, if_neg (by simp)]
    refine wp_bind (wp_insertKey hL (fun υ k hL' hk _ => ?_) fun o' υ n hL' hk hnew hfirst => ?_)
    · exact wp_pure (hnone o υ hL' hk)
    · have hend : ∀ ω, Lawful env calls i o' ω → Keyed o σ o' ω → NewKey o' ω q.eid → ∀ b,
          (discipline env calls).wp i
          (if b = true then pure none else do
            let active ← activeHit q.eid false
            if active = true then pure none
            else pure (some
              { eventId := q.eid, routingKey := q.routingKey, payload := env.jsonable q.payload, createdAt := q.now,
                nextRetryAt := q.now })) Q o' ω := by
        intro ω hLω hkω hnω b
        cases b with
        | true => exact wp_pure (hnone o' ω hLω hkω)
        | false =>
          exact wp_bind (wp_pure (wp_pure (hsome o' ω _ hLω hkω ⟨q.eid_ne, rfl, rfl, rfl, rfl, rfl⟩ hnω hfirst)))
      exact wp_bind (wp_legacyHit (hend υ hL' hk hnew false) fun ω c hl =>
        hend ω (hL'.later hl) (hk.trans (.later hl)) (hnew.later hl) c)

/-- the enqueue of a replay: the event's key is held, and no row of the event is pending -/
theorem wp_enqueueReplay {q : Enqueue P} {Q : Except Exn (Option (OutboxMessage P)) → Held P → State P → Prop}
    (hL : Lawful env calls i o σ) (hout : ∀ n, o.row outbox n = none) (hq : q.eventId.isNone = false)
    (hnone : ∀ o' υ, Lawful env calls i o' υ → Keyed o σ o' υ → Q (.ok none) o' υ)
    (hsome : ∀ o' υ r, Lawful env calls i o' υ → Keyed o σ o' υ → IsNew r → r.eventId = q.eid →
      (∃ k, o'.row keys k = some (some q.eid)) → KeyHeld o' υ q.eid →
      (∀ m r', υ.com outbox m = some r' → r'.eventId = q.eid → r'.status ≠ .pending) → Q (.ok (some r)) o' υ) :
    (discipline env calls).wp i (enqueueOutbox env q true) Q o σ := by
  unfold enqueueOutbox
  by_cases hbus : (!env.messageBusEnabled) = true
  · rw [if_pos hbus]
    exact wp_pure (hnone o σ hL (Keyed.refl o σ))
  · rw [if_neg hbus, if_neg (by simp [hq])]
    -- with or without a new key row, the session goes on to lock the key
    have hend : ∀ o₁ υ, Lawful env calls i o₁ υ → Keyed o σ o₁ υ → (∃ k, o₁.view υ keys k = some q.eid) →
        (discipline env calls).wp i (do
          let active ← activeHit q.eid true
          if active = true then pure none
          else pure (some
            { eventId := q.eid, routingKey := q.routingKey, payload := env.jsonable q.payload, createdAt := q.now,
              nextRetryAt := q.now })) Q o₁ υ := by
      intro o₁ υ hL₁ hk₁ hex
      refine wp_bind (wp_bind (wp_lockEventKey hL₁ hex fun o₂ ω hL₂ hk₂ hrow hheld => ?_))
      refine wp_bind (wp_select fun χ hl l hmem _ => wp_pure ?_)
      have hk := (hk₁.trans hk₂).trans (.later hl)
      rcases l with _ | ⟨x, l⟩
      · refine wp_pure (hsome o₂ χ _ (hL₂.later hl) hk ⟨q.eid_ne, rfl, rfl, rfl, rfl, rfl⟩ rfl hrow
          (Rely.keyHeld hl.rely hheld) fun m r' hr' hid hs => ?_)
        have hown : o₂.row outbox m = none := by rw [hk.row outbox (by simp), hout]
        have := (hmem m r').2 ⟨by rw [Own.view_of_none hown, hr'], by simp [hid, hs]⟩
        simp at this
      · exact wp_pure (hnone o₂ χ (hL₂.later hl) hk)
    refine wp_bind (wp_insertKey hL (fun υ k hL' hk hv => ?_) fun o₁ υ n hL₁ hk₁ hnew _ => ?_)
    · exact wp_bind (wp_legacyHit_skip (by simp) (hend o υ hL' hk ⟨k, hv⟩))
    · obtain ⟨k, hk⟩ := hnew.row
      exact wp_bind (wp_legacyHit_skip (by simp) (hend o₁ υ hL₁ hk₁ ⟨k, Own.view_of_row hk⟩))

/-! ## The flush of new rows -/

/-- the numbers of a new outbox row and its copy are new -/
structure Slots (σ : State P) (n c : ℕ) : Prop where
  outbox : σ.com Tbl.outbox n = none
  copies : σ.com Tbl.copies c = none
  fresh : ∀ c' cp', σ.com Tbl.copies c' = some cp' → cp'.row ≠ n
  lt : n < σ.next Tbl.outbox

theorem Slots.later {n c : ℕ} (h : Slots σ n c) (hn : o.row Tbl.outbox n ≠ none) (hc : o.row Tbl.copies c ≠ none)
    (hl : (discipline env calls).Later i o σ τ) : Slots τ n c where
  outbox := (hl.com _ _ hn).trans h.outbox
  copies := (hl.com _ _ hc).trans h.copies
  fresh c' cp' hc' hr := h.fresh c' cp' (Rely.copies_held hl.rely n hn c' cp' hc' hr) hr
  lt := Nat.lt_of_lt_of_le h.lt (Rely.next hl.rely)

theorem wp_flush {source : Source} {r : OutboxMessage P} {Q : Except Exn Unit → Held P → State P → Prop}
    (hQ : ∀ υ n c, (discipline env calls).Later i o σ υ → Slots υ n c → o.row outbox n = none →
      o.row copies c = none → Q (.ok ()) ((o.put outbox n (some r)).put copies c
        (some { row := n, event := r.event, source := source, session := i })) υ) :
    (discipline env calls).wp i (flush i source r) Q o σ := by
  refine wp_bind (wp_insert fun τ hl => wp_bind (wp_insert fun υ hl' => wp_pure ?_))
  obtain ⟨hcn, hon⟩ := hl.fresh outbox _ (Nat.le_refl _)
  obtain ⟨hcc, hoc⟩ := hl'.fresh copies _ (Nat.le_refl _)
  rw [Own.put_row_other _ _ _ (by simp)] at hoc
  have hall := (hl.bump outbox (τ.next outbox)).trans (later_of_put hon hl')
  refine hQ _ _ _ (hall.bump copies _) ⟨?_, hcc, fun c' cp' hc' hr => ?_, ?_⟩ hon hoc
  · exact (hl'.com_eq (Own.put_row_self _ _ _)).trans hcn
  · have := Rely.copies_held hl'.rely _ (by simp) c' cp' hc' hr
    have hlt := hl.inv.places.copy_lt c' cp' this
    omega
  · exact Nat.lt_of_lt_of_le (τ.lt_bump outbox _) (Nat.le_trans (Rely.next hl'.rely) (υ.le_bump copies _ outbox))

theorem wp_flushAll_any {rs : List (OutboxMessage P)} {Q : Except Exn Unit → Held P → State P → Prop}
    (hQ : ∀ o' υ, Q (.ok ()) o' υ) : (discipline env calls).wp i (flushAll i rs) Q o σ := by
  induction rs generalizing o σ with
  | nil => exact wp_pure (hQ o σ)
  | cons r rs ih => exact wp_bind (wp_flush fun υ n c _ _ _ _ => ih)

/-- the rows that a business transaction is about to insert -/
structure Prepared (o : Held P) (σ : State P) (rs : List (OutboxMessage P)) : Prop where
  new : ∀ r ∈ rs, IsNew r ∧ NewKey o σ r.eventId
  first : ∀ r ∈ rs, ∀ m r', o.row outbox m = some (some r') → σ.com outbox m = none → r'.eventId ≠ r.eventId
  distinct : rs.Pairwise fun a b => a.eventId ≠ b.eventId

theorem wp_flushAll {rs : List (OutboxMessage P)} {Q : Except Exn Unit → Held P → State P → Prop}
    (hs : (calls i).commits = true) (hL : Lawful env calls i o σ) (hrs : Prepared o σ rs)
    (hQ : ∀ o' υ, Lawful env calls i o' υ → Q (.ok ()) o' υ) :
    (discipline env calls).wp i (flushAll i rs) Q o σ := by
  induction rs generalizing o σ with
  | nil => exact wp_pure (hQ o σ hL)
  | cons r rs ih =>
    refine wp_bind (wp_flush fun υ n c hl hslot hon hoc => ?_)
    obtain ⟨hnew, hkey⟩ := hrs.new r List.mem_cons_self
    obtain ⟨hne, hdis⟩ := List.pairwise_cons.1 hrs.distinct
    have hkey' := hkey.later hl
    have hfirst : ∀ x ∈ r :: rs, ∀ m r', o.row outbox m = some (some r') → υ.com outbox m = none →
        r'.eventId ≠ x.eventId :=
      fun x hx m r' hm hcm => hrs.first x hx m r' hm ((hl.com_eq hm).symm.trans hcm)
    have hready : Ready calls o υ .enqueue r.eventId :=
      ⟨hkey'.row, Or.inr ⟨hkey'.key, hkey'.free⟩, fun m x hx hid => absurd hid (hl.inv.no_row hkey'.free hx),
        hfirst r List.mem_cons_self, fun _ => Or.inl ⟨rfl, hkey'.free⟩⟩
    refine ih ((hL.later hl).enter (.enqueue rfl) hnew hready hslot.outbox hon hslot.copies hoc hslot.fresh hslot.lt
      rfl rfl hs) ⟨fun x hx => ?_, fun x hx m r' hm hcm => ?_, hdis⟩
    · obtain ⟨hxn, hxk⟩ := hrs.new x (List.mem_cons_of_mem _ hx)
      obtain ⟨⟨k, hk⟩, hown, hfree⟩ := hxk.later hl
      exact ⟨hxn, ⟨k, by simpa [Own.put_row_other] using hk⟩, hown, hfree⟩
    · rw [Own.put_row_other _ _ _ (by simp), Own.put_row_same] at hm
      split_ifs at hm with hmn
      · simp only [Option.some.injEq] at hm
        exact hm ▸ hne x hx
      · exact hfirst x (List.mem_cons_of_mem _ hx) m r' hm hcm

theorem wp_enqueueAll {qs : List (Enqueue P)} {Q : Except Exn (List (OutboxMessage P)) → Held P → State P → Prop}
    (hL : Lawful env calls i o σ)
    (hQ : ∀ o' υ rs, Lawful env calls i o' υ → Keyed o σ o' υ → (∀ r ∈ rs, IsNew r ∧ NewKey o' υ r.eventId) →
      (∀ r ∈ rs, ∀ k, o.row keys k ≠ some (some r.eventId)) → rs.Pairwise (fun a b => a.eventId ≠ b.eventId) →
      Q (.ok rs) o' υ) :
    (discipline env calls).wp i (enqueueAll env qs) Q o σ := by
  induction qs generalizing o σ Q with
  | nil => exact wp_pure (hQ o σ [] hL (Keyed.refl o σ) (by simp) (by simp) .nil)
  | cons q qs ih =>
    refine wp_bind (wp_enqueueNew hL (fun o₁ υ hL₁ hk₁ => ?_) fun o₁ υ r hL₁ hk₁ hnew hkey hfree => ?_)
    · refine wp_bind (ih hL₁ fun o₂ ω rs hL₂ hk₂ hrs hf hd => wp_pure ?_)
      exact hQ o₂ ω rs hL₂ (hk₁.trans hk₂) hrs (fun r hr k hk => hf r hr k (hk₁.keys k _ hk)) hd
    · refine wp_bind (ih hL₁ fun o₂ ω rs hL₂ hk₂ hrs hf hd => wp_pure ?_)
      refine hQ o₂ ω (r :: rs) hL₂ (hk₁.trans hk₂) (fun x hx => ?_) (fun x hx k hk => ?_)
        (List.pairwise_cons.2 ⟨fun x hx he => ?_, hd⟩)
      · rcases List.mem_cons.1 hx with rfl | hx
        · exact ⟨hnew, hk₂.newKey _ hkey⟩
        · exact hrs x hx
      · rcases List.mem_cons.1 hx with rfl | hx
        · exact hfree k hk
        · exact hf x hx k (hk₁.keys k _ hk)
      · obtain ⟨k, hk⟩ := hkey.row
        exact hf x hx k (he ▸ hk)

theorem wp_enqueueTransaction {qs : List (Enqueue P)} {b : Bool} {Q : Except Exn Unit → Held P → State P → Prop}
    (hs : b = true → (calls i).commits = true) (hQ : ∀ o' υ, Q (.ok ()) o' υ) :
    (discipline env calls).wp i (enqueueTransaction env i qs b) Q {} σ := by
  refine wp_bind (wp_enqueueAll Lawful.empty fun o' υ rs hL hk hrs _ hd => ?_)
  cases b with
  | false => exact wp_bind (wp_flushAll_any fun o₁ ω => wp_rollback fun χ _ => hQ _ χ)
  | true =>
    have hfirst : ∀ r ∈ rs, ∀ m r', o'.row outbox m = some (some r') → υ.com outbox m = none →
        r'.eventId ≠ r.eventId := by
      intro r _ m r' hm
      rw [hk.row outbox (by simp)] at hm
      simp at hm
    refine wp_bind (wp_flushAll (hs rfl) hL ⟨hrs, hfirst, hd⟩ fun o₁ ω hL' => ?_)
    exact wp_commit fun χ hl => ⟨(hL'.later hl).good hl.inv, hQ _ _⟩

end LkmService.Outbox
