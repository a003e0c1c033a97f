/-
The invariants of the committed outbox tables, what a session may rely on, and what one commit may change.

- `Places`: every enqueued copy of an event is recorded, and in one place only (`RecordedAt`).
- `Fences`: attempts, locks, claim tokens and publish calls of the outbox rows.
- `Events`: one key per event id, one pending row per event id, and the marks of replayed records.
- `Strict`: without requeued dead letters, an event id has a pending row or an unreplayed failure, never both.
- `RowStep`: the ways in which one commit can change one outbox row, each with the claim token that it needs.
- `Rely`: what session `i` may rely on while it owns `o`.
-/
import LkmService.Lib.Discipline
import LkmService.Outbox.Model

namespace LkmService.Outbox

open Session Sql Tbl

variable {P : Type}

abbrev State (P : Type) := Snap (Row P) Ext

abbrev Held (P : Type) := Own (Row P) Index

/-! ## Where a copy is recorded -/

inductive Place where
  | pending
  | published
  | archived (a : ℕ)
  | failed (f : ℕ)
deriving DecidableEq, Repr

/-- the event of outbox row `n` is recorded at the place, as `ev` -/
def RecordedAt (σ : State P) (n : ℕ) (ev : Event P) : Place → Prop
  | .pending => ∃ r, σ.com outbox n = some r ∧ r.status = .pending ∧ r.event = ev
  | .published => ∃ r, σ.com outbox n = some r ∧ r.status = .published ∧ r.event = ev
  | .archived a => ∃ r, σ.com archived a = some r ∧ r.origin = n ∧ r.event = ev
  | .failed f => ∃ r, σ.com failures f = some r ∧ r.origin = n ∧ r.event = ev

/-- copies and places correspond one to one -/
structure Places (σ : State P) : Prop where
  placed : ∀ c cp, σ.com copies c = some cp → ∃ p, RecordedAt σ cp.row cp.event p
  copied : ∀ n ev p, RecordedAt σ n ev p → ∃ c cp, σ.com copies c = some cp ∧ cp.row = n ∧ cp.event = ev
  once : ∀ n ev ev' p p', RecordedAt σ n ev p → RecordedAt σ n ev' p' → p = p'
  copy_inj : ∀ c c' cp cp', σ.com copies c = some cp → σ.com copies c' = some cp' → cp.row = cp'.row → c = c'
  copy_lt : ∀ c cp, σ.com copies c = some cp → cp.row < σ.next outbox
  live : ∀ n r, σ.com outbox n = some r → r.status ≠ .failed

/-! ## Attempts, locks and publish calls -/

structure Fences (σ : State P) : Prop where
  attempts : ∀ n r, σ.com outbox n = some r → r.status = .pending → r.attemptCount < maxTries
  counted : ∀ n r, σ.com outbox n = some r → r.attemptCount + (if r.lockedBy.isSome then 1 else 0) ≤ r.claims
  unlocked : ∀ n r, σ.com outbox n = some r → r.status = .published → r.lockedBy = none
  token_lt : ∀ n r t, σ.com outbox n = some r → r.lockedBy = some t → t < σ.ext.token
  claim_lt : ∀ i t, σ.ext.claim i = some t → t < σ.ext.token
  claim_inj : ∀ i j t, σ.ext.claim i = some t → σ.ext.claim j = some t → i = j
  published : ∀ n r, σ.com outbox n = some r → r.status = .published → (n, true) ∈ σ.ext.publishes
  archived : ∀ a r, σ.com archived a = some r → (r.origin, true) ∈ σ.ext.publishes
  sent : ∀ n b, (n, b) ∈ σ.ext.publishes → ∃ c cp, σ.com copies c = some cp ∧ cp.row = n

/-- the ways in which a commit of session `i` changes outbox row `n`: the relay's own claim token stands in the row
whenever the result of a claim is written -/
inductive RowStep (env : Env P) (i : ℕ) (e : Ext) (n : ℕ) : Option (OutboxMessage P) → Option (OutboxMessage P) → Prop
  | keep (v : Option (OutboxMessage P)) : RowStep env i e n v v
  | enqueue (r : OutboxMessage P) (hs : r.status = .pending) (ha : r.attemptCount = 0) (hc : r.claims = 0)
      (hl : r.lockedAt = none) (hb : r.lockedBy = none) : RowStep env i e n none (some r)
  | claim (r : OutboxMessage P) (tok : ℕ) (t : ℤ) (hc : e.claim i = some tok)
      (h : claimable env (e.reading i) r = true) :
      RowStep env i e n (some r) (some { r with lockedAt := some t, lockedBy := some tok, claims := r.claims + 1 })
  | giveBack (r : OutboxMessage P) (tok : ℕ) (hc : e.claim i = some tok) (hb : r.lockedBy = some tok) :
      RowStep env i e n (some r) (some (clearLock r))
  | publish (r : OutboxMessage P) (tok : ℕ) (t : ℤ) (hc : e.claim i = some tok) (hb : r.lockedBy = some tok)
      (hp : (n, true) ∈ e.publishes) :
      RowStep env i e n (some r) (some { clearLock r with status := .published, publishedAt := some t })
  | retry (r : OutboxMessage P) (tok : ℕ) (t : ℤ) (hc : e.claim i = some tok) (hb : r.lockedBy = some tok)
      (ha : r.attemptCount + 1 < maxTries) :
      RowStep env i e n (some r) (some { clearLock r with attemptCount := r.attemptCount + 1, nextRetryAt := t })
  | fold (r : OutboxMessage P) (tok : ℕ) (hc : e.claim i = some tok) (hb : r.lockedBy = some tok) :
      RowStep env i e n (some r) none
  | archive (r : OutboxMessage P) (h : r.status = .published) : RowStep env i e n (some r) none

/-! ## Event ids, replays and requeues -/

/-- the session holds the key row of `e`, or the index entry of a key row it has just inserted -/
def KeyHeld (o : Held P) (σ : State P) (e : String) : Prop :=
  (∃ k, o.row keys k = some (some e) ∧ σ.com keys k = some e) ∨ o.key (.event e) ∧ ∀ k, σ.com keys k ≠ some e

/-- the row `m` of the event id `e` was pending when a replay of the same event looked -/
def WasActive (σ : State P) (m : OutboxMessage P) (e : String) : Prop :=
  m.status = .pending ∧ m.eventId = e ∧ ∃ c cp, σ.com copies c = some cp ∧ cp.event = m.event

theorem WasActive.mono {σ τ : State P} {m : OutboxMessage P} {e : String} (h : WasActive σ m e)
    (hc : ∀ c cp, σ.com copies c = some cp → τ.com copies c = some cp) : WasActive τ m e :=
  ⟨h.1, h.2.1, h.2.2.imp fun c => Exists.imp fun cp hcp => ⟨hc c cp hcp.1, hcp.2⟩⟩

structure Events (calls : ℕ → Call P) (σ : State P) : Prop where
  named : ∀ c cp, σ.com copies c = some cp → cp.event.eventId ≠ ""
  key : ∀ c cp, σ.com copies c = some cp → ∃ k, σ.com keys k = some cp.event.eventId
  key_inj : ∀ k k' e, σ.com keys k = some e → σ.com keys k' = some e → k = k'
  pending_inj : ∀ n n' r r', σ.com outbox n = some r → σ.com outbox n' = some r' → r.status = .pending →
    r'.status = .pending → r.eventId = r'.eventId → n = n'
  source_inj : ∀ c c' cp cp', σ.com copies c = some cp → σ.com copies c' = some cp' → cp.source ≠ .enqueue →
    cp.source = cp'.source → c = c'
  replays : ∀ c cp f, σ.com copies c = some cp → cp.source = .failure f →
    ∃ r, σ.com failures f = some r ∧ r.replayedAt ≠ none ∧ r.retiredFor = none ∧ r.eventId = cp.event.eventId
  replayed : ∀ f r, σ.com failures f = some r → r.replayedAt ≠ none → r.retiredFor = none →
    ∃ c cp, σ.com copies c = some cp ∧ cp.source = .failure f
  retired : ∀ f r m, σ.com failures f = some r → r.retiredFor = some m →
    r.replayedAt ≠ none ∧ WasActive σ m r.eventId
  requeues : ∀ c cp d, σ.com copies c = some cp → cp.source = .dlq d →
    ∃ r, σ.com dlq d = some r ∧ r.status = .requeued ∧ r.retiredFor = none ∧ r.requeuedAs = some cp.event.eventId
  requeued : ∀ d r, σ.com dlq d = some r → r.status = .requeued → r.retiredFor = none →
    ∃ c cp, σ.com copies c = some cp ∧ cp.source = .dlq d
  dropped : ∀ d r m, σ.com dlq d = some r → r.retiredFor = some m →
    r.status = .requeued ∧ ∃ e, r.requeuedAs = some e ∧ WasActive σ m e
  session : ∀ c cp, σ.com copies c = some cp → (calls cp.session).commits = true

/-- an event id has at most one record that can still be sent -/
structure Strict (σ : State P) : Prop where
  pending_failed : ∀ n r f r', σ.com outbox n = some r → r.status = .pending → σ.com failures f = some r' →
    r'.eventId = r.eventId → r'.replayedAt ≠ none
  failed_inj : ∀ f f' r r', σ.com failures f = some r → σ.com failures f' = some r' → r.replayedAt = none →
    r'.replayedAt = none → r.eventId = r'.eventId → f = f'
  replaced : ∀ f r, σ.com failures f = some r → r.retiredFor = none

/-- no session sends a dead letter back -/
def NoRequeue (calls : ℕ → Call P) : Prop := ∀ i, (calls i).requeues = false

structure Inv (calls : ℕ → Call P) (σ : State P) : Prop where
  places : Places σ
  fences : Fences σ
  events : Events calls σ
  strict : NoRequeue calls → Strict σ

/-- a new row number changes nothing that the invariant speaks of -/
theorem Inv.bump {calls : ℕ → Call P} {σ : State P} (h : Inv calls σ) (t : Tbl) (n : ℕ) : Inv calls (σ.bump t n) where
  places :=
    { h.places with
      copy_lt := fun c cp hc => Nat.lt_of_lt_of_le (h.places.copy_lt c cp hc) (σ.le_bump t n outbox) }
  fences := { h.fences with }
  events := { h.events with }
  strict hn := { h.strict hn with }

/-! ## What a session may rely on, and what a commit does -/

structure Rely (i : ℕ) (o : Held P) (σ τ : State P) : Prop where
  copies : ∀ c cp, σ.com copies c = some cp → τ.com copies c = some cp
  keys : ∀ k e, σ.com keys k = some e → τ.com keys k = some e
  copies_held : ∀ n, o.row outbox n ≠ none → ∀ c cp, τ.com Tbl.copies c = some cp → cp.row = n →
    σ.com Tbl.copies c = some cp
  key_free : ∀ e, o.key (.event e) → (∀ k, σ.com Tbl.keys k ≠ some e) → ∀ k, τ.com Tbl.keys k ≠ some e
  pending_held : ∀ e, KeyHeld o σ e → ∀ n r, τ.com outbox n = some r → r.eventId = e → r.status = .pending →
    ∃ r₀, σ.com outbox n = some r₀ ∧ r₀.eventId = e ∧ r₀.status = .pending
  claim : τ.ext.claim i = σ.ext.claim i
  reading : τ.ext.reading i = σ.ext.reading i
  publishes : ∀ q, q ∈ σ.ext.publishes → q ∈ τ.ext.publishes
  next : σ.next outbox ≤ τ.next outbox

theorem Rely.refl (i : ℕ) (o : Held P) (σ : State P) : Rely i o σ σ :=
  ⟨fun _ _ h => h, fun _ _ h => h, fun _ _ _ _ h _ => h, fun _ _ h => h, fun _ _ _ r h he hs => ⟨r, h, he, hs⟩, rfl,
    rfl, fun _ h => h, Nat.le_refl _⟩

/-- holding the key of an event id is kept while the others move -/
theorem Rely.keyHeld {i : ℕ} {o : Held P} {σ τ : State P} {e : String} (h : Rely i o σ τ) (hk : KeyHeld o σ e) :
    KeyHeld o τ e := by
  rcases hk with ⟨k, ho, hc⟩ | ⟨ho, hc⟩
  · exact Or.inl ⟨k, ho, h.keys k e hc⟩
  · exact Or.inr ⟨ho, h.key_free e ho hc⟩

theorem Rely.trans {i : ℕ} {o : Held P} {σ τ υ : State P} (h : Rely i o σ τ) (h' : Rely i o τ υ) : Rely i o σ υ where
  copies c cp hc := h'.copies c cp (h.copies c cp hc)
  keys k e hk := h'.keys k e (h.keys k e hk)
  copies_held n hn c cp hc hr := h.copies_held n hn c cp (h'.copies_held n hn c cp hc hr) hr
  key_free e he hk := h'.key_free e he (h.key_free e he hk)
  pending_held e he n r hr hre hrs := by
    obtain ⟨r', hr', he', hs'⟩ := h'.pending_held e (h.keyHeld he) n r hr hre hrs
    exact h.pending_held e he n r' hr' he' hs'
  claim := h'.claim.trans h.claim
  reading := h'.reading.trans h.reading
  publishes q hq := h'.publishes q (h.publishes q hq)
  next := h.next.trans h'.next

/-- what a commit of session `i` does to the committed tables -/
structure Act (env : Env P) (i : ℕ) (σ τ : State P) : Prop where
  row : ∀ n, RowStep env i σ.ext n (σ.com outbox n) (τ.com outbox n)
  /-- a failure record is written only under the row's current claim -/
  failure : ∀ f r, σ.com failures f = none → τ.com failures f = some r →
    ∃ r₀ tok, σ.com outbox r.origin = some r₀ ∧ σ.ext.claim i = some tok ∧ r₀.lockedBy = some tok
  /-- and is not marked when it is written -/
  unmarked : ∀ f r, σ.com failures f = none → τ.com failures f = some r → r.replayedAt = none
  copies : ∀ c cp, σ.com copies c = some cp → τ.com copies c = some cp
  /-- a new copy is a new pending row -/
  added : ∀ c cp, σ.com Tbl.copies c = none → τ.com Tbl.copies c = some cp → σ.com outbox cp.row = none ∧
    ∃ r, τ.com outbox cp.row = some r ∧ r.status = .pending ∧ r.event = cp.event
  /-- a row that has left does not come back -/
  fresh : ∀ n r, σ.com outbox n = none → τ.com outbox n = some r → ∀ c cp, σ.com Tbl.copies c = some cp →
    cp.row ≠ n
  /-- failure records stay, whatever is marked on them -/
  audit : ∀ f r, σ.com failures f = some r → ∃ r', τ.com failures f = some r' ∧ r'.event = r.event ∧
    r'.origin = r.origin ∧ (r.replayedAt ≠ none → r' = r)
  /-- a dead letter is stored unsent, and is sent back once -/
  unsent : ∀ d r, σ.com dlq d = none → τ.com dlq d = some r → r.status = .pending
  letters : ∀ d r, σ.com dlq d = some r → r.status = .requeued → τ.com dlq d = some r

theorem Act.refl (env : Env P) (i : ℕ) (σ : State P) : Act env i σ σ :=
  ⟨fun _ => .keep _, fun f r h h' => by simp [h] at h', fun f r h h' => by simp [h] at h', fun _ _ h => h, fun _ _ h h' => by simp [h] at h',
    fun _ _ h h' => by simp [h] at h', fun _ r h => ⟨r, h, rfl, rfl, fun _ => rfl⟩,
    fun _ _ h h' => by simp [h] at h', fun _ _ h _ => h⟩

/-- the discipline of the outbox -/
def discipline (env : Env P) (calls : ℕ → Call P) : Discipline (Row P) Index Fx Ext where
  inv := Inv calls
  rely := Rely
  act := Act env
  ok _ _ _ _ := True
  rely_refl := Rely.refl
  rely_trans _ _ _ _ _ := Rely.trans
  act_refl i σ _ := Act.refl env i σ
  grow_inv _ t n h := h.bump t n
  grow_act i σ _ _ _ := { Act.refl env i σ with }
  grow_rely i o σ t n _ := { Rely.refl i o σ with next := σ.le_bump t n outbox }

instance (env : Env P) (calls : ℕ → Call P) : Discipline.Lockless (discipline env calls) := ⟨fun _ _ _ => trivial⟩

end LkmService.Outbox
