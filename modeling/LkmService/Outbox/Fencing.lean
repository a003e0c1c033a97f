/-
The claim token fences the outbox rows.

Between the claim of a row and the result of its publish call any time may pass, and another relay may have taken the
row over. `Fenced` lists what one move of a session may then do to a row: what is written without a new claim is written
under the row's current token, and a new claim needs a free or stale row. `rows_age` says what a row may become over a
whole run.
-/
import LkmService.Outbox.Conservation

namespace LkmService.Outbox

open Session Sql Tbl

variable {P : Type} {env : Env P} {calls : ℕ → Call P} {i : ℕ} {σ τ : State P}

/-! ## One move -/

/-- session `i` has drawn the claim token that stands in the row -/
def Owns (i : ℕ) (e : Ext) (r : OutboxMessage P) : Prop := ∃ tok, e.claim i = some tok ∧ r.lockedBy = some tok

/-- the row is claimed by session `i`: only its lock is written, and no other lock younger than the threshold is lost -/
structure ClaimedBy (env : Env P) (i : ℕ) (e : Ext) (r r' : OutboxMessage P) : Prop where
  owner : Owns i e r'
  claims : r'.claims = r.claims + 1
  same : r'.status = r.status ∧ r'.attemptCount = r.attemptCount ∧ r'.nextRetryAt = r.nextRetryAt ∧
    r'.publishedAt = r.publishedAt ∧ r'.event = r.event
  pending : r.status = .pending
  stale : ∀ t, r.lockedAt = some t → t < e.reading i - staleAfter env

/-- what a move of session `i` may do to the rows of the outbox -/
structure Fenced (env : Env P) (i : ℕ) (σ τ : State P) : Prop where
  /-- a row changes under its current token, or is claimed -/
  result : ∀ n r r', σ.com outbox n = some r → τ.com outbox n = some r' → r' = r ∨ ClaimedBy env i σ.ext r r' ∨
    Owns i σ.ext r ∧ r'.claims = r.claims ∧ r'.attemptCount ≤ r.attemptCount + 1 ∧ r'.event = r.event
  /-- a row leaves under its current token, or for the archive -/
  leave : ∀ n r, σ.com outbox n = some r → τ.com outbox n = none → Owns i σ.ext r ∨ r.status = .published
  /-- a failure record is written under the current token of its row -/
  failure : ∀ f r, σ.com failures f = none → τ.com failures f = some r →
    ∃ r₀, σ.com outbox r.origin = some r₀ ∧ Owns i σ.ext r₀
  /-- a relay whose claim was taken over leaves the row as the new owner has set it -/
  taken : ∀ n r tok, σ.com outbox n = some r → r.lockedBy = some tok → σ.ext.claim i ≠ some tok →
    τ.com outbox n = some r ∨ ∃ r', τ.com outbox n = some r' ∧ ClaimedBy env i σ.ext r r'

theorem RowStep.fenced {e : Ext} {n : ℕ} {r r' : OutboxMessage P} (h : RowStep env i e n (some r) (some r')) :
    r' = r ∨ ClaimedBy env i e r r' ∨
      Owns i e r ∧ r'.claims = r.claims ∧ r'.attemptCount ≤ r.attemptCount + 1 ∧ r'.event = r.event := by
  cases h with
  | keep => exact Or.inl rfl
  | claim _ tok t hc h =>
    refine Or.inr (Or.inl ⟨⟨tok, hc, rfl⟩, rfl, ⟨rfl, rfl, rfl, rfl, rfl⟩, ?_, fun t' ht => ?_⟩)
    · simp only [claimable, Bool.and_eq_true, beq_iff_eq] at h
      exact h.1.1
    · simp only [claimable, ht, Bool.and_eq_true, decide_eq_true_eq] at h
      exact h.2
  | giveBack _ tok hc hb => exact Or.inr (Or.inr ⟨⟨tok, hc, hb⟩, rfl, Nat.le_succ _, rfl⟩)
  | publish _ tok t hc hb => exact Or.inr (Or.inr ⟨⟨tok, hc, hb⟩, rfl, Nat.le_succ _, rfl⟩)
  | retry _ tok t hc hb => exact Or.inr (Or.inr ⟨⟨tok, hc, hb⟩, rfl, Nat.le_refl _, rfl⟩)

theorem RowStep.leaves {e : Ext} {n : ℕ} {r : OutboxMessage P} (h : RowStep env i e n (some r) none) :
    Owns i e r ∨ r.status = .published := by
  cases h with
  | fold _ tok hc hb => exact Or.inl ⟨tok, hc, hb⟩
  | archive _ hp => exact Or.inr hp

theorem Act.fenced (h : Act env i σ τ) (hi : Inv calls σ) : Fenced env i σ τ where
  result n r r' hr hr' := by
    have hs := h.row n
    rw [hr, hr'] at hs
    exact hs.fenced
  leave n r hr hr' := by
    have hs := h.row n
    rw [hr, hr'] at hs
    exact hs.leaves
  failure f r hc hr := by
    obtain ⟨r₀, tok, hr₀, hclaim, hb⟩ := h.failure f r hc hr
    exact ⟨r₀, hr₀, tok, hclaim, hb⟩
  taken n r tok hr hb hne := by
    have hnot : ¬ Owns i σ.ext r := by
      rintro ⟨tok', hc, hb'⟩
      rw [hb, Option.some.injEq] at hb'
      exact hne (hb' ▸ hc)
    have hs := h.row n
    rw [hr] at hs
    rcases hτ : τ.com outbox n with _ | r'
    · rw [hτ] at hs
      rcases hs.leaves with ho | hp
      · exact absurd ho hnot
      · rw [hi.pending_of_locked hr hb] at hp
        simp at hp
    · rw [hτ] at hs
      rcases hs.fenced with rfl | hc | ⟨ho, -⟩
      · exact Or.inl rfl
      · exact Or.inr ⟨r', rfl, hc⟩
      · exact absurd ho hnot

/-! ## Attempts and claims -/

/-- the attempts of a row, counting the one that its lock stands for -/
def OutboxMessage.begun (r : OutboxMessage P) : ℕ := r.attemptCount + if r.lockedBy.isSome then 1 else 0

/-- a commit begins at most one attempt for each claim -/
theorem RowStep.begun_le {e : Ext} {n : ℕ} {r r' : OutboxMessage P} (h : RowStep env i e n (some r) (some r')) :
    r'.begun + r.claims ≤ r.begun + r'.claims := by
  cases h with
  | keep => exact Nat.le_refl _
  | claim _ tok t hc h =>
    have : r.attemptCount ≤ r.begun := Nat.le_add_right _ _
    simp only [OutboxMessage.begun, Option.isSome_some, if_true] at this ⊢
    omega
  | giveBack _ tok hc hb => simp [OutboxMessage.begun, clearLock]
  | publish _ tok t hc hb => simp [OutboxMessage.begun, clearLock]
  | retry _ tok t hc hb => simp [OutboxMessage.begun, clearLock, hb]

/-- what no commit undoes of a row holds of it as long as it is there: a row that has left does not come back -/
theorem row_induct {Φ : OutboxMessage P → Prop} (ms ms' : List Move) {n : ℕ} {r : OutboxMessage P}
    (hr : (after env calls ms).com outbox n = some r)
    (hstep : ∀ i σ r₁ r₂, Inv calls σ → σ.com outbox n = some r₁ → RowStep env i σ.ext n (some r₁) (some r₂) →
      Φ r₁ → Φ r₂) (h0 : Φ r) : ∀ r', (after env calls (ms ++ ms')).com outbox n = some r' → Φ r' := by
  -- the row's copy is carried along
  let Ψ (υ : State P) : Prop := (∃ c cp, υ.com copies c = some cp ∧ cp.row = n) ∧ ∀ r', υ.com outbox n = some r' → Φ r'
  have hΨ : Ψ (after env calls (ms ++ ms')) := by
    refine after_induct ms ms' (fun i σ τ hi _ ha hΨ => ?_) ⟨(inv_after env calls ms).copy hr, fun r' hr' => ?_⟩
    · obtain ⟨⟨c, cp, hc, hrow⟩, hle⟩ := hΨ
      refine ⟨⟨c, cp, ha.copies c cp hc, hrow⟩, fun r' hr' => ?_⟩
      rcases hσ : σ.com outbox n with _ | r₁
      · exact absurd hrow (ha.fresh n r' hσ hr' c cp hc)
      · have hs := ha.row n
        rw [hσ, hr'] at hs
        exact hstep i σ r₁ r' hi hσ hs (hle r₁ hσ)
    · rw [hr, Option.some.injEq] at hr'
      exact hr' ▸ h0
  exact hΨ.2

/-- over any part of a run, a row's attempts grow by at most one for each claim -/
theorem begun_after (ms ms' : List Move) {n : ℕ} {r : OutboxMessage P} (hr : (after env calls ms).com outbox n = some r) :
    ∀ r', (after env calls (ms ++ ms')).com outbox n = some r' → r'.begun + r.claims ≤ r.begun + r'.claims := by
  refine row_induct ms ms' hr (fun i σ r₁ r₂ _ _ hs hle => ?_) (Nat.le_refl _)
  have := hs.begun_le
  omega

/-! ## The life of a row -/

/-- what a row may become while it is in the outbox: published, it is not touched until it leaves -/
structure Ages (r r' : OutboxMessage P) : Prop where
  event : r'.event = r.event
  attempts : r.attemptCount ≤ r'.attemptCount
  claims : r.claims ≤ r'.claims
  published : r.status = .published → r' = r

theorem Ages.trans {r r₁ r₂ : OutboxMessage P} (h : Ages r r₁) (h' : Ages r₁ r₂) : Ages r r₂ where
  event := h'.event.trans h.event
  attempts := h.attempts.trans h'.attempts
  claims := h.claims.trans h'.claims
  published hp := by
    obtain rfl := h.published hp
    exact h'.published hp

theorem RowStep.ages {n : ℕ} {r r' : OutboxMessage P} (hf : Fences σ) (hr : σ.com outbox n = some r)
    (h : RowStep env i σ.ext n (some r) (some r')) : Ages r r' := by
  -- a published row is not claimable and has no lock
  have hlocked : ∀ {t : ℕ}, r.lockedBy = some t → r.status ≠ .published := fun hb hp => by
    simp [hf.unlocked n r hr hp] at hb
  cases h with
  | keep => exact ⟨rfl, Nat.le_refl _, Nat.le_refl _, fun _ => rfl⟩
  | claim _ tok t hc h => exact ⟨rfl, Nat.le_refl _, Nat.le_succ _, fun hp => by simp [claimable, hp] at h⟩
  | giveBack _ tok hc hb => exact ⟨rfl, Nat.le_refl _, Nat.le_refl _, fun hp => absurd hp (hlocked hb)⟩
  | publish _ tok t hc hb => exact ⟨rfl, Nat.le_refl _, Nat.le_refl _, fun hp => absurd hp (hlocked hb)⟩
  | retry _ tok t hc hb => exact ⟨rfl, Nat.le_succ _, Nat.le_refl _, fun hp => absurd hp (hlocked hb)⟩

/-- what becomes of the rows between two moments -/
structure RowsAge (σ τ : State P) : Prop where
  stays : ∀ n r r', σ.com outbox n = some r → τ.com outbox n = some r' → Ages r r'
  /-- an event that has left the outbox does not come back into its row -/
  gone : ∀ c cp, σ.com copies c = some cp → σ.com outbox cp.row = none → τ.com outbox cp.row = none

/-- **The life of a row.** From any moment of a run to any later one: a row keeps its event, its attempts and claims do not
go down, a published row is not touched until it leaves, and what has left does not come back. -/
theorem rows_age (env : Env P) (calls : ℕ → Call P) (ms ms' : List Move) :
    RowsAge (after env calls ms) (after env calls (ms ++ ms')) where
  stays n r r' hr hr' := row_induct (Φ := Ages r) ms ms' hr (fun i σ r₁ r₂ hi h₁ hs hage => hage.trans (hs.ages hi.fences h₁))
    ⟨rfl, Nat.le_refl _, Nat.le_refl _, fun _ => rfl⟩ r' hr'
  gone c cp hc hnone := by
    let Φ (υ : State P) : Prop := υ.com copies c = some cp ∧ υ.com outbox cp.row = none
    have hΦ : Φ (after env calls (ms ++ ms')) := by
      refine after_induct ms ms' (fun i σ τ _ _ ha hΦ => ⟨ha.copies c cp hΦ.1, ?_⟩) ⟨hc, hnone⟩
      by_contra hne
      obtain ⟨r, hr⟩ := Option.ne_none_iff_exists'.1 hne
      exact ha.fresh _ r hΦ.2 hr c cp hΦ.1 rfl
    exact hΦ.2

/-! ## Every moment -/

/-- what holds of the rows of the outbox at every moment -/
structure Sound (σ : State P) : Prop where
  /-- no two sessions have drawn the same token -/
  token_inj : ∀ i j t, σ.ext.claim i = some t → σ.ext.claim j = some t → i = j
  /-- a published row has been published -/
  published : ∀ n r, σ.com outbox n = some r → r.status = .published → (n, true) ∈ σ.ext.publishes
  attempts : ∀ n r, σ.com outbox n = some r → r.status = .pending → r.attemptCount < maxTries
  counted : ∀ n r, σ.com outbox n = some r → r.attemptCount ≤ r.claims

theorem Inv.sound (h : Inv calls σ) : Sound σ where
  token_inj := h.fences.claim_inj
  published := h.fences.published
  attempts := h.fences.attempts
  counted n r hr := (Nat.le_add_right _ _).trans (h.fences.counted n r hr)

/-- **Claim fencing.** After every schedule the outbox is sound, every further move of a session is fenced by the claim
tokens, and over whatever schedule follows the attempts of a row grow by at most one for each claim. -/
theorem relay_fenced (env : Env P) (calls : ℕ → Call P) (ms ms' : List Move) (m : Move) :
    Sound (after env calls ms) ∧
    Fenced env (Protocol.who m) (after env calls ms) (after env calls (ms ++ [m])) ∧
    ∀ n r r', (after env calls ms).com outbox n = some r → (after env calls (ms ++ ms')).com outbox n = some r' →
      r'.begun + r.claims ≤ r.begun + r'.claims :=
  ⟨(inv_after env calls ms).sound, (act_after env calls ms m).fenced (inv_after env calls ms),
    fun _ _ r' hr => begun_after ms ms' hr r'⟩

end LkmService.Outbox
