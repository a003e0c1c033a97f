/-
Codes are used once (`_consume`, `consume_recovery_code`), whatever the order of the requests.

What takes a code is one UPDATE that asks again for all that was checked before, so no two requests take the same one,
and none takes one that has expired or failed too often. Two things do not hold.

- `isolated_update` is a savepoint within the request's transaction, and a wrong guess ends in an exception: what it has
  recorded is rolled back with the request. Of no guess that has failed is there a count.
- The look-up takes the newest record that is unused. Once that is used an older one is taken again; and a record that is
  issued after the look-up does not keep the older one from being taken.

Results: `SingleUse`, the law for a run; `single_use_iff`, it holds exactly in the runs in which neither happens;
`lock_stays_open`, no run of requests locks a user out; `guesses_forgotten`, a run in which both do.
-/
import LkmService.Auth.Codes

namespace LkmService.Auth.Codes

open Session Sql Sql.Discipline Tbl

abbrev State := Snap Row Unit

abbrev Held := Own Row Index

abbrev Sessions := World (Stmt Row Index (NoFx Unit)) Store Exn Unit

variable {env : Hashes} {requests : ℕ → Request} {u : Use} {us done : List Use} {i n m k user : ℕ} {o : Held}
variable {σ τ υ : State} {r r' : Verification} {seen : List (ℕ × Bool)} {hashes : List String}

/-! ## What becomes of a row -/

/-- a record changes only in its use and its failures, and does not become unused -/
structure Ages (r r' : Verification) : Prop where
  same : r' = { r with used := r'.used, failedAttempts := r'.failedAttempts, lookedUp := r'.lookedUp }
  used : r.used = true → r'.used = true

theorem Ages.refl (r : Verification) : Ages r r := ⟨rfl, id⟩

theorem Ages.trans {r'' : Verification} (h : Ages r r') (h' : Ages r' r'') : Ages r r'' := by
  refine ⟨?_, fun hused => h'.used (h.used hused)⟩
  have hsame := h'.same
  rw [h.same] at hsame
  exact hsame

theorem Ages.createdAt (h : Ages r r') : r'.createdAt = r.createdAt := by
  have hsame := congrArg Verification.createdAt h.same
  exact hsame

/-- the failures of a recovery code are only taken back -/
structure Spends (r r' : RecoveryCode) : Prop where
  userId : r'.userId = r.userId
  codeHash : r'.codeHash = r.codeHash
  failedAttempts : r'.failedAttempts ≤ r.failedAttempts
  used : r.used = true → r'.used = true

theorem Spends.refl (r : RecoveryCode) : Spends r r := ⟨rfl, rfl, le_refl _, id⟩

theorem Spends.trans {r r' r'' : RecoveryCode} (h : Spends r r') (h' : Spends r' r'') : Spends r r'' :=
  ⟨h'.userId.trans h.userId, h'.codeHash.trans h.codeHash, h'.failedAttempts.trans h.failedAttempts, fun hused => h'.used (h.used hused)⟩

/-- records are added and age, recovery codes are spent -/
structure Onward (σ τ : State) : Prop where
  records : ∀ c n r, σ.com (verifications c) n = some r → ∃ r', τ.com (verifications c) n = some r' ∧ Ages r r'
  codes : ∀ n r, σ.com recoveryCodes n = some r → ∃ r', τ.com recoveryCodes n = some r' ∧ Spends r r'
  origin : ∀ n r', τ.com recoveryCodes n = some r' → ∃ r, σ.com recoveryCodes n = some r ∧ Spends r r'

theorem onward_of_com (h : τ.com = σ.com) : Onward σ τ := by
  refine ⟨fun c n r hr => ⟨r, ?_, Ages.refl r⟩, fun n r hr => ⟨r, ?_, Spends.refl r⟩, fun n r hr => ⟨r, ?_, Spends.refl r⟩⟩
  · rwa [h]
  · rwa [h]
  · rwa [h] at hr

theorem Onward.trans (h : Onward σ τ) (h' : Onward τ υ) : Onward σ υ where
  records c n r hr := by
    obtain ⟨r', hr', hages⟩ := h.records c n r hr
    obtain ⟨r'', hr'', hages'⟩ := h'.records c n r' hr'
    exact ⟨r'', hr'', hages.trans hages'⟩
  codes n r hr := by
    obtain ⟨r', hr', hspends⟩ := h.codes n r hr
    obtain ⟨r'', hr'', hspends'⟩ := h'.codes n r' hr'
    exact ⟨r'', hr'', hspends.trans hspends'⟩
  origin n r'' hr'' := by
    obtain ⟨r', hr', hspends'⟩ := h'.origin n r'' hr''
    obtain ⟨r, hr, hspends⟩ := h.origin n r' hr'
    exact ⟨r, hr, hspends.trans hspends'⟩

/-- every commit takes the tables onward, whoever makes it -/
def spending : Discipline Row Index (NoFx Unit) Unit where
  inv _ := True
  rely _ _ := Onward
  act _ := Onward
  ok _ _ _ _ := True
  rely_refl _ _ _ := onward_of_com rfl
  rely_trans _ _ _ _ _ h h' := h.trans h'
  act_refl _ _ _ := onward_of_com rfl
  grow_inv _ _ _ _ := trivial
  grow_act _ _ _ _ _ := onward_of_com (by rfl)
  grow_rely _ _ _ _ _ _ := onward_of_com (by rfl)

instance : Lockless spending := ⟨fun _ _ _ => trivial⟩

/-! ## What a session has taken -/

/-- the record is one that the code may take -/
structure Valid (env : Hashes) (u : Use) (r : Verification) : Prop where
  contact : r.contact = u.contact
  purpose : r.purpose = u.purpose
  codeHash : r.codeHash = env.hashCode u.code u.purpose u.contact r.nonce
  unused : r.used = false
  failedAttempts : r.failedAttempts < maxFailedAttempts
  unexpired : u.now < r.expiresAt

/-- the code has taken record `n`, which was the newest of the unused records that the look-up has seen -/
structure Taken (env : Hashes) (u : Use) (o : Held) (σ : State) (n : ℕ) (r : Verification) (seen : List (ℕ × Bool)) :
    Prop where
  com : σ.com (verifications u.channel) n = some r
  own : o.row (verifications u.channel) n = some (some { r with used := true, lookedUp := seen })
  valid : Valid env u r
  newest : ∀ m, (m, false) ∈ seen → ∃ r', σ.com (verifications u.channel) m = some r' ∧ r'.createdAt ≤ r.createdAt

theorem Taken.later (h : Taken env u o σ n r seen) (hon : Onward σ τ)
    (hcom : ∀ t n, o.row t n ≠ none → τ.com t n = σ.com t n) : Taken env u o τ n r seen := by
  refine ⟨(hcom _ n (by simp [h.own])).trans h.com, h.own, h.valid, fun m hm => ?_⟩
  obtain ⟨r', hr', hle⟩ := h.newest m hm
  obtain ⟨r'', hr'', hages⟩ := hon.records _ m r' hr'
  exact ⟨r'', hr'', hages.createdAt.trans_le hle⟩

/-- a row written elsewhere -/
theorem Taken.put (h : Taken env u o σ n r seen) {t : Tbl} {m : ℕ} (hnone : o.row t m = none) (w : Option (Row t)) :
    Taken env u (o.put t m w) σ n r seen :=
  ⟨h.com, Own.put_row_of_some w hnone h.own, h.valid, h.newest⟩

/-- the codes `us` have been taken, and nothing else has been written -/
structure Consumed (env : Hashes) (us : List Use) (o : Held) (σ : State) : Prop where
  taken : ∀ u ∈ us, ∃ n r seen, Taken env u o σ n r seen
  record : ∀ c n w, o.row (verifications c) n = some w →
    ∃ u ∈ us, u.channel = c ∧ ∃ r seen, Taken env u o σ n r seen
  codes : ∀ n, o.row recoveryCodes n = none

theorem consumed_nil (σ : State) : Consumed env [] {} σ :=
  ⟨fun u hu => by simp at hu, fun c n w hw => by simp at hw, fun n => rfl⟩

theorem Consumed.later (h : Consumed env us o σ) (hon : Onward σ τ)
    (hcom : ∀ t n, o.row t n ≠ none → τ.com t n = σ.com t n) : Consumed env us o τ where
  taken u hu := by
    obtain ⟨n, r, seen, htaken⟩ := h.taken u hu
    exact ⟨n, r, seen, htaken.later hon hcom⟩
  record c n w hw := by
    obtain ⟨u, hu, hc, r, seen, htaken⟩ := h.record c n w hw
    exact ⟨u, hu, hc, r, seen, htaken.later hon hcom⟩
  codes := h.codes

/-- what is in view unused has not been written -/
theorem Consumed.com_of_unused (h : Consumed env us o σ) {c : Channel} (hview : o.view σ (verifications c) n = some r)
    (hunused : r.used = false) : o.row (verifications c) n = none ∧ σ.com (verifications c) n = some r := by
  rcases hown : o.row (verifications c) n with _ | w
  · rw [Own.view_of_none hown] at hview
    exact ⟨rfl, hview⟩
  · obtain ⟨u, -, rfl, r', seen, htaken⟩ := h.record c n w hown
    rw [Own.view_of_row htaken.own, Option.some.injEq] at hview
    rw [← hview] at hunused
    cases hunused

/-- one code more -/
theorem Consumed.put (h : Consumed env us o σ) (hnone : o.row (verifications u.channel) n = none)
    (hcom : σ.com (verifications u.channel) n = some r) (hvalid : Valid env u r)
    (hnewest : ∀ m, (m, false) ∈ seen → ∃ r', σ.com (verifications u.channel) m = some r' ∧ r'.createdAt ≤ r.createdAt) :
    Consumed env (us ++ [u]) (o.put (verifications u.channel) n (some { r with used := true, lookedUp := seen })) σ := by
  have hnew : Taken env u (o.put (verifications u.channel) n (some { r with used := true, lookedUp := seen })) σ n r seen :=
    ⟨hcom, Own.put_row_self _ _ _, hvalid, hnewest⟩
  refine ⟨fun v hv => ?_, fun c m w hw => ?_, fun m => ?_⟩
  · rcases List.mem_append.1 hv with hv | hv
    · obtain ⟨m, r', seen', htaken⟩ := h.taken v hv
      exact ⟨m, r', seen', htaken.put hnone _⟩
    · obtain rfl := List.mem_singleton.1 hv
      exact ⟨n, r, seen, hnew⟩
  · by_cases heq : verifications c = verifications u.channel ∧ m = n
    · obtain ⟨hc, rfl⟩ := heq
      exact ⟨u, by simp, (verifications.inj hc).symm, r, seen, hnew⟩
    · rw [Own.put_row_of_ne _ _ _ fun hc hm => heq ⟨hc, hm⟩] at hw
      obtain ⟨v, hv, hc, r', seen', htaken⟩ := h.record c m w hw
      exact ⟨v, List.mem_append_left _ hv, hc, r', seen', htaken.put hnone _⟩
  · exact (congrFun (Own.put_row_other _ n _ (by simp)) m).trans (h.codes m)

/-! ## Taking a verification code -/

variable {c : Channel} {P : Held → State → Prop}

theorem wp_isolated {t : Tbl} {ns : List ℕ} {p : Row t → Bool} {f : Row t → Row t} :
    spending.wp i (updateAll t p f ns : Prg ℕ) (Returns fun _ _ _ => True) o σ :=
  wp_updateAll (fun _ _ _ _ _ _ => trivial) (fun _ _ _ _ _ _ _ _ _ => trivial) (k := 0) trivial

/-- a wrong guess never returns -/
theorem wrongGuess_spec {α : Type} {P : α → Held → State → Prop} :
    spending.wp i (wrongGuess c n : Prg α) (Returns P) o σ := by
  have hfailed : spending.wp i (isolatedUpdate (failedStmt c n)) (Returns fun _ _ _ => True) o σ :=
    wp_seq wp_isolated fun _ _ _ _ => wp_return trivial
  refine wp_seq hfailed fun _ _ _ _ => wp_bind (wp_select fun _ _ _ _ _ => ?_)
  exact wp_fail _

/-- what the look-up has found and seen -/
structure Found (u : Use) (found : Option (ℕ × Verification)) (seen : List (ℕ × Bool)) (σ : State) : Prop where
  record : ∀ n r, found = some (n, r) → σ.com (verifications u.channel) n = some r ∧ r.contact = u.contact ∧
    r.purpose = u.purpose
  newest : ∀ n r, found = some (n, r) → ∀ m, (m, false) ∈ seen →
    ∃ r', σ.com (verifications u.channel) m = some r' ∧ r'.createdAt ≤ r.createdAt

theorem Found.later {found : Option (ℕ × Verification)} (h : Found u found seen σ) (hon : Onward σ τ) {n : ℕ}
    {r : Verification} (hfound : found = some (n, r)) :
    (∃ r', τ.com (verifications u.channel) n = some r' ∧ Ages r r') ∧
      ∀ m, (m, false) ∈ seen → ∃ r', τ.com (verifications u.channel) m = some r' ∧ r'.createdAt ≤ r.createdAt := by
  refine ⟨hon.records _ n r (h.record n r hfound).1, fun m hm => ?_⟩
  obtain ⟨r', hr', hle⟩ := h.newest n r hfound m hm
  obtain ⟨r'', hr'', hages⟩ := hon.records _ m r' hr'
  exact ⟨r'', hr'', hages.createdAt.trans_le hle⟩

theorem latest_spec (h : Consumed env us o σ) :
    spending.wp i (latest u.channel u.contact u.purpose) (Returns fun x o' τ =>
      o' = o ∧ Consumed env us o τ ∧ Found u x.1 x.2 τ) o σ := by
  refine wp_query fun τ hl l hmem _ => ⟨rfl, h.later hl.rely hl.com, ?_⟩
  have h' := h.later hl.rely hl.com
  have hcom : ∀ n r, (n, r) ∈ l (verifications u.channel) → r.used = false →
      τ.com (verifications u.channel) n = some r := fun n r hmem' hunused =>
    (h'.com_of_unused ((hmem _ n r).1 hmem') hunused).2
  refine ⟨fun n r hfound => ?_, fun n r hfound m hm => ?_⟩
  · have hrecord := List.argmax_mem (Option.mem_def.2 hfound)
    simp only [List.mem_filter, Verification.isFor, decide_eq_true_eq, Bool.not_eq_true'] at hrecord
    exact ⟨hcom n r hrecord.1.1 hrecord.2, hrecord.1.2⟩
  · obtain ⟨⟨m', r'⟩, hr', heq⟩ := List.mem_map.1 hm
    obtain ⟨rfl, hunused⟩ := Prod.mk.inj heq
    have hle := List.le_of_mem_argmax (List.mem_filter.2 ⟨hr', by simpa using hunused⟩) (Option.mem_def.2 hfound)
    exact ⟨r', hcom m' r' (List.mem_filter.1 hr').1 hunused, hle⟩

theorem Ages.valid (h : Ages r r') (hcontact : r.contact = u.contact) (hpurpose : r.purpose = u.purpose)
    (hmatch : r.matchesCode env u.code = true) (htake : r'.consumable u.now = true) : Valid env u r' := by
  simp only [Verification.consumable, Bool.and_eq_true, Bool.not_eq_true', decide_eq_true_eq] at htake
  rw [Verification.matchesCode, decide_eq_true_eq, hcontact, hpurpose] at hmatch
  obtain ⟨⟨hunused, hfailed⟩, hexpires⟩ := htake
  have hsame := h.same
  refine ⟨?_, ?_, ?_, hunused, hfailed, hexpires⟩
  · rw [hsame]
    exact hcontact
  · rw [hsame]
    exact hpurpose
  · rw [hsame]
    exact hmatch

/-- the UPDATE that takes the record asks again for all that was checked -/
theorem consume_spec {found : Option (ℕ × Verification)} (h : Consumed env us o σ) (hfound : Found u found seen σ) :
    spending.wp i (consume env u.channel found seen u.code u.now) (Returns fun _ o τ => Consumed env (us ++ [u]) o τ) o
      σ := by
  rcases found with _ | ⟨n, r⟩
  · exact wp_fail _
  · obtain ⟨-, hcontact, hpurpose⟩ := hfound.record n r rfl
    rw [consume]
    by_cases hexpired : r.expiresAt ≤ u.now
    · rw [if_pos hexpired]
      exact wp_fail _
    rw [if_neg hexpired]
    by_cases hfailed : r.failedAttempts ≥ maxFailedAttempts
    · rw [if_pos hfailed]
      exact wp_fail _
    rw [if_neg hfailed]
    by_cases hmatch : r.matchesCode env u.code = false
    · rw [if_pos hmatch]
      exact wrongGuess_spec
    rw [if_neg hmatch]
    have htake : spending.wp i (consumeOnce (updateOne (verifications u.channel) n (·.consumable u.now) fun r =>
        { r with used := true, lookedUp := seen })) (Returns fun consumed o τ =>
          consumed = true → Consumed env (us ++ [u]) o τ) o σ := by
      refine wp_seq (P := fun count o τ => count = 1 → Consumed env (us ++ [u]) o τ) ?_ ?_
      · refine wp_bind (wp_updateRow (fun τ hl _ => ?_) fun τ r' hl hview hp => ?_)
        · exact wp_return (by simp)
        · refine wp_return fun _ => ?_
          have h' := h.later hl.rely hl.com
          obtain ⟨⟨r'', hr'', hages⟩, hnewest⟩ := hfound.later hl.rely rfl
          have hunused : r'.used = false := by
            simp only [Verification.consumable, Bool.and_eq_true, Bool.not_eq_true'] at hp
            exact hp.1.1
          obtain ⟨hnone, hcom⟩ := h'.com_of_unused hview hunused
          obtain rfl := Option.some.inj (hr''.symm.trans hcom)
          refine h'.put hnone hcom (hages.valid hcontact hpurpose (by simpa using hmatch) hp) fun m hm => ?_
          obtain ⟨s, hs, hle⟩ := hnewest m hm
          exact ⟨s, hs, hle.trans hages.createdAt.ge⟩
      · intro count o τ hcount
        exact wp_return fun hconsumed => hcount (by simpa using hconsumed)
    refine wp_seq htake fun consumed o' τ hconsumed => ?_
    cases consumed with
    | true => exact wp_return (hconsumed rfl)
    | false => exact wp_fail _

theorem consumeCode_spec (h : Consumed env us o σ) :
    spending.wp i (consumeCode env u) (Returns fun _ o τ => Consumed env (us ++ [u]) o τ) o σ := by
  refine wp_seq (latest_spec h) fun x o' τ hx => ?_
  obtain ⟨rfl, h', hfound⟩ := hx
  exact consume_spec h' hfound

/-- induction on the codes of the request -/
theorem consumeCodes_spec (h : Consumed env done o σ) :
    spending.wp i (consumeCodes env us) (Returns fun _ o τ => Consumed env (done ++ us) o τ) o σ := by
  induction us generalizing done o σ with
  | nil => exact wp_return (by simpa using h)
  | cons u us ih =>
    refine wp_seq (consumeCode_spec h) fun _ o' τ h' => ?_
    have hrest := ih h'
    rw [List.append_assoc] at hrest
    exact hrest

/-! ## Taking a recovery code -/

/-- `_check_recovery_locked` lets the user pass -/
def Unlocked (user : ℕ) (σ : State) : Prop :=
  ∀ n r, σ.com recoveryCodes n = some r → r.userId = user → r.used = false → r.failedAttempts < recoveryMaxFailed

/-- no request takes a failure further than the transaction it is rolled back with: an open lock stays open -/
theorem Unlocked.later (h : Unlocked user σ) (hon : Onward σ τ) : Unlocked user τ := by
  intro n r' hr' huser hunused
  obtain ⟨r, hr, hspends⟩ := hon.origin n r' hr'
  have hused : r.used = false := by
    by_contra hne
    rw [hspends.used (by simpa using hne)] at hunused
    cases hunused
  exact hspends.failedAttempts.trans_lt (h n r hr (hspends.userId.symm.trans huser) hused)

/-- what becomes of a recovery code while the user spends one with one of these hashes -/
structure Spent (hashes : List String) (user : ℕ) (r r' : RecoveryCode) : Prop where
  spends : Spends r r'
  taken : r'.used = true → r.userId = user ∧ r.used = false ∧ r.codeHash ∈ hashes

structure Spending (hashes : List String) (user : ℕ) (o : Held) (σ : State) : Prop where
  records : ∀ c n, o.row (verifications c) n = none
  codes : ∀ n w, o.row recoveryCodes n = some w →
    ∃ r r', σ.com recoveryCodes n = some r ∧ w = some r' ∧ Spent hashes user r r'
  unlocked : Unlocked user σ

theorem Spending.later (h : Spending hashes user o σ) (hon : Onward σ τ)
    (hcom : ∀ t n, o.row t n ≠ none → τ.com t n = σ.com t n) : Spending hashes user o τ := by
  refine ⟨h.records, fun n w hw => ?_, h.unlocked.later hon⟩
  obtain ⟨r, r', hr, hw', hspent⟩ := h.codes n w hw
  exact ⟨r, r', (hcom recoveryCodes n (by simp [hw])).trans hr, hw', hspent⟩

/-- what is in view unused is as it was, but for its failures -/
theorem Spending.of_unused {a : RecoveryCode} (h : Spending hashes user o σ)
    (hview : o.view σ recoveryCodes n = some a) (hunused : a.used = false) :
    ∃ r, σ.com recoveryCodes n = some r ∧ Spends r a ∧ r.used = false := by
  rcases hown : o.row recoveryCodes n with _ | w
  · rw [Own.view_of_none hown] at hview
    exact ⟨a, hview, Spends.refl a, hunused⟩
  · obtain ⟨r, r', hr, rfl, hspent⟩ := h.codes n w hown
    rw [Own.view_of_row hown, Option.some.injEq] at hview
    subst hview
    refine ⟨r, hr, hspent.spends, ?_⟩
    by_contra hne
    rw [hspent.spends.used (by simpa using hne)] at hunused
    cases hunused

theorem Spending.put {r a : RecoveryCode} (h : Spending hashes user o σ) (hr : σ.com recoveryCodes n = some r)
    (hspent : Spent hashes user r a) : Spending hashes user (o.put recoveryCodes n (some a)) σ := by
  refine ⟨fun c m => ?_, fun m w hw => ?_, h.unlocked⟩
  · exact (congrFun (Own.put_row_other recoveryCodes n _ (by simp)) m).trans (h.records c m)
  · rw [Own.put_row_same] at hw
    split_ifs at hw with hm
    · subst hm
      exact ⟨r, a, hr, (Option.some.inj hw).symm, hspent⟩
    · exact h.codes m w hw

/-- the session has taken a recovery code -/
def Recovered (o : Held) : Prop := ∃ n r', o.row recoveryCodes n = some (some r') ∧ r'.used = true

theorem checkRecoveryLocked_spec :
    spending.wp i (checkRecoveryLocked user) (Returns fun _ o τ => o = {} ∧ Unlocked user τ) {} σ := by
  have hmax : spending.wp i (maxUnusedFailedAttempts user) (Returns fun maxf o τ =>
      o = {} ∧ (maxf.getD 0 < recoveryMaxFailed → Unlocked user τ)) {} σ := by
    refine wp_query fun τ hl l hmem _ => ⟨rfl, fun hmax n r hr huser hunused => ?_⟩
    refine lt_of_le_of_lt ?_ hmax
    have hrow : r.failedAttempts ∈ ((l recoveryCodes).filter fun q => decide (q.2.userId = user) && !q.2.used).map
        fun q => q.2.failedAttempts := by
      refine List.mem_map.2 ⟨(n, r), List.mem_filter.2 ⟨(hmem recoveryCodes n r).2 hr, ?_⟩, rfl⟩
      simp [huser, hunused]
    rcases hm : (((l recoveryCodes).filter fun q => decide (q.2.userId = user) && !q.2.used).map
        fun q => q.2.failedAttempts).max? with _ | maxf
    · rw [List.max?_eq_none_iff] at hm
      rw [hm] at hrow
      cases hrow
    · rw [hm]
      exact (List.max?_le_iff hm).1 (le_refl _) _ hrow
  refine wp_seq hmax fun maxf o τ h => ?_
  obtain ⟨rfl, hunlocked⟩ := h
  by_cases hlocked : maxf.getD 0 ≥ recoveryMaxFailed
  · rw [if_pos hlocked]
    exact wp_fail _
  · rw [if_neg hlocked]
    exact wp_return ⟨rfl, hunlocked (by omega)⟩

/-- the codes that are taken, with the number of rows -/
theorem takeCodes_spec (h : Spending hashes user o σ) :
    spending.wp i (updateWhere recoveryCodes (·.consumable user hashes) fun r => { r with used := true, failedAttempts := 0 })
      (Returns fun count o τ => Spending hashes user o τ ∧ (count = 1 → Recovered o)) o σ := by
  refine wp_bind (wp_select fun τ hl rows _ _ => ?_)
  have h' := h.later hl.rely hl.com
  refine wp_returns_mono (wp_updateAll
    (I := fun k o τ => Spending hashes user o τ ∧ (0 < k → Recovered o)) ?_ ?_ (k := 0) ⟨h', by simp⟩) ?_
  · intro k o σ τ hl hk
    exact ⟨hk.1.later hl.rely hl.com, hk.2⟩
  · intro k o τ n a hl hk hview hp
    simp only [RecoveryCode.consumable, RecoveryCode.isUnusedOf, Bool.and_eq_true, decide_eq_true_eq,
      Bool.not_eq_true'] at hp
    obtain ⟨⟨huser, hunused⟩, hhash⟩ := hp
    obtain ⟨r, hr, hspends, hrunused⟩ := hk.1.of_unused hview hunused
    have hspent : Spent hashes user r { a with used := true, failedAttempts := 0 } := by
      refine ⟨⟨hspends.userId, hspends.codeHash, Nat.zero_le _, fun _ => rfl⟩, fun _ => ⟨?_, hrunused, ?_⟩⟩
      · exact hspends.userId.symm.trans huser
      · rw [← hspends.codeHash]
        exact hhash
    exact ⟨hk.1.put hr hspent, fun _ => ⟨n, _, Own.put_row_self _ _ _, rfl⟩⟩
  · intro count o τ hcount
    exact ⟨hcount.1, fun hone => hcount.2 (by omega)⟩

/-- the failures of the codes that are left -/
theorem resetFailures_spec (h : Spending hashes user o σ) (hrec : Recovered o) :
    spending.wp i (resetFailures user) (Returns fun _ o τ => Spending hashes user o τ ∧ Recovered o) o σ := by
  refine wp_bind (wp_select fun τ hl rows _ _ => ?_)
  have h' := h.later hl.rely hl.com
  refine wp_updateAll (I := fun _ o τ => Spending hashes user o τ ∧ Recovered o) ?_ ?_ (k := 0) ⟨h', hrec⟩
  · intro k o σ τ hl hk
    exact ⟨hk.1.later hl.rely hl.com, hk.2⟩
  · intro k o τ n a hl hk hview hp
    simp only [RecoveryCode.isUnusedOf, Bool.and_eq_true, decide_eq_true_eq, Bool.not_eq_true'] at hp
    obtain ⟨r, hr, hspends, hrunused⟩ := hk.1.of_unused hview hp.2
    have hspent : Spent hashes user r { a with failedAttempts := 0 } := by
      refine ⟨⟨hspends.userId, hspends.codeHash, Nat.zero_le _, hspends.used⟩, fun hused => ?_⟩
      rw [hp.2] at hused
      cases hused
    refine ⟨hk.1.put hr hspent, ?_⟩
    obtain ⟨m, r', hown, hused⟩ := hk.2
    have hne : m ≠ n := by
      rintro rfl
      rw [Own.view_of_row hown, Option.some.injEq] at hview
      rw [hview, hp.2] at hused
      cases hused
    refine ⟨m, r', ?_, hused⟩
    rw [Own.put_row_same, if_neg hne]
    exact hown

theorem consumeRecoveryCode_spec {text : String} :
    spending.wp i (consumeRecoveryCode env user text) (Returns fun _ o τ =>
      Spending (recoveryCandidateHashes env text) user o τ ∧ Recovered o) {} σ := by
  rw [consumeRecoveryCode]
  by_cases hempty : text = ""
  · rw [if_pos hempty]
    exact wp_fail _
  rw [if_neg hempty]
  refine wp_seq checkRecoveryLocked_spec fun _ o τ hτ => ?_
  obtain ⟨rfl, hunlocked⟩ := hτ
  have hstart : Spending (recoveryCandidateHashes env text) user {} τ :=
    ⟨fun c n => rfl, fun n w hw => by simp at hw, hunlocked⟩
  have htake : spending.wp i (consumeOnce (updateWhere recoveryCodes
      (·.consumable user (recoveryCandidateHashes env text)) fun r => { r with used := true, failedAttempts := 0 }))
      (Returns fun consumed o τ => Spending (recoveryCandidateHashes env text) user o τ ∧
        (consumed = true → Recovered o)) {} τ := by
    refine wp_seq (takeCodes_spec hstart) fun count o υ hcount => wp_return ⟨hcount.1, fun hconsumed => ?_⟩
    exact hcount.2 (by simpa using hconsumed)
  refine wp_seq htake fun consumed o υ h => ?_
  cases consumed with
  | true => exact wp_seq (resetFailures_spec h.1 (h.2 rfl)) fun _ _ _ h' => wp_return h'
  | false =>
    have hfailed : spending.wp i (isolatedUpdate (failureStmt user)) (Returns fun _ _ _ => True) o υ :=
      wp_seq (wp_bind (wp_select fun _ _ _ _ _ => wp_isolated)) fun _ _ _ _ => wp_return trivial
    exact wp_seq hfailed fun _ _ _ _ => wp_fail _

/-! ## What a request commits -/

/-- a new record: no code has taken it -/
def Issued (o : Held) (σ : State) : Prop :=
  (∀ c n w, o.row (verifications c) n = some w → σ.com (verifications c) n = none ∧ ∃ r, w = some r ∧ r.used = false) ∧
    ∀ n, o.row recoveryCodes n = none

/-- what the request has written when its program ends -/
def Wrote (env : Hashes) (o : Held) (σ : State) : Request → Prop
  | .issue _ _ _ _ _ _ _ => Issued o σ
  | .verify uses _ => Consumed env uses o σ
  | .recover user text _ => Spending (recoveryCandidateHashes env text) user o σ ∧ Recovered o

theorem Wrote.later {q : Request} (h : Wrote env o σ q) (hon : Onward σ τ)
    (hcom : ∀ t n, o.row t n ≠ none → τ.com t n = σ.com t n) : Wrote env o τ q := by
  cases q with
  | issue channel contact purpose code nonce now createdAt =>
    obtain ⟨hrecords, hcodes⟩ := h
    refine ⟨fun c n w hw => ?_, hcodes⟩
    obtain ⟨hnone, hnew⟩ := hrecords c n w hw
    exact ⟨(hcom _ n (by simp [hw])).trans hnone, hnew⟩
  | verify uses proceeds => exact Consumed.later h hon hcom
  | recover user text proceeds => exact ⟨Spending.later h.1 hon hcom, h.2⟩

theorem proceed_spec {proceeds : Bool} {P : Held → State → Prop} (h : P o σ) :
    spending.wp i (proceed proceeds) (Returns fun _ => P) o σ := by
  cases proceeds with
  | true => exact wp_return h
  | false => exact wp_fail _

theorem body_spec (q : Request) : spending.wp i (q.body env) (Returns fun _ o τ => Wrote env o τ q) {} σ := by
  cases q with
  | issue channel contact purpose code nonce now createdAt =>
    have hinsert : spending.wp i (createVerification env channel contact purpose code nonce now createdAt)
        (Returns fun _ o τ => Issued o τ) {} σ := by
      refine wp_insert fun τ hl => ⟨fun c n w hw => ?_, fun n => ?_⟩
      · by_cases heq : verifications c = verifications channel ∧ n = τ.next (verifications channel)
        · obtain ⟨hc, rfl⟩ := heq
          obtain rfl := verifications.inj hc
          rw [Own.put_row_self, Option.some.injEq] at hw
          exact ⟨(hl.fresh (verifications c) _ (le_refl _)).1, _, hw.symm, rfl⟩
        · rw [Own.put_row_of_ne _ _ _ fun hc hn => heq ⟨hc, hn⟩] at hw
          simp at hw
      · exact congrFun (Own.put_row_other (o := ({} : Held)) (verifications channel) _ _ (by simp)) n
    exact wp_seq hinsert fun _ _ _ h => wp_return h
  | verify uses proceeds =>
    refine wp_seq (consumeCodes_spec (consumed_nil σ)) fun _ o τ h => proceed_spec ?_
    exact h
  | recover user text proceeds =>
    refine wp_seq consumeRecoveryCode_spec fun _ o τ h => proceed_spec ?_
    exact h

theorem onward_merge (hrecords : ∀ c n w r, o.row (verifications c) n = some w → σ.com (verifications c) n = some r →
      ∃ r', w = some r' ∧ Ages r r')
    (hcodes : ∀ n w, o.row recoveryCodes n = some w →
      ∃ r r', σ.com recoveryCodes n = some r ∧ w = some r' ∧ Spends r r') : Onward σ (σ.merge o) where
  records c n r hr := by
    rcases hown : o.row (verifications c) n with _ | w
    · exact ⟨r, (Snap.merge_of_none hown σ).trans hr, Ages.refl r⟩
    · obtain ⟨r', rfl, hages⟩ := hrecords c n w r hown hr
      exact ⟨r', Snap.merge_of_some hown σ, hages⟩
  codes n r hr := by
    rcases hown : o.row recoveryCodes n with _ | w
    · exact ⟨r, (Snap.merge_of_none hown σ).trans hr, Spends.refl r⟩
    · obtain ⟨r₀, r', hr₀, rfl, hspends⟩ := hcodes n w hown
      obtain rfl := Option.some.inj (hr₀.symm.trans hr)
      exact ⟨r', Snap.merge_of_some hown σ, hspends⟩
  origin n r' hr' := by
    rcases hown : o.row recoveryCodes n with _ | w
    · rw [Snap.merge_of_none hown] at hr'
      exact ⟨r', hr', Spends.refl r'⟩
    · obtain ⟨r, r'', hr, rfl, hspends⟩ := hcodes n w hown
      rw [Snap.merge_of_some hown] at hr'
      obtain rfl := Option.some.inj hr'
      exact ⟨r, hr, hspends⟩

/-- a commit takes the tables onward -/
theorem Wrote.onward {q : Request} (h : Wrote env o σ q) : Onward σ (σ.merge o) := by
  cases q with
  | issue channel contact purpose code nonce now createdAt =>
    refine onward_merge (fun c n w r hw hr => ?_) fun n w hw => ?_
    · rw [(h.1 c n w hw).1] at hr
      cases hr
    · rw [h.2 n] at hw
      cases hw
  | verify uses proceeds =>
    refine onward_merge (fun c n w r hw hr => ?_) fun n w hw => ?_
    · obtain ⟨u, -, rfl, r₀, seen, htaken⟩ := Consumed.record h c n w hw
      obtain rfl := Option.some.inj (htaken.com.symm.trans hr)
      rw [htaken.own, Option.some.injEq] at hw
      exact ⟨_, hw.symm, rfl, fun _ => rfl⟩
    · rw [Consumed.codes h n] at hw
      cases hw
  | recover user text proceeds =>
    refine onward_merge (fun c n w r hw hr => ?_) fun n w hw => ?_
    · rw [h.1.records c n] at hw
      cases hw
    · obtain ⟨r, r', hr, hw', hspent⟩ := h.1.codes n w hw
      exact ⟨r, r', hr, hw', hspent.spends⟩

/-! ## One commit each -/

theorem plain_updateWhere {t : Tbl} {p : Row t → Bool} {f : Row t → Row t} : Plain (updateWhere t p f) :=
  plain_bind (plain_select _ _) fun _ => plain_updateAll _

theorem plain_consumeOnce {update : Prg ℕ} (h : Plain update) : Plain (consumeOnce update) :=
  plain_bind h fun _ => plain_pure _

theorem plain_isolatedUpdate {update : Prg ℕ} (h : Plain update) : Plain (isolatedUpdate update) :=
  plain_bind h fun _ => plain_pure _

theorem plain_consumeCode (u : Use) : Plain (consumeCode env u) := by
  refine plain_bind (plain_query _) fun x => ?_
  rcases x with ⟨_ | ⟨n, r⟩, seen⟩
  · exact plain_raise _
  · refine plain_ite (plain_raise _) (plain_ite (plain_raise _) (plain_ite ?_ ?_))
    · exact plain_bind (plain_isolatedUpdate (plain_updateAll _)) fun _ => plain_bind (plain_select _ _) fun _ => plain_raise _
    · exact plain_bind (plain_consumeOnce (plain_updateAll _)) fun _ => plain_ite (plain_pure _) (plain_raise _)

theorem plain_consumeCodes (us : List Use) : Plain (consumeCodes env us) := by
  induction us with
  | nil => exact plain_pure _
  | cons u us ih => exact plain_bind (plain_consumeCode u) fun _ => ih

theorem plain_consumeRecoveryCode {text : String} : Plain (consumeRecoveryCode env user text) := by
  refine plain_ite (plain_raise _) (plain_bind ?_ fun _ => ?_)
  · exact plain_bind (plain_query _) fun _ => plain_ite (plain_raise _) (plain_pure _)
  · refine plain_bind (plain_consumeOnce plain_updateWhere) fun _ => plain_ite ?_ ?_
    · exact plain_bind plain_updateWhere fun _ => plain_pure _
    · exact plain_bind (plain_isolatedUpdate plain_updateWhere) fun _ => plain_raise _

theorem plain_body (q : Request) : Plain (q.body env) := by
  cases q with
  | issue channel contact purpose code nonce now createdAt => exact plain_bind (plain_insert _ _) fun _ => plain_pure _
  | verify uses proceeds => exact plain_bind (plain_consumeCodes uses) fun _ => plain_ite (plain_pure _) (plain_raise _)
  | recover user text proceeds =>
    exact plain_bind plain_consumeRecoveryCode fun _ => plain_ite (plain_pure _) (plain_raise _)

/-! ## The runs -/

variable {d : Store} {ms pre post : List Move} {w : Sessions}

def init (env : Hashes) (d : Store) (requests : ℕ → Request) : Sessions := start d fun j => (requests j).prog env

/-- what is committed after the moves -/
def after (env : Hashes) (d : Store) (requests : ℕ → Request) (ms : List Move) : State :=
  (run (init env d requests) ms).st.snap

theorem safe_init (hd : ∀ j, d.own j = {}) : spending.protocol.Safe (init env d requests) := by
  refine safe_start trivial (fun _ => trivial) hd fun j => ?_
  refine wp_mono (wp_transaction (body_spec (requests j)) fun _ o τ h υ hl _ => ?_) fun _ _ _ _ => trivial
  have hon := (h.later hl.rely hl.com).onward
  exact ⟨trivial, hon, fun _ _ _ _ => hon⟩

theorem legal_init (w : Sessions) (ms : List Move) : spending.protocol.Legal w ms :=
  legal_of_ok (fun _ _ _ _ => trivial) (fun _ _ _ => trivial) w ms

theorem stage (hd : ∀ j, d.own j = {}) (ms : List Move) (j : ℕ) :
    Stage spending (Returns fun _ o σ => Wrote env o σ (requests j)) j (run (init env d requests) ms) := by
  refine Stage.run (safe_init hd) (legal_init _ ms) ?_ ?_
  · intro r o σ τ hrely hcom h
    cases r with
    | ok _ => exact Wrote.later h hrely hcom
    | error e => trivial
  · refine stage_start rfl (plain_body (requests j)) ?_
    rw [hd j]
    exact body_spec (requests j)

theorem commits (hd : ∀ j, d.own j = {}) (hc : committing (run (init env d requests) pre) i = true) :
    Wrote env ((run (init env d requests) pre).st.own i) (after env d requests pre) (requests i) ∧
      after env d requests (pre ++ [.run i]) =
        (after env d requests pre).merge ((run (init env d requests) pre).st.own i) := by
  obtain ⟨_, hwrote, hst, -⟩ := (stage hd pre i).commits hc
  refine ⟨hwrote, ?_⟩
  rw [after, run_snoc, hst, Db.snap_finish_true]
  rfl

/-- what is used stays used -/
theorem run_onward (hd : ∀ j, d.own j = {}) (pre ms : List Move) :
    Onward (after env d requests pre) (after env d requests (pre ++ ms)) := by
  have hinit : spending.protocol.Safe (init env d requests) := safe_init hd
  have hsafe := spending.protocol.run_safe hinit (legal_init _ pre)
  rw [after, after, run_append]
  refine spending.protocol.run_induct (Φ := fun e => Onward (run (init env d requests) pre).st.snap e.snap) hsafe
    (legal_init _ ms) ?_ (onward_of_com rfl)
  intro j s t _ _ hact h
  exact h.trans hact

/-- **The lock stays open.** However many requests guess wrong at once, what is used stays used, no recovery code comes to more
failures, and a user whom `_check_recovery_locked` lets pass is let pass ever after. -/
theorem lock_stays_open (env : Hashes) (d : Store) (requests : ℕ → Request) (hd : ∀ j, d.own j = {}) (pre post : List Move) :
    Onward (after env d requests pre) (after env d requests (pre ++ post)) ∧
      ∀ user, Unlocked user (after env d requests pre) → Unlocked user (after env d requests (pre ++ post)) :=
  ⟨run_onward hd pre post, fun _ h => h.later (run_onward hd pre post)⟩

/-! ## The law -/

def channels : List Channel := [.email, .phone]

def tables : List Tbl := [verifications .email, verifications .phone, recoveryCodes]

theorem mem_channels (c : Channel) : c ∈ channels := by cases c <;> decide

theorem mem_tables (t : Tbl) : t ∈ tables := by
  rcases t with c | _
  · cases c <;> decide
  · decide

def isUsed : (t : Tbl) → Row t → Bool
  | .verifications _, r => Verification.used r
  | .recoveryCodes, r => RecoveryCode.used r

def failures : (t : Tbl) → Row t → ℕ
  | .verifications _, r => Verification.failedAttempts r
  | .recoveryCodes, r => RecoveryCode.failedAttempts r

/-- session `i` commits, and a row that it has taken with it -/
structure Accepts (w : Sessions) (i : ℕ) (t : Tbl) (n : ℕ) : Prop where
  committing : committing w i = true
  held : ∃ r, (w.st.own i).row t n = some (some r) ∧ isUsed t r = true

/-- a code that the user may spend with this text -/
structure Spendable (env : Hashes) (user : ℕ) (text : String) (r : RecoveryCode) : Prop where
  userId : r.userId = user
  codeHash : r.codeHash ∈ recoveryCandidateHashes env text
  unused : r.used = false

/-- codes are used once in the run `ms` -/
structure SingleUse (env : Hashes) (d : Store) (requests : ℕ → Request) (ms : List Move) : Prop where
  /-- a request that commits has had each of its codes accepted -/
  verified : ∀ pre i post, ms = pre ++ .run i :: post → committing (run (init env d requests) pre) i = true →
    ∀ u ∈ (requests i).uses, ∃ n, Accepts (run (init env d requests) pre) i (verifications u.channel) n ∧
      ∃ r, (after env d requests pre).com (verifications u.channel) n = some r ∧ Valid env u r
  recovered : ∀ pre i post user text proceeds, ms = pre ++ .run i :: post →
    committing (run (init env d requests) pre) i = true → requests i = .recover user text proceeds →
    ∃ n, Accepts (run (init env d requests) pre) i recoveryCodes n
  /-- a record is accepted while it is unused, unexpired and below the limit of its failures -/
  valid : ∀ pre i post c n, ms = pre ++ .run i :: post → Accepts (run (init env d requests) pre) i (verifications c) n →
    ∃ u ∈ (requests i).uses, u.channel = c ∧ ∃ r, (after env d requests pre).com (verifications c) n = some r ∧ Valid env u r
  /-- a recovery code is accepted while it is unused, and its user not locked -/
  unlocked : ∀ pre i post n, ms = pre ++ .run i :: post → Accepts (run (init env d requests) pre) i recoveryCodes n →
    ∃ user text proceeds, requests i = .recover user text proceeds ∧ Unlocked user (after env d requests pre) ∧
      ∃ r, (after env d requests pre).com recoveryCodes n = some r ∧ Spendable env user text r
  /-- nothing is accepted twice -/
  once : ∀ pre i mid j post t n, ms = pre ++ .run i :: (mid ++ .run j :: post) →
    Accepts (run (init env d requests) pre) i t n → ¬ Accepts (run (init env d requests) (pre ++ .run i :: mid)) j t n
  /-- no record is accepted when a newer one has been issued for its contact and purpose -/
  newest : ∀ pre i post c n r, ms = pre ++ .run i :: post → Accepts (run (init env d requests) pre) i (verifications c) n →
    (after env d requests pre).com (verifications c) n = some r → ∀ m r',
    (after env d requests pre).com (verifications c) m = some r' → r'.contact = r.contact → r'.purpose = r.purpose →
    r'.createdAt ≤ r.createdAt
  /-- a failure that a request has recorded outlives the rollback of the request -/
  survives : ∀ pre m post t n r r', ms = pre ++ m :: post → undoes (run (init env d requests) pre) m = true →
    (after env d requests pre).com t n = some r →
    ((run (init env d requests) pre).st.own (Protocol.who m)).row t n = some (some r') → failures t r < failures t r' →
    ∃ r'', (after env d requests (pre ++ [m])).com t n = some r'' ∧ failures t r' ≤ failures t r''

/-- session `i` has taken record `n`, and a newer one is committed that was not there, or not unused, at the look-up -/
def superseded (d : Store) (i : ℕ) (c : Channel) (n : ℕ) : Bool :=
  match (d.cell (verifications c) n).mine i, (d.cell (verifications c) n).committed with
  | some (some taken), some r => taken.used && (List.range (d.tab (verifications c)).next).any fun m =>
      match (d.cell (verifications c) m).committed with
      | some r' => decide (r'.contact = r.contact ∧ r'.purpose = r.purpose ∧ r.createdAt < r'.createdAt) &&
          decide ((m, false) ∉ taken.lookedUp)
      | none => false
  | _, _ => false

/-- session `i` has recorded a failure of row `n` -/
def hasRecorded (d : Store) (i : ℕ) (t : Tbl) (n : ℕ) : Bool :=
  match (d.cell t n).mine i, (d.cell t n).committed with
  | some (some r'), some r => decide (failures t r < failures t r')
  | _, _ => false

/-- no code takes a record that has been superseded -/
def current (w : Sessions) : Move → Prop
  | .run i => committing w i = true →
      ∀ c ∈ channels, ∀ n < (w.st.tab (verifications c)).next, superseded w.st i c n = false
  | .crash _ => True

/-- no failure that has been recorded is undone -/
def recorded (w : Sessions) (m : Move) : Prop :=
  undoes w m = true → ∀ t ∈ tables, ∀ n < (w.st.tab t).next, hasRecorded w.st (Protocol.who m) t n = false

instance (w : Sessions) : DecidablePred (current w)
  | .run i => inferInstanceAs (Decidable (committing w i = true →
      ∀ c ∈ channels, ∀ n < (w.st.tab (verifications c)).next, superseded w.st i c n = false))
  | .crash _ => inferInstanceAs (Decidable True)

instance (w : Sessions) (m : Move) : Decidable (recorded w m) :=
  inferInstanceAs (Decidable (undoes w m = true →
    ∀ t ∈ tables, ∀ n < (w.st.tab t).next, hasRecorded w.st (Protocol.who m) t n = false))

theorem hasRecorded_eq {t : Tbl} {a b : Row t} (ha : w.st.snap.com t n = some a)
    (hb : (w.st.own i).row t n = some (some b)) : hasRecorded w.st i t n = decide (failures t a < failures t b) := by
  change (w.st.cell t n).committed = some a at ha
  change (w.st.cell t n).mine i = some (some b) at hb
  rw [hasRecorded, ha, hb]

theorem of_hasRecorded {t : Tbl} (h : hasRecorded w.st i t n = true) :
    ∃ a b, w.st.snap.com t n = some a ∧ (w.st.own i).row t n = some (some b) ∧ failures t a < failures t b := by
  rw [hasRecorded] at h
  split at h
  · next b a hb ha => exact ⟨a, b, ha, hb, by simpa using h⟩
  · simp at h

/-- a newer record that does not supersede was there, and unused -/
theorem of_not_superseded {seen : List (ℕ × Bool)} {r r' : Verification} (h : superseded w.st i c n = false)
    (hown : (w.st.own i).row (verifications c) n = some (some { r with used := true, lookedUp := seen }))
    (hr : w.st.snap.com (verifications c) n = some r) (hr' : w.st.snap.com (verifications c) m = some r')
    (hcontact : r'.contact = r.contact) (hpurpose : r'.purpose = r.purpose) (hlt : r.createdAt < r'.createdAt) :
    (m, false) ∈ seen := by
  have hm := Db.lt_of_com w.st hr'
  change (w.st.cell (verifications c) n).mine i = _ at hown
  change (w.st.cell (verifications c) n).committed = _ at hr
  change (w.st.cell (verifications c) m).committed = _ at hr'
  by_contra hnot
  have htrue : superseded w.st i c n = true := by
    rw [superseded, hown, hr]
    refine Bool.and_eq_true_iff.2 ⟨rfl, List.any_eq_true.2 ⟨m, List.mem_range.2 hm, ?_⟩⟩
    rw [hr']
    simp [hcontact, hpurpose, hlt, hnot]
  rw [h] at htrue
  cases htrue

theorem of_superseded (h : superseded w.st i c n = true) :
    ∃ a r, (w.st.own i).row (verifications c) n = some (some a) ∧ a.used = true ∧
      w.st.snap.com (verifications c) n = some r ∧ ∃ m r', w.st.snap.com (verifications c) m = some r' ∧
        r'.contact = r.contact ∧ r'.purpose = r.purpose ∧ r.createdAt < r'.createdAt := by
  rw [superseded] at h
  split at h
  · next a r ha hr =>
    obtain ⟨hused, hany⟩ := Bool.and_eq_true_iff.1 h
    obtain ⟨m, -, hm⟩ := List.any_eq_true.1 hany
    rcases hcom : (w.st.cell (verifications c) m).committed with _ | r'
    · simp [hcom] at hm
    · simp only [hcom, Bool.and_eq_true, decide_eq_true_eq] at hm
      exact ⟨a, r, ha, hused, hr, m, r', hcom, hm.1⟩
  · simp at h

/-- whoever takes a record has a code for it -/
theorem Wrote.of_record {q : Request} {a : Verification} (h : Wrote env o σ q)
    (hown : o.row (verifications c) n = some (some a)) (hused : a.used = true) :
    ∃ u ∈ q.uses, u.channel = c ∧ ∃ r seen, Taken env u o σ n r seen := by
  cases q with
  | issue channel contact purpose code nonce now createdAt =>
    obtain ⟨-, r, hr, hunused⟩ := h.1 c n _ hown
    obtain rfl := Option.some.inj hr
    rw [hunused] at hused
    cases hused
  | verify uses proceeds => exact Consumed.record h c n _ hown
  | recover user text proceeds =>
    rw [h.1.records c n] at hown
    cases hown

/-- whoever takes a recovery code may spend it -/
theorem Wrote.of_code {q : Request} {a : RecoveryCode} (h : Wrote env o σ q)
    (hown : o.row recoveryCodes n = some (some a)) (hused : a.used = true) :
    ∃ user text proceeds, q = .recover user text proceeds ∧ Unlocked user σ ∧
      ∃ r, σ.com recoveryCodes n = some r ∧ Spendable env user text r := by
  cases q with
  | issue channel contact purpose code nonce now createdAt =>
    rw [h.2 n] at hown
    cases hown
  | verify uses proceeds =>
    rw [Consumed.codes h n] at hown
    cases hown
  | recover user text proceeds =>
    obtain ⟨r, r', hr, hr', hspent⟩ := h.1.codes n _ hown
    obtain rfl := Option.some.inj hr'
    obtain ⟨huser, hunused, hhash⟩ := hspent.taken hused
    exact ⟨user, text, proceeds, rfl, h.1.unlocked, r, hr, huser, hhash, hunused⟩

/-- what a session accepts is unused before and used from then on -/
theorem Accepts.spent {t : Tbl} (hd : ∀ j, d.own j = {}) (h : Accepts (run (init env d requests) pre) i t n) :
    (∃ r, (after env d requests pre).com t n = some r ∧ isUsed t r = false) ∧
      ∃ r, (after env d requests (pre ++ [.run i])).com t n = some r ∧ isUsed t r = true := by
  obtain ⟨hwrote, hst⟩ := commits hd h.committing
  obtain ⟨a, hown, hused⟩ := h.held
  refine ⟨?_, a, by rw [hst, Snap.merge_of_some hown], hused⟩
  rcases t with c | _
  · obtain ⟨u, -, rfl, r, seen, htaken⟩ := hwrote.of_record hown hused
    exact ⟨r, htaken.com, htaken.valid.unused⟩
  · obtain ⟨user, text, proceeds, -, -, r, hr, hspend⟩ := hwrote.of_code hown hused
    exact ⟨r, hr, hspend.unused⟩

theorem Onward.used {t : Tbl} {r : Row t} (h : Onward σ τ) (hr : σ.com t n = some r) (hused : isUsed t r = true) :
    ∃ r', τ.com t n = some r' ∧ isUsed t r' = true := by
  rcases t with c | _
  · obtain ⟨r', hr', hages⟩ := h.records c n r hr
    exact ⟨r', hr', hages.used hused⟩
  · obtain ⟨r', hr', hspends⟩ := h.codes n r hr
    exact ⟨r', hr', hspends.used hused⟩

/-- **Once.** Nothing is accepted twice, in every run. -/
theorem accepted_once {t : Tbl} {j : ℕ} {mid : List Move} (hd : ∀ j, d.own j = {})
    (h : Accepts (run (init env d requests) pre) i t n) :
    ¬ Accepts (run (init env d requests) (pre ++ .run i :: mid)) j t n := by
  intro h'
  obtain ⟨-, r, hr, hused⟩ := h.spent hd
  have hon : Onward (after env d requests (pre ++ [.run i])) (after env d requests (pre ++ [.run i] ++ mid)) :=
    run_onward hd (pre ++ [.run i]) mid
  obtain ⟨r', hr', hused'⟩ := hon.used hr hused
  obtain ⟨⟨r'', hr'', hunused⟩, -⟩ := h'.spent hd
  rw [List.append_assoc, List.singleton_append] at hr'
  obtain rfl := Option.some.inj (hr'.symm.trans hr'')
  rw [hunused] at hused'
  cases hused'

/-- **Single use.** Codes are used once exactly where no code takes a superseded record and no failure is undone. -/
theorem single_use_iff (env : Hashes) (d : Store) (requests : ℕ → Request) (ms : List Move) (hd : ∀ i, d.own i = {}) :
    SingleUse env d requests ms ↔ Along (fun w m => current w m ∧ recorded w m) (init env d requests) ms := by
  constructor
  · intro h
    refine along_iff.2 fun pre m post he => ⟨?_, ?_⟩
    · cases m with
      | crash i => trivial
      | run i =>
        intro hcommit c _ n _
        by_contra hne
        obtain ⟨a, r, hown, hused, hr, m, r', hr', hcontact, hpurpose, hlt⟩ := of_superseded (by simpa using hne)
        have hle := h.newest pre i post c n r he ⟨hcommit, a, hown, hused⟩ hr m r' hr' hcontact hpurpose
        omega
    · intro hundo t _ n _
      by_contra hne
      obtain ⟨r, r', hr, hown, hlt⟩ := of_hasRecorded (by simpa using hne)
      obtain ⟨r'', hr'', hle⟩ := h.survives pre m post t n r r' he hundo hr hown hlt
      rw [after, run_snoc, undone_com hundo] at hr''
      obtain rfl := Option.some.inj (hr.symm.trans hr'')
      omega
  · intro hok
    have hstep := along_iff.1 hok
    constructor
    · intro pre i post he hcommit u hu
      obtain ⟨hwrote, -⟩ := commits hd hcommit
      cases hq : requests i with
      | issue => simp [hq, Request.uses] at hu
      | recover => simp [hq, Request.uses] at hu
      | verify uses proceeds =>
        rw [hq] at hwrote hu
        obtain ⟨n, r, seen, htaken⟩ := Consumed.taken hwrote u hu
        exact ⟨n, ⟨hcommit, _, htaken.own, rfl⟩, r, htaken.com, htaken.valid⟩
    · intro pre i post user text proceeds he hcommit hq
      obtain ⟨hwrote, -⟩ := commits hd hcommit
      rw [hq] at hwrote
      obtain ⟨n, r', hown, hused⟩ := hwrote.2
      exact ⟨n, hcommit, r', hown, hused⟩
    · intro pre i post c n he haccepts
      obtain ⟨hwrote, -⟩ := commits hd haccepts.committing
      obtain ⟨a, hown, hused⟩ := haccepts.held
      obtain ⟨u, hu, rfl, r, seen, htaken⟩ := hwrote.of_record hown hused
      exact ⟨u, hu, rfl, r, htaken.com, htaken.valid⟩
    · intro pre i post n he haccepts
      obtain ⟨hwrote, -⟩ := commits hd haccepts.committing
      obtain ⟨a, hown, hused⟩ := haccepts.held
      exact hwrote.of_code hown hused
    · intro pre i mid j post t n he haccepts
      exact accepted_once hd haccepts
    · intro pre i post c n r he haccepts hr m r' hr' hcontact hpurpose
      obtain ⟨hwrote, -⟩ := commits hd haccepts.committing
      obtain ⟨a, hown, hused⟩ := haccepts.held
      obtain ⟨u, hu, rfl, r₀, seen, htaken⟩ := hwrote.of_record hown hused
      obtain rfl := Option.some.inj (htaken.com.symm.trans hr)
      by_contra hlt
      have hcurrent := (hstep pre (.run i) post he).1 haccepts.committing u.channel (mem_channels _) n
        (Db.lt_of_com _ hr)
      have hseen := of_not_superseded hcurrent htaken.own hr hr' hcontact hpurpose (by omega)
      obtain ⟨r'', hr'', hle⟩ := htaken.newest m hseen
      obtain rfl := Option.some.inj (hr''.symm.trans hr')
      omega
    · intro pre m post t n r r' he hundo hr hown hlt
      have hrecorded := (hstep pre m post he).2 hundo t (mem_tables t) n (Db.lt_of_com _ hr)
      rw [hasRecorded_eq hr hown] at hrecorded
      simp only [decide_eq_false_iff_not] at hrecorded
      exact absurd hlt hrecorded

/-! ## Two runs -/

def plainHashes : Hashes where
  hashCode code purpose contact nonce := code ++ ":" ++ purpose ++ ":" ++ contact ++ ":" ++ nonce
  hashRecoveryCode text := "hmac " ++ text
  legacyHashRecoveryCode text := "sha256 " ++ text

/-- a code that has been sent, and two recovery codes with two failures -/
def mailbox : Store where
  tab
    | .verifications .email => Table.ofList
        [{ contact := "a@b", codeHash := "111111:login:a@b:", purpose := "login", expiresAt := 600, createdAt := 0 }]
    | .verifications .phone => {}
    | .recoveryCodes => Table.ofList
        [{ userId := 0, codeHash := "hmac x", failedAttempts := 2 }, { userId := 0, codeHash := "sha256 y", failedAttempts := 2 }]
  ext := ()

theorem own_mailbox (i : ℕ) : mailbox.own i = {} := by
  refine Own.ext (funext fun t => ?_) (funext fun k => propext ?_)
  · rcases t with (_ | _) | _ <;> rfl
  · simp [Db.own, mailbox]

/-- three wrong guesses at two codes that may fail once more -/
theorem lock_stays_open_demo :
    Unlocked 0 (after plainHashes mailbox (fun _ => .recover 0 "z" true) ([] ++ [0, 1, 2].flatMap (moves · 12))) := by
  refine (lock_stays_open plainHashes mailbox _ own_mailbox [] _).2 0 fun n r hr _ _ => ?_
  have hmem := List.mem_of_getElem? hr
  simp only [List.mem_cons, List.not_mem_nil, or_false] at hmem
  rcases hmem with rfl | rfl <;> decide

def login (code : String) : Request :=
  .verify [{ channel := .email, contact := "a@b", purpose := "login", code := code, now := 100 }] true

def loginRequests : ℕ → Request
  | 0 => .issue .email "a@b" "login" "222222" "" 50 50
  | 1 => login "222222"
  | 2 => .recover 0 "y" true
  | 3 => login "111111"
  | _ => login "000000"

theorem single_use_iff_demo :
    SingleUse plainHashes mailbox loginRequests ([0, 1, 2].flatMap (moves · 12)) :=
  (single_use_iff plainHashes mailbox loginRequests _ own_mailbox).2 (by decide)

/-- Four wrong guesses have left no trace. A second code has been issued and used; then the first one is taken. -/
theorem guesses_forgotten :
    let guesses := [4, 5, 6, 7].flatMap (moves · 4)
    let w := run (init plainHashes mailbox loginRequests) (guesses ++ [0, 1, 3].flatMap (moves · 12))
    (after plainHashes mailbox loginRequests guesses).com (verifications .email) 0 =
      mailbox.snap.com (verifications .email) 0 ∧
    [4, 5, 6, 7].map w.answer = List.replicate 4 (some (.error .verificationCodeInvalid)) ∧
    [1, 3].map w.answer = List.replicate 2 (some (.ok ())) ∧
    ¬ SingleUse plainHashes mailbox loginRequests (guesses ++ [0, 1, 3].flatMap (moves · 12)) := by
  refine ⟨by decide, by decide, by decide, fun h => ?_⟩
  have hsurvives := h.survives (moves 4 3) (.run 4)
    ([5, 6, 7].flatMap (moves · 4) ++ [0, 1, 3].flatMap (moves · 12)) (verifications .email) 0
    { contact := "a@b", codeHash := "111111:login:a@b:", purpose := "login", expiresAt := 600, createdAt := 0 }
    { contact := "a@b", codeHash := "111111:login:a@b:", purpose := "login", expiresAt := 600, createdAt := 0,
      failedAttempts := 1 } (by decide) (by decide) (by decide) (by decide) (by decide)
  obtain ⟨r, hr, hle⟩ := hsurvives
  have hcom : (after plainHashes mailbox loginRequests (moves 4 3 ++ [.run 4])).com (verifications .email) 0 =
      some { contact := "a@b", codeHash := "111111:login:a@b:", purpose := "login", expiresAt := 600, createdAt := 0 } := by
    decide
  obtain rfl := Option.some.inj (hcom.symm.trans hr)
  exact absurd hle (by decide)

end LkmService.Auth.Codes
