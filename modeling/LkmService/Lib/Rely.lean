/-
A rely-guarantee rule for concurrent sessions.

A `Protocol` says what every step keeps (`inv`), what session `i` may rely on while the others move (`rely i`), and
what a step of session `i` does to the state (`act i`). `wp P i p Q s` says of the program `p` of session `i` alone
that each of its statements, run from any state the others can have led to, is a good step, and that it ends in `Q`.
- `wp_andThen`, `wp_bind`, `wp_mono`, `wp_step`, `wp_next`: how preconditions compose.
- `run_safe`, `run_inv`: if every session's program is good on its own, the invariant holds in every state of every
  schedule.
- `run_induct`: a property kept by every `act` step holds in every state of every schedule.
- `ok` and `okDrop` are conditions on the moves of a run, for results about the runs that meet them (`Legal`).
-/
import LkmService.Lib.Session

namespace LkmService.Session

variable {F : Type → Type} {S ε ε' α γ : Type} [Machine F S]

/-! ## Protocols -/

structure Protocol (F : Type → Type) (S : Type) [Machine F S] where
  inv : S → Prop
  rely : ℕ → S → S → Prop
  act : ℕ → S → S → Prop
  ok : {β : Type} → ℕ → F β → S → Prop := fun _ _ _ => True
  okDrop : ℕ → S → Prop := fun _ _ => True
  rely_refl : ∀ i s, rely i s s
  rely_trans : ∀ i s t u, rely i s t → rely i t u → rely i s u
  drop_inv : ∀ i s, inv s → okDrop i s → inv (Machine.drop F i s)
  drop_act : ∀ i s, inv s → okDrop i s → act i s (Machine.drop F i s)
  drop_rely : ∀ i s, inv s → okDrop i s → ∀ j, j ≠ i → rely j s (Machine.drop F i s)

namespace Protocol

/-- what a step of session `i` from `s` to `t` owes to the others -/
structure Good (P : Protocol F S) (i : ℕ) (s t : S) : Prop where
  inv : P.inv t
  act : P.act i s t
  rely : ∀ j, j ≠ i → P.rely j s t

theorem good_drop (P : Protocol F S) (i : ℕ) (s : S) (h : P.inv s) (hd : P.okDrop i s) :
    P.Good i s (Machine.drop F i s) :=
  ⟨P.drop_inv i s h hd, P.drop_act i s h hd, P.drop_rely i s h hd⟩

/-- the weakest precondition of a program of session `i` under the protocol -/
def wp (P : Protocol F S) (i : ℕ) : Prog F ε α → (Except ε α → S → Prop) → S → Prop
  | .done r, Q, s => Q r s
  | .op c k, Q, s => ∀ s', P.rely i s s' → P.inv s' → P.ok i c s' →
      ∀ b t, Machine.exec i c s' = some (b, t) → P.Good i s' t ∧ wp P i (k b) Q t

variable (P : Protocol F S) (i : ℕ)

theorem wp_op {β : Type} (c : F β) (k : β → Prog F ε α) (Q : Except ε α → S → Prop) (s : S) :
    P.wp i (.op c k) Q s ↔ ∀ s', P.rely i s s' → P.inv s' → P.ok i c s' →
      ∀ b t, Machine.exec i c s' = some (b, t) → P.Good i s' t ∧ P.wp i (k b) Q t := Iff.rfl

theorem wp_mono {p : Prog F ε α} {Q Q' : Except ε α → S → Prop} {s : S} (h : P.wp i p Q s)
    (hQ : ∀ r t, Q r t → Q' r t) : P.wp i p Q' s := by
  induction p generalizing s with
  | done r => exact hQ r s h
  | op c k ih =>
    intro s' hr hi hc b t he
    obtain ⟨hg, hk⟩ := h s' hr hi hc b t he
    exact ⟨hg, ih b hk⟩

theorem wp_andThen (p : Prog F ε α) (f : Except ε α → Prog F ε' γ) (Q : Except ε' γ → S → Prop) (s : S) :
    P.wp i (p.andThen f) Q s ↔ P.wp i p (fun r t => P.wp i (f r) Q t) s := by
  induction p generalizing s with
  | done r => rfl
  | op c k ih =>
    simp only [Prog.andThen, wp_op]
    simp only [ih]

/-- an exception skips the rest of the program -/
theorem wp_bind (p : Prog F ε α) (f : α → Prog F ε γ) (Q : Except ε γ → S → Prop) (s : S) :
    P.wp i (p >>= f) Q s ↔ P.wp i p (fun r t =>
      match r with
      | .ok a => P.wp i (f a) Q t
      | .error e => Q (.error e) t) s := by
  rw [Prog.bind_eq, wp_andThen]
  refine ⟨fun h => P.wp_mono i h ?_, fun h => P.wp_mono i h ?_⟩ <;>
  · rintro (e | a) t ht <;> exact ht

theorem wp_call {β : Type} (c : F β) (Q : Except ε β → S → Prop) (s : S) :
    P.wp i (Prog.call c : Prog F ε β) Q s ↔ ∀ s', P.rely i s s' → P.inv s' → P.ok i c s' →
      ∀ b t, Machine.exec i c s' = some (b, t) → P.Good i s' t ∧ Q (.ok b) t := Iff.rfl

/-- a program that returns has `Φ` -/
def After (Φ : α → S → Prop) : Except ε α → S → Prop
  | .ok a, s => Φ a s
  | .error _, _ => True

theorem wp_step {p : Prog F ε α} {f : α → Prog F ε γ} {Φ : α → S → Prop} {Ψ : γ → S → Prop} {s : S}
    (h : P.wp i p (After Φ) s) (hf : ∀ a t, Φ a t → P.wp i (f a) (After Ψ) t) : P.wp i (p >>= f) (After Ψ) s := by
  rw [wp_bind]
  refine P.wp_mono i h fun r t hr => ?_
  cases r with
  | ok a => exact hf a t hr
  | error e => trivial

/-- a program that does not raise, and has `Φ` -/
def Ends (Φ : α → S → Prop) (r : Except ε α) (s : S) : Prop := ∃ a, r = .ok a ∧ Φ a s

theorem wp_next {p : Prog F ε α} {f : α → Prog F ε γ} {Φ : α → S → Prop} {Q : Except ε γ → S → Prop} {s : S}
    (h : P.wp i p (Ends Φ) s) (hf : ∀ a t, Φ a t → P.wp i (f a) Q t) : P.wp i (p >>= f) Q s := by
  rw [wp_bind]
  refine P.wp_mono i h fun r t hr => ?_
  obtain ⟨a, rfl, ha⟩ := hr
  exact hf a t ha

/-- what neither the others nor the session undo holds at the end as well -/
theorem wp_frame {Φ : S → Prop} (hrely : ∀ s t, P.rely i s t → Φ s → Φ t) (hact : ∀ s t, P.act i s t → Φ s → Φ t)
    {p : Prog F ε α} {Q : Except ε α → S → Prop} {s : S} (h : P.wp i p Q s) (hΦ : Φ s) :
    P.wp i p (fun r t => Q r t ∧ Φ t) s := by
  induction p generalizing s with
  | done r => exact ⟨h, hΦ⟩
  | op c k ih =>
    intro s' hr hi hc b t he
    obtain ⟨hg, hk⟩ := h s' hr hi hc b t he
    exact ⟨hg, ih b hk (hact s' t hg.act (hrely s s' hr hΦ))⟩

/-- the others' steps before a session's next statement are part of its precondition; a program that has ended owes
nothing more -/
theorem wp_rely {p : Prog F ε α} {s s' : S} (h : P.wp i p (fun _ _ => True) s) (hr : P.rely i s s') :
    P.wp i p (fun _ _ => True) s' := by
  cases p with
  | done r => trivial
  | op c k => exact fun u hu => h u (P.rely_trans i s s' u hr hu)

/-! ## Soundness -/

/-- the invariant holds and the rest of every session's program is good -/
structure Safe (w : World F S ε α) : Prop where
  inv : P.inv w.st
  wp : ∀ i p, w.prog i = some p → P.wp i p (fun _ _ => True) w.st

/-- the move meets the conditions of the protocol -/
def stepOk (w : World F S ε α) : Move → Prop
  | .run i =>
    match w.prog i with
    | some (.op c _) => P.ok i c w.st
    | _ => True
  | .crash i => P.okDrop i w.st

/-- the conditions of a move are those of its statement -/
theorem stepOk_of {w : World F S ε α} {m : Move} (hdrop : ∀ i, m = .crash i → P.okDrop i w.st)
    (hrun : ∀ {β : Type} (i : ℕ) (c : F β) k, m = .run i → w.prog i = some (.op c k) → P.ok i c w.st) : P.stepOk w m := by
  cases m with
  | crash i => exact hdrop i rfl
  | run i =>
    rcases hp : w.prog i with _ | (r | ⟨c, k⟩)
    · simp only [stepOk, hp]
    · simp only [stepOk, hp]
    · simp only [stepOk, hp]
      exact hrun i c k rfl hp

/-- every move of the schedule meets the conditions of the protocol -/
def Legal (w : World F S ε α) (ms : List Move) : Prop := Along P.stepOk w ms

/-- the session that moves -/
def who : Move → ℕ
  | .run i => i
  | .crash i => i

/-- the programs of the others stay where they are -/
theorem step_prog {w : World F S ε α} {m : Move} {i : ℕ} (h : i ≠ who m) : (step w m).prog i = w.prog i := by
  cases m with
  | crash j => exact Function.update_of_ne h _ _
  | run j =>
    have hj : i ≠ j := h
    rcases hp : w.prog j with _ | (r | ⟨c, k⟩)
    · simp only [step, hp]
    · simp only [step, hp]
    · rcases he : Machine.exec j c w.st with _ | ⟨b, t⟩
      · simp only [step, hp, he]
      · rw [step_op hp he]
        exact Function.update_of_ne hj _ _

/-- what one move does: nothing, or a good step of the session that moves, after which the rest of its program is
good again or gone -/
theorem step_cases {w : World F S ε α} {m : Move} (h : P.Safe w) (hm : P.stepOk w m) :
    step w m = w ∨ (P.Good (who m) w.st (step w m).st ∧
      (∀ j, j ≠ who m → (step w m).prog j = w.prog j) ∧
      ∀ p, (step w m).prog (who m) = some p → P.wp (who m) p (fun _ _ => True) (step w m).st) := by
  cases m with
  | crash i =>
    refine Or.inr ⟨P.good_drop i _ h.inv hm, fun j hj => Function.update_of_ne hj _ _, fun p hp => ?_⟩
    simp [step, who] at hp
  | run i =>
    rcases hp : w.prog i with _ | (r | ⟨c, k⟩)
    · left; simp only [step, hp]
    · left; simp only [step, hp]
    · rcases he : Machine.exec i c w.st with _ | ⟨b, t⟩
      · left; simp only [step, hp, he]
      · right
        simp only [stepOk, hp] at hm
        obtain ⟨hg, hk⟩ := h.wp i _ hp w.st (P.rely_refl i _) h.inv hm b t he
        simp only [step, hp, he, who]
        refine ⟨hg, fun j hj => Function.update_of_ne hj _ _, fun p hq => ?_⟩
        simp only [Function.update_self, Option.some.injEq] at hq
        exact hq ▸ hk

theorem step_safe {w : World F S ε α} {m : Move} (h : P.Safe w) (hm : P.stepOk w m) : P.Safe (step w m) := by
  rcases P.step_cases h hm with he | ⟨hg, ho, hk⟩
  · rwa [he]
  · refine ⟨hg.inv, fun j p hp => ?_⟩
    by_cases hj : j = who m
    · subst hj; exact hk p hp
    · rw [ho j hj] at hp
      exact P.wp_rely j (h.wp j p hp) (hg.rely j hj)

theorem run_safe {w : World F S ε α} {ms : List Move} (h : P.Safe w) (hl : P.Legal w ms) : P.Safe (run w ms) := by
  induction ms generalizing w with
  | nil => exact h
  | cons m ms ih => exact ih (P.step_safe h hl.1) hl.2

/-- **Invariant.** If every session's program is good on its own, the invariant holds after every schedule. -/
theorem run_inv {w : World F S ε α} {ms : List Move} (h : P.Safe w) (hl : P.Legal w ms) : P.inv (run w ms).st :=
  (P.run_safe h hl).inv

/-- every move leaves the state as it is or is an `act` step of the session that moves -/
theorem step_act {w : World F S ε α} {m : Move} (h : P.Safe w) (hm : P.stepOk w m) :
    (step w m).st = w.st ∨ P.act (who m) w.st (step w m).st := by
  rcases P.step_cases h hm with he | ⟨hg, -, -⟩
  · exact Or.inl (by rw [he])
  · exact Or.inr hg.act

/-- **Induction over a run.** What every `act` step between invariant states keeps holds after every schedule. -/
theorem run_induct {Φ : S → Prop} {w : World F S ε α} {ms : List Move} (h : P.Safe w) (hl : P.Legal w ms)
    (hstep : ∀ i s t, P.inv s → P.inv t → P.act i s t → Φ s → Φ t) (h0 : Φ w.st) : Φ (run w ms).st := by
  induction ms generalizing w with
  | nil => exact h0
  | cons m ms ih =>
    have hs := P.step_safe h hl.1
    refine ih hs hl.2 ?_
    rcases P.step_act h hl.1 with he | ha
    · rwa [he]
    · exact hstep _ _ _ h.inv hs.inv ha h0

/-- while only the others move, a session stays where it is and may rely on the state -/
theorem run_others {w : World F S ε α} {ms : List Move} {i : ℕ} (h : P.Safe w) (hl : P.Legal w ms)
    (hm : ∀ m ∈ ms, who m ≠ i) : (run w ms).prog i = w.prog i ∧ P.rely i w.st (run w ms).st := by
  induction ms generalizing w with
  | nil => exact ⟨rfl, P.rely_refl i _⟩
  | cons m ms ih =>
    obtain ⟨hp, hr⟩ := ih (P.step_safe h hl.1) hl.2 fun m' hm' => hm m' (List.mem_cons_of_mem _ hm')
    have hi : i ≠ who m := fun he => hm m List.mem_cons_self he.symm
    rcases P.step_cases h hl.1 with he | ⟨hg, ho, -⟩
    · rw [he] at hp hr
      exact ⟨by rw [run_cons, he, hp], by rw [run_cons, he]; exact hr⟩
    · exact ⟨by rw [run_cons, hp, ho i hi], P.rely_trans i _ _ _ (hg.rely i hi) hr⟩

/-- what a session that never moves sees of two states of a run -/
theorem run_later {w : World F S ε α} (pre post : List Move) (h : P.Safe w) (hl : P.Legal w (pre ++ post)) :
    ∃ i, P.rely i (run w pre).st (run w (pre ++ post)).st := by
  have hbound : ∃ n, ∀ m ∈ post, who m < n := by
    clear hl
    induction post with
    | nil => exact ⟨0, fun m hm => absurd hm List.not_mem_nil⟩
    | cons m post ih =>
      obtain ⟨n, hn⟩ := ih
      refine ⟨max n (who m + 1), fun m' hm' => ?_⟩
      rcases List.mem_cons.1 hm' with rfl | hm'
      · exact Nat.lt_of_lt_of_le (Nat.lt_succ_self _) (Nat.le_max_right _ _)
      · exact Nat.lt_of_lt_of_le (hn m' hm') (Nat.le_max_left _ _)
  obtain ⟨n, hn⟩ := hbound
  obtain ⟨hpre, hpost⟩ := (along_append pre post).1 hl
  rw [run_append]
  exact ⟨n, (P.run_others (P.run_safe h hpre) hpost fun m hm => Nat.ne_of_lt (hn m hm)).2⟩

/-- what a session will have found when it ends, as long as the others cannot undo it -/
theorem wp_stable {Q : Except ε α → S → Prop} (hQ : ∀ r s t, Q r s → P.rely i s t → Q r t) {p : Prog F ε α} {s s' : S}
    (h : P.wp i p Q s) (hr : P.rely i s s') : P.wp i p Q s' := by
  cases p with
  | done r => exact hQ r s s' h hr
  | op c k => exact fun u hu => h u (P.rely_trans i s s' u hr hu)

/-- a session whose connection is lost does not end -/
theorem run_lost {w : World F S ε α} (ms : List Move) (h : w.prog i = none) : (run w ms).prog i = none := by
  induction ms generalizing w with
  | nil => exact h
  | cons m ms ih =>
    refine ih ?_
    cases m with
    | crash j =>
      by_cases hj : i = j
      · simp [step, hj]
      · simpa [step, Function.update_of_ne hj] using h
    | run j =>
      rcases hp : w.prog j with _ | (r | ⟨c, k⟩)
      · simpa [step, hp] using h
      · simpa [step, hp] using h
      · have hj : i ≠ j := by
          rintro rfl
          simp [hp] at h
        rcases he : Machine.exec j c w.st with _ | ⟨b, t⟩
        · simpa [step, hp, he] using h
        · simpa [step, hp, he, Function.update_of_ne hj] using h

/-- **Results.** A session whose program ends in `Q` has found `Q` when it has ended, in every schedule. -/
theorem run_result {Q : Except ε α → S → Prop} (hQ : ∀ r s t, Q r s → P.rely i s t → Q r t) {w : World F S ε α}
    {ms : List Move} {p : Prog F ε α} {r : Except ε α} (h : P.Safe w) (hl : P.Legal w ms) (hp : w.prog i = some p)
    (hw : P.wp i p Q w.st) (hr : (run w ms).answer i = some r) : Q r (run w ms).st := by
  rw [World.answer_eq_some] at hr
  induction ms generalizing w p with
  | nil =>
    have hp' : some p = some (.done r) := hp.symm.trans hr
    obtain rfl := Option.some.inj hp'
    exact hw
  | cons m ms ih =>
    have hs := P.step_safe h hl.1
    by_cases hi : i = who m
    · cases m with
      | crash j =>
        have hj : i = j := hi
        have hnone := run_lost (i := i) ms (w := step w (.crash j)) (by simp [step, hj])
        rw [run_cons, hnone] at hr
        simp at hr
      | run j =>
        have hj : i = j := hi
        subst hj
        cases p with
        | done r' =>
          have he : step w (.run i) = w := by simp [step, hp]
          rw [run_cons, he] at hr ⊢
          exact ih h (he ▸ hl.2) hp hw hr
        | op c k =>
          rcases he : Machine.exec i c w.st with _ | ⟨b, t⟩
          · have hstay : step w (.run i) = w := by simp [step, hp, he]
            rw [run_cons, hstay] at hr ⊢
            exact ih h (hstay ▸ hl.2) hp hw hr
          · have hok := hl.1
            simp only [stepOk, hp] at hok
            obtain ⟨-, hk⟩ := hw w.st (P.rely_refl i _) h.inv hok b t he
            have hmove := step_op hp he
            have hk' : P.wp i (k b) Q (step w (.run i)).st := by
              rw [hmove]
              exact hk
            exact ih hs hl.2 (by simp [hmove]) hk' hr
    · rcases P.step_cases h hl.1 with he | ⟨hg, ho, -⟩
      · rw [run_cons, he] at hr ⊢
        exact ih h (he ▸ hl.2) hp hw hr
      · exact ih hs hl.2 ((ho i hi).trans hp) (P.wp_stable i hQ hw (hg.rely i hi)) hr

/-- conditions that imply those of the protocol wherever the invariant holds -/
theorem legal_of_along {ok : World F S ε α → Move → Prop} (hok : ∀ w m, P.inv w.st → ok w m → P.stepOk w m)
    {w : World F S ε α} {ms : List Move} (h : P.Safe w) (ha : Along ok w ms) : P.Legal w ms := by
  induction ms generalizing w with
  | nil => trivial
  | cons m ms ih =>
    have hs := hok w m h.inv ha.1
    exact ⟨hs, ih (P.step_safe h hs) ha.2⟩

/-- a protocol without conditions allows every schedule -/
theorem legal_of_ok (hok : ∀ {β : Type} (i : ℕ) (c : F β) (s : S), P.ok i c s) (hd : ∀ i s, P.okDrop i s)
    (w : World F S ε α) (ms : List Move) : P.Legal w ms := by
  refine along_of_forall (fun w m => ?_) w ms
  cases m with
  | crash i => exact hd _ _
  | run i =>
    simp only [stepOk]
    split
    · exact hok _ _ _
    · trivial

/-- sessions that start together are safe when each of their programs is good from the initial state -/
theorem safe_start {s : S} {prog : ℕ → Prog F ε α} (h : P.inv s)
    (hp : ∀ i, P.wp i (prog i) (fun _ _ => True) s) : P.Safe (start s prog) :=
  ⟨h, fun i p he => by simp only [start, Option.some.injEq] at he; exact he ▸ hp i⟩

end Protocol

end LkmService.Session
