/-
The invariant of one question: its amounts, and that the ledger rows about it are exactly the entries that its state
calls for.

- `Due`: the entries that a question calls for: the escrow, a share for each accepted answer, and the refund once it is
  no longer open.
- `About`: the ledger row is under a ref of the question.
- `Escrow`: each row about the question is due, each due entry has a row, and the amounts agree with the accepted answers.
-/
import LkmService.Lib.Count
import LkmService.Points.Calls
import LkmService.Qa.Model

namespace LkmService.Qa

open Session Sql Points Tbl

variable {env : Env} {σ τ : State} {q q' a a' u : ℕ}

/-! ## Refs -/

theorem Env.answerRef_inj (h : env.answerRef q a = env.answerRef q' a') : q = q' ∧ a = a' := by
  -- the first colon ends the question's id
  have hsplit : ∀ (l l' r r' : List Char), ':' ∉ l → ':' ∉ l' → l ++ ':' :: r = l' ++ ':' :: r' → l = l' ∧ r = r' := by
    intro l
    induction l with
    | nil =>
      intro l' r r' _ hl' he
      cases l' with
      | nil => exact ⟨rfl, by simpa using he⟩
      | cons c l' =>
        simp only [List.nil_append, List.cons_append, List.cons.injEq] at he
        exact absurd (he.1 ▸ List.mem_cons_self) hl'
    | cons c l ih =>
      intro l' r r' hl hl' he
      cases l' with
      | nil =>
        simp only [List.nil_append, List.cons_append, List.cons.injEq] at he
        exact absurd (he.1 ▸ List.mem_cons_self) hl
      | cons c' l' =>
        simp only [List.cons_append, List.cons.injEq] at he
        obtain ⟨rfl, he⟩ := he
        obtain ⟨rfl, rfl⟩ := ih l' r r' (fun hc => hl (List.mem_cons_of_mem _ hc))
          (fun hc => hl' (List.mem_cons_of_mem _ hc)) he
        exact ⟨rfl, rfl⟩
  have hl := congrArg String.toList h
  simp only [answerRef, String.toList_append] at hl
  have hc : (":" : String).toList = [':'] := rfl
  simp only [hc, List.append_assoc, List.singleton_append] at hl
  obtain ⟨h₁, h₂⟩ := hsplit _ _ _ _ (env.no_colon q) (env.no_colon q') hl
  exact ⟨env.str_inj (String.toList_inj.1 h₁), env.str_inj (String.toList_inj.1 h₂)⟩

inductive About (env : Env) (q : ℕ) (r : PointsLedger) : Prop where
  | escrow (ht : r.refType = "qa_question") (hi : r.refId = env.str q)
  | share (a : ℕ) (ht : r.refType = "qa_accept") (hi : r.refId = env.answerRef q a)
  | refund (ht : r.refType = "qa_refund") (hi : r.refId = env.str q)

/-- a row is about one question -/
theorem About.unique {r : PointsLedger} (h : About env q r) (h' : About env q' r) : q = q' := by
  rcases h with ⟨ht, hi⟩ | ⟨a, ht, hi⟩ | ⟨ht, hi⟩ <;> rcases h' with ⟨ht', hi'⟩ | ⟨a', ht', hi'⟩ | ⟨ht', hi'⟩ <;>
    first
    | exact env.str_inj (hi.symm.trans hi')
    | exact (Env.answerRef_inj (hi.symm.trans hi')).1
    | exact absurd (ht.symm.trans ht') (by decide)

theorem About.refType {r : PointsLedger} (h : About env q r) : r.refType ∈ qaRefTypes := by
  rcases h with ⟨ht, -⟩ | ⟨a, ht, -⟩ | ⟨ht, -⟩ <;> rw [ht] <;> decide

/-! ## The entries that a question calls for -/

/-- the accepted answers of a question -/
def accepted (σ : State) (q : ℕ) : Set ℕ := {m | ∃ x, σ.com answers m = some x ∧ x.questionId = q ∧ x.isAccepted = true}

inductive Due (env : Env) (σ : State) (q : ℕ) : ℕ → ℤ → String → String → Prop where
  | escrow (r : QAQuestion) (hq : σ.com questions q = some r) (hpos : 0 < r.bountyTotal) :
    Due env σ q r.authorId (-r.bountyTotal) "qa_question" (env.str q)
  | share (r : QAQuestion) (a : ℕ) (x : QAAnswer) (hq : σ.com questions q = some r) (ha : σ.com answers a = some x)
      (hx : x.questionId = q) (hacc : x.isAccepted = true) (hpos : 0 < r.bountyPerPerson) :
    Due env σ q x.authorId r.bountyPerPerson "qa_accept" (env.answerRef q a)
  | refund (r : QAQuestion) (hq : σ.com questions q = some r) (hover : r.status ≠ .isOpen)
      (hpos : r.bountyDistributed < r.bountyTotal) :
    Due env σ q r.authorId (r.bountyTotal - r.bountyDistributed) "qa_refund" (env.str q)

/-- the row carries the entry -/
def Carries (u : ℕ) (delta : ℤ) (refType refId : String) (r : PointsLedger) : Prop :=
  r.userId = u ∧ r.delta = delta ∧ r.refType = refType ∧ r.refId = refId

structure Escrow (env : Env) (σ : State) (q : ℕ) : Prop where
  rows : ∀ n r, σ.com ledger n = some r → About env q r → Due env σ q r.userId r.delta r.refType r.refId
  complete : ∀ u d t i, Due env σ q u d t i → ∃ n r, σ.com ledger n = some r ∧ Carries u d t i r
  total : ∀ r, σ.com questions q = some r → r.bountyTotal = r.bountyPeople * r.bountyPerPerson
  distributed : ∀ r, σ.com questions q = some r → r.bountyDistributed = r.bountyPerPerson * (accepted σ q).ncard
  people : ∀ r, σ.com questions q = some r → (accepted σ q).ncard ≤ r.bountyPeople
  finite : (accepted σ q).Finite
  asked : σ.com questions q = none → accepted σ q = ∅

/-! ## What the invariant depends on -/

/-- the two states agree on the question, its accepted answers and the ledger rows about it -/
structure Agrees (env : Env) (σ τ : State) (q : ℕ) : Prop where
  question : τ.com questions q = σ.com questions q
  answers : ∀ m x, x.questionId = q → x.isAccepted = true →
    (σ.com Tbl.answers m = some x ↔ τ.com Tbl.answers m = some x)
  rows : ∀ n r, About env q r → (σ.com ledger n = some r ↔ τ.com ledger n = some r)

theorem Agrees.symm (h : Agrees env σ τ q) : Agrees env τ σ q :=
  ⟨h.question.symm, fun m x hx ha => (h.answers m x hx ha).symm, fun n r hr => (h.rows n r hr).symm⟩

theorem Agrees.accepted (h : Agrees env σ τ q) : accepted τ q = accepted σ q := by
  refine Set.Subset.antisymm ?_ ?_
  · rintro m ⟨x, hm, hx, ha⟩
    exact ⟨x, (h.answers m x hx ha).2 hm, hx, ha⟩
  · rintro m ⟨x, hm, hx, ha⟩
    exact ⟨x, (h.answers m x hx ha).1 hm, hx, ha⟩

theorem Agrees.due (h : Agrees env σ τ q) {d : ℤ} {t i : String} (hd : Due env σ q u d t i) :
    Due env τ q u d t i := by
  cases hd with
  | escrow r hq hpos => exact .escrow r (h.question.trans hq) hpos
  | share r a x hq ha hx hacc hpos =>
    exact .share r a x (h.question.trans hq) ((h.answers a x hx hacc).1 ha) hx hacc hpos
  | refund r hq hover hpos => exact .refund r (h.question.trans hq) hover hpos

/-- the two states agree on the question, all its answers and the ledger rows about it -/
structure SameQuestion (env : Env) (σ τ : State) (q : ℕ) : Prop where
  question : τ.com questions q = σ.com questions q
  answers : ∀ m x, x.questionId = q → (σ.com Tbl.answers m = some x ↔ τ.com Tbl.answers m = some x)
  rows : ∀ n r, About env q r → (σ.com ledger n = some r ↔ τ.com ledger n = some r)

theorem SameQuestion.agrees (h : SameQuestion env σ τ q) : Agrees env σ τ q :=
  ⟨h.question, fun m x hx _ => h.answers m x hx, h.rows⟩

theorem Due.about {d : ℤ} {t i : String} (h : Due env σ q u d t i) {r : PointsLedger} (ht : r.refType = t)
    (hi : r.refId = i) : About env q r := by
  cases h with
  | escrow => exact .escrow ht hi
  | share _ a => exact .share a ht hi
  | refund => exact .refund ht hi

/-- one entry is due under a ref -/
theorem Due.unique {u' : ℕ} {d d' : ℤ} {t t' i i' : String} (h : Due env σ q u d t i) (h' : Due env σ q u' d' t' i')
    (ht : t' = t) (hi : i' = i) : u' = u ∧ d' = d := by
  cases h with
  | escrow r hq =>
    cases h' with
    | escrow r' hq' =>
      rw [hq, Option.some.injEq] at hq'
      exact hq' ▸ ⟨rfl, rfl⟩
    | share => simp at ht
    | refund => simp at ht
  | share r a x hq ha =>
    cases h' with
    | escrow => simp at ht
    | share r' a' x' hq' ha' =>
      obtain ⟨-, rfl⟩ := Env.answerRef_inj hi
      rw [hq, Option.some.injEq] at hq'
      rw [ha, Option.some.injEq] at ha'
      exact hq' ▸ ha' ▸ ⟨rfl, rfl⟩
    | refund => simp at ht
  | refund r hq =>
    cases h' with
    | escrow => simp at ht
    | share => simp at ht
    | refund r' hq' =>
      rw [hq, Option.some.injEq] at hq'
      exact hq' ▸ ⟨rfl, rfl⟩

/-- a share is due for accepted answers only -/
theorem Due.accepted {d : ℤ} {t i : String} (h : Due env σ q u d t i) (ht : t = "qa_accept")
    (hi : i = env.answerRef q a) : a ∈ accepted σ q := by
  cases h with
  | escrow => simp at ht
  | share r b x hq hb hx hacc =>
    obtain ⟨-, rfl⟩ := Env.answerRef_inj hi
    exact ⟨x, hb, hx, hacc⟩
  | refund => simp at ht

theorem Due.escrowed {d : ℤ} {t i : String} (h : Due env σ q u d t i) (ht : t = "qa_question") {r : QAQuestion}
    (hr : σ.com questions q = some r) : 0 < r.bountyTotal := by
  cases h with
  | escrow r' hq hpos =>
    rw [hr, Option.some.injEq] at hq
    exact hq ▸ hpos
  | share => simp at ht
  | refund => simp at ht

theorem Due.shared {d : ℤ} {t i : String} (h : Due env σ q u d t i) (ht : t = "qa_accept") {r : QAQuestion}
    (hr : σ.com questions q = some r) : 0 < r.bountyPerPerson := by
  cases h with
  | escrow => simp at ht
  | share r' _ _ hq _ _ _ hpos =>
    rw [hr, Option.some.injEq] at hq
    exact hq ▸ hpos
  | refund => simp at ht

/-- a refund is due when the question is no longer open -/
theorem Due.over {d : ℤ} {t i : String} (h : Due env σ q u d t i) (ht : t = "qa_refund") {r : QAQuestion}
    (hr : σ.com questions q = some r) : r.status ≠ .isOpen ∧ r.bountyDistributed < r.bountyTotal := by
  cases h with
  | escrow => simp at ht
  | share => simp at ht
  | refund r' hq hover hpos =>
    rw [hr, Option.some.injEq] at hq
    exact hq ▸ ⟨hover, hpos⟩

theorem Due.asked {d : ℤ} {t i : String} (h : Due env σ q u d t i) : σ.com questions q ≠ none := by
  cases h with
  | escrow r hq => simp [hq]
  | share r a x hq => simp [hq]
  | refund r hq => simp [hq]

theorem Escrow.congr (h : Escrow env σ q) (hs : Agrees env σ τ q) : Escrow env τ q where
  rows n r hn hr := hs.due (h.rows n r ((hs.rows n r hr).2 hn) hr)
  complete u d t i hd := by
    obtain ⟨n, r, hn, hc⟩ := h.complete u d t i (hs.symm.due hd)
    exact ⟨n, r, (hs.rows n r (hd.about hc.2.2.1 hc.2.2.2)).1 hn, hc⟩
  total r hq := h.total r (hs.question ▸ hq)
  distributed r hq := hs.accepted ▸ h.distributed r (hs.question ▸ hq)
  people r hq := hs.accepted ▸ h.people r (hs.question ▸ hq)
  finite := hs.accepted ▸ h.finite
  asked hq := hs.accepted ▸ h.asked (hs.question ▸ hq)

/-! ## Steps of a question -/

/-- the new ledger rows about the question are exactly its new entries -/
theorem Escrow.rows_step (h : Escrow env σ q) {new : ℕ → PointsLedger → Prop}
    (hrows : ∀ n r, About env q r → (τ.com ledger n = some r ↔ σ.com ledger n = some r ∨ new n r))
    (hdue : ∀ u d t i, Due env τ q u d t i ↔ Due env σ q u d t i ∨ ∃ n r, new n r ∧ Carries u d t i r) :
    (∀ n r, τ.com ledger n = some r → About env q r → Due env τ q r.userId r.delta r.refType r.refId) ∧
      ∀ u d t i, Due env τ q u d t i → ∃ n r, τ.com ledger n = some r ∧ Carries u d t i r := by
  refine ⟨fun n r hn hr => (hdue ..).2 ?_, fun u d t i hd => ?_⟩
  · rcases (hrows n r hr).1 hn with hn | hn
    · exact Or.inl (h.rows n r hn hr)
    · exact Or.inr ⟨n, r, hn, rfl, rfl, rfl, rfl⟩
  · rcases (hdue ..).1 hd with hd' | ⟨n, r, hn, hc⟩
    · obtain ⟨n, r, hn, hc⟩ := h.complete u d t i hd'
      exact ⟨n, r, (hrows n r (hd.about hc.2.2.1 hc.2.2.2)).2 (Or.inl hn), hc⟩
    · exact ⟨n, r, (hrows n r (hd.about hc.2.2.1 hc.2.2.2)).2 (Or.inr hn), hc⟩

/-- the entries of a question whose row is `r` -/
theorem due_iff {r : QAQuestion} (hq : σ.com questions q = some r) {d : ℤ} {t i : String} : Due env σ q u d t i ↔
    (0 < r.bountyTotal ∧ u = r.authorId ∧ d = -(r.bountyTotal : ℤ) ∧ t = "qa_question" ∧ i = env.str q) ∨
    (∃ a x, (σ.com answers a = some x ∧ x.questionId = q ∧ x.isAccepted = true) ∧
      0 < r.bountyPerPerson ∧ u = x.authorId ∧ d = (r.bountyPerPerson : ℤ) ∧ t = "qa_accept" ∧ i = env.answerRef q a) ∨
    (r.status ≠ .isOpen ∧ r.bountyDistributed < r.bountyTotal ∧ u = r.authorId ∧
      d = (r.bountyTotal : ℤ) - r.bountyDistributed ∧ t = "qa_refund" ∧ i = env.str q) := by
  constructor
  · intro hd
    cases hd with
    | escrow r' hr' hpos =>
      obtain rfl := Option.some.inj (hq.symm.trans hr')
      exact .inl ⟨hpos, rfl, rfl, rfl, rfl⟩
    | share r' a x hr' ha hx hacc hpos =>
      obtain rfl := Option.some.inj (hq.symm.trans hr')
      exact .inr (.inl ⟨a, x, ⟨ha, hx, hacc⟩, hpos, rfl, rfl, rfl, rfl⟩)
    | refund r' hr' hover hpos =>
      obtain rfl := Option.some.inj (hq.symm.trans hr')
      exact .inr (.inr ⟨hover, hpos, rfl, rfl, rfl, rfl⟩)
  · rintro (⟨hpos, rfl, rfl, rfl, rfl⟩ | ⟨a, x, ⟨ha, hx, hacc⟩, hpos, rfl, rfl, rfl, rfl⟩ |
      ⟨hover, hpos, rfl, rfl, rfl, rfl⟩)
    · exact .escrow r hq hpos
    · exact .share r a x hq ha hx hacc hpos
    · exact .refund r hq hover hpos

/-- a new question, with its escrow -/
theorem Escrow.create (h : Escrow env σ q) {r : QAQuestion} {new : ℕ → PointsLedger → Prop}
    (hnone : σ.com questions q = none) (hq : τ.com questions q = some r) (hans : τ.com answers = σ.com answers)
    (hopen : r.status = .isOpen) (htotal : r.bountyTotal = r.bountyPeople * r.bountyPerPerson)
    (hzero : r.bountyDistributed = 0)
    (hrows : ∀ n r', About env q r' → (τ.com ledger n = some r' ↔ σ.com ledger n = some r' ∨ new n r'))
    (hnew : ∀ u d t i, (∃ n r', new n r' ∧ Carries u d t i r') ↔
      0 < r.bountyTotal ∧ u = r.authorId ∧ d = -(r.bountyTotal : ℤ) ∧ t = "qa_question" ∧ i = env.str q) :
    Escrow env τ q := by
  have hacc : accepted τ q = ∅ := by
    rw [← h.asked hnone]
    simp only [accepted, hans]
  have hstep := h.rows_step hrows fun u d t i => ?_
  · exact {
      rows := hstep.1
      complete := hstep.2
      total := fun r' hr' => by rw [hq, Option.some.injEq] at hr'; exact hr' ▸ htotal
      distributed := fun r' hr' => by rw [hq, Option.some.injEq] at hr'; rw [← hr', hacc, hzero]; simp
      people := fun r' hr' => by rw [hacc]; simp
      finite := hacc ▸ Set.finite_empty
      asked := fun _ => hacc }
  · have hnew' : ∀ a x, ¬ (τ.com answers a = some x ∧ x.questionId = q ∧ x.isAccepted = true) := by
      intro a x hx
      have hmem : a ∈ accepted τ q := ⟨x, hx⟩
      simp [hacc] at hmem
    have hnothing : ¬ Due env σ q u d t i := fun hd => by cases hd <;> simp_all
    rw [hnew, due_iff hq, or_iff_right hnothing]
    simp [hnew', hopen]

/-- an answer that is accepted, with its share -/
theorem Escrow.accept (h : Escrow env σ q) {r : QAQuestion} {x : QAAnswer} {acc : Option ℕ}
    {new : ℕ → PointsLedger → Prop} (hq : σ.com questions q = some r) (hopen : r.status = .isOpen)
    (ha : σ.com answers a = some x) (hx : x.questionId = q) (hnot : x.isAccepted = false)
    (hroom : (accepted σ q).ncard < r.bountyPeople)
    (hq' : τ.com questions q = some { r with
      bountyDistributed := r.bountyDistributed + r.bountyPerPerson, acceptedAnswerId := acc })
    (ha' : τ.com answers a = some { x with isAccepted := true })
    (hans : ∀ m, m ≠ a → τ.com answers m = σ.com answers m)
    (hrows : ∀ n r', About env q r' → (τ.com ledger n = some r' ↔ σ.com ledger n = some r' ∨ new n r'))
    (hnew : ∀ u d t i, (∃ n r', new n r' ∧ Carries u d t i r') ↔
      0 < r.bountyPerPerson ∧ u = x.authorId ∧ d = (r.bountyPerPerson : ℤ) ∧ t = "qa_accept" ∧ i = env.answerRef q a) :
    Escrow env τ q := by
  have hmem : a ∉ accepted σ q := by
    rintro ⟨y, hy, -, hacc⟩
    rw [ha, Option.some.injEq] at hy
    rw [← hy, hnot] at hacc
    simp at hacc
  have hset : accepted τ q = insert a (accepted σ q) := by
    ext m
    by_cases hm : m = a
    · subst hm
      simp only [Set.mem_insert_iff, true_or, iff_true]
      exact ⟨_, ha', hx, rfl⟩
    · simp only [accepted, Set.mem_ofPred_eq, hans m hm, Set.mem_insert_iff, hm, false_or]
  have hcard : (accepted τ q).ncard = (accepted σ q).ncard + 1 := by
    rw [hset, Set.ncard_insert_of_notMem hmem h.finite]
  have hstep := h.rows_step hrows fun u d t i => ?_
  · refine ⟨hstep.1, hstep.2, fun r' hr' => ?_, fun r' hr' => ?_, fun r' hr' => ?_, ?_, fun hn => ?_⟩
    · rw [hq', Option.some.injEq] at hr'
      exact hr' ▸ h.total r hq
    · rw [hq', Option.some.injEq] at hr'
      rw [← hr', hcard, Nat.mul_add, Nat.mul_one]
      exact congrArg (· + r.bountyPerPerson) (h.distributed r hq)
    · rw [hq', Option.some.injEq] at hr'
      rw [← hr', hcard]
      exact hroom
    · rw [hset]
      exact h.finite.insert a
    · rw [hq'] at hn
      simp at hn
  · -- the one answer more that is accepted
    have hmore : ∀ b y, τ.com answers b = some y ∧ y.questionId = q ∧ y.isAccepted = true ↔
        (σ.com answers b = some y ∧ y.questionId = q ∧ y.isAccepted = true) ∨ b = a ∧ y = { x with isAccepted := true } := by
      intro b y
      by_cases hba : b = a
      · subst hba
        have hold : ¬ (σ.com answers b = some y ∧ y.questionId = q ∧ y.isAccepted = true) := fun h => hmem ⟨y, h⟩
        rw [ha', Option.some.injEq, or_iff_right hold]
        exact ⟨fun h => ⟨rfl, h.1.symm⟩, fun h => ⟨h.2.symm, by rw [h.2]; exact hx, by rw [h.2]⟩⟩
      · simp [hans b hba, hba]
    rw [hnew, due_iff hq', due_iff hq]
    simp only [hmore, or_and_right, exists_or, and_assoc, exists_and_left, exists_eq_left]
    simp only [hopen, ne_eq, not_true, false_and, or_false, or_assoc]

/-- a question that is settled, with its refund -/
theorem Escrow.settle (h : Escrow env σ q) {r : QAQuestion} {s : QuestionStatus} {new : ℕ → PointsLedger → Prop}
    (hq : σ.com questions q = some r) (hopen : r.status = .isOpen) (hs : s ≠ .isOpen)
    (hq' : τ.com questions q = some { r with status := s }) (hans : τ.com answers = σ.com answers)
    (hrows : ∀ n r', About env q r' → (τ.com ledger n = some r' ↔ σ.com ledger n = some r' ∨ new n r'))
    (hnew : ∀ u d t i, (∃ n r', new n r' ∧ Carries u d t i r') ↔ r.bountyDistributed < r.bountyTotal ∧
      u = r.authorId ∧ d = (r.bountyTotal : ℤ) - r.bountyDistributed ∧ t = "qa_refund" ∧ i = env.str q) :
    Escrow env τ q := by
  have hacc : accepted τ q = accepted σ q := by simp only [accepted, hans]
  have hstep := h.rows_step hrows fun u d t i => ?_
  · refine ⟨hstep.1, hstep.2, fun r' hr' => ?_, fun r' hr' => ?_, fun r' hr' => ?_, hacc ▸ h.finite,
      fun hn => ?_⟩
    · rw [hq', Option.some.injEq] at hr'
      exact hr' ▸ h.total r hq
    · rw [hq', Option.some.injEq] at hr'
      rw [← hr', hacc]
      exact h.distributed r hq
    · rw [hq', Option.some.injEq] at hr'
      rw [← hr', hacc]
      exact h.people r hq
    · rw [hq'] at hn
      simp at hn
  · rw [hnew, due_iff hq', due_iff hq, hans]
    simp [hopen, hs, or_assoc]

end LkmService.Qa
