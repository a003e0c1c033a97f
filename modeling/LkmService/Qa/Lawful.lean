/-
What a session may rely on while it holds a question, what it may have written, and the discipline of the qa module.

A session that owns a question's row has the question, its answers and the ledger rows about it to itself.
-/
import LkmService.Qa.Invariant

namespace LkmService.Qa

open Session Sql Sql.Discipline Points Tbl

variable {env : Env} {o o' : Held} {σ τ υ : State} {i q q' : ℕ}

/-! ## Holding a question -/

/-- the session owns the question's row -/
def Holds (o : Held) (q : ℕ) : Prop := o.row questions q ≠ none

theorem Holds.sub (hs : o.Sub o') (h : Holds o q) : Holds o' q := hs.row _ _ h

structure QRely (env : Env) (o : Held) (σ τ : State) : Prop where
  answers : ∀ q, Holds o q → ∀ m x, x.questionId = q → (σ.com Tbl.answers m = some x ↔ τ.com Tbl.answers m = some x)
  rows : ∀ q, Holds o q → ∀ n r, About env q r → (σ.com ledger n = some r ↔ τ.com ledger n = some r)

theorem QRely.refl (o : Held) (σ : State) : QRely env o σ σ := ⟨fun _ _ _ _ _ => Iff.rfl, fun _ _ _ _ _ => Iff.rfl⟩

theorem QRely.trans (h : QRely env o σ τ) (h' : QRely env o τ υ) : QRely env o σ υ :=
  ⟨fun q hq m x hx => (h.answers q hq m x hx).trans (h'.answers q hq m x hx),
    fun q hq n r hr => (h.rows q hq n r hr).trans (h'.rows q hq n r hr)⟩

theorem QRely.sub (hs : o.Sub o') (h : QRely env o' σ τ) : QRely env o σ τ :=
  ⟨fun q hq => h.answers q (hq.sub hs), fun q hq => h.rows q (hq.sub hs)⟩

/-- what a session sees of a question that it holds -/
theorem QRely.same (h : QRely env o σ τ) (hcom : ∀ t n, o.row t n ≠ none → τ.com t n = σ.com t n) (hq : Holds o q) :
    SameQuestion env (σ.merge o) (τ.merge o) q := by
  refine ⟨by rw [Snap.merge_com, Snap.merge_com, hcom _ _ hq], fun m x hx => ?_, fun n r hr => ?_⟩
  · rcases ho : o.row Tbl.answers m with _ | v
    · rw [Snap.merge_of_none ho, Snap.merge_of_none ho]
      exact h.answers q hq m x hx
    · rw [Snap.merge_of_some ho, Snap.merge_of_some ho]
  · rcases ho : o.row ledger n with _ | v
    · rw [Snap.merge_of_none ho, Snap.merge_of_none ho]
      exact h.rows q hq n r hr
    · rw [Snap.merge_of_some ho, Snap.merge_of_some ho]

/-! ## What a commit does -/

/-- a question keeps its terms, and once it is no longer open it stays as it is -/
structure Keeps (r r' : QAQuestion) : Prop where
  author : r'.authorId = r.authorId
  people : r'.bountyPeople = r.bountyPeople
  perPerson : r'.bountyPerPerson = r.bountyPerPerson
  total : r'.bountyTotal = r.bountyTotal
  frozen : r.status ≠ .isOpen → r' = r

theorem Keeps.refl (r : QAQuestion) : Keeps r r := ⟨rfl, rfl, rfl, rfl, fun _ => rfl⟩

theorem Keeps.trans {r r' r'' : QAQuestion} (h : Keeps r r') (h' : Keeps r' r'') : Keeps r r'' where
  author := h'.author.trans h.author
  people := h'.people.trans h.people
  perPerson := h'.perPerson.trans h.perPerson
  total := h'.total.trans h.total
  frozen hr := by
    have he := h.frozen hr
    subst he
    exact h'.frozen hr

/-- an answer stays with its question and author, and stays accepted -/
structure Stays (x x' : QAAnswer) : Prop where
  question : x'.questionId = x.questionId
  author : x'.authorId = x.authorId
  accepted : x.isAccepted = true → x'.isAccepted = true

theorem Stays.refl (x : QAAnswer) : Stays x x := ⟨rfl, rfl, id⟩

theorem Stays.trans {x x' x'' : QAAnswer} (h : Stays x x') (h' : Stays x' x'') : Stays x x'' :=
  ⟨h'.question.trans h.question, h'.author.trans h.author, fun ha => h'.accepted (h.accepted ha)⟩

structure QAct (σ τ : State) : Prop where
  questions : ∀ q r, σ.com Tbl.questions q = some r → ∃ r', τ.com Tbl.questions q = some r' ∧ Keeps r r'
  answers : ∀ m x, σ.com Tbl.answers m = some x → ∃ x', τ.com Tbl.answers m = some x' ∧ Stays x x'
  /-- no answer of a question that is no longer open is accepted -/
  closed : ∀ q r m x, σ.com Tbl.questions q = some r → r.status ≠ .isOpen → τ.com Tbl.answers m = some x →
    x.questionId = q → x.isAccepted = true → ∃ x', σ.com Tbl.answers m = some x' ∧ x'.questionId = q ∧ x'.isAccepted = true
  ledger : ∀ n r, σ.com Tbl.ledger n = some r → τ.com Tbl.ledger n = some r

theorem QAct.refl (σ : State) : QAct σ σ :=
  ⟨fun _ r h => ⟨r, h, Keeps.refl r⟩, fun _ x h => ⟨x, h, Stays.refl x⟩, fun _ _ _ x _ _ hx hq ha => ⟨x, hx, hq, ha⟩,
    fun _ _ h => h⟩

theorem QAct.trans (h : QAct σ τ) (h' : QAct τ υ) : QAct σ υ where
  questions q r hq := by
    obtain ⟨r₁, hq₁, hk₁⟩ := h.questions q r hq
    obtain ⟨r₂, hq₂, hk₂⟩ := h'.questions q r₁ hq₁
    exact ⟨r₂, hq₂, hk₁.trans hk₂⟩
  answers m x hm := by
    obtain ⟨x₁, hm₁, hs₁⟩ := h.answers m x hm
    obtain ⟨x₂, hm₂, hs₂⟩ := h'.answers m x₁ hm₁
    exact ⟨x₂, hm₂, hs₁.trans hs₂⟩
  closed q r m x hq hr hm hx ha := by
    obtain ⟨r₁, hq₁, hk₁⟩ := h.questions q r hq
    have he := hk₁.frozen hr
    subst he
    obtain ⟨x', hm', hx', ha'⟩ := h'.closed q r₁ m x hq₁ hr hm hx ha
    exact h.closed q r₁ m x' hq hr hm' hx' ha'
  ledger n r hn := h'.ledger n r (h.ledger n r hn)

/-! ## Lawful writes -/

structure QaLawful (env : Env) (o : Held) (σ : State) : Prop where
  escrow : ∀ q, Escrow env (σ.merge o) q
  ledger_row : ∀ n r q, o.row ledger n = some (some r) → About env q r → Holds o q
  question_row : ∀ q v, o.row questions q = some v →
    ∃ r, v = some r ∧ ∀ r₀, σ.com questions q = some r₀ → Keeps r₀ r
  answer_row : ∀ m v, o.row answers m = some v → ∃ x, v = some x ∧ Holds o x.questionId ∧
    ∀ x₀, σ.com answers m = some x₀ → Stays x₀ x
  closed_row : ∀ m x r₀, o.row answers m = some (some x) → x.isAccepted = true →
    σ.com questions x.questionId = some r₀ → r₀.status ≠ .isOpen → σ.com answers m = some x

/-- the ledger rows of a session are new -/
def NewRows (o : Held) (σ : State) : Prop := ∀ n v, o.row ledger n = some v → σ.com ledger n = none ∧ v ≠ none

theorem newRows (h : Lawful True o σ) : NewRows o σ := by
  intro n v hv
  obtain ⟨hc, r, hr, -⟩ := h.ledger_row n v hv
  exact ⟨hc, by simp [hr]⟩

theorem QaLawful.empty (h : ∀ q, Escrow env σ q) : QaLawful env {} σ where
  escrow := h
  ledger_row n r q hn := by simp at hn
  question_row q v hv := by simp at hv
  answer_row m v hv := by simp at hv
  closed_row m x r hm := by simp at hm

section

variable (h : QaLawful env o σ) (hn : NewRows o σ)

include h hn

/-- what a session sees of a question that it does not hold is what is committed -/
theorem QaLawful.unheld (hq : ¬ Holds o q) : SameQuestion env σ (σ.merge o) q where
  question := Snap.merge_of_none (not_not.1 hq) σ
  answers m x hx := by
    rcases ho : o.row answers m with _ | v
    · rw [Snap.merge_of_none ho]
    · obtain ⟨y, rfl, hy, hstay⟩ := h.answer_row m v ho
      rw [Snap.merge_of_some ho]
      refine ⟨fun hm => ?_, fun hm => ?_⟩
      · exact absurd ((hstay x hm).question.trans hx ▸ hy) hq
      · rw [Option.some.injEq] at hm
        exact absurd (hx ▸ hm ▸ hy) hq
  rows n r hr := by
    rcases ho : o.row ledger n with _ | v
    · rw [Snap.merge_of_none ho]
    · rw [Snap.merge_of_some ho, (hn n v ho).1]
      refine ⟨fun hx => by simp at hx, fun hx => ?_⟩
      subst hx
      exact absurd (h.ledger_row n r q ho hr) hq

/-- what a session has written stays lawful while the others move -/
theorem QaLawful.later (hτ : ∀ q, Escrow env τ q) (hr : QRely env o σ τ)
    (hcom : ∀ t n, o.row t n ≠ none → τ.com t n = σ.com t n) : QaLawful env o τ := by
  have hcom' : ∀ t n v, o.row t n = some v → τ.com t n = σ.com t n := fun t n v hv => hcom t n (by simp [hv])
  have hlaw : ∀ hesc : (∀ q, Escrow env (τ.merge o) q), QaLawful env o τ := by
    intro hesc
    refine ⟨hesc, h.ledger_row, fun q v hv => ?_, fun m v hv => ?_, fun m x r₀ hm hacc hq hover => ?_⟩
    · rw [hcom' _ _ _ hv]
      exact h.question_row q v hv
    · rw [hcom' _ _ _ hv]
      exact h.answer_row m v hv
    · obtain ⟨y, hy, hheld, -⟩ := h.answer_row m _ hm
      rw [Option.some.injEq] at hy
      subst hy
      rw [hcom _ _ hheld] at hq
      rw [hcom' _ _ _ hm]
      exact h.closed_row m x r₀ hm hacc hq hover
  refine hlaw fun q => ?_
  by_cases hq : Holds o q
  · -- a held question: neither its committed part nor the session's writes change
    exact (h.escrow q).congr (hr.same hcom hq).agrees
  · refine (hτ q).congr (SameQuestion.agrees ⟨Snap.merge_of_none (not_not.1 hq) τ, fun m x hx => ?_, fun n r hr' => ?_⟩)
    · rcases ho : o.row answers m with _ | v
      · rw [Snap.merge_of_none ho]
      · rw [Snap.merge_com, hcom' _ _ _ ho, ← Snap.merge_com]
        exact (h.unheld hn hq).answers m x hx
    · rcases ho : o.row ledger n with _ | v
      · rw [Snap.merge_of_none ho]
      · rw [Snap.merge_com, hcom' _ _ _ ho, ← Snap.merge_com]
        exact (h.unheld hn hq).rows n r hr'

/-- what a commit owes to a session that shares no row with it -/
theorem QaLawful.rely (hd : o'.Disjoint o) : QRely env o' σ (σ.merge o) where
  answers _ hq m x hx := (h.unheld hn fun ho => ho (hd.row _ _ hq)).answers m x hx
  rows _ hq n r hr := (h.unheld hn fun ho => ho (hd.row _ _ hq)).rows n r hr

theorem QaLawful.act : QAct σ (σ.merge o) where
  questions q r hq := by
    rcases ho : o.row questions q with _ | v
    · exact ⟨r, (Snap.merge_of_none ho σ).trans hq, Keeps.refl r⟩
    · obtain ⟨r', rfl, hk⟩ := h.question_row q v ho
      exact ⟨r', Snap.merge_of_some ho σ, hk r hq⟩
  answers m x hm := by
    rcases ho : o.row answers m with _ | v
    · exact ⟨x, (Snap.merge_of_none ho σ).trans hm, Stays.refl x⟩
    · obtain ⟨x', rfl, -, hs⟩ := h.answer_row m v ho
      exact ⟨x', Snap.merge_of_some ho σ, hs x hm⟩
  closed q r m x hq hover hm hx hacc := by
    rcases Snap.merge_cases hm with ho | ⟨-, hc⟩
    · exact ⟨x, h.closed_row m x r ho hacc (hx ▸ hq) hover, hx, hacc⟩
    · exact ⟨x, hc, hx, hacc⟩
  ledger n r hr := by
    rcases ho : o.row ledger n with _ | v
    · rwa [Snap.merge_of_none ho]
    · rw [(hn n v ho).1] at hr
      simp at hr

end

theorem QaLawful.bump (h : QaLawful env o σ) (t : Tbl) (n : ℕ) : QaLawful env o (σ.bump t n) where
  escrow q := (h.escrow q).congr ⟨rfl, fun _ _ _ _ => Iff.rfl, fun _ _ _ => Iff.rfl⟩
  ledger_row := h.ledger_row
  question_row := h.question_row
  answer_row := h.answer_row
  closed_row := h.closed_row

/-! ## Steps on one question -/

/-- the ledger rows that the session has added -/
structure Adds (o o' : Held) (σ : State) (new : ℕ → PointsLedger → Prop) : Prop where
  rows : ∀ n r, (σ.merge o').com ledger n = some r ↔ (σ.merge o).com ledger n = some r ∨ new n r
  own : ∀ n v, o'.row ledger n = some v → o.row ledger n = some v ∨ ∃ r, v = some r ∧ new n r

theorem Adds.nothing (h : o'.row ledger = o.row ledger) : Adds o o' σ fun _ _ => False :=
  ⟨fun n r => by rw [Snap.merge_com, Snap.merge_com, h]; simp, fun n v hv => Or.inl (h ▸ hv)⟩

theorem Adds.row {n : ℕ} {r : PointsLedger} (hf : o.row ledger n = none ∧ σ.com ledger n = none)
    (hr : ∀ m, o'.row ledger m = if m = n then some (some r) else o.row ledger m) :
    Adds o o' σ fun m r' => m = n ∧ r' = r := by
  refine ⟨fun m r' => ?_, fun m v hv => ?_⟩
  · rw [Snap.merge_com, Snap.merge_com, hr]
    split_ifs with hm
    · subst hm
      simp [hf.1, hf.2, eq_comm]
    · simp [hm]
  · rw [hr] at hv
    split_ifs at hv with hm
    · rw [Option.some.injEq] at hv
      exact Or.inr ⟨r, hv.symm, hm, rfl⟩
    · exact Or.inl hv

/-- writes on a question that the session holds, its answers and the ledger rows about it -/
theorem QaLawful.step (h : QaLawful env o σ) {new : ℕ → PointsLedger → Prop} (hadd : Adds o o' σ new)
    (hnew : ∀ n r, new n r → ∀ q', About env q' r → q' = q)
    (hques : ∀ q', q' ≠ q → o'.row questions q' = o.row questions q')
    (hqrow : ∃ r', o'.row questions q = some (some r') ∧ ∀ r₀, σ.com questions q = some r₀ → Keeps r₀ r')
    (hans : ∀ m, o'.row answers m = o.row answers m ∨ ∃ x', o'.row answers m = some (some x') ∧ x'.questionId = q ∧
      (∀ x, (σ.merge o).com answers m = some x → x.questionId = q) ∧
      (∀ x₀, σ.com answers m = some x₀ → Stays x₀ x') ∧
      (x'.isAccepted = true → ∀ r₀, σ.com questions q = some r₀ → r₀.status = .isOpen))
    (hesc : Escrow env (σ.merge o') q) : QaLawful env o' σ := by
  obtain ⟨r', hr', hkeep⟩ := hqrow
  have hheld : ∀ q', Holds o q' ∨ q' = q → Holds o' q' := by
    intro q' hq'
    by_cases he : q' = q
    · subst he
      simp [Holds, hr']
    · rw [Holds, hques q' he]
      exact hq'.resolve_right he
  refine ⟨fun q' => ?_, fun n r q' hn hr => ?_, fun q' v hv => ?_, fun m v hv => ?_, fun m x r₀ hm hacc hq hover => ?_⟩
  · by_cases he : q' = q
    · exact he ▸ hesc
    · refine (h.escrow q').congr ⟨?_, fun m x hx _ => ?_, fun n r hr => ?_⟩
      · rw [Snap.merge_com, Snap.merge_com, hques q' he]
      · rcases hans m with hm | ⟨x', hm, hx', hold, -, -⟩
        · rw [Snap.merge_com, Snap.merge_com, hm]
        · refine ⟨fun hmx => absurd ((hold x hmx).symm.trans hx).symm he, fun hmx => ?_⟩
          rw [Snap.merge_of_some hm, Option.some.injEq] at hmx
          exact absurd ((hx.symm.trans (hmx ▸ rfl)).trans hx') he
      · rw [hadd.rows]
        exact ⟨Or.inl, fun hnr => hnr.resolve_right fun hn => he (hnew n r hn q' hr)⟩
  · rcases hadd.own n _ hn with ho | ⟨r₁, hr₁, hn₁⟩
    · exact hheld q' (Or.inl (h.ledger_row n r q' ho hr))
    · rw [Option.some.injEq] at hr₁
      subst hr₁
      exact hheld q' (Or.inr (hnew n r hn₁ q' hr))
  · by_cases he : q' = q
    · subst he
      rw [hr', Option.some.injEq] at hv
      exact ⟨r', hv.symm, hkeep⟩
    · rw [hques q' he] at hv
      exact h.question_row q' v hv
  · rcases hans m with hm | ⟨x', hm, hx', -, hstay, -⟩
    · rw [hm] at hv
      obtain ⟨x, hx, hh, hs⟩ := h.answer_row m v hv
      exact ⟨x, hx, hheld _ (Or.inl hh), hs⟩
    · rw [hm, Option.some.injEq] at hv
      exact ⟨x', hv.symm, hheld _ (Or.inr hx'), hstay⟩
  · rcases hans m with hm' | ⟨x', hm', hx', -, -, hopen⟩
    · rw [hm'] at hm
      exact h.closed_row m x r₀ hm hacc hq hover
    · rw [hm', Option.some.injEq, Option.some.injEq] at hm
      subst hm
      exact absurd (hopen hacc r₀ (hx' ▸ hq)) hover

/-- ledger rows that are about no question -/
theorem QaLawful.grant (h : QaLawful env o σ) {new : ℕ → PointsLedger → Prop} (hadd : Adds o o' σ new)
    (hnew : ∀ n r, new n r → ∀ q, ¬ About env q r) (hques : o'.row questions = o.row questions)
    (hans : o'.row answers = o.row answers) : QaLawful env o' σ := by
  have hheld : ∀ q, Holds o' q ↔ Holds o q := fun q => by rw [Holds, Holds, hques]
  refine ⟨fun q => ?_, fun n r q hn hr => ?_, fun q v hv => h.question_row q v (hques ▸ hv), fun m v hv => ?_,
    fun m x r₀ hm => h.closed_row m x r₀ (hans ▸ hm)⟩
  · refine (h.escrow q).congr ⟨?_, fun m x _ _ => ?_, fun n r hr => ?_⟩
    · rw [Snap.merge_com, Snap.merge_com, hques]
    · rw [Snap.merge_com, Snap.merge_com, hans]
    · rw [hadd.rows]
      exact ⟨Or.inl, fun hnr => hnr.resolve_right fun hn => hnew n r hn q hr⟩
  · rcases hadd.own n _ hn with ho | ⟨r₁, hr₁, hn₁⟩
    · exact (hheld q).2 (h.ledger_row n r q ho hr)
    · rw [Option.some.injEq] at hr₁
      subst hr₁
      exact absurd hr (hnew n r hn₁ q)
  · rw [hans] at hv
    obtain ⟨x, hx, hh, hs⟩ := h.answer_row m v hv
    exact ⟨x, hx, (hheld _).2 hh, hs⟩

/-! ## The discipline -/

theorem agrees_bump (t : Tbl) (n : ℕ) : Agrees env σ (σ.bump t n) q :=
  ⟨rfl, fun _ _ _ _ => Iff.rfl, fun _ _ _ => Iff.rfl⟩

def discipline (env : Env) : Discipline Row Index Fx Unit where
  inv σ := Inv True σ ∧ ∀ q, Escrow env σ q
  rely _ o σ τ := Rely o σ τ ∧ QRely env o σ τ
  act _ := QAct
  ok _ _ _ _ := True
  rely_refl _ o σ := ⟨Rely.refl o σ, QRely.refl o σ⟩
  rely_trans _ _ _ _ _ h h' := ⟨h.1.trans h'.1, h.2.trans h'.2⟩
  act_refl _ σ _ := QAct.refl σ
  grow_inv _ t n h := ⟨h.1.bump t n, fun q => (h.2 q).congr (agrees_bump t n)⟩
  grow_act _ σ _ _ _ := { QAct.refl σ with }
  grow_rely _ o σ t n _ := ⟨Rely.bump o σ t n, { QRely.refl o σ with }⟩

instance : Lockless (discipline env) := ⟨fun _ _ _ => trivial⟩

theorem covers : Covers (discipline env) True := ⟨And.left, And.left, fun hs h => ⟨h.1.sub hs, h.2.sub hs⟩⟩

/-- where a transaction of the module may be between two calls -/
structure Fit (env : Env) (o : Held) (σ : State) : Prop where
  ready : Ready (discipline env) True o σ
  qa : QaLawful env o σ

theorem Fit.later (h : Fit env o σ) (hl : (discipline env).Later i o σ τ) : Fit env o τ :=
  ⟨h.ready.later covers hl, h.qa.later (newRows h.ready.lawful) hl.inv.2 hl.rely.2 hl.com⟩

theorem Fit.same (h : (discipline env).Later i o σ τ) (hq : Holds o q) : SameQuestion env (σ.merge o) (τ.merge o) q :=
  h.rely.2.same h.com hq

/-- a commit between two calls keeps the discipline -/
theorem Fit.good (h : Fit env o σ) : (discipline env).Good i o σ (σ.merge o) :=
  ⟨⟨h.ready.lawful.inv h.ready.inv.1, h.qa.escrow⟩, h.qa.act (newRows h.ready.lawful),
    fun _ _ _ hd => ⟨h.ready.lawful.rely h.ready.inv.1 hd, h.qa.rely (newRows h.ready.lawful) hd⟩⟩

end LkmService.Qa
