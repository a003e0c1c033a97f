/-
Unique indexes of a store whose rows are inserted with `insertUnique` and never change their entry.

- `index t r`: the entry of a row in the unique index of its table, if the table has one.
- `Unique σ`: no two committed rows have the same entry.
- `Entries o σ`: what a session owns keeps it so. No two rows that it sees have the same entry, and it holds the entry of
  every row it has written unless the row was committed with that entry.
- `Apart o σ τ`: while a session holds an entry, the others commit no new row with it.
- `Entries.merge`, `Entries.apart`: what a commit owes. `Entries.insert`, `Entries.update`, `Entries.delete`,
  `Entries.later`: what the statements and the steps of the others leave of `Entries`.
-/
import LkmService.Lib.Discipline

namespace LkmService.Sql

set_option linter.unusedSectionVars false

variable {T : Type} [DecidableEq T] {Row : T → Type} {K : Type} [DecidableEq K] {X : Type}

/-! ## Entries -/

/-- no two committed rows of a table have the same entry -/
def Unique (index : (t : T) → Row t → Option K) (σ : Snap Row X) : Prop :=
  ∀ t n m r r' k, σ.com t n = some r → σ.com t m = some r' → index t r = some k → index t r' = some k → n = m

/-- a committed row `n` has the entry -/
def Filed (index : (t : T) → Row t → Option K) (σ : Snap Row X) (t : T) (n : ℕ) (k : K) : Prop :=
  ∃ r, σ.com t n = some r ∧ index t r = some k

structure Entries (index : (t : T) → Row t → Option K) (o : Own Row K) (σ : Snap Row X) : Prop where
  held : ∀ t n r k, o.row t n = some (some r) → index t r = some k → Filed index σ t n k ∨ o.key k
  sight : Unique index (σ.merge o)

/-- no row with an entry that the session holds is committed anew -/
def Apart (index : (t : T) → Row t → Option K) (o : Own Row K) (σ τ : Snap Row X) : Prop :=
  ∀ k, o.key k → ∀ t n, Filed index τ t n k → Filed index σ t n k

variable {index : (t : T) → Row t → Option K} {o o' : Own Row K} {σ τ υ : Snap Row X} {t : T} {n : ℕ}

theorem Apart.refl (o : Own Row K) (σ : Snap Row X) : Apart index o σ σ := fun _ _ _ _ h => h

theorem Apart.trans (h : Apart index o σ τ) (h' : Apart index o τ υ) : Apart index o σ υ :=
  fun k hk t n hf => h k hk t n (h' k hk t n hf)

theorem Unique.filed (hu : Unique index σ) {m : ℕ} {k : K} (h : Filed index σ t n k) (h' : Filed index σ t m k) :
    n = m := by
  obtain ⟨r, hr, hk⟩ := h
  obtain ⟨r', hr', hk'⟩ := h'
  exact hu t n m r r' k hr hr' hk hk'

theorem Entries.empty (hu : Unique index σ) : Entries index ({} : Own Row K) σ where
  held _ _ _ _ h := by simp at h
  sight := by rwa [Snap.merge_empty]

/-- what the others commit leaves the entries of a session alone -/
theorem Entries.later (h : Entries index o σ) (hu : Unique index τ)
    (hcom : ∀ t n, o.row t n ≠ none → τ.com t n = σ.com t n) (ha : Apart index o σ τ) : Entries index o τ := by
  have hheld : ∀ t n r k, o.row t n = some (some r) → index t r = some k → Filed index τ t n k ∨ o.key k := by
    intro t n r k hr hk
    refine (h.held t n r k hr hk).imp ?_ id
    intro ⟨r', hr', hk'⟩
    exact ⟨r', (hcom t n (by simp [hr])).trans hr', hk'⟩
  -- a row that the session has written, and one that it has not
  have hmixed : ∀ t n m r r' k, o.row t n = some (some r) → o.row t m = none → τ.com t m = some r' →
      index t r = some k → index t r' = some k → n = m := by
    intro t n m r r' k hr hm hr' hk hk'
    rcases hheld t n r k hr hk with hfiled | hkey
    · exact hu.filed hfiled ⟨r', hr', hk'⟩
    · obtain ⟨r₀, hr₀, hk₀⟩ := ha k hkey t m ⟨r', hr', hk'⟩
      exact h.sight t n m r r₀ k (Snap.merge_of_some hr σ) ((Snap.merge_of_none hm σ).trans hr₀) hk hk₀
  refine ⟨hheld, ?_⟩
  intro t n m r r' k hr hr' hk hk'
  rcases Snap.merge_cases hr with hn | ⟨hn, hr⟩ <;> rcases Snap.merge_cases hr' with hm | ⟨hm, hr'⟩
  · exact h.sight t n m r r' k (Snap.merge_of_some hn σ) (Snap.merge_of_some hm σ) hk hk'
  · exact hmixed t n m r r' k hn hm hr' hk hk'
  · exact (hmixed t m n r' r k hm hn hr hk' hk).symm
  · exact hu t n m r r' k hr hr' hk hk'

/-! ## What the session writes -/

/-- the rows that the session sees after it has written one -/
theorem sight_put {v : Option (Row t)} {t' : T} {m : ℕ} {r : Row t'} (h : (σ.merge (o.put t n v)).com t' m = some r) :
    (∃ ht : t' = t, m = n ∧ v = some (ht ▸ r)) ∨ (σ.merge o).com t' m = some r ∧ ¬ (t' = t ∧ m = n) := by
  by_cases heq : t' = t ∧ m = n
  · obtain ⟨rfl, rfl⟩ := heq
    rw [Snap.merge_com, Own.put_row_self] at h
    exact .inl ⟨rfl, rfl, h⟩
  · rw [Snap.merge_com, Own.put_row_of_ne _ _ _ fun ht hm => heq ⟨ht, hm⟩] at h
    exact .inr ⟨h, heq⟩

/-- one row gets an entry that no other row in sight has -/
theorem Unique.put {v : Option (Row t)} (hs : Unique index (σ.merge o))
    (hv : ∀ r k, v = some r → index t r = some k → ∀ m r', m ≠ n → (σ.merge o).com t m = some r' → index t r' ≠ some k) :
    Unique index (σ.merge (o.put t n v)) := by
  intro t' m l r r' k hr hr' hk hk'
  rcases sight_put hr with ⟨rfl, rfl, hv₁⟩ | ⟨hold, -⟩ <;> rcases sight_put hr' with ⟨ht, rfl, hv₂⟩ | ⟨hold', -⟩
  · rfl
  · by_contra hml
    exact hv r k hv₁ hk l r' (fun hl => hml hl.symm) hold' hk'
  · subst ht
    by_contra hml
    exact hv r' k hv₂ hk' m r hml hold hk
  · exact hs t' m l r r' k hold hold' hk hk'

/-- a new row with an entry that no row in sight has -/
theorem Entries.insert {r : Row t} {k : K} (h : Entries index o σ) (hk : index t r = some k)
    (hno : ∀ m r', o.view σ t m = some r' → index t r' ≠ some k) (n : ℕ) :
    Entries index ((o.put t n (some r)).take k) (σ.bump t n) where
  held := by
    intro t' m r' k' hr' hk'
    rw [Own.take_row] at hr'
    by_cases heq : t' = t ∧ m = n
    · obtain ⟨rfl, rfl⟩ := heq
      rw [Own.put_row_self, Option.some.injEq, Option.some.injEq] at hr'
      subst hr'
      exact .inr (.inl (Option.some.inj (hk'.symm.trans hk)))
    · rw [Own.put_row_of_ne _ _ _ fun ht hm => heq ⟨ht, hm⟩] at hr'
      exact (h.held t' m r' k' hr' hk').imp id .inr
  sight := by
    refine Unique.put (σ := σ) h.sight ?_
    intro r₀ k₀ hr₀ hk₀ m r' _ hr' hk'
    obtain rfl := Option.some.inj hr₀
    obtain rfl := Option.some.inj (hk₀.symm.trans hk)
    exact hno m r' hr' hk'

/-- a row in sight is written again, with the same entry -/
theorem Entries.update {r r' : Row t} (h : Entries index o σ) (hv : o.view σ t n = some r)
    (hk : index t r' = index t r) : Entries index (o.put t n (some r')) σ where
  held := by
    intro t' m r₁ k hr₁ hk₁
    by_cases heq : t' = t ∧ m = n
    · obtain ⟨rfl, rfl⟩ := heq
      rw [Own.put_row_self, Option.some.injEq, Option.some.injEq] at hr₁
      subst hr₁
      rw [hk] at hk₁
      rcases Snap.merge_cases hv with ho | ⟨-, hc⟩
      · exact h.held t' m r k ho hk₁
      · exact .inl ⟨r, hc, hk₁⟩
    · rw [Own.put_row_of_ne _ _ _ fun ht hm => heq ⟨ht, hm⟩] at hr₁
      exact h.held t' m r₁ k hr₁ hk₁
  sight := by
    refine Unique.put h.sight ?_
    intro r₀ k hr₀ hk₀ m r₁ hm hr₁ hk₁
    obtain rfl := Option.some.inj hr₀
    exact hm (h.sight t m n r₁ r k hr₁ hv hk₁ (hk ▸ hk₀))

/-- an insert that gives way to a row with the same entry -/
theorem Discipline.wp_insertEntry {Fx : Type → Type} [Effects Fx X] {D : Discipline Row K Fx X} {ε : Type} {i : ℕ}
    {r : Row t} {k : K} [∀ r' : Row t, Decidable (index t r' = some k)]
    {Q : Except ε (Option ℕ) → Own Row K → Snap Row X → Prop}
    (hmiss : ∀ τ, D.Later i o σ τ → ∀ m, Filed index (τ.merge o) t m k → Q (.ok none) o τ)
    (hhit : ∀ τ, D.Later i o σ τ → (∀ m r', o.view τ t m = some r' → index t r' ≠ some k) →
      Q (.ok (some (τ.next t))) ((o.put t (τ.next t) (some r)).take k) (τ.bump t (τ.next t))) :
    D.wp i (insertUnique t k (fun r' => index t r' = some k) r : Session.Prog (Stmt Row K Fx) ε _) Q o σ := by
  refine wp_insertUnique ?_ ?_
  · intro τ m r' hl hv hclash
    exact hmiss τ hl m ⟨r', hv, of_decide_eq_true hclash⟩
  · intro τ hl hno
    exact hhit τ hl fun m r' hv => of_decide_eq_false (hno m r' hv)

/-! ## What a commit owes -/

theorem Entries.merge (h : Entries index o σ) : Unique index (σ.merge o) := h.sight

theorem Entries.apart (h : Entries index o σ) (hd : o'.Disjoint o) : Apart index o' σ (σ.merge o) := by
  intro k hk t n ⟨r, hr, hkr⟩
  rcases Snap.merge_cases hr with ho | ⟨-, hc⟩
  · rcases h.held t n r k ho hkr with hfiled | hkey
    · exact hfiled
    · exact absurd hkey (hd.key k hk)
  · exact ⟨r, hc, hkr⟩

end LkmService.Sql
