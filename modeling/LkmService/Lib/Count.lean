/-
Counting the rows of a table: lists of numbered rows, the sets of their numbers, and counters that are stored beside
the rows that they count.

- `Snap.Counts`: a stored counter is the number of rows that belong to it. `Counts.keep` and `Counts.move` say what a
  change of the committed state does to it.
- `Own.Nothing`, `Own.Just`, `Own.Pinned`: what a session with few rows would commit, table by table.
-/
import Mathlib.Data.Set.Card
import LkmService.Lib.Discipline

namespace LkmService.Sql

set_option linter.unusedSectionVars false

/-! ## Lists of rows -/

/-- a list of rows in insertion order has as many rows as numbers -/
theorem length_eq_ncard {β : Type} {l : List (ℕ × β)} (hs : l.Pairwise fun a b => a.1 < b.1) {s : Set ℕ}
    (hmem : ∀ m, m ∈ s ↔ ∃ y, (m, y) ∈ l) : l.length = s.ncard := by
  have hnodup := nodup_numbers hs
  have hset : s = ((l.map Prod.fst).toFinset : Set ℕ) := by
    ext m
    simp [hmem]
  rw [hset, Set.ncard_coe_finset, List.toFinset_card_of_nodup hnodup, List.length_map]

/-- the rows that meet a condition -/
theorem countP_eq_ncard {β : Type} {l : List (ℕ × β)} (hs : l.Pairwise fun a b => a.1 < b.1) (p : ℕ × β → Bool)
    {s : Set ℕ} (hmem : ∀ m, m ∈ s ↔ ∃ y, (m, y) ∈ l ∧ p (m, y) = true) : l.countP p = s.ncard := by
  rw [List.countP_eq_length_filter]
  refine length_eq_ncard (hs.filter _) fun m => ?_
  simp only [hmem, List.mem_filter]

/-- the counts of several values, each named once, add up -/
theorem sum_countP {α β : Type} [DecidableEq β] (f : α → β) {ns : List β} (h : ns.Nodup) (l : List α) :
    (ns.map fun n => l.countP fun a => decide (f a = n)).sum = l.countP fun a => decide (f a ∈ ns) := by
  induction ns with
  | nil => simp
  | cons n ns ih =>
    obtain ⟨hnot, hnodup⟩ := List.nodup_cons.1 h
    rw [List.map_cons, List.sum_cons, ih hnodup]
    clear ih h
    induction l with
    | nil => rfl
    | cons a l ih =>
      simp only [List.countP_cons, List.mem_cons] at ih ⊢
      by_cases ha : f a = n
      · simp only [ha, hnot, decide_true, decide_false, true_or, if_true] at ih ⊢
        simp only [Bool.false_eq_true, if_false]
        omega
      · simp only [ha, decide_false, false_or] at ih ⊢
        simp only [Bool.false_eq_true, if_false]
        omega

/-- whether a row that belongs to `n`, if any, belongs to `n'` -/
theorem any_beq {R : Type} {g : R → ℕ} {n : ℕ} {w : Option R} (h : ∀ x, w = some x → g x = n) (n' : ℕ) :
    w.any (fun x => g x == n') = (w.isSome && n == n') := by
  rcases w with _ | x
  · rfl
  · simp [h x rfl]

/-! ## Stored counters -/

namespace Snap

variable {T : Type} {Row : T → Type} {K X : Type} {σ τ : Snap Row X} {b t : T}

/-- the numbers of the committed rows that meet a condition -/
def matching (σ : Snap Row X) (t : T) (p : Row t → Bool) : Set ℕ := {m | (σ.com t m).any p = true}

theorem matching_finite {o : Own Row K} (h : σ.Fresh o) (p : Row t → Bool) : (σ.matching t p).Finite := by
  refine (Set.finite_lt_nat (σ.next t)).subset fun m hm => ?_
  by_contra hn
  have hnone : σ.com t m = none := (h t m (not_lt.1 hn)).1
  simp [matching, hnone] at hm

/-- the row `m` apart, and the rest -/
theorem ncard_matching_split {p : Row t → Bool} (hf : (σ.matching t p).Finite) (m : ℕ) :
    (σ.matching t p).ncard = (σ.matching t p \ {m}).ncard + ((σ.com t m).any p).toNat := by
  rcases h : (σ.com t m).any p
  · have hnot : m ∉ σ.matching t p := by simp [matching, h]
    rw [Set.sdiff_singleton_eq_self hnot]
    rfl
  · exact (Set.ncard_sdiff_singleton_add_one (by simpa [matching] using h) hf).symm

/-- one row is written: the number changes by what the row counts for before and after -/
theorem ncard_matching {p : Row t → Bool} (hf : (σ.matching t p).Finite) {m : ℕ}
    (h : ∀ m', m' ≠ m → τ.com t m' = σ.com t m') :
    (τ.matching t p).ncard + ((σ.com t m).any p).toNat = (σ.matching t p).ncard + ((τ.com t m).any p).toNat := by
  have hrest : τ.matching t p \ {m} = σ.matching t p \ {m} := by
    ext m'
    simp only [matching, Set.mem_sdiff, Set.mem_ofPred_eq, Set.mem_singleton_iff]
    refine and_congr_left fun hm' => ?_
    rw [h m' hm']
  have hfτ : (τ.matching t p).Finite := by
    refine (hf.union (Set.finite_singleton m)).subset fun m' hm' => ?_
    by_cases heq : m' = m
    · exact Or.inr heq
    · exact Or.inl (hrest ▸ Set.mem_sdiff_of_mem hm' heq : m' ∈ σ.matching t p \ {m}).1
  rw [ncard_matching_split hf m, ncard_matching_split hfτ m, hrest]
  omega

/-- the counter `f` of every row of `b` is the number of the rows of `t` that belong to it -/
def Counts (σ : Snap Row X) (b t : T) (f : Row b → ℕ) (p : ℕ → Row t → Bool) : Prop :=
  ∀ n r, σ.com b n = some r → f r = (σ.matching t (p n)).ncard

variable {f : Row b → ℕ} {p : ℕ → Row t → Bool}

/-- neither the counters change nor where the rows belong -/
theorem Counts.keep (h : σ.Counts b t f p)
    (hb : ∀ n r', τ.com b n = some r' → ∃ r, σ.com b n = some r ∧ f r' = f r)
    (ht : ∀ m n, (τ.com t m).any (p n) = (σ.com t m).any (p n)) : τ.Counts b t f p := by
  intro n r' hr'
  obtain ⟨r, hr, hf⟩ := hb n r' hr'
  have hset : τ.matching t (p n) = σ.matching t (p n) := by
    ext m
    simp only [matching, Set.mem_ofPred_eq, ht]
  rw [hf, h n r hr, hset]

/-- row `m` is written together with the counter of the one row `n` that it belongs to, before or after -/
theorem Counts.move {o : Own Row K} (h : σ.Counts b t f p) (hfresh : σ.Fresh o) {n m : ℕ} {r r' : Row b}
    (hr : σ.com b n = some r) (hr' : τ.com b n = some r')
    (hb : ∀ n', n' ≠ n → τ.com b n' = σ.com b n') (ht : ∀ m', m' ≠ m → τ.com t m' = σ.com t m')
    (hother : ∀ n', n' ≠ n → (τ.com t m).any (p n') = (σ.com t m).any (p n'))
    (hmove : f r' + ((σ.com t m).any (p n)).toNat = f r + ((τ.com t m).any (p n)).toNat) : τ.Counts b t f p := by
  intro n' r'' hr''
  have hcard := ncard_matching (matching_finite hfresh (p n')) ht
  by_cases hn : n' = n
  · subst hn
    rw [hr', Option.some.injEq] at hr''
    subst hr''
    have := h n' r hr
    omega
  · rw [hb n' hn] at hr''
    rw [hother n' hn] at hcard
    have := h n' r'' hr''
    omega

/-- a counter of which one row counts is positive -/
theorem Counts.pos {o : Own Row K} (h : σ.Counts b t f p) (hfresh : σ.Fresh o) {n m : ℕ} {r : Row b}
    (hr : σ.com b n = some r) (hm : (σ.com t m).any (p n) = true) : 0 < f r := by
  rw [h n r hr]
  exact (Set.ncard_pos (matching_finite hfresh (p n))).2 ⟨m, hm⟩

end Snap

/-! ## The counters of a store, computed -/

namespace Db

variable {T : Type} {Row : T → Type} {K X : Type} (d : Db Row K X) {b t : T}

/-- the committed rows of a table, in insertion order -/
def committed (t : T) : List (ℕ × Row t) :=
  (List.range (d.tab t).next).filterMap fun n => ((d.tab t).cell n).committed.map fun r => (n, r)

theorem mem_committed {n : ℕ} {r : Row t} : (n, r) ∈ d.committed t ↔ d.snap.com t n = some r := by
  simp only [committed, List.mem_filterMap, List.mem_range, Option.map_eq_some_iff, Prod.mk.injEq]
  refine ⟨?_, fun h => ⟨n, ?_, r, h, rfl, rfl⟩⟩
  · rintro ⟨m, -, r', hr, rfl, rfl⟩
    exact hr
  · by_contra hn
    simp [snap, cell, (d.tab t).fresh n (not_lt.1 hn)] at h

theorem committed_pairwise (t : T) : (d.committed t).Pairwise fun a b => a.1 < b.1 := by
  refine List.Pairwise.filterMap _ (fun a a' haa b hb b' hb' => ?_) List.pairwise_lt_range
  simp only [Option.map_eq_some_iff] at hb hb'
  obtain ⟨_, -, rfl⟩ := hb
  obtain ⟨_, -, rfl⟩ := hb'
  exact haa

theorem countP_committed (p : Row t → Bool) : ((d.committed t).countP fun q => p q.2) = (d.snap.matching t p).ncard := by
  refine countP_eq_ncard (d.committed_pairwise t) _ fun m => ?_
  simp only [Snap.matching, Set.mem_ofPred_eq, Option.any_eq_true, mem_committed]

theorem counts_iff {f : Row b → ℕ} {p : ℕ → Row t → Bool} : d.snap.Counts b t f p ↔
    ∀ q ∈ d.committed b, f q.2 = (d.committed t).countP fun q' => p q.1 q'.2 := by
  simp only [countP_committed, Snap.Counts]
  refine ⟨fun h q hq => h q.1 q.2 (d.mem_committed.1 hq), fun h n r hr => h (n, r) (d.mem_committed.2 hr)⟩

instance (f : Row b → ℕ) (p : ℕ → Row t → Bool) : Decidable (d.snap.Counts b t f p) :=
  decidable_of_iff _ d.counts_iff.symm

end Db

/-! ## Sessions that hold few rows -/

namespace Own

variable {T : Type} [DecidableEq T] {Row : T → Type} {K : Type} [DecidableEq K] {X : Type} {o : Own Row K} {t : T} {n : ℕ}
  {v : Option (Row t)} {σ : Snap Row X}

/-- of this table the session holds no row -/
def Nothing (o : Own Row K) (t : T) : Prop := ∀ m, o.row t m = none

/-- of this table the session holds row `n` only -/
def Just (o : Own Row K) (t : T) (n : ℕ) (v : Option (Row t)) : Prop :=
  ∀ m, o.row t m = if m = n then some v else none

theorem Nothing.com (h : o.Nothing t) (m : ℕ) : (σ.merge o).com t m = σ.com t m := Snap.merge_of_none (h m) σ

theorem Just.row (h : o.Just t n v) : o.row t n = some v := by rw [h, if_pos rfl]

theorem Just.com (h : o.Just t n v) (m : ℕ) : (σ.merge o).com t m = if m = n then v else σ.com t m := by
  rw [Snap.merge_com, h]
  split_ifs <;> rfl

theorem Just.com_self (h : o.Just t n v) : (σ.merge o).com t n = v := by rw [h.com, if_pos rfl]

theorem Just.com_ne (h : o.Just t n v) {m : ℕ} (hm : m ≠ n) : (σ.merge o).com t m = σ.com t m := by
  rw [h.com, if_neg hm]

theorem nothing_empty (t : T) : ({} : Own Row K).Nothing t := fun _ => rfl

/-- what a counter of `b` needs to be kept: the session writes no row of `b`, or one whose counter stays -/
theorem Nothing.base {β : Type} {f : Row t → β} (h : o.Nothing t) (n : ℕ) (r' : Row t)
    (hr' : (σ.merge o).com t n = some r') : ∃ r, σ.com t n = some r ∧ f r' = f r := ⟨r', (h.com n).symm.trans hr', rfl⟩

theorem Just.base {β : Type} {f : Row t → β} {r r' : Row t} (h : o.Just t n (some r')) (hr : σ.com t n = some r)
    (hf : f r' = f r) (m : ℕ) (r'' : Row t) (hr'' : (σ.merge o).com t m = some r'') :
    ∃ r, σ.com t m = some r ∧ f r'' = f r := by
  by_cases hm : m = n
  · subst hm
    rw [h.com_self, Option.some.injEq] at hr''
    exact ⟨r, hr, hr'' ▸ hf⟩
  · exact ⟨r'', (h.com_ne hm).symm.trans hr'', rfl⟩

/-- what a counter of rows of `t` needs to be kept: the session writes none of them, or one that counts as before -/
theorem Nothing.detail {p : ℕ → Row t → Bool} (h : o.Nothing t) (m n : ℕ) :
    ((σ.merge o).com t m).any (p n) = (σ.com t m).any (p n) := by rw [h.com]

theorem Just.detail {p : ℕ → Row t → Bool} (h : o.Just t n v) (hv : ∀ n', v.any (p n') = (σ.com t n).any (p n'))
    (m n' : ℕ) : ((σ.merge o).com t m).any (p n') = (σ.com t m).any (p n') := by
  by_cases hm : m = n
  · subst hm
    rw [h.com_self, hv]
  · rw [h.com_ne hm]

/-- the session writes a row together with the counter of the one row of `b` that it belongs to, before or after -/
theorem Just.move {b : T} {f : Row b → ℕ} {p : ℕ → Row t → Bool} {m : ℕ} {r r' : Row b} (h : σ.Counts b t f p)
    (hfresh : σ.Fresh o) (hb : o.Just b n (some r')) (ht : o.Just t m v) (hr : σ.com b n = some r)
    (hother : ∀ n', n' ≠ n → v.any (p n') = (σ.com t m).any (p n'))
    (hmove : f r' + ((σ.com t m).any (p n)).toNat = f r + (v.any (p n)).toNat) : (σ.merge o).Counts b t f p := by
  refine h.move hfresh hr hb.com_self (fun n' hn' => hb.com_ne hn') (fun m' hm' => ht.com_ne hm') ?_ ?_
  · rw [ht.com_self]
    exact hother
  · rw [ht.com_self]
    exact hmove

theorem Nothing.put {t' : T} (h : o.Nothing t) (ht : t ≠ t') (m : ℕ) (w : Option (Row t')) : (o.put t' m w).Nothing t := by
  intro m'
  rw [put_row_other _ _ _ ht]
  exact h m'

theorem Just.put {t' : T} (h : o.Just t n v) (ht : t ≠ t') (m : ℕ) (w : Option (Row t')) : (o.put t' m w).Just t n v := by
  intro m'
  rw [put_row_other _ _ _ ht]
  exact h m'

theorem Nothing.take (h : o.Nothing t) (k : K) : (o.take k).Nothing t := h

theorem Just.take (h : o.Just t n v) (k : K) : (o.take k).Just t n v := h

theorem Nothing.just (h : o.Nothing t) (n : ℕ) (v : Option (Row t)) : (o.put t n v).Just t n v := by
  intro m
  rw [put_row_same, h m]

theorem Just.again (h : o.Just t n v) (w : Option (Row t)) : (o.put t n w).Just t n w := by
  intro m
  rw [put_row_same, h m]
  split_ifs <;> rfl

/-- the session holds the row, so its committed version stays `v` -/
structure Pinned (o : Own Row K) (σ : Snap Row X) (t : T) (n : ℕ) (v : Option (Row t)) : Prop where
  held : o.row t n ≠ none
  com : σ.com t n = v

theorem Pinned.later {Fx : Type → Type} [Effects Fx X] {D : Discipline Row K Fx X} {i : ℕ} {τ : Snap Row X}
    (h : o.Pinned σ t n v) (hl : D.Later i o σ τ) : o.Pinned τ t n v := ⟨h.held, (hl.com t n h.held).trans h.com⟩

theorem Pinned.put (h : o.Pinned σ t n v) (t' : T) (m : ℕ) (w : Option (Row t')) : (o.put t' m w).Pinned σ t n v :=
  ⟨(o.sub_put t' m w).row t n h.held, h.com⟩

theorem Pinned.take (h : o.Pinned σ t n v) (k : K) : (o.take k).Pinned σ t n v := ⟨h.held, h.com⟩

theorem pinned_put (h : σ.com t n = v) (w : Option (Row t)) : (o.put t n w).Pinned σ t n v := ⟨by simp, h⟩

end Own

end LkmService.Sql
