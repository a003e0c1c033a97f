/-
What the relay adds, against what the instances have counted.

The baseline of a counter is one number for all instances. When a round does not read an instance that was part of it,
the baseline falls, and when the instance is read again its whole history is growth once more.

- `Inv`: the baseline is the sum of what its instances contributed, and what has been added is no more than what all
  instances contributed when they were read last.
- `never_overcounts`: while no instance comes back that the baseline has lost, the relay never over-counts.
- `relay_overcounts`: one failed read, and the counter is more than all that was counted.
-/
import Mathlib.Algebra.BigOperators.Ring.Finset
import Mathlib.Algebra.Order.BigOperators.Group.Finset
import Mathlib.Tactic.Linarith
import LkmService.Lib.Trace
import LkmService.Metrics.Model

namespace LkmService.Metrics

open OrderedDict Trace

variable {w : World} {m : Move} {ms : List Move} {i j : ℕ} {k : Key} {items : Samples}

/-! ## What is promised -/

/-- the increments that instance `i` has made -/
def World.made (w : World) (i : ℕ) (k : Key) : ℚ := valueOf (w.own i) k

def Bounded (w : World) : Prop := ∀ k, w.reporter.relayed k ≤ ∑ i ∈ w.instances, w.made i k

/-- the move reads a counter of an instance again in one round, or of one whose contribution the baseline has lost -/
def comesBack (w : World) : Move → Bool
  | .readKey i .answers => (w.counters i).any fun item =>
      (w.read i item.1).isSome || decide (w.last i item.1 ≠ 0) && !w.inBase i item.1
  | _ => false

structure Promises (ms : List Move) : Prop where
  grows : Along step (fun w m => ∀ k, w.reporter.relayed k ≤ (step w m).reporter.relayed k) {} ms
  bounded : ∀ pre post, ms = pre ++ post → Bounded (run step {} pre)

/-! ## Dictionaries -/

theorem valueOf_put (k j : Key) (v : ℚ) :
    valueOf (put items k v) j = if j = k then v else valueOf items j := by
  unfold valueOf
  rw [get?_put]
  split_ifs
  · rfl
  · rfl

theorem addItems_apply (h : Keyed items) (totals : Key → Option ℚ) (k : Key) :
    addItems totals items k = (get? items k).elim (totals k) fun v => some ((totals k).getD 0 + v) := by
  induction items generalizing totals with
  | nil => rfl
  | cons item items ih =>
    obtain ⟨j, v⟩ := item
    have hrest : Keyed items := (List.nodup_cons.1 h).2
    rw [addItems, ih hrest]
    by_cases hk : j = k
    · subst hk
      have hnone : get? items j = none := get?_eq_none_iff.2 (List.nodup_cons.1 h).1
      rw [hnone]
      simp [get?]
    · have hget : get? ((j, v) :: items) k = get? items k := by simp [get?, hk]
      rw [hget, Function.update_of_ne (Ne.symm hk)]

/-- a counter of a read is one of the snapshot -/
theorem counters_spec (h : ∀ l, w.snaps i = some l → Keyed l) : Keyed (w.counters i) ∧
    ∀ k v, get? (w.counters i) k = some v → ∃ l, w.snaps i = some l ∧ valueOf l k = v := by
  unfold World.counters
  rcases hs : w.snaps i with _ | l
  · exact ⟨List.nodup_nil, fun k v hv => by simp [get?] at hv⟩
  · have hkeyed := h l hs
    have hsub : ((parsePayload l).filter fun item => isCounter item.1).Sublist l :=
      List.filter_sublist.trans List.filter_sublist
    refine ⟨hkeyed.sublist hsub, fun k v hv => ⟨l, rfl, ?_⟩⟩
    have hmem := (get?_eq_some_iff (hkeyed.sublist hsub)).1 hv
    rw [valueOf, (get?_eq_some_iff hkeyed).2 (hsub.subset hmem)]
    rfl

/-! ## The invariant -/

/-- what instance `i` contributes to the baseline of `k` -/
def World.share (w : World) (k : Key) (i : ℕ) : ℚ := if w.inBase i k then w.last i k else 0

structure Inv (w : World) : Prop where
  keyed : ∀ i, Keyed (w.own i)
  snapKeyed : ∀ i l, w.snaps i = some l → Keyed l
  /-- a snapshot is not ahead of its instance, and not behind what was read of it -/
  snap : ∀ i l, w.snaps i = some l → ∀ k, w.last i k ≤ valueOf l k ∧ valueOf l k ≤ w.made i k
  last : ∀ i k, 0 ≤ w.last i k ∧ w.last i k ≤ w.made i k
  /-- what the present round has read, which a later snapshot has passed -/
  read : ∀ i k c, w.read i k = some c → w.last i k ≤ c ∧ c ≤ w.made i k ∧
    (w.last i k ≠ 0 → w.inBase i k = true) ∧ ∀ l, w.snaps i = some l → c ≤ valueOf l k
  outside : ∀ i, i ∉ w.instances → w.own i = [] ∧ (∀ l, w.snaps i = some l → l = []) ∧
    ∀ k, w.read i k = none ∧ w.last i k = 0
  totals : ∀ k, (w.reporter.counterTotals k).getD 0 = ∑ i ∈ w.instances, (w.read i k).getD 0
  unread : ∀ k, w.reporter.counterTotals k = none → ∀ i, w.read i k = none
  baseline : ∀ k, (w.reporter.remoteTotals k).getD 0 = ∑ i ∈ w.instances, w.share k i
  bound : ∀ k, w.reporter.relayed k ≤ ∑ i ∈ w.instances, w.last i k

theorem Inv.init : Inv {} where
  keyed _ := List.nodup_nil
  snapKeyed _ _ h := by cases h
  snap _ _ h := by cases h
  last _ _ := ⟨le_refl _, le_refl _⟩
  read _ _ _ h := by cases h
  outside _ _ := ⟨rfl, fun _ h => (by cases h), fun _ => ⟨rfl, rfl⟩⟩
  totals _ := rfl
  unread _ _ _ := rfl
  baseline _ := rfl
  bound _ := le_refl _

theorem Inv.bounded (h : Inv w) : Bounded w := fun k =>
  (h.bound k).trans (Finset.sum_le_sum fun i _ => (h.last i k).2)

/-- a sum over the instances, one of which may be new -/
theorem sum_insert_zero {s : Finset ℕ} {f : ℕ → ℚ} (h : i ∉ s → f i = 0) : ∑ j ∈ insert i s, f j = ∑ j ∈ s, f j := by
  by_cases hi : i ∈ s
  · rw [Finset.insert_eq_of_mem hi]
  · rw [Finset.sum_insert hi, h hi, zero_add]

theorem Inv.inc (h : Inv w) (i : ℕ) (k : Key) (d : ℚ≥0) : Inv (step w (.inc i k d)) := by
  have hd : (0 : ℚ) ≤ d := d.2
  have hown : ∀ j l, (step w (.inc i k d)).made j l = if j = i ∧ l = k then w.made j l + d else w.made j l := by
    intro j l
    simp only [World.made, step]
    by_cases hj : j = i
    · subst hj
      rw [Function.update_self, valueOf_put]
      by_cases hl : l = k
      · simp [hl]
      · simp [hl]
    · rw [Function.update_of_ne hj, if_neg fun hx => hj hx.1]
  have hmade : ∀ j l, w.made j l ≤ (step w (.inc i k d)).made j l := by
    intro j l
    rw [hown]
    split_ifs
    · linarith
    · exact le_refl _
  refine ⟨fun j => ?_, h.snapKeyed, fun j l hl k' => ?_, fun j k' => ?_, fun j k' c hc => ?_, fun j hj => ?_,
    fun k' => ?_, h.unread, fun k' => ?_, fun k' => ?_⟩
  · by_cases hj : j = i
    · subst hj
      simp only [step, Function.update_self]
      exact (h.keyed j).put _ _
    · simp only [step, Function.update_of_ne hj]
      exact h.keyed j
  · exact ⟨(h.snap j l hl k').1, (h.snap j l hl k').2.trans (hmade j k')⟩
  · exact ⟨(h.last j k').1, (h.last j k').2.trans (hmade j k')⟩
  · obtain ⟨hlast, hreal, hbase, hsnap⟩ := h.read j k' c hc
    exact ⟨hlast, hreal.trans (hmade j k'), hbase, hsnap⟩
  · simp only [step, Finset.mem_insert, not_or] at hj
    obtain ⟨hnil, hrest⟩ := h.outside j hj.2
    exact ⟨by simp only [step, Function.update_of_ne hj.1, hnil], hrest⟩
  · refine (h.totals k').trans (sum_insert_zero fun hi => ?_).symm
    simp [((h.outside i hi).2.2 k').1]
  · refine (h.baseline k').trans (sum_insert_zero fun hi => ?_).symm
    have hzero := ((h.outside i hi).2.2 k').2
    change (if w.inBase i k' then w.last i k' else 0) = 0
    simp [hzero]
  · refine (h.bound k').trans (le_of_eq (sum_insert_zero fun hi => ?_).symm)
    exact ((h.outside i hi).2.2 k').2

theorem Inv.publish (h : Inv w) (i : ℕ) : Inv (step w (.publish i)) := by
  have hsnaps : ∀ j l, (step w (.publish i)).snaps j = some l → j = i ∧ l = w.own i ∨ w.snaps j = some l := by
    intro j l hl
    by_cases hj : j = i
    · subst hj
      simp only [step, Function.update_self, Option.some.injEq] at hl
      exact Or.inl ⟨rfl, hl.symm⟩
    · simp only [step, Function.update_of_ne hj] at hl
      exact Or.inr hl
  refine ⟨h.keyed, fun j l hl => ?_, fun j l hl k => ?_, h.last, fun j k c hc => ?_, fun j hj => ?_, h.totals, h.unread,
    h.baseline, h.bound⟩
  · rcases hsnaps j l hl with ⟨-, rfl⟩ | hl
    · exact h.keyed i
    · exact h.snapKeyed j l hl
  · rcases hsnaps j l hl with ⟨rfl, rfl⟩ | hl
    · exact ⟨(h.last j k).2, le_refl _⟩
    · exact h.snap j l hl k
  · obtain ⟨hlast, hreal, hbase, hsnap⟩ := h.read j k c hc
    refine ⟨hlast, hreal, hbase, fun l hl => ?_⟩
    rcases hsnaps j l hl with ⟨rfl, rfl⟩ | hl
    · exact hreal
    · exact hsnap l hl
  · obtain ⟨hnil, hsnap, hrest⟩ := h.outside j hj
    refine ⟨hnil, fun l hl => ?_, hrest⟩
    rcases hsnaps j l hl with ⟨rfl, rfl⟩ | hl
    · exact hnil
    · exact hsnap l hl

theorem Inv.expire (h : Inv w) (i : ℕ) : Inv (step w (.expire i)) := by
  have hsnaps : ∀ j l, (step w (.expire i)).snaps j = some l → w.snaps j = some l := by
    intro j l hl
    by_cases hj : j = i
    · subst hj
      simp [step] at hl
    · simpa only [step, Function.update_of_ne hj] using hl
  refine ⟨h.keyed, fun j l hl => h.snapKeyed j l (hsnaps j l hl), fun j l hl => h.snap j l (hsnaps j l hl), h.last,
    fun j k c hc => ?_, fun j hj => ?_, h.totals, h.unread, h.baseline, h.bound⟩
  · obtain ⟨hlast, hreal, hbase, hsnap⟩ := h.read j k c hc
    exact ⟨hlast, hreal, hbase, fun l hl => hsnap l (hsnaps j l hl)⟩
  · obtain ⟨hnil, hsnap, hrest⟩ := h.outside j hj
    exact ⟨hnil, fun l hl => hsnap l (hsnaps j l hl), hrest⟩

theorem Inv.readKey (h : Inv w) (i : ℕ) (hback : comesBack w (.readKey i .answers) = false) :
    Inv (step w (.readKey i .answers)) := by
  obtain ⟨hkeyed, hvalue⟩ := counters_spec (w := w) (i := i) (h.snapKeyed i)
  simp only [comesBack, List.any_eq_false, Bool.or_eq_true, Bool.and_eq_true, decide_eq_true_eq, Bool.not_eq_true',
    not_or, not_and, Bool.not_eq_false] at hback
  have hnew : ∀ k v, get? (w.counters i) k = some v →
      w.read i k = none ∧ (w.last i k ≠ 0 → w.inBase i k = true) := by
    intro k v hv
    obtain ⟨hread, hbase⟩ := hback (k, v) ((get?_eq_some_iff hkeyed).1 hv)
    exact ⟨by simpa using hread, hbase⟩
  have hreads : ∀ j k, (step w (.readKey i .answers)).read j k =
      if j = i then (get? (w.counters i) k).or (w.read i k) else w.read j k := by
    intro j k
    by_cases hj : j = i
    · subst hj
      simp [step]
    · simp [step, hj]
  have htotals : ∀ k, (step w (.readKey i .answers)).reporter.counterTotals k =
      (get? (w.counters i) k).elim (w.reporter.counterTotals k) fun v =>
        some ((w.reporter.counterTotals k).getD 0 + v) := fun k => addItems_apply hkeyed _ k
  have hmember : ∀ k v, get? (w.counters i) k = some v → i ∈ w.instances := by
    intro k v hv
    by_contra hi
    obtain ⟨-, hsnap, -⟩ := h.outside i hi
    have hnil : w.counters i = [] := by
      unfold World.counters
      rcases hs : w.snaps i with _ | l
      · rfl
      · obtain rfl := hsnap l hs
        rfl
    rw [hnil] at hv
    cases hv
  refine ⟨h.keyed, h.snapKeyed, h.snap, h.last, fun j k c hc => ?_, fun j hj => ?_, fun k => ?_, fun k hk j => ?_,
    h.baseline, h.bound⟩
  · rw [hreads] at hc
    split_ifs at hc with hj
    · subst hj
      rcases hv : get? (w.counters j) k with _ | v
      · rw [hv] at hc
        exact h.read j k c hc
      · rw [hv] at hc
        obtain rfl : v = c := by simpa using hc
        obtain ⟨l, hl, rfl⟩ := hvalue k v hv
        obtain ⟨hlast, hreal⟩ := h.snap j l hl k
        refine ⟨hlast, hreal, (hnew k _ hv).2, fun l' hl' => ?_⟩
        obtain rfl : l = l' := Option.some.inj (hl.symm.trans hl')
        exact le_refl _
    · exact h.read j k c hc
  · obtain ⟨hnil, hsnap, hrest⟩ := h.outside j hj
    refine ⟨hnil, hsnap, fun k => ⟨?_, (hrest k).2⟩⟩
    rw [hreads]
    split_ifs with hji
    · subst hji
      rcases hv : get? (w.counters j) k with _ | v
      · exact (hrest k).1
      · exact absurd (hmember k v hv) hj
    · exact (hrest k).1
  · rw [htotals]
    rcases hv : get? (w.counters i) k with _ | v
    · refine (h.totals k).trans (Finset.sum_congr rfl fun j _ => ?_)
      rw [hreads]
      split_ifs with hj
      · subst hj
        rw [hv]
        rfl
      · rfl
    · have hi := hmember k v hv
      have hnone := (hnew k v hv).1
      change (w.reporter.counterTotals k).getD 0 + v = _
      rw [h.totals k, ← Finset.add_sum_erase _ _ hi]
      change _ = ∑ j ∈ w.instances, _
      rw [← Finset.add_sum_erase w.instances _ hi, hreads, if_pos rfl, hv, hnone]
      have hrest : ∀ j ∈ w.instances.erase i, ((step w (.readKey i .answers)).read j k).getD 0 = (w.read j k).getD 0 := by
        intro j hj
        rw [hreads, if_neg (Finset.ne_of_mem_erase hj)]
      rw [Finset.sum_congr rfl hrest]
      simp only [Option.getD_none, Option.or_none, Option.getD_some, zero_add]
      exact add_comm _ _
  · rw [htotals] at hk
    rcases hv : get? (w.counters i) k with _ | v
    · rw [hv] at hk
      rw [hreads]
      split_ifs with hj
      · subst hj
        rw [hv]
        exact h.unread k hk j
      · exact h.unread k hk j
    · rw [hv] at hk
      cases hk

/-- what one round does to one counter -/
theorem apply_cases (refused : Key → Bool) (r : Reporter) (k : Key) (total : ℚ) (ht : r.counterTotals k = some total) :
    (total - (r.remoteTotals k).getD 0 ≤ 0 ∧ (r.apply refused).remoteTotals k = some total ∧
        (r.apply refused).relayed k = r.relayed k) ∨
      (0 < total - (r.remoteTotals k).getD 0 ∧ refused k = true ∧
        (r.apply refused).remoteTotals k = r.remoteTotals k ∧ (r.apply refused).relayed k = r.relayed k) ∨
      (0 < total - (r.remoteTotals k).getD 0 ∧ refused k = false ∧ (r.apply refused).remoteTotals k = some total ∧
        (r.apply refused).relayed k = r.relayed k + (total - (r.remoteTotals k).getD 0)) := by
  simp only [Reporter.apply, ht, Option.elim_some, applyCounter]
  split_ifs with hle hrefused
  · exact Or.inl ⟨hle, rfl, rfl⟩
  · exact Or.inr (Or.inl ⟨not_le.1 hle, hrefused, rfl, rfl⟩)
  · exact Or.inr (Or.inr ⟨not_le.1 hle, by simpa using hrefused, rfl, rfl⟩)

theorem Inv.finish (h : Inv w) (refused : Key → Bool) : Inv (step w (.finish refused)) := by
  have hlast : ∀ i k, (step w (.finish refused)).last i k =
      if w.rebases refused k then (w.read i k).getD (w.last i k) else w.last i k := fun _ _ => rfl
  have hgrow : ∀ i k, w.last i k ≤ (step w (.finish refused)).last i k := by
    intro i k
    rw [hlast]
    split_ifs
    · rcases hc : w.read i k with _ | c
      · exact le_refl _
      · exact (h.read i k c hc).1
    · exact le_refl _
  have hbelow : ∀ i k v, w.last i k ≤ v → (∀ c, w.read i k = some c → c ≤ v) →
      (step w (.finish refused)).last i k ≤ v := by
    intro i k v hv hc
    rw [hlast]
    split_ifs
    · rcases hr : w.read i k with _ | c
      · exact hv
      · exact hc c hr
    · exact hv
  refine ⟨h.keyed, h.snapKeyed, fun i l hl k => ⟨?_, (h.snap i l hl k).2⟩, fun i k => ⟨?_, ?_⟩,
    fun _ _ _ hc => (by cases hc), fun i hi => ?_, fun k => ?_, fun _ _ _ => rfl, fun k => ?_, fun k => ?_⟩
  · exact hbelow i k _ (h.snap i l hl k).1 fun c hc => (h.read i k c hc).2.2.2 l hl
  · exact (h.last i k).1.trans (hgrow i k)
  · exact hbelow i k _ (h.last i k).2 fun c hc => (h.read i k c hc).2.1
  · obtain ⟨hnil, hsnap, hrest⟩ := h.outside i hi
    refine ⟨hnil, hsnap, fun k => ⟨rfl, ?_⟩⟩
    rw [hlast, (hrest k).1, (hrest k).2]
    simp
  · simp [step, Reporter.apply]
  · -- the new baseline is the sum of what was read
    have hshare : ∀ i, (step w (.finish refused)).share k i =
        if w.rebases refused k then (w.read i k).getD 0 else w.share k i := by
      intro i
      simp only [World.share, step]
      split_ifs with hr hs hs
      · obtain ⟨c, hc⟩ := Option.isSome_iff_exists.1 hs
        rw [hc]
        rfl
      · rw [Option.not_isSome_iff_eq_none.1 hs]
        rfl
      · rfl
      · rfl
    rw [Finset.sum_congr rfl fun i _ => hshare i]
    change ((w.reporter.apply refused).remoteTotals k).getD 0 = _
    rcases ht : w.reporter.counterTotals k with _ | total
    · simp only [Reporter.apply, World.rebases, ht, Option.elim_none, Option.any_none, Bool.false_eq_true, if_false]
      exact h.baseline k
    · have htotal := h.totals k
      rw [ht, Option.getD_some] at htotal
      rcases apply_cases refused w.reporter k total ht with ⟨hle, hr, -⟩ | ⟨hlt, href, hr, -⟩ | ⟨hlt, href, hr, -⟩
      · simp only [hr, World.rebases, ht, Option.any_some, hle, decide_true, Bool.true_or, if_true, Option.getD_some]
        exact htotal
      · simp only [hr, World.rebases, ht, Option.any_some, href, not_le.2 hlt, decide_false, Bool.not_true,
          Bool.or_false, Bool.false_eq_true, if_false]
        exact h.baseline k
      · simp only [hr, World.rebases, ht, Option.any_some, href, Bool.not_false, Bool.or_true, if_true, Option.getD_some]
        exact htotal
  · -- the growth is no more than what the instances that were read have counted since they were part of the baseline
    have hsum := Finset.sum_le_sum fun i (_ : i ∈ w.instances) => hgrow i k
    rcases ht : w.reporter.counterTotals k with _ | total
    · refine le_trans (le_of_eq ?_) ((h.bound k).trans hsum)
      simp [step, Reporter.apply, ht]
    · rcases apply_cases refused w.reporter k total ht with ⟨-, -, hr⟩ | ⟨-, -, -, hr⟩ | ⟨-, href, -, hr⟩
      · exact (le_of_eq hr).trans ((h.bound k).trans hsum)
      · exact (le_of_eq hr).trans ((h.bound k).trans hsum)
      · have htotal := h.totals k
        rw [ht, Option.getD_some] at htotal
        have hterm : ∀ i ∈ w.instances, (w.read i k).getD 0 - w.share k i ≤
            (step w (.finish refused)).last i k - w.last i k := by
          intro i _
          have hrebases : w.rebases refused k = true := by simp [World.rebases, ht, href]
          rw [hlast, if_pos hrebases]
          rcases hc : w.read i k with _ | c
          · simp only [Option.getD_none, sub_self, zero_sub, World.share]
            split_ifs
            · linarith [(h.last i k).1]
            · simp
          · obtain ⟨-, -, hbase, -⟩ := h.read i k c hc
            simp only [Option.getD_some, World.share]
            split_ifs with hin
            · exact le_refl _
            · have hzero : w.last i k = 0 := by
                by_contra hne
                exact hin (hbase hne)
              rw [hzero]
        have hall := Finset.sum_le_sum hterm
        rw [Finset.sum_sub_distrib, Finset.sum_sub_distrib] at hall
        change (w.reporter.apply refused).relayed k ≤ ∑ i ∈ w.instances, _
        rw [hr, htotal, h.baseline k]
        linarith [h.bound k]

theorem Inv.abort (h : Inv w) : Inv (step w .abort) where
  keyed := h.keyed
  snapKeyed := h.snapKeyed
  snap := h.snap
  last := h.last
  read _ _ _ hc := by cases hc
  outside i hi := ⟨(h.outside i hi).1, (h.outside i hi).2.1, fun k => ⟨rfl, ((h.outside i hi).2.2 k).2⟩⟩
  totals _ := by simp [step]
  unread _ _ _ := rfl
  baseline := h.baseline
  bound := h.bound

theorem Inv.step (h : Inv w) (hm : comesBack w m = false) : Inv (step w m) := by
  cases m with
  | inc i k d => exact h.inc i k d
  | publish i => exact h.publish i
  | expire i => exact h.expire i
  | readKey i fate =>
    cases fate with
    | answers => exact h.readKey i hm
    | fails => exact h
    | damaged => exact h
  | finish refused => exact h.finish refused
  | abort => exact h.abort

/-! ## The runs -/

/-- no move takes anything from a counter of the API process -/
theorem relayed_le (w : World) (m : Move) (k : Key) : w.reporter.relayed k ≤ (step w m).reporter.relayed k := by
  cases m with
  | finish refused =>
    change _ ≤ (w.reporter.apply refused).relayed k
    rcases ht : w.reporter.counterTotals k with _ | total
    · simp [Reporter.apply, ht]
    · rcases apply_cases refused w.reporter k total ht with ⟨-, -, hr⟩ | ⟨-, -, -, hr⟩ | ⟨hlt, -, -, hr⟩
      · exact le_of_eq hr.symm
      · exact le_of_eq hr.symm
      · rw [hr]
        linarith
  | readKey i fate => cases fate <;> exact le_refl _
  | inc i k' d => exact le_refl _
  | publish i => exact le_refl _
  | expire i => exact le_refl _
  | abort => exact le_refl _

/-- **No over-count.** In every run in which no round reads an instance twice, or again after the baseline has lost
what it contributed: a relayed counter never falls, and never exceeds what the instances have counted. -/
theorem never_overcounts (ms : List Move) (h : Along step (fun w m => comesBack w m = false) {} ms) : Promises ms where
  grows _ _ _ _ k := relayed_le _ _ k
  bounded pre post heq := by
    have hpre : Along step (fun w m => comesBack w m = false) {} pre := Along.prefix (heq ▸ h)
    exact (run_inv hpre Inv.init fun w m hw hm => Inv.step hw hm).bounded

/-! ## An instance that comes back -/

def demoKey : Key := ("notify_failed_total", [])

/-- two instances count, and one round does not read the first of them -/
def demoMoves (fate : Fate) : List Move :=
  [.inc 0 demoKey 5, .inc 1 demoKey 1, .publish 0, .publish 1, .readKey 0 .answers, .readKey 1 .answers,
    .finish fun _ => false, .readKey 0 fate, .readKey 1 .answers, .finish fun _ => false, .readKey 0 .answers,
    .readKey 1 .answers, .finish fun _ => false]

theorem relay_overcounts : ¬ ∀ ms, Promises ms := by
  intro h
  have hbound := (h (demoMoves .fails)).bounded (demoMoves .fails) [] (by simp) demoKey
  revert hbound
  decide +kernel

theorem never_overcounts_demo : Promises (demoMoves .answers) := never_overcounts (demoMoves .answers) (by decide +kernel)

end LkmService.Metrics
