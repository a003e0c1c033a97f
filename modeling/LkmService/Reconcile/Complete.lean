/-
A run of the reconciliation visits its scope once and leaves nothing to correct.

- `Complete`: the items in scope are visited in the order of their ids, each once; those without a pending delta have the
  counts of their details; only a row that differed has other counts, no `updated_at` is touched, and a second run corrects
  nothing.
- `reconcile_complete`: so it is for every state and every batch that is not empty.
- `not_as_claimed`: a row that has been right gets a mark, and one with a pending delta stays wrong.
-/
import LkmService.Reconcile.Model
import LkmService.Lib.Sorted

namespace LkmService.Reconcile

variable {s s' : Settings} {d : Db} {run : Run} {rs rest : List ContentItem} {lastId n : Uuid} {ids : List Uuid}
  {r r' : ContentItem}

/-! ## The law -/

/-- what becomes of a row -/
structure Kept (s : Settings) (d : Db) (r r' : ContentItem) : Prop where
  id : r'.id = r.id
  updatedAt : r'.updatedAt = r.updatedAt
  counts : r'.counts ≠ r.counts → inScope s r = true ∧ r.counts ≠ realCounts d r.id
  mark : r'.countsReconciledAt ≠ r.countsReconciledAt → inScope s r = true ∧ r'.counts = realCounts d r.id

/-- what becomes of a comment -/
def KeptComment (d : Db) (c c' : ContentComment) : Prop :=
  c' = c ∨ c.likeCount ≠ realCommentLikes d c.id ∧ c' = { c with likeCount := realCommentLikes d c.id }

structure Complete (s : Settings) (d : Db) (run : Run) : Prop where
  ascending : run.visited.Pairwise (· < ·)
  visited : ∀ n, n ∈ run.visited ↔ ∃ r ∈ d.items, r.id = n ∧ inScope s r = true
  scanned : run.scanned = run.visited.length
  counted : ∀ r ∈ run.db.items, r.id ∈ run.visited → s.pending r.id = false → r.counts = realCounts run.db r.id
  rows : List.Forall₂ (Kept s d) d.items run.db.items
  comments : List.Forall₂ (KeptComment d) d.comments run.db.comments
  details : ∀ n, realCounts run.db n = realCounts d n
  again : ∀ s' : Settings, 0 < s'.batchSize → s'.onlyUnconverged = s.onlyUnconverged → s'.pending = s.pending →
    ∃ run', reconcileCounts s' run.db = some run' ∧ run'.affected = 0

/-! ## What a run has done -/

def settle (now : ℤ) (d : Db) (ids : List Uuid) (r : ContentItem) : ContentItem :=
  if r.id ∈ ids then { r with counts := realCounts d r.id, countsReconciledAt := some now } else r

def settleComment (d : Db) (ids : List Uuid) (c : ContentComment) : ContentComment :=
  if c.contentId ∈ ids ∧ c.likeCount ≠ realCommentLikes d c.id then { c with likeCount := realCommentLikes d c.id } else c

/-- the rows to be corrected, and those that are right -/
def wrong (s : Settings) (d : Db) (rs : List ContentItem) : List Uuid :=
  (rs.filter fun r => decide (realCounts d r.id ≠ r.counts) && !s.pending r.id).map ContentItem.id

def right (d : Db) (rs : List ContentItem) : List Uuid :=
  (rs.filter fun r => decide (realCounts d r.id = r.counts)).map ContentItem.id

/-- the rows in scope, in the order of their ids -/
def scope (s : Settings) (d : Db) : List ContentItem :=
  (d.items.filter (inScope s)).insertionSort fun a b => a.id ≤ b.id

/-- what the turns over some rows have done; they leave the rest of the run as it is -/
structure Settled (s : Settings) (d : Db) (rs : List ContentItem) (run : Run) : Prop where
  items : run.db.items = d.items.map (settle s.now d (wrong s d rs))
  corrected : run.corrected = wrong s d rs
  affected : run.affected = (wrong s d rs).length
  converged : run.converged = right d rs

/-- the other tables, after the comments of some items have been corrected -/
structure Others (d : Db) (ids : List Uuid) (d' : Db) : Prop where
  likes : d'.likes = d.likes
  favorites : d'.favorites = d.favorites
  commentLikes : d'.commentLikes = d.commentLikes
  comments : d'.comments = d.comments.map (settleComment d ids)

/-- the state between two windows -/
structure Reached (s : Settings) (d : Db) (rs : List ContentItem) (run : Run) : Prop where
  settled : Settled s d rs run
  others : Others d (rs.map ContentItem.id) run.db
  visited : run.visited = rs.map ContentItem.id
  scanned : run.scanned = rs.length

/-! ## Statements -/

theorem settle_id (now : ℤ) (d : Db) (ids : List Uuid) (r : ContentItem) : (settle now d ids r).id = r.id := by
  unfold settle
  split_ifs <;> rfl

theorem settle_of_notMem (now : ℤ) (d : Db) (h : r.id ∉ ids) : settle now d ids r = r := if_neg h

theorem Others.realCounts {d' : Db} (h : Others d ids d') (n : Uuid) : realCounts d' n = Reconcile.realCounts d n := by
  have hcomments : d'.comments.countP (fun c => c.contentId = n ∧ c.deletedAt = none) =
      d.comments.countP fun c => c.contentId = n ∧ c.deletedAt = none := by
    rw [h.comments, List.countP_map]
    refine List.countP_congr fun c _ => ?_
    simp only [Function.comp_apply, settleComment]
    split_ifs <;> rfl
  simp only [Reconcile.realCounts, h.likes, h.favorites, hcomments]

theorem Others.realCommentLikes {d' : Db} (h : Others d ids d') (m : Uuid) :
    realCommentLikes d' m = Reconcile.realCommentLikes d m := by
  rw [Reconcile.realCommentLikes, h.commentLikes, Reconcile.realCommentLikes]

/-- comments that are corrected stay as they are when they are looked at again -/
theorem Others.reconcileCommentLikes {d' : Db} (h : Others d ids d') (more : List Uuid) :
    Others d (ids ++ more) (reconcileCommentLikes more d') := by
  refine ⟨h.likes, h.favorites, h.commentLikes, ?_⟩
  simp only [Reconcile.reconcileCommentLikes, h.comments, List.map_map]
  refine List.map_congr_left fun c _ => ?_
  simp only [Function.comp_apply, h.realCommentLikes, settleComment, List.mem_append]
  by_cases hlikes : c.likeCount = Reconcile.realCommentLikes d c.id
  · simp [hlikes]
  · by_cases hids : c.contentId ∈ ids
    · simp [hlikes, hids]
    · simp [hlikes, hids]

theorem settled_correct {row : Window} (h : run.db.items = d.items.map (settle s.now d ids))
    (hreal : row.real = realCounts d row.id) :
    (correct s.now row run.db).items = d.items.map (settle s.now d (ids ++ [row.id])) := by
  simp only [correct, Db.setItems, h, List.map_map]
  refine List.map_congr_left fun r _ => ?_
  simp only [Function.comp_apply, settle_id, hreal]
  by_cases hr : r.id = row.id
  · simp only [settle, hr, List.mem_append, List.mem_singleton, or_true, if_true]
    split_ifs <;> rfl
  · simp only [settle, List.mem_append, List.mem_singleton, hr, or_false, if_false]

/-! ## Windows -/

/-- a turn over one row -/
theorem Settled.visit (h : Settled s d rs run) (r : ContentItem) : Settled s d (rs ++ [r]) (run.visit s (toWindow d r)) := by
  have hwrong : wrong s d (rs ++ [r]) = wrong s d rs ++ wrong s d [r] := by simp [wrong]
  have hright : right d (rs ++ [r]) = right d rs ++ right d [r] := by simp [right]
  unfold Run.visit
  split_ifs with hsame hpending
  · have hsame : realCounts d r.id = r.counts := hsame
    have hnone : wrong s d [r] = [] := by simp [wrong, hsame]
    have hone : right d [r] = [r.id] := by simp [right, hsame]
    rw [hnone, List.append_nil] at hwrong
    rw [hone] at hright
    refine ⟨hwrong ▸ h.items, hwrong ▸ h.corrected, hwrong ▸ h.affected, ?_⟩
    rw [hright, ← h.converged]
    rfl
  · have hsame : realCounts d r.id ≠ r.counts := hsame
    have hpending : s.pending r.id = true := hpending
    have hnone : wrong s d [r] = [] := by simp [wrong, hpending]
    have hnone' : right d [r] = [] := by simp [right, hsame]
    rw [hnone, List.append_nil] at hwrong
    rw [hnone', List.append_nil] at hright
    exact ⟨hwrong ▸ h.items, hwrong ▸ h.corrected, hwrong ▸ h.affected, hright ▸ h.converged⟩
  · have hsame : realCounts d r.id ≠ r.counts := hsame
    have hpending : s.pending r.id = false := by simpa [toWindow] using hpending
    have hone : wrong s d [r] = [r.id] := by simp [wrong, hsame, hpending]
    have hnone : right d [r] = [] := by simp [right, hsame]
    rw [hone] at hwrong
    rw [hnone, List.append_nil] at hright
    refine ⟨?_, ?_, ?_, ?_⟩
    · rw [hwrong]
      exact settled_correct h.items rfl
    · rw [hwrong, ← h.corrected]
      rfl
    · rw [hwrong, List.length_append, ← h.affected]
      rfl
    · rw [hright]
      exact h.converged

/-- what the turns over rows leave as it is -/
structure Same (run run' : Run) : Prop where
  likes : run'.db.likes = run.db.likes
  favorites : run'.db.favorites = run.db.favorites
  commentLikes : run'.db.commentLikes = run.db.commentLikes
  comments : run'.db.comments = run.db.comments
  visited : run'.visited = run.visited
  scanned : run'.scanned = run.scanned

theorem same_visit (s : Settings) (run : Run) (row : Window) : Same run (run.visit s row) := by
  unfold Run.visit
  split_ifs
  · exact ⟨rfl, rfl, rfl, rfl, rfl, rfl⟩
  · exact ⟨rfl, rfl, rfl, rfl, rfl, rfl⟩
  · exact ⟨rfl, rfl, rfl, rfl, rfl, rfl⟩

theorem Same.trans {run' run'' : Run} (h : Same run run') (h' : Same run' run'') : Same run run'' :=
  ⟨h'.likes.trans h.likes, h'.favorites.trans h.favorites, h'.commentLikes.trans h.commentLikes,
    h'.comments.trans h.comments, h'.visited.trans h.visited, h'.scanned.trans h.scanned⟩

/-- by induction on the rows of the window -/
theorem Settled.visits (h : Settled s d rs run) (more : List ContentItem) :
    Settled s d (rs ++ more) ((more.map (toWindow d)).foldl (Run.visit s) run) ∧
      Same run ((more.map (toWindow d)).foldl (Run.visit s) run) := by
  induction more generalizing rs run with
  | nil =>
    rw [List.append_nil]
    exact ⟨h, rfl, rfl, rfl, rfl, rfl, rfl⟩
  | cons r more ih =>
    obtain ⟨hsettled, hsame⟩ := ih (h.visit r)
    rw [List.append_assoc] at hsettled
    exact ⟨hsettled, (same_visit s run (toWindow d r)).trans hsame⟩

theorem Reached.batch (h : Reached s d rs run) (more : List ContentItem) :
    Reached s d (rs ++ more) (run.batch s (more.map (toWindow d))) := by
  have hids : (more.map (toWindow d)).map Window.id = more.map ContentItem.id := by
    rw [List.map_map]
    rfl
  have hcomments := h.others.reconcileCommentLikes (more.map ContentItem.id)
  have hstart : Settled s d rs { run with db := reconcileCommentLikes (more.map ContentItem.id) run.db } :=
    ⟨h.settled.items, h.settled.corrected, h.settled.affected, h.settled.converged⟩
  obtain ⟨hsettled, hsame⟩ := hstart.visits more
  simp only [Run.batch, hids]
  refine ⟨⟨hsettled.items, hsettled.corrected, hsettled.affected, hsettled.converged⟩, ?_, ?_, ?_⟩
  · rw [List.map_append]
    exact ⟨hsame.likes.trans hcomments.likes, hsame.favorites.trans hcomments.favorites,
      hsame.commentLikes.trans hcomments.commentLikes, hsame.comments.trans hcomments.comments⟩
  · rw [List.map_append, hsame.visited, h.visited]
  · rw [List.length_append, hsame.scanned, h.scanned, List.length_map]

theorem mem_scope : r ∈ scope s d ↔ r ∈ d.items ∧ inScope s r = true := by
  rw [scope, List.mem_insertionSort, List.mem_filter]

theorem scope_sorted (s : Settings) (d : Db) : (scope s d).Pairwise fun a b => a.id < b.id :=
  Sorted.pairwise_sorted (d.keyed.sublist (List.filter_sublist.map _))

/-- the rows up to an id, and those beyond it -/
structure Beyond (lastId : Uuid) (rs rest : List ContentItem) : Prop where
  before : ∀ r ∈ rs, r.id ≤ lastId
  after : ∀ r ∈ rest, lastId < r.id

/-- the rows beyond the last one are as they were, so that the window is the first ones of them -/
theorem window_eq (h : Reached s d rs run) (hscope : scope s d = rs ++ rest) (hbeyond : Beyond lastId rs rest) :
    window s lastId run.db = (rest.take s.batchSize).map (toWindow d) := by
  have hwrong : ∀ r : ContentItem, lastId < r.id → r.id ∉ wrong s d rs := by
    intro r hr hmem
    obtain ⟨q, hq, hid⟩ := List.mem_map.1 hmem
    have hle := hbeyond.before q (List.mem_filter.1 hq).1
    rw [hid] at hle
    exact absurd hr (not_lt_of_ge hle)
  have hfilter : (run.db.items.filter fun r => decide (lastId < r.id) && inScope s r) =
      d.items.filter fun r => decide (lastId < r.id) && inScope s r := by
    have hsettle : ∀ r, lastId < r.id → settle s.now d (wrong s d rs) r = r := fun r hr => settle_of_notMem _ _ (hwrong r hr)
    rw [h.settled.items, List.filter_map]
    have hcongr : ∀ r ∈ d.items, ((fun r => decide (lastId < r.id) && inScope s r) ∘ settle s.now d (wrong s d rs)) r =
        (decide (lastId < r.id) && inScope s r) := by
      intro r _
      by_cases hr : lastId < r.id
      · rw [Function.comp_apply, hsettle r hr]
      · simp [settle_id, hr]
    rw [List.filter_congr hcongr]
    refine (List.map_congr_left fun r hr => ?_).trans (List.map_id _)
    rw [List.mem_filter, Bool.and_eq_true, decide_eq_true_eq] at hr
    exact hsettle r hr.2.1
  have hsort : ((d.items.filter fun r => decide (lastId < r.id) && inScope s r).insertionSort fun a b => a.id ≤ b.id) = rest := by
    have hsorted := scope_sorted s d
    rw [hscope] at hsorted
    refine Sorted.eq_of_mem_iff (Sorted.pairwise_sorted (d.keyed.sublist (List.filter_sublist.map _)))
      (List.pairwise_append.1 hsorted).2.1 fun r => ?_
    have hmem : r ∈ rs ++ rest ↔ r ∈ d.items ∧ inScope s r = true := by rw [← hscope, mem_scope]
    rw [List.mem_insertionSort, List.mem_filter, Bool.and_eq_true, decide_eq_true_eq]
    constructor
    · rintro ⟨hr, hlt, hin⟩
      refine (List.mem_append.1 (hmem.2 ⟨hr, hin⟩)).resolve_left fun hrs => ?_
      exact absurd hlt (not_lt_of_ge (hbeyond.before r hrs))
    · intro hr
      obtain ⟨hitem, hin⟩ := hmem.1 (List.mem_append_right _ hr)
      exact ⟨hitem, hbeyond.after r hr, hin⟩
  rw [window, hfilter, hsort]
  refine List.map_congr_left fun r _ => ?_
  rw [toWindow, h.others.realCounts, toWindow]

/-- by induction on the number of windows that are left -/
theorem windows_spec (hs : 0 < s.batchSize) {fuel : ℕ} (h : Reached s d rs run) (hscope : scope s d = rs ++ rest)
    (hbeyond : Beyond lastId rs rest) (hfuel : rest.length < fuel) :
    ∃ run', windows s fuel lastId run = some run' ∧ Reached s d (scope s d) run' := by
  induction fuel generalizing rs rest lastId run with
  | zero => exact absurd hfuel (Nat.not_lt_zero _)
  | succ fuel ih =>
    rw [windows, window_eq h hscope hbeyond, List.getLast?_map]
    rcases hlast : (rest.take s.batchSize).getLast? with _ | last
    · have hnil : rest = [] := by
        rcases List.take_eq_nil_iff.1 (List.getLast?_eq_none_iff.1 hlast) with hzero | hnil
        · omega
        · exact hnil
      rw [hnil, List.append_nil] at hscope
      exact ⟨run, rfl, hscope ▸ h⟩
    · have hsplit : rest = rest.take s.batchSize ++ rest.drop s.batchSize := (List.take_append_drop _ _).symm
      have hmem : last ∈ rest.take s.batchSize := List.mem_of_getLast? hlast
      have hsorted := scope_sorted s d
      rw [hscope, hsplit] at hsorted
      obtain ⟨-, hsorted, hcross⟩ := List.pairwise_append.1 hsorted
      obtain ⟨hfirst, -, hrest⟩ := List.pairwise_append.1 hsorted
      have hscope' : scope s d = (rs ++ rest.take s.batchSize) ++ rest.drop s.batchSize := by
        rw [hscope, List.append_assoc, List.take_append_drop]
      refine ih (h.batch _) hscope' ⟨fun r hr => ?_, fun r hr => ?_⟩ ?_
      · rcases List.mem_append.1 hr with hr | hr
        · exact le_of_lt (hcross r hr last (List.mem_append_left _ hmem))
        · exact Sorted.le_getLast hfirst hlast hr
      · exact hrest last hmem r hr
      · have hpos : 0 < (rest.take s.batchSize).length := List.length_pos_of_mem hmem
        rw [List.length_take] at hpos
        rw [List.length_drop]
        omega

/-! ## The whole run -/

theorem inScope_of_mem (hr : r ∈ d.items) {q : ContentItem} (hq : q ∈ scope s d) (hid : q.id = r.id) : q = r :=
  List.inj_on_of_nodup_map d.keyed (mem_scope.1 hq).1 hr hid

theorem mem_wrong (hr : r ∈ d.items) :
    r.id ∈ wrong s d (scope s d) ↔ inScope s r = true ∧ realCounts d r.id ≠ r.counts ∧ s.pending r.id = false := by
  simp only [wrong, List.mem_map, List.mem_filter, Bool.and_eq_true, decide_eq_true_eq, Bool.not_eq_true']
  constructor
  · rintro ⟨q, ⟨hq, hne, hpending⟩, hid⟩
    obtain rfl := inScope_of_mem hr hq hid
    exact ⟨(mem_scope.1 hq).2, hne, hpending⟩
  · rintro ⟨hin, hne, hpending⟩
    exact ⟨r, ⟨mem_scope.2 ⟨hr, hin⟩, hne, hpending⟩, rfl⟩

theorem mem_right (hr : r ∈ d.items) : r.id ∈ right d (scope s d) ↔ inScope s r = true ∧ realCounts d r.id = r.counts := by
  simp only [right, List.mem_map, List.mem_filter, decide_eq_true_eq]
  constructor
  · rintro ⟨q, ⟨hq, heq⟩, hid⟩
    obtain rfl := inScope_of_mem hr hq hid
    exact ⟨(mem_scope.1 hq).2, heq⟩
  · rintro ⟨hin, heq⟩
    exact ⟨r, ⟨mem_scope.2 ⟨hr, hin⟩, heq⟩, rfl⟩

/-- what becomes of a row in the end -/
def outcome (s : Settings) (d : Db) (r : ContentItem) : ContentItem :=
  if inScope s r = true then
    if realCounts d r.id = r.counts then { r with countsReconciledAt := some s.now }
    else if s.pending r.id = true then r
    else { r with counts := realCounts d r.id, countsReconciledAt := some s.now }
  else r

/-- the row after its correction and its mark -/
theorem marked_settle (s : Settings) (hr : r ∈ d.items) :
    (if r.id ∈ right d (scope s d) then { settle s.now d (wrong s d (scope s d)) r with countsReconciledAt := some s.now }
      else settle s.now d (wrong s d (scope s d)) r) = outcome s d r := by
  by_cases hin : inScope s r = true
  · by_cases heq : realCounts d r.id = r.counts
    · have hwrong : r.id ∉ wrong s d (scope s d) := fun hmem => ((mem_wrong hr).1 hmem).2.1 heq
      rw [settle_of_notMem _ _ hwrong, if_pos ((mem_right hr).2 ⟨hin, heq⟩), outcome, if_pos hin, if_pos heq]
    · have hright : r.id ∉ right d (scope s d) := fun hmem => heq ((mem_right hr).1 hmem).2
      rw [if_neg hright, outcome, if_pos hin, if_neg heq]
      by_cases hpending : s.pending r.id = true
      · have hwrong : r.id ∉ wrong s d (scope s d) := by
          intro hmem
          rw [((mem_wrong hr).1 hmem).2.2] at hpending
          cases hpending
        rw [settle_of_notMem _ _ hwrong, if_pos hpending]
      · have hwrong : r.id ∈ wrong s d (scope s d) := (mem_wrong hr).2 ⟨hin, heq, by simpa using hpending⟩
        rw [settle, if_pos hwrong, if_neg hpending]
  · have hwrong : r.id ∉ wrong s d (scope s d) := fun hmem => hin ((mem_wrong hr).1 hmem).1
    have hright : r.id ∉ right d (scope s d) := fun hmem => hin ((mem_right hr).1 hmem).1
    rw [settle_of_notMem _ _ hwrong, if_neg hright, outcome, if_neg hin]

/-- the answer of a run, and the tables after it -/
structure Ended (s : Settings) (d : Db) (run : Run) : Prop where
  items : run.db.items = d.items.map (outcome s d)
  others : Others d ((scope s d).map ContentItem.id) run.db
  visited : run.visited = (scope s d).map ContentItem.id
  scanned : run.scanned = (scope s d).length
  affected : run.affected = (wrong s d (scope s d)).length

theorem reached_nil (s : Settings) (d : Db) : Reached s d [] { db := d } := by
  refine ⟨⟨?_, rfl, rfl, rfl⟩, ⟨rfl, rfl, rfl, ?_⟩, rfl, rfl⟩
  · refine ((List.map_congr_left fun r _ => ?_).trans (List.map_id _)).symm
    exact settle_of_notMem _ _ List.not_mem_nil
  · refine ((List.map_congr_left fun c _ => ?_).trans (List.map_id _)).symm
    exact if_neg fun h => List.not_mem_nil h.1

theorem reconcile_ended (hs : 0 < s.batchSize) (d : Db) : ∃ run, reconcileCounts s d = some run ∧ Ended s d run := by
  have hbeyond : Beyond 0 [] (scope s d) :=
    ⟨fun r hr => (List.not_mem_nil hr).elim, fun r hr => Fin.pos_of_ne_zero (d.proper r (mem_scope.1 hr).1)⟩
  have hfuel : (scope s d).length < d.items.length + 1 := by
    rw [scope, List.length_insertionSort]
    exact Nat.lt_succ_of_le (List.length_filter_le _ _)
  obtain ⟨run, hrun, h⟩ := windows_spec hs (reached_nil s d) rfl hbeyond hfuel
  refine ⟨{ run with db := mark s.now run.converged run.db }, by rw [reconcileCounts, hrun]; rfl, ?_, ?_, h.visited, h.scanned,
    h.settled.affected⟩
  · simp only [mark, Db.setItems, h.settled.items, h.settled.converged, List.map_map]
    refine List.map_congr_left fun r hr => ?_
    have hmarked := marked_settle s hr
    simpa only [Function.comp_apply, settle_id] using hmarked
  · exact ⟨h.others.likes, h.others.favorites, h.others.commentLikes, h.others.comments⟩

theorem outcome_id (s : Settings) (d : Db) (r : ContentItem) : (outcome s d r).id = r.id := by
  unfold outcome
  split_ifs <;> rfl

/-- a row that has been visited is right, or has a pending delta -/
theorem outcome_right (hin : inScope s r = true) (hpending : s.pending r.id = false) :
    (outcome s d r).counts = realCounts d r.id := by
  unfold outcome
  rw [if_pos hin]
  split_ifs with heq
  · exact heq.symm
  · rw [hpending] at *
    contradiction
  · rfl

theorem kept_outcome (s : Settings) (d : Db) (r : ContentItem) : Kept s d r (outcome s d r) := by
  unfold outcome
  split_ifs with hin heq hpending
  · exact ⟨rfl, rfl, fun h => absurd rfl h, fun _ => ⟨hin, heq.symm⟩⟩
  · exact ⟨rfl, rfl, fun h => absurd rfl h, fun h => absurd rfl h⟩
  · exact ⟨rfl, rfl, fun _ => ⟨hin, fun h => heq h.symm⟩, fun _ => ⟨hin, rfl⟩⟩
  · exact ⟨rfl, rfl, fun h => absurd rfl h, fun h => absurd rfl h⟩

theorem keptComment_settle (d : Db) (ids : List Uuid) (c : ContentComment) : KeptComment d c (settleComment d ids c) := by
  unfold settleComment
  split_ifs with h
  · exact .inr ⟨h.2, rfl⟩
  · exact .inl rfl

/-- a second run finds in its scope only rows of the first one's -/
theorem Ended.wrong_nil (h : Ended s d run) (honly : s'.onlyUnconverged = s.onlyUnconverged) (hpending : s'.pending = s.pending) :
    wrong s' run.db (scope s' run.db) = [] := by
  rw [wrong, List.map_eq_nil_iff, List.filter_eq_nil_iff]
  intro r' hr' hwrong
  obtain ⟨hmem, hin'⟩ := mem_scope.1 hr'
  rw [h.items] at hmem
  obtain ⟨r, _, rfl⟩ := List.mem_map.1 hmem
  rw [Bool.and_eq_true, decide_eq_true_eq, h.others.realCounts, outcome_id, hpending] at hwrong
  have hin : inScope s r = true := by
    by_contra hout
    rw [outcome, if_neg hout, inScope, honly] at hin'
    exact hout hin'
  exact hwrong.1 (outcome_right hin (by simpa using hwrong.2)).symm

theorem forall₂_map {α β : Type} {R : α → β → Prop} (f : α → β) (hf : ∀ a, R a (f a)) (l : List α) : List.Forall₂ R l (l.map f) :=
  List.forall₂_map_right_iff.2 (List.forall₂_same.2 fun a _ => hf a)

theorem Ended.complete (h : Ended s d run) : Complete s d run where
  ascending := by
    rw [h.visited]
    exact List.pairwise_map.2 (scope_sorted s d)
  visited n := by
    rw [h.visited, List.mem_map]
    constructor
    · rintro ⟨r, hr, rfl⟩
      exact ⟨r, (mem_scope.1 hr).1, rfl, (mem_scope.1 hr).2⟩
    · rintro ⟨r, hr, rfl, hin⟩
      exact ⟨r, mem_scope.2 ⟨hr, hin⟩, rfl⟩
  scanned := by rw [h.scanned, h.visited, List.length_map]
  counted r' hr' hvisited hpending := by
    rw [h.items] at hr'
    obtain ⟨r, hr, rfl⟩ := List.mem_map.1 hr'
    rw [outcome_id] at hvisited hpending
    rw [h.visited] at hvisited
    obtain ⟨q, hq, hid⟩ := List.mem_map.1 hvisited
    obtain rfl := inScope_of_mem hr hq hid
    rw [h.others.realCounts, outcome_id]
    exact outcome_right (mem_scope.1 hq).2 hpending
  rows := by
    rw [h.items]
    exact forall₂_map _ (kept_outcome s d) _
  comments := by
    rw [h.others.comments]
    exact forall₂_map _ (keptComment_settle d _) _
  details := h.others.realCounts
  again s' hs' honly hpending := by
    obtain ⟨run', hrun', hended⟩ := reconcile_ended hs' run.db
    exact ⟨run', hrun', by rw [hended.affected, h.wrong_nil honly hpending, List.length_nil]⟩

/-- **Reconciliation.** A run over any state visits the items in scope once, in the order of their ids; it leaves those
without a pending delta with the counts of their details, changes the counts of no row that did not differ and no
`updated_at`, and a second one corrects nothing. -/
theorem reconcile_complete (s : Settings) (d : Db) (hs : 0 < s.batchSize) :
    ∃ run, reconcileCounts s d = some run ∧ Complete s d run := by
  obtain ⟨run, hrun, hended⟩ := reconcile_ended hs d
  exact ⟨run, hrun, hended.complete⟩

/-! ## Two rows -/

/-- a row that is right, and one that is wrong -/
def twoRows : Db where
  items := [{ id := 2, counts := (5, 0, 0), countsReconciledAt := none, updatedAt := 10 },
    { id := 1, counts := (0, 0, 0), countsReconciledAt := none, updatedAt := 20 }]
  likes := []
  favorites := []
  comments := []
  commentLikes := []
  keyed := by decide
  proper := by decide

theorem reconcile_complete_demo : ∃ run, reconcileCounts { batchSize := 1, now := 30 } twoRows = some run ∧
    Complete { batchSize := 1, now := 30 } twoRows run :=
  reconcile_complete { batchSize := 1, now := 30 } twoRows (by decide)

/-- the right row is written to, and the wrong one, which has a pending delta, is not -/
theorem not_as_claimed : ∃ run, reconcileCounts { pending := fun n => n = 2, now := 30 } twoRows = some run ∧
    run.visited = [1, 2] ∧
    ¬List.Forall₂ (fun r r' => r' ≠ r → r.counts ≠ realCounts twoRows r.id) twoRows.items run.db.items ∧
    ¬∀ r ∈ run.db.items, r.id ∈ run.visited → r.counts = realCounts run.db r.id := by
  refine ⟨_, rfl, rfl, ?_, ?_⟩
  · decide
  · decide

end LkmService.Reconcile
