/-
The counters and the reply trees of the committed state, what the sessions leave of them, and what a session may have
written when it commits.

- `InStep σ`: every stored counter is the number of the rows that it counts.
- `Rooted σ`: a reply is younger than the comment it replies to, and belongs to the same article.
- `subtree σ m`: the comment `m` with its replies of any depth. `toDelete_spec`: the recursive query ends, and the
  UPDATE finds the members of the subtree that are not deleted.
- `Fit o σ`: what a session that holds `o` would commit keeps counters and trees. There is one lemma for each kind of
  commit: a like that comes or goes, a new comment, and a deletion.
-/
import Mathlib.Algebra.Order.Group.Nat
import LkmService.Lib.Count
import LkmService.Replies.Model

namespace LkmService.Replies

open Session Sql Recursion Tbl Relation

variable {o : Held} {σ τ υ : State} {n m k : ℕ}

/-! ## The invariant -/

/-- the counter `f` of every article is the number of the rows of `t` that belong to it -/
def Counted (σ : State) (t : Tbl) (f : Article → ℤ) (p : ℕ → Row t → Bool) : Prop :=
  ∀ n r, σ.com articles n = some r → f r = (σ.matching t (p n)).ncard

/-- the stored counters are the numbers of the rows; deleted comments do not count -/
structure InStep (σ : State) : Prop where
  likes : Counted σ articleLikes (·.likes) fun n l => l.articleId == n
  comments : Counted σ articleComments (·.comments) fun n c => c.articleId == n && !c.deleted

/-- a reply is younger than the comment it replies to, and belongs to the same article -/
def Rooted (σ : State) : Prop :=
  ∀ k c p, σ.com articleComments k = some c → c.parentId = some p →
    p < k ∧ ∃ c', σ.com articleComments p = some c' ∧ c'.articleId = c.articleId

/-- the article of a comment is there: the foreign key of `article_comments` -/
def Placed (σ : State) : Prop := ∀ k c, σ.com articleComments k = some c → σ.com articles c.articleId ≠ none

structure Inv (σ : State) : Prop where
  inStep : InStep σ
  rooted : Rooted σ
  placed : Placed σ

theorem Inv.bump (h : Inv σ) (t : Tbl) (n : ℕ) : Inv (σ.bump t n) :=
  ⟨⟨h.inStep.likes, h.inStep.comments⟩, h.rooted, h.placed⟩

/-- articles stay; comments stay where they are, and a deleted one is not restored -/
structure Grows (σ τ : State) : Prop where
  article : ∀ n, τ.com articles n = none ↔ σ.com articles n = none
  comment : ∀ m c, σ.com articleComments m = some c → ∃ c', τ.com articleComments m = some c' ∧
    c'.articleId = c.articleId ∧ c'.parentId = c.parentId ∧ (c.deleted = true → c'.deleted = true)

theorem Grows.refl (σ : State) : Grows σ σ := ⟨fun _ => Iff.rfl, fun _ c hc => ⟨c, hc, rfl, rfl, id⟩⟩

theorem Grows.trans (h : Grows σ τ) (h' : Grows τ υ) : Grows σ υ where
  article n := (h'.article n).trans (h.article n)
  comment m c hc := by
    obtain ⟨c₁, hc₁, ha, hp, hd⟩ := h.comment m c hc
    obtain ⟨c₂, hc₂, ha', hp', hd'⟩ := h'.comment m c₁ hc₁
    exact ⟨c₂, hc₂, ha'.trans ha, hp'.trans hp, fun hdel => hd' (hd hdel)⟩

theorem Grows.bump (h : Grows σ τ) (t : Tbl) (n : ℕ) : Grows σ (τ.bump t n) := ⟨h.article, h.comment⟩

/-! ## Subtrees -/

/-- `b` replies to `a` -/
def RepliesTo (σ : State) (a b : ℕ) : Prop := ∃ c, σ.com articleComments b = some c ∧ c.parentId = some a

/-- a comment with its replies of any depth, deleted or not -/
def subtree (σ : State) (m : ℕ) : Set ℕ := {k | σ.com articleComments m ≠ none ∧ ReflTransGen (RepliesTo σ) m k}

/-- the comment is there and not deleted -/
def live (σ : State) : Set ℕ := {k | ∃ c, σ.com articleComments k = some c ∧ c.deleted = false}

/-- **One article.** All members of a subtree belong to the article of its root. -/
theorem article_of_subtree (h : Rooted σ) {c : ArticleComment} (hm : σ.com articleComments m = some c)
    (hk : k ∈ subtree σ m) : ∃ c', σ.com articleComments k = some c' ∧ c'.articleId = c.articleId := by
  obtain ⟨-, hreach⟩ := hk
  induction hreach with
  | refl => exact ⟨c, hm, rfl⟩
  | tail _ hstep ih =>
    obtain ⟨c₁, hc₁, ha⟩ := ih
    obtain ⟨c₂, hc₂, hp⟩ := hstep
    obtain ⟨-, c', hc', ha'⟩ := h _ c₂ _ hc₂ hp
    rw [hc₁, Option.some.injEq] at hc'
    subst hc'
    exact ⟨c₂, hc₂, ha'.symm.trans ha⟩

/-- the number of rows that are older -/
theorem countP_older_lt {R : Type} {rows : List (ℕ × R)} {a b : ℕ} (ha : a ∈ rows.map Prod.fst) (hab : a < b) :
    rows.countP (fun q => decide (q.1 < a)) < rows.countP fun q => decide (q.1 < b) := by
  obtain ⟨⟨a', r⟩, hq, rfl⟩ := List.mem_map.1 ha
  obtain ⟨l, l', rfl⟩ := List.append_of_mem hq
  have hmono : ∀ l : List (ℕ × R), l.countP (fun q => decide (q.1 < a')) ≤ l.countP fun q => decide (q.1 < b) :=
    fun l => List.countP_mono_left fun q _ hlt => by
      simp only [decide_eq_true_eq] at hlt ⊢
      omega
  have hl := hmono l
  have hl' := hmono l'
  simp only [List.countP_append, List.countP_cons, lt_irrefl, decide_false, hab, decide_true, if_true]
  simp only [Bool.false_eq_true, if_false]
  omega

section Query

variable {rows : List (ℕ × ArticleComment)} {tree : List ℕ}

theorem mem_replies (hrows : ∀ n c, (n, c) ∈ rows ↔ σ.com articleComments n = some c) :
    k ∈ replies rows tree ↔ ∃ p ∈ tree, RepliesTo σ p k := by
  simp only [replies, List.mem_map, List.mem_filter, Option.any_eq_true, List.contains_iff_mem]
  constructor
  · rintro ⟨⟨k', c⟩, ⟨hq, p, hp, hmem⟩, rfl⟩
    exact ⟨p, hmem, c, (hrows _ c).1 hq, hp⟩
  · rintro ⟨p, hmem, c, hc, hp⟩
    exact ⟨(k, c), ⟨(hrows k c).2 hc, p, hp, hmem⟩, rfl⟩

/-- the query ends: each round goes on with younger comments -/
theorem tree_isSome (hrows : ∀ n c, (n, c) ∈ rows ↔ σ.com articleComments n = some c) (h : Rooted σ) :
    (articleCommentTree rows m).isSome := by
  have hnext : ∀ l k, k ∈ replies rows l → ∃ p ∈ l, RepliesTo σ p k := fun l k hk => (mem_replies hrows).1 hk
  refine recursive_isSome (p := (· ∈ rows.map Prod.fst)) (fun k => rows.countP fun q => decide (q.1 < k))
    (rows.length + 1) hnext ?_ ?_ (Nat.le_add_right _ 0) ?_
  · rintro p k hp ⟨c, hc, hparent⟩
    obtain ⟨hlt, -⟩ := h k c p hc hparent
    exact ⟨List.mem_map.2 ⟨(k, c), (hrows k c).2 hc, rfl⟩, countP_older_lt hp hlt⟩
  · intro k _
    have := List.countP_le_length (p := fun q : ℕ × ArticleComment => decide (q.1 < k)) (l := rows)
    omega
  · intro k hk
    obtain ⟨q, hq, rfl⟩ := List.mem_map.1 hk
    exact ⟨List.mem_map_of_mem (List.mem_of_mem_filter hq), Nat.zero_le _⟩

theorem mem_tree (hrows : ∀ n c, (n, c) ∈ rows ↔ σ.com articleComments n = some c)
    (h : articleCommentTree rows m = some tree) : k ∈ tree ↔ k ∈ subtree σ m := by
  rw [mem_recursive (fun l k => mem_replies hrows) h]
  have hseed : ∀ x, x ∈ (rows.filter fun q => q.1 == m).map Prod.fst ↔ σ.com articleComments m ≠ none ∧ x = m := by
    intro x
    simp only [List.mem_map, List.mem_filter, beq_iff_eq, Option.ne_none_iff_exists']
    constructor
    · rintro ⟨⟨x', c⟩, ⟨hq, rfl⟩, rfl⟩
      exact ⟨⟨c, (hrows _ c).1 hq⟩, rfl⟩
    · rintro ⟨⟨c, hc⟩, rfl⟩
      exact ⟨(x, c), ⟨(hrows x c).2 hc, rfl⟩, rfl⟩
  constructor
  · rintro ⟨x, hx, hreach⟩
    obtain ⟨hm, rfl⟩ := (hseed x).1 hx
    exact ⟨hm, hreach⟩
  · rintro ⟨hm, hreach⟩
    exact ⟨m, (hseed m).2 ⟨hm, rfl⟩, hreach⟩

/-- **The candidates.** The UPDATE finds the members of the subtree that are not deleted in its snapshot. -/
theorem toDelete_spec (hrows : ∀ n c, (n, c) ∈ rows ↔ σ.com articleComments n = some c) (h : Rooted σ) :
    ∃ ids, toDelete rows m = some ids ∧ ∀ k, k ∈ ids ↔ k ∈ subtree σ m ∧ k ∈ live σ := by
  obtain ⟨tree, htree⟩ := Option.isSome_iff_exists.1 (tree_isSome (m := m) hrows h)
  refine ⟨_, by rw [toDelete, htree, Option.map_some], fun k => ?_⟩
  simp only [List.mem_map, List.mem_filter, Bool.and_eq_true, List.contains_iff_mem, Bool.not_eq_true']
  constructor
  · rintro ⟨⟨k', c⟩, ⟨hq, hmem, hlive⟩, rfl⟩
    exact ⟨(mem_tree hrows htree).1 hmem, c, (hrows _ c).1 hq, hlive⟩
  · rintro ⟨hmem, c, hc, hlive⟩
    exact ⟨(k, c), ⟨(hrows k c).2 hc, (mem_tree hrows htree).2 hmem, hlive⟩, rfl⟩

end Query

/-! ## What a commit does to the counters -/

section Counters

variable {t : Tbl} {f : Article → ℤ} {p : ℕ → Row t → Bool}

/-- neither the counters change nor the rows -/
theorem Counted.keep (h : Counted σ t f p)
    (ha : ∀ n r', τ.com articles n = some r' → ∃ r, σ.com articles n = some r ∧ f r' = f r)
    (ht : τ.com t = σ.com t) : Counted τ t f p := by
  intro n r' hr'
  obtain ⟨r, hr, hf⟩ := ha n r' hr'
  have hset : τ.matching t (p n) = σ.matching t (p n) := by rw [Snap.matching, Snap.matching, ht]
  rw [hf, h n r hr, hset]

/-- the counter of one article moves with its rows, and no other article has rows that change -/
theorem Counted.move {r r' : Article} (h : Counted σ t f p) (hr : σ.com articles n = some r)
    (hr' : τ.com articles n = some r') (ha : ∀ n', n' ≠ n → τ.com articles n' = σ.com articles n')
    (hother : ∀ n', n' ≠ n → (τ.matching t (p n')).ncard = (σ.matching t (p n')).ncard)
    (hmove : f r' + (σ.matching t (p n)).ncard = f r + (τ.matching t (p n)).ncard) : Counted τ t f p := by
  intro n' r'' hr''
  by_cases hn : n' = n
  · subst hn
    rw [hr', Option.some.injEq] at hr''
    subst hr''
    have := h n' r hr
    omega
  · rw [ha n' hn] at hr''
    rw [hother n' hn]
    exact h n' r'' hr''

/-- one row comes, goes or stays, all of it in the article `n` -/
theorem Counted.row {r r' : Article} {v : Option (Row t)} (h : Counted σ t f p) (hfresh : σ.Fresh o)
    (ha : o.Just articles n (some r')) (hr : σ.com articles n = some r) (ht : o.Just t k v)
    (hother : ∀ n', n' ≠ n → v.any (p n') = (σ.com t k).any (p n'))
    (hmove : f r' + ((σ.com t k).any (p n)).toNat = f r + (v.any (p n)).toNat) : Counted (σ.merge o) t f p := by
  have hcard : ∀ n', ((σ.merge o).matching t (p n')).ncard + ((σ.com t k).any (p n')).toNat =
      (σ.matching t (p n')).ncard + (v.any (p n')).toNat := by
    intro n'
    have hone := Snap.ncard_matching (Snap.matching_finite hfresh (p n')) fun k' hk' => ht.com_ne hk'
    rwa [ht.com_self] at hone
  refine h.move hr ha.com_self (fun n' hn' => ha.com_ne hn') (fun n' hn' => ?_) ?_
  · have := hcard n'
    rw [hother n' hn'] at this
    omega
  · have := hcard n
    omega

end Counters

/-- no comment comes or moves: the trees stay -/
theorem Inv.keep (h : Inv σ) (hstep : InStep τ) (hg : Grows σ τ) (hold : ∀ k c', τ.com articleComments k = some c' →
    ∃ c, σ.com articleComments k = some c ∧ c'.articleId = c.articleId ∧ c'.parentId = c.parentId) : Inv τ := by
  refine ⟨hstep, fun k c' p hc' hp => ?_, fun k c' hc' => ?_⟩
  · obtain ⟨c, hc, ha, hparent⟩ := hold k c' hc'
    obtain ⟨hlt, d, hd, had⟩ := h.rooted k c p hc (hparent.symm.trans hp)
    obtain ⟨d', hd', had', -⟩ := hg.comment p d hd
    exact ⟨hlt, d', hd', had'.trans (had.trans ha.symm)⟩
  · obtain ⟨c, hc, ha, -⟩ := hold k c' hc'
    rw [ha, ne_eq, hg.article]
    exact h.placed k c hc

/-! ## Commits of each kind -/

/-- what a session that holds `o` would commit keeps counters and trees -/
structure Fit (o : Held) (σ : State) : Prop where
  inv : Inv (σ.merge o)
  grows : Grows σ (σ.merge o)

/-- a session that writes no article: it does not add or remove one either -/
theorem article_iff {r' : Article} (ha : o.Just articles n (some r')) (hn : σ.com articles n ≠ none) (n' : ℕ) :
    (σ.merge o).com articles n' = none ↔ σ.com articles n' = none := by
  rw [ha.com]
  split_ifs with heq
  · subst heq
    simp [hn]
  · rfl

/-- a session that writes nothing that counts -/
theorem Fit.nothing (h : Inv σ) (ha : o.Nothing articles) (hl : o.Nothing articleLikes)
    (hc : o.Nothing articleComments) : Fit o σ := by
  have harticles : (σ.merge o).com articles = σ.com articles := funext ha.com
  have hcomments : (σ.merge o).com articleComments = σ.com articleComments := funext hc.com
  have hg : Grows σ (σ.merge o) := ⟨fun n => by rw [harticles], fun m c hm => ⟨c, by rw [hcomments, hm], rfl, rfl, id⟩⟩
  refine ⟨h.keep ⟨?_, ?_⟩ hg fun k c' hc' => ⟨c', by rwa [← hcomments], rfl, rfl⟩, hg⟩
  · exact h.inStep.likes.keep (fun n r' hr' => ⟨r', by rwa [← harticles], rfl⟩) (funext hl.com)
  · exact h.inStep.comments.keep (fun n r' hr' => ⟨r', by rwa [← harticles], rfl⟩) hcomments

/-- a like comes or goes with its counter -/
theorem Fit.like {r : Article} {δ : ℤ} {v : Option ArticleLike} (h : Inv σ) (hfresh : σ.Fresh o)
    (ha : o.Just articles n (some (r.bump δ .likes))) (hr : σ.com articles n = some r) (hl : o.Just articleLikes k v)
    (hc : o.Nothing articleComments) (hold : ∀ x, σ.com articleLikes k = some x → x.articleId = n)
    (hnew : ∀ x, v = some x → x.articleId = n) (hδ : δ + (σ.com articleLikes k).isSome.toNat = v.isSome.toNat) :
    Fit o σ := by
  have hcomments : (σ.merge o).com articleComments = σ.com articleComments := funext hc.com
  have hg : Grows σ (σ.merge o) :=
    ⟨article_iff ha (by simp [hr]), fun m c hm => ⟨c, by rw [hcomments, hm], rfl, rfl, id⟩⟩
  refine ⟨h.keep ⟨?_, ?_⟩ hg fun k c' hc' => ⟨c', by rwa [← hcomments], rfl, rfl⟩, hg⟩
  · refine h.inStep.likes.row hfresh ha hr hl (fun n' hn' => ?_) ?_
    · rw [any_beq hnew, any_beq hold, beq_false_of_ne hn'.symm, Bool.and_false, Bool.and_false]
    · rw [any_beq hnew, any_beq hold, beq_self_eq_true, Bool.and_true, Bool.and_true]
      simp only [Article.bump]
      omega
  · exact h.inStep.comments.keep (ha.base hr rfl) hcomments

/-- a new comment, of which the counter is told -/
theorem Fit.comment {r : Article} {c : ArticleComment} (h : Inv σ) (hfresh : σ.Fresh o)
    (ha : o.Just articles n (some (r.bump 1 .comments))) (hr : σ.com articles n = some r)
    (hc : o.Just articleComments k (some c)) (hl : o.Nothing articleLikes) (hk : σ.com articleComments k = none)
    (hn : c.articleId = n) (hlive : c.deleted = false)
    (hparent : ∀ p, c.parentId = some p → p < k ∧ ∃ c', σ.com articleComments p = some c' ∧ c'.articleId = n) :
    Fit o σ := by
  have hstays : ∀ m d, σ.com articleComments m = some d → (σ.merge o).com articleComments m = some d := by
    intro m d hm
    rw [hc.com_ne fun hmk => by simp [hmk, hk] at hm]
    exact hm
  have hg : Grows σ (σ.merge o) :=
    ⟨article_iff ha (by simp [hr]), fun m d hm => ⟨d, hstays m d hm, rfl, rfl, id⟩⟩
  refine ⟨⟨⟨?_, ?_⟩, ?_, ?_⟩, hg⟩
  · exact h.inStep.likes.keep (ha.base hr rfl) (funext hl.com)
  · refine h.inStep.comments.row hfresh ha hr hc (fun n' hn' => ?_) ?_
    · simp [hk, hn, hn'.symm]
    · simp [hk, hn, hlive, Article.bump]
  · -- nobody has replied to the new comment
    intro m d p hm hp
    rw [hc.com] at hm
    split_ifs at hm with hmk
    · rw [Option.some.injEq] at hm
      subst hmk hm
      obtain ⟨hlt, d', hd', had'⟩ := hparent p hp
      exact ⟨hlt, d', hstays p d' hd', had'.trans hn.symm⟩
    · obtain ⟨hlt, d', hd', had'⟩ := h.rooted m d p hm hp
      exact ⟨hlt, d', hstays p d' hd', had'⟩
  · intro m d hm
    rw [ne_eq, hg.article]
    rw [hc.com] at hm
    split_ifs at hm with hmk
    · rw [Option.some.injEq] at hm
      simp [← hm, hn, hr]
    · exact h.placed m d hm

/-! ## Deletions -/

/-- the comments that the session has marked as deleted -/
def marked (o : Held) : Set ℕ := {k | o.row articleComments k ≠ none}

theorem finite_marked (h : σ.Fresh o) : (marked o).Finite := by
  refine (Set.finite_lt_nat (σ.next articleComments)).subset fun k hk => ?_
  by_contra hlt
  exact hk (h articleComments k (not_lt.1 hlt)).2

/-- the session has marked comments of article `n` only, none of which was deleted before -/
def Marks (o : Held) (σ : State) (n : ℕ) : Prop :=
  ∀ k v, o.row articleComments k = some v → ∃ c, σ.com articleComments k = some c ∧ c.deleted = false ∧
    c.articleId = n ∧ v = some { c with deleted := true }

theorem Marks.com (h : Marks o σ n) {c' : ArticleComment} (hc' : (σ.merge o).com articleComments k = some c') :
    ∃ c, σ.com articleComments k = some c ∧ (k ∉ marked o ∧ c' = c ∨
      k ∈ marked o ∧ c.articleId = n ∧ c.deleted = false ∧ c' = { c with deleted := true }) := by
  rcases Snap.merge_cases hc' with ho | ⟨ho, hσ⟩
  · obtain ⟨c, hc, hlive, hn, hv⟩ := h k _ ho
    rw [Option.some.injEq] at hv
    exact ⟨c, hc, Or.inr ⟨by simp [marked, ho], hn, hlive, hv⟩⟩
  · exact ⟨c', hσ, Or.inl ⟨by simp [marked, ho], rfl⟩⟩

theorem Marks.grows (h : Marks o σ n) (ha : ∀ n', (σ.merge o).com articles n' = none ↔ σ.com articles n' = none) :
    Grows σ (σ.merge o) := by
  refine ⟨ha, fun k c hc => ?_⟩
  rcases ho : o.row articleComments k with _ | v
  · exact ⟨c, (Snap.merge_of_none ho σ).trans hc, rfl, rfl, id⟩
  · obtain ⟨d, hd, -, -, rfl⟩ := h k v ho
    rw [hc, Option.some.injEq] at hd
    subst hd
    exact ⟨{ c with deleted := true }, Snap.merge_of_some ho σ, rfl, rfl, fun _ => rfl⟩

/-- the rows that still count are those that are not marked -/
theorem Marks.matching (h : Marks o σ n) (n' : ℕ) :
    (σ.merge o).matching articleComments (fun c => c.articleId == n' && !c.deleted) =
      σ.matching articleComments (fun c => c.articleId == n' && !c.deleted) \ marked o := by
  ext k
  simp only [Snap.matching, Set.mem_sdiff, Set.mem_ofPred_eq, marked, ne_eq, not_not]
  rcases ho : o.row articleComments k with _ | v
  · rw [Snap.merge_of_none ho]
    simp
  · obtain ⟨c, -, -, -, rfl⟩ := h k v ho
    rw [Snap.merge_of_some ho]
    simp

/-- a deletion: the counter goes down by the number of comments that are marked -/
theorem Fit.delete {r : Article} (h : Inv σ) (hfresh : σ.Fresh o) (hmarks : Marks o σ n)
    (ha : o.Just articles n (some (r.bump (-(marked o).ncard) .comments))) (hr : σ.com articles n = some r)
    (hl : o.Nothing articleLikes) : Fit o σ := by
  have hg := hmarks.grows (article_iff ha (by simp [hr]))
  refine ⟨h.keep ⟨?_, ?_⟩ hg ?_, hg⟩
  · exact h.inStep.likes.keep (ha.base hr rfl) (funext hl.com)
  · refine h.inStep.comments.move hr ha.com_self (fun n' hn' => ha.com_ne hn') (fun n' hn' => ?_) ?_
    · rw [hmarks.matching, sdiff_eq_left.2]
      refine Set.disjoint_left.2 fun k hk hmarked => ?_
      obtain ⟨v, ho⟩ := Option.ne_none_iff_exists'.1 hmarked
      obtain ⟨c, hc, -, hn, -⟩ := hmarks k v ho
      simp [Snap.matching, hc, hn, hn'.symm] at hk
    · have hsub : marked o ⊆ σ.matching articleComments fun c => c.articleId == n && !c.deleted := by
        intro k hmarked
        obtain ⟨v, ho⟩ := Option.ne_none_iff_exists'.1 hmarked
        obtain ⟨c, hc, hlive, hn, -⟩ := hmarks k v ho
        simp [Snap.matching, hc, hn, hlive]
      have hcard := Set.ncard_sdiff_add_ncard_of_subset hsub (Snap.matching_finite hfresh _)
      rw [hmarks.matching]
      simp only [Article.bump]
      omega
  · intro k c' hc'
    obtain ⟨c, hc, hcases⟩ := hmarks.com hc'
    rcases hcases with ⟨-, rfl⟩ | ⟨-, -, -, rfl⟩
    · exact ⟨c', hc, rfl, rfl⟩
    · exact ⟨c, hc, rfl, rfl⟩

end LkmService.Replies
