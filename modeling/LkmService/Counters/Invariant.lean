/-
The invariant of counters and details, what a session may rely on, and what it may have written when it commits.

- `InStep σ`: every stored counter is the number of the rows that it counts.
- `Rely o`: who holds the row of an item keeps its likes and the likes of its comments, and no comment of it is added.
- `Fit o σ`: what a session that holds `o` would commit keeps the counters in step, and it changes rows of items that it
  holds only. Every commit takes the row of its item: the last statement of each operation writes a counter of the item
  or is preceded by `lock_active`.
-/
import LkmService.Lib.Count
import LkmService.Counters.Model

namespace LkmService.Counters

open Session Sql Sql.Discipline Tbl

variable {o o' : Held} {σ τ υ : State} {n m : ℕ}

/-! ## The invariant -/

/-- the stored counters are the numbers of the detail rows; deleted comments do not count -/
structure InStep (σ : State) : Prop where
  like : σ.Counts items likes (·.likeCount) fun n r => r.contentId == n
  comment : σ.Counts items comments (·.commentCount) fun n c => c.contentId == n && !c.deleted
  favorite : σ.Counts items favorites (·.bookmarkCount) fun n r => r.contentId == n
  commentLike : σ.Counts comments commentLikes (·.likeCount) fun m r => r.commentId == m

/-- the floors of an item's comments increase in the order of creation, those of deleted comments too -/
def FloorsIncrease (σ : State) : Prop :=
  ∀ m m' c c', σ.com comments m = some c → σ.com comments m' = some c' → c.contentId = c'.contentId → m < m' →
    c.floorNumber < c'.floorNumber

/-- a user has an item among the favourites at most once -/
def OneFavorite (σ : State) : Prop :=
  ∀ m m' r r', σ.com favorites m = some r → σ.com favorites m' = some r' → r.contentId = r'.contentId →
    r.userId = r'.userId → m = m'

/-- who is liked is there: the foreign key of `content_comment_likes` -/
def LikedExists (σ : State) : Prop := ∀ m r, σ.com commentLikes m = some r → σ.com comments r.commentId ≠ none

structure Inv (σ : State) : Prop where
  inStep : InStep σ
  floors : FloorsIncrease σ
  favorite : OneFavorite σ
  liked : LikedExists σ

theorem Inv.bump (h : Inv σ) (t : Tbl) (k : ℕ) : Inv (σ.bump t k) :=
  ⟨⟨h.inStep.like, h.inStep.comment, h.inStep.favorite, h.inStep.commentLike⟩, h.floors, h.favorite, h.liked⟩

/-- a comment stays, at its item and on its floor -/
def Grows (σ τ : State) : Prop :=
  ∀ m c, σ.com comments m = some c →
    ∃ c', τ.com comments m = some c' ∧ c'.contentId = c.contentId ∧ c'.floorNumber = c.floorNumber

theorem Grows.refl (σ : State) : Grows σ σ := fun _ c hc => ⟨c, hc, rfl, rfl⟩

theorem Grows.trans (h : Grows σ τ) (h' : Grows τ υ) : Grows σ υ := by
  intro m c hc
  obtain ⟨c₁, hc₁, hi, hf⟩ := h m c hc
  obtain ⟨c₂, hc₂, hi', hf'⟩ := h' m c₁ hc₁
  exact ⟨c₂, hc₂, hi'.trans hi, hf'.trans hf⟩

/-! ## What a session may rely on -/

structure Rely (o : Held) (σ τ : State) : Prop where
  like : ∀ m r, σ.com likes m = some r → o.row items r.contentId ≠ none → τ.com likes m = some r
  comment : ∀ m c, τ.com comments m = some c → o.row items c.contentId ≠ none → σ.com comments m ≠ none
  commentLike : ∀ m r c, σ.com commentLikes m = some r → σ.com comments r.commentId = some c →
    o.row items c.contentId ≠ none → τ.com commentLikes m = some r
  favorite : ∀ m r, τ.com favorites m = some r → o.key (.favorite r.contentId r.userId) →
    σ.com favorites m = some r
  grows : Grows σ τ

theorem Rely.refl (o : Held) (σ : State) : Rely o σ σ where
  like _ _ h _ := h
  comment _ _ h _ := by simp [h]
  commentLike _ _ _ h _ _ := h
  favorite _ _ h _ := h
  grows := Grows.refl σ

theorem Rely.bump (o : Held) (σ : State) (t : Tbl) (k : ℕ) : Rely o σ (σ.bump t k) :=
  ⟨(Rely.refl o σ).like, (Rely.refl o σ).comment, (Rely.refl o σ).commentLike, (Rely.refl o σ).favorite, Grows.refl σ⟩

theorem Rely.trans (h : Rely o σ τ) (h' : Rely o τ υ) : Rely o σ υ where
  like m r hr ho := h'.like m r (h.like m r hr ho) ho
  comment m c hc ho := by
    obtain ⟨c₁, hc₁⟩ := Option.ne_none_iff_exists'.1 (h'.comment m c hc ho)
    obtain ⟨c₂, hc₂, hi, -⟩ := h'.grows m c₁ hc₁
    rw [hc, Option.some.injEq] at hc₂
    exact h.comment m c₁ hc₁ (by rwa [← hi, ← hc₂])
  commentLike m r c hr hc ho := by
    obtain ⟨c₁, hc₁, hi, -⟩ := h.grows _ c hc
    exact h'.commentLike m r c₁ (h.commentLike m r c hr hc ho) hc₁ (by rwa [hi])
  favorite m r hr hk := h.favorite m r (h'.favorite m r hr hk) hk
  grows := h.grows.trans h'.grows

theorem Rely.sub (h : Rely o' σ τ) (hs : o.Sub o') : Rely o σ τ where
  like m r hr ho := h.like m r hr (hs.row _ _ ho)
  comment m c hc ho := h.comment m c hc (hs.row _ _ ho)
  commentLike m r c hr hc ho := h.commentLike m r c hr hc (hs.row _ _ ho)
  favorite m r hr hk := h.favorite m r hr (hs.key _ hk)
  grows := h.grows

/-! ## What a commit may change -/

/-- the session changes rows of items that it holds only, and adds favourites of which it holds the key -/
structure Covered (o : Held) (σ : State) : Prop where
  like : ∀ m v r, o.row likes m = some v → σ.com likes m = some r → o.row items r.contentId ≠ none
  comment : ∀ m v, o.row comments m = some v → ∃ c', v = some c' ∧ o.row items c'.contentId ≠ none ∧
    ∀ c, σ.com comments m = some c → c'.contentId = c.contentId ∧ c'.floorNumber = c.floorNumber
  commentLike : ∀ m v r c, o.row commentLikes m = some v → σ.com commentLikes m = some r →
    σ.com comments r.commentId = some c → o.row items c.contentId ≠ none
  favorite : ∀ m r, o.row favorites m = some (some r) → o.key (.favorite r.contentId r.userId)

theorem Covered.grows (h : Covered o σ) : Grows σ (σ.merge o) := by
  intro m c hc
  rcases ho : o.row comments m with _ | v
  · exact ⟨c, (Snap.merge_of_none ho σ).trans hc, rfl, rfl⟩
  · obtain ⟨c', rfl, -, hs⟩ := h.comment m v ho
    exact ⟨c', Snap.merge_of_some ho σ, hs c hc⟩

/-- what is another session's stays as it relies on -/
theorem Covered.rely (h : Covered o σ) (hd : o'.Disjoint o) : Rely o' σ (σ.merge o) where
  like m r hr ho' := by
    rcases ho : o.row likes m with _ | v
    · exact (Snap.merge_of_none ho σ).trans hr
    · exact absurd (hd.row items _ ho') (h.like m v r ho hr)
  comment m c hc ho' := by
    rcases Snap.merge_cases hc with ho | ⟨-, hσ⟩
    · obtain ⟨c', hc', hi, -⟩ := h.comment m _ ho
      rw [Option.some.injEq] at hc'
      subst hc'
      exact absurd (hd.row items _ ho') hi
    · simp [hσ]
  commentLike m r c hr hc ho' := by
    rcases ho : o.row commentLikes m with _ | v
    · exact (Snap.merge_of_none ho σ).trans hr
    · exact absurd (hd.row items _ ho') (h.commentLike m v r c ho hr hc)
  favorite m r hr hk := by
    rcases Snap.merge_cases hr with ho | ⟨-, hσ⟩
    · exact absurd (h.favorite m r ho) (hd.key _ hk)
    · exact hσ
  grows := h.grows

/-- what a session that holds `o` would commit -/
structure Fit (o : Held) (σ : State) : Prop where
  inv : Inv (σ.merge o)
  covered : Covered o σ

/-! ## Commits of each kind -/

theorem FloorsIncrease.keep (h : FloorsIncrease σ) (hτ : ∀ m c', τ.com comments m = some c' →
    ∃ c, σ.com comments m = some c ∧ c'.contentId = c.contentId ∧ c'.floorNumber = c.floorNumber) : FloorsIncrease τ := by
  intro m m' c c' hc hc' hn hm
  obtain ⟨d, hd, hi, hf⟩ := hτ m c hc
  obtain ⟨d', hd', hi', hf'⟩ := hτ m' c' hc'
  rw [hf, hf']
  exact h m m' d d' hd hd' (by rw [← hi, ← hi', hn]) hm

/-- a session that writes no comment leaves the floors -/
theorem FloorsIncrease.nothing (h : FloorsIncrease σ) (hc : o.Nothing comments) : FloorsIncrease (σ.merge o) :=
  h.keep fun m c' hc' => ⟨c', (hc.com m).symm.trans hc', rfl, rfl⟩

theorem OneFavorite.nothing (h : OneFavorite σ) (hf : o.Nothing favorites) : OneFavorite (σ.merge o) := by
  intro m m' r r' hr hr'
  rw [hf.com] at hr hr'
  exact h m m' r r' hr hr'

theorem LikedExists.keep (h : LikedExists σ) (hg : Grows σ (σ.merge o)) (hl : ∀ m r, o.row commentLikes m = some (some r) →
    (σ.merge o).com comments r.commentId ≠ none) : LikedExists (σ.merge o) := by
  intro m r hr
  rcases Snap.merge_cases hr with ho | ⟨-, hσ⟩
  · exact hl m r ho
  · obtain ⟨c, hc⟩ := Option.ne_none_iff_exists'.1 (h m r hσ)
    obtain ⟨c', hc', -⟩ := hg _ c hc
    rw [hc']
    exact Option.some_ne_none _

/-- the tables of an operation that leaves comments and their likes alone -/
theorem Covered.ofItems (hl : ∀ m v r, o.row likes m = some v → σ.com likes m = some r → o.row items r.contentId ≠ none)
    (hc : o.Nothing comments) (hcl : o.Nothing commentLikes)
    (hf : ∀ m r, o.row favorites m = some (some r) → o.key (.favorite r.contentId r.userId)) : Covered o σ where
  like := hl
  comment m v hv := by simp [hc m] at hv
  commentLike m v r c hv := by simp [hcl m] at hv
  favorite := hf

/-- what is left to show of a session that writes no like of a comment -/
theorem Fit.of (h : Inv σ) (hcov : Covered o σ) (hcl : o.Nothing commentLikes) (hs : InStep (σ.merge o))
    (hfl : FloorsIncrease (σ.merge o)) (hone : OneFavorite (σ.merge o)) : Fit o σ :=
  ⟨⟨hs, hfl, hone, h.liked.keep hcov.grows fun m r hv => by simp [hcl m] at hv⟩, hcov⟩

/-- a session that has only locked an item -/
theorem Fit.lock {r : ContentItem} (h : Inv σ) (hi : o.Just items n (some r)) (hr : σ.com items n = some r)
    (hl : o.Nothing likes) (hf : o.Nothing favorites) (hc : o.Nothing comments) (hcl : o.Nothing commentLikes) :
    Fit o σ := by
  refine .of h (.ofItems (fun m v _ hv => ?_) hc hcl fun m r hv => ?_) hcl ⟨?_, ?_, ?_, ?_⟩ (h.floors.nothing hc)
    (h.favorite.nothing hf)
  · simp [hl m] at hv
  · simp [hf m] at hv
  · exact h.inStep.like.keep (hi.base hr rfl) hl.detail
  · exact h.inStep.comment.keep (hi.base hr rfl) hc.detail
  · exact h.inStep.favorite.keep (hi.base hr rfl) hf.detail
  · exact h.inStep.commentLike.keep hc.base hcl.detail

/-- a like of the locked item comes or goes with its counter -/
theorem Fit.like {r : ContentItem} {v : Option ContentLike} {δ : ℤ} (h : Inv σ) (hfresh : σ.Fresh o)
    (hi : o.Just items n (some (r.bump δ .likeCount))) (hr : σ.com items n = some r) (hl : o.Just likes m v)
    (hf : o.Nothing favorites) (hc : o.Nothing comments) (hcl : o.Nothing commentLikes)
    (hold : ∀ x, σ.com likes m = some x → x.contentId = n) (hnew : ∀ x, v = some x → x.contentId = n)
    (hmove : greatest r.likeCount δ + (σ.com likes m).isSome.toNat = r.likeCount + v.isSome.toNat) : Fit o σ := by
  refine .of h (.ofItems (fun m' v' x hv hx => ?_) hc hcl fun m' x hv => ?_) hcl ⟨?_, ?_, ?_, ?_⟩ (h.floors.nothing hc)
    (h.favorite.nothing hf)
  · rw [hl] at hv
    obtain rfl : m' = m := by
      by_contra hne
      simp [hne] at hv
    rw [hold x hx, hi.row]
    exact Option.some_ne_none _
  · simp [hf m'] at hv
  · refine Own.Just.move h.inStep.like hfresh hi hl hr (fun n' hn' => ?_) ?_
    · rw [any_beq hnew, any_beq hold, beq_false_of_ne hn'.symm, Bool.and_false, Bool.and_false]
    · rw [any_beq hnew, any_beq hold, beq_self_eq_true, Bool.and_true, Bool.and_true]
      exact hmove
  · exact h.inStep.comment.keep (hi.base hr rfl) hc.detail
  · exact h.inStep.favorite.keep (hi.base hr rfl) hf.detail
  · exact h.inStep.commentLike.keep hc.base hcl.detail

/-- a favourite comes with its key, or goes, with the counter of its item -/
theorem Fit.favorite {r : ContentItem} {v : Option InteractionFavorite} {δ : ℤ} (h : Inv σ) (hfresh : σ.Fresh o)
    (hi : o.Just items n (some (r.bump δ .bookmarkCount))) (hr : σ.com items n = some r) (hf : o.Just favorites m v)
    (hl : o.Nothing likes) (hc : o.Nothing comments) (hcl : o.Nothing commentLikes)
    (hold : ∀ x, σ.com favorites m = some x → x.contentId = n)
    (hnew : ∀ x, v = some x → x.contentId = n ∧ o.key (.favorite n x.userId) ∧
      ∀ m' y, σ.com favorites m' = some y → ¬ (y.contentId = n ∧ y.userId = x.userId))
    (hmove : greatest r.bookmarkCount δ + (σ.com favorites m).isSome.toNat = r.bookmarkCount + v.isSome.toNat) :
    Fit o σ := by
  have hnew' : ∀ x, v = some x → x.contentId = n := fun x hx => (hnew x hx).1
  refine .of h (.ofItems (fun m' v' _ hv => ?_) hc hcl fun m' x hv => ?_) hcl ⟨?_, ?_, ?_, ?_⟩ (h.floors.nothing hc) ?_
  · simp [hl m'] at hv
  · rw [hf] at hv
    by_cases hm : m' = m
    · rw [if_pos hm, Option.some.injEq] at hv
      obtain ⟨hn, hk, -⟩ := hnew x hv
      rwa [hn]
    · rw [if_neg hm] at hv
      simp at hv
  · exact h.inStep.like.keep (hi.base hr rfl) hl.detail
  · exact h.inStep.comment.keep (hi.base hr rfl) hc.detail
  · refine Own.Just.move h.inStep.favorite hfresh hi hf hr (fun n' hn' => ?_) ?_
    · rw [any_beq hnew', any_beq hold, beq_false_of_ne hn'.symm, Bool.and_false, Bool.and_false]
    · rw [any_beq hnew', any_beq hold, beq_self_eq_true, Bool.and_true, Bool.and_true]
      exact hmove
  · exact h.inStep.commentLike.keep hc.base hcl.detail
  · -- a new favourite is the only one of its user and item
    intro m₁ m₂ r₁ r₂ h₁ h₂ hn hu
    rw [hf.com] at h₁ h₂
    split_ifs at h₁ h₂ with hm₁ hm₂ hm₂
    · rw [hm₁, hm₂]
    · obtain ⟨hn₁, -, hfree⟩ := hnew r₁ h₁
      exact absurd ⟨hn.symm.trans hn₁, hu.symm⟩ (hfree m₂ r₂ h₂)
    · obtain ⟨hn₂, -, hfree⟩ := hnew r₂ h₂
      exact absurd ⟨hn.trans hn₂, hu⟩ (hfree m₁ r₁ h₁)
    · exact h.favorite m₁ m₂ r₁ r₂ h₁ h₂ hn hu

/-- a new comment, on a floor above the others -/
theorem Fit.comment {r : ContentItem} {c : ContentComment} (h : Inv σ) (hfresh : σ.Fresh o)
    (hi : o.Just items n (some (r.bump 1 .commentCount))) (hr : σ.com items n = some r) (hc : o.Just comments m (some c))
    (hl : o.Nothing likes) (hf : o.Nothing favorites) (hcl : o.Nothing commentLikes) (hm : σ.com comments m = none)
    (hn : c.contentId = n) (hlive : c.deleted = false) (hzero : c.likeCount = 0)
    (htop : ∀ m' c', σ.com comments m' = some c' → c'.contentId = n → m' < m ∧ c'.floorNumber < c.floorNumber) :
    Fit o σ := by
  have hcov : Covered o σ := by
    refine ⟨fun m' v x hv _ => ?_, fun m' v hv => ?_, fun m' v x d hv => ?_, fun m' x hv => ?_⟩
    · simp [hl m'] at hv
    · rw [hc] at hv
      by_cases hm' : m' = m
      · subst hm'
        rw [if_pos rfl, Option.some.injEq] at hv
        refine ⟨c, hv.symm, ?_, fun d hd => ?_⟩
        · rw [hn, hi.row]
          exact Option.some_ne_none _
        · rw [hm] at hd
          simp at hd
      · rw [if_neg hm'] at hv
        simp at hv
    · simp [hcl m'] at hv
    · simp [hf m'] at hv
  refine .of h hcov hcl ⟨?_, ?_, ?_, ?_⟩ ?_ (h.favorite.nothing hf)
  · exact h.inStep.like.keep (hi.base hr rfl) hl.detail
  · refine Own.Just.move h.inStep.comment hfresh hi hc hr (fun n' hn' => ?_) ?_
    · simp [hm, hn, hn'.symm]
    · simp [hm, hn, hlive, ContentItem.bump, greatest]
  · exact h.inStep.favorite.keep (hi.base hr rfl) hf.detail
  · -- nobody has liked the new comment
    intro m' c' hc'
    rw [hc.com] at hc'
    split_ifs at hc' with hm'
    · subst hm'
      rw [Option.some.injEq] at hc'
      have hnone : (σ.merge o).matching commentLikes (fun x => x.commentId == m') = ∅ := by
        refine Set.eq_empty_of_forall_notMem fun k hk => ?_
        simp only [Snap.matching, Set.mem_ofPred_eq, hcl.com, Option.any_eq_true, beq_iff_eq] at hk
        obtain ⟨x, hx, hxm⟩ := hk
        exact h.liked k x hx (hxm ▸ hm)
      rw [hnone, Set.ncard_empty, ← hc']
      exact hzero
    · have hset : (σ.merge o).matching commentLikes (fun x => x.commentId == m') =
          σ.matching commentLikes (fun x => x.commentId == m') := by
        ext k
        simp only [Snap.matching, hcl.com]
      rw [hset]
      exact h.inStep.commentLike m' c' hc'
  · intro m₁ m₂ c₁ c₂ h₁ h₂ hitem hlt
    rw [hc.com] at h₁ h₂
    split_ifs at h₁ h₂ with hm₁ hm₂ hm₂
    · omega
    · rw [Option.some.injEq] at h₁
      have := (htop m₂ c₂ h₂ (by rw [← hitem, ← h₁, hn])).1
      omega
    · rw [Option.some.injEq] at h₂
      rw [← h₂]
      exact (htop m₁ c₁ h₁ (by rw [hitem, ← h₂, hn])).2
    · exact h.floors m₁ m₂ c₁ c₂ h₁ h₂ hitem hlt

/-- a comment is written, at its item and on its floor, while the session holds the item -/
theorem Covered.ofComment {c c' : ContentComment} {w : ContentItem} (hi : o.Just items n (some w))
    (hc : o.Just comments m (some c')) (hm : σ.com comments m = some c) (hn : c.contentId = n)
    (hsame : c'.contentId = c.contentId ∧ c'.floorNumber = c.floorNumber) (hl : o.Nothing likes) (hf : o.Nothing favorites)
    (hcl : ∀ k v x d, o.row commentLikes k = some v → σ.com commentLikes k = some x →
      σ.com comments x.commentId = some d → d.contentId = n) : Covered o σ where
  like m' v x hv := by simp [hl m'] at hv
  comment m' v hv := by
    rw [hc] at hv
    by_cases hm' : m' = m
    · subst hm'
      rw [if_pos rfl, Option.some.injEq] at hv
      refine ⟨c', hv.symm, ?_, fun d hd => ?_⟩
      · rw [hsame.1, hn, hi.row]
        exact Option.some_ne_none _
      · rw [hm, Option.some.injEq] at hd
        rwa [← hd]
    · rw [if_neg hm'] at hv
      simp at hv
  commentLike k v x d hv hx hd := by
    rw [hcl k v x d hv hx hd, hi.row]
    exact Option.some_ne_none _
  favorite m' x hv := by simp [hf m'] at hv

theorem FloorsIncrease.just {c c' : ContentComment} (h : FloorsIncrease σ) (hc : o.Just comments m (some c'))
    (hm : σ.com comments m = some c) (hsame : c'.contentId = c.contentId ∧ c'.floorNumber = c.floorNumber) :
    FloorsIncrease (σ.merge o) := by
  refine h.keep fun m' d' hd' => ?_
  rw [hc.com] at hd'
  split_ifs at hd' with hm'
  · rw [Option.some.injEq] at hd'
    exact ⟨c, hm' ▸ hm, by rw [← hd']; exact hsame⟩
  · exact ⟨d', hd', rfl, rfl⟩

/-- a comment is deleted: the counter goes down by one for a comment that was not deleted -/
theorem Fit.delete {r : ContentItem} {c : ContentComment} (h : Inv σ) (hfresh : σ.Fresh o)
    (hi : o.Just items n (some (r.bump (-1) .commentCount))) (hr : σ.com items n = some r)
    (hc : o.Just comments m (some { c with deleted := true })) (hm : σ.com comments m = some c) (hn : c.contentId = n)
    (hl : o.Nothing likes) (hf : o.Nothing favorites) (hcl : o.Nothing commentLikes)
    (hlive : c.deleted = false ∨ r.commentCount = 0 ∨ InStep (σ.merge o)) : Fit o σ := by
  have hcov : Covered o σ := .ofComment hi hc hm hn ⟨rfl, rfl⟩ hl hf fun k v x d hv => by simp [hcl k] at hv
  refine .of h hcov hcl ?_ (h.floors.just hc hm ⟨rfl, rfl⟩) (h.favorite.nothing hf)
  by_cases hstep : InStep (σ.merge o)
  · exact hstep
  refine ⟨h.inStep.like.keep (hi.base hr rfl) hl.detail, ?_, h.inStep.favorite.keep (hi.base hr rfl) hf.detail,
    h.inStep.commentLike.keep (hc.base hm rfl) hcl.detail⟩
  refine Own.Just.move h.inStep.comment hfresh hi hc hr (fun n' hn' => ?_) ?_
  · simp [hm, hn, hn'.symm]
  · cases hd : c.deleted
    · have hpos : 0 < r.commentCount := by
        refine h.inStep.comment.pos hfresh hr (m := m) ?_
        simp [hm, hn, hd]
      simp [hm, hn, hd, ContentItem.bump, greatest]
      omega
    · have hzero : r.commentCount = 0 := by
        rcases hlive with hlive | hlive | hlive
        · rw [hd] at hlive
          simp at hlive
        · exact hlive
        · exact absurd hlive hstep
      simp [hm, hn, hd, hzero, ContentItem.bump, greatest]

/-- a like of a comment comes or goes with its counter, while the item is locked -/
theorem Fit.commentLike {r : ContentItem} {c : ContentComment} {v : Option ContentCommentLike} {k : ℕ} {δ : ℤ}
    (h : Inv σ) (hfresh : σ.Fresh o) (hi : o.Just items n (some r)) (hr : σ.com items n = some r)
    (hc : o.Just comments m (some { c with likeCount := greatest c.likeCount δ })) (hm : σ.com comments m = some c)
    (hn : c.contentId = n) (hcl : o.Just commentLikes k v) (hl : o.Nothing likes) (hf : o.Nothing favorites)
    (hold : ∀ x, σ.com commentLikes k = some x → x.commentId = m) (hnew : ∀ x, v = some x → x.commentId = m)
    (hmove : greatest c.likeCount δ + (σ.com commentLikes k).isSome.toNat = c.likeCount + v.isSome.toNat) : Fit o σ := by
  have hcov : Covered o σ := by
    refine .ofComment hi hc hm hn ⟨rfl, rfl⟩ hl hf fun k' v' x d hv hx hd => ?_
    rw [hcl] at hv
    obtain rfl : k' = k := by
      by_contra hne
      simp [hne] at hv
    rw [hold x hx, hm, Option.some.injEq] at hd
    rw [← hd, hn]
  refine ⟨⟨⟨?_, ?_, ?_, ?_⟩, h.floors.just hc hm ⟨rfl, rfl⟩, h.favorite.nothing hf, ?_⟩, hcov⟩
  · exact h.inStep.like.keep (hi.base hr rfl) hl.detail
  · exact h.inStep.comment.keep (hi.base hr rfl) (hc.detail fun n' => by rw [hm]; rfl)
  · exact h.inStep.favorite.keep (hi.base hr rfl) hf.detail
  · refine Own.Just.move h.inStep.commentLike hfresh hc hcl hm (fun n' hn' => ?_) ?_
    · rw [any_beq hnew, any_beq hold, beq_false_of_ne hn'.symm, Bool.and_false, Bool.and_false]
    · rw [any_beq hnew, any_beq hold, beq_self_eq_true, Bool.and_true, Bool.and_true]
      exact hmove
  · refine h.liked.keep hcov.grows fun k' x hx => ?_
    rw [hcl] at hx
    by_cases hk : k' = k
    · rw [if_pos hk, Option.some.injEq] at hx
      rw [hnew x hx, hc.com_self]
      exact Option.some_ne_none _
    · rw [if_neg hk] at hx
      simp at hx

end LkmService.Counters
