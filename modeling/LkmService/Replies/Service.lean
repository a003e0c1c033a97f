/-
Each request leaves its session with a commit that keeps counters and trees.

`Tidy i o σ`: from `σ` on, whatever the other sessions commit meanwhile, what session `i` would commit is `Fit`.
`Deletes υ m n o σ`: a deletion of the comment `m` of article `n` whose UPDATE took its snapshot when `υ` was committed:
it has marked the members of the subtree that nobody else has deleted, and told the counter their number.
`markAll_spec` follows the UPDATE row by row; by induction on its candidates.
-/
import LkmService.Lib.Moment
import LkmService.Replies.Invariant

namespace LkmService.Replies

open Session Sql Sql.Discipline Tbl

variable {i n m k u : ℕ} {o : Held} {σ τ υ : State}

/-! ## The discipline -/

def discipline : Discipline Row Index Fx Unit where
  inv := Inv
  rely _ _ := Grows
  act _ _ _ := True
  ok _ _ _ _ := True
  rely_refl _ _ := Grows.refl
  rely_trans _ _ _ _ _ := Grows.trans
  act_refl _ _ _ := trivial
  grow_inv _ t n h := h.bump t n
  grow_act _ _ _ _ _ := trivial
  grow_rely _ _ σ t n _ := (Grows.refl σ).bump t n

instance : Lockless discipline := ⟨fun _ _ _ => trivial⟩

/-- what the session would commit keeps counters and trees -/
def Tidy (i : ℕ) (o : Held) (σ : State) : Prop := ∀ τ, discipline.Later i o σ τ → Fit o τ

theorem Tidy.later (h : Tidy i o σ) (hl : discipline.Later i o σ τ) : Tidy i o τ := fun υ hυ => h υ (hl.trans hυ)

/-- a session that holds nothing commits nothing -/
theorem Tidy.empty : Tidy i {} σ := fun _ hl =>
  .nothing hl.inv (Own.nothing_empty _) (Own.nothing_empty _) (Own.nothing_empty _)

/-- an event for the points worker does not count -/
theorem Tidy.event (h : Tidy i o σ) (e : ℕ) (v : Option PointsEvent) : Tidy i (o.put outbox e v) σ := by
  intro τ hl
  have hfit := h τ (hl.sub (o.sub_put outbox e v) hl.rely)
  have hcom : ∀ t, t ≠ outbox → (τ.merge (o.put outbox e v)).com t = (τ.merge o).com t :=
    fun t ht => Snap.merge_put_other o τ e v ht
  have harticles := hcom articles (by decide)
  have hcomments := hcom articleComments (by decide)
  have hold : ∀ n r', (τ.merge (o.put outbox e v)).com articles n = some r' →
      ∃ r, (τ.merge o).com articles n = some r ∧ r' = r := fun n r' hr' => ⟨r', by rwa [← harticles], rfl⟩
  have hg : Grows (τ.merge o) (τ.merge (o.put outbox e v)) :=
    ⟨fun n => by rw [harticles], fun m c hm => ⟨c, by rw [hcomments, hm], rfl, rfl, id⟩⟩
  refine ⟨hfit.inv.keep ⟨?_, ?_⟩ hg fun k c' hc' => ⟨c', by rwa [← hcomments], rfl, rfl⟩, hfit.grows.trans hg⟩
  · refine hfit.inv.inStep.likes.keep (fun n r' hr' => ?_) (hcom articleLikes (by decide))
    obtain ⟨r, hr, rfl⟩ := hold n r' hr'
    exact ⟨r', hr, rfl⟩
  · refine hfit.inv.inStep.comments.keep (fun n r' hr' => ?_) hcomments
    obtain ⟨r, hr, rfl⟩ := hold n r' hr'
    exact ⟨r', hr, rfl⟩

/-- the program ends in `P`, or raises an exception of the source -/
def Finishes {α : Type} (P : α → Held → State → Prop) : Except Exn α → Held → State → Prop :=
  ReturnsOr P fun e _ _ => e ≠ .unfinished

theorem wp_then {α γ : Type} {p : Op γ} {f : γ → Op α} {P : γ → Held → State → Prop} {P' : α → Held → State → Prop}
    (h : discipline.wp i p (Finishes P) o σ) (hf : ∀ a o τ, P a o τ → discipline.wp i (f a) (Finishes P') o τ) :
    discipline.wp i (p >>= f) (Finishes P') o σ := wp_seqOr h hf fun _ _ _ he => he

/-! ## The repositories -/

theorem getOrRaise_spec {t : Tbl} {errcode : Exn} {p : ℕ → Row t → Bool} (he : errcode ≠ .unfinished) :
    discipline.wp i (getOrRaise t errcode p) (Finishes fun q o' τ => o' = o ∧ discipline.Later i o σ τ ∧
      o.view τ t q.1 = some q.2 ∧ p q.1 q.2 = true) o σ := by
  refine wp_bind (wp_select fun τ hl l hmem _ => ?_)
  rcases l with _ | ⟨⟨m, r⟩, l⟩
  · exact wp_raise errcode he
  · obtain ⟨hv, hp⟩ := (hmem m r).1 List.mem_cons_self
    exact wp_pure ⟨rfl, hl, hv, hp⟩

theorem there_later (hl : discipline.Later i o σ τ) (hn : σ.com articles n ≠ none) : τ.com articles n ≠ none :=
  fun hnone => hn ((hl.rely.article n).1 hnone)

/-- an article that is there stays there, so the counter is written -/
theorem bumpCount_spec {column : CounterColumn} {δ : ℤ} (ha : o.Nothing articles) (hn : σ.com articles n ≠ none) :
    discipline.wp i (bumpCount n column δ) (Finishes fun _ o' τ => ∃ r, o' = o.put articles n (some (r.bump δ column)) ∧
      τ.com articles n = some r ∧ discipline.Later i o σ τ) o σ := by
  refine wp_bind (wp_updateRow (fun τ hl hmiss => ?_) fun τ r hl hv _ => ?_)
  · obtain ⟨r, hr⟩ := Option.ne_none_iff_exists'.1 (there_later hl hn)
    have := hmiss r (by rw [Own.view_of_none (ha n), hr])
    simp at this
  · rw [Own.view_of_none (ha n)] at hv
    exact wp_pure ⟨r, rfl, hv, hl⟩

theorem enqueueEvent_spec {event : String} :
    discipline.wp i (enqueueEvent u event n) (Finishes fun _ o' τ => ∃ e v, o' = o.put outbox e v ∧
      discipline.Later i o σ τ) o σ :=
  wp_bind (wp_insert fun τ hl => wp_pure ⟨τ.next outbox, _, rfl, hl.bump outbox _⟩)

theorem getOneLike_spec :
    discipline.wp i (getOneLike n u) (Finishes fun _ o' τ => o' = o ∧ discipline.Later i o σ τ) o σ :=
  wp_bind (wp_select fun _ hl _ _ _ => wp_pure ⟨rfl, hl⟩)

theorem countFor_spec :
    discipline.wp i (countFor n) (Finishes fun _ o' τ => o' = o ∧ discipline.Later i o σ τ) o σ :=
  wp_bind (wp_select fun _ hl _ _ _ => wp_pure ⟨rfl, hl⟩)

/-- a like of article `n` has come or gone, and its counter has not been told yet -/
structure Liked (n : ℕ) (δ : ℤ) (o : Held) (σ : State) : Prop where
  row : ∃ k v old, o.Just articleLikes k v ∧ o.Pinned σ articleLikes k old ∧ (∀ x, old = some x → x.articleId = n) ∧
    (∀ x, v = some x → x.articleId = n) ∧ δ + old.isSome.toNat = v.isSome.toNat
  noArticle : o.Nothing articles
  noComment : o.Nothing articleComments

theorem claimLike_spec :
    discipline.wp i (claimLike n u) (Finishes fun b o' τ => discipline.Later i {} σ τ ∧
      if b then Liked n 1 o' τ else o' = {}) {} σ := by
  refine wp_bind (wp_insertUnique (fun τ _ _ hl _ _ => wp_pure ⟨hl, rfl⟩) fun τ hl _ => wp_pure ?_)
  have hnone := (hl.fresh articleLikes _ (Nat.le_refl _)).1
  refine ⟨hl.bump articleLikes _, ⟨τ.next articleLikes, some { articleId := n, userId := u }, none, ?_, ?_, ?_, ?_, rfl⟩,
    ?_, ?_⟩
  · exact ((Own.nothing_empty articleLikes).just _ _).take _
  · exact (Own.pinned_put (σ := τ.bump articleLikes _) hnone _).take _
  · simp
  · intro x hx
    rw [← Option.some.inj hx]
  · exact ((Own.nothing_empty articles).put (by decide) _ _).take _
  · exact ((Own.nothing_empty articleComments).put (by decide) _ _).take _

/-- of two sessions that release one like only one finds it -/
theorem releaseLike_spec :
    discipline.wp i (releaseLike n u) (Finishes fun b o' τ => discipline.Later i {} σ τ ∧
      if b then Liked n (-1) o' τ else o' = {}) {} σ := by
  refine wp_bind (wp_select fun τ hl l _ _ => ?_)
  rcases l with _ | ⟨⟨k, x⟩, l⟩
  · exact wp_pure ⟨hl, rfl⟩
  refine wp_deleteIf (fun τ₂ h₂ _ => ⟨hl.trans h₂, rfl⟩) fun τ₂ y h₂ hy hp => ?_
  have hn : y.articleId = n := by
    simp only [ArticleLike.is, Bool.and_eq_true, beq_iff_eq] at hp
    exact hp.1
  refine ⟨hl.trans h₂, ⟨k, none, some y, ?_, ?_, ?_, ?_, rfl⟩, ?_, ?_⟩
  · exact (Own.nothing_empty articleLikes).just _ _
  · exact Own.pinned_put hy _
  · intro z hz
    rw [← Option.some.inj hz]
    exact hn
  · simp
  · exact (Own.nothing_empty articles).put (by decide) _ _
  · exact (Own.nothing_empty articleComments).put (by decide) _ _

theorem Liked.bump_spec {δ : ℤ} (h : Liked n δ o σ) (hn : σ.com articles n ≠ none) :
    discipline.wp i (bumpCount n .likes δ) (Finishes fun _ o' τ => Tidy i o' τ) o σ := by
  obtain ⟨⟨k, v, old, hjust, hpin, hold, hnew, hδ⟩, ha, hc⟩ := h
  refine wp_mono (bumpCount_spec ha hn) fun r o' τ hr => ?_
  cases r with
  | error e => exact hr
  | ok a =>
    obtain ⟨r, rfl, hr, hl⟩ := hr
    intro τ' hl'
    have hcom : τ'.com articleLikes k = old := (((hpin.later hl).put articles n _).later hl').com
    refine Fit.like hl'.inv hl'.fresh (ha.just n _) ((Own.pinned_put hr _).later hl').com (hjust.put (by decide) n _)
      (hc.put (by decide) n _) ?_ hnew ?_
    · rwa [hcom]
    · rwa [hcom]

/-! ## Likes -/

theorem unlike_spec (hn : σ.com articles n ≠ none) :
    discipline.wp i (unlike n u) (Finishes fun _ o' τ => Tidy i o' τ) {} σ := by
  refine wp_then releaseLike_spec fun released o τ ⟨hl, hcase⟩ => ?_
  cases released with
  | false =>
    obtain rfl : o = {} := hcase
    exact wp_pure Tidy.empty
  | true =>
    have hliked : Liked n (-1) o τ := hcase
    exact wp_then (hliked.bump_spec (there_later hl hn)) fun _ _ _ htidy => wp_pure htidy

theorem like_spec (hn : σ.com articles n ≠ none) :
    discipline.wp i (like n u) (Finishes fun _ o' τ => Tidy i o' τ) {} σ := by
  refine wp_then claimLike_spec fun claimed o τ ⟨hl, hcase⟩ => ?_
  cases claimed with
  | false =>
    obtain rfl : o = {} := hcase
    exact wp_pure Tidy.empty
  | true =>
    have hliked : Liked n 1 o τ := hcase
    refine wp_then (hliked.bump_spec (there_later hl hn)) fun _ o₂ τ₂ htidy => ?_
    refine wp_then enqueueEvent_spec fun _ o₃ τ₃ ⟨e, v, ho₃, h₃⟩ => wp_pure ?_
    rw [ho₃]
    exact (htidy.later h₃).event e v

theorem toggleArticleLike_spec {slug : String} :
    discipline.wp i (toggleArticleLike slug u) (Finishes fun _ o' τ => Tidy i o' τ) {} σ := by
  refine wp_then (getOrRaise_spec (by decide)) fun article o₁ τ₁ ⟨ho₁, _, hv, _⟩ => ?_
  subst ho₁
  have hn₁ : τ₁.com articles article.1 ≠ none := by
    rw [Own.view_empty] at hv
    simp [hv]
  refine wp_then getOneLike_spec fun existing o₂ τ₂ ⟨ho₂, h₂⟩ => ?_
  subst ho₂
  have hn₂ := there_later h₂ hn₁
  refine wp_then (P := fun _ o τ => Tidy i o τ) ?_ fun liked o τ htidy => ?_
  · split_ifs
    · exact unlike_spec hn₂
    · exact like_spec hn₂
  · exact wp_then countFor_spec fun _ o' τ' ⟨ho, hl⟩ => wp_pure (ho ▸ htidy.later hl)

/-! ## New comments -/

/-- the comment that is replied to belongs to the article -/
def Answers (σ : State) (n : ℕ) (parentId : Option ℕ) : Prop :=
  ∀ p, parentId = some p → ∃ c, σ.com articleComments p = some c ∧ c.articleId = n

theorem Answers.grows {parentId : Option ℕ} (h : Answers σ n parentId) (hg : Grows σ τ) : Answers τ n parentId := by
  intro p hp
  obtain ⟨c, hc, hn⟩ := h p hp
  obtain ⟨c', hc', hn', -⟩ := hg.comment p c hc
  exact ⟨c', hc', hn'.trans hn⟩

theorem checkParent_spec {parentId : Option ℕ} (hi : discipline.Later i {} σ σ) :
    discipline.wp i (checkParent n parentId) (Finishes fun _ o' τ => o' = {} ∧ discipline.Later i {} σ τ ∧
      Answers τ n parentId) {} σ := by
  cases parentId with
  | none => exact wp_pure ⟨rfl, hi, fun p hp => by simp at hp⟩
  | some parentId =>
    refine wp_then (getOrRaise_spec (by decide)) fun parent o τ ⟨ho, hl, hv, hp⟩ => ?_
    subst ho
    split_ifs with hn
    · exact wp_raise _ (show Exn.commentParentMismatch ≠ .unfinished by decide)
    · refine wp_pure ⟨rfl, hl, fun p hpp => ?_⟩
      simp only [beq_iff_eq] at hp
      rw [Option.some.injEq, ← hp] at hpp
      rw [Own.view_empty, hpp] at hv
      exact ⟨parent.2, hv, not_not.1 hn⟩

/-- the comment has a number of its own, above that of its parent -/
theorem newComment_spec {c : ArticleComment} (ha : σ.com articles c.articleId ≠ none)
    (hanswers : Answers σ c.articleId c.parentId) (hlive : c.deleted = false) :
    discipline.wp i (do let m ← insert articleComments c; bumpCount c.articleId .comments 1; pure m)
      (Finishes fun _ o' τ => Tidy i o' τ) {} σ := by
  refine wp_bind (wp_insert fun τ hl => ?_)
  set k := τ.next articleComments
  have hjust : (({} : Held).put articleComments k (some c)).Just articleComments k (some c) :=
    (Own.nothing_empty articleComments).just k _
  have hpin : (({} : Held).put articleComments k (some c)).Pinned (τ.bump articleComments k) articleComments k none :=
    Own.pinned_put (σ := τ.bump articleComments k) (hl.fresh articleComments _ (Nat.le_refl _)).1 _
  have harticles : (({} : Held).put articleComments k (some c)).Nothing articles :=
    (Own.nothing_empty articles).put (by decide) k _
  have hyounger : ∀ p, c.parentId = some p → p < k := by
    intro p hp
    obtain ⟨d, hd, -⟩ := hanswers.grows hl.rely p hp
    exact hl.fresh.lt_of_view (o := {}) hd
  have hthere := there_later (hl.bump articleComments k) ha
  refine wp_then (bumpCount_spec harticles hthere) fun _ o' τ' ⟨r, ho', hr, h'⟩ => wp_pure fun υ hυ => ?_
  subst ho'
  have hg : Grows τ υ := ((Grows.refl τ).bump articleComments k).trans (h'.rely.trans hυ.rely)
  refine Fit.comment hυ.inv hυ.fresh (harticles.just _ _) ((Own.pinned_put hr _).later hυ).com
    (hjust.put (by decide) _ _) ?_ (((hpin.later h').put articles c.articleId _).later hυ).com rfl hlive
    fun p hp => ⟨hyounger p hp, ?_⟩
  · exact ((Own.nothing_empty articleLikes).put (by decide) k _).put (by decide) _ _
  · exact hanswers.grows (hl.rely.trans hg) p hp

theorem createArticleComment_spec {slug content : String} {parentId : Option ℕ} :
    discipline.wp i (createArticleComment slug u content parentId) (Finishes fun _ o' τ => Tidy i o' τ) {} σ := by
  refine wp_then (getOrRaise_spec (by decide)) fun article o₁ τ₁ ⟨ho₁, h₁, hv, _⟩ => ?_
  subst ho₁
  have hn : τ₁.com articles article.1 ≠ none := by
    rw [Own.view_empty] at hv
    simp [hv]
  refine wp_then (checkParent_spec (.refl h₁.inv h₁.fresh)) fun _ o₂ τ₂ ⟨ho₂, h₂, hanswers⟩ => ?_
  subst ho₂
  exact newComment_spec (c := { articleId := article.1, userId := u, content := content, parentId := parentId })
    (there_later h₂ hn) hanswers rfl

/-! ## Deletions -/

/-- the session sees the comment deleted -/
def Gone (o : Held) (σ : State) (k : ℕ) : Prop := ∃ c, o.view σ articleComments k = some c ∧ c.deleted = true

/-- who has marked comments of the set `S` in article `n` -/
structure Marking (S : Set ℕ) (n : ℕ) (o : Held) (σ : State) : Prop where
  marks : Marks o σ n
  within : marked o ⊆ S
  noArticle : o.Nothing articles
  noLike : o.Nothing articleLikes

variable {S : Set ℕ}

theorem Marks.stable (h : Marks o σ n) (hcom : ∀ t k, o.row t k ≠ none → τ.com t k = σ.com t k) : Marks o τ n := by
  intro k v hv
  obtain ⟨c, hc, hrest⟩ := h k v hv
  exact ⟨c, (hcom articleComments k (by simp [hv])).trans hc, hrest⟩

theorem Marking.later (h : Marking S n o σ) (hl : discipline.Later i o σ τ) : Marking S n o τ :=
  ⟨h.marks.stable hl.com, h.within, h.noArticle, h.noLike⟩

theorem Gone.grows (h : Gone o σ k) (hg : Grows σ τ) : Gone o τ k := by
  obtain ⟨c, hv, hd⟩ := h
  rcases ho : o.row articleComments k with _ | v
  · rw [Own.view_of_none ho] at hv
    obtain ⟨c', hc', -, -, hd'⟩ := hg.comment k c hv
    exact ⟨c', by rw [Own.view_of_none ho, hc'], hd' hd⟩
  · rw [Own.view_of_row ho] at hv
    exact ⟨c, by rw [Own.view_of_row ho, hv], hd⟩

/-- one more comment is marked -/
theorem marked_put (k : ℕ) (v : Option ArticleComment) : marked (o.put articleComments k v) = insert k (marked o) := by
  ext k'
  simp only [marked, Set.mem_insert_iff, Set.mem_ofPred_eq, Own.put_row_same]
  by_cases hk : k' = k
  · simp [hk]
  · simp [hk]

theorem Gone.put (h : Gone o σ k) (k' : ℕ) (c : ArticleComment) :
    Gone (o.put articleComments k' (some { c with deleted := true })) σ k := by
  by_cases hk : k = k'
  · subst hk
    exact ⟨_, Own.view_of_row (Own.put_row_self _ _ _), rfl⟩
  · obtain ⟨d, hv, hd⟩ := h
    refine ⟨d, ?_, hd⟩
    rwa [Own.view, Own.put_row_of_ne _ _ _ fun _ => hk]

theorem Marking.put {c : ArticleComment} (h : Marking S n o σ) (hk : k ∈ S) (ho : o.row articleComments k = none)
    (hc : σ.com articleComments k = some c) (hn : c.articleId = n) (hlive : c.deleted = false) :
    Marking S n (o.put articleComments k (some { c with deleted := true })) σ := by
  refine ⟨fun k' v hv => ?_, ?_, h.noArticle.put (by decide) k _, h.noLike.put (by decide) k _⟩
  · rw [Own.put_row_same] at hv
    split_ifs at hv with heq
    · subst heq
      exact ⟨c, hc, hlive, hn, (Option.some.inj hv).symm⟩
    · exact h.marks k' v hv
  · rw [marked_put]
    exact Set.insert_subset hk h.within

/-- **The UPDATE, row by row.** A candidate that somebody else has deleted meanwhile is passed over, not counted. -/
theorem markAll_spec {ids : List ℕ} (h : Marking S n o σ)
    (hids : ∀ k ∈ ids, k ∈ S ∧ ∃ c, σ.com articleComments k = some c ∧ c.articleId = n) :
    discipline.wp i (updateAll articleComments (fun c => !c.deleted) (fun c => { c with deleted := true }) ids : Op ℕ)
      (Finishes fun a o' τ => Marking S n o' τ ∧ (marked o').ncard = (marked o).ncard + a ∧ Grows σ τ ∧
        (∀ k, Gone o σ k → Gone o' τ k) ∧ ∀ k ∈ ids, Gone o' τ k) o σ := by
  induction ids generalizing o σ with
  | nil => exact wp_pure ⟨h, rfl, Grows.refl σ, fun _ => id, fun k hk => by simp at hk⟩
  | cons k ids ih =>
    obtain ⟨hk, c, hc, hn⟩ := hids k List.mem_cons_self
    have hrest : ∀ τ, Grows σ τ → ∀ k' ∈ ids, k' ∈ S ∧ ∃ c, τ.com articleComments k' = some c ∧ c.articleId = n := by
      intro τ hg k' hk'
      obtain ⟨hS, d, hd, hdn⟩ := hids k' (List.mem_cons_of_mem _ hk')
      obtain ⟨d', hd', hdn', -⟩ := hg.comment k' d hd
      exact ⟨hS, d', hd', hdn'.trans hdn⟩
    refine wp_bind (wp_updateRow (fun τ hl hmiss => ?_) fun τ r hl hv hp => ?_)
    · have hgone : Gone o τ k := by
        obtain ⟨c', hc', -⟩ := hl.rely.comment k c hc
        rcases ho : o.row articleComments k with _ | v
        · have hd := hmiss c' (by rw [Own.view_of_none ho, hc'])
          exact ⟨c', by rw [Own.view_of_none ho, hc'], by simpa using hd⟩
        · obtain ⟨d, -, -, -, rfl⟩ := h.marks k v ho
          exact ⟨_, Own.view_of_row ho, rfl⟩
      refine wp_then (ih (h.later hl) (hrest τ hl.rely)) ?_
      rintro a o' υ ⟨hm, hcard, hg, hstay, hall⟩
      refine wp_pure ⟨hm, by simpa using hcard, hl.rely.trans hg, fun k' hk' => hstay k' (hk'.grows hl.rely), ?_⟩
      intro k' hk'
      rcases List.mem_cons.1 hk' with rfl | hk'
      · exact hstay _ hgone
      · exact hall k' hk'
    · have ho : o.row articleComments k = none := by
        by_contra hown
        obtain ⟨v, hrow⟩ := Option.ne_none_iff_exists'.1 hown
        obtain ⟨d, -, -, -, rfl⟩ := h.marks k v hrow
        rw [Own.view_of_row hrow, Option.some.injEq] at hv
        simp [← hv] at hp
      rw [Own.view_of_none ho] at hv
      have hlive : r.deleted = false := by simpa using hp
      have hrn : r.articleId = n := by
        obtain ⟨c', hc', hn', -⟩ := hl.rely.comment k c hc
        rw [hv, Option.some.injEq] at hc'
        rw [hc', hn', hn]
      have hput := (h.later hl).put hk ho hv hrn hlive
      have hone : (marked (o.put articleComments k (some { r with deleted := true }))).ncard = (marked o).ncard + 1 := by
        rw [marked_put]
        exact Set.ncard_insert_of_notMem (by simp [marked, ho]) (finite_marked hl.fresh)
      refine wp_then (ih hput (hrest τ hl.rely)) ?_
      rintro a o' υ ⟨hm, hcard, hg, hstay, hall⟩
      refine wp_pure ⟨hm, ?_, hl.rely.trans hg, fun k' hk' => hstay k' ((hk'.grows hl.rely).put k r), ?_⟩
      · rw [hcard, hone]
        simp only [Option.isSome_some, if_true]
        omega
      · intro k' hk'
        rcases List.mem_cons.1 hk' with rfl | hk'
        · exact hstay _ ⟨_, Own.view_of_row (Own.put_row_self _ _ _), rfl⟩
        · exact hall k' hk'

/-- a deletion of the comment `m` of article `n` whose UPDATE took its snapshot when `υ` was committed -/
structure Deletes (υ : State) (m n : ℕ) (o : Held) (σ : State) : Prop where
  root : ∃ c, σ.com articleComments m = some c ∧ c.articleId = n
  marks : Marks o σ n
  within : marked o ⊆ subtree υ m
  all : ∀ k ∈ subtree υ m, Gone o σ k
  article : ∃ r, o.Just articles n (some (r.bump (-(marked o).ncard) .comments)) ∧ o.Pinned σ articles n (some r)
  noLike : o.Nothing articleLikes

theorem Deletes.stable (h : Deletes υ m n o σ) (hg : Grows σ τ)
    (hcom : ∀ t k, o.row t k ≠ none → τ.com t k = σ.com t k) : Deletes υ m n o τ := by
  obtain ⟨c, hc, hn⟩ := h.root
  obtain ⟨c', hc', hn', -⟩ := hg.comment m c hc
  obtain ⟨r, hjust, hpin⟩ := h.article
  exact ⟨⟨c', hc', hn'.trans hn⟩, h.marks.stable hcom, h.within, fun k hk => (h.all k hk).grows hg,
    ⟨r, hjust, hpin.held, (hcom articles n hpin.held).trans hpin.com⟩, h.noLike⟩

theorem Deletes.tidy (h : Deletes υ m n o σ) : Tidy i o σ := by
  intro τ hl
  have hτ := h.stable hl.rely hl.com
  obtain ⟨r, hjust, hpin⟩ := hτ.article
  exact .delete hl.inv hl.fresh hτ.marks hjust hpin.com hτ.noLike

/-- what a deletion ends in, told of the moment of its snapshot -/
def Removes {α : Type} (m : ℕ) (υ : State) : Except Exn α → Held → State → Prop :=
  Finishes fun _ o τ => ∃ n, Deletes υ m n o τ

theorem removes_stable {α : Type} : Stable discipline i (Removes m υ : Except Exn α → Held → State → Prop) := by
  intro r o σ τ hg hcom hr
  cases r with
  | error e => exact hr
  | ok a =>
    obtain ⟨n, h⟩ := hr
    exact ⟨n, h.stable hg hcom⟩

/-- the statements from the UPDATE on -/
theorem softDelete_spec {ids : List ℕ} {c : ArticleComment} (hσ : discipline.Later i {} σ σ)
    (hm : σ.com articleComments m = some c) (hids : ∀ k, k ∈ ids ↔ k ∈ subtree σ m ∧ k ∈ live σ) (author : ℕ) :
    discipline.wp i (do
        let removed ← updateAll articleComments (fun c => !c.deleted) (fun c => { c with deleted := true }) ids
        bumpCount c.articleId .comments (-removed)
        pure author : Op ℕ) (Removes m σ) {} σ := by
  have hstart : Marking (subtree σ m) c.articleId {} σ :=
    ⟨fun k v hv => by simp at hv, fun k hk => by simp [marked] at hk, Own.nothing_empty _, Own.nothing_empty _⟩
  have hcandidates : ∀ k ∈ ids, k ∈ subtree σ m ∧ ∃ d, σ.com articleComments k = some d ∧ d.articleId = c.articleId :=
    fun k hk => ⟨((hids k).1 hk).1, article_of_subtree hσ.inv.rooted hm ((hids k).1 hk).1⟩
  refine wp_then (markAll_spec hstart hcandidates) ?_
  rintro removed o τ ⟨hmarking, hcard, hg, hstay, hall⟩
  have hthere : τ.com articles c.articleId ≠ none := fun hnone => hσ.inv.placed m c hm ((hg.article _).1 hnone)
  refine wp_then (bumpCount_spec hmarking.noArticle hthere) ?_
  rintro _ o' τ' ⟨r, ho', hr, hl⟩
  refine wp_pure ?_
  have hτ := hmarking.later hl
  have hempty : (marked ({} : Held)).ncard = 0 := by simp [marked]
  have hmarked : marked o' = marked o := by
    rw [ho']
    simp only [marked, Own.put_row_other _ _ _ (show articleComments ≠ articles by decide)]
  have hgone : ∀ k, Gone o τ k → Gone o' τ' k := by
    intro k hk
    obtain ⟨d, hd, hdel⟩ := hk.grows hl.rely
    refine ⟨d, ?_, hdel⟩
    rw [ho', Own.view, Own.put_row_other _ _ _ (show articleComments ≠ articles by decide)]
    exact hd
  refine ⟨c.articleId, ?_, ?_, ?_, ?_, ⟨r, ?_, ?_⟩, ?_⟩
  · obtain ⟨d, hd, hn, -⟩ := (hg.trans hl.rely).comment m c hm
    exact ⟨d, hd, hn⟩
  · intro k v hv
    rw [ho', Own.put_row_other _ _ _ (show articleComments ≠ articles by decide)] at hv
    exact hτ.marks k v hv
  · rw [hmarked]
    exact hτ.within
  · -- a member that is no candidate was deleted when the snapshot was taken
    intro k hk
    refine hgone k ?_
    by_cases hlive : k ∈ live σ
    · exact hall k ((hids k).2 ⟨hk, hlive⟩)
    · obtain ⟨d, hd, -⟩ := article_of_subtree hσ.inv.rooted hm hk
      refine hstay k ⟨d, hd, ?_⟩
      by_contra hdel
      exact hlive ⟨d, hd, by simpa using hdel⟩
  · rw [hmarked, hcard, hempty, Nat.zero_add, ho']
    exact hτ.noArticle.just _ _
  · rw [ho']
    exact Own.pinned_put hr _
  · rw [ho']
    exact hτ.noLike.put (by decide) _ _

theorem unseen_getOrRaise {t : Tbl} {errcode : Exn} {p : ℕ → Row t → Bool} : Unseen (getOrRaise t errcode p) := by
  refine ⟨rfl, fun l => ?_⟩
  cases l with
  | nil => trivial
  | cons q l => trivial

theorem deleteArticleComment_spec {asAdmin : Bool} :
    discipline.wpAt i (deleteArticleComment m u asAdmin) (Removes m) {} σ := by
  refine wpAt_bind unseen_getOrRaise (wp_mono (getOrRaise_spec (by decide)) fun r o τ hr => ?_)
  cases r with
  | error e => exact fun _ => hr
  | ok comment =>
    obtain ⟨rfl, hl, hv, hp⟩ := hr
    obtain ⟨m', c⟩ := comment
    obtain rfl : m' = m := by simpa using hp
    rw [Own.view_empty] at hv
    dsimp only
    split_ifs
    · exact wpAt_raise fun _ => show Exn.forbidden ≠ .unfinished by decide
    · rw [softDeleteSubtree, Prog.bind_assoc]
      refine wpAt_query fun τ₂ h₂ l hrows _ => ?_
      obtain ⟨c', hc', hn', -⟩ := h₂.rely.comment m' c hv
      obtain ⟨ids, hids, hmem⟩ := toDelete_spec (m := m') (fun n d => hrows articleComments n d) h₂.inv.rooted
      rw [hids, ← hn']
      exact softDelete_spec (.refl h₂.inv h₂.fresh) hc' hmem c.userId

/-! ## Requests -/

theorem deletion_spec {asAdmin : Bool} :
    discipline.wpAt i (Request.deleteArticleComment m u asAdmin).body (Removes m) {} σ :=
  wpAt_then deleteArticleComment_spec (fun _ _ _ _ hr => wp_pure hr) fun _ _ _ _ he => he

theorem plain_deletion {asAdmin : Bool} : Plain (Request.deleteArticleComment m u asAdmin).body := by
  have hget : Plain (getOrRaise articleComments .commentNotFound fun k _ => k == m) := by
    refine plain_bind (plain_select _ _) fun l => ?_
    split
    · exact plain_raise _
    · exact plain_pure _
  have hdelete : ∀ root, Plain (softDeleteSubtree root) := by
    intro root
    refine plain_bind (plain_query _) fun found => ?_
    cases found with
    | none => exact plain_raise _
    | some ids => exact plain_updateAll ids
  refine plain_bind (plain_bind hget fun c => plain_ite (plain_raise _) ?_) fun _ => plain_pure _
  exact plain_bind (hdelete _) fun _ => plain_bind (plain_bind (plain_updateRow _ _ _ _) fun _ => plain_pure _) fun _ =>
    plain_pure _

theorem body_spec (r : Request) : discipline.wp i r.body (Finishes fun _ o' τ => Tidy i o' τ) {} σ := by
  cases r with
  | toggleArticleLike slug u => exact wp_then toggleArticleLike_spec fun _ _ _ h => wp_pure h
  | createArticleComment slug u content parentId => exact wp_then createArticleComment_spec fun _ _ _ h => wp_pure h
  | deleteArticleComment m u asAdmin =>
    refine wp_of_wpAt deletion_spec fun υ r o τ hr => ?_
    cases r with
    | error e => exact hr
    | ok author =>
      obtain ⟨n, hdeletes⟩ := hr
      exact hdeletes.tidy

/-- no request is left unfinished -/
theorem prog_spec (r : Request) : discipline.wp i r.prog (fun res _ _ => res ≠ .error .unfinished) {} σ := by
  refine wp_andThen (wp_mono (body_spec r) fun res o τ hres => ?_)
  cases res with
  | error e =>
    refine wp_bind (wp_rollback fun _ _ => wp_raise e ?_)
    rw [ne_eq, Except.error.injEq]
    exact hres
  | ok a =>
    refine wp_bind (wp_commit fun υ hl => ?_)
    have hfit := hres υ hl
    refine ⟨⟨hfit.inv, trivial, fun _ _ _ _ => hfit.grows⟩, wp_pure ?_⟩
    simp

end LkmService.Replies
