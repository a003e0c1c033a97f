/-
Each operation on likes, favourites and comments leaves the session with a commit that keeps the counters.

`Tidy requests i o σ`: from `σ` on, whatever the other sessions commit meanwhile, what session `i` would commit is `Fit`.
A specification follows the statements of the operation: what is locked stays, so the row that was read under the lock
of the item is the row that is written.
-/
import LkmService.Counters.Invariant

namespace LkmService.Counters

open Session Sql Sql.Discipline Tbl

variable {requests : ℕ → Request} {i n m u : ℕ} {o : Held} {σ τ : State} {r : Request}

/-! ## The discipline -/

/-- the comment is not deleted yet, or the counter is at 0 and cannot be decremented -/
def DeletesLive (σ : State) (n m : ℕ) : Prop :=
  (∀ c, σ.com comments m = some c → c.deleted = false) ∨ ∀ r, σ.com items n = some r → r.commentCount = 0

/-- the condition on the commit of a request: of `delete_comment` only -/
def okCommit (requests : ℕ → Request) (i : ℕ) (o : Held) (σ : State) : Prop :=
  match requests i with
  | .deleteComment n m => DeletesLive σ n m ∨ InStep (σ.merge o)
  | _ => True

def discipline (requests : ℕ → Request) : Discipline Row Index Fx Unit where
  inv := Inv
  rely _ := Rely
  act _ _ _ := True
  ok _ _ _ _ := True
  okCommit := okCommit requests
  rely_refl _ := Rely.refl
  rely_trans _ _ _ _ _ := Rely.trans
  act_refl _ _ _ := trivial
  grow_inv _ t k h := h.bump t k
  grow_act _ _ _ _ _ := trivial
  grow_rely _ o σ t k _ := Rely.bump o σ t k

instance : Lockless (discipline requests) := ⟨fun _ _ _ => trivial⟩

/-- what the session would commit keeps the counters -/
def Tidy (requests : ℕ → Request) (i : ℕ) (o : Held) (σ : State) : Prop :=
  ∀ τ, (discipline requests).Later i o σ τ → okCommit requests i o τ → Fit o τ

/-- a session that holds nothing commits nothing -/
theorem Tidy.empty : Tidy requests i {} σ := by
  intro τ hl _
  refine ⟨hl.inv, ⟨?_, ?_, ?_, ?_⟩⟩ <;> simp

/-- a session that has locked an item only -/
structure Locked (o : Held) (σ : State) (n : ℕ) (r : ContentItem) : Prop where
  held : o = ({} : Held).put items n (some r)
  pinned : o.Pinned σ items n (some r)

theorem Locked.later {r : ContentItem} (h : Locked o σ n r) (hl : (discipline requests).Later i o σ τ) :
    Locked o τ n r := ⟨h.held, h.pinned.later hl⟩

theorem Locked.item {r : ContentItem} (h : Locked o σ n r) : o.Just items n (some r) := by
  rw [h.held]
  exact (Own.nothing_empty items).just n _

theorem Locked.nothing {r : ContentItem} (h : Locked o σ n r) {t : Tbl} (ht : t ≠ items) : o.Nothing t := by
  rw [h.held]
  exact (Own.nothing_empty t).put ht n _

theorem Locked.tidy {r : ContentItem} (h : Locked o σ n r) : Tidy requests i o σ := by
  intro τ hl _
  exact .lock hl.inv h.item (h.later hl).pinned.com (h.nothing (by decide)) (h.nothing (by decide))
    (h.nothing (by decide)) (h.nothing (by decide))

/-! ## Statements that the operations share -/

theorem lockActive_spec :
    (discipline requests).wp i (lockActive n) (Returns fun _ o' τ => ∃ r, Locked o' τ n r) {} σ := by
  refine wp_bind (wp_lockRow (fun _ _ _ => wp_fail _) fun τ r hl hv _ => ?_)
  exact wp_return ⟨r, rfl, Own.pinned_put hv _⟩

theorem readCount_spec {field : Field} :
    (discipline requests).wp i (readCount n field)
      (Returns fun _ o' τ => o' = o ∧ (discipline requests).Later i o σ τ) o σ := by
  refine wp_bind (wp_select fun τ hl l _ _ => ?_)
  rcases l with _ | ⟨q, l⟩
  · exact wp_fail _
  · exact wp_return ⟨rfl, hl⟩

/-- the new row has a number of its own, and its key -/
theorem create_spec {t : Tbl} {k : Index} {clash : Row t → Bool} {r : Row t} :
    (discipline requests).wp i (create t k clash r) (Returns fun _ o' τ => ∃ m, o' = (o.put t m (some r)).take k ∧
      τ.com t m = none ∧ (discipline requests).Later i o σ τ) o σ := by
  refine wp_bind (wp_insertUnique (fun _ _ _ _ _ _ => wp_fail _) fun τ hl _ => ?_)
  exact wp_return ⟨τ.next t, rfl, (hl.fresh t _ (Nat.le_refl _)).1, hl.bump t _⟩

theorem enqueueEvent_spec {event : String} {ref : EventRef} :
    (discipline requests).wp i (enqueueEvent u event ref) (Returns fun _ o' τ => ∃ m v, o' = o.put outbox m v ∧
      (discipline requests).Later i o σ τ) o σ :=
  wp_bind (wp_insert fun τ hl => wp_return ⟨τ.next outbox, _, rfl, hl.bump outbox _⟩)

/-- the counter of an item that the session holds -/
theorem bump_spec {r : ContentItem} {field : Field} {δ : ℤ} (h : o.Just items n (some r)) :
    (discipline requests).wp i (bumpContentCounter n field δ) (Returns fun _ o' τ =>
      o' = o.put items n (some (r.bump δ field)) ∧ (discipline requests).Later i o σ τ) o σ :=
  wp_bind (wp_updateOwned rfl h.row fun _ hl => wp_return ⟨rfl, hl⟩)

/-! ## Likes -/

theorem likeItem_spec :
    (discipline requests).wp i (likeItem n u) (Returns fun _ o' τ => Tidy requests i o' τ) {} σ := by
  refine wp_seq lockActive_spec ?_
  rintro _ o τ ⟨r, h⟩
  refine wp_bind (wp_select fun τ₁ h₁ l _ _ => ?_)
  have hlock := h.later h₁
  rcases l with _ | ⟨q, l⟩
  · refine wp_seq create_spec ?_
    rintro _ o₂ τ₂ ⟨k, ho₂, hk, h₂⟩
    have hpin₂ : o₂.Pinned τ₂ items n (some r) ∧ o₂.Pinned τ₂ likes k none := by
      rw [ho₂]
      exact ⟨((hlock.pinned.later h₂).put likes k _).take _, (Own.pinned_put hk _).take _⟩
    refine wp_seq enqueueEvent_spec ?_
    rintro _ o₃ τ₃ ⟨e, v, ho₃, h₃⟩
    have hpin₃ : o₃.Pinned τ₃ items n (some r) ∧ o₃.Pinned τ₃ likes k none := by
      rw [ho₃]
      exact ⟨(hpin₂.1.later h₃).put outbox e v, (hpin₂.2.later h₃).put outbox e v⟩
    have hitem : o₃.Just items n (some r) := by
      rw [ho₃, ho₂]
      exact (h.item.put (by decide) k _).put (by decide) e v
    refine wp_returns_mono (bump_spec hitem) ?_
    rintro _ o₄ τ₄ ⟨ho₄, h₄⟩ υ hl _
    have hr : υ.com items n = some r := by
      refine (Own.Pinned.later ?_ hl).com
      rw [ho₄]
      exact (hpin₃.1.later h₄).put items n _
    have hnone : υ.com likes k = none := by
      refine (Own.Pinned.later ?_ hl).com
      rw [ho₄]
      exact (hpin₃.2.later h₄).put items n _
    have hother : ∀ t, t ≠ items → t ≠ likes → t ≠ outbox → o₄.Nothing t := by
      intro t hi hl ho
      rw [ho₄, ho₃, ho₂]
      exact (((h.nothing hi).put hl k _).put ho e v).put hi n _
    refine Fit.like hl.inv hl.fresh (m := k) (v := some { contentId := n, userId := u }) (ho₄ ▸ hitem.again _) hr ?_
      (hother _ (by decide) (by decide) (by decide)) (hother _ (by decide) (by decide) (by decide))
      (hother _ (by decide) (by decide) (by decide)) ?_ ?_ ?_
    · rw [ho₄, ho₃, ho₂]
      exact (((h.nothing (by decide)).just k _).put (by decide) e v).put (by decide) n _
    · simp [hnone]
    · simp
    · simp [hnone, greatest]
  · refine wp_returns_mono readCount_spec ?_
    rintro _ o' τ' ⟨ho, hl⟩
    exact ho ▸ (hlock.later hl).tidy

/-- while the item is locked, a like of it that has been read is still there when it is deleted -/
theorem unlikeItem_spec :
    (discipline requests).wp i (unlikeItem n u) (Returns fun _ o' τ => Tidy requests i o' τ) {} σ := by
  refine wp_seq lockActive_spec fun _ o τ ⟨r, h⟩ => wp_bind (wp_select fun τ₁ h₁ l hmem _ => ?_)
  have hlock := h.later h₁
  rcases l with _ | ⟨⟨k, x⟩, l⟩
  · exact wp_returns_mono readCount_spec fun _ o' τ' ⟨ho, hl⟩ => ho ▸ (hlock.later hl).tidy
  · obtain ⟨hv, hx⟩ := (hmem k x).1 List.mem_cons_self
    have hn : x.contentId = n := by
      simp only [ContentLike.is, Bool.and_eq_true, beq_iff_eq] at hx
      exact hx.1
    have hlikes : o.Nothing likes := h.nothing (by decide)
    have hstays : ∀ υ, (discipline requests).Later i o τ₁ υ → o.view υ likes k = some x := by
      intro υ hl
      rw [Own.view_of_none (hlikes k)] at hv ⊢
      refine hl.rely.like k x hv ?_
      rw [hn]
      exact h.pinned.held
    refine wp_bind (wp_deleteRow (fun τ₂ h₂ hnone => ?_) fun τ₂ x' h₂ hx' => ?_)
    · rw [hstays τ₂ h₂] at hnone
      simp at hnone
    have hpin₂ : (o.put likes k none).Pinned τ₂ items n (some r) ∧ (o.put likes k none).Pinned τ₂ likes k (some x) := by
      refine ⟨(hlock.pinned.later h₂).put likes k _, Own.pinned_put ?_ _⟩
      rw [← Own.view_of_none (hlikes k)]
      exact hstays τ₂ h₂
    have hitem : (o.put likes k none).Just items n (some r) := h.item.put (by decide) k _
    refine wp_returns_mono (bump_spec hitem) fun _ o₃ τ₃ ⟨ho₃, h₃⟩ υ hl _ => ?_
    have hr : υ.com items n = some r := by
      refine (Own.Pinned.later ?_ hl).com
      rw [ho₃]
      exact (hpin₂.1.later h₃).put items n _
    have hold : υ.com likes k = some x := by
      refine (Own.Pinned.later ?_ hl).com
      rw [ho₃]
      exact (hpin₂.2.later h₃).put items n _
    have hother : ∀ t, t ≠ items → t ≠ likes → o₃.Nothing t := by
      intro t hi hl
      rw [ho₃]
      exact ((h.nothing hi).put hl k _).put hi n _
    have hpos : 0 < r.likeCount := hl.inv.inStep.like.pos hl.fresh hr (m := k) (by simp [hold, hn])
    refine Fit.like hl.inv hl.fresh (m := k) (v := none) (ho₃ ▸ hitem.again _) hr ?_ (hother _ (by decide) (by decide))
      (hother _ (by decide) (by decide)) (hother _ (by decide) (by decide)) ?_ ?_ ?_
    · rw [ho₃]
      exact (hlikes.just k _).put (by decide) n _
    · intro y hy
      rw [hold, Option.some.injEq] at hy
      exact hy ▸ hn
    · simp
    · simp [hold, greatest]
      omega

/-! ## Favourites -/

theorem currentBookmarkCount_spec :
    (discipline requests).wp i (currentBookmarkCount n)
      (Returns fun _ o' τ => o' = o ∧ (discipline requests).Later i o σ τ) o σ := by
  refine wp_bind (wp_select fun τ hl l _ _ => ?_)
  rcases l with _ | ⟨q, l⟩
  · exact wp_fail _
  · exact wp_return ⟨rfl, hl⟩

/-- the item is not locked before: the counter is written on the version committed by then -/
theorem bumpBookmark_spec {δ : ℤ} (h : o.Nothing items) :
    (discipline requests).wp i (bumpBookmark n δ) (Returns fun _ o' τ => ∃ r,
      o' = o.put items n (some (r.bump δ .bookmarkCount)) ∧ τ.com items n = some r ∧
        (discipline requests).Later i o σ τ) o σ := by
  refine wp_bind (wp_updateRow (fun _ _ _ => wp_fail _) fun τ r hl hv _ => wp_return ⟨r, rfl, ?_, hl⟩)
  rwa [Own.view_of_none (h n)] at hv

theorem addFavorite_spec :
    (discipline requests).wp i (addFavorite u n) (Returns fun _ o' τ => Tidy requests i o' τ) {} σ := by
  refine wp_seq currentBookmarkCount_spec fun _ o τ ⟨ho, _⟩ => ?_
  subst ho
  refine wp_bind (wp_select fun τ₁ h₁ l _ _ => ?_)
  rcases l with _ | ⟨q, l⟩
  swap
  · exact wp_return Tidy.empty
  refine wp_bind (wp_insertUnique (fun _ _ _ _ _ _ => wp_return Tidy.empty) fun τ₂ h₂ hfree => ?_)
  set k := τ₂.next favorites
  set o₂ := (({} : Held).put favorites k (some { contentId := n, userId := u })).take (.favorite n u) with ho₂
  have hitems : o₂.Nothing items := ((Own.nothing_empty items).put (by decide) k _).take _
  have hpin : o₂.Pinned (τ₂.bump favorites k) favorites k none :=
    (Own.pinned_put (σ := τ₂.bump favorites k) (h₂.fresh favorites _ (Nat.le_refl _)).1 _).take _
  have hkey₂ : o₂.key (.favorite n u) := Or.inl rfl
  refine wp_seq (bumpBookmark_spec hitems) fun _ o₃ τ₃ ⟨r, ho₃, hr₃, h₃⟩ => wp_return fun υ hl _ => ?_
  have hr : υ.com items n = some r := by
    refine (Own.Pinned.later ?_ hl).com
    rw [ho₃]
    exact Own.pinned_put hr₃ _
  have hnone : υ.com favorites k = none := by
    refine (Own.Pinned.later ?_ hl).com
    rw [ho₃]
    exact (hpin.later h₃).put items n _
  have hkey : o₃.key (.favorite n u) := by
    rw [ho₃]
    exact hkey₂
  -- the key keeps other sessions from adding the favourite
  have hnew : ∀ m y, υ.com favorites m = some y → ¬ (y.contentId = n ∧ y.userId = u) := by
    rintro m y hy ⟨hn, hu⟩
    have hy₃ := hl.rely.favorite m y hy (by rwa [hn, hu])
    have hy₂ := h₃.rely.favorite m y hy₃ (by rwa [hn, hu])
    have hclash := hfree m y hy₂
    simp [InteractionFavorite.is, hn, hu] at hclash
  have hother : ∀ t, t ≠ items → t ≠ favorites → o₃.Nothing t := by
    intro t hi hf
    rw [ho₃, ho₂]
    exact (((Own.nothing_empty t).put hf k _).take _).put hi n _
  refine Fit.favorite hl.inv hl.fresh (m := k) (v := some { contentId := n, userId := u }) (ho₃ ▸ hitems.just n _) hr ?_
    (hother _ (by decide) (by decide)) (hother _ (by decide) (by decide)) (hother _ (by decide) (by decide)) ?_ ?_ ?_
  · rw [ho₃, ho₂]
    exact (((Own.nothing_empty favorites).just k _).take _).put (by decide) n _
  · simp [hnone]
  · intro x hx
    rw [Option.some.injEq] at hx
    rw [← hx]
    exact ⟨rfl, hkey, hnew⟩
  · simp [hnone, greatest]

/-- the rows of a favourite: there is one at most -/
theorem favorite_rows {l : List (ℕ × InteractionFavorite)} (h : OneFavorite σ) (hs : l.Pairwise fun a b => a.1 < b.1)
    (hmem : ∀ m r, (m, r) ∈ l → σ.com favorites m = some r ∧ r.is n u = true) :
    l = [] ∨ ∃ m r, l = [(m, r)] := by
  rcases l with _ | ⟨⟨m, r⟩, _ | ⟨⟨m', r'⟩, l⟩⟩
  · exact Or.inl rfl
  · exact Or.inr ⟨m, r, rfl⟩
  · obtain ⟨hm, hr⟩ := hmem m r List.mem_cons_self
    obtain ⟨hm', hr'⟩ := hmem m' r' (List.mem_cons_of_mem _ List.mem_cons_self)
    simp only [InteractionFavorite.is, Bool.and_eq_true, beq_iff_eq] at hr hr'
    have heq : m = m' := h m m' r r' hm hm' (hr.1.trans hr'.1.symm) (hr.2.trans hr'.2.symm)
    have hlt : m < m' := (List.pairwise_cons.1 hs).1 _ List.mem_cons_self
    omega

theorem removeFavorite_spec :
    (discipline requests).wp i (removeFavorite u n) (Returns fun _ o' τ => Tidy requests i o' τ) {} σ := by
  refine wp_seq currentBookmarkCount_spec fun _ o τ ⟨ho, _⟩ => ?_
  subst ho
  refine wp_bind (wp_select fun τ₁ h₁ l hmem hs => ?_)
  rcases favorite_rows h₁.inv.favorite hs fun m r hm => (hmem m r).1 hm with rfl | ⟨k, x, rfl⟩
  · exact wp_bind (wp_pure (wp_return Tidy.empty))
  refine wp_bind (wp_bind (wp_deleteIf (fun τ₂ h₂ _ => ?_) fun τ₂ y h₂ hy hp => ?_))
  · exact wp_bind (wp_pure (wp_pure (wp_return Tidy.empty)))
  refine wp_bind (wp_pure (wp_pure ?_))
  have hn : y.contentId = n := by
    simp only [InteractionFavorite.is, Bool.and_eq_true, beq_iff_eq] at hp
    exact hp.1
  set o₂ := ({} : Held).put favorites k none with ho₂
  have hitems : o₂.Nothing items := (Own.nothing_empty items).put (by decide) k _
  refine wp_seq (bumpBookmark_spec hitems) fun _ o₃ τ₃ ⟨r, ho₃, hr₃, h₃⟩ => wp_return fun υ hl _ => ?_
  have hr : υ.com items n = some r := by
    refine (Own.Pinned.later ?_ hl).com
    rw [ho₃]
    exact Own.pinned_put hr₃ _
  have hold : υ.com favorites k = some y := by
    refine (Own.Pinned.later ?_ hl).com
    rw [ho₃]
    exact ((Own.pinned_put hy _).later h₃).put items n _
  have hother : ∀ t, t ≠ items → t ≠ favorites → o₃.Nothing t := by
    intro t hi hf
    rw [ho₃, ho₂]
    exact ((Own.nothing_empty t).put hf k _).put hi n _
  have hpos : 0 < r.bookmarkCount := hl.inv.inStep.favorite.pos hl.fresh hr (m := k) (by simp [hold, hn])
  refine Fit.favorite hl.inv hl.fresh (m := k) (v := none) (ho₃ ▸ hitems.just n _) hr ?_
    (hother _ (by decide) (by decide)) (hother _ (by decide) (by decide)) (hother _ (by decide) (by decide)) ?_ ?_ ?_
  · rw [ho₃, ho₂]
    exact ((Own.nothing_empty favorites).just k _).put (by decide) n _
  · intro z hz
    rw [hold, Option.some.injEq] at hz
    exact hz ▸ hn
  · simp
  · simp [hold, greatest]
    omega

/-! ## Comments -/

/-- the comment read is a row that was there, of the item, not deleted -/
theorem assertCommentInItem_spec :
    (discipline requests).wp i (assertCommentInItem n m) (Returns fun c o' τ => o' = o ∧
      (discipline requests).Later i o σ τ ∧ o.view τ comments m = some c ∧ c.contentId = n ∧ c.deleted = false) o σ := by
  refine wp_bind (wp_select fun τ hl l hmem _ => ?_)
  rcases l with _ | ⟨⟨m', c⟩, l⟩
  · exact wp_fail _
  · obtain ⟨hv, hp⟩ := (hmem m' c).1 List.mem_cons_self
    simp only [Bool.and_eq_true, beq_iff_eq, Bool.not_eq_true'] at hp
    obtain ⟨⟨rfl, hn⟩, hd⟩ := hp
    exact wp_return ⟨rfl, hl, hv, hn, hd⟩

theorem checkParent_spec {parentId : Option ℕ} {r : ContentItem} (h : Locked o σ n r) :
    (discipline requests).wp i (checkParent n parentId) (Returns fun _ o' τ => Locked o' τ n r) o σ := by
  rcases parentId with _ | m
  · exact wp_return h
  · exact wp_seq assertCommentInItem_spec fun c o' τ ⟨ho, hl, _⟩ => wp_return (ho ▸ h.later hl)

/-- the largest floor is that of all comments of the item, deleted or not -/
theorem le_maxFloor {l : List (ℕ × ContentComment)} {q : ℕ × ContentComment} (h : q ∈ l) :
    q.2.floorNumber ≤ maxFloor l := by
  induction l with
  | nil => simp at h
  | cons p l ih =>
    simp only [maxFloor, List.foldr_cons]
    rcases List.mem_cons.1 h with rfl | h
    · exact Nat.le_max_left _ _
    · exact Nat.le_trans (ih h) (Nat.le_max_right _ _)

/-- who holds the item sees all its comments, as long as it holds it -/
theorem maxFloorNumber_spec {r : ContentItem} (h : Locked o σ n r) :
    (discipline requests).wp i (maxFloorNumber n) (Returns fun f o' τ => Locked o' τ n r ∧
      ∀ υ, Rely o' τ υ → ∀ m c, υ.com comments m = some c → c.contentId = n →
        (∃ c', τ.com comments m = some c') ∧ c.floorNumber ≤ f) o σ := by
  refine wp_bind (wp_select fun τ hl l hmem _ => wp_return ⟨h.later hl, fun υ hrely m c hc hn => ?_⟩)
  have hheld : o.row items c.contentId ≠ none := by
    rw [hn]
    exact h.pinned.held
  obtain ⟨c', hc'⟩ := Option.ne_none_iff_exists'.1 (hrely.comment m c hc hheld)
  obtain ⟨c₂, hc₂, hi, hf⟩ := hrely.grows m c' hc'
  rw [hc, Option.some.injEq] at hc₂
  subst hc₂
  refine ⟨⟨c', hc'⟩, ?_⟩
  have hv : o.view τ comments m = some c' := by
    rw [Own.view_of_none (h.nothing (by decide) m)]
    exact hc'
  rw [hf]
  exact le_maxFloor ((hmem m c').2 ⟨hv, by rw [← hi, hn]; exact beq_self_eq_true n⟩)

theorem createComment_spec {parentId : Option ℕ} :
    (discipline requests).wp i (createComment n u parentId) (Returns fun _ o' τ => Tidy requests i o' τ) {} σ := by
  refine wp_seq lockActive_spec fun _ o τ ⟨r, h⟩ => wp_seq (checkParent_spec h) fun _ o₁ τ₁ h₁ => ?_
  refine wp_seq (maxFloorNumber_spec h₁) fun f o₂ τ₂ ⟨h₂, htop⟩ => ?_
  refine wp_bind (wp_insert fun τ₃ h₃ => ?_)
  set k := τ₃.next comments with hk
  set o₃ := o₂.put comments k (some { contentId := n, userId := u, floorNumber := f + 1, parentId := parentId }) with ho₃
  have hitem₃ : o₃.Just items n (some r) := h₂.item.put (by decide) k _
  have hnone₃ : τ₃.com comments k = none := (h₃.fresh comments _ (Nat.le_refl _)).1
  have hpin₃ : o₃.Pinned (τ₃.bump comments k) items n (some r) ∧ o₃.Pinned (τ₃.bump comments k) comments k none :=
    ⟨(h₂.pinned.later (h₃.bump comments k)).put comments k _, Own.pinned_put (σ := τ₃.bump comments k) hnone₃ _⟩
  refine wp_seq (bump_spec hitem₃) fun _ o₄ τ₄ ⟨ho₄, h₄⟩ => ?_
  have hpin₄ : o₄.Pinned τ₄ items n (some r) ∧ o₄.Pinned τ₄ comments k none := by
    rw [ho₄]
    exact ⟨(hpin₃.1.later h₄).put items n _, (hpin₃.2.later h₄).put items n _⟩
  refine wp_seq enqueueEvent_spec fun _ o₅ τ₅ ⟨e, v, ho₅, h₅⟩ => wp_return fun υ hl _ => ?_
  have hpin : o₅.Pinned υ items n (some r) ∧ o₅.Pinned υ comments k none := by
    refine ⟨Own.Pinned.later ?_ hl, Own.Pinned.later ?_ hl⟩ <;> rw [ho₅]
    · exact (hpin₄.1.later h₅).put outbox e v
    · exact (hpin₄.2.later h₅).put outbox e v
  have hsub₃ : o₂.Sub o₃ := o₂.sub_put comments k _
  have hsub₄ : o₂.Sub o₄ := ho₄ ▸ hsub₃.trans (o₃.sub_put items n _)
  have hsub₅ : o₂.Sub o₅ := ho₅ ▸ hsub₄.trans (o₄.sub_put outbox e v)
  have hrely₃ : Rely o₂ τ₃ υ :=
    (Rely.bump o₂ τ₃ comments k).trans ((h₄.rely.sub hsub₃).trans ((h₅.rely.sub hsub₄).trans (hl.rely.sub hsub₅)))
  have hother : ∀ t, t ≠ items → t ≠ comments → t ≠ outbox → o₅.Nothing t := by
    intro t hi hc ho
    rw [ho₅, ho₄, ho₃]
    exact (((h₂.nothing hi).put hc k _).put hi n _).put ho e v
  refine Fit.comment hl.inv hl.fresh (m := k)
    (c := { contentId := n, userId := u, floorNumber := f + 1, parentId := parentId }) ?_ hpin.1.com ?_
    (hother _ (by decide) (by decide) (by decide)) (hother _ (by decide) (by decide) (by decide))
    (hother _ (by decide) (by decide) (by decide)) hpin.2.com rfl rfl rfl fun m c hc hn => ?_
  · rw [ho₅, ho₄]
    exact (hitem₃.again _).put (by decide) e v
  · rw [ho₅, ho₄]
    exact (((h₂.nothing (by decide)).just k _).put (by decide) n _).put (by decide) e v
  · -- the comments of the item are those seen when the floor was chosen
    obtain ⟨⟨c', hc'⟩, hle⟩ := htop υ (h₃.rely.trans hrely₃) m c hc hn
    obtain ⟨c₃, hc₃, -⟩ := h₃.rely.grows m c' hc'
    refine ⟨?_, by simp only; omega⟩
    by_contra hge
    rw [(h₃.fresh comments m (by omega)).1] at hc₃
    simp at hc₃

/-- the version written is that committed by then, deleted or not -/
theorem softDelete_spec (h : o.Nothing comments) :
    (discipline requests).wp i (softDelete m) (Returns fun _ o' τ => ∃ c,
      o' = o.put comments m (some { c with deleted := true }) ∧ τ.com comments m = some c ∧
        (discipline requests).Later i o σ τ) o σ := by
  refine wp_bind (wp_updateRow (fun _ _ _ => wp_fail _) fun τ c hl hv _ => wp_return ⟨c, rfl, ?_, hl⟩)
  rwa [Own.view_of_none (h m)] at hv

/-- the counter of an item that the session does not hold yet -/
theorem bumpUnlocked_spec {field : Field} {δ : ℤ} (h : o.Nothing items) :
    (discipline requests).wp i (bumpContentCounter n field δ) (Returns fun _ o' τ => ∃ r,
      o' = o.put items n (some (r.bump δ field)) ∧ τ.com items n = some r ∧
        (discipline requests).Later i o σ τ) o σ := by
  refine wp_bind (wp_updateRow (fun _ _ _ => wp_fail _) fun τ r hl hv _ => wp_return ⟨r, rfl, ?_, hl⟩)
  rwa [Own.view_of_none (h n)] at hv

/-- neither the item nor the comment is locked before: the comment may have been deleted meanwhile -/
theorem deleteComment_spec (hreq : requests i = .deleteComment n m) :
    (discipline requests).wp i (deleteComment n m) (Returns fun _ o' τ => Tidy requests i o' τ) {} σ := by
  refine wp_seq assertCommentInItem_spec fun c o τ ⟨ho, _, hv, hn, _⟩ => ?_
  subst ho
  refine wp_seq (softDelete_spec (Own.nothing_empty comments)) fun _ o₂ τ₂ ⟨c₂, ho₂, hc₂, h₂⟩ => ?_
  have hn₂ : c₂.contentId = n := by
    obtain ⟨c', hc', hi, -⟩ := h₂.rely.grows m c hv
    rw [hc₂, Option.some.injEq] at hc'
    rw [hc', hi, hn]
  have hitems : o₂.Nothing items := ho₂ ▸ (Own.nothing_empty items).put (by decide) m _
  refine wp_seq (bumpUnlocked_spec hitems) fun _ o₃ τ₃ ⟨r, ho₃, hr₃, h₃⟩ => wp_return fun υ hl hok => ?_
  have hpin : o₃.Pinned υ items n (some r) ∧ o₃.Pinned υ comments m (some c₂) := by
    refine ⟨Own.Pinned.later ?_ hl, Own.Pinned.later ?_ hl⟩ <;> rw [ho₃]
    · exact Own.pinned_put hr₃ _
    · exact (Own.Pinned.later (ho₂ ▸ Own.pinned_put hc₂ _) h₃).put items n _
  have hother : ∀ t, t ≠ items → t ≠ comments → o₃.Nothing t := by
    intro t hi hc
    rw [ho₃, ho₂]
    exact ((Own.nothing_empty t).put hc m _).put hi n _
  refine Fit.delete hl.inv hl.fresh (ho₃ ▸ hitems.just n _) hpin.1.com ?_ hpin.2.com hn₂ (hother _ (by decide) (by decide))
    (hother _ (by decide) (by decide)) (hother _ (by decide) (by decide)) ?_
  · rw [ho₃, ho₂]
    exact ((Own.nothing_empty comments).just m _).put (by decide) n _
  · simp only [okCommit, hreq, DeletesLive] at hok
    rcases hok with (hlive | hzero) | hstep
    · exact Or.inl (hlive c₂ hpin.2.com)
    · exact Or.inr (Or.inl (hzero r hpin.1.com))
    · exact Or.inr (Or.inr hstep)

/-! ## Likes of comments -/

/-- the comment of a locked item is written on the version committed by then -/
theorem bumpLikeCount_spec {δ : ℤ} (h : o.Nothing comments) :
    (discipline requests).wp i (bumpLikeCount m δ) (Returns fun _ o' τ => ∃ c,
      o' = o.put comments m (some { c with likeCount := greatest c.likeCount δ }) ∧ τ.com comments m = some c ∧
        (discipline requests).Later i o σ τ) o σ := by
  refine wp_bind (wp_updateRow (fun _ _ _ => wp_fail _) fun τ c hl hv _ => wp_return ⟨c, rfl, ?_, hl⟩)
  rwa [Own.view_of_none (h m)] at hv

theorem likeComment_spec :
    (discipline requests).wp i (likeComment n m u) (Returns fun _ o' τ => Tidy requests i o' τ) {} σ := by
  refine wp_seq lockActive_spec fun _ o τ ⟨r, h⟩ => ?_
  refine wp_seq assertCommentInItem_spec fun c o' τ₁ ⟨ho', h₁, hv, hn, _⟩ => ?_
  subst ho'
  rw [Own.view_of_none (h.nothing (by decide) m)] at hv
  refine wp_bind (wp_select fun τ₂ h₂ l _ _ => ?_)
  have hlock := (h.later h₁).later h₂
  rcases l with _ | ⟨q, l⟩
  swap
  · exact wp_return hlock.tidy
  refine wp_seq create_spec fun _ o₃ τ₃ ⟨k, ho₃, hk, h₃⟩ => ?_
  refine wp_seq enqueueEvent_spec fun _ o₄ τ₄ ⟨e, v, ho₄, h₄⟩ => ?_
  have hcom : o₄.Nothing comments := by
    rw [ho₄, ho₃]
    exact (((h.nothing (by decide)).put (by decide) k _).take _).put (by decide) e v
  refine wp_returns_mono (bumpLikeCount_spec hcom) fun _ o₅ τ₅ ⟨c₅, ho₅, hc₅, h₅⟩ υ hl _ => ?_
  have hn₅ : c₅.contentId = n := by
    have hgrow := h₂.rely.grows.trans (h₃.rely.grows.trans (h₄.rely.grows.trans h₅.rely.grows))
    obtain ⟨c', hc', hi, -⟩ := hgrow m c hv
    rw [hc₅, Option.some.injEq] at hc'
    rw [hc', hi, hn]
  have hpin₃ : o₃.Pinned τ₃ items n (some r) ∧ o₃.Pinned τ₃ commentLikes k none := by
    rw [ho₃]
    exact ⟨((hlock.pinned.later h₃).put commentLikes k _).take _, (Own.pinned_put hk _).take _⟩
  have hpin₄ : o₄.Pinned τ₄ items n (some r) ∧ o₄.Pinned τ₄ commentLikes k none := by
    rw [ho₄]
    exact ⟨(hpin₃.1.later h₄).put outbox e v, (hpin₃.2.later h₄).put outbox e v⟩
  have hpin : o₅.Pinned υ items n (some r) ∧ o₅.Pinned υ commentLikes k none ∧ o₅.Pinned υ comments m (some c₅) := by
    refine ⟨Own.Pinned.later ?_ hl, Own.Pinned.later ?_ hl, Own.Pinned.later ?_ hl⟩ <;> rw [ho₅]
    · exact (hpin₄.1.later h₅).put comments m _
    · exact (hpin₄.2.later h₅).put comments m _
    · exact Own.pinned_put hc₅ _
  have hother : ∀ t, t ≠ items → t ≠ commentLikes → t ≠ outbox → t ≠ comments → o₅.Nothing t := by
    intro t hi hcl ho hc
    rw [ho₅, ho₄, ho₃]
    exact ((((h.nothing hi).put hcl k _).take _).put ho e v).put hc m _
  refine Fit.commentLike hl.inv hl.fresh (k := k) (v := some { commentId := m, userId := u }) (δ := 1) ?_ hpin.1.com
    (ho₅ ▸ hcom.just m _) hpin.2.2.com hn₅ ?_ (hother _ (by decide) (by decide) (by decide) (by decide))
    (hother _ (by decide) (by decide) (by decide) (by decide)) ?_ ?_ ?_
  · rw [ho₅, ho₄, ho₃]
    exact (((h.item.put (by decide) k _).take _).put (by decide) e v).put (by decide) m _
  · rw [ho₅, ho₄, ho₃]
    exact ((((h.nothing (by decide)).just k _).take _).put (by decide) e v).put (by decide) m _
  · simp [hpin.2.1.com]
  · simp
  · simp [hpin.2.1.com, greatest]

theorem unlikeComment_spec :
    (discipline requests).wp i (unlikeComment n m u) (Returns fun _ o' τ => Tidy requests i o' τ) {} σ := by
  refine wp_seq lockActive_spec fun _ o τ ⟨r, h⟩ => ?_
  refine wp_seq assertCommentInItem_spec fun c o' τ₁ ⟨ho', h₁, hv, hn, _⟩ => ?_
  subst ho'
  rw [Own.view_of_none (h.nothing (by decide) m)] at hv
  refine wp_bind (wp_select fun τ₂ h₂ l hmem _ => ?_)
  have hlock := (h.later h₁).later h₂
  rcases l with _ | ⟨⟨k, x⟩, l⟩
  · exact wp_return hlock.tidy
  obtain ⟨hx, hp⟩ := (hmem k x).1 List.mem_cons_self
  have hm : x.commentId = m := by
    simp only [ContentCommentLike.is, Bool.and_eq_true, beq_iff_eq] at hp
    exact hp.1
  have hlikes : o'.Nothing commentLikes := h.nothing (by decide)
  obtain ⟨c₂, hc₂, hi₂, -⟩ := h₂.rely.grows m c hv
  -- the like is one of a comment of the locked item, so it stays
  have hstays : ∀ υ, (discipline requests).Later i o' τ₂ υ → o'.view υ commentLikes k = some x := by
    intro υ hl
    rw [Own.view_of_none (hlikes k)] at hx ⊢
    refine hl.rely.commentLike k x c₂ hx (hm ▸ hc₂) ?_
    rw [hi₂, hn]
    exact h.pinned.held
  refine wp_bind (wp_deleteRow (fun τ₃ h₃ hnone => ?_) fun τ₃ x' h₃ _ => ?_)
  · rw [hstays τ₃ h₃] at hnone
    simp at hnone
  have hx₃ : τ₃.com commentLikes k = some x := by
    rw [← Own.view_of_none (hlikes k)]
    exact hstays τ₃ h₃
  have hcom : (o'.put commentLikes k none).Nothing comments := (h.nothing (by decide)).put (by decide) k _
  refine wp_returns_mono (bumpLikeCount_spec hcom) fun _ o₅ τ₅ ⟨c₅, ho₅, hc₅, h₅⟩ υ hl _ => ?_
  have hn₅ : c₅.contentId = n := by
    obtain ⟨c', hc', hi, -⟩ := (h₃.rely.grows.trans h₅.rely.grows) m c₂ hc₂
    rw [hc₅, Option.some.injEq] at hc'
    rw [hc', hi, hi₂, hn]
  have hpin : o₅.Pinned υ items n (some r) ∧ o₅.Pinned υ commentLikes k (some x) ∧ o₅.Pinned υ comments m (some c₅) := by
    refine ⟨Own.Pinned.later ?_ hl, Own.Pinned.later ?_ hl, Own.Pinned.later ?_ hl⟩ <;> rw [ho₅]
    · exact (((hlock.pinned.later h₃).put commentLikes k _).later h₅).put comments m _
    · exact ((Own.pinned_put hx₃ _).later h₅).put comments m _
    · exact Own.pinned_put hc₅ _
  have hother : ∀ t, t ≠ items → t ≠ commentLikes → t ≠ comments → o₅.Nothing t := by
    intro t hi hcl hc
    rw [ho₅]
    exact ((h.nothing hi).put hcl k _).put hc m _
  have hpos : 0 < c₅.likeCount :=
    hl.inv.inStep.commentLike.pos hl.fresh hpin.2.2.com (m := k) (by simp [hpin.2.1.com, hm])
  refine Fit.commentLike hl.inv hl.fresh (k := k) (v := none) (δ := -1) ?_ hpin.1.com (ho₅ ▸ hcom.just m _)
    hpin.2.2.com hn₅ ?_ (hother _ (by decide) (by decide) (by decide)) (hother _ (by decide) (by decide) (by decide))
    ?_ ?_ ?_
  · rw [ho₅]
    exact (h.item.put (by decide) k _).put (by decide) m _
  · rw [ho₅]
    exact (hlikes.just k _).put (by decide) m _
  · intro y hy
    rw [hpin.2.1.com, Option.some.injEq] at hy
    exact hy ▸ hm
  · simp
  · simp [hpin.2.1.com, greatest]
    omega

/-! ## Reconciliation -/

/-- the rows of one snapshot of what is committed -/
def Sees (l : Rows) (σ : State) : Prop :=
  (∀ t n r, (n, r) ∈ l t ↔ σ.com t n = some r) ∧ ∀ t, (l t).Pairwise fun a b => a.1 < b.1

/-- a subquery counts the rows that the counter stands for -/
theorem Sees.countP {l : Rows} (h : Sees l σ) (t : Tbl) (p : Row t → Bool) :
    ((l t).countP fun q => p q.2) = (σ.matching t p).ncard := by
  refine countP_eq_ncard (h.2 t) _ fun m => ?_
  simp only [Snap.matching, Set.mem_ofPred_eq, Option.any_eq_true, h.1]

/-- with the counters in step, a window has nothing to correct -/
theorem window_inStep {l : Rows} {uuid : ℕ → ℕ} {batchSize lastId : ℕ} {onlyUnconverged : Bool} (h : InStep σ)
    (hl : Sees l σ) : ∀ row ∈ window uuid batchSize onlyUnconverged lastId l, row.real = row.current := by
  intro row hrow
  simp only [window, List.mem_map] at hrow
  obtain ⟨⟨n, r⟩, hq, rfl⟩ := hrow
  have hmem : (n, r) ∈ l items := List.mem_of_mem_filter (List.mem_insertionSort _ |>.1 (List.mem_of_mem_take hq))
  have hr : σ.com items n = some r := (hl.1 items n r).1 hmem
  have hlike := h.like n r hr
  have hcomment := h.comment n r hr
  have hfavorite := h.favorite n r hr
  simp only [realCounts]
  rw [hl.countP likes fun x => x.contentId == n, hl.countP comments fun c => c.contentId == n && !c.deleted,
    hl.countP favorites fun x => x.contentId == n, ← hlike, ← hcomment, ← hfavorite]

/-- with the counters in step, no comment has drifted -/
theorem driftedComments_inStep {l : Rows} (h : InStep σ) (hl : Sees l σ) (ids : List ℕ) : driftedComments ids l = [] := by
  simp only [driftedComments, List.map_eq_nil_iff, List.filter_eq_nil_iff]
  rintro ⟨m, c⟩ hmem
  have hc := h.commentLike m c ((hl.1 comments m c).1 hmem)
  have hreal : realCommentLikes l m = c.likeCount := by
    rw [realCommentLikes, hl.countP commentLikes fun x => x.commentId == m, ← hc]
  simp [hreal]

theorem reconcileCommentLikes_spec (ids : List ℕ) :
    (discipline requests).wp i (reconcileCommentLikes ids) (Returns fun _ o' _ => o' = {}) {} σ := by
  unfold reconcileCommentLikes
  split_ifs
  · exact wp_return rfl
  · refine wp_bind (wp_query fun τ hl l hmem hs => ?_)
    rw [driftedComments_inStep hl.inv.inStep ⟨hmem, hs⟩]
    exact wp_return rfl

/-- a window without drift is not written -/
theorem correctItems_spec {pending : ℕ → Bool} {now : ℕ} {rows : List Window} (h : ∀ row ∈ rows, row.real = row.current) :
    (discipline requests).wp i (correctItems pending now rows) (Returns fun _ o' _ => o' = {}) {} σ := by
  induction rows generalizing σ with
  | nil => exact wp_return rfl
  | cons row rows ih =>
    unfold correctItems
    rw [if_pos (h row List.mem_cons_self)]
    refine wp_seq (ih fun row' hrow => h row' (List.mem_cons_of_mem _ hrow)) fun res o τ ho => ?_
    exact wp_return ho

theorem reconcileWindows_spec {s : Reconcile} (fuel lastId : ℕ) :
    (discipline requests).wp i (reconcileWindows s fuel lastId) (Returns fun _ o' _ => o' = {}) {} σ := by
  induction fuel generalizing lastId σ with
  | zero => exact wp_fail _
  | succ fuel ih =>
    refine wp_bind (wp_query fun τ hl l hmem hs => ?_)
    have hrows : ∀ row ∈ window s.uuid s.batchSize s.onlyUnconverged lastId l, row.real = row.current :=
      window_inStep hl.inv.inStep ⟨hmem, hs⟩
    generalize window s.uuid s.batchSize s.onlyUnconverged lastId l = rows at hrows
    rcases hlast : rows.getLast? with _ | last
    · simp only [hlast]
      exact wp_return rfl
    · simp only [hlast]
      refine wp_seq (reconcileCommentLikes_spec _) fun _ o₁ τ₁ ho₁ => ?_
      subst ho₁
      refine wp_seq (correctItems_spec hrows) fun res o₂ τ₂ ho₂ => ?_
      subst ho₂
      exact wp_seq (ih (s.uuid last.id)) fun res' o₃ τ₃ ho₃ => wp_return ho₃

/-- a session that has marked items as reconciled, and written nothing else -/
structure Marked (o : Held) (σ : State) : Prop where
  nothing : ∀ t, t ≠ items → o.Nothing t
  marks : ∀ m v, o.row items m = some v → ∃ r t, σ.com items m = some r ∧ v = some { r with countsReconciledAt := t }

theorem Marked.later (h : Marked o σ) (hl : (discipline requests).Later i o σ τ) : Marked o τ := by
  refine ⟨h.nothing, fun m v hv => ?_⟩
  obtain ⟨r, t, hr, hvr⟩ := h.marks m v hv
  exact ⟨r, t, (hl.com_eq hv).trans hr, hvr⟩

/-- a mark leaves the counters, whatever version of the item it is set on -/
theorem Marked.fit (h : Marked o σ) (hi : Inv σ) : Fit o σ := by
  have hcl := h.nothing commentLikes (by decide)
  have hc := h.nothing comments (by decide)
  have hl := h.nothing likes (by decide)
  have hf := h.nothing favorites (by decide)
  have hbase : ∀ f : ContentItem → ℕ, (∀ r t, f { r with countsReconciledAt := t } = f r) → ∀ m r',
      (σ.merge o).com items m = some r' → ∃ r, σ.com items m = some r ∧ f r' = f r := by
    intro f hmark m r' hr'
    rcases Snap.merge_cases hr' with ho | ⟨-, hr⟩
    · obtain ⟨r, t, hr, hvr⟩ := h.marks m _ ho
      rw [Option.some.injEq] at hvr
      exact ⟨r, hr, by rw [hvr, hmark]⟩
    · exact ⟨r', hr, rfl⟩
  refine .of hi (.ofItems (fun m v _ hv => ?_) hc hcl fun m r hv => ?_) hcl ⟨?_, ?_, ?_, ?_⟩ (hi.floors.nothing hc)
    (hi.favorite.nothing hf)
  · simp [hl m] at hv
  · simp [hf m] at hv
  · exact hi.inStep.like.keep (hbase _ fun _ _ => rfl) hl.detail
  · exact hi.inStep.comment.keep (hbase _ fun _ _ => rfl) hc.detail
  · exact hi.inStep.favorite.keep (hbase _ fun _ _ => rfl) hf.detail
  · exact hi.inStep.commentLike.keep hc.base hcl.detail

theorem mark_spec (now : ℕ) (ns : List ℕ) (h : Marked o σ) :
    (discipline requests).wp i (markConverged now ns) (Returns fun _ o' τ => Marked o' τ) o σ := by
  unfold markConverged
  induction ns generalizing o σ with
  | nil => exact wp_return h
  | cons n ns ih =>
    refine wp_bind (wp_updateRow (fun τ hl _ => ?_) fun τ r hl hv _ => ?_)
    · exact wp_seq (ih (h.later hl)) fun _ _ _ hm => wp_return hm
    · refine wp_seq (ih ⟨fun t ht => (h.nothing t ht).put ht n _, fun m v hm => ?_⟩) fun _ _ _ hm => wp_return hm
      rw [Own.put_row_same] at hm
      split_ifs at hm with hmn
      · rw [Option.some.injEq] at hm
        subst hmn hm
        rcases ho : o.row items m with _ | w
        · rw [Own.view_of_none ho] at hv
          exact ⟨r, some now, hv, rfl⟩
        · -- the item has been marked before
          obtain ⟨r₀, t, hr₀, rfl⟩ := (h.later hl).marks m w ho
          rw [Own.view_of_row ho, Option.some.injEq] at hv
          exact ⟨r₀, some now, hr₀, by rw [← hv]⟩
      · exact (h.later hl).marks m v hm

theorem reconcileCounts_spec {s : Reconcile} {fuel : ℕ} :
    (discipline requests).wp i (reconcileCounts s fuel) (Returns fun _ o' τ => Tidy requests i o' τ) {} σ := by
  refine wp_seq (reconcileWindows_spec fuel 0) fun res o τ ho => ?_
  subst ho
  have hempty : Marked {} τ := ⟨fun t _ => Own.nothing_empty t, fun m v hv => by simp at hv⟩
  refine wp_seq (mark_spec s.now _ hempty) fun _ o' τ' hm => wp_return fun υ hl _ => ?_
  exact (hm.later hl).fit hl.inv

/-! ## Requests -/

theorem body_spec (hreq : requests i = r) :
    (discipline requests).wp i r.body (Returns fun _ o' τ => Tidy requests i o' τ) {} σ := by
  cases r with
  | likeItem => exact wp_seq likeItem_spec fun _ _ _ h => wp_return h
  | unlikeItem => exact wp_seq unlikeItem_spec fun _ _ _ h => wp_return h
  | addFavorite => exact wp_seq addFavorite_spec fun _ _ _ h => wp_return h
  | removeFavorite => exact wp_seq removeFavorite_spec fun _ _ _ h => wp_return h
  | createComment => exact wp_seq createComment_spec fun _ _ _ h => wp_return h
  | deleteComment => exact deleteComment_spec hreq
  | likeComment => exact wp_seq likeComment_spec fun _ _ _ h => wp_return h
  | unlikeComment => exact wp_seq unlikeComment_spec fun _ _ _ h => wp_return h
  | reconcileCounts => exact wp_seq reconcileCounts_spec fun _ _ _ h => wp_return h

theorem request_safe : (discipline requests).wp i (requests i).prog (fun _ _ _ => True) {} σ := by
  refine wp_andThen (wp_mono (body_spec rfl) ?_)
  rintro (e | _) o τ ho
  · exact wp_bind (wp_rollback fun _ _ => wp_raise _ trivial)
  · refine wp_bind (wp_commitLock fun υ hl hok => ?_)
    have hfit := ho υ hl hok
    refine ⟨⟨hfit.inv, trivial, fun j _ o' hd => hfit.covered.rely hd⟩, fun _ _ _ _ => trivial, wp_pure trivial⟩

end LkmService.Counters
