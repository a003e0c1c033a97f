/-
Which runs of `create_comment` and `delete_comment` keep the comment tree complete.

A deletion does not go on to the replies, and the tree is built from the comments that are left: a reply that is not deleted
vanishes from it with the comment that it replies to (`orphan_vanishes`). A new reply keeps the comment that it replies to,
since both are under the lock of the item.

- `threaded_after`: in every run a reply is younger than the comment of its item that it replies to.
- `tree_ends`: the recursion over the tree ends in every state of every run.
- `tree_complete`: the tree is complete in every state of every run in which no comment that still has replies is deleted,
  and none twice.
-/
import LkmService.Counters.Tree
import LkmService.Counters.InStep

namespace LkmService.Counters

open Session Sql Sql.Discipline Forest Tbl

variable {requests : ℕ → Request} {i n m u k : ℕ} {o o' : Held} {σ τ υ : State} {r : ContentItem} {c : ContentComment}
  {strict : Bool}

/-! ## The discipline -/

/-- all replies to the comment are deleted -/
def Replyless (σ : State) (k : ℕ) : Prop := ∀ m c, σ.com comments m = some c → c.parentId = some k → c.deleted = true

def IsLive (σ : State) (k : ℕ) : Prop := ∃ c, σ.com comments k = some c ∧ c.deleted = false

/-- who is not deleted replies to comments that are not deleted -/
def RepliesLive (σ : State) : Prop :=
  ∀ m c k, σ.com comments m = some c → c.deleted = false → c.parentId = some k → IsLive σ k

/-- a comment stays, with its item and what it replies to -/
def Stays (σ τ : State) : Prop :=
  ∀ m c, σ.com comments m = some c →
    ∃ c', τ.com comments m = some c' ∧ c'.contentId = c.contentId ∧ c'.parentId = c.parentId

/-- who holds the row of an item keeps its comments from being deleted -/
structure Kept (o : Held) (σ τ : State) : Prop where
  stays : Stays σ τ
  live : ∀ m c, σ.com comments m = some c → o.row items c.contentId ≠ none → c.deleted = false → IsLive τ m

theorem Kept.refl (o : Held) (σ : State) : Kept o σ σ :=
  ⟨fun _ c hc => ⟨c, hc, rfl, rfl⟩, fun _ c hc _ hlive => ⟨c, hc, hlive⟩⟩

theorem Kept.trans (h : Kept o σ τ) (h' : Kept o τ υ) : Kept o σ υ where
  stays m c hc := by
    obtain ⟨c₁, hc₁, hi, hp⟩ := h.stays m c hc
    obtain ⟨c₂, hc₂, hi', hp'⟩ := h'.stays m c₁ hc₁
    exact ⟨c₂, hc₂, hi'.trans hi, hp'.trans hp⟩
  live m c hc ho hlive := by
    obtain ⟨c₁, hc₁, hi, -⟩ := h.stays m c hc
    obtain ⟨c₂, hc₂, hlive₂⟩ := h.live m c hc ho hlive
    obtain rfl : c₁ = c₂ := Option.some.inj (hc₁.symm.trans hc₂)
    exact h'.live m c₁ hc₁ (hi ▸ ho) hlive₂

theorem Kept.bump (o : Held) (σ : State) (t : Tbl) (k : ℕ) : Kept o σ (σ.bump t k) :=
  ⟨(Kept.refl o σ).stays, (Kept.refl o σ).live⟩

/-- of a deletion that commits: the comment has no replies left -/
def okThread (requests : ℕ → Request) (i : ℕ) (σ : State) : Prop :=
  match requests i with
  | .deleteComment _ k => Replyless σ k
  | _ => True

/-- strict: under the condition on commits, and with `RepliesLive` -/
def threads (strict : Bool) (requests : ℕ → Request) : Discipline Row Index Fx Unit where
  inv σ := Threaded σ ∧ (strict = true → RepliesLive σ)
  rely _ := Kept
  act _ _ _ := True
  ok _ _ _ _ := True
  okCommit i _ σ := strict = true → okThread requests i σ
  rely_refl _ := Kept.refl
  rely_trans _ _ _ _ _ := Kept.trans
  act_refl _ _ _ := trivial
  grow_inv _ _ _ h := h
  grow_act _ _ _ _ _ := trivial
  grow_rely _ o σ t k _ := Kept.bump o σ t k

instance : Lockless (threads strict requests) := ⟨fun _ _ _ => trivial⟩

/-! ## What a commit may change -/

/-- what the session would commit keeps replies and what they reply to -/
structure Weaves (strict : Bool) (o : Held) (σ : State) : Prop where
  inv : Threaded (σ.merge o) ∧ (strict = true → RepliesLive (σ.merge o))
  kept : ∀ o' : Held, o'.Disjoint o → Kept o' σ (σ.merge o)

/-- a new comment, below one of the same item that is not deleted -/
theorem Weaves.create (h : Threaded σ ∧ (strict = true → RepliesLive σ)) (hc : o.Just comments k (some c))
    (hnone : σ.com comments k = none)
    (hparent : ∀ p, c.parentId = some p → p < k ∧ ∃ d, σ.com comments p = some d ∧ d.contentId = c.contentId ∧ d.deleted = false) :
    Weaves strict o σ := by
  have hold : ∀ m d, σ.com comments m = some d → (σ.merge o).com comments m = some d := by
    intro m d hd
    rwa [hc.com_ne fun hm => by rw [hm, hnone] at hd; cases hd]
  have hnew : ∀ m d, (σ.merge o).com comments m = some d → m = k ∧ d = c ∨ σ.com comments m = some d := by
    intro m d hd
    rw [hc.com] at hd
    split_ifs at hd with hm
    · exact Or.inl ⟨hm, (Option.some.inj hd).symm⟩
    · exact Or.inr hd
  refine ⟨⟨fun m d p hd hp => ?_, fun hs m d p hd hlive hp => ?_⟩, fun o' _ => ⟨fun m d hd => ?_, fun m d hd _ hlive => ?_⟩⟩
  · rcases hnew m d hd with ⟨rfl, rfl⟩ | hd
    · obtain ⟨hlt, e, he, hi, -⟩ := hparent p hp
      exact ⟨hlt, e, hold p e he, hi⟩
    · obtain ⟨hlt, e, he, hi⟩ := h.1 m d p hd hp
      exact ⟨hlt, e, hold p e he, hi⟩
  · rcases hnew m d hd with ⟨rfl, rfl⟩ | hd
    · obtain ⟨-, e, he, -, helive⟩ := hparent p hp
      exact ⟨e, hold p e he, helive⟩
    · obtain ⟨e, he, helive⟩ := h.2 hs m d p hd hlive hp
      exact ⟨e, hold p e he, helive⟩
  · exact ⟨d, hold m d hd, rfl, rfl⟩
  · exact ⟨d, hold m d hd, hlive⟩

/-- a deletion, with the row of the item -/
theorem Weaves.delete (h : Threaded σ ∧ (strict = true → RepliesLive σ)) (hc : o.Just comments m (some { c with deleted := true }))
    (hold : σ.com comments m = some c) (hitem : o.row items c.contentId ≠ none) (hreplies : strict = true → Replyless σ m) :
    Weaves strict o σ := by
  have hback : ∀ m' d, (σ.merge o).com comments m' = some d →
      ∃ e, σ.com comments m' = some e ∧ d.contentId = e.contentId ∧ d.parentId = e.parentId ∧ (d.deleted = false → d = e ∧ m' ≠ m) := by
    intro m' d hd
    rw [hc.com] at hd
    split_ifs at hd with hm
    · subst hm
      refine ⟨c, hold, ?_⟩
      rw [← Option.some.inj hd]
      exact ⟨rfl, rfl, fun hlive => nomatch hlive⟩
    · exact ⟨d, hd, rfl, rfl, fun _ => ⟨rfl, hm⟩⟩
  have hstays : Stays σ (σ.merge o) := by
    intro m' d hd
    by_cases hm : m' = m
    · subst hm
      rw [hold, Option.some.injEq] at hd
      exact ⟨_, hc.com_self, hd ▸ rfl, hd ▸ rfl⟩
    · exact ⟨d, (hc.com_ne hm).trans hd, rfl, rfl⟩
  refine ⟨⟨fun m' d p hd hp => ?_, fun hs m' d p hd hlive hp => ?_⟩, fun o' hdisj => ⟨hstays, fun m' d hd ho' hlive => ?_⟩⟩
  · obtain ⟨e, he, hi, hpar, -⟩ := hback m' d hd
    obtain ⟨hlt, x, hx, hxi⟩ := h.1 m' e p he (hpar ▸ hp)
    obtain ⟨x', hx', hxi', -⟩ := hstays p x hx
    exact ⟨hlt, x', hx', hxi'.trans (hxi.trans hi.symm)⟩
  · obtain ⟨e, he, -, -, hsame⟩ := hback m' d hd
    obtain ⟨rfl, -⟩ := hsame hlive
    -- the deleted comment is nobody's parent
    have hp' : p ≠ m := by
      rintro rfl
      exact absurd (hreplies hs m' d he hp) (by simp [hlive])
    obtain ⟨x, hx, hxlive⟩ := h.2 hs m' d p he hlive hp
    exact ⟨x, (hc.com_ne hp').trans hx, hxlive⟩
  · have hm : m' ≠ m := by
      rintro rfl
      rw [hold, Option.some.injEq] at hd
      exact hitem (hdisj.row items _ (hd ▸ ho'))
    exact ⟨d, (hc.com_ne hm).trans hd, hlive⟩

/-! ## The operations -/

/-- a session that holds an item -/
structure Holds (strict : Bool) (requests : ℕ → Request) (o : Held) (n : ℕ) : Prop where
  item : o.row items n ≠ none
  nothing : o.Nothing comments

theorem lockActive_threads :
    (threads strict requests).wp i (lockActive n) (Returns fun _ o' _ => Holds strict requests o' n) {} σ := by
  refine wp_bind (wp_lockRow (fun _ _ _ => wp_fail _) fun τ r hl hv _ => ?_)
  exact wp_return ⟨by simp, (Own.nothing_empty comments).put (by decide) n _⟩

theorem assertCommentInItem_threads (h : o.Nothing comments) :
    (threads strict requests).wp i (assertCommentInItem n m) (Returns fun _ o' τ => o' = o ∧
      ∃ c, τ.com comments m = some c ∧ c.contentId = n ∧ c.deleted = false) o σ := by
  refine wp_bind (wp_select fun τ hl l hmem _ => ?_)
  rcases l with _ | ⟨⟨m', c⟩, l⟩
  · exact wp_fail _
  · obtain ⟨hv, hp⟩ := (hmem m' c).1 List.mem_cons_self
    simp only [Bool.and_eq_true, beq_iff_eq, Bool.not_eq_true'] at hp
    obtain ⟨⟨rfl, hn⟩, hd⟩ := hp
    rw [Own.view_of_none (h m')] at hv
    exact wp_return ⟨rfl, c, hv, hn, hd⟩

/-- while the item is held, the comment that is replied to is there and not deleted -/
def ParentKept (o : Held) (σ : State) (n : ℕ) (parentId : Option ℕ) : Prop :=
  ∀ p, parentId = some p → o.row items n ≠ none ∧ ∃ c, σ.com comments p = some c ∧ c.contentId = n ∧ c.deleted = false

theorem ParentKept.later {parentId : Option ℕ} (h : ParentKept o σ n parentId) (hkept : Kept o σ τ) :
    ParentKept o τ n parentId := by
  intro p hp
  obtain ⟨hitem, c, hc, hn, hlive⟩ := h p hp
  obtain ⟨c₁, hc₁, hi, -⟩ := hkept.stays p c hc
  obtain ⟨c₂, hc₂, hlive₂⟩ := hkept.live p c hc (hn ▸ hitem) hlive
  obtain rfl : c₁ = c₂ := Option.some.inj (hc₁.symm.trans hc₂)
  exact ⟨hitem, c₁, hc₁, hi.trans hn, hlive₂⟩

theorem ParentKept.put {parentId : Option ℕ} (h : ParentKept o σ n parentId) (hs : o.Sub o') : ParentKept o' σ n parentId := by
  intro p hp
  obtain ⟨hitem, hparent⟩ := h p hp
  exact ⟨hs.row _ _ hitem, hparent⟩

theorem checkParent_threads {parentId : Option ℕ} (h : Holds strict requests o n) :
    (threads strict requests).wp i (checkParent n parentId) (Returns fun _ o' τ => o' = o ∧ ParentKept o τ n parentId) o σ := by
  rcases parentId with _ | p
  · exact wp_return ⟨rfl, fun p hp => nomatch hp⟩
  · refine wp_seq (assertCommentInItem_threads h.nothing) fun c o' τ ⟨ho, hparent⟩ => wp_return ⟨ho, fun p' hp => ?_⟩
    obtain rfl := Option.some.inj hp
    exact ⟨h.item, hparent⟩

theorem maxFloorNumber_threads :
    (threads strict requests).wp i (maxFloorNumber n) (Returns fun _ o' τ => o' = o ∧ (threads strict requests).Later i o σ τ) o σ :=
  wp_bind (wp_select fun _ hl _ _ _ => wp_return ⟨rfl, hl⟩)

theorem bump_threads {field : Field} {δ : ℤ} :
    (threads strict requests).wp i (bumpContentCounter n field δ) (Returns fun _ o' τ => ∃ r, o' = o.put items n (some r) ∧
      (threads strict requests).Later i o σ τ) o σ :=
  wp_bind (wp_updateRow (fun _ _ _ => wp_fail _) fun _ _ hl _ _ => wp_return ⟨_, rfl, hl⟩)

theorem enqueueEvent_threads {event : String} {ref : EventRef} :
    (threads strict requests).wp i (enqueueEvent u event ref) (Returns fun _ o' τ => ∃ m v, o' = o.put outbox m v ∧
      (threads strict requests).Later i o σ τ) o σ :=
  wp_bind (wp_insert fun τ hl => wp_return ⟨τ.next outbox, _, rfl, hl.bump outbox _⟩)

/-- what the session would commit, whatever the others commit before -/
def Neat (strict : Bool) (requests : ℕ → Request) (i : ℕ) (o : Held) (σ : State) : Prop :=
  ∀ τ, (threads strict requests).Later i o σ τ → (strict = true → okThread requests i τ) → Weaves strict o τ

theorem createComment_threads {parentId : Option ℕ} :
    (threads strict requests).wp i (createComment n u parentId) (Returns fun _ o' τ => Neat strict requests i o' τ) {} σ := by
  refine wp_seq lockActive_threads fun _ o τ h => wp_seq (checkParent_threads h) fun _ o₁ τ₁ ⟨ho₁, hparent₁⟩ => ?_
  subst ho₁
  refine wp_seq maxFloorNumber_threads fun f o₂ τ₂ ⟨ho₂, h₂⟩ => ?_
  subst ho₂
  refine wp_bind (wp_insert fun τ₃ h₃ => ?_)
  set k := τ₃.next comments with hk
  set c : ContentComment := { contentId := n, userId := u, floorNumber := f + 1, parentId := parentId }
  have hparent₃ : ParentKept o₂ τ₃ n parentId := (hparent₁.later h₂.rely).later h₃.rely
  have hyoung : ∀ p, parentId = some p → p < k := by
    intro p hp
    obtain ⟨-, d, hd, -⟩ := hparent₃ p hp
    by_contra hge
    rw [(h₃.fresh comments p (Nat.not_lt.1 hge)).1] at hd
    cases hd
  have hnone₃ : (τ₃.bump comments k).com comments k = none := (h₃.fresh comments _ (Nat.le_refl _)).1
  have hpin₃ : (o₂.put comments k (some c)).Pinned (τ₃.bump comments k) comments k none := Own.pinned_put hnone₃ _
  have hown₃ : ParentKept (o₂.put comments k (some c)) (τ₃.bump comments k) n parentId := by
    refine ParentKept.put ?_ (o₂.sub_put comments k _)
    exact hparent₃.later (Kept.bump _ _ comments k)
  refine wp_seq bump_threads fun _ o₄ τ₄ ⟨r, ho₄, h₄⟩ => ?_
  refine wp_seq enqueueEvent_threads fun _ o₅ τ₅ ⟨e, v, ho₅, h₅⟩ => wp_return fun υ hl _ => ?_
  have hpin₄ : o₄.Pinned τ₄ comments k none := ho₄ ▸ (hpin₃.later h₄).put items n _
  have hpin₅ : o₅.Pinned τ₅ comments k none := ho₅ ▸ (hpin₄.later h₅).put outbox e v
  have hown₄ : ParentKept o₄ τ₄ n parentId := (hown₃.later h₄.rely).put (ho₄ ▸ Own.sub_put _ items n _)
  have hown₅ : ParentKept o₅ τ₅ n parentId := (hown₄.later h₅.rely).put (ho₅ ▸ Own.sub_put _ outbox e v)
  have hjust : o₅.Just comments k (some c) := by
    rw [ho₅, ho₄]
    exact ((h.nothing.just k _).put (by decide) n _).put (by decide) e v
  refine Weaves.create hl.inv hjust (hpin₅.later hl).com fun p hp => ?_
  exact ⟨hyoung p hp, ((hown₅.later hl.rely) p hp).2⟩

theorem softDelete_threads (h : o.Nothing comments) :
    (threads strict requests).wp i (softDelete m) (Returns fun _ o' τ => ∃ c,
      o' = o.put comments m (some { c with deleted := true }) ∧ τ.com comments m = some c ∧
        (threads strict requests).Later i o σ τ) o σ := by
  refine wp_bind (wp_updateRow (fun _ _ _ => wp_fail _) fun τ c hl hv _ => wp_return ⟨c, rfl, ?_, hl⟩)
  rwa [Own.view_of_none (h m)] at hv

/-- the deletion holds the item only from its last statement on -/
theorem deleteComment_threads (hreq : requests i = .deleteComment n m) :
    (threads strict requests).wp i (deleteComment n m) (Returns fun _ o' τ => Neat strict requests i o' τ) {} σ := by
  refine wp_seq (assertCommentInItem_threads (Own.nothing_empty comments)) fun _ o τ ⟨ho, c, hc, hn, _⟩ => ?_
  subst ho
  refine wp_seq (softDelete_threads (Own.nothing_empty comments)) fun _ o₂ τ₂ ⟨c₂, ho₂, hc₂, h₂⟩ => ?_
  have hn₂ : c₂.contentId = n := by
    obtain ⟨c', hc', hi, -⟩ := h₂.rely.stays m c hc
    rw [hc₂, Option.some.injEq] at hc'
    rw [hc', hi, hn]
  refine wp_seq bump_threads fun _ o₃ τ₃ ⟨r, ho₃, h₃⟩ => wp_return fun υ hl hok => ?_
  have hpin : o₃.Pinned υ comments m (some c₂) := by
    refine Own.Pinned.later ?_ hl
    rw [ho₃]
    exact (Own.Pinned.later (ho₂ ▸ Own.pinned_put hc₂ _) h₃).put items n _
  refine Weaves.delete hl.inv (c := c₂) ?_ hpin.com ?_ fun hs => ?_
  · rw [ho₃, ho₂]
    exact ((Own.nothing_empty comments).just m _).put (by decide) n _
  · rw [ho₃, hn₂]
    simp
  · have hthread := hok hs
    simpa only [okThread, hreq] using hthread

/-! ## Runs -/

/-- a request to create or to delete a comment -/
def Request.isComment : Request → Bool
  | .createComment _ _ _ | .deleteComment _ _ => true
  | _ => false

theorem request_weaves (hreq : (requests i).isComment = true) :
    (threads strict requests).wp i (requests i).prog (fun _ _ _ => True) {} σ := by
  have hbody : (threads strict requests).wp i (requests i).body (Returns fun _ o' τ => Neat strict requests i o' τ) {} σ := by
    cases hr : requests i with
    | createComment n u parentId => exact wp_seq createComment_threads fun _ _ _ h => wp_return h
    | deleteComment n m => exact deleteComment_threads hr
    | _ => simp [Request.isComment, hr] at hreq
  refine wp_andThen (wp_mono hbody ?_)
  rintro (e | _) o τ ho
  · exact wp_bind (wp_rollback fun _ _ => wp_raise _ trivial)
  · refine wp_bind (wp_commitLock fun υ hl hok => ?_)
    have hweaves := ho υ hl hok
    refine ⟨⟨hweaves.inv, trivial, fun j _ o' hd => hweaves.kept o' hd⟩, fun _ _ _ _ => trivial, wp_pure trivial⟩

theorem threads_after (strict : Bool) {d : Store} {ms : List Move} (h : Starts d) (ht : Threaded d.snap) (hr : strict = true → RepliesLive d.snap)
    (hcomments : ∀ i, (requests i).isComment = true)
    (hl : (threads strict requests).protocol.Legal (init d requests) ms) :
    Threaded (after d requests ms) ∧ (strict = true → RepliesLive (after d requests ms)) :=
  ((threads strict requests).protocol.run_inv
    (safe_start ⟨ht, hr⟩ (fun _ => trivial) h.own fun i => request_weaves (hcomments i)) hl).1

/-- what the conditions on a run have to say: of the commits only -/
theorem threads_stepOk {w : World (Stmt Row Index Fx) Store Exn Unit} {m : Move}
    (h : ∀ i, m = .run i → commits w m = true → strict = true → okThread requests i w.st.snap) :
    (threads strict requests).protocol.stepOk w m := by
  refine Protocol.stepOk_of _ (fun _ _ _ _ => trivial) ?_
  rintro β i (c | x) k rfl hp
  · exact fun hc => h i rfl (by simp only [commits, hp, hc])
  · cases x

/-- **Replies are younger.** In every run, without a condition on it. -/
theorem threaded_after {d : Store} {ms : List Move} (h : Starts d) (ht : Threaded d.snap)
    (hcomments : ∀ i, (requests i).isComment = true) : Threaded (after d requests ms) := by
  have hlegal : (threads false requests).protocol.Legal (init d requests) ms := by
    refine along_of_forall (fun w m => ?_) _ ms
    exact threads_stepOk fun _ _ _ hs => nomatch hs
  exact (threads_after false h ht (fun hs => nomatch hs) hcomments hlegal).1

/-- the recursion over the comments of an item ends in every state of every run -/
theorem tree_ends {d : Store} {ms : List Move} (h : Starts d) (ht : Threaded d.snap)
    (hcomments : ∀ i, (requests i).isComment = true) {l : Rows} (hl : Sees l (after d requests ms)) (n : ℕ) :
    ∃ bound forest, ∀ fuel, bound ≤ fuel → itemCommentTree l n fuel = some forest := by
  rcases hitem : requireContentItem l n
  · exact ⟨0, [], fun fuel _ => by simp [itemCommentTree, listAllComments, hitem]⟩
  · obtain ⟨bound, forest, hends, -⟩ := itemCommentTree_ends hl (threaded_after h ht hcomments) hitem
    exact ⟨bound, forest, hends⟩

/-- a deletion that commits finds all replies to the comment deleted -/
def deletesLeaf (requests : ℕ → Request) (w : World (Stmt Row Index Fx) Store Exn Unit) (m : Move) : Bool :=
  match m with
  | .crash _ => true
  | .run i =>
    match requests i with
    | .deleteComment _ k => !commits w m || (w.st.committed comments).all fun q => q.2.parentId != some k || q.2.deleted
    | _ => true

theorem stepOk_of_deletesLeaf (w : World (Stmt Row Index Fx) Store Exn Unit) (m : Move)
    (h : deletesLeaf requests w m = true) : (threads strict requests).protocol.stepOk w m := by
  refine threads_stepOk fun i hi hc _ => ?_
  subst hi
  unfold okThread
  split
  · next n k hreq =>
    simp only [deletesLeaf, hreq, hc, Bool.not_true, Bool.false_or, List.all_eq_true] at h
    intro m c hcom hparent
    have hq := h (m, c) (w.st.mem_committed.2 hcom)
    simpa [hparent] using hq
  · trivial

theorem parentsLive {l : Rows} (hl : Sees l σ) (ht : Threaded σ) (hr : RepliesLive σ) : ParentsLive l n := by
  intro q hq hlive p hp
  obtain ⟨hn, hlive⟩ := liveIn_iff.1 hlive
  have hq' := (hl.1 comments q.1 q.2).1 hq
  obtain ⟨-, c, hc, hi⟩ := ht q.1 q.2 p hq' hp
  obtain ⟨c', hc', hlive'⟩ := hr q.1 q.2 p hq' hlive hp
  obtain rfl : c = c' := Option.some.inj (hc.symm.trans hc')
  exact ⟨c, (hl.1 comments p c).2 hc, liveIn_iff.2 ⟨hi.trans hn, hlive'⟩⟩

/-- **The tree is complete** in every state of every run in which every deletion that commits finds the comment not deleted
and all replies to it deleted. -/
theorem tree_complete (d : Store) (requests : ℕ → Request) (ms : List Move) (h : Starts d) (ht : Threaded d.snap)
    (hr : RepliesLive d.snap) (hcomments : ∀ i, (requests i).isComment = true)
    (hok : Along (fun w m => deletesOnce requests w m = true ∧ deletesLeaf requests w m = true) (init d requests) ms)
    (l : Rows) (hl : Sees l (after d requests ms)) (n : ℕ) (hitem : requireContentItem l n = true) : TreeShows l n := by
  have hinv := inv_after h (hok.mono fun w m hm => stepOk_of_deletesOnce w m hm.1)
  obtain ⟨hthreaded, hlive⟩ := threads_after true h ht (fun _ => hr) hcomments
    (hok.mono fun w m hm => stepOk_of_deletesLeaf w m hm.2)
  exact (treeShows_iff hl hinv.floors hthreaded hinv.inStep hitem).2 (parentsLive hl hthreaded (hlive rfl))

/-! ## Runs on a store of new items -/

theorem com_newItems (m : ℕ) : (newItems n).snap.com comments m = none := rfl

theorem threaded_newItems : Threaded (newItems n).snap := fun m c _ hc => by simp [com_newItems] at hc

theorem repliesLive_newItems : RepliesLive (newItems n).snap := fun m c _ hc => by simp [com_newItems] at hc

/-- the rows that a statement sees between two moves -/
def rowsAfter (d : Store) (requests : ℕ → Request) (ms : List Move) : Rows := (run (init d requests) ms).st.committed

theorem sees_rowsAfter (d : Store) (requests : ℕ → Request) (ms : List Move) :
    Sees (rowsAfter d requests ms) (after d requests ms) :=
  ⟨fun _ _ _ => Db.mem_committed _, fun t => Db.committed_pairwise _ t⟩

/-- a comment, a reply, a reply to the reply and another reply to the comment; a deletion of each reply to it; a deeper reply -/
def treeRequests : ℕ → Request
  | 0 => .createComment 0 1 none
  | 1 => .createComment 0 2 (some 0)
  | 2 => .createComment 0 1 (some 1)
  | 3 => .createComment 0 2 (some 0)
  | 4 => .deleteComment 0 1
  | 5 => .deleteComment 0 3
  | _ => .createComment 0 2 (some 2)

theorem treeRequests_isComment (i : ℕ) : (treeRequests i).isComment = true := by
  rcases i with _ | _ | _ | _ | _ | _ | i <;> rfl

/-- three comments in a row, and the deletion of the one in the middle -/
def orphaned : List Move := moves 0 8 ++ moves 1 9 ++ moves 2 9 ++ moves 4 7

theorem tree_ends_demo : ∃ bound forest, ∀ fuel, bound ≤ fuel →
    itemCommentTree (rowsAfter (newItems 1) treeRequests orphaned) 0 fuel = some forest :=
  tree_ends (starts_newItems 1) threaded_newItems treeRequests_isComment (sees_rowsAfter (newItems 1) treeRequests orphaned) 0

/-- the last comment is counted and listed, and it is in no tree -/
theorem orphan_vanishes : Starts (newItems 1) ∧ (∀ i, (treeRequests i).isComment = true) ∧
    listCommentsTotal (rowsAfter (newItems 1) treeRequests orphaned) 0 = some 2 ∧
    (itemCommentTree (rowsAfter (newItems 1) treeRequests orphaned) 0 9).map labels =
      some [(0, { contentId := 0, userId := 1, floorNumber := 1 })] ∧
    ¬ TreeShows (rowsAfter (newItems 1) treeRequests orphaned) 0 := by
  refine ⟨starts_newItems 1, treeRequests_isComment, by decide, by decide, fun hshows => ?_⟩
  have hl := sees_rowsAfter (newItems 1) treeRequests orphaned
  have hok : Along (fun w m => deletesOnce treeRequests w m = true) (init (newItems 1) treeRequests) orphaned := by decide
  have hinv := inv_after (starts_newItems 1) (hok.mono stepOk_of_deletesOnce)
  have ht : Threaded (after (newItems 1) treeRequests orphaned) :=
    threaded_after (starts_newItems 1) threaded_newItems treeRequests_isComment
  have hparents := (treeShows_iff hl hinv.floors ht hinv.inStep (by decide)).1 hshows
  have hmem : (2, { contentId := 0, userId := 1, floorNumber := 3, parentId := some 1 }) ∈
      rowsAfter (newItems 1) treeRequests orphaned comments := by decide
  obtain ⟨c, hc, hlive⟩ := hparents _ hmem (by decide) 1 rfl
  have hdeleted : ((after (newItems 1) treeRequests orphaned).com comments 1).all (·.deleted) = true := by decide
  rw [(hl.1 comments 1 c).1 hc, Option.all_some, (liveIn_iff.1 hlive).2] at hdeleted
  cases hdeleted

/-- the last reply to the comment is deleted around the creation of a deeper one -/
def pruned : List Move := moves 0 8 ++ moves 1 9 ++ moves 2 9 ++ moves 3 9 ++ moves 5 2 ++ moves 6 9 ++ moves 5 5

theorem tree_complete_demo :
    ((itemCommentTree (rowsAfter (newItems 1) treeRequests pruned) 0 9).map labels).map (List.map fun q => q.1) =
        some [0, 1, 2, 4] ∧ TreeShows (rowsAfter (newItems 1) treeRequests pruned) 0 :=
  ⟨by decide, tree_complete (newItems 1) treeRequests pruned (starts_newItems 1) threaded_newItems repliesLive_newItems
    treeRequests_isComment (by decide) _ (sees_rowsAfter _ _ _) 0 (by decide)⟩

end LkmService.Counters
