/-
Likes and comments of an article are counted right in every state of every run, and a deletion takes exactly what is
left of the reply tree.

`Exactly m seen before after`: one commit marks the members of the subtree of `m` that are not deleted yet, changes no
other comment, and lowers the article's counter by their number. The subtree is the one that was committed when the
UPDATE took its snapshot: of two deletions at once each counts what the other has not taken, and a reply that is
committed after the snapshot is left, and counted. Over a run, a thread changes by new replies only (`threads_stay`).
-/
import LkmService.Replies.Service

namespace LkmService.Replies

open Session Sql Sql.Discipline Tbl

variable {requests : ℕ → Request} {d : Store} {ms : List Move} {σ τ : State}

/-! ## The start of a run -/

/-- counters and trees are as they should be, and no transaction is open -/
structure Starts (d : Store) : Prop where
  inv : Inv d.snap
  own : ∀ i, d.own i = {}

/-- the committed state after a schedule -/
def after (d : Store) (requests : ℕ → Request) (ms : List Move) : State := (run (init d requests) ms).st.snap

theorem safe_init (h : Starts d) : discipline.protocol.Safe (init d requests) :=
  safe_start h.inv (fun _ => trivial) h.own fun _ => wp_mono (prog_spec _) fun _ _ _ _ => trivial

theorem legal (ms : List Move) : discipline.protocol.Legal (init d requests) ms :=
  legal_of_ok (fun _ _ _ _ => trivial) (fun _ _ _ => trivial) _ ms

theorem inStep_after (h : Starts d) : InStep (after d requests ms) :=
  (discipline.protocol.run_inv (safe_init h) (legal ms)).1.inStep

/-- the recursive query of a deletion always ends -/
theorem never_unfinished (h : Starts d) (i : ℕ) : (run (init d requests) ms).answer i ≠ some (.error .unfinished) := by
  intro hanswer
  have hwp : discipline.wp i (requests i).prog (fun res _ _ => res ≠ .error .unfinished) (d.own i) d.snap :=
    (h.own i).symm ▸ prog_spec (requests i)
  exact discipline.protocol.run_result i (Q := fun res _ => res ≠ Except.error Exn.unfinished) (fun _ _ _ hr _ => hr)
    (safe_init h) (legal ms) rfl (hwp d rfl rfl) hanswer rfl

/-! ## Deletions -/

/-- what the commit of a deletion of the comment `m` does when its UPDATE has seen `seen` -/
structure Exactly (m : ℕ) (seen before after : State) : Prop where
  deleted : live before \ live after = subtree seen m ∩ live before
  kept : ∀ k, k ∉ live before \ live after → after.com articleComments k = before.com articleComments k
  counted : ∃ c, before.com articleComments m = some c ∧ ∀ n r, before.com articles n = some r →
    after.com articles n =
      some { r with comments := if n = c.articleId then r.comments - (live before \ live after).ncard else r.comments }

/-- the comments that are marked are those that are no longer live -/
theorem Marks.live {o : Held} {σ : State} {n : ℕ} (h : Marks o σ n) : live σ \ live (σ.merge o) = marked o := by
  ext k
  constructor
  · rintro ⟨⟨c, hc, hlive⟩, hgone⟩ hnone
    exact hgone ⟨c, (Snap.merge_of_none hnone σ).trans hc, hlive⟩
  · intro hk
    obtain ⟨v, hv⟩ := Option.ne_none_iff_exists'.1 hk
    obtain ⟨c, hc, hlive, -, rfl⟩ := h k v hv
    refine ⟨⟨c, hc, hlive⟩, ?_⟩
    rintro ⟨c', hc', hlive'⟩
    rw [Snap.merge_of_some hv, Option.some.injEq] at hc'
    simp [← hc'] at hlive'

theorem Deletes.exactly {υ σ : State} {o : Held} {m n : ℕ} (h : Deletes υ m n o σ) :
    Exactly m υ σ (σ.merge o) := by
  have hmarked := h.marks.live
  refine ⟨?_, fun k hk => ?_, ?_⟩
  · ext k
    refine ⟨fun hk => ⟨?_, hk.1⟩, fun hk => ⟨hk.2, ?_⟩⟩
    · rw [hmarked] at hk
      exact h.within hk
    · rintro ⟨c, hc, hlive⟩
      obtain ⟨c', hc', hdel⟩ := h.all k hk.1
      have hview : (σ.merge o).com articleComments k = some c' := hc'
      rw [hc, Option.some.injEq] at hview
      rw [hview, hdel] at hlive
      cases hlive
  · rw [hmarked] at hk
    exact Snap.merge_of_none (not_not.1 hk) σ
  · obtain ⟨c, hc, hn⟩ := h.root
    obtain ⟨r, hjust, hpin⟩ := h.article
    refine ⟨c, hc, fun n' r' hr' => ?_⟩
    rw [hjust.com, hmarked, hn]
    split_ifs with heq
    · subst heq
      rw [hpin.com, Option.some.injEq] at hr'
      rw [← hr', Article.bump, sub_eq_add_neg]
    · exact hr'

/-- **A deletion.** When it commits, its UPDATE has taken its snapshot at one of the moves before. -/
theorem exactly_of_commit (h : Starts d) {i m u : ℕ} {asAdmin : Bool}
    (hreq : requests i = .deleteArticleComment m u asAdmin) (hc : committing (run (init d requests) ms) i = true) :
    ∃ pre post, ms = pre ++ .run i :: post ∧ snapshotting (run (init d requests) pre) i = true ∧
      Exactly m (after d requests pre) (after d requests ms) (after d requests (ms ++ [.run i])) := by
  have hprog : (init d requests).prog i = some ((requests i).body.andThen endTransaction) := by
    rw [← transaction_eq]
    rfl
  have hwp : discipline.wpAt i (requests i).body (Removes m) (d.own i) d.snap := by
    rw [hreq, h.own i]
    exact deletion_spec
  have hplain : Plain (requests i).body := by
    rw [hreq]
    exact plain_deletion
  obtain ⟨pre, post, a, hms, hat, ⟨n, hdeletes⟩, hcommit⟩ := commits_at (safe_init h) (legal ms)
    (fun υ => removes_stable) hprog hplain (hwp d rfl rfl) hc
  refine ⟨pre, post, hms, hat, ?_⟩
  rw [after, after, after, run_snoc, hcommit]
  exact hdeletes.exactly

/-- **Counters equal details.** In every run of likes, new comments and deletions: an article's likes are the number of
its like rows and its comments the number of its comments that are not deleted, a deletion that commits takes exactly
what is left of the subtree, and none is left unfinished. -/
theorem counters_equal_details (d : Store) (requests : ℕ → Request) (h : Starts d) :
    (∀ ms, InStep (after d requests ms)) ∧
    (∀ ms i m u asAdmin, requests i = .deleteArticleComment m u asAdmin →
      committing (run (init d requests) ms) i = true →
      ∃ pre post, ms = pre ++ .run i :: post ∧ snapshotting (run (init d requests) pre) i = true ∧
        Exactly m (after d requests pre) (after d requests ms) (after d requests (ms ++ [.run i]))) ∧
    ∀ ms i, (run (init d requests) ms).answer i ≠ some (.error .unfinished) :=
  ⟨fun _ => inStep_after h, fun _ _ _ _ _ => exactly_of_commit h, fun _ => never_unfinished h⟩

/-! ## Threads -/

/-- what becomes of the comments between two moments: none goes, none moves, and no deletion is undone -/
structure ThreadsStay (σ τ : State) : Prop where
  comments : Grows σ τ
  /-- under a comment there is what was there, and new replies -/
  subtrees : ∀ m, σ.com articleComments m ≠ none → subtree τ m ∩ {k | σ.com articleComments k ≠ none} = subtree σ m

theorem Grows.threadsStay (h : Grows σ τ) (hr : Rooted σ) : ThreadsStay σ τ := by
  have hforward : ∀ {a b}, RepliesTo σ a b → RepliesTo τ a b := by
    rintro a b ⟨c, hc, hparent⟩
    obtain ⟨c', hc', -, hp, -⟩ := h.comment b c hc
    exact ⟨c', hc', hp.trans hparent⟩
  -- the comment that an old one replies to is as old
  have hback : ∀ {a b}, RepliesTo τ a b → σ.com articleComments b ≠ none →
      σ.com articleComments a ≠ none ∧ RepliesTo σ a b := by
    rintro a b ⟨c', hc', hparent⟩ hold
    obtain ⟨c, hc⟩ := Option.ne_none_iff_exists'.1 hold
    obtain ⟨c₁, hc₁, -, hp, -⟩ := h.comment b c hc
    obtain rfl := Option.some.inj (hc'.symm.trans hc₁)
    obtain ⟨-, a', ha', -⟩ := hr b c a hc (hp.symm.trans hparent)
    exact ⟨by simp [ha'], c, hc, hp.symm.trans hparent⟩
  refine ⟨h, fun m hm => Set.ext fun k => ⟨?_, ?_⟩⟩
  · rintro ⟨⟨-, hreach⟩, hk⟩
    refine ⟨hm, ?_⟩
    induction hreach with
    | refl => exact .refl
    | tail _ hstep ih =>
      obtain ⟨hold, hreply⟩ := hback hstep hk
      exact (ih hold).tail hreply
  · rintro ⟨-, hreach⟩
    obtain ⟨c, hc⟩ := Option.ne_none_iff_exists'.1 hm
    obtain ⟨c', hc', -⟩ := h.comment m c hc
    refine ⟨⟨by simp [hc'], hreach.lift id fun _ _ => hforward⟩, ?_⟩
    rcases hreach.cases_tail with rfl | ⟨b, -, c₁, hc₁, -⟩
    · exact hm
    · simp [hc₁]

/-- **Threads stay.** From any moment of a run to any later one no comment is removed or moved to another article or under
another comment, a deleted one stays deleted, and a thread changes by new replies only. -/
theorem threads_stay (d : Store) (requests : ℕ → Request) (pre post : List Move) (h : Starts d) :
    ThreadsStay (after d requests pre) (after d requests (pre ++ post)) := by
  obtain ⟨i, -, -, hgrows⟩ := discipline.protocol.run_later pre post (safe_init h) (legal _)
  have hgrows : Grows (after d requests pre) (after d requests (pre ++ post)) := hgrows
  exact hgrows.threadsStay (discipline.protocol.run_inv (safe_init h) (legal pre)).1.rooted

/-! ## A run on new articles -/

/-- articles without likes and comments -/
def newArticles (slugs : List String) : Store where
  tab
    | .articles => .ofList (slugs.map fun slug => { slug := slug })
    | .articleLikes => {}
    | .articleComments => {}
    | .outbox => {}
  ext := ()

theorem starts_newArticles (slugs : List String) : Starts (newArticles slugs) := by
  have hzero : ∀ (t : Tbl), t ≠ articles → ∀ p : Row t → Bool, ((newArticles slugs).snap.matching t p).ncard = 0 := by
    intro t ht p
    have hempty : (newArticles slugs).snap.matching t p = ∅ := by
      refine Set.eq_empty_of_forall_notMem fun n hn => ?_
      cases t with
      | articles => exact ht rfl
      | _ => cases hn
    rw [hempty, Set.ncard_empty]
  have hnew : ∀ n r, (newArticles slugs).snap.com articles n = some r → r.likes = 0 ∧ r.comments = 0 := by
    intro n r hr
    change (slugs.map fun slug => ({ slug := slug } : Article))[n]? = some r at hr
    obtain ⟨slug, -, rfl⟩ := List.mem_map.1 (List.mem_of_getElem? hr)
    exact ⟨rfl, rfl⟩
  refine ⟨⟨⟨fun n r hr => ?_, fun n r hr => ?_⟩, fun k c p hc => ?_, fun k c hc => ?_⟩, fun i => ?_⟩
  · rw [hzero articleLikes (by decide)]
    exact (hnew n r hr).1
  · rw [hzero articleComments (by decide)]
    exact (hnew n r hr).2
  · cases hc
  · cases hc
  · refine Own.ext (funext fun t => funext fun n => ?_) (funext fun key => ?_)
    · cases t with
      | _ => rfl
    · simp [Db.own, newArticles]

/-- a comment with a reply and a reply to that, a like, deletions of the comment and of its reply, and a late reply -/
def demoRequests : ℕ → Request
  | 0 => .createArticleComment "a" 1 "first" none
  | 1 => .createArticleComment "a" 2 "second" (some 0)
  | 2 => .createArticleComment "a" 1 "third" (some 1)
  | 3 => .toggleArticleLike "a" 3
  | 4 => .deleteArticleComment 0 1 false
  | 5 => .deleteArticleComment 1 2 false
  | _ => .createArticleComment "a" 3 "late" (some 0)

/-- the deletion of the reply commits while that of the comment waits, and a reply comes after both have looked -/
def demoMoves : List Move :=
  moves 0 4 ++ moves 1 5 ++ moves 2 5 ++ moves 3 7 ++ moves 5 3 ++ moves 4 4 ++ moves 6 5 ++ moves 5 3 ++ moves 4 3

theorem counters_equal_details_demo :
    (after (newArticles ["a"]) demoRequests (demoMoves ++ moves 4 1)).com articles 0 =
      some { slug := "a", likes := 1, comments := 1 } ∧
    InStep (after (newArticles ["a"]) demoRequests (demoMoves ++ moves 4 1)) ∧
    ∃ pre post, demoMoves = pre ++ .run 4 :: post ∧
      snapshotting (run (init (newArticles ["a"]) demoRequests) pre) 4 = true ∧
      Exactly 0 (after (newArticles ["a"]) demoRequests pre) (after (newArticles ["a"]) demoRequests demoMoves)
        (after (newArticles ["a"]) demoRequests (demoMoves ++ [.run 4])) := by
  obtain ⟨hstep, hdeletes, -⟩ := counters_equal_details (newArticles ["a"]) demoRequests (starts_newArticles ["a"])
  exact ⟨by decide, hstep _, hdeletes demoMoves 4 0 1 false rfl (by decide)⟩

theorem threads_stay_demo : ThreadsStay (after (newArticles ["a"]) demoRequests demoMoves)
    (after (newArticles ["a"]) demoRequests (demoMoves ++ moves 4 1)) :=
  threads_stay (newArticles ["a"]) demoRequests demoMoves (moves 4 1) (starts_newArticles ["a"])

end LkmService.Replies
