/-
Stored counters equal their detail rows in every state of every run.

The one way out is a comment that is deleted twice: `delete_comment` reads the comment without a lock, its UPDATE has no
condition on `deleted_at`, and the counter goes down once for each of two overlapping deletions (`deleted_twice`).
Reconciliation reads counters and details in one statement, so it never finds them apart and leaves them as they are,
whatever commits between its statements.
-/
import LkmService.Counters.Service

namespace LkmService.Counters

open Session Sql Sql.Discipline Tbl

variable {requests : ℕ → Request}

/-! ## The start of a run -/

/-- counters and details agree, and no transaction is open -/
structure Starts (d : Store) : Prop where
  inv : Inv d.snap
  own : ∀ i, d.own i = {}

/-- the committed state after a schedule -/
def after (d : Store) (requests : ℕ → Request) (ms : List Move) : State := (run (init d requests) ms).st.snap

theorem safe_init {d : Store} (h : Starts d) : (discipline requests).protocol.Safe (init d requests) :=
  safe_start h.inv (fun _ => trivial) h.own fun _ => request_safe

theorem inv_after {d : Store} {ms : List Move} (h : Starts d)
    (hl : (discipline requests).protocol.Legal (init d requests) ms) : Inv (after d requests ms) :=
  ((discipline requests).protocol.run_inv (safe_init h) hl).1

/-- the move of a session that commits -/
def commits (w : World (Stmt Row Index Fx) Store Exn Unit) : Move → Bool
  | .run i =>
    match w.prog i with
    | some (.op (.sql c) _) => c.isCommit
    | _ => false
  | .crash _ => false

/-- what the conditions on a run have to say: of the commits only -/
theorem stepOk_of_commits {w : World (Stmt Row Index Fx) Store Exn Unit} {m : Move}
    (h : ∀ i, m = .run i → commits w m = true → okCommit requests i (w.st.own i) w.st.snap) :
    (discipline requests).protocol.stepOk w m := by
  refine Protocol.stepOk_of _ (fun _ _ _ _ => trivial) ?_
  rintro β i (c | x) k rfl hp
  · exact fun hc => h i rfl (by simp only [commits, hp, hc])
  · cases x

/-! ## Counters and details -/

/-- a deletion that commits finds its comment not deleted, or its item's counter at 0 -/
def deletesOnce (requests : ℕ → Request) (w : World (Stmt Row Index Fx) Store Exn Unit) (m : Move) : Bool :=
  match m with
  | .crash _ => true
  | .run i =>
    match requests i with
    | .deleteComment n k => !commits w m || (w.st.cell comments k).committed.all (!·.deleted) ||
        (w.st.cell items n).committed.all (·.commentCount == 0)
    | _ => true

theorem stepOk_of_deletesOnce (w : World (Stmt Row Index Fx) Store Exn Unit) (m : Move)
    (h : deletesOnce requests w m = true) : (discipline requests).protocol.stepOk w m := by
  refine stepOk_of_commits fun i hi hc => ?_
  subst hi
  unfold okCommit
  split
  · next n k hreq =>
    simp only [deletesOnce, hreq, hc, Bool.not_true, Bool.false_or, Bool.or_eq_true, Option.all_eq_true,
      Bool.not_eq_true', beq_iff_eq] at h
    exact Or.inl h
  · trivial

/-- **Counters equal details.** In every run in which no deletion commits on a comment that has been deleted already:
each item's counters are the numbers of its likes, its favourites and its comments that are not deleted, each comment's
counter is the number of its likes, and the floors of an item's comments increase in the order of their creation. -/
theorem counters_in_step (d : Store) (requests : ℕ → Request) (ms : List Move) (h : Starts d)
    (hl : Along (fun w m => deletesOnce requests w m = true) (init d requests) ms) :
    InStep (after d requests ms) ∧ FloorsIncrease (after d requests ms) := by
  have hinv := inv_after h (hl.mono stepOk_of_deletesOnce)
  exact ⟨hinv.inStep, hinv.floors⟩

/-! ## Reconciliation beside the other sessions -/

instance (d : Store) : Decidable (InStep d.snap) :=
  decidable_of_iff (d.snap.Counts items likes (·.likeCount) (fun n r => r.contentId == n) ∧
    d.snap.Counts items comments (·.commentCount) (fun n c => c.contentId == n && !c.deleted) ∧
    d.snap.Counts items favorites (·.bookmarkCount) (fun n r => r.contentId == n) ∧
    d.snap.Counts comments commentLikes (·.likeCount) fun m r => r.commentId == m)
    ⟨fun ⟨hl, hc, hf, hcl⟩ => ⟨hl, hc, hf, hcl⟩, fun h => ⟨h.like, h.comment, h.favorite, h.commentLike⟩⟩

instance (d : Store) (requests : ℕ → Request) (ms : List Move) : Decidable (InStep (after d requests ms)) :=
  inferInstanceAs (Decidable (InStep (run (init d requests) ms).st.snap))

def Request.isReconcile : Request → Bool
  | .reconcileCounts _ _ => true
  | _ => false

/-- a transaction other than a reconciliation keeps counters and details in step when it commits -/
def keepsInStep (requests : ℕ → Request) (w : World (Stmt Row Index Fx) Store Exn Unit) (m : Move) : Bool :=
  match m with
  | .crash _ => true
  | .run i => (requests i).isReconcile || !commits w m || decide (InStep w.st.snap → InStep (step w m).st.snap)

/-- what a commit commits -/
theorem step_commits {w : World (Stmt Row Index Fx) Store Exn Unit} {i : ℕ} (h : commits w (.run i) = true) :
    (step w (.run i)).st.snap = w.st.snap.merge (w.st.own i) := by
  rw [← Db.snap_finish_true]
  rcases hp : w.prog i with _ | (r | ⟨⟨c⟩ | ⟨x⟩, k⟩)
  · simp [commits, hp] at h
  · simp [commits, hp] at h
  · simp only [commits, hp] at h
    cases c with
    | commit => rw [step_op hp (b := ()) (s := w.st.finish i true) rfl]
    | _ => simp [Cmd.isCommit] at h
  · cases x

theorem stepOk_of_keepsInStep (w : World (Stmt Row Index Fx) Store Exn Unit) (m : Move)
    (hinv : (discipline requests).protocol.inv w.st) (h : keepsInStep requests w m = true) :
    (discipline requests).protocol.stepOk w m := by
  refine stepOk_of_commits fun i hi hc => ?_
  subst hi
  unfold okCommit
  split
  · next n k hreq =>
    simp only [keepsInStep, hreq, Request.isReconcile, hc, Bool.not_true, Bool.false_or, decide_eq_true_eq] at h
    rw [← step_commits hc]
    exact Or.inr (h hinv.1.inStep)
  · trivial

/-- **Reconciliation is safe.** Beside any transactions on likes, favourites and comments that keep counters and details
in step when they commit, a run of `reconcile_counts` leaves every counter in step, in every interleaving and after
every move. -/
theorem reconcile_safe (d : Store) (requests : ℕ → Request) (ms : List Move) (h : Starts d)
    (hk : Along (fun w m => keepsInStep requests w m = true) (init d requests) ms) : InStep (after d requests ms) :=
  (inv_after h ((discipline requests).protocol.legal_of_along stepOk_of_keepsInStep (safe_init h) hk)).inStep

/-! ## Runs on a store of new items -/

/-- `k` items without likes, favourites and comments -/
def newItems (k : ℕ) : Store where
  tab
    | .items => { cell := fun n => if n < k then { committed := some {} } else {}
                  next := k
                  fresh := fun n hn => if_neg (not_lt.2 hn) }
    | .likes => {}
    | .favorites => {}
    | .comments => {}
    | .commentLikes => {}
    | .outbox => {}
  ext := ()

theorem starts_newItems (k : ℕ) : Starts (newItems k) := by
  have hnone : ∀ t : Tbl, t ≠ items → ∀ n, (newItems k).snap.com t n = none := by
    intro t ht n
    cases t with
    | items => exact absurd rfl ht
    | _ => rfl
  have hzero : ∀ (t : Tbl), t ≠ items → ∀ p : Row t → Bool, ((newItems k).snap.matching t p).ncard = 0 := by
    intro t ht p
    have hempty : (newItems k).snap.matching t p = ∅ :=
      Set.eq_empty_of_forall_notMem fun n hn => by simp [Snap.matching, hnone t ht n] at hn
    rw [hempty, Set.ncard_empty]
  have hitem : ∀ n r, (newItems k).snap.com items n = some r → r = {} := by
    intro n r hr
    simp only [newItems, Db.snap, Db.cell] at hr
    split_ifs at hr
    simpa using hr.symm
  refine ⟨⟨⟨fun n r hr => ?_, fun n r hr => ?_, fun n r hr => ?_, fun n r hr => ?_⟩, fun m m' c c' hc => ?_,
    fun m m' r r' hr => ?_, fun m r hr => ?_⟩, fun i => Own.ext (funext fun t => funext fun n => ?_) (funext fun key => ?_)⟩
  · rw [hzero likes (by decide), hitem n r hr]
  · rw [hzero comments (by decide), hitem n r hr]
  · rw [hzero favorites (by decide), hitem n r hr]
  · rw [hnone comments (by decide)] at hr
    simp at hr
  · rw [hnone comments (by decide)] at hc
    simp at hc
  · rw [hnone favorites (by decide)] at hr
    simp at hr
  · rw [hnone commentLikes (by decide)] at hr
    simp at hr
  · cases t with
    | items =>
      simp only [Db.own, newItems, Db.cell]
      split_ifs <;> rfl
    | _ => rfl
  · simp [Db.own, newItems]

/-- two comments, and two deletions of the first; a like, a favourite and a reconciliation -/
def demoRequests : ℕ → Request
  | 0 => .createComment 0 1 none
  | 1 => .createComment 0 2 (some 0)
  | 2 => .deleteComment 0 0
  | 3 => .deleteComment 0 0
  | 4 => .likeItem 0 1
  | 5 => .addFavorite 1 0
  | 6 => .likeComment 0 1 3
  | _ => .reconcileCounts { uuid := fun n => n + 1, now := 9 } 2

/-- the moves of one session -/
def moves (i k : ℕ) : List Move := List.replicate k (.run i)

/-- both deletions read the comment before either commits: two comments less one are counted as none -/
theorem deleted_twice : Starts (newItems 1) ∧
    ¬ InStep (after (newItems 1) demoRequests (moves 0 8 ++ moves 1 9 ++ moves 3 1 ++ moves 2 6 ++ moves 3 6)) :=
  ⟨starts_newItems 1, by decide⟩

/-- a like and a deletion overlap, and a favourite and a like of a comment follow -/
theorem counters_in_step_demo :
    ((after (newItems 1) demoRequests (moves 0 8 ++ moves 1 9 ++ moves 2 1 ++ moves 4 3 ++ moves 2 6 ++ moves 4 4 ++
        moves 2 6 ++ moves 5 7 ++ moves 6 9)).com items 0 =
      some { likeCount := 1, commentCount := 1, bookmarkCount := 1 }) ∧
    InStep (after (newItems 1) demoRequests (moves 0 8 ++ moves 1 9 ++ moves 2 1 ++ moves 4 3 ++ moves 2 6 ++
        moves 4 4 ++ moves 2 6 ++ moves 5 7 ++ moves 6 9)) ∧
      FloorsIncrease (after (newItems 1) demoRequests (moves 0 8 ++ moves 1 9 ++ moves 2 1 ++ moves 4 3 ++ moves 2 6 ++
        moves 4 4 ++ moves 2 6 ++ moves 5 7 ++ moves 6 9)) :=
  ⟨by decide, counters_in_step (newItems 1) demoRequests _ (starts_newItems 1) (by decide)⟩

/-- a like, a favourite and a deletion commit between the statements of a reconciliation -/
theorem reconcile_safe_demo :
    ((after (newItems 1) demoRequests (moves 0 8 ++ moves 1 9 ++ moves 7 1 ++ moves 4 7 ++ moves 2 6 ++ moves 7 2 ++
        moves 5 7 ++ moves 7 6)).com items 0 =
      some { likeCount := 1, commentCount := 1, bookmarkCount := 1, countsReconciledAt := some 9 }) ∧
    InStep (after (newItems 1) demoRequests (moves 0 8 ++ moves 1 9 ++ moves 7 1 ++ moves 4 7 ++ moves 2 6 ++ moves 7 2 ++
        moves 5 7 ++ moves 7 6)) :=
  ⟨by decide, reconcile_safe (newItems 1) demoRequests _ (starts_newItems 1) (by decide)⟩

end LkmService.Counters
