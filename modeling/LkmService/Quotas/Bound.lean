/-
The quotas bound the postings, in every run in which each count still stands when its posting is committed.

A count sees neither what other sessions have not committed yet nor what has been deleted. Four letters that are counted before any
of them is committed are all let in, and so is a letter for each one that is removed (`overrun`).

- `Stands`: what a posting has counted is all that its window holds when it is committed, deleted or not.
- `quotas_hold`: while every count stands, no window has more postings than its quota allows, those that have been deleted since
  included: three letters, bottles or wishes of an owner in any 60 seconds, and the limit of the board in discussions of an author
  on any day.
-/
import LkmService.Quotas.Model

namespace LkmService.Quotas

open Session Sql Sql.Discipline Tbl

abbrev State := Snap Row Unit

abbrev Held := Own Row Index

variable {limits : Limits} {requests : ℕ → Request} {i k n : ℕ} {o : Held} {σ τ : State} {kind : Kind} {p : Posting}
  {r : ContentItem} {q : Quota}

/-! ## The law -/

/-- the postings of an owner, deleted or not -/
def Posting.isOf (owner : String) (p : Posting) : Bool := decide (p.ownerId = owner)

/-- the discussions of an author in a board, deleted or not -/
def ContentItem.isOf (author board : ℕ) (r : ContentItem) : Bool :=
  decide (r.authorId = author) && decide (r.boardId = board) && decide (r.contentType = .discussion)

/-- `_rate_limit` -/
def rateQuota : Quota := .sliding rateDefault minute

/-- no window has more postings than its quota allows; a limit of 0 is none -/
structure Inv (limits : Limits) (σ : State) : Prop where
  postings : ∀ kind owner, rateQuota.Kept (treehole kind) (Posting.isOf owner) Posting.createdAt σ
  discussions : ∀ author board, limits board ≠ 0 →
    (Quota.daily (limits board)).Kept items (ContentItem.isOf author board) ContentItem.createdAt σ

/-! ## The condition on a commit -/

/-- what a new posting has counted is all that there is -/
structure Stands (limits : Limits) (o : Held) (σ : State) : Prop where
  posting : ∀ kind k p, o.row (treehole kind) k = some (some p) → σ.com (treehole kind) k = none →
    p.counted = rateQuota.counted (treehole kind) (Posting.isOf p.ownerId) Posting.createdAt p.checkedAt σ
  item : ∀ k r n, o.row items k = some (some r) → σ.com items k = none → r.contentType = .discussion → r.counted = some n →
    n = (Quota.daily (limits r.boardId)).counted items (ContentItem.isOf r.authorId r.boardId) ContentItem.createdAt r.checkedAt σ

def discipline (limits : Limits) : Discipline Row Index (NoFx Unit) Unit where
  inv := Inv limits
  rely _ _ _ _ := True
  act _ _ _ := True
  ok _ x _ _ := nomatch x
  okCommit _ := Stands limits
  rely_refl _ _ _ := trivial
  rely_trans _ _ _ _ _ _ _ := trivial
  act_refl _ _ _ := trivial
  grow_inv _ _ _ h := ⟨h.postings, h.discussions⟩
  grow_act _ _ _ _ _ := trivial
  grow_rely _ _ _ _ _ _ := trivial

instance : Lockless (discipline limits) := ⟨fun _ _ _ => trivial⟩

/-! ## What a session writes -/

/-- a posting has been counted before it is written, and less than the limit has been found -/
inductive Wrote (limits : Limits) (o : Held) (σ : State) : Prop where
  | nothing (h : o = {})
  | posting (kind : Kind) (k : ℕ) (p : Posting) (ho : o = ({} : Held).put (treehole kind) k (some p))
      (hnone : σ.com (treehole kind) k = none) (hordered : p.checkedAt ≤ p.createdAt) (hcounted : p.counted < rateDefault)
  | item (k : ℕ) (r : ContentItem) (ho : o = ({} : Held).put items k (some r)) (hnone : σ.com items k = none)
      (hordered : r.checkedAt ≤ r.createdAt)
      (hcounted : r.contentType = .discussion → limits r.boardId ≠ 0 → ∃ n, r.counted = some n ∧ n < limits r.boardId)
  | removed (kind : Kind) (k : ℕ) (p : Posting) (ho : o = ({} : Held).put (treehole kind) k (some { p with deleted := true }))
      (hold : σ.com (treehole kind) k = some p)
  | deleted (k : ℕ) (r : ContentItem) (ho : o = ({} : Held).put items k (some { r with deleted := true }))
      (hold : σ.com items k = some r)

/-- a row that the session has written is committed by nobody else -/
theorem Wrote.later (h : Wrote limits o σ) (hl : (discipline limits).Later i o σ τ) : Wrote limits o τ := by
  have hcom : ∀ t k v, o = ({} : Held).put t k v → τ.com t k = σ.com t k := by
    intro t k v ho
    exact hl.com t k (by rw [ho]; simp)
  cases h with
  | nothing h => exact .nothing h
  | posting kind k p ho hnone hordered hcounted => exact .posting kind k p ho ((hcom _ _ _ ho).trans hnone) hordered hcounted
  | item k r ho hnone hordered hcounted => exact .item k r ho ((hcom _ _ _ ho).trans hnone) hordered hcounted
  | removed kind k p ho hold => exact .removed kind k p ho ((hcom _ _ _ ho).trans hold)
  | deleted k r ho hold => exact .deleted k r ho ((hcom _ _ _ ho).trans hold)

/-! ## What a commit keeps -/

theorem just_put {t : Tbl} {v : Option (Row t)} (ho : o = ({} : Held).put t k v) : o.Just t k v :=
  ho ▸ (Own.nothing_empty t).just k v

theorem nothing_put {t t' : Tbl} {v : Option (Row t)} (ho : o = ({} : Held).put t k v) (ht : t' ≠ t) : o.Nothing t' :=
  ho ▸ (Own.nothing_empty t').put ht k v

section Kept

variable {t : Tbl} {mine : Row t → Bool} {created : Row t → ℤ} {v : Option (Row t)}

theorem kept_other (h : q.Kept t mine created σ) (ho : o.Nothing t) : q.Kept t mine created (σ.merge o) :=
  h.same fun m w => by rw [ho.com]

/-- the row that is written counts for what it did before -/
theorem kept_row (h : q.Kept t mine created σ) (ho : o.Just t k v)
    (hv : ∀ w, v.any (fun r => mine r && q.within w (created r)) = (σ.com t k).any fun r => mine r && q.within w (created r)) :
    q.Kept t mine created (σ.merge o) := by
  refine h.same fun m w => ?_
  rw [ho.com]
  split_ifs with hm
  · rw [hm]
    exact hv w
  · rfl

end Kept

theorem Inv.posting (h : Inv limits σ) (hfresh : σ.Fresh o) (ho : o = ({} : Held).put (treehole kind) k (some p))
    (hnone : σ.com (treehole kind) k = none) (hordered : p.checkedAt ≤ p.createdAt) (hcounted : p.counted < rateDefault)
    (hstands : Stands limits o σ) : Inv limits (σ.merge o) := by
  have hjust : o.Just (treehole kind) k (some p) := just_put ho
  refine ⟨fun kind' owner => ?_, fun a b hlimit => kept_other (h.discussions a b hlimit) (nothing_put ho (by simp))⟩
  by_cases hkind : kind' = kind
  · subst hkind
    by_cases howner : p.ownerId = owner
    · subst howner
      have hcount := hstands.posting kind' k p hjust.row hnone
      exact (h.postings kind' _).create hfresh hnone hjust.com_self (fun m hm => hjust.com_ne hm) hordered (hcount ▸ hcounted)
    · exact kept_row (h.postings kind' owner) hjust fun w => by simp [Posting.isOf, howner, hnone]
  · exact kept_other (h.postings kind' owner) (nothing_put ho (by simpa using hkind))

theorem Inv.item (h : Inv limits σ) (hfresh : σ.Fresh o) (ho : o = ({} : Held).put items k (some r))
    (hnone : σ.com items k = none) (hordered : r.checkedAt ≤ r.createdAt)
    (hcounted : r.contentType = .discussion → limits r.boardId ≠ 0 → ∃ n, r.counted = some n ∧ n < limits r.boardId)
    (hstands : Stands limits o σ) : Inv limits (σ.merge o) := by
  have hjust : o.Just items k (some r) := just_put ho
  refine ⟨fun kind' owner => kept_other (h.postings kind' owner) (nothing_put ho (by simp)), fun a b hlimit => ?_⟩
  cases hmine : r.isOf a b with
  | false => exact kept_row (h.discussions a b hlimit) hjust fun w => by simp [hmine, hnone]
  | true =>
    simp only [ContentItem.isOf, Bool.and_eq_true, decide_eq_true_eq] at hmine
    obtain ⟨⟨rfl, rfl⟩, htype⟩ := hmine
    obtain ⟨n, hn, hlt⟩ := hcounted htype hlimit
    have hcount := hstands.item k r n hjust.row hnone htype hn
    exact (h.discussions _ _ hlimit).create hfresh hnone hjust.com_self (fun m hm => hjust.com_ne hm) hordered (hcount ▸ hlt)

theorem Inv.removed (h : Inv limits σ) (ho : o = ({} : Held).put (treehole kind) k (some { p with deleted := true }))
    (hold : σ.com (treehole kind) k = some p) : Inv limits (σ.merge o) := by
  refine ⟨fun kind' owner => ?_, fun a b hlimit => kept_other (h.discussions a b hlimit) (nothing_put ho (by simp))⟩
  by_cases hkind : kind' = kind
  · subst hkind
    exact kept_row (h.postings kind' owner) (just_put ho) fun w => by rw [hold]; rfl
  · exact kept_other (h.postings kind' owner) (nothing_put ho (by simpa using hkind))

theorem Inv.deleted (h : Inv limits σ) (ho : o = ({} : Held).put items k (some { r with deleted := true }))
    (hold : σ.com items k = some r) : Inv limits (σ.merge o) := by
  refine ⟨fun kind' owner => kept_other (h.postings kind' owner) (nothing_put ho (by simp)), fun a b hlimit => ?_⟩
  exact kept_row (h.discussions a b hlimit) (just_put ho) fun w => by rw [hold]; rfl

theorem Wrote.inv (h : Wrote limits o σ) (hinv : Inv limits σ) (hfresh : σ.Fresh o) (hstands : Stands limits o σ) :
    Inv limits (σ.merge o) := by
  cases h with
  | nothing h =>
    rw [h]
    exact hinv
  | posting kind k p ho hnone hordered hcounted => exact hinv.posting hfresh ho hnone hordered hcounted hstands
  | item k r ho hnone hordered hcounted => exact hinv.item hfresh ho hnone hordered hcounted hstands
  | removed kind k p ho hold => exact hinv.removed ho hold
  | deleted k r ho hold => exact hinv.deleted ho hold

/-! ## The operations -/

theorem rateLimit_spec {owner : String} {now : ℤ} {limit : ℕ} :
    (discipline limits).wp i (rateLimit kind owner now limit) (Returns fun n o' _ => o' = {} ∧ n < limit) {} σ := by
  refine wp_bind (wp_select fun τ _ l _ _ => ?_)
  change (discipline limits).wp i (if limit ≤ l.length then Prog.raise Exn.badRequest else pure l.length) _ _ _
  split_ifs with hlimit
  · exact wp_fail _
  · exact wp_return ⟨rfl, Nat.lt_of_not_le hlimit⟩

theorem add_spec {owner : String} {checkedAt createdAt : ℤ} (hordered : checkedAt ≤ createdAt) (hn : n < rateDefault) :
    (discipline limits).wp i (add kind owner checkedAt createdAt n) (Returns fun _ o' τ => Wrote limits o' τ) {} σ := by
  refine wp_bind (wp_insert fun τ hl => wp_return ?_)
  exact .posting kind _ _ rfl (hl.fresh (treehole kind) _ (Nat.le_refl _)).1 hordered hn

theorem createLetter_spec {body : LetterInput} {owner : String} {checkedAt now : ℤ} (hordered : checkedAt ≤ now) :
    (discipline limits).wp i (createLetter body owner checkedAt now) (Returns fun _ o' τ => Wrote limits o' τ) {} σ := by
  refine wp_seq rateLimit_spec fun n o τ ⟨ho, hn⟩ => ?_
  subst ho
  split_ifs
  · exact wp_fail _
  · exact wp_fail _
  · exact wp_fail _
  · exact add_spec hordered hn

/-- bottles and wishes -/
theorem createText_spec {text : Text} {owner : String} {checkedAt now : ℤ} (hordered : checkedAt ≤ now) :
    (discipline limits).wp i (do
      let counted ← rateLimit kind owner checkedAt rateDefault
      if Text.strip text = [] then Prog.raise .invalidInput else add kind owner checkedAt now counted)
      (Returns fun _ o' τ => Wrote limits o' τ) {} σ := by
  refine wp_seq rateLimit_spec fun n o τ ⟨ho, hn⟩ => ?_
  subst ho
  split_ifs
  · exact wp_fail _
  · exact add_spec hordered hn

theorem remove_spec {foreign : Exn} {owner : String} :
    (discipline limits).wp i (remove kind foreign n owner) (Returns fun _ o' τ => Wrote limits o' τ) {} σ := by
  refine wp_bind (wp_select fun τ _ l _ _ => ?_)
  rcases l with _ | ⟨⟨m, p⟩, l⟩
  · exact wp_fail _
  · dsimp only [List.head?_cons]
    split_ifs
    · refine wp_bind (wp_updateRow (fun _ _ _ => wp_return (.nothing rfl)) fun υ p' _ hv _ => wp_return ?_)
      exact .removed kind n p' rfl hv
    · exact wp_fail _

theorem deleteItem_spec :
    (discipline limits).wp i (deleteItem n) (Returns fun _ o' τ => Wrote limits o' τ) {} σ := by
  refine wp_bind (wp_select fun τ _ l _ _ => ?_)
  rcases l with _ | ⟨⟨m, p⟩, l⟩
  · exact wp_fail _
  · refine wp_bind (wp_updateRow (fun _ _ _ => wp_return (.nothing rfl)) fun υ r' _ hv _ => wp_return ?_)
    exact .deleted n r' rfl hv

theorem checkPostAllowed_spec {refused : Bool} {board user : ℕ} {now : ℤ} :
    (discipline limits).wp i (checkPostAllowed limits refused board user now)
      (Returns fun c o' _ => o' = {} ∧ (limits board ≠ 0 → ∃ n, c = some n ∧ n < limits board)) {} σ := by
  unfold checkPostAllowed
  split_ifs with hrefused hlimit
  · exact wp_fail _
  · exact wp_return ⟨rfl, fun hne => absurd hlimit hne⟩
  · refine wp_bind (wp_bind (wp_select fun τ _ l _ _ => wp_pure ?_))
    change (discipline limits).wp i
      (if limits board ≤ l.length then Prog.raise Exn.dailyPostLimitReached else pure (some l.length)) _ _ _
    split_ifs with hcount
    · exact wp_fail _
    · exact wp_return ⟨rfl, fun _ => ⟨_, rfl, Nat.lt_of_not_le hcount⟩⟩

theorem addItem_spec {f : ItemForm} {author : ℕ} {checkedAt createdAt : ℤ} {c : Option ℕ} (hordered : checkedAt ≤ createdAt)
    (hc : f.contentType = .discussion → limits f.board ≠ 0 → ∃ n, c = some n ∧ n < limits f.board) :
    (discipline limits).wp i (addItem f author checkedAt createdAt c) (Returns fun _ o' τ => Wrote limits o' τ) {} σ := by
  unfold addItem
  split_ifs
  · exact wp_fail _
  · refine wp_bind (wp_insert fun τ hl => wp_return ?_)
    exact .item _ _ rfl (hl.fresh items _ (Nat.le_refl _)).1 hordered hc

theorem createItem_spec {f : ItemForm} {author : ℕ} {checkedAt createdAt : ℤ} (hordered : checkedAt ≤ createdAt) :
    (discipline limits).wp i (createItem limits f author checkedAt createdAt) (Returns fun _ o' τ => Wrote limits o' τ) {} σ := by
  unfold createItem
  split_ifs with hcommunity
  · refine wp_seq checkPostAllowed_spec fun c o τ ⟨ho, hc⟩ => ?_
    subst ho
    exact addItem_spec hordered fun _ => hc
  · refine wp_bind (wp_pure (addItem_spec hordered fun htype => ?_))
    -- discussions are checked
    rw [htype] at hcommunity
    exact absurd rfl hcommunity

/-! ## Runs -/

theorem body_spec (r : Request) :
    (discipline limits).wp i (r.body limits) (Returns fun _ o' τ => Wrote limits o' τ) {} σ := by
  cases r with
  | createLetter body owner at_ => exact createLetter_spec at_.ordered
  | createBottle text owner at_ => exact createText_spec at_.ordered
  | createWish text owner at_ => exact createText_spec at_.ordered
  | removeLetter n owner => exact remove_spec
  | removeWish n owner => exact remove_spec
  | createItem f author at_ => exact createItem_spec at_.ordered
  | deleteItem n => exact deleteItem_spec

theorem request_spec (r : Request) : (discipline limits).wp i (r.prog limits) (fun _ _ _ => True) {} σ := by
  refine wp_mono (wp_transaction (body_spec r) fun _ o τ hwrote υ hl hok => ?_) fun _ _ _ _ => trivial
  exact ⟨(hwrote.later hl).inv hl.inv hl.fresh hok, trivial, fun _ _ _ _ => trivial⟩

/-- the committed state after a schedule -/
def after (limits : Limits) (d : Store) (requests : ℕ → Request) (ms : List Move) : State := (run (init limits d requests) ms).st.snap

/-- the quotas are kept, and no transaction is open -/
structure Starts (limits : Limits) (d : Store) : Prop where
  inv : Inv limits d.snap
  own : ∀ i, d.own i = {}

/-- a new posting of the session, in a table -/
def news (w : World (Stmt Row Index (NoFx Unit)) Store Exn Unit) (i : ℕ) (t : Tbl) : List (Row t) :=
  (List.range (w.st.tab t).next).filterMap fun k =>
    match (w.st.own i).row t k, (w.st.cell t k).committed with
    | some v, none => v
    | _, _ => none

/-- how many rows of a table a count at `now` takes in -/
def inSight (d : Store) (q : Quota) (t : Tbl) (mine : Row t → Bool) (created : Row t → ℤ) (now : ℤ) : ℕ :=
  (d.committed t).countP fun e => mine e.2 && q.counts now (created e.2)

theorem mem_news {w : World (Stmt Row Index (NoFx Unit)) Store Exn Unit} {t : Tbl} {v : Row t}
    (hrow : (w.st.own i).row t k = some (some v)) (hnone : w.st.snap.com t k = none) : v ∈ news w i t := by
  refine List.mem_filterMap.2 ⟨k, List.mem_range.2 (w.st.lt_of_own hrow), ?_⟩
  rw [hrow, show (w.st.cell t k).committed = none from hnone]

theorem inSight_eq (d : Store) (q : Quota) (t : Tbl) (mine : Row t → Bool) (created : Row t → ℤ) (now : ℤ) :
    inSight d q t mine created now = q.counted t mine created now d.snap :=
  d.countP_committed fun r => mine r && q.counts now (created r)

/-- what a posting has counted is all that there is when it is committed -/
def countStands (limits : Limits) (w : World (Stmt Row Index (NoFx Unit)) Store Exn Unit) (m : Move) : Bool :=
  match m with
  | .crash _ => true
  | .run i => !committing w i ||
    (([Kind.letter, .bottle, .wish].all fun kind => (news w i (treehole kind)).all fun p =>
        decide (p.counted = inSight w.st rateQuota (treehole kind) (Posting.isOf p.ownerId) Posting.createdAt p.checkedAt)) &&
      (news w i items).all fun r => decide (r.contentType ≠ .discussion) || r.counted.all fun n =>
        decide (n = inSight w.st (.daily (limits r.boardId)) items (ContentItem.isOf r.authorId r.boardId) ContentItem.createdAt
          r.checkedAt))

theorem stepOk_of_countStands (w : World (Stmt Row Index (NoFx Unit)) Store Exn Unit) (m : Move)
    (h : countStands limits w m = true) : (discipline limits).protocol.stepOk w m := by
  refine stepOk_of_committing fun i hi hc => ?_
  subst hi
  simp only [countStands, hc, Bool.not_true, Bool.false_or, Bool.and_eq_true, List.all_eq_true, decide_eq_true_eq,
    Bool.or_eq_true, Option.all_eq_true, inSight_eq] at h
  refine ⟨fun kind k p hrow hnone => h.1 kind (by cases kind <;> simp) p (mem_news hrow hnone), fun k r n hrow hnone htype hn => ?_⟩
  exact (h.2 r (mem_news hrow hnone)).resolve_left (fun hne => hne htype) n hn

/-- board 1 takes one discussion a day -/
def demoLimits : Limits := fun b => if b = 1 then 1 else 0

def empty : Store := { ext := () }

theorem starts_empty : Starts limits empty := by
  have hkept : ∀ (q : Quota) (t : Tbl) (mine : Row t → Bool) (created : Row t → ℤ), q.Kept t mine created empty.snap := by
    intro q t mine created w
    have hnone : empty.snap.matching t (fun r => mine r && q.within w (created r)) = ∅ :=
      Set.eq_empty_of_forall_notMem fun m hm => by simp [Snap.matching, empty] at hm
    rw [hnone, Set.ncard_empty]
    exact Nat.zero_le _
  exact ⟨⟨fun _ _ => hkept _ _ _ _, fun _ _ _ => hkept _ _ _ _⟩, fun i => Db.own_empty ()⟩

/-- at the second `t`, counted a moment before -/
def second (t : ℕ) : Readings where
  checkedAt := 1000000 * t
  createdAt := 1000000 * t + 5
  ordered := by omega

/-- four letters and a removal -/
def letters : ℕ → Request
  | 4 => .removeLetter 0 "a"
  | n => .createLetter { content := ['x'] } "a" (second n)

def moves (i k : ℕ) : List Move := List.replicate k (.run i)

/-- four letters are counted before any is committed -/
def race : List Move := moves 0 2 ++ moves 1 2 ++ moves 2 2 ++ moves 3 2 ++ moves 0 1 ++ moves 1 1 ++ moves 2 1 ++ moves 3 1

/-- one of three letters is removed before the fourth -/
def removal : List Move := moves 0 3 ++ moves 1 3 ++ moves 2 3 ++ moves 4 3 ++ moves 3 3

theorem not_inv {requests : ℕ → Request} {ms : List Move}
    (h : ¬ ((run (init demoLimits empty requests) ms).st.committed (treehole .letter)).countP
      (fun e => e.2.isOf "a" && rateQuota.within 0 e.2.createdAt) ≤ rateDefault) :
    ¬ Inv demoLimits (after demoLimits empty requests ms) := by
  intro hinv
  have hkept := hinv.postings .letter "a" 0
  rw [after, ← Db.countP_committed] at hkept
  exact h hkept

/-- of four letters one after the other the last is refused; so is the second discussion of a day -/
def calm : ℕ → Request
  | 4 => .createItem { contentType := .discussion, board := 1 } 7 (second 4)
  | 5 => .createItem { contentType := .discussion, board := 1 } 7 (second 5)
  | n => .createLetter { content := ['x'] } "a" (second n)

def calmly : List Move := moves 0 3 ++ moves 1 3 ++ moves 2 3 ++ moves 3 3 ++ moves 4 3 ++ moves 5 3

end LkmService.Quotas
