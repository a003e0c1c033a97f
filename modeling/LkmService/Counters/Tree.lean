/-
The comment tree of an item (`content/graphql.py` `itemCommentTree`, `comment/service.py` `list_comments` and
`list_all_comments`), read from the rows that one statement sees.

The forest is built from the comments that are not deleted, downwards from those that reply to nothing. Who replied to a
comment that has been deleted since is not reached.

- `Threaded`: a reply is younger than the comment of the same item that it replies to.
- `itemCommentTree_ends`: then the recursion ends.
- `treeShows_iff`: the forest shows every comment that is not deleted, in its place, if and only if no such comment replies
  to a deleted one.
-/
import Mathlib.Data.List.MinMax
import LkmService.Lib.Forest
import LkmService.Counters.Service

namespace LkmService.Counters

open Session Sql Sql.Discipline Forest Relation Tbl

/-! ## Reading -/

/-- the predicate of the reads: a comment of the item that is not deleted -/
def liveIn (n : ℕ) (q : ℕ × ContentComment) : Bool := q.2.contentId == n && !q.2.deleted

/-- `require_content_item` -/
def requireContentItem (l : Rows) (n : ℕ) : Bool := (l items).any fun q => q.1 == n && !q.2.deleted

/-- `list_all_in_content` -/
def listAllInContent (l : Rows) (n : ℕ) : List (ℕ × ContentComment) :=
  ((l comments).filter (liveIn n)).insertionSort fun a b => a.2.floorNumber ≤ b.2.floorNumber

/-- `list_all_comments`; `none` is CONTENT_NOT_FOUND -/
def listAllComments (l : Rows) (n : ℕ) : Option (List (ℕ × ContentComment)) :=
  if requireContentItem l n then some (listAllInContent l n) else none

/-- the `total` of `list_comments` -/
def listCommentsTotal (l : Rows) (n : ℕ) : Option ℕ :=
  if requireContentItem l n then some ((l comments).countP (liveIn n)) else none

/-- `by_parent.get(parent, [])` -/
def byParent (cs : List (ℕ × ContentComment)) (parent : Option ℕ) : List (ℕ × ContentComment) :=
  cs.filter fun q => q.2.parentId == parent

/-- `itemCommentTree`, with `_map_comment_tree` on every root -/
def itemCommentTree (l : Rows) (n fuel : ℕ) : Option (List (Forest.Tree (ℕ × ContentComment))) :=
  match listAllComments l n with
  | none => some []
  | some cs => growAll (fun c => byParent cs (some c.1)) fuel (byParent cs none)

/-! ## What the tree is meant to show -/

def FloorsUp (cs : List (ℕ × ContentComment)) : Prop := cs.Pairwise fun a b => a.2.floorNumber < b.2.floorNumber

structure TreeComplete (l : Rows) (n : ℕ) (forest : List (Forest.Tree (ℕ × ContentComment))) : Prop where
  once : (labels forest).Nodup
  exactly : ∀ q, q ∈ labels forest ↔ q ∈ l comments ∧ liveIn n q = true
  counted : ∀ r, (n, r) ∈ l items → (labels forest).length = r.commentCount
  total : listCommentsTotal l n = some (labels forest).length
  below : ∀ q ∈ l comments, liveIn n q = true → ∀ parent ∈ l comments, liveIn n parent = true →
    q.2.parentId = some parent.1 → ∃ kids, (parent, kids) ∈ nodes forest ∧ q ∈ kids
  roots : FloorsUp (forest.map Forest.Tree.label)
  siblings : ∀ node ∈ nodes forest, FloorsUp node.2

/-- the recursion ends, with a forest that is complete -/
def TreeShows (l : Rows) (n : ℕ) : Prop :=
  ∃ bound forest, (∀ fuel, bound ≤ fuel → itemCommentTree l n fuel = some forest) ∧ TreeComplete l n forest

/-- who is replied to is there -/
def ParentsLive (l : Rows) (n : ℕ) : Prop :=
  ∀ q ∈ l comments, liveIn n q = true → ∀ m, q.2.parentId = some m → ∃ c, (m, c) ∈ l comments ∧ liveIn n (m, c) = true

/-- a reply is younger than what it replies to, and of the same item -/
def Threaded (σ : State) : Prop :=
  ∀ m c k, σ.com comments m = some c → c.parentId = some k →
    k < m ∧ ∃ d, σ.com comments k = some d ∧ d.contentId = c.contentId

/-! ## What the forest is -/

section Forest

variable {l : Rows} {σ : State} {n : ℕ} {r : ContentItem} {forest : List (Forest.Tree (ℕ × ContentComment))}
  {q : ℕ × ContentComment}

theorem liveIn_iff : liveIn n q = true ↔ q.2.contentId = n ∧ q.2.deleted = false := by
  simp [liveIn]

/-- the floors of an item go up with the numbers of its comments, so the rows are in order already -/
theorem listAllInContent_eq (hl : Sees l σ) (hfloors : FloorsIncrease σ) :
    listAllInContent l n = (l comments).filter (liveIn n) ∧ FloorsUp (listAllInContent l n) := by
  have hup : FloorsUp ((l comments).filter (liveIn n)) := by
    refine ((hl.2 comments).filter _).imp_of_mem fun {a b} ha hb hlt => ?_
    obtain ⟨ha, hlive⟩ := List.mem_filter.1 ha
    obtain ⟨hb, hlive'⟩ := List.mem_filter.1 hb
    refine hfloors a.1 b.1 a.2 b.2 ((hl.1 comments _ _).1 ha) ((hl.1 comments _ _).1 hb) ?_ hlt
    rw [(liveIn_iff.1 hlive).1, (liveIn_iff.1 hlive').1]
  have hsame : listAllInContent l n = (l comments).filter (liveIn n) :=
    List.Pairwise.insertionSort_eq (hup.imp fun h => Nat.le_of_lt h)
  exact ⟨hsame, hsame ▸ hup⟩

theorem mem_listAllInContent : q ∈ listAllInContent l n ↔ q ∈ l comments ∧ liveIn n q = true := by
  rw [listAllInContent, List.mem_insertionSort, List.mem_filter]

theorem mem_byParent {cs : List (ℕ × ContentComment)} {parent : Option ℕ} :
    q ∈ byParent cs parent ↔ q ∈ cs ∧ q.2.parentId = parent := by
  simp [byParent]

/-- two rows of one number are one -/
theorem eq_of_number (hl : Sees l σ) {a b : ℕ × ContentComment} (ha : a ∈ l comments) (hb : b ∈ l comments) (h : a.1 = b.1) :
    a = b := by
  have hcom := (hl.1 comments a.1 a.2).1 ha
  rw [h, (hl.1 comments b.1 b.2).1 hb] at hcom
  exact Prod.ext h (Option.some.inj hcom).symm

theorem younger (hl : Sees l σ) (ht : Threaded σ) {a : ℕ × ContentComment}
    (h : q ∈ byParent (listAllInContent l n) (some a.1)) : a.1 < q.1 := by
  obtain ⟨hq, hparent⟩ := mem_byParent.1 h
  exact (ht q.1 q.2 a.1 ((hl.1 comments _ _).1 (mem_listAllInContent.1 hq).1) hparent).1

theorem rooted (hl : Sees l σ) (hfloors : FloorsIncrease σ) (ht : Threaded σ) :
    Rooted (fun c => byParent (listAllInContent l n) (some c.1)) (· ∈ listAllInContent l n) where
  closed a b _ hb := (mem_byParent.1 hb).1
  unique a b c ha hb hc hc' := by
    have hnumber : a.1 = b.1 := Option.some.inj ((mem_byParent.1 hc).2.symm.trans (mem_byParent.1 hc').2)
    exact eq_of_number hl (mem_listAllInContent.1 ha).1 (mem_listAllInContent.1 hb).1 hnumber
  nodup a _ := by
    have hnodup : (listAllInContent l n).Pairwise fun a b => a ≠ b :=
      (listAllInContent_eq hl hfloors).2.imp fun hlt heq => absurd (heq ▸ hlt) (Nat.lt_irrefl _)
    exact List.Nodup.filter _ hnodup
  acyclic a _ hcycle := by
    have hup : ∀ b, TransGen (fun x y => y ∈ byParent (listAllInContent l n) (some x.1)) a b → a.1 < b.1 := by
      intro b hb
      induction hb with
      | single hstep => exact younger hl ht hstep
      | tail _ hstep ih => exact Nat.lt_trans ih (younger hl ht hstep)
    exact Nat.lt_irrefl _ (hup a hcycle)

/-- **The recursion ends.** -/
theorem itemCommentTree_ends (hl : Sees l σ) (ht : Threaded σ) (hitem : requireContentItem l n = true) :
    ∃ bound forest, (∀ fuel, bound ≤ fuel → itemCommentTree l n fuel = some forest) ∧
      growAll (fun c => byParent (listAllInContent l n) (some c.1)) bound (byParent (listAllInContent l n) none) =
        some forest := by
  obtain ⟨bound, hbound⟩ : ∃ bound, ∀ q ∈ listAllInContent l n, q.1 < bound :=
    ⟨((listAllInContent l n).map Prod.fst).foldr max 0 + 1, fun q hq =>
      Nat.lt_succ_of_le (List.le_max_of_le' 0 (List.mem_map_of_mem hq) le_rfl)⟩
  have hends : (growAll (fun c => byParent (listAllInContent l n) (some c.1)) bound
      (byParent (listAllInContent l n) none)).isSome := by
    have hsteps : ∀ a b, a ∈ listAllInContent l n → b ∈ byParent (listAllInContent l n) (some a.1) →
        b ∈ listAllInContent l n ∧ a.1 < b.1 := fun a b _ hb => ⟨(mem_byParent.1 hb).1, younger hl ht hb⟩
    exact growAll_isSome hsteps hbound (fun a ha => (mem_byParent.1 ha).1) le_rfl
  obtain ⟨forest, hforest⟩ := Option.isSome_iff_exists.1 hends
  refine ⟨bound, forest, fun fuel hfuel => ?_, hforest⟩
  rw [itemCommentTree, listAllComments, if_pos hitem]
  exact growAll_mono hforest hfuel

/-- nothing but comments that are not deleted -/
theorem mem_of_mem_labels (hl : Sees l σ) (hfloors : FloorsIncrease σ) (ht : Threaded σ) {bound : ℕ}
    (hgrow : growAll (fun c => byParent (listAllInContent l n) (some c.1)) bound (byParent (listAllInContent l n) none) =
      some forest) (hq : q ∈ labels forest) : q ∈ listAllInContent l n := by
  obtain ⟨a, ha, hreach⟩ := (mem_labels_growAll hgrow).1 hq
  exact ((rooted hl hfloors ht).reach (mem_byParent.1 ha).1 hreach).1

/-- with their parents there, all are reached: by induction on the number of the comment -/
theorem mem_labels_of_parentsLive (hl : Sees l σ) (ht : Threaded σ) (hlive : ParentsLive l n) {bound : ℕ}
    (hgrow : growAll (fun c => byParent (listAllInContent l n) (some c.1)) bound (byParent (listAllInContent l n) none) =
      some forest) (hq : q ∈ listAllInContent l n) : q ∈ labels forest := by
  rw [mem_labels_growAll hgrow]
  obtain ⟨m, c⟩ := q
  induction m using Nat.strong_induction_on generalizing c with
  | _ m ih =>
    rcases hparent : c.parentId with _ | k
    · exact ⟨(m, c), mem_byParent.2 ⟨hq, hparent⟩, .refl⟩
    · obtain ⟨hrow, hmine⟩ := mem_listAllInContent.1 hq
      obtain ⟨d, hd, hdlive⟩ := hlive (m, c) hrow hmine k hparent
      have hk : k < m := (ht m c k ((hl.1 comments m c).1 hrow) hparent).1
      obtain ⟨a, ha, hreach⟩ := ih k hk d (mem_listAllInContent.2 ⟨hd, hdlive⟩)
      exact ⟨a, ha, hreach.tail (mem_byParent.2 ⟨hq, hparent⟩)⟩

theorem treeComplete_of_parentsLive (hl : Sees l σ) (hfloors : FloorsIncrease σ) (ht : Threaded σ) (hstep : InStep σ)
    (hitem : requireContentItem l n = true) (hlive : ParentsLive l n) {bound : ℕ}
    (hgrow : growAll (fun c => byParent (listAllInContent l n) (some c.1)) bound (byParent (listAllInContent l n) none) =
      some forest) : TreeComplete l n forest := by
  obtain ⟨hsame, hup⟩ := listAllInContent_eq (n := n) hl hfloors
  have hexactly : ∀ q, q ∈ labels forest ↔ q ∈ listAllInContent l n := fun q =>
    ⟨mem_of_mem_labels hl hfloors ht hgrow, mem_labels_of_parentsLive hl ht hlive hgrow⟩
  have hnodup : (listAllInContent l n).Pairwise fun a b => a ≠ b :=
    hup.imp fun hlt heq => absurd (heq ▸ hlt) (Nat.lt_irrefl _)
  have honce : (labels forest).Nodup := by
    refine nodup_labels_growAll (rooted hl hfloors ht) (fun a ha => (mem_byParent.1 ha).1) (List.Nodup.filter _ hnodup)
      (fun a ha b hb hreach => ?_) hgrow
    -- what has a parent is no root
    rcases (ReflTransGen.cases_tail_iff _ _ _).1 hreach with heq | ⟨x, _, hxb⟩
    · exact heq.symm
    · cases (mem_byParent.1 hb).2.symm.trans (mem_byParent.1 hxb).2
  have hlength : (labels forest).length = (l comments).countP (liveIn n) := by
    have hperm : (labels forest).Perm (listAllInContent l n) := (List.perm_ext_iff_of_nodup honce hnodup).2 hexactly
    rw [hperm.length_eq, hsame, List.countP_eq_length_filter]
  refine ⟨honce, fun q => (hexactly q).trans mem_listAllInContent, fun r hr => ?_, ?_, ?_, ?_, ?_⟩
  · have hcount : r.commentCount = (σ.matching comments fun c => c.contentId == n && !c.deleted).ncard :=
      hstep.comment n r ((hl.1 items n r).1 hr)
    rw [hlength, hcount]
    exact hl.countP comments fun c => c.contentId == n && !c.deleted
  · rw [listCommentsTotal, if_pos hitem, hlength]
  · intro q hq hqlive parent hparent hparentlive hid
    refine ⟨_, exists_node hgrow ((hexactly parent).2 (mem_listAllInContent.2 ⟨hparent, hparentlive⟩)), ?_⟩
    exact mem_byParent.2 ⟨mem_listAllInContent.2 ⟨hq, hqlive⟩, hid⟩
  · rw [map_label_growAll hgrow]
    exact hup.filter _
  · rintro ⟨a, kids⟩ hnode
    rw [kids_of_growAll hgrow hnode]
    exact hup.filter _

/-- **The tree.** It shows every comment that is not deleted if and only if none of them replies to a deleted one. -/
theorem treeShows_iff (hl : Sees l σ) (hfloors : FloorsIncrease σ) (ht : Threaded σ) (hstep : InStep σ)
    (hitem : requireContentItem l n = true) : TreeShows l n ↔ ParentsLive l n := by
  obtain ⟨bound, forest, hends, hgrow⟩ := itemCommentTree_ends hl ht hitem
  constructor
  · rintro ⟨bound', forest', hends', hcomplete⟩ q hq hlive m hparent
    obtain rfl : forest = forest' := Option.some.inj
      ((hends (max bound bound') (le_max_left _ _)).symm.trans (hends' (max bound bound') (le_max_right _ _)))
    obtain ⟨a, ha, hreach⟩ := (mem_labels_growAll hgrow).1 ((hcomplete.exactly q).2 ⟨hq, hlive⟩)
    -- a reply stands below another label of the forest
    rcases (ReflTransGen.cases_tail_iff _ _ _).1 hreach with rfl | ⟨x, hax, hxq⟩
    · cases (mem_byParent.1 ha).2.symm.trans hparent
    · obtain rfl : x.1 = m := Option.some.inj ((mem_byParent.1 hxq).2.symm.trans hparent)
      exact ⟨x.2, mem_listAllInContent.1 ((rooted hl hfloors ht).reach (mem_byParent.1 ha).1 hax).1⟩
  · intro hlive
    exact ⟨bound, forest, hends, treeComplete_of_parentsLive hl hfloors ht hstep hitem hlive hgrow⟩

end Forest

end LkmService.Counters
