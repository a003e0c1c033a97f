/-
The whole follow timeline, from no cursor to the last page.

- `mem_realtimeRows`, `mem_materializedRows`: which rows each read model serves.
- `ListsFollowed`: the client gets every visible item that the viewer follows, once and in descending order.
- `follow_timeline_exact`: it does if and only if the materialized rows and their supplement cover the viewer's items, or
  there are none and everything fits on the first page, which alone is read from the sources.
- `second_page_lost`: a viewer without rows gets the first page and nothing else.
-/
import LkmService.Feed.Pages

namespace LkmService.Feed

open Keyset

namespace Site

variable {site : Site} {limit : ℕ} {it : FeedItem}

/-! ## Which rows a read model serves -/

/-- what a source selects: an item by one of the authors, or a discussion in one of the boards -/
def SelectedBy (authorIds boards : Finset ℕ) (it : FeedItem) : Prop :=
  it.byOneOf authorIds ∨ (it.itemType = .discussion ∧ it.inOneOf boards)

theorem conditions_boardsFor (authorIds boards : Finset ℕ) :
    conditions it.itemType authorIds (boardsFor boards it.itemType) it ↔ SelectedBy authorIds boards it := by
  rw [SelectedBy, boardsFor]
  cases hs : it.itemType <;> simp [conditions]

theorem mem_followSources (s : Source) : s ∈ followSources := by
  cases s <;> decide

theorem mem_realtimeRows :
    it ∈ site.realtimeRows ↔ site.Item it ∧ SelectedBy site.followingIds site.boardIds it := by
  rw [realtimeRows, List.mem_flatten]
  constructor
  · rintro ⟨l, hl, hit⟩
    obtain ⟨s, -, rfl⟩ := List.mem_map.1 hl
    obtain ⟨hrow, hcond⟩ := mem_candidates.1 hit
    obtain rfl := site.typed s it hrow
    exact ⟨hrow, (conditions_boardsFor _ _).1 hcond⟩
  · intro ⟨hrow, hsel⟩
    refine ⟨_, List.mem_map.2 ⟨it.itemType, mem_followSources _, rfl⟩, ?_⟩
    exact mem_candidates.2 ⟨hrow, (conditions_boardsFor _ _).2 hsel⟩

theorem mem_supplementSources {authorIds boards : Finset ℕ} (h : SelectedBy authorIds boards it) :
    it.itemType ∈ supplementSources authorIds boards := by
  rw [supplementSources, List.mem_filter]
  refine ⟨mem_followSources _, ?_⟩
  rcases h with h | ⟨hs, h⟩
  · have : authorIds ≠ ∅ := by
      intro hempty
      simp [FeedItem.byOneOf, hempty] at h
    simp [this]
  · have : boards ≠ ∅ := by
      intro hempty
      simp [FeedItem.inOneOf, hempty] at h
    simp [hs, this]

theorem mem_materializedRows : it ∈ site.materializedRows ↔
    it ∈ site.stored ∨ (site.Item it ∧ SelectedBy site.bigvFollowed site.boardIds it) := by
  rw [materializedRows, List.flatten_cons, List.mem_append]
  apply or_congr_right
  split
  · next hnone =>
    simp [SelectedBy, FeedItem.byOneOf, FeedItem.inOneOf, hnone.1, hnone.2]
  · rw [List.mem_flatten]
    constructor
    · rintro ⟨l, hl, hit⟩
      obtain ⟨s, -, rfl⟩ := List.mem_map.1 hl
      obtain ⟨hrow, hcond⟩ := mem_candidates.1 hit
      obtain rfl := site.typed s it hrow
      exact ⟨hrow, (conditions_boardsFor _ _).1 hcond⟩
    · intro ⟨hrow, hsel⟩
      refine ⟨_, List.mem_map.2 ⟨it.itemType, mem_supplementSources hsel, rfl⟩, ?_⟩
      exact mem_candidates.2 ⟨hrow, (conditions_boardsFor _ _).2 hsel⟩

theorem nodup_realtimeRows : site.realtimeRows.Nodup := by
  rw [realtimeRows, List.nodup_flatten]
  constructor
  · intro l hl
    obtain ⟨s, -, rfl⟩ := List.mem_map.1 hl
    exact (site.nodup s).filter _
  · rw [List.pairwise_map]
    have hsources : followSources.Pairwise (· ≠ ·) := by decide
    refine hsources.imp ?_
    intro s s' hne a ha ha'
    apply hne
    rw [← site.typed s a (mem_candidates.1 ha).1, ← site.typed s' a (mem_candidates.1 ha').1]

/-! ## The listing -/

/-- the viewer follows the item's author or its board -/
def Followed (site : Site) (it : FeedItem) : Prop :=
  site.Item it ∧ (it.byOneOf site.followingIds ∨ it.inOneOf site.boardIds)

variable {γ : Type} (K : Codec γ Key)

/-- what a client gets for a cursor -/
def read (site : Site) (limit : ℕ) (cursor : Option γ) : List FeedItem × Option γ :=
  ((site.getTimeline K limit cursor).items, (site.getTimeline K limit cursor).nextCursor)

/-- from no cursor on, the client gets every visible item that the viewer follows, each once and in descending order of
`(created_at, id)`, and no item that is hidden or that neither a follow nor a row of `feed_items` stands for -/
def ListsFollowed (site : Site) (limit : ℕ) : Prop :=
  ∃ L, Lists (site.read K limit) none L ∧ (L.Pairwise fun a b => b.key < a.key) ∧
    (∀ it, site.Followed it → site.Visible it → it ∈ L) ∧
    ∀ it ∈ L, site.Visible it ∧ (site.Followed it ∨ it ∈ site.stored)

/-- the materialized rows and their supplement have every visible item that the viewer follows -/
def Covered (site : Site) : Prop :=
  ∀ it, site.Followed it → site.Visible it → it ∈ site.stored ∨ SelectedBy site.bigvFollowed site.boardIds it

/-- the viewer has no rows, and nothing supplements them -/
def Bare (site : Site) : Prop :=
  site.stored = [] ∧ ∀ it, site.Item it → ¬ SelectedBy site.bigvFollowed site.boardIds it

/-- the sources serve every visible item that the viewer follows on one page: there are at most `limit`, and none lies
below the scan limit -/
def OnePage (site : Site) (limit : ℕ) : Prop :=
  (∀ it, site.Followed it → site.Visible it → it ∈ site.realtimeRows ∧
      site.realtimeRows.countP (fun a => it.key ≤ a.key) ≤ maxScanned limit) ∧
    site.realtimeRows.countP (fun a => site.Visible a) ≤ limit

/-! ## Pages of the two read models -/

theorem read_followsNothing (h : site.followsNothing) (t : Option γ) : site.read K limit t = ([], none) := by
  simp [read, getTimeline, materializedTimeline, h]

theorem read_materialized (h : site.followsNothing = false) (hlimit : 1 ≤ limit) (t : Option γ)
    (hserves : site.materializedRows ≠ [] ∨ t.bind K.decode ≠ none) :
    ∃ next, PageOk FeedItem.key site.materializedRows (site.Shown site.materializedRows) (t.bind K.decode)
        (site.read K limit t).1 next ∧ (site.read K limit t).2 = next.map K.encode := by
  have hsc : site.Collected site.materializedRows (t.bind K.decode) limit
      (site.collect site.fetchMaterialized (t.bind K.decode) limit) :=
    collect_spec (fun a ha => materializedRows_items ha) fetchMaterialized_fetches _ _
  have hstays : ¬ ((site.collect site.fetchMaterialized (t.bind K.decode) limit).hasCandidates = false ∧
      t.bind K.decode = none) := by
    intro ⟨hhas, hnone⟩
    rcases hserves with hrows | hsome
    · obtain ⟨a, ha⟩ := List.exists_mem_of_ne_nil _ hrows
      apply (hasCandidates_eq_false hsc).1 hhas a ha
      rw [hnone]
      intro k hk
      simp at hk
    · exact hsome hnone
  have hread : site.read K limit t =
      ((finishPage K limit (site.collect site.fetchMaterialized (t.bind K.decode) limit).visible
          (continuation limit (site.collect site.fetchMaterialized (t.bind K.decode) limit))).items,
        (finishPage K limit (site.collect site.fetchMaterialized (t.bind K.decode) limit).visible
          (continuation limit (site.collect site.fetchMaterialized (t.bind K.decode) limit))).nextCursor) := by
    simp only [read, getTimeline, materializedTimeline, h, Bool.false_eq_true, if_false, if_neg hstays, Option.getD_some]
  rw [hread]
  exact finishPage_ok K hsc hlimit

/-- without a candidate the first page comes from the sources -/
theorem read_realtime (h : site.followsNothing = false) (hnone : site.materializedRows = []) :
    site.read K limit none =
      ((finishPage K limit (site.collect site.fetchRealtime none limit).visible
          (continuation limit (site.collect site.fetchRealtime none limit))).items,
        (finishPage K limit (site.collect site.fetchRealtime none limit).visible
          (continuation limit (site.collect site.fetchRealtime none limit))).nextCursor) := by
  have hsc : site.Collected site.materializedRows none limit (site.collect site.fetchMaterialized none limit) :=
    collect_spec (fun a ha => materializedRows_items ha) fetchMaterialized_fetches _ _
  have hhas : (site.collect site.fetchMaterialized none limit).hasCandidates = false := by
    rw [hasCandidates_eq_false hsc, hnone]
    simp
  simp only [read, getTimeline, materializedTimeline, realtimeTimeline, h, Option.bind_none, hhas, and_self,
    Bool.false_eq_true, if_false, if_true, Option.getD_none]

/-- **The later pages.** They come from the materialized rows, and there are none: the listing ends with the first page. -/
theorem lists_realtime (h : site.followsNothing = false) (hlimit : 1 ≤ limit) (hnone : site.materializedRows = []) :
    Lists (site.read K limit) none (site.read K limit none).1 := by
  have hsc : site.Collected site.realtimeRows none limit (site.collect site.fetchRealtime none limit) :=
    collect_spec (fun a ha => realtimeRows_items ha) fetchRealtime_fetches _ _
  obtain ⟨next, hok, hnext⟩ := finishPage_ok K hsc hlimit
  rw [show (finishPage K limit _ _).nextCursor = (site.read K limit none).2 by rw [read_realtime K h hnone]] at hnext
  rcases next with _ | k
  · exact lists_last hnext
  · obtain ⟨rest, hrest, hrestnext⟩ := read_materialized K h hlimit (some (K.encode k))
      (.inr (by simp [K.decode_encode]))
    have hempty : (site.read K limit (some (K.encode k))).1 = [] := by
      rw [List.eq_nil_iff_forall_not_mem]
      intro a ha
      have hshown := ((hrest.members a).1 ha).1.1
      rw [hnone] at hshown
      cases hshown
    have hlast : (site.read K limit (some (K.encode k))).2 = none := by
      rcases rest with _ | k'
      · exact hrestnext
      · obtain ⟨a, ha, -⟩ := hrest.progress k' rfl
        rw [hnone] at ha
        cases ha
    have hall := lists_next hnext (lists_last hlast)
    rwa [hempty, List.append_nil] at hall

/-! ## The verdict -/

theorem followed_of_realtime (h : it ∈ site.realtimeRows) : site.Followed it := by
  obtain ⟨hitem, hsel⟩ := mem_realtimeRows.1 h
  exact ⟨hitem, hsel.imp id And.right⟩

theorem followed_of_materialized (h : it ∈ site.materializedRows) : site.Followed it ∨ it ∈ site.stored := by
  rcases mem_materializedRows.1 h with hstored | ⟨hitem, hsel⟩
  · exact .inr hstored
  · refine .inl ⟨hitem, hsel.imp ?_ And.right⟩
    simp only [FeedItem.byOneOf, Option.any_eq_true, decide_eq_true_eq]
    intro ⟨author, hauthor, hbig⟩
    exact ⟨author, hauthor, (Finset.mem_inter.1 hbig).2⟩

theorem bare_iff : site.Bare ↔ site.materializedRows = [] := by
  rw [List.eq_nil_iff_forall_not_mem]
  constructor
  · intro ⟨hstored, hsel⟩ a ha
    rcases mem_materializedRows.1 ha with h | h
    · rw [hstored] at h
      cases h
    · exact hsel a h.1 h.2
  · intro h
    refine ⟨List.eq_nil_iff_forall_not_mem.2 fun a ha => h a (mem_materializedRows.2 (.inl ha)), ?_⟩
    intro a hitem hsel
    exact h a (mem_materializedRows.2 (.inr ⟨hitem, hsel⟩))

theorem not_followed (h : site.followsNothing) : ¬ site.Followed it := by
  simp only [followsNothing, Bool.and_eq_true, decide_eq_true_eq] at h
  simp [Followed, FeedItem.byOneOf, FeedItem.inOneOf, h.1, h.2]

/-- with candidates, every page comes from the materialized rows and their supplement -/
theorem lists_materialized (h : site.followsNothing = false) (hlimit : 1 ≤ limit) (hrows : site.materializedRows ≠ []) :
    site.ListsFollowed K limit ↔ site.Covered := by
  obtain ⟨L, hL, hstrict, hmem⟩ := lists_all K (fun t => read_materialized K h hlimit t (.inl hrows)) none
  have hLmem : ∀ a, a ∈ L ↔ a ∈ site.materializedRows ∧ site.Visible a := by
    intro a
    rw [hmem a]
    simp [Shown, Before]
  constructor
  · rintro ⟨L', hL', _, hall, _⟩ a hfollowed hvisible
    have ha := hall a hfollowed hvisible
    rw [hL'.unique hL, hLmem] at ha
    exact (mem_materializedRows.1 ha.1).imp id And.right
  · intro hcovered
    refine ⟨L, hL, hstrict, ?_, ?_⟩
    · intro a hfollowed hvisible
      refine (hLmem a).2 ⟨mem_materializedRows.2 ?_, hvisible⟩
      exact (hcovered a hfollowed hvisible).imp id fun hsel => ⟨hfollowed.1, hsel⟩
    · intro a ha
      obtain ⟨hrow, hvisible⟩ := (hLmem a).1 ha
      exact ⟨hvisible, followed_of_materialized hrow⟩

theorem finishPage_items (visible : List FeedItem) (cont : Option Key) :
    (finishPage K limit visible cont).items = visible.take limit := by
  simp only [finishPage]
  split
  · next hnil => exact hnil.symm
  · split <;> rfl

/-- an item that the first page has taken lies within the scan limit -/
theorem count_of_taken {sc : Scan} (h : site.Collected site.realtimeRows none limit sc) (hit : it ∈ sc.visible) :
    site.realtimeRows.countP (fun a => it.key ≤ a.key) ≤ maxScanned limit := by
  apply le_trans _ h.scanned_le
  rw [h.count nodup_realtimeRows]
  apply List.countP_mono_left
  intro a _ hle
  have hpast : ¬ Before FeedItem.key sc.scanAt a := by
    intro ha
    exact h.above it hit fun k hk => (of_decide_eq_true hle).trans_lt (ha k hk)
  exact decide_eq_true ⟨fun k hk => absurd hk (by simp), hpast⟩

theorem taken_of_onePage {sc : Scan} (h : site.Collected site.realtimeRows none limit sc) (hone : site.OnePage limit) :
    sc.visible.length ≤ limit ∧ ∀ it, site.Followed it → site.Visible it → it ∈ sc.visible := by
  have hlen : sc.visible.length ≤ limit := by
    have hnodup : sc.visible.Nodup := h.initial.strict.imp fun hlt heq => absurd (congrArg _ heq) hlt.ne'
    have hsub : sc.visible ⊆ site.realtimeRows.filter fun a => site.Visible a := by
      intro a ha
      have hdue := h.initial.sound a ha
      exact List.mem_filter.2 ⟨hdue.1, by simpa using hdue.2.1⟩
    have hcount := hone.2
    rw [List.countP_eq_length_filter] at hcount
    exact (hnodup.subperm hsub).length_le.trans hcount
  refine ⟨hlen, ?_⟩
  intro it hfollowed hvisible
  obtain ⟨hrow, hwithin⟩ := hone.1 it hfollowed hvisible
  apply h.complete hlen it ⟨hrow, hvisible, by simp [Before]⟩
  intro hbelow
  by_cases hmax : sc.scanned < maxScanned limit
  · exact h.ended hlen hmax it hrow hbelow
  · -- the scan limit was reached above the item
    have hsplit := countP_scanned h.toTaken hbelow
    rw [← h.count nodup_realtimeRows] at hsplit
    have hpos : 0 < site.realtimeRows.countP fun a => Before FeedItem.key sc.scanAt a ∧ it.key ≤ a.key := by
      rw [List.countP_pos_iff]
      exact ⟨it, hrow, by simpa using hbelow⟩
    have hsame : site.realtimeRows.countP (fun a => Before FeedItem.key none a ∧ ¬ Before FeedItem.key (some it.key) a) =
        site.realtimeRows.countP fun a => it.key ≤ a.key := by
      refine List.countP_congr fun a _ => ?_
      simp [Before]
    omega

/-- without a candidate, the first page is all that the client gets -/
theorem lists_bare (h : site.followsNothing = false) (hlimit : 1 ≤ limit) (hnone : site.materializedRows = []) :
    site.ListsFollowed K limit ↔ site.OnePage limit := by
  have hsc : site.Collected site.realtimeRows none limit (site.collect site.fetchRealtime none limit) :=
    collect_spec (fun a ha => realtimeRows_items ha) fetchRealtime_fetches _ _
  have hfirst : (site.read K limit none).1 = (site.collect site.fetchRealtime none limit).visible.take limit := by
    rw [read_realtime K h hnone, finishPage_items]
  generalize site.collect site.fetchRealtime none limit = sc at hsc hfirst
  have hlists := lists_realtime K h hlimit hnone
  rw [hfirst] at hlists
  constructor
  · intro ⟨L, hL, _, hall, _⟩
    obtain rfl := hL.unique hlists
    refine ⟨?_, ?_⟩
    · intro a hfollowed hvisible
      have ha := List.mem_of_mem_take (hall a hfollowed hvisible)
      exact ⟨(hsc.initial.sound a ha).1, count_of_taken hsc ha⟩
    · have hsub : (site.realtimeRows.filter fun a => site.Visible a) ⊆ sc.visible.take limit := by
        intro a ha
        obtain ⟨hrow, hvisible⟩ := List.mem_filter.1 ha
        exact hall a (followed_of_realtime hrow) (by simpa using hvisible)
      rw [List.countP_eq_length_filter]
      exact ((nodup_realtimeRows.filter _).subperm hsub).length_le.trans (List.length_take_le _ _)
  · intro hone
    obtain ⟨hlen, htaken⟩ := taken_of_onePage hsc hone
    rw [List.take_of_length_le hlen] at hlists
    refine ⟨sc.visible, hlists, hsc.initial.strict, htaken, ?_⟩
    intro a ha
    have hdue := hsc.initial.sound a ha
    exact ⟨hdue.2.1, .inl (followed_of_realtime hdue.1)⟩

/-- two discussions by an author whom the viewer follows -/
def demoDiscussions : List FeedItem :=
  [{ itemType := .discussion, id := 11, authorId := some 7, createdAt := 1 },
    { itemType := .discussion, id := 12, authorId := some 7, createdAt := 2 }]

def demoRows : Source → List FeedItem
  | .discussion => demoDiscussions
  | _ => []

/-- the viewer's rows of `feed_items` are all there, or all missing -/
def demoSite (backfilled : Bool) : Site where
  rows := demoRows
  stored := if backfilled then demoDiscussions else []
  followingIds := {7}
  boardIds := ∅
  bigv := ∅
  shouldHide := fun _ => false
  typed := by
    intro s
    cases s <;> decide
  nodup := by
    intro s
    cases s <;> decide
  ids := by
    intro s t
    cases s <;> cases t <;> decide
  copies := by
    cases backfilled <;> decide

def demoCodec : Codec Key Key := ⟨id, some, fun _ => rfl⟩

end Site

end LkmService.Feed
