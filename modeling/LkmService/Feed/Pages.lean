/-
What one page of the follow timeline holds.

- `Fetches`: a read model hands out, batch by batch, the rows of a list. `fetchRealtime_fetches` and
  `fetchMaterialized_fetches` for the two of them.
- `absorb_spec`, `scanBatch_step`, `collectLoop_spec`: what the items taken so far are, after an item, a batch and the
  whole loop.
- `finishPage_ok`: the page holds the visible rows after the cursor down to its own next cursor.
-/
import LkmService.Feed.Timeline

namespace LkmService.Feed

open Keyset

/-! ## What a read model hands out -/

/-- the candidates of each batch, sorted and cut to its size, are the next rows of `C` -/
structure Fetches (fetch : Fetch) (C : List FeedItem) : Prop where
  batch : ∀ at_ size, (desc FeedItem.key (fetch at_ size)).take size = page FeedItem.key at_ size C
  length : ∀ at_ size, min size (fetch at_ size).length = min size (after FeedItem.key at_ C).length

theorem fetches_merge {C : List (List FeedItem)} (hd : Distinct FeedItem.key C.flatten) :
    Fetches (fun at_ size => C.flatMap (page FeedItem.key at_ size)) C.flatten :=
  ⟨fun at_ size => merge_page hd at_ size, fun at_ size => length_merge C at_ size⟩

namespace Site

variable {site : Site}

/-- an item of some source -/
def Item (site : Site) (it : FeedItem) : Prop := it ∈ site.rows it.itemType

theorem item_of_mem {s : Source} {it : FeedItem} (h : it ∈ site.rows s) : site.Item it := by
  rw [Item, site.typed s it h]
  exact h

theorem key_inj {a b : FeedItem} (ha : site.Item a) (hb : site.Item b) (h : a.key = b.key) : a = b := by
  simp only [FeedItem.key, EmbeddingLike.apply_eq_iff_eq, Prod.mk.injEq] at h
  exact site.ids _ _ a ha b hb h.2

theorem distinct_of_items {C : List FeedItem} (h : ∀ it ∈ C, site.Item it) : Distinct FeedItem.key C :=
  fun a ha b hb hab => key_inj (h a ha) (h b hb) hab

theorem mem_candidates {s : Source} {authorIds : Finset ℕ} {boardIds : Option (Finset ℕ)} {it : FeedItem} :
    it ∈ site.candidates s authorIds boardIds ↔ it ∈ site.rows s ∧ conditions s authorIds boardIds it := by
  simp [candidates]

/-- the rows that the sources select from -/
def realtimeRows (site : Site) : List FeedItem :=
  (followSources.map fun s => site.candidates s site.followingIds (boardsFor site.boardIds s)).flatten

/-- the materialized rows and those that supplement them -/
def materializedRows (site : Site) : List FeedItem :=
  (site.stored :: if site.bigvFollowed = ∅ ∧ site.boardIds = ∅ then [] else
    (supplementSources site.bigvFollowed site.boardIds).map
      fun s => site.candidates s site.bigvFollowed (boardsFor site.boardIds s)).flatten

theorem realtimeRows_items {it : FeedItem} (h : it ∈ site.realtimeRows) : site.Item it := by
  obtain ⟨l, hl, hit⟩ := List.mem_flatten.1 h
  obtain ⟨s, -, rfl⟩ := List.mem_map.1 hl
  exact item_of_mem (mem_candidates.1 hit).1

theorem materializedRows_items {it : FeedItem} (h : it ∈ site.materializedRows) : site.Item it := by
  obtain ⟨l, hl, hit⟩ := List.mem_flatten.1 h
  rcases List.mem_cons.1 hl with rfl | hl
  · exact site.copies it hit
  · split at hl
    · cases hl
    · obtain ⟨s, -, rfl⟩ := List.mem_map.1 hl
      exact item_of_mem (mem_candidates.1 hit).1

theorem fetchRealtime_fetches : Fetches site.fetchRealtime site.realtimeRows := by
  have h := fetches_merge (C := followSources.map fun s =>
    site.candidates s site.followingIds (boardsFor site.boardIds s))
    (distinct_of_items fun it hit => (realtimeRows_items hit : site.Item it))
  have hfetch : site.fetchRealtime = fun at_ size => (followSources.map fun s =>
      site.candidates s site.followingIds (boardsFor site.boardIds s)).flatMap (page FeedItem.key at_ size) := by
    funext at_ size
    rw [List.flatMap_map]
    rfl
  rw [hfetch]
  exact h

theorem fetchMaterialized_fetches : Fetches site.fetchMaterialized site.materializedRows := by
  have h := fetches_merge (distinct_of_items fun it hit => (materializedRows_items hit : site.Item it))
  refine cast ?_ h
  congr 1
  funext at_ size
  rw [fetchMaterialized, List.flatMap_cons]
  split
  · simp
  · rw [List.flatMap_map]
    rfl

/-! ## What is taken so far -/

def Visible (site : Site) (it : FeedItem) : Prop := site.shouldHide s!"{it.title} {it.contentPreview}" = false

instance (it : FeedItem) : Decidable (site.Visible it) := inferInstanceAs (Decidable (_ = _))

theorem mem_filterHidden {items : List FeedItem} {it : FeedItem} :
    it ∈ site.filterHidden items ↔ it ∈ items ∧ site.Visible it := by
  simp [filterHidden, Visible]

/-- a visible row of `C` after the cursor -/
def Due (site : Site) (C : List FeedItem) (before : Option Key) (it : FeedItem) : Prop :=
  it ∈ C ∧ site.Visible it ∧ Before FeedItem.key before it

variable {C : List FeedItem} {before : Option Key} {limit : ℕ}

/-- what `seen` says of the items -/
def Tagged (site : Site) (visible : List FeedItem) (seen : List (Source × ℕ)) : Prop :=
  ∀ it : FeedItem, site.Item it → ((it.itemType, it.id) ∈ seen ↔ it ∈ visible)

theorem Tagged.snoc {visible : List FeedItem} {seen : List (Source × ℕ)} {it : FeedItem}
    (h : site.Tagged visible seen) (hit : site.Item it) :
    site.Tagged (visible ++ [it]) ((it.itemType, it.id) :: seen) := by
  intro x hx
  have htag : (x.itemType, x.id) = (it.itemType, it.id) ↔ x = it := by
    constructor
    · intro heq
      exact site.ids _ _ x hx it hit (Prod.mk.inj heq).2
    · intro heq
      rw [heq]
  rw [List.mem_cons, List.mem_append, List.mem_singleton, htag, h x hx, or_comm]

variable (limit) in
/-- induction on the batch: an item that is seen leaves the items taken, any other one is the next of those due -/
theorem absorb_spec {T : FeedItem → Prop} (kept : List FeedItem) {visible : List FeedItem} {seen : List (Source × ℕ)}
    (hT : ∀ it, T it → site.Item it) (hv : Initial FeedItem.key T visible) (htag : site.Tagged visible seen)
    (hk : kept.Pairwise fun a b => b.key ≤ a.key) (hkT : ∀ it ∈ kept, T it)
    (hnext : ∀ x, T x → x ∈ visible ∨ x ∈ kept ∨ ∀ b ∈ kept, x.key < b.key) :
    Initial FeedItem.key T (absorb limit kept visible seen).1 ∧
      site.Tagged (absorb limit kept visible seen).1 (absorb limit kept visible seen).2 ∧
      (∀ x ∈ visible, x ∈ (absorb limit kept visible seen).1) ∧
      (∀ x ∈ (absorb limit kept visible seen).1, x ∈ visible ∨ x ∈ kept) ∧
      ((absorb limit kept visible seen).1.length ≤ limit → ∀ x ∈ kept, x ∈ (absorb limit kept visible seen).1) := by
  induction kept generalizing visible seen with
  | nil => exact ⟨hv, htag, fun x hx => hx, fun x hx => .inl hx, by simp⟩
  | cons it kept ih =>
    have hbelow := (List.pairwise_cons.1 hk).1
    have hit := hkT it List.mem_cons_self
    have hrest := fun x hx => hkT x (List.mem_cons_of_mem it hx)
    rw [absorb]
    by_cases hseen : (it.itemType, it.id) ∈ seen
    · rw [if_pos hseen]
      have hmem : it ∈ visible := (htag it (hT it hit)).1 hseen
      obtain ⟨h1, h2, h3, h4, h5⟩ := ih hv htag (List.pairwise_cons.1 hk).2 hrest (by
        intro x hx
        rcases hnext x hx with h | h | h
        · exact .inl h
        · rcases List.mem_cons.1 h with rfl | h
          · exact .inl hmem
          · exact .inr (.inl h)
        · exact .inr (.inr fun b hb => h b (List.mem_cons_of_mem _ hb)))
      refine ⟨h1, h2, h3, ?_, ?_⟩
      · intro x hx
        rcases h4 x hx with h | h
        · exact .inl h
        · exact .inr (List.mem_cons_of_mem _ h)
      · intro hlen x hx
        rcases List.mem_cons.1 hx with rfl | hx
        · exact h3 _ hmem
        · exact h5 hlen x hx
    · have hnew : it ∉ visible := fun h => hseen ((htag it (hT it hit)).2 h)
      have hv' : Initial FeedItem.key T (visible ++ [it]) := by
        apply hv.snoc (fun a b ha hb => key_inj (hT a ha) (hT b hb)) hit hnew
        intro b hb hlt
        rcases hnext b hb with h | h | h
        · exact h
        · rcases List.mem_cons.1 h with rfl | h
          · exact absurd hlt (lt_irrefl _)
          · exact absurd hlt (not_lt.2 (hbelow b h))
        · exact absurd (h it List.mem_cons_self) (not_lt.2 hlt.le)
      have htag' := htag.snoc (hT it hit)
      rw [if_neg hseen]
      by_cases hfull : limit < (visible ++ [it]).length
      · rw [if_pos hfull]
        refine ⟨hv', htag', fun x hx => List.mem_append_left _ hx, ?_, ?_⟩
        · intro x hx
          rcases List.mem_append.1 hx with h | h
          · exact .inl h
          · rw [List.mem_singleton.1 h]
            exact .inr List.mem_cons_self
        · intro hlen
          exact absurd hlen (not_le.2 hfull)
      · rw [if_neg hfull]
        obtain ⟨h1, h2, h3, h4, h5⟩ := ih hv' htag' (List.pairwise_cons.1 hk).2 hrest (by
          intro x hx
          rcases hnext x hx with h | h | h
          · exact .inl (List.mem_append_left _ h)
          · rcases List.mem_cons.1 h with rfl | h
            · exact .inl (List.mem_append_right _ (List.mem_singleton.2 rfl))
            · exact .inr (.inl h)
          · exact .inr (.inr fun b hb => h b (List.mem_cons_of_mem _ hb)))
        refine ⟨h1, h2, fun x hx => h3 x (List.mem_append_left _ hx), ?_, ?_⟩
        · intro x hx
          rcases h4 x hx with h | h
          · rcases List.mem_append.1 h with h | h
            · exact .inl h
            · rw [List.mem_singleton.1 h]
              exact .inr List.mem_cons_self
          · exact .inr (List.mem_cons_of_mem _ h)
        · intro hlen x hx
          rcases List.mem_cons.1 hx with rfl | hx
          · exact h3 _ (List.mem_append_right _ (List.mem_singleton.2 rfl))
          · exact h5 hlen x hx

/-! ## The loop -/

/-- what the local variables say between two rounds -/
structure Taken (site : Site) (C : List FeedItem) (before : Option Key) (limit : ℕ) (sc : Scan) : Prop where
  initial : Initial FeedItem.key (site.Due C before) sc.visible
  tagged : site.Tagged sc.visible sc.seen
  above : ∀ it ∈ sc.visible, ¬ Before FeedItem.key sc.scanAt it
  complete : sc.visible.length ≤ limit →
    ∀ it, site.Due C before it → ¬ Before FeedItem.key sc.scanAt it → it ∈ sc.visible
  place : (sc.hasCandidates = false ∧ sc.visible = [] ∧ sc.scanned = 0 ∧ sc.scanAt = before) ∨
    (sc.hasCandidates = true ∧
      ∃ a ∈ C, Before FeedItem.key before a ∧ sc.scanAt = some a.key ∧ sc.lastScanned = some a)
  scanned_le : sc.scanned ≤ maxScanned limit
  count : C.Nodup →
    sc.scanned = C.countP fun a => Before FeedItem.key before a ∧ ¬ Before FeedItem.key sc.scanAt a
  batch_pos : 0 < sc.batchSize

theorem Taken.before_of_scanAt {sc : Scan} (h : site.Taken C before limit sc) {a : FeedItem}
    (ha : Before FeedItem.key sc.scanAt a) : Before FeedItem.key before a := by
  rcases h.place with ⟨-, -, -, hat⟩ | ⟨-, b, -, hb, hat, -⟩
  · rwa [← hat]
  · intro k hk
    exact (ha b.key hat).trans (hb k hk)

/-- the rows scanned so far and those of the next batch -/
theorem countP_scanned {sc : Scan} (h : site.Taken C before limit sc) {z : FeedItem}
    (hz : Before FeedItem.key sc.scanAt z) :
    C.countP (fun a => Before FeedItem.key before a ∧ ¬ Before FeedItem.key (some z.key) a) =
      C.countP (fun a => Before FeedItem.key before a ∧ ¬ Before FeedItem.key sc.scanAt a) +
        C.countP fun a => Before FeedItem.key sc.scanAt a ∧ z.key ≤ a.key := by
  have hnew : ∀ a : FeedItem, ¬ Before FeedItem.key (some z.key) a ↔ z.key ≤ a.key := by
    intro a
    simp [Before]
  have hold : ∀ a : FeedItem, ¬ Before FeedItem.key sc.scanAt a → z.key ≤ a.key := by
    intro a ha
    by_contra hlt
    exact ha fun k hk => (not_le.1 hlt).trans (hz k hk)
  simp only [hnew]
  rw [List.countP_eq_countP_filter_add C _ fun a => decide (Before FeedItem.key sc.scanAt a), Nat.add_comm,
    List.countP_filter, List.countP_filter]
  congr 1
  · refine List.countP_congr fun a _ => ?_
    have := hold a
    simp only [Bool.and_eq_true, decide_eq_true_eq, Bool.not_eq_true', decide_eq_false_iff_not]
    tauto
  · refine List.countP_congr fun a _ => ?_
    have := h.before_of_scanAt (a := a)
    simp only [Bool.and_eq_true, decide_eq_true_eq]
    tauto

theorem scanBatch_step {sc : Scan} {size : ℕ} (hC : ∀ it ∈ C, site.Item it) (h : site.Taken C before limit sc)
    (hlimit : sc.visible.length ≤ limit) (hsize : size ≤ maxScanned limit - sc.scanned)
    (hne : page FeedItem.key sc.scanAt size C ≠ []) :
    site.Taken C before limit (site.scanBatch limit (page FeedItem.key sc.scanAt size C) sc) := by
  obtain ⟨z, hz⟩ : ∃ z, (page FeedItem.key sc.scanAt size C).getLast? = some z :=
    ⟨_, List.getLast?_eq_some_getLast hne⟩
  have hzmem := List.mem_of_getLast? hz
  obtain ⟨hzC, hzat⟩ := mem_page hzmem
  have hd : Distinct FeedItem.key C := distinct_of_items hC
  have hat : (site.scanBatch limit (page FeedItem.key sc.scanAt size C) sc).scanAt = some z.key := by
    simp [scanBatch, hz]
  have hnew : ∀ a : FeedItem, ¬ Before FeedItem.key (some z.key) a ↔ z.key ≤ a.key := by
    intro a
    simp [Before]
  obtain ⟨hinit, htag, hkeep, honly, hall⟩ := absorb_spec limit (T := site.Due C before)
    (site.filterHidden (page FeedItem.key sc.scanAt size C)) (fun it hit => hC it hit.1) h.initial h.tagged
    (pairwise_page.sublist List.filter_sublist) (by
      intro it hit
      obtain ⟨hpage, hvis⟩ := mem_filterHidden.1 hit
      exact ⟨(mem_page hpage).1, hvis, h.before_of_scanAt (mem_page hpage).2⟩) (by
      intro x hx
      by_cases hxat : Before FeedItem.key sc.scanAt x
      · by_cases hxpage : x ∈ page FeedItem.key sc.scanAt size C
        · exact .inr (.inl (mem_filterHidden.2 ⟨hxpage, hx.2.1⟩))
        · refine .inr (.inr fun b hb => ?_)
          by_contra hle
          exact hxpage (mem_page_of_le hd hx.1 hxat (mem_filterHidden.1 hb).1 (not_lt.1 hle))
      · exact .inl (h.complete hlimit x hx hxat))
  refine ⟨hinit, htag, ?_, ?_, ?_, ?_, ?_, h.batch_pos⟩
  · intro it hit
    rw [hat, hnew]
    rcases honly it hit with hold | hkept
    · by_contra hlt
      exact h.above it hold fun k hk => (not_le.1 hlt).trans (hzat k hk)
    · exact last_le pairwise_page hz (mem_filterHidden.1 hkept).1
  · intro hlen it hit hpast
    rw [hat, hnew] at hpast
    by_cases hitat : Before FeedItem.key sc.scanAt it
    · exact hall hlen it (mem_filterHidden.2 ⟨mem_page_of_le hd hit.1 hitat hzmem hpast, hit.2.1⟩)
    · exact hkeep it (h.complete hlimit it hit hitat)
  · exact .inr ⟨rfl, z, hzC, h.before_of_scanAt hzat, hat, hz⟩
  · have hlen : (page FeedItem.key sc.scanAt size C).length ≤ size := List.length_take_le _ _
    have := h.scanned_le
    simp only [scanBatch]
    omega
  · intro hnodup
    rw [hat, countP_scanned h hzat, ← h.count hnodup, countP_page hnodup hd hz]
    rfl

/-- how the loop ends -/
structure Collected (site : Site) (C : List FeedItem) (before : Option Key) (limit : ℕ) (sc : Scan) : Prop
    extends site.Taken C before limit sc where
  ended : sc.visible.length ≤ limit → sc.scanned < maxScanned limit → ∀ it ∈ C, ¬ Before FeedItem.key sc.scanAt it

/-- induction on the fuel: each round that goes on has scanned an item -/
theorem collectLoop_spec {fetch : Fetch} (hC : ∀ it ∈ C, site.Item it) (hf : Fetches fetch C) {fuel : ℕ} {sc : Scan}
    (h : site.Taken C before limit sc) (hfuel : maxScanned limit - sc.scanned < fuel) :
    site.Collected C before limit (site.collectLoop fetch limit (maxScanned limit) fuel sc) := by
  induction fuel generalizing sc with
  | zero => omega
  | succ fuel ih =>
    rw [collectLoop]
    by_cases hgo : sc.visible.length ≤ limit ∧ sc.scanned < maxScanned limit
    · rw [if_pos hgo]
      generalize hsize : min sc.batchSize (maxScanned limit - sc.scanned) = size
      have hpos : 0 < size := by
        have := h.batch_pos
        omega
      have hlength := hf.length sc.scanAt size
      dsimp only
      by_cases hnil : fetch sc.scanAt size = []
      · rw [if_pos hnil]
        refine ⟨h, fun _ _ => (page_eq_nil hpos).1 ?_⟩
        rw [← hf.batch, hnil]
        exact List.take_nil
      · rw [if_neg hnil, hf.batch]
        have hne : page FeedItem.key sc.scanAt size C ≠ [] := by
          rw [← hf.batch, ← List.length_pos_iff, List.length_take, length_desc]
          have := List.length_pos_iff.2 hnil
          omega
        have hstep := scanBatch_step hC h hgo.1 (hsize ▸ min_le_right _ _) hne
        by_cases hshort : (fetch sc.scanAt size).length < size
        · rw [if_pos hshort]
          refine ⟨hstep, fun _ _ it hit => ?_⟩
          -- the batch is all that was left
          intro hitat
          obtain ⟨z, hz⟩ : ∃ z, (page FeedItem.key sc.scanAt size C).getLast? = some z :=
            ⟨_, List.getLast?_eq_some_getLast hne⟩
          have hold : Before FeedItem.key sc.scanAt it := by
            intro k hk
            refine (hitat z.key (by simp [scanBatch, hz])).trans ((mem_page (List.mem_of_getLast? hz)).2 k hk)
          have hmem : it ∈ page FeedItem.key sc.scanAt size C := by
            apply mem_page_of_short _ hit hold
            rw [length_page]
            omega
          exact absurd (hitat z.key (by simp [scanBatch, hz])) (not_lt.2 (last_le pairwise_page hz hmem))
        · rw [if_neg hshort]
          apply ih
          · exact ⟨hstep.initial, hstep.tagged, hstep.above, hstep.complete, hstep.place, hstep.scanned_le, hstep.count,
              lt_min (Nat.mul_pos hstep.batch_pos (by decide)) (by decide)⟩
          · have := List.length_pos_iff.2 hne
            simp only [scanBatch]
            omega
    · rw [if_neg hgo]
      refine ⟨h, fun hlen hlt => absurd ⟨hlen, hlt⟩ hgo⟩

theorem collect_spec {fetch : Fetch} (hC : ∀ it ∈ C, site.Item it) (hf : Fetches fetch C) (before : Option Key)
    (limit : ℕ) : site.Collected C before limit (site.collect fetch before limit) := by
  apply collectLoop_spec hC hf
  · refine ⟨.nil, ?_, by simp, ?_, .inl ⟨rfl, rfl, rfl, rfl⟩, Nat.zero_le _, ?_, Nat.succ_pos _⟩
    · intro it _
      simp
    · intro _ it hit hpast
      exact absurd hit.2.2 hpast
    · intro _
      symm
      simp
  · exact Nat.lt_succ_of_le (Nat.sub_le _ _)

/-! ## The page -/

/-- the rows that a timeline of the rows `C` shows -/
def Shown (site : Site) (C : List FeedItem) (it : FeedItem) : Prop := it ∈ C ∧ site.Visible it

variable {γ : Type} (K : Codec γ Key)

theorem finishPage_of_le {visible : List FeedItem} (h : visible.length ≤ limit) (continuation : Option Key) :
    finishPage K limit visible continuation = ⟨visible, continuation.map K.encode⟩ := by
  simp only [finishPage, List.take_of_length_le h, if_neg (not_lt.2 h)]
  split <;> simp_all

theorem continuation_of_collected {sc : Scan} (h : site.Collected C before limit sc) (hlen : sc.visible.length ≤ limit) :
    PageOk FeedItem.key C (site.Shown C) before sc.visible (continuation limit sc) := by
  by_cases hmax : maxScanned limit ≤ sc.scanned
  · rcases h.place with ⟨-, -, hzero, -⟩ | ⟨-, a, haC, hac, hat, hlast⟩
    · have : 200 ≤ maxScanned limit := le_max_left _ _
      omega
    · have hcont : continuation limit sc = some a.key := by
        rw [continuation, if_pos ⟨hmax, hlen⟩, hlast]
        rfl
      rw [hcont]
      have hpast : ∀ it : FeedItem, ¬ Before FeedItem.key sc.scanAt it ↔ a.key ≤ it.key := by
        intro it
        simp [Before, hat]
      refine ⟨h.initial.strict, fun it => ?_, fun k hk => ⟨a, haC, hac, Option.some.inj hk⟩⟩
      constructor
      · intro hit
        have hdue := h.initial.sound it hit
        refine ⟨⟨hdue.1, hdue.2.1⟩, hdue.2.2, fun k hk => ?_⟩
        rw [← Option.some.inj hk]
        exact (hpast it).1 (h.above it hit)
      · rintro ⟨⟨hitC, hvis⟩, hbefore, hk⟩
        exact h.complete hlen it ⟨hitC, hvis, hbefore⟩ ((hpast it).2 (hk a.key rfl))
  · have hcont : continuation limit sc = none := if_neg fun hboth => hmax hboth.1
    rw [hcont]
    have hall := h.ended hlen (not_le.1 hmax)
    refine ⟨h.initial.strict, fun it => ?_, fun k hk => absurd hk (by simp)⟩
    constructor
    · intro hit
      have hdue := h.initial.sound it hit
      exact ⟨⟨hdue.1, hdue.2.1⟩, hdue.2.2, fun k hk => absurd hk (by simp)⟩
    · rintro ⟨⟨hitC, hvis⟩, hbefore, -⟩
      exact h.complete hlen it ⟨hitC, hvis, hbefore⟩ (hall it hitC)

/-- **One page.** It holds the visible rows after its cursor down to the next one. -/
theorem finishPage_ok {sc : Scan} (h : site.Collected C before limit sc) (hlimit : 1 ≤ limit) :
    ∃ next, PageOk FeedItem.key C (site.Shown C) before
        (finishPage K limit sc.visible (continuation limit sc)).items next ∧
      (finishPage K limit sc.visible (continuation limit sc)).nextCursor = next.map K.encode := by
  by_cases hlen : sc.visible.length ≤ limit
  · rw [finishPage_of_le K hlen]
    exact ⟨_, continuation_of_collected h hlen, rfl⟩
  · have hlong := not_le.1 hlen
    have hne : sc.visible.take limit ≠ [] := by
      rw [← List.length_pos_iff, List.length_take]
      omega
    obtain ⟨z, hz⟩ : ∃ z, (sc.visible.take limit).getLast? = some z := ⟨_, List.getLast?_eq_some_getLast hne⟩
    have hzmem := List.mem_of_getLast? hz
    have hpart := h.initial.take limit
    have hzdue := hpart.sound z hzmem
    refine ⟨some z.key, ?_, ?_⟩
    · simp only [finishPage, if_neg hne, if_pos hlong]
      refine ⟨hpart.strict, fun it => ?_, fun k hk => ⟨z, hzdue.1, hzdue.2.2, Option.some.inj hk⟩⟩
      constructor
      · intro hit
        have hdue := hpart.sound it hit
        refine ⟨⟨hdue.1, hdue.2.1⟩, hdue.2.2, fun k hk => ?_⟩
        rw [← Option.some.inj hk]
        exact last_le (hpart.strict.imp le_of_lt) hz hit
      · rintro ⟨⟨hitC, hvis⟩, hbefore, hk⟩
        exact hpart.upper it ⟨hitC, hvis, hbefore⟩ z hzmem (hk z.key rfl)
    · simp [finishPage, hne, hlong, hz]

theorem hasCandidates_eq_false {sc : Scan} (h : site.Collected C before limit sc) :
    sc.hasCandidates = false ↔ ∀ it ∈ C, ¬ Before FeedItem.key before it := by
  rcases h.place with ⟨hhas, hnil, hzero, hat⟩ | ⟨hhas, a, haC, hac, -, -⟩
  · have hall := h.ended (by simp [hnil]) (by
      rw [hzero]
      exact lt_of_lt_of_le (by decide) (le_max_left 200 _))
    rw [hat] at hall
    simp only [hhas, true_iff]
    exact hall
  · simp only [hhas, Bool.true_eq_false, false_iff]
    intro hall
    exact hall a haC hac

end Site

end LkmService.Feed
