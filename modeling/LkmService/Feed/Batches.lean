/-
Fan-out catches up: what a batch does when it runs alone, and the verdict on whole runs.

- `Moved`: the new watermark of a source lies no lower than the old one, and either nothing is left after it or an item
  that was left no longer is.
- `fanout_solo`: run alone, a batch meets the condition on the commits and moves every source.
- `rest`, `rest_of_moved`: the items that a source has still to read become fewer until there are none.
- `fanout_skips_nothing`: in a run whose commits meet the condition, once the transactions have ended and as many batches
  have run as there are items, each published item has exactly one row for each user of its audience.
- `late_commit_skipped`: an item that is committed late is skipped.
-/
import Mathlib.Data.Set.Card
import Mathlib.Order.Interval.Finset.Nat
import LkmService.Lib.Solo
import LkmService.Feed.Watermark

namespace LkmService.Feed.Watermark

open Session Sql Keyset Tbl

variable {F : Dim → ℕ → Option Follow} {cap limit i j n m u : ℕ} {o o' : Held} {σ σ₀ τ : State} {it a b : FeedItem}
  {s : Source} {now : Source → ℕ} {st : FeedFanoutState}

/-! ## Items after a watermark -/

theorem beyond_iff_key {last : FeedItem} (ht : st.lastCreatedAt = last.createdAt) (hid : st.lastId = some last.id) :
    Beyond st it ↔ last.key < it.key := by
  simp [Beyond, hid, ht, FeedItem.key, Prod.Lex.toLex_lt_toLex]

/-- what comes after an item that is beyond the watermark is beyond it too -/
theorem beyond_of_lt (h : Beyond st a) (hab : a.key < b.key) : Beyond st b := by
  simp only [FeedItem.key, Prod.Lex.toLex_lt_toLex] at hab
  rcases hid : st.lastId with _ | id <;> simp only [Beyond, hid] at h ⊢ <;> omega

/-- the first items in ascending order are a page in the order turned round -/
theorem take_ascending (items : List FeedItem) (limit : ℕ) :
    (ascending items).take limit = page (fun it : FeedItem => OrderDual.toDual it.key) none limit items := by
  rw [page, after, List.filter_eq_self.2]
  · rfl
  · intro it _
    simp [Before]

/-! ## A batch that runs alone -/

/-- a published item of the source -/
def Published (σ : State) (s : Source) (it : FeedItem) : Prop :=
  it.itemType = s ∧ ∃ m c, σ.com content m = some c ∧ c.published = true ∧ c.item = it

/-- no watermark of the source has reached the item -/
def Left (σ : State) (s : Source) (it : FeedItem) : Prop :=
  Published σ s it ∧ ∀ n st, σ.com fanoutState n = some st → st.source = s → Beyond st it

structure Moved (σ₀ : State) (st : FeedFanoutState) : Prop where
  forward : ∀ it, Published σ₀ st.source it → Beyond st it → Left σ₀ st.source it
  progress : (∀ it, Published σ₀ st.source it → ¬ Beyond st it) ∨
    ∃ it, Left σ₀ st.source it ∧ ¬ Beyond st it

/-- what a batch has written by itself: watermarks of the sources `ws`, those of `ps` moved -/
structure Advanced (σ₀ : State) (ws ps : List Source) (o : Held) (σ : State) : Prop where
  com : σ.com = σ₀.com
  noContent : NoContent o
  state : ∀ n v, o.row fanoutState n = some v → ∃ st, v = some st ∧ st.source ∈ ws ∧
    (∀ st', σ₀.com fanoutState n = some st' → st'.source = st.source) ∧
    ∀ it, Published σ₀ it.itemType it → Passed st it →
      (∃ st', σ₀.com fanoutState n = some st' ∧ Passed st' it) ∨ it ∈ st.fetched
  moved : ∀ s ∈ ps, ∃ n st, o.view σ fanoutState n = some st ∧ st.source = s ∧ Moved σ₀ st

/-- only the watermarks that the session owns matter -/
theorem Advanced.congr {ws ps : List Source} (h : Advanced σ₀ ws ps o σ) (hcom : τ.com = σ.com)
    (hcontent : o'.row content = o.row content) (hstate : o'.row fanoutState = o.row fanoutState) :
    Advanced σ₀ ws ps o' τ := by
  refine ⟨hcom.trans h.com, ?_, ?_, ?_⟩
  · intro m
    rw [hcontent]
    exact h.noContent m
  · rw [hstate]
    exact h.state
  · intro s hs
    obtain ⟨n, st, hv, hrest⟩ := h.moved s hs
    refine ⟨n, st, ?_, hrest⟩
    rw [Own.view, hstate, hcom]
    exact hv

variable {D : Discipline Row Index (Discipline.NoFx Unit) Unit} {ws ps : List Source}

theorem solo_insertRows {row : ℕ → FeedItemMaterialized} {uids : List ℕ} (h : Advanced σ₀ ws ps o σ) :
    D.solo i (insertRows row uids) (Discipline.Answers fun _ o' τ => Advanced σ₀ ws ps o' τ ∧
      o'.row fanoutState = o.row fanoutState) o σ := by
  induction uids generalizing o σ with
  | nil => exact Discipline.solo_return ⟨h, rfl⟩
  | cons uid uids ih =>
    refine Discipline.solo_seq (P := fun _ o' τ => Advanced σ₀ ws ps o' τ ∧ o'.row fanoutState = o.row fanoutState) ?_ ?_
    · unfold insertRow
      refine Discipline.solo_insertEntry (fun _ _ _ => ⟨h, rfl⟩) ?_
      intro _ _
      have hsame : ∀ t, t ≠ feedItems → ((o.put feedItems (σ.next feedItems) (some (row uid))).take
          (.feedItem (row uid).userId (row uid).item.itemType (row uid).item.id)).row t = o.row t :=
        fun t ht => Own.put_row_other _ _ _ ht
      exact ⟨h.congr rfl (hsame _ (by simp)) (hsame _ (by simp)), hsame _ (by simp)⟩
    · intro _ o₁ σ₁ ⟨h₁, hst⟩
      refine Discipline.solo_mono (ih h₁) ?_
      intro r o₂ σ₂ hr
      cases r with
      | ok a => exact ⟨hr.1, hr.2.trans hst⟩
      | error e => exact hr.elim

theorem solo_audience {d : Dim} {P : List ℕ → Held → State → Prop} (h : ∀ ids, P ids o σ) :
    D.solo i (audience cap d it) (Discipline.Answers P) o σ := by
  unfold audience
  split
  · exact Discipline.solo_return (h _)
  · unfold listFollowerIds
    refine Discipline.solo_seq (P := fun _ o' τ => o = o' ∧ σ = τ) ?_ ?_
    · refine Discipline.solo_seq (Discipline.solo_select (P := fun _ o' τ => o = o' ∧ σ = τ) fun _ _ _ => ⟨rfl, rfl⟩) ?_
      rintro l _ _ ⟨rfl, rfl⟩
      exact Discipline.solo_return ⟨rfl, rfl⟩
    · rintro ids _ _ ⟨rfl, rfl⟩
      exact Discipline.solo_return (h _)

theorem solo_fanoutItems {its : List FeedItem} (h : Advanced σ₀ ws ps o σ) :
    D.solo i (fanoutItems cap its) (Discipline.Answers fun _ o' τ => Advanced σ₀ ws ps o' τ ∧
      o'.row fanoutState = o.row fanoutState) o σ := by
  induction its generalizing o σ with
  | nil => exact Discipline.solo_return ⟨h, rfl⟩
  | cons it its ih =>
    refine Discipline.solo_seq (P := fun _ o' τ => Advanced σ₀ ws ps o' τ ∧ o'.row fanoutState = o.row fanoutState) ?_ ?_
    · unfold fanoutItem
      split_ifs
      · exact Discipline.solo_return ⟨h, rfl⟩
      · refine Discipline.solo_seq (solo_audience (P := fun _ o' τ => o = o' ∧ σ = τ) fun _ => ⟨rfl, rfl⟩) ?_
        rintro authors _ _ ⟨rfl, rfl⟩
        refine Discipline.solo_seq (solo_audience (P := fun _ o' τ => o = o' ∧ σ = τ) fun _ => ⟨rfl, rfl⟩) ?_
        rintro boards _ _ ⟨rfl, rfl⟩
        exact solo_insertRows h
    · intro _ o₁ σ₁ ⟨h₁, hst⟩
      refine Discipline.solo_mono (ih h₁) ?_
      intro r o₂ σ₂ hr
      cases r with
      | ok a => exact ⟨hr.1, hr.2.trans hst⟩
      | error e => exact hr.elim

/-- the watermark of a source that the batch works on: the committed one, or a new one that nothing has passed -/
structure Loaded (σ₀ : State) (ps : List Source) (s : Source) (n : ℕ) (st : FeedFanoutState) (o : Held) (σ : State) :
    Prop where
  advanced : Advanced σ₀ (s :: ps) ps o σ
  view : o.view σ fanoutState n = some st
  source : st.source = s
  base : ∀ it, Published σ₀ s it → Beyond st it → Left σ₀ s it
  old : σ₀.com fanoutState n = some st ∨
    (σ₀.com fanoutState n = none ∧ st.lastId = none ∧ st.lastCreatedAt = st.since)

theorem Loaded.congr (h : Loaded σ₀ ps s n st o σ) (ha : Advanced σ₀ (s :: ps) ps o' τ)
    (hstate : o'.row fanoutState = o.row fanoutState) : Loaded σ₀ ps s n st o' τ := by
  refine ⟨ha, ?_, h.source, h.base, h.old⟩
  rw [Own.view, hstate, ha.com, ← h.advanced.com]
  exact h.view

theorem Advanced.mono (h : Advanced σ₀ ws ps o σ) {ws' : List Source} (hw : ∀ s ∈ ws, s ∈ ws') :
    Advanced σ₀ ws' ps o σ := by
  refine ⟨h.com, h.noContent, ?_, h.moved⟩
  intro n v hv
  obtain ⟨st, rfl, hs, hrest⟩ := h.state n v hv
  exact ⟨st, rfl, hw _ hs, hrest⟩

variable (n st) in
/-- a batch writes the watermark of one more source -/
theorem Advanced.put (h : Advanced σ₀ ws ps o σ) (hs : st.source ∈ ws) (hcom : τ.com = σ.com)
    (hcontent : o'.row content = o.row content)
    (hrow : o'.row fanoutState = (o.put fanoutState n (some st)).row fanoutState)
    (hold : ∀ st', σ₀.com fanoutState n = some st' → st'.source = st.source)
    (hread : ∀ it, Published σ₀ it.itemType it → Passed st it →
      (∃ st', σ₀.com fanoutState n = some st' ∧ Passed st' it) ∨ it ∈ st.fetched)
    (hother : ∀ st', o.view σ fanoutState n = some st' → st'.source ∉ ps) : Advanced σ₀ ws ps o' τ := by
  refine ⟨hcom.trans h.com, ?_, ?_, ?_⟩
  · intro m
    rw [hcontent]
    exact h.noContent m
  · intro m v hv
    rw [hrow, Own.put_row_same] at hv
    split_ifs at hv with hm
    · subst hm
      exact ⟨st, (Option.some.inj hv).symm, hs, hold, hread⟩
    · exact h.state m v hv
  · intro s hs
    obtain ⟨m, st', hv, hsource, hmoved⟩ := h.moved s hs
    refine ⟨m, st', ?_, hsource, hmoved⟩
    have hm : m ≠ n := by
      rintro rfl
      exact hother st' hv (hsource ▸ hs)
    rw [Own.view, hrow, Own.put_row_of_ne _ _ _ fun _ => hm, hcom]
    exact hv

theorem solo_loadState {now : ℕ} (hu : Sql.Unique index σ₀) (h : Advanced σ₀ ps ps o σ) (hs : s ∉ ps) :
    D.solo i (loadState s now) (Discipline.Answers fun q o' τ => Loaded σ₀ ps s q.1 q.2 o' τ) o σ := by
  have hmono : Advanced σ₀ (s :: ps) ps o σ := h.mono fun _ hs => List.mem_cons_of_mem _ hs
  unfold loadState
  refine Discipline.solo_seq (Discipline.solo_select (P := fun l o' τ => o = o' ∧ σ = τ ∧ ∀ n r, (n, r) ∈ l ↔
    o.view σ fanoutState n = some r ∧ r.source = s) fun _ l hl => ⟨rfl, rfl, by simpa using hl⟩) ?_
  rintro l _ _ ⟨rfl, rfl, hl⟩
  -- a row of the source in sight is committed
  have hcommitted : ∀ n st, o.view σ fanoutState n = some st → st.source = s → σ₀.com fanoutState n = some st := by
    intro n st hv hsource
    rcases Snap.merge_cases hv with ho | ⟨-, hc⟩
    · obtain ⟨st', heq, hmem, -⟩ := h.state n _ ho
      obtain rfl := Option.some.inj heq
      exact absurd (hsource ▸ hmem) hs
    · rwa [h.com] at hc
  cases hhead : l.head? with
  | some q =>
    obtain ⟨hv, hsource⟩ := (hl q.1 q.2).1 (List.mem_of_head? hhead)
    have hcom := hcommitted q.1 q.2 hv hsource
    refine Discipline.solo_return ⟨hmono, hv, hsource, ?_, .inl hcom⟩
    intro it hpub hbeyond
    refine ⟨hpub, fun n st hst hst' => ?_⟩
    obtain rfl : n = q.1 := hu fanoutState n q.1 st q.2 (.state s) hst hcom (by simp [index, hst'])
      (by simp [index, hsource])
    rw [hcom] at hst
    exact Option.some.inj hst ▸ hbeyond
  | none =>
    have hnone : ∀ n st, o.view σ fanoutState n = some st → st.source ≠ s := by
      intro n st hv hsource
      have hmem := (hl n st).2 ⟨hv, hsource⟩
      rw [List.head?_eq_none_iff.1 hhead] at hmem
      cases hmem
    refine Discipline.solo_seq (P := fun n o' τ => Loaded σ₀ ps s n { source := s, lastCreatedAt := now, since := now }
      o' τ) ?_ fun _ _ _ h' => Discipline.solo_return h'
    unfold create insertRow
    refine Discipline.solo_seq (P := fun q o' τ => ∃ n, q = some n ∧
      Loaded σ₀ ps s n { source := s, lastCreatedAt := now, since := now } o' τ) ?_ ?_
    · refine Discipline.solo_insertEntry ?_ ?_
      · rintro _ m ⟨r, hr, hk⟩
        exact absurd (by simpa [index] using hk) (hnone m r hr)
      · intro hf _
        have hcontent : ∀ w : Option (Row fanoutState),
            ((o.put fanoutState (σ.next fanoutState) w).take (.state s)).row content = o.row content := by
          intro w
          rw [Own.take_row, Own.put_row_other _ _ _ (by decide)]
        refine ⟨_, rfl, ⟨hmono.put (σ.next fanoutState)
          { source := s, lastCreatedAt := now, since := now } List.mem_cons_self rfl ?_ rfl ?_ ?_ ?_, ?_, rfl,
          ?_, .inr ⟨?_, rfl, rfl⟩⟩⟩
        · exact hcontent _
        · intro st' hst'
          rw [← h.com, (hf fanoutState _ le_rfl).1] at hst'
          cases hst'
        · intro it _ hpass
          exact absurd hpass.2.1 hpass.2.2
        · intro st' hv
          rw [Own.view, (hf fanoutState _ le_rfl).2, Option.getD_none, (hf fanoutState _ le_rfl).1] at hv
          cases hv
        · rw [Own.view, Own.take_row, Own.put_row_self]
          rfl
        · intro it hpub _
          refine ⟨hpub, fun n st hst hsource => ?_⟩
          rcases ho : o.row fanoutState n with _ | v
          · exact absurd hsource (hnone n st (by rw [Own.view_of_none ho, h.com]; exact hst))
          · obtain ⟨st', rfl, hmem, hold, -⟩ := h.state n v ho
            rw [← hold st hst, hsource] at hmem
            exact absurd hmem hs
        · rw [← h.com]
          exact (hf fanoutState _ le_rfl).1
    · rintro _ o' τ ⟨n, rfl, hload⟩
      exact Discipline.solo_return hload

/-- the items that the statement reads -/
theorem solo_fetchAfter (h : Loaded σ₀ ps s n st o σ) : D.solo i (fetchAfter s st limit)
    (Discipline.Answers fun items o' τ => Loaded σ₀ ps s n st o' τ ∧
      ∃ l : List FeedItem, items = (ascending l).take limit ∧ ∀ it, it ∈ l ↔ Published σ₀ s it ∧ Beyond st it) o σ := by
  unfold fetchAfter
  refine Discipline.solo_seq (Discipline.solo_select (P := fun l o' τ => o = o' ∧ σ = τ ∧ ∀ m c, (m, c) ∈ l ↔
    o.view σ content m = some c ∧ c.published = true ∧ c.item.itemType = s ∧ Beyond st c.item) fun _ l hl =>
      ⟨rfl, rfl, by simpa using hl⟩) ?_
  rintro l _ _ ⟨rfl, rfl, hl⟩
  refine Discipline.solo_return ⟨h, _, rfl, ?_⟩
  intro it
  rw [List.mem_map]
  constructor
  · rintro ⟨q, hq, rfl⟩
    obtain ⟨hv, hpub, hs, hbeyond⟩ := (hl q.1 q.2).1 hq
    rw [Own.view_of_none (h.advanced.noContent q.1), h.advanced.com] at hv
    exact ⟨⟨hs, q.1, q.2, hv, hpub, rfl⟩, hbeyond⟩
  · rintro ⟨⟨hs, m, c, hc, hpub, rfl⟩, hbeyond⟩
    refine ⟨(m, c), (hl m c).2 ⟨?_, hpub, hs, hbeyond⟩, rfl⟩
    rw [Own.view_of_none (h.advanced.noContent m), h.advanced.com]
    exact hc

/-- two items of a source with the same key are one row -/
theorem published_inj (hu : Sql.Unique index σ₀) (ha : Published σ₀ s a) (hb : Published σ₀ s b)
    (h : a.key = b.key) : a = b := by
  obtain ⟨hsa, m, c, hc, -, rfl⟩ := ha
  obtain ⟨hsb, m', c', hc', -, rfl⟩ := hb
  have hid : c.item.id = c'.item.id := by
    simp only [FeedItem.key, EmbeddingLike.apply_eq_iff_eq, Prod.mk.injEq] at h
    exact h.2
  obtain rfl := hu content m m' c c' (.content s c.item.id) hc hc' (by simp [index, hsa])
    (by simp [index, hsb, hid])
  rw [hc] at hc'
  rw [Option.some.inj hc']

/-- one source of a batch -/
theorem solo_source (cap now : ℕ) {f₀ : Op ℕ} {f : ℕ → Op ℕ} {k : ℕ × FeedFanoutState → List FeedItem → Op ℕ} {Q : Except Exn ℕ → Held → State → Prop}
    (hu : Sql.Unique index σ₀) (hlimit : 1 ≤ limit) (h : Advanced σ₀ ps ps o σ) (hs : s ∉ ps)
    (hnone : ∀ q items, items.getLast? = none → k q items = f₀)
    (hsome : ∀ q items last, items.getLast? = some last → k q items = do
      fanoutItems cap items
      update fanoutState q.1 fun r =>
        { r with
          lastCreatedAt := last.createdAt
          lastId := some last.id
          fetched := items }
      f items.length)
    (hf₀ : ∀ o' τ, Advanced σ₀ (s :: ps) (s :: ps) o' τ → D.solo i f₀ Q o' τ)
    (hf : ∀ k o' τ, Advanced σ₀ (s :: ps) (s :: ps) o' τ → D.solo i (f k) Q o' τ) :
    D.solo i (loadState s now >>= fun q => fetchAfter s q.2 limit >>= k q) Q o σ := by
  refine Discipline.solo_seq (solo_loadState hu h hs) ?_
  rintro ⟨n, st⟩ o₁ σ₁ h₁
  dsimp only at h₁ ⊢
  refine Discipline.solo_seq (solo_fetchAfter h₁) ?_
  rintro _ o₂ σ₂ ⟨h₂, l, rfl, hl⟩
  have hpage := take_ascending l limit
  have hdistinct : Distinct (fun it : FeedItem => OrderDual.toDual it.key) l := by
    intro a ha b hb hab
    exact published_inj hu ((hl a).1 ha).1 ((hl b).1 hb).1 (OrderDual.toDual.injective hab)
  cases hlast : ((ascending l).take limit).getLast? with
  | none =>
    rw [hnone _ _ hlast]
    -- nothing is left after the watermark
    have hnil : l = [] := by
      rw [List.getLast?_eq_none_iff, hpage, page_eq_nil hlimit] at hlast
      rw [List.eq_nil_iff_forall_not_mem]
      intro a ha
      exact hlast a ha (by simp [Before])
    refine hf₀ o₂ σ₂ ?_
    refine ⟨h₂.advanced.com, h₂.advanced.noContent, h₂.advanced.state, ?_⟩
    intro s' hs'
    rcases List.mem_cons.1 hs' with rfl | hs'
    · refine ⟨n, st, h₂.view, h₂.source, ?_, .inl ?_⟩
      · rw [h₂.source]
        exact h₂.base
      · intro it hpub hbeyond
        have hmem := (hl it).2 ⟨h₂.source ▸ hpub, hbeyond⟩
        rw [hnil] at hmem
        cases hmem
    · exact h₂.advanced.moved s' hs'
  | some last =>
    rw [hsome _ _ _ hlast]
    have hmem : last ∈ (ascending l).take limit := List.mem_of_getLast? hlast
    have hlastl : last ∈ l := by
      rw [hpage] at hmem
      exact (mem_page hmem).1
    obtain ⟨hlastpub, hlastbeyond⟩ := (hl last).1 hlastl
    refine Discipline.solo_seq (solo_fanoutItems h₂.advanced) ?_
    rintro _ o₃ σ₃ ⟨h₃, hstate⟩
    have hloaded := h₂.congr h₃ hstate
    let st' : FeedFanoutState :=
      { st with
        lastCreatedAt := last.createdAt
        lastId := some last.id
        fetched := (ascending l).take limit }
    have hafter : ∀ it, Beyond st' it ↔ last.key < it.key := fun it => beyond_iff_key rfl rfl
    have hmoved : Moved σ₀ st' := by
      have hsource : st'.source = s := h₂.source
      refine ⟨?_, .inr ⟨last, ?_, ?_⟩⟩
      · rw [hsource]
        intro it hpub hbeyond
        exact h₂.base it hpub (beyond_of_lt hlastbeyond ((hafter it).1 hbeyond))
      · rw [hsource]
        exact h₂.base last hlastpub hlastbeyond
      · rw [hafter]
        exact lt_irrefl _
    refine Discipline.solo_seq (P := fun _ o' τ => Advanced σ₀ (s :: ps) (s :: ps) o' τ) ?_ fun _ o' τ h' => hf _ o' τ h'
    unfold update
    refine Discipline.solo_seq (Discipline.solo_updateRow hloaded.view rfl
      (P := fun r o' τ => r ≠ none ∧ Advanced σ₀ (s :: ps) (s :: ps) o' τ) ?_) ?_
    · intro _
      refine ⟨by simp, ?_⟩
      have hput : Advanced σ₀ (s :: ps) ps (o₃.put fanoutState n (some st')) σ₃ := by
        refine hloaded.advanced.put n st' ?_ rfl ?_ rfl ?_ ?_ ?_
        · rw [show st'.source = s from h₂.source]
          exact List.mem_cons_self
        · exact Own.put_row_other fanoutState n (some st') (show content ≠ fanoutState by decide)
        · intro st₀ hst₀
          rcases h₂.old with hc | ⟨hc, -⟩
          · rw [hc] at hst₀
            rw [← Option.some.inj hst₀]
          · rw [hc] at hst₀
            cases hst₀
        · intro it hpub hpass
          have hsource : it.itemType = s := hpass.1.trans h₂.source
          by_cases hbeyond : Beyond st it
          · -- the batch has read every item up to its last one
            refine .inr ?_
            change it ∈ (ascending l).take limit
            rw [hpage] at hmem ⊢
            refine mem_page_of_le hdistinct ((hl it).2 ⟨hsource ▸ hpub, hbeyond⟩) (by simp [Before]) hmem ?_
            exact not_lt.1 fun hlt => hpass.2.2 ((hafter it).2 hlt)
          · rcases h₂.old with hc | ⟨-, hid, hat⟩
            · exact .inl ⟨st, hc, hpass.1, hpass.2.1, hbeyond⟩
            · refine absurd ?_ hbeyond
              simp only [Beyond, hid, hat]
              exact hpass.2.1
        · intro st₀ hv
          rw [hloaded.view] at hv
          rw [← Option.some.inj hv, h₂.source]
          exact hs
      refine ⟨hput.com, hput.noContent, hput.state, ?_⟩
      intro s' hs'
      rcases List.mem_cons.1 hs' with rfl | hs'
      · refine ⟨n, st', ?_, h₂.source, hmoved⟩
        rw [Own.view, Own.put_row_self]
        rfl
      · exact hput.moved s' hs'
    · rintro r o₄ σ₄ ⟨hr, h₄⟩
      cases r with
      | none => exact absurd rfl hr
      | some _ => exact Discipline.solo_return h₄

theorem solo_fanoutSources (ss : List Source) (hu : Sql.Unique index σ₀) (hlimit : 1 ≤ limit) (hnodup : ss.Nodup)
    (hnew : ∀ s ∈ ss, s ∉ ps) (h : Advanced σ₀ ps ps o σ) :
    D.solo i (fanoutSources cap limit now ss) (Discipline.Answers fun _ o' τ =>
      ∃ qs, (∀ s, s ∈ ss ∨ s ∈ ps → s ∈ qs) ∧ Advanced σ₀ qs qs o' τ) o σ := by
  induction ss generalizing ps o σ with
  | nil => exact Discipline.solo_return ⟨ps, by simp, h⟩
  | cons s ss ih =>
    obtain ⟨hs, hnodup⟩ := List.nodup_cons.1 hnodup
    have hrest : ∀ o' τ, Advanced σ₀ (s :: ps) (s :: ps) o' τ →
        D.solo i (fanoutSources cap limit now ss) (Discipline.Answers fun _ o' τ =>
          ∃ qs, (∀ s', s' ∈ s :: ss ∨ s' ∈ ps → s' ∈ qs) ∧ Advanced σ₀ qs qs o' τ) o' τ := by
      intro o' τ h'
      refine Discipline.solo_mono (ih hnodup ?_ h') ?_
      · intro s' hs' hmem
        rcases List.mem_cons.1 hmem with rfl | hmem
        · exact hs hs'
        · exact hnew s' (List.mem_cons_of_mem _ hs') hmem
      · intro r o₁ τ₁ hr
        cases r with
        | ok a =>
          obtain ⟨qs, hqs, hq⟩ := hr
          refine ⟨qs, ?_, hq⟩
          intro s' hs'
          apply hqs
          simp only [List.mem_cons] at hs' ⊢
          tauto
        | error e => exact hr.elim
    refine solo_source cap (now s) (f := fun k : ℕ => (do
      let processed ← fanoutSources cap limit now ss
      pure (k + processed) : Op ℕ)) hu hlimit h (hnew s List.mem_cons_self) ?_ ?_ hrest ?_
    · intro q items hlast
      simp only [hlast]
    · intro q items last hlast
      simp only [hlast]
    intro k o' τ h'
    exact Discipline.solo_seq (hrest o' τ h') fun _ _ _ hq => Discipline.solo_return hq

variable (i now) in
/-- **A batch that runs alone.** It meets the condition on the commits, and every source has moved. -/
theorem fanout_solo (hi : Inv F cap σ₀) (hlimit : 1 ≤ limit) :
    (discipline F cap).solo i ((Job.fanout limit now).prog cap) (Discipline.Answers fun _ o τ => o = {} ∧
      τ.com content = σ₀.com content ∧
      ∀ s, ∃ n st, τ.com fanoutState n = some st ∧ st.source = s ∧ Moved σ₀ st) {} σ₀ := by
  have hstart : Advanced σ₀ [] [] ({} : Held) σ₀ := ⟨rfl, fun _ => rfl, fun _ _ h => by simp at h, by simp⟩
  refine Discipline.solo_transaction
    (solo_fanoutSources followSources hi.unique hlimit (by decide) (by simp) hstart) ?_
  intro _ o τ ⟨qs, hqs, h⟩
  refine ⟨⟨?_, ?_⟩, ?_, ?_⟩
  · intro m c hc
    rw [h.noContent m] at hc
    cases hc
  · intro n st hst m c hc hpub hpass
    rw [h.com] at hc ⊢
    obtain ⟨st', heq, -, -, hread⟩ := h.state n _ hst
    obtain rfl := Option.some.inj heq
    exact hread c.item ⟨rfl, m, c, hc, hpub, rfl⟩ hpass
  · funext m
    rw [Snap.merge_of_none (h.noContent m), h.com]
  · intro s
    obtain ⟨n, st, hv, hsource, hmoved⟩ := h.moved s (hqs s (.inl (by cases s <;> decide)))
    exact ⟨n, st, hv, hsource, hmoved⟩

/-! ## Until nothing is left -/

/-- the items that the watermark of the source has still to pass -/
def rest (σ : State) (s : Source) : Set FeedItem := {it | Left σ s it}

/-- there are no more of them than rows of content -/
theorem rest_bounded (hf : σ.Fresh ({} : Held)) (s : Source) : (rest σ s).Finite ∧ (rest σ s).ncard ≤ σ.next content := by
  have hsub : some '' rest σ s ⊆ (fun m => (σ.com content m).map Content.item) '' Set.Iio (σ.next content) := by
    rintro _ ⟨it, ⟨⟨-, m, c, hc, -, rfl⟩, -⟩, rfl⟩
    refine ⟨m, ?_, by simp [hc]⟩
    rw [Set.mem_Iio]
    by_contra hm
    rw [(hf content m (not_lt.1 hm)).1] at hc
    cases hc
  have hfin : ((fun m => (σ.com content m).map Content.item) '' Set.Iio (σ.next content)).Finite :=
    (Set.finite_Iio _).image _
  have hinj : Function.Injective (some : FeedItem → Option FeedItem) := Option.some_injective _
  refine ⟨Set.Finite.of_finite_image (hfin.subset hsub) hinj.injOn, ?_⟩
  calc (rest σ s).ncard = (some '' rest σ s).ncard := (Set.ncard_image_of_injective _ hinj).symm
    _ ≤ ((fun m => (σ.com content m).map Content.item) '' Set.Iio (σ.next content)).ncard :=
        Set.ncard_le_ncard hsub hfin
    _ ≤ (Set.Iio (σ.next content)).ncard := Set.ncard_image_le (Set.finite_Iio _)
    _ = σ.next content := by rw [← Finset.coe_Iio, Set.ncard_coe_finset, Nat.card_Iio]

/-- a batch makes them fewer, unless there are none -/
theorem rest_of_moved (hf : σ₀.Fresh ({} : Held)) (hcontent : τ.com content = σ₀.com content)
    (hst : τ.com fanoutState n = some st) (hm : Moved σ₀ st) :
    (rest τ st.source).ncard ≤ (rest σ₀ st.source).ncard - 1 := by
  have hpub : ∀ it, Published τ st.source it ↔ Published σ₀ st.source it := by
    intro it
    unfold Published
    rw [hcontent]
  have hsub : ∀ it ∈ rest τ st.source, it ∈ rest σ₀ st.source ∧ Beyond st it := by
    intro it ⟨hit, hleft⟩
    have hbeyond := hleft n st hst rfl
    exact ⟨hm.forward it ((hpub it).1 hit) hbeyond, hbeyond⟩
  rcases hm.progress with hnone | ⟨it, hit, hnot⟩
  · have hempty : rest τ st.source = ∅ := by
      apply Set.eq_empty_of_forall_notMem
      intro it hit
      exact hnone it ((hpub it).1 hit.1) (hsub it hit).2
    rw [hempty, Set.ncard_empty]
    exact Nat.zero_le _
  · have hlt : (rest τ st.source).ncard < (rest σ₀ st.source).ncard := by
      apply Set.ncard_lt_ncard
      · refine ⟨fun it' hit' => (hsub it' hit').1, fun hall => hnot ?_⟩
        exact (hsub it (hall hit)).2
      · exact (rest_bounded hf _).1
    omega

abbrev World := Session.World (Stmt Row Index (Discipline.NoFx Unit)) Store Exn ℕ

/-- batches that run one after the other, while nobody else owns anything -/
theorem run_batches {w : World} {js : List ℕ} (hs : (discipline F cap).protocol.Safe w) (hown : ∀ i, w.st.own i = {})
    (hnodup : js.Nodup)
    (hjobs : ∀ j ∈ js, ∃ limit now, 1 ≤ limit ∧ w.prog j = some ((Job.fanout limit now).prog cap)) :
    ∃ k₀, ∀ k, k₀ ≤ k → (discipline F cap).protocol.Safe (run w (js.flatMap (moves · k))) ∧
      (∀ i, (run w (js.flatMap (moves · k))).st.own i = {}) ∧
      (js ≠ [] → ∀ s, ∃ n st, (run w (js.flatMap (moves · k))).st.snap.com fanoutState n = some st ∧ st.source = s) ∧
      ∀ s, (rest (run w (js.flatMap (moves · k))).st.snap s).ncard ≤ (rest w.st.snap s).ncard - js.length := by
  induction js generalizing w with
  | nil => exact ⟨0, fun k _ => ⟨hs, hown, fun h => absurd rfl h, fun s => Nat.le_refl _⟩⟩
  | cons j js ih =>
    obtain ⟨hj, hnodup⟩ := List.nodup_cons.1 hnodup
    obtain ⟨limit, now, hlimit, hprog⟩ := hjobs j List.mem_cons_self
    have hsolo := fanout_solo j now hs.inv.1 hlimit w.st (hown j) rfl fun i _ => hown i
    obtain ⟨k₁, r, t, ⟨halone, hr⟩, hrun⟩ := Protocol.ends_run hsolo hprog
    obtain ⟨hrun₁, hlegal₁⟩ := hrun k₁ le_rfl
    have hs₁ := (discipline F cap).protocol.run_safe hs hlegal₁
    rw [hrun₁] at hs₁
    have hanswer : (t.own j : Held) = {} ∧ t.snap.com content = w.st.snap.com content ∧
        ∀ s, ∃ n st, t.snap.com fanoutState n = some st ∧ st.source = s ∧ Moved w.st.snap st := by
      cases r with
      | ok a => exact hr
      | error e => exact hr.elim
    obtain ⟨ht, hcontent, hmoved⟩ := hanswer
    have hown₁ : ∀ i, t.own i = {} := by
      intro i
      by_cases hi : i = j
      · rw [hi]
        exact ht
      · exact halone i hi
    obtain ⟨k₂, hrest⟩ := ih (w := ⟨t, Function.update w.prog j (some (.done r))⟩) hs₁ hown₁ hnodup (by
      intro j' hj'
      obtain ⟨limit', now', hlimit', hprog'⟩ := hjobs j' (List.mem_cons_of_mem _ hj')
      refine ⟨limit', now', hlimit', ?_⟩
      have hne : j' ≠ j := fun he => hj (he ▸ hj')
      exact (Function.update_of_ne hne _ _).trans hprog')
    refine ⟨max k₁ k₂, fun k hk => ?_⟩
    have hk₁ := (hrun k (le_trans (le_max_left _ _) hk)).1
    obtain ⟨hsafe, hquiet, hmark, hfew⟩ := hrest k (le_trans (le_max_right _ _) hk)
    rw [List.flatMap_cons, run_append, hk₁]
    refine ⟨hsafe, hquiet, ?_, ?_⟩
    · intro _ s
      cases js with
      | nil =>
        obtain ⟨n, st, hst, hsource, -⟩ := hmoved s
        exact ⟨n, st, hst, hsource⟩
      | cons j' js' => exact hmark (List.cons_ne_nil _ _) s
    · intro s
      have hone : (rest t.snap s).ncard ≤ (rest w.st.snap s).ncard - 1 := by
        obtain ⟨n, st, hst, rfl, hm⟩ := hmoved s
        have hfresh : w.st.snap.Fresh ({} : Held) := hown j ▸ Discipline.fresh_own j w.st
        exact rest_of_moved hfresh hcontent hst hm
      have := hfew s
      rw [List.length_cons]
      change (rest t.snap s).ncard ≤ _ at hone
      have hfew' : (rest (run (⟨t, Function.update w.prog j (some (.done r))⟩ : World)
          (js.flatMap (moves · k))).st.snap s).ncard ≤ (rest t.snap s).ncard - js.length := hfew s
      omega

/-! ## Whole runs -/

/-- the follows at the beginning of a run -/
def followsOf (d : Store) : Dim → ℕ → Option Follow := fun x => d.snap.com (follows x)

/-- a run may begin here -/
structure Starts (cap : ℕ) (d : Store) : Prop where
  inv : Inv (followsOf d) cap d.snap
  own : ∀ i, d.own i = {}

def init (cap : ℕ) (d : Store) (jobs : ℕ → Job) : World := start d fun i => (jobs i).prog cap

/-- the move is no commit, or one that meets `CommitOk` -/
def CommitsInStep (w : World) (m : Move) : Prop :=
  ∀ i, m = .run i → Discipline.committing w i = true → CommitOk (w.st.own i) w.st.snap

/-- every source has a watermark, and every published item that was created after the watermark began has exactly one row
for each follower of its author or board under the cap -/
def Delivered (F : Dim → ℕ → Option Follow) (cap : ℕ) (σ : State) : Prop :=
  ∀ s, (∃ n st, σ.com fanoutState n = some st ∧ st.source = s) ∧
    ∀ n st, σ.com fanoutState n = some st → st.source = s → ∀ m c, σ.com content m = some c → c.published = true →
      c.item.itemType = s → st.since < c.item.createdAt → ∀ u, Audience F cap c.item u →
      ∃! k, Filed index σ feedItems k (entry c.item u)

variable {d : Store} {jobs : ℕ → Job} {ms : List Move}

theorem safe_init (h : Starts cap d) : (discipline (followsOf d) cap).protocol.Safe (init cap d jobs) := by
  refine Discipline.safe_start h.inv (fun _ => trivial) h.own ?_
  intro i
  exact Discipline.wp_mono (job_good (jobs i) h.inv (h.own i ▸ Discipline.fresh_own i d)) fun _ _ _ _ => trivial

theorem legal_init {w : World} (ha : Along CommitsInStep w ms) : (discipline (followsOf d) cap).protocol.Legal w ms :=
  ha.mono fun _ _ h => Discipline.stepOk_of_committing h

/-- when nothing is left, everything has been delivered -/
theorem delivered_of_rest (hi : Inv F cap σ) (hmark : ∀ s, ∃ n st, σ.com fanoutState n = some st ∧ st.source = s)
    (hrest : ∀ s, rest σ s = ∅) : Delivered F cap σ := by
  intro s
  refine ⟨hmark s, ?_⟩
  intro n st hst hsource m c hc hpub htype hafter u hu
  have hpass : Passed st c.item := by
    refine ⟨htype.trans hsource.symm, hafter, fun hbeyond => ?_⟩
    have hleft : c.item ∈ rest σ s := by
      refine ⟨⟨htype, m, c, hc, hpub, rfl⟩, fun n' st' hst' hsource' => ?_⟩
      obtain rfl := hi.unique fanoutState n n' st st' (.state s) hst hst' (by simp [index, hsource])
        (by simp [index, hsource'])
      rw [hst] at hst'
      exact Option.some.inj hst' ▸ hbeyond
    rw [hrest s] at hleft
    exact hleft
  obtain ⟨k, hk⟩ := hi.fanned n st hst m c hc hpub hpass u hu
  exact ⟨k, hk, fun k' hk' => hi.unique.filed hk' hk⟩

/-- the pairs of follower and target, and nothing else -/
def storeOf (pairs : Dim → List (ℕ × ℕ)) : Store where
  tab
    | .content => {}
    | .feedItems => {}
    | .fanoutState => {}
    | .follows x => Table.ofList ((pairs x).map fun p => { followerId := p.1, targetId := p.2 })
  ext := ()

theorem starts_storeOf {pairs : Dim → List (ℕ × ℕ)} (h : ∀ x, (pairs x).Nodup) : Starts cap (storeOf pairs) := by
  refine ⟨⟨?_, fun _ => rfl, ?_⟩, ?_⟩
  · intro t n m r r' k hr hr' hk hk'
    cases t with
    | follows x =>
      change ((pairs x).map _)[n]? = some r at hr
      change ((pairs x).map _)[m]? = some r' at hr'
      rw [List.getElem?_map, Option.map_eq_some_iff] at hr hr'
      obtain ⟨p, hp, rfl⟩ := hr
      obtain ⟨q, hq, rfl⟩ := hr'
      have hpq : q = p := by
        have heq := hk'.trans hk.symm
        simp only [index, Option.some.injEq, Index.follow.injEq, true_and] at heq
        exact Prod.ext heq.1 heq.2
      obtain ⟨hn, hpn⟩ := List.getElem?_eq_some_iff.1 hp
      obtain ⟨hm, hqm⟩ := List.getElem?_eq_some_iff.1 hq
      exact (List.Nodup.getElem_inj_iff (h x)).1 (hpn.trans (hpq.symm.trans hqm.symm))
    | content => cases hr
    | feedItems => cases hr
    | fanoutState => cases hr
  · intro n st hst
    cases hst
  · intro i
    refine Own.ext ?_ ?_
    · funext t n
      cases t <;> rfl
    · funext k
      simp [Db.own, storeOf]

theorem underCap_of_lt {x : Dim} {target : ℕ} (h : ∀ n u, Active F x target n u → n < cap) :
    UnderCap F cap x target := by
  intro l hl hactive
  have hsub : l ⊆ List.range cap := by
    intro n hn
    obtain ⟨u, hu⟩ := hactive n hn
    exact List.mem_range.2 (h n u hu)
  calc l.length ≤ (List.range cap).length := (hl.subperm hsub).length_le
    _ = cap := List.length_range

instance (d : Store) (it : FeedItem) : Decidable (Overtaken d.snap it) :=
  decidable_of_iff (∃ n < d.snap.next fanoutState, ∃ st ∈ d.snap.com fanoutState n, Passed st it) <| by
    constructor
    · intro ⟨n, _, st, hst, hpass⟩
      exact ⟨n, st, hst, hpass⟩
    · intro ⟨n, st, hst, hpass⟩
      exact ⟨n, d.lt_of_com hst, st, hst, hpass⟩

set_option synthInstance.maxSize 512 in
instance (d : Store) (i : ℕ) : Decidable (CommitOk (d.own i) d.snap) :=
  decidable_of_iff
    ((∀ m < d.snap.next content, ∀ v ∈ (d.own i).row content m, ∀ c ∈ v, c.published = true →
        (∃ c' ∈ d.snap.com content m, c'.published = true ∧ c'.item = c.item) ∨ ¬ Overtaken d.snap c.item) ∧
      ∀ n < d.snap.next fanoutState, ∀ v ∈ (d.own i).row fanoutState n, ∀ st ∈ v,
        ∀ m < d.snap.next content, ∀ c ∈ d.snap.com content m, c.published = true → Passed st c.item →
          (∃ st' ∈ d.snap.com fanoutState n, Passed st' c.item) ∨ c.item ∈ st.fetched) <| by
    constructor
    · intro ⟨hw, hr⟩
      refine ⟨?_, ?_⟩
      · intro m c hc
        exact hw m (d.lt_of_own hc) _ hc c rfl
      · intro n st hst m c hc
        exact hr n (d.lt_of_own hst) _ hst st rfl m (d.lt_of_com hc) c hc
    · intro ⟨hw, hr⟩
      refine ⟨?_, ?_⟩
      · intro m _ v hv c hc
        obtain rfl : v = some c := hc
        exact hw m c hv
      · intro n _ v hv st hst m _ c hc
        obtain rfl : v = some st := hst
        exact hr n st hv m c hc

instance (w : World) (m : Move) : Decidable (CommitsInStep w m) :=
  match m with
  | .run i => decidable_of_iff (Discipline.committing w i = true → CommitOk (w.st.own i) w.st.snap)
      ⟨fun h _ hj => by cases hj; exact h, fun h => h i rfl⟩
  | .crash _ => isTrue fun _ h => nomatch h

/-- user 1 follows author 7 -/
def demoStore : Store := storeOf fun
  | .author => [(1, 7)]
  | .board => []

def demoItem (id createdAt : ℕ) : FeedItem :=
  { itemType := .blog
    id := id
    authorId := some 7
    createdAt := createdAt }

/-- two transactions with an item of author 7 each, stamped 5 and 7, and batches -/
def demoJobs : ℕ → Job
  | 0 => .content [.create (demoItem 1 5) true]
  | 1 => .content [.create (demoItem 2 7) true]
  | _ => .fanout 5 fun _ => 0

theorem starts_demoStore : Starts 2 demoStore := starts_storeOf fun x => by cases x <;> decide

theorem audience_demo (it : FeedItem) (h : it.authorId = some 7) : Audience (followsOf demoStore) 2 it 1 := by
  refine ⟨.author, 7, h, underCap_of_lt ?_, 0, _, rfl, rfl, rfl, rfl⟩
  intro n u ⟨f, hf, _⟩
  have hlt := demoStore.lt_of_com hf
  change n < 1 at hlt
  omega

/-- a batch passes the item stamped 7 before the item stamped 5 is committed: no later batch reads that one -/
def lateRun : List Move :=
  moves 2 16 ++ moves 1 2 ++ moves 3 14 ++ moves 0 2 ++ moves 4 11 ++ moves 5 11 ++ moves 6 11

end LkmService.Feed.Watermark
