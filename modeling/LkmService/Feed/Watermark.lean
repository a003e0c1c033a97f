/-
What the fan-out keeps while content is committed.

- `Audience`: the followers of an item's author or board, each dimension under the cap.
- `Fanned`: every published item between the beginning of a watermark and the watermark has a row for its audience.
- `Overtaken`, `CommitOk`: the condition on the commits. A content transaction commits no item at or below a watermark,
  and when a batch commits it has read every item between the old watermark and the new one.
- `discipline`, `job_good`: under the condition every job keeps `Fanned`.
-/
import LkmService.Feed.Fanout

namespace LkmService.Feed.Watermark

open Session Sql Tbl

abbrev State := Snap Row Unit

abbrev Held := Own Row Index

variable {F : Dim → ℕ → Option Follow} {cap limit i j n m u : ℕ} {o o' : Held} {σ τ υ : State} {it : FeedItem}
  {d : Dim} {s : Source} {now : Source → ℕ}

/-! ## Audiences -/

/-- row `n` of the follows is a current one of user `u` -/
def Active (F : Dim → ℕ → Option Follow) (d : Dim) (target n u : ℕ) : Prop :=
  ∃ f, F d n = some f ∧ f.targetId = target ∧ f.deleted = false ∧ f.followerId = u

/-- the target has at most `cap` current follows -/
def UnderCap (F : Dim → ℕ → Option Follow) (cap : ℕ) (d : Dim) (target : ℕ) : Prop :=
  ∀ l : List ℕ, l.Nodup → (∀ n ∈ l, ∃ u, Active F d target n u) → l.length ≤ cap

/-- the user follows the item's author or board, which has no more followers than the cap -/
def Audience (F : Dim → ℕ → Option Follow) (cap : ℕ) (it : FeedItem) (u : ℕ) : Prop :=
  ∃ d target, it.column d = some target ∧ UnderCap F cap d target ∧ ∃ n, Active F d target n u

/-! ## The invariant -/

def entry (it : FeedItem) (u : ℕ) : Index := .feedItem u it.itemType it.id

/-- the watermark stands for the item: it is one of the source, created after the beginning, and not after the mark -/
def Passed (st : FeedFanoutState) (it : FeedItem) : Prop :=
  it.itemType = st.source ∧ st.since < it.createdAt ∧ ¬ Beyond st it

instance (st : FeedFanoutState) (it : FeedItem) : Decidable (Passed st it) := inferInstanceAs (Decidable (_ ∧ _ ∧ _))

/-- published items that a watermark has passed have a row for each user of their audience -/
def Fanned (F : Dim → ℕ → Option Follow) (cap : ℕ) (σ : State) : Prop :=
  ∀ n st, σ.com fanoutState n = some st → ∀ m c, σ.com content m = some c → c.published = true → Passed st c.item →
    ∀ u, Audience F cap c.item u → ∃ k, Filed index σ feedItems k (entry c.item u)

structure Inv (F : Dim → ℕ → Option Follow) (cap : ℕ) (σ : State) : Prop where
  unique : Unique index σ
  follows : ∀ d, σ.com (follows d) = F d
  fanned : Fanned F cap σ

/-- rows of the feeds stay, and a watermark keeps its source and its beginning -/
structure Rely (i : ℕ) (o : Held) (σ τ : State) : Prop where
  apart : Apart index o σ τ
  feed : ∀ n r, σ.com feedItems n = some r → τ.com feedItems n = some r
  state : ∀ n st, σ.com fanoutState n = some st → ∃ st', τ.com fanoutState n = some st' ∧ st'.source = st.source ∧
    st'.since = st.since

theorem Rely.refl (i : ℕ) (o : Held) (σ : State) : Rely i o σ σ :=
  ⟨Apart.refl o σ, fun _ _ h => h, fun _ st h => ⟨st, h, rfl, rfl⟩⟩

theorem Rely.trans (h : Rely i o σ τ) (h' : Rely i o τ υ) : Rely i o σ υ where
  apart := h.apart.trans h'.apart
  feed n r hr := h'.feed n r (h.feed n r hr)
  state n st hst := by
    obtain ⟨st₁, h₁, hs₁, hb₁⟩ := h.state n st hst
    obtain ⟨st₂, h₂, hs₂, hb₂⟩ := h'.state n st₁ h₁
    exact ⟨st₂, h₂, hs₂.trans hs₁, hb₂.trans hb₁⟩

/-! ## The condition -/

/-- a committed watermark has passed the item -/
def Overtaken (σ : State) (it : FeedItem) : Prop := ∃ n st, σ.com fanoutState n = some st ∧ Passed st it

/-- A content transaction commits no item that a watermark has passed already. A batch has fetched every published item
that its new watermark passes and the old one does not. -/
structure CommitOk (o : Held) (σ : State) : Prop where
  writes : ∀ m c, o.row content m = some (some c) → c.published = true →
    (∃ c', σ.com content m = some c' ∧ c'.published = true ∧ c'.item = c.item) ∨ ¬ Overtaken σ c.item
  reads : ∀ n st, o.row fanoutState n = some (some st) → ∀ m c, σ.com content m = some c → c.published = true →
    Passed st c.item → (∃ st', σ.com fanoutState n = some st' ∧ Passed st' c.item) ∨ c.item ∈ st.fetched

/-- the discipline of the fan-out -/
def discipline (F : Dim → ℕ → Option Follow) (cap : ℕ) : Discipline Row Index (Discipline.NoFx Unit) Unit where
  inv := Inv F cap
  rely := Rely
  act _ _ _ := True
  ok _ x _ _ := nomatch x
  okCommit _ := CommitOk
  rely_refl := Rely.refl
  rely_trans _ _ _ _ _ := Rely.trans
  act_refl _ _ _ := trivial
  grow_inv _ _ _ h := ⟨h.unique, h.follows, h.fanned⟩
  grow_act _ _ _ _ _ := trivial
  grow_rely i o σ _ _ _ := ⟨Apart.refl o σ, fun _ _ h => h, fun _ st h => ⟨st, h, rfl, rfl⟩⟩

instance : Discipline.Lockless (discipline F cap) := ⟨fun _ _ _ => trivial⟩

/-! ## What a job has written -/

/-- what a content transaction or a batch owns: new rows of the feeds, and watermarks of which every item that the
batch has read is filed for its audience -/
structure Written (F : Dim → ℕ → Option Follow) (cap : ℕ) (o : Held) (σ : State) : Prop where
  entries : Entries index o σ
  follows : ∀ d n, o.row (follows d) n = none
  feed : ∀ n v, o.row feedItems n = some v → σ.com feedItems n = none ∧ v ≠ none
  state : ∀ n v, o.row fanoutState n = some v → ∃ st, v = some st ∧
    (∀ st', σ.com fanoutState n = some st' → st'.source = st.source ∧ st'.since = st.since) ∧
    ∀ it ∈ st.fetched, ∀ u, Audience F cap it u → ∃ k, Filed index (σ.merge o) feedItems k (entry it u)

variable (F cap) in
/-- the others leave a row in sight where it is -/
theorem filed_later (hl : (discipline F cap).Later i o σ τ) {k : ℕ} {e : Index}
    (h : Filed index (σ.merge o) feedItems k e) : Filed index (τ.merge o) feedItems k e := by
  obtain ⟨r, hr, he⟩ := h
  refine ⟨r, ?_, he⟩
  rcases Snap.merge_cases hr with ho | ⟨ho, hc⟩
  · exact Snap.merge_of_some ho τ
  · exact (Snap.merge_of_none ho τ).trans (hl.rely.feed k r hc)

theorem Written.later (h : Written F cap o σ) (hl : (discipline F cap).Later i o σ τ) : Written F cap o τ where
  entries := h.entries.later hl.inv.unique hl.com hl.rely.apart
  follows := h.follows
  feed n v hv := by
    obtain ⟨hc, hne⟩ := h.feed n v hv
    exact ⟨(hl.com feedItems n (by simp [hv])).trans hc, hne⟩
  state n v hv := by
    obtain ⟨st, rfl, hold, hfetched⟩ := h.state n v hv
    refine ⟨st, rfl, ?_, ?_⟩
    · intro st' hst'
      rw [hl.com fanoutState n (by simp [hv])] at hst'
      exact hold st' hst'
    · intro it hit u hu
      obtain ⟨k, hk⟩ := hfetched it hit u hu
      exact ⟨k, filed_later F cap hl hk⟩

theorem Written.empty (hu : Unique index σ) : Written F cap {} σ :=
  ⟨Entries.empty hu, fun _ _ => rfl, fun _ _ h => by simp at h, fun _ _ h => by simp at h⟩

/-- no job writes content and watermarks -/
def NoContent (o : Held) : Prop := ∀ m, o.row content m = none

def NoState (o : Held) : Prop := ∀ n, o.row fanoutState n = none

/-- **The commit of a job.** -/
theorem Written.good (h : Written F cap o σ) (hsole : NoContent o ∨ NoState o) (hi : Inv F cap σ)
    (hok : CommitOk o σ) : (discipline F cap).Good i o σ (σ.merge o) := by
  have hfeed : ∀ n r, σ.com feedItems n = some r → (σ.merge o).com feedItems n = some r := by
    intro n r hr
    rcases ho : o.row feedItems n with _ | v
    · exact (Snap.merge_of_none ho σ).trans hr
    · rw [(h.feed n v ho).1] at hr
      cases hr
  have hfiled : ∀ k e, Filed index σ feedItems k e → Filed index (σ.merge o) feedItems k e := by
    intro k e ⟨r, hr, he⟩
    exact ⟨r, hfeed k r hr, he⟩
  -- what a committed watermark has passed
  have hpassed : ∀ n st m c, σ.com fanoutState n = some st → σ.com content m = some c → c.published = true →
      Passed st c.item → ∀ u, Audience F cap c.item u →
      ∃ k, Filed index (σ.merge o) feedItems k (entry c.item u) := by
    intro n st m c hst hc hpub hpass u hu
    obtain ⟨k, hk⟩ := hi.fanned n st hst m c hc hpub hpass u hu
    exact ⟨k, hfiled k _ hk⟩
  refine ⟨⟨h.entries.merge, ?_, ?_⟩, trivial, ?_⟩
  · intro d
    funext n
    rw [Snap.merge_of_none (h.follows d n), hi.follows]
  · intro n st hst m c hc hpub hpass u hu
    rcases Snap.merge_cases hst with hst | ⟨-, hst⟩ <;> rcases Snap.merge_cases hc with hc | ⟨-, hc⟩
    · rcases hsole with hnone | hnone
      · rw [hnone m] at hc
        cases hc
      · rw [hnone n] at hst
        cases hst
    · obtain ⟨st₀, heq, -, hfetched⟩ := h.state n _ hst
      obtain rfl := Option.some.inj heq
      rcases hok.reads n st hst m c hc hpub hpass with ⟨st', hst', hpass'⟩ | hmem
      · exact hpassed n st' m c hst' hc hpub hpass' u hu
      · exact hfetched c.item hmem u hu
    · rcases hok.writes m c hc hpub with ⟨c', hc', hpub', hitem⟩ | hnot
      · rw [← hitem] at hpass hu ⊢
        exact hpassed n st m c' hst hc' hpub' hpass u hu
      · exact absurd ⟨n, st, hst, hpass⟩ hnot
    · exact hpassed n st m c hst hc hpub hpass u hu
  · intro j _ o' hd
    refine ⟨h.entries.apart hd, hfeed, ?_⟩
    intro n st hst
    rcases ho : o.row fanoutState n with _ | v
    · exact ⟨st, (Snap.merge_of_none ho σ).trans hst, rfl, rfl⟩
    · obtain ⟨st₁, rfl, hold, -⟩ := h.state n v ho
      obtain ⟨hs, hb⟩ := hold st hst
      exact ⟨st₁, Snap.merge_of_some ho σ, hs.symm, hb.symm⟩

/-! ## Statements of a batch -/

/-- a row with the entry is in sight -/
def Sight (o : Held) (σ : State) (e : Index) : Prop := ∃ k, Filed index (σ.merge o) feedItems k e

/-- a batch between two of its statements -/
structure Batch (F : Dim → ℕ → Option Follow) (cap : ℕ) (o : Held) (σ : State) : Prop where
  written : Written F cap o σ
  content : NoContent o
  inv : Inv F cap σ
  fresh : σ.Fresh o

theorem Batch.later (h : Batch F cap o σ) (hl : (discipline F cap).Later i o σ τ) : Batch F cap o τ :=
  ⟨h.written.later hl, h.content, hl.inv, hl.fresh⟩

/-- everything that was in sight still is -/
def Keeps (o : Held) (σ : State) (o' : Held) (σ' : State) : Prop := ∀ e, Sight o σ e → Sight o' σ' e

theorem Keeps.later (hl : (discipline F cap).Later i o σ τ) : Keeps o σ o τ :=
  fun _ ⟨k, hk⟩ => ⟨k, filed_later F cap hl hk⟩

theorem Keeps.trans {o'' : Held} (h : Keeps o σ o' τ) (h' : Keeps o' τ o'' υ) : Keeps o σ o'' υ :=
  fun e he => h' e (h e he)

/-- a new row of a feed -/
theorem Batch.insert {r : FeedItemMaterialized} {k : Index} (h : Batch F cap o σ) (hk : index feedItems r = some k)
    (hno : ∀ m r', o.view σ feedItems m = some r' → index feedItems r' ≠ some k) :
    Batch F cap ((o.put feedItems (σ.next feedItems) (some r)).take k) (σ.bump feedItems (σ.next feedItems)) ∧
      Keeps o σ ((o.put feedItems (σ.next feedItems) (some r)).take k) (σ.bump feedItems (σ.next feedItems)) ∧
      Sight ((o.put feedItems (σ.next feedItems) (some r)).take k) (σ.bump feedItems (σ.next feedItems)) k := by
  have hsame : ∀ t, t ≠ feedItems → ((o.put feedItems (σ.next feedItems) (some r)).take k).row t = o.row t :=
    fun t ht => Own.put_row_other _ _ _ ht
  have hkeeps : Keeps o σ ((o.put feedItems (σ.next feedItems) (some r)).take k)
      (σ.bump feedItems (σ.next feedItems)) := by
    intro e ⟨m, r', hr', he⟩
    have hm : m ≠ σ.next feedItems := by
      rintro rfl
      obtain ⟨hcom, hown⟩ := h.fresh feedItems _ le_rfl
      rw [Snap.merge_of_none hown, hcom] at hr'
      cases hr'
    refine ⟨m, r', ?_, he⟩
    rw [Snap.merge_com, Own.take_row, Own.put_row_of_ne _ _ _ fun _ => hm]
    exact hr'
  refine ⟨⟨⟨h.written.entries.insert hk hno _, ?_, ?_, ?_⟩, ?_, ?_, ?_⟩, hkeeps, ?_⟩
  · intro d n
    rw [hsame _ (by simp)]
    exact h.written.follows d n
  · intro n v hv
    rw [Own.take_row, Own.put_row_same] at hv
    split_ifs at hv with hn
    · rw [hn, Snap.bump_com]
      exact ⟨(h.fresh feedItems _ le_rfl).1, by rw [← Option.some.inj hv]; simp⟩
    · exact h.written.feed n v hv
  · intro n v hv
    rw [hsame _ (by simp)] at hv
    obtain ⟨st, rfl, hold, hfetched⟩ := h.written.state n v hv
    exact ⟨st, rfl, hold, fun it hit u hu => hkeeps _ (hfetched it hit u hu)⟩
  · intro m
    rw [hsame _ (by simp)]
    exact h.content m
  · exact ⟨h.inv.unique, h.inv.follows, h.inv.fanned⟩
  · exact (h.fresh.put _ _ _).take _
  · refine ⟨σ.next feedItems, r, ?_, hk⟩
    rw [Snap.merge_com, Own.take_row, Own.put_row_self]
    rfl

/-- the users of the list have a row of the item in sight -/
theorem wp_insertRows (it : FeedItem) {row : ℕ → FeedItemMaterialized} (hrow : ∀ uid, (row uid).userId = uid ∧ (row uid).item = it)
    {uids : List ℕ} (h : Batch F cap o σ) :
    (discipline F cap).wp i (insertRows row uids) (Discipline.Returns fun _ o' τ =>
      Batch F cap o' τ ∧ Keeps o σ o' τ ∧ ∀ uid ∈ uids, Sight o' τ (entry it uid)) o σ := by
  induction uids generalizing o σ with
  | nil => exact Discipline.wp_return ⟨h, fun _ he => he, by simp⟩
  | cons uid uids ih =>
    have hk : index feedItems (row uid) = some (entry it uid) := by
      obtain ⟨hu, hit⟩ := hrow uid
      simp [index, entry, hu, hit]
    have hkey : Index.feedItem (row uid).userId (row uid).item.itemType (row uid).item.id = entry it uid :=
      Option.some.inj hk
    -- what is left to do once the row of the first user is in sight
    have hrest : ∀ {o₁ : Held} {σ₁ : State}, Batch F cap o₁ σ₁ → Keeps o σ o₁ σ₁ →
        Sight o₁ σ₁ (entry it uid) →
        (discipline F cap).wp i (insertRows row uids) (Discipline.Returns fun _ o' τ =>
          Batch F cap o' τ ∧ Keeps o σ o' τ ∧ ∀ uid' ∈ uid :: uids, Sight o' τ (entry it uid')) o₁ σ₁ := by
      intro o₁ σ₁ hb hkeeps hsight
      refine Discipline.wp_returns_mono (ih hb) ?_
      intro _ o' υ ⟨hb', hkeeps', hall⟩
      refine ⟨hb', hkeeps.trans hkeeps', ?_⟩
      intro uid' huid
      rcases List.mem_cons.1 huid with rfl | huid
      · exact hkeeps' _ hsight
      · exact hall uid' huid
    rw [insertRows, hkey]
    apply Discipline.wp_bind
    refine Discipline.wp_insertEntry ?_ ?_
    · intro τ hl m hfiled
      exact hrest (h.later hl) (.later hl) ⟨m, hfiled⟩
    · intro τ hl hno
      obtain ⟨hb, hkeeps, hsight⟩ := (h.later hl).insert hk hno
      exact hrest hb ((Keeps.later hl).trans hkeeps) hsight

/-- the answer has every current follower of a target under the cap -/
theorem wp_audience (h : Batch F cap o σ) : (discipline F cap).wp i (audience cap d it)
    (Discipline.Returns fun ids o' τ => Batch F cap o' τ ∧ Keeps o σ o' τ ∧
      ∀ target n u, it.column d = some target → UnderCap F cap d target → Active F d target n u →
        u ∈ capped cap ids) o σ := by
  unfold audience
  split
  · next hnone => exact Discipline.wp_return ⟨h, fun _ he => he, fun target n u ht => by simp [hnone] at ht⟩
  · next target ht =>
    unfold listFollowerIds
    apply Discipline.wp_bind
    apply Discipline.wp_bind
    refine Discipline.wp_select ?_
    intro τ hl l hmem hpair
    refine Discipline.wp_pure (Discipline.wp_return ?_)
    refine ⟨h.later hl, .later hl, ?_⟩
    rintro target' n u ht' hcap ⟨f, hf, htarget, hdel, hu⟩
    obtain rfl := Option.some.inj (ht.symm.trans ht')
    have hview : ∀ m, o.view τ (follows d) m = F d m := by
      intro m
      rw [Own.view_of_none (h.written.follows d m), hl.inv.follows]
    have hlen : l.length ≤ cap := by
      have hle := hcap (l.map Prod.fst) (nodup_numbers hpair) ?_
      · rwa [List.length_map] at hle
      · intro m hm
        obtain ⟨q, hq, rfl⟩ := List.mem_map.1 hm
        obtain ⟨hv, hp⟩ := (hmem q.1 q.2).1 hq
        rw [hview] at hv
        simp only [Bool.and_eq_true, decide_eq_true_eq, Bool.not_eq_true'] at hp
        exact ⟨q.2.followerId, q.2, hv, hp.1, hp.2, rfl⟩
    have hmap : (l.map fun q => q.2.followerId).take (cap + 1) = l.map fun q => q.2.followerId :=
      List.take_of_length_le (by rw [List.length_map]; omega)
    have hdedup : (l.map fun q => q.2.followerId).dedup.length ≤ cap := by
      refine le_trans (List.dedup_sublist _).length_le ?_
      rwa [List.length_map]
    rw [hmap, capped, if_neg (not_lt.2 hdedup), List.mem_dedup, List.mem_map]
    refine ⟨(n, f), (hmem n f).2 ⟨(hview n).trans hf, ?_⟩, hu⟩
    simp [htarget, hdel]

theorem wp_fanoutItem (h : Batch F cap o σ) : (discipline F cap).wp i (fanoutItem cap it)
    (Discipline.Returns fun _ o' τ => Batch F cap o' τ ∧ Keeps o σ o' τ ∧
      ∀ u, Audience F cap it u → Sight o' τ (entry it u)) o σ := by
  unfold fanoutItem
  split_ifs with hnone
  · refine Discipline.wp_return ⟨h, fun _ he => he, ?_⟩
    intro u ⟨d, target, ht, _⟩
    cases d <;> simp [FeedItem.column, hnone.1, hnone.2] at ht
  · refine Discipline.wp_seq (wp_audience (d := .author) h) ?_
    intro authors o₁ σ₁ ⟨h₁, hk₁, hauthors⟩
    refine Discipline.wp_seq (wp_audience (d := .board) h₁) ?_
    intro boards o₂ σ₂ ⟨h₂, hk₂, hboards⟩
    refine Discipline.wp_returns_mono (wp_insertRows it (fun _ => ⟨rfl, rfl⟩) h₂) ?_
    intro _ o₃ σ₃ ⟨h₃, hk₃, hall⟩
    refine ⟨h₃, (hk₁.trans hk₂).trans hk₃, ?_⟩
    intro u ⟨d, target, ht, hcap, n, hactive⟩
    apply hall
    rw [List.mem_insertionSort, List.mem_dedup, List.mem_append]
    cases d with
    | author => exact .inl (hauthors target n u ht hcap hactive)
    | board => exact .inr (hboards target n u ht hcap hactive)

theorem wp_fanoutItems (its : List FeedItem) (h : Batch F cap o σ) :
    (discipline F cap).wp i (fanoutItems cap its) (Discipline.Returns fun _ o' τ =>
      Batch F cap o' τ ∧ Keeps o σ o' τ ∧ ∀ it ∈ its, ∀ u, Audience F cap it u → Sight o' τ (entry it u)) o σ := by
  induction its generalizing o σ with
  | nil => exact Discipline.wp_return ⟨h, fun _ he => he, by simp⟩
  | cons it its ih =>
    refine Discipline.wp_seq (wp_fanoutItem h) ?_
    intro _ o₁ σ₁ ⟨h₁, hk₁, hit⟩
    refine Discipline.wp_returns_mono (ih h₁) ?_
    intro _ o₂ σ₂ ⟨h₂, hk₂, hits⟩
    refine ⟨h₂, hk₁.trans hk₂, ?_⟩
    intro it' hmem u hu
    rcases List.mem_cons.1 hmem with rfl | hmem
    · exact hk₂ _ (hit u hu)
    · exact hits it' hmem u hu

/-- a batch writes a watermark: it keeps its source and its beginning, and what it has fetched is filed -/
theorem Batch.putState {st : FeedFanoutState} {σ' : State} (h : Batch F cap o σ) (he : Entries index o' σ')
    (hcom : σ'.com = σ.com) (hf : σ'.Fresh o') (hrow : o'.row = (o.put fanoutState n (some st)).row)
    (hold : ∀ st', σ.com fanoutState n = some st' → st'.source = st.source ∧ st'.since = st.since)
    (hfetched : ∀ it ∈ st.fetched, ∀ u, Audience F cap it u → Sight o σ (entry it u)) :
    Batch F cap o' σ' ∧ Keeps o σ o' σ' := by
  have hsame : ∀ t, t ≠ fanoutState → o'.row t = o.row t := by
    intro t ht
    rw [hrow]
    exact Own.put_row_other _ _ _ ht
  have hkeeps : Keeps o σ o' σ' := by
    intro e ⟨k, r, hr, hk⟩
    refine ⟨k, r, ?_, hk⟩
    rw [Snap.merge_com, hsame _ (by simp), hcom]
    exact hr
  refine ⟨⟨⟨he, ?_, ?_, ?_⟩, ?_, ⟨?_, ?_, ?_⟩, hf⟩, hkeeps⟩
  · intro d m
    rw [hsame _ (by simp)]
    exact h.written.follows d m
  · intro m v hv
    rw [hsame _ (by simp)] at hv
    rw [hcom]
    exact h.written.feed m v hv
  · intro m v hv
    rw [hrow, Own.put_row_same] at hv
    rw [hcom]
    split_ifs at hv with hm
    · subst hm
      exact ⟨st, (Option.some.inj hv).symm, hold, fun it hit u hu => hkeeps _ (hfetched it hit u hu)⟩
    · obtain ⟨st', rfl, hold', hfetched'⟩ := h.written.state m v hv
      exact ⟨st', rfl, hold', fun it hit u hu => hkeeps _ (hfetched' it hit u hu)⟩
  · intro m
    rw [hsame _ (by simp)]
    exact h.content m
  · unfold Sql.Unique
    rw [hcom]
    exact h.inv.unique
  · rw [hcom]
    exact h.inv.follows
  · unfold Fanned Filed
    rw [hcom]
    exact h.inv.fanned

theorem wp_loadState {now : ℕ} (h : Batch F cap o σ) : (discipline F cap).wp i (loadState s now)
    (Discipline.Returns fun _ o' τ => Batch F cap o' τ) o σ := by
  unfold loadState
  refine Discipline.wp_bind (Discipline.wp_select ?_)
  intro τ hl l _ _
  dsimp only
  cases l.head? with
  | some q => exact Discipline.wp_return (h.later hl)
  | none =>
    refine Discipline.wp_seq (P := fun _ o' τ => Batch F cap o' τ) ?_ fun _ _ _ h' => Discipline.wp_return h'
    unfold create insertRow
    apply Discipline.wp_bind
    refine Discipline.wp_insertEntry (fun _ _ _ _ => Discipline.wp_fail _) ?_
    intro υ hl' hno
    have hb := (h.later hl).later hl'
    refine Discipline.wp_return (hb.putState (hb.written.entries.insert rfl hno _) rfl ?_ rfl ?_ ?_).1
    · exact (hb.fresh.put _ _ _).take _
    · intro st' hst'
      rw [(hb.fresh fanoutState _ le_rfl).1] at hst'
      cases hst'
    · intro it hit
      cases hit

theorem wp_fetchAfter {st : FeedFanoutState} (h : Batch F cap o σ) :
    (discipline F cap).wp i (fetchAfter s st limit) (Discipline.Returns fun _ o' τ => Batch F cap o' τ) o σ := by
  unfold fetchAfter
  refine Discipline.wp_bind (Discipline.wp_select ?_)
  intro τ hl l _ _
  exact Discipline.wp_return (h.later hl)

/-- the watermark is saved once the items have been filed -/
theorem wp_saveState {last : FeedItem} {items : List FeedItem} (h : Batch F cap o σ)
    (hitems : ∀ it ∈ items, ∀ u, Audience F cap it u → Sight o σ (entry it u)) :
    (discipline F cap).wp i (update fanoutState n fun r =>
        { r with
          lastCreatedAt := last.createdAt
          lastId := some last.id
          fetched := items })
      (Discipline.Returns fun _ o' τ => Batch F cap o' τ) o σ := by
  unfold update
  apply Discipline.wp_bind
  refine Discipline.wp_updateRow (fun _ _ _ => Discipline.wp_fail _) ?_
  intro τ r hl hv _
  have hb := h.later hl
  have hlt : n < τ.next fanoutState := hl.fresh.lt_of_view hv
  have he : Entries index (o.put fanoutState n (some
      { r with
        lastCreatedAt := last.createdAt
        lastId := some last.id
        fetched := items })) τ := hb.written.entries.update hv rfl
  refine Discipline.wp_return (hb.putState he rfl ?_ rfl ?_ ?_).1
  · rw [← Snap.bump_of_lt hlt]
    exact hb.fresh.put fanoutState n _
  · intro st' hst'
    rcases Snap.merge_cases hv with ho | ⟨-, hc⟩
    · obtain ⟨st, heq, hold, -⟩ := hb.written.state n _ ho
      obtain rfl := Option.some.inj heq
      exact hold st' hst'
    · obtain rfl := Option.some.inj (hst'.symm.trans hc)
      exact ⟨rfl, rfl⟩
  · intro it hit u hu
    exact Keeps.later hl _ (hitems it hit u hu)

theorem wp_fanoutSources {ss : List Source} (h : Batch F cap o σ) :
    (discipline F cap).wp i (fanoutSources cap limit now ss) (Discipline.Returns fun _ o' τ => Batch F cap o' τ)
      o σ := by
  induction ss generalizing o σ with
  | nil => exact Discipline.wp_return h
  | cons s ss ih =>
    refine Discipline.wp_seq (wp_loadState h) ?_
    intro ⟨n, st⟩ o₁ σ₁ h₁
    refine Discipline.wp_seq (wp_fetchAfter h₁) ?_
    intro items o₂ σ₂ h₂
    cases items.getLast? with
    | none => exact ih h₂
    | some last =>
      refine Discipline.wp_seq (wp_fanoutItems items h₂) ?_
      intro _ o₃ σ₃ ⟨h₃, _, hfiled⟩
      refine Discipline.wp_seq (wp_saveState h₃ hfiled) ?_
      intro _ o₄ σ₄ h₄
      exact Discipline.wp_seq (ih h₄) fun _ _ _ h₅ => Discipline.wp_return h₅

/-! ## Content transactions -/

/-- a content transaction between two of its statements -/
structure Writing (o : Held) (σ : State) : Prop where
  entries : Entries index o σ
  only : ∀ t, t ≠ content → ∀ n, o.row t n = none
  fresh : σ.Fresh o
  unique : Unique index σ

theorem Writing.later (h : Writing o σ) (hl : (discipline F cap).Later i o σ τ) : Writing o τ :=
  ⟨h.entries.later hl.inv.unique hl.com hl.rely.apart, h.only, hl.fresh, hl.inv.unique⟩

theorem Writing.written (h : Writing o σ) : Written F cap o σ where
  entries := h.entries
  follows d n := h.only _ (by simp) n
  feed n v hv := by
    rw [h.only _ (by simp)] at hv
    cases hv
  state n v hv := by
    rw [h.only _ (by simp)] at hv
    cases hv

theorem Writing.put {c : Content} {σ' : State} (h : Writing o σ) (he : Entries index o' σ') (hcom : σ'.com = σ.com)
    (hf : σ'.Fresh o') (hrow : o'.row = (o.put content n (some c)).row) : Writing o' σ' := by
  refine ⟨he, ?_, hf, ?_⟩
  · intro t ht m
    rw [hrow, Own.put_row_other _ _ _ ht]
    exact h.only t ht m
  · unfold Sql.Unique
    rw [hcom]
    exact h.unique

theorem wp_contentWrite {w : ContentWrite} (h : Writing o σ) : (discipline F cap).wp i (contentWrite w)
    (Discipline.Returns fun _ o' τ => Writing o' τ) o σ := by
  cases w with
  | create item published =>
    refine Discipline.wp_seq (P := fun _ o' τ => Writing o' τ) ?_ fun _ _ _ h' => Discipline.wp_return h'
    unfold create insertRow
    apply Discipline.wp_bind
    refine Discipline.wp_insertEntry (fun _ _ _ _ => Discipline.wp_fail _) ?_
    intro τ hl hno
    have hw := h.later hl
    exact Discipline.wp_return (hw.put (hw.entries.insert rfl hno _) rfl ((hw.fresh.put _ _ _).take _) rfl)
  | setPublished s id published =>
    refine Discipline.wp_bind (Discipline.wp_select ?_)
    intro τ hl l _ _
    dsimp only
    cases l.head? with
    | none => exact Discipline.wp_return (h.later hl)
    | some q =>
      unfold update
      apply Discipline.wp_bind
      refine Discipline.wp_updateRow (fun _ _ _ => Discipline.wp_fail _) ?_
      intro υ c' hl' hv _
      have hw := (h.later hl).later hl'
      have hlt : q.1 < υ.next content := hl'.fresh.lt_of_view hv
      have he : Entries index (o.put content q.1 (some { c' with published := published })) υ :=
        hw.entries.update hv rfl
      refine Discipline.wp_return (hw.put he rfl ?_ rfl)
      rw [← Snap.bump_of_lt hlt]
      exact hw.fresh.put content q.1 _

theorem wp_contentWrites {ws : List ContentWrite} (h : Writing o σ) : (discipline F cap).wp i (contentWrites ws)
    (Discipline.Returns fun _ o' τ => Writing o' τ) o σ := by
  induction ws generalizing o σ with
  | nil => exact Discipline.wp_return h
  | cons w ws ih => exact Discipline.wp_seq (wp_contentWrite h) fun _ _ _ h' => ih h'

/-! ## Jobs -/

/-- every job keeps the discipline -/
theorem job_good (job : Job) (hi : Inv F cap σ) (hf : σ.Fresh ({} : Held)) :
    (discipline F cap).wp i (job.prog cap) (fun _ o _ => o = {}) {} σ := by
  cases job with
  | content writes =>
    refine Discipline.wp_transaction (P := fun _ o τ => Writing o τ) ?_ ?_
    · refine Discipline.wp_seq (wp_contentWrites ?_) fun _ _ _ h => Discipline.wp_return h
      exact ⟨Entries.empty hi.unique, fun _ _ _ => rfl, hf, hi.unique⟩
    · intro _ o τ hw υ hl hok
      exact (hw.later hl).written.good (.inr fun n => hw.only _ (by simp) n) hl.inv hok
  | fanout limit now =>
    refine Discipline.wp_transaction (P := fun _ o τ => Batch F cap o τ) ?_ ?_
    · exact wp_fanoutSources ⟨Written.empty hi.unique, fun _ => rfl, hi, hf⟩
    · intro _ o τ hb υ hl hok
      exact (hb.later hl).written.good (.inl hb.content) hl.inv hok

end LkmService.Feed.Watermark
