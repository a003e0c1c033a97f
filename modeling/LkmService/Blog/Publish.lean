/-
Publishing touches only one's own content, if the slug is not somebody else's.

- `Kept`: a call raises a domain error, or changes at most one item, a blog post of the user; and the same call again gives
  the same item and changes nothing but its time.
- `Accepts`: the texts are such that their columns take them, and the slug is free, taken by a deleted row, or that of a
  blog post of the user; `publish_kept`: that is exactly when.
- `hijacked`: the article of somebody else becomes the blog post.
-/
import LkmService.Blog.Model

namespace LkmService.Blog

variable {env : Env} {s s' : Store} {u : UserId} {board n m : ℕ} {d : Draft} {r : ContentItem} {now : ℤ}

/-! ## The law -/

/-- the same call at another time -/
def Env.atTime (env : Env) (now : ℤ) : Env := { env with now := now }

@[simp]
theorem Env.atTime_now : (env.atTime now).now = now := rfl

/-- what is changed is one item, and a blog post of the user before and after -/
def Own (u : UserId) (s s' : Store) (n : ℕ) : Prop :=
  ∀ m, s'.items.rows m ≠ s.items.rows m → m = n ∧
    (∃ r', s'.items.rows m = some r' ∧ r'.authorId = some u ∧ r'.contentType = .blogPost) ∧
    ∀ r, s.items.rows m = some r → r.authorId = some u ∧ r.contentType = .blogPost

/-- nothing is changed, but perhaps the time of one item -/
def Again (s s' : Store) (n : ℕ) : Prop :=
  (∀ m, m ≠ n → s'.items.rows m = s.items.rows m) ∧
    ∃ r t, s.items.rows n = some r ∧ s'.items.rows n = some { r with updatedAt := t }

def KeptBy (call : ℤ → Store → Except Exn (ℕ × Store)) (u : UserId) (now : ℤ) (s : Store) : Prop :=
  match call now s with
  | .error e => e.isDomain = true
  | .ok (n, s') => Own u s s' n ∧ ∀ now', ∃ s'', call now' s' = .ok (n, s'') ∧ Again s' s'' n

/-- what an item is written over with -/
def reads (now : ℤ) (board : ℕ) (d : Draft) (r : ContentItem) : ContentItem :=
  revise now board d (d.title.take 200) ((given d.description).map (List.take 300)) r

def Kept (env : Env) (s : Store) (c : Call) : Prop :=
  KeptBy (fun now s => publish (env.atTime now) s c) c.user env.now s

/-! ## The condition -/

/-- what the columns of the texts ask for -/
structure TextsFit (d : Draft) (summary : Option Text) : Prop where
  title : '\x00' ∉ d.title ∧ fits 200 d.title = true
  summary : ∀ t ∈ summary, '\x00' ∉ t ∧ fits 300 t = true

/-- an item is to be changed that is one's own, or reads so already; or there is none, and a deleted one with the slug, or
the slug is one that a row can have -/
def SlugKept (now : ℤ) (s : Store) (u : UserId) (board : ℕ) (d : Draft) : Prop :=
  '\x00' ∉ d.slug ∧
    match (if d.slug = [] then none else getBySlug s d.slug) with
    | some (_, r) => TextsFit d (given d.description) ∧
        ((r.authorId = some u ∧ r.contentType = .blogPost) ∨
          reads now board d r = r)
    | none => fits 200 d.slug = true ∧ TextsFit d d.description ∧
        (s.items.clashes (if d.slug = [] then none else some (d.slug.take 200)) = true ∨ d.slug ≠ [] ∧ d.slug.length ≤ 200)

/-- what a call of the owner of the series asks for -/
def Accepts (env : Env) (s : Store) (c : Call) : Prop :=
  s.series c.series = some c.user →
    '\x00' ∉ Text.lstripSlash c.filepath ∧
      ∀ content, s.files c.series (Text.lstripSlash c.filepath) = some content →
        ∃ fm, parseFrontmatter env.safeLoad content = .ok fm ∧
          let d := draftOf (Text.lstripSlash c.filepath) content fm c.override
          '\x00' ∉ d.category ∧
            match s.boards d.category with
            | some board => SlugKept env.now s c.user board d
            | none => fits 50 d.category = true ∧ (d.category.length ≤ 50 → SlugKept env.now s c.user s.nextBoard d)

/-! ## Texts -/

theorem fits_of_length {k : ℕ} {t : Text} (h : t.length ≤ k) : fits k t = true := by
  rw [fits, List.drop_eq_nil_of_le h]
  rfl

theorem textColumn_eq {t : Text} : textColumn t = if '\x00' ∉ t then .ok t else .error .dataError := by
  rw [textColumn, ite_not]

theorem varchar_eq {k : ℕ} {t : Text} :
    varchar k t = if '\x00' ∉ t ∧ fits k t = true then .ok (t.take k) else .error .dataError := by
  rw [varchar]
  by_cases hz : '\x00' ∈ t
  · rw [if_pos hz, if_neg (fun h => h.1 hz)]
  · by_cases hf : fits k t = true
    · rw [if_neg hz, if_pos hf, if_pos ⟨hz, hf⟩]
    · rw [if_neg hz, if_neg hf, if_neg (fun h => hf h.2)]

/-- an excerpt is at most 153 characters of the content, blanks and dots -/
theorem excerptOf_stored {content : Text} (h : '\x00' ∉ content) :
    '\x00' ∉ excerptOf content ∧ fits 500 (excerptOf content) = true := by
  have hwithin : Text.Within (Text.strip (Text.collapse false (Text.dropTags false content))) content :=
    Text.within_strip.trans ((Text.within_collapse false).trans (Text.within_dropTags false))
  have hnot : ∀ t, Text.Within t content → '\x00' ∉ t := by
    intro t ht hz
    rcases ht _ hz with hz | hz
    · exact h hz
    · exact absurd hz (by decide)
  unfold excerptOf
  dsimp only
  split_ifs with hlen
  · exact ⟨hnot _ hwithin, fits_of_length (by omega)⟩
  · refine ⟨?_, fits_of_length ?_⟩
    · rw [List.mem_append, not_or]
      exact ⟨hnot _ (Text.within_rstrip.trans ((Text.within_take 150).trans hwithin)), by decide⟩
    · have hstrip : ∀ t : Text, (Text.rstrip t).length ≤ t.length := by
        intro t
        rw [Text.rstrip, List.length_reverse]
        calc (t.reverse.dropWhile Text.isSpace).length ≤ t.reverse.length := (List.dropWhile_sublist _).length_le
          _ = t.length := List.length_reverse
      have hle := hstrip ((Text.strip (Text.collapse false (Text.dropTags false content))).take 150)
      rw [List.length_take] at hle
      rw [List.length_append]
      simp only [List.length_cons, List.length_nil]
      omega

open Classical in
theorem columns_eq {summary : Option Text} (hstored : '\x00' ∉ d.content) :
    columns d summary = if TextsFit d summary then .ok (d.title.take 200, summary.map (List.take 300)) else .error .dataError := by
  obtain ⟨hz, hf⟩ := excerptOf_stored hstored
  by_cases htitle : '\x00' ∉ d.title ∧ fits 200 d.title = true
  · cases summary with
    | none =>
      rw [if_pos ⟨htitle, fun _ h => (nomatch h)⟩]
      simp only [columns, varchar_eq, textColumn_eq, if_pos htitle, if_pos hstored, hz, hf, not_false_eq_true, and_self, if_true]
      rfl
    | some t =>
      by_cases ht : '\x00' ∉ t ∧ fits 300 t = true
      · rw [if_pos ⟨htitle, fun t' h => by rwa [← Option.some.inj h]⟩]
        simp only [columns, varchar_eq, textColumn_eq, if_pos htitle, if_pos hstored, hz, hf, not_false_eq_true, and_self, if_true,
          if_pos ht]
        rfl
      · rw [if_neg fun h => ht (h.summary t rfl)]
        simp only [columns, varchar_eq, textColumn_eq, if_pos htitle, if_pos hstored, hz, hf, not_false_eq_true, and_self, if_true,
          if_neg ht]
        rfl
  · rw [if_neg fun h => htitle h.title]
    simp only [columns, varchar_eq, if_neg htitle]
    rfl

/-! ## Rows by their slug -/

theorem getBySlug_some {slug : Text} (h : getBySlug s slug = some (n, r)) :
    s.items.rows n = some r ∧ r.slug = some slug ∧ r.deletedAt = none := by
  obtain ⟨hr, hp⟩ := Items.find_eq_some h
  simp only [Bool.and_eq_true, decide_eq_true_eq, Option.isNone_iff_eq_none] at hp
  exact ⟨hr, hp⟩

/-- the slug is the key of the rows -/
theorem getBySlug_of_row {slug : Text} (hr : s.items.rows n = some r) (hs : r.slug = some slug) (hd : r.deletedAt = none) :
    getBySlug s slug = some (n, r) := by
  rcases hget : getBySlug s slug with _ | ⟨m, q⟩
  · have hnot := Items.find_eq_none.1 hget n r hr
    simp [hs, hd] at hnot
  · obtain ⟨hq, hqs, -⟩ := getBySlug_some hget
    obtain rfl := s.items.unique n m r q slug hr hq hs hqs
    rw [Option.some.inj (hr.symm.trans hq)]

@[simp]
theorem items_enqueueContentEvent : (enqueueContentEvent env s n).items = s.items := by
  unfold enqueueContentEvent
  split_ifs
  · rfl
  · rfl

@[simp]
theorem items_enqueueEvent : (enqueueEvent env s u n).items = s.items := by
  unfold enqueueEvent
  split_ifs
  · rfl
  · rfl

/-! ## An item is written over -/

/-- what has been published once is published again as it is -/
theorem revise_again (now now' : ℤ) (board : ℕ) (d : Draft) (title : Text) (summary : Option Text) (r : ContentItem) :
    ∃ t, revise now' board d title summary (revise now board d title summary r) =
      { revise now board d title summary r with updatedAt := t } := by
  by_cases hsame : assign now board d r = r
  · have hpub : r.publishedAt.or (some now') = r.publishedAt := by
      have h := congrArg ContentItem.publishedAt hsame
      simp only [assign] at h
      cases hp : r.publishedAt with
      | none =>
        rw [hp] at h
        cases h
      | some t => rfl
    have hagain : assign now' board d r = r := by
      calc assign now' board d r = { assign now board d r with publishedAt := r.publishedAt.or (some now') } := rfl
        _ = { r with publishedAt := r.publishedAt } := by rw [hsame, hpub]
        _ = r := rfl
    refine ⟨r.updatedAt, ?_⟩
    simp only [revise, if_pos hsame, if_pos hagain]
  · simp only [revise, if_neg hsame]
    split_ifs
    · exact ⟨now, rfl⟩
    · have hor : summary.or (summary.or r.summary) = summary.or r.summary := by
        rw [← Option.or_assoc, Option.or_self]
      refine ⟨now', ?_⟩
      simp only [assign, Option.or_assoc, hor, Option.some_or]

theorem revise_deletedAt {title : Text} {summary : Option Text} :
    (revise now board d title summary r).deletedAt = r.deletedAt := by
  unfold revise
  split_ifs
  · rfl
  · rfl

/-- the store after an item has been written over -/
def revised (env : Env) (s : Store) (n board : ℕ) (d : Draft) : Store :=
  enqueueContentEvent env (reviseItem env.now s n board d (d.title.take 200) ((given d.description).map (List.take 300))) n

theorem revised_rows (hr : s.items.rows n = some r) : (revised env s n board d).items.rows n = some (reads env.now board d r) := by
  rw [revised, items_enqueueContentEvent]
  change Function.update s.items.rows n ((s.items.rows n).map _) n = some _
  rw [Function.update_self, hr]
  rfl

theorem revised_rows_of_ne (hm : m ≠ n) : (revised env s n board d).items.rows m = s.items.rows m := by
  rw [revised, items_enqueueContentEvent]
  exact Function.update_of_ne hm _ _

/-- the next call finds the item that the first one has found -/
theorem revised_getBySlug (env : Env) (board : ℕ) (hget : getBySlug s d.slug = some (n, r)) :
    getBySlug (revised env s n board d) d.slug = some (n, reads env.now board d r) := by
  obtain ⟨hr, hs, hd⟩ := getBySlug_some hget
  exact getBySlug_of_row (revised_rows hr) ((revise_slug ..).trans hs) (revise_deletedAt.trans hd)

open Classical in
/-- a live item with the slug -/
theorem publishBlogItem_update (env : Env) (u : UserId) (board : ℕ) (hslug : '\x00' ∉ d.slug) (hstored : '\x00' ∉ d.content)
    (hget : (if d.slug = [] then none else getBySlug s d.slug) = some (n, r)) :
    publishBlogItem env s u board d =
      if TextsFit d (given d.description) then
        .ok (n, revised env s n board d)
      else .error .dataError := by
  have htext : textColumn d.slug = .ok d.slug := by rw [textColumn_eq, if_pos hslug]
  unfold publishBlogItem
  simp only [htext, columns_eq hstored]
  simp only [bind, Except.bind, hget]
  split_ifs
  · rfl
  · rfl

open Classical in
/-- no live item with the slug -/
theorem publishBlogItem_insert (env : Env) (u : UserId) (board : ℕ) (hslug : '\x00' ∉ d.slug) (hstored : '\x00' ∉ d.content)
    (hget : (if d.slug = [] then none else getBySlug s d.slug) = none) :
    publishBlogItem env s u board d =
      if fits 200 d.slug = true ∧ TextsFit d d.description then
        match s.items.insert (newItem env.now u board d (if d.slug = [] then none else some (d.slug.take 200)) (d.title.take 200)
            (d.description.map (List.take 300))) with
        | .ok (n, items) => .ok (n, enqueueEvent env (enqueueContentEvent env { s with items := items } n) u n)
        | .error e => .error e
      else .error .dataError := by
  have htext : textColumn d.slug = .ok d.slug := by rw [textColumn_eq, if_pos hslug]
  unfold publishBlogItem
  simp only [htext, columns_eq hstored, varchar_eq]
  simp only [bind, Except.bind, hget]
  by_cases hf : fits 200 d.slug = true
  · have hcut : '\x00' ∉ d.slug ∧ fits 200 d.slug = true := ⟨hslug, hf⟩
    by_cases ht : TextsFit d d.description
    · simp only [if_pos hcut, if_pos ht, if_pos (And.intro hf ht)]
      cases s.items.insert (newItem env.now u board d (if d.slug = [] then none else some (d.slug.take 200)) (d.title.take 200)
        (d.description.map (List.take 300))) with
      | ok p => rfl
      | error e => rfl
    · have hnot : ¬ (fits 200 d.slug = true ∧ TextsFit d d.description) := fun h => ht h.2
      simp only [if_pos hcut, if_neg ht, if_neg hnot]
  · have hcut : ¬ ('\x00' ∉ d.slug ∧ fits 200 d.slug = true) := fun h => hf h.2
    have hnot : ¬ (fits 200 d.slug = true ∧ TextsFit d d.description) := fun h => hf h.1
    simp only [if_neg hcut, if_neg hnot]

theorem TextsFit.given (h : TextsFit d d.description) : TextsFit d (Blog.given d.description) := by
  refine ⟨h.title, ?_⟩
  intro t ht
  exact h.summary t (Option.eq_some_of_filter_eq_some ht)

/-- the live item is one's own, or reads so already -/
theorem keptBy_update (hslug : '\x00' ∉ d.slug) (hstored : '\x00' ∉ d.content)
    (hget : (if d.slug = [] then none else getBySlug s d.slug) = some (n, r)) :
    KeptBy (fun now s => getSession (publishBlogItem (env.atTime now) s u board d)) u now s ↔
      TextsFit d (given d.description) ∧ ((r.authorId = some u ∧ r.contentType = .blogPost) ∨
        reads now board d r = r) := by
  have hne : d.slug ≠ [] := by
    intro hnil
    rw [if_pos hnil] at hget
    cases hget
  rw [if_neg hne] at hget
  obtain ⟨hr, -, -⟩ := getBySlug_some hget
  have hcall := publishBlogItem_update (env.atTime now) u board hslug hstored
    ((if_neg hne).trans hget)
  by_cases hfit : TextsFit d (given d.description)
  · rw [and_iff_right hfit]
    simp only [KeptBy, hcall, if_pos hfit, getSession]
    constructor
    · rintro ⟨hown, -⟩
      by_contra hnot
      obtain ⟨hforeign, hchanges⟩ := not_or.1 hnot
      refine hforeign ((hown n ?_).2.2 r hr)
      rw [revised_rows hr, hr]
      exact fun heq => hchanges (Option.some.inj heq)
    · intro hcase
      refine ⟨fun m hm => ?_, fun now' => ?_⟩
      · obtain rfl : m = n := by
          by_contra hmn
          exact hm (revised_rows_of_ne hmn)
        have hmine : r.authorId = some u ∧ r.contentType = .blogPost := by
          rcases hcase with hmine | hsame
          · exact hmine
          · rw [revised_rows hr, hr, Env.atTime_now, hsame] at hm
            exact absurd rfl hm
        refine ⟨rfl, ⟨_, revised_rows hr, ?_⟩, fun r' hr' => ?_⟩
        · unfold reads revise
          split_ifs
          · exact hmine
          · exact ⟨hmine.1, rfl⟩
        · rw [← Option.some.inj (hr.symm.trans hr')]
          exact hmine
      · have hagain := publishBlogItem_update (env.atTime now') u board hslug hstored
          ((if_neg hne).trans (revised_getBySlug (env.atTime now) board hget))
        rw [if_pos hfit] at hagain
        obtain ⟨t, ht⟩ := revise_again now now' board d (d.title.take 200) ((given d.description).map (List.take 300)) r
        refine ⟨_, congrArg getSession hagain, fun m hm => revised_rows_of_ne hm, _, t, revised_rows hr, ?_⟩
        exact (revised_rows (revised_rows hr)).trans (congrArg some ht)
  · refine iff_of_false ?_ fun h => hfit h.1
    simp only [KeptBy, hcall, if_neg hfit, getSession]
    exact Bool.false_ne_true

/-! ## An item is added -/

theorem insert_ok (items : Items) (r : ContentItem) (h : items.clashes r.slug = false) : ∃ items', items.insert r = .ok (items.next, items') ∧
    items'.next = items.next + 1 ∧ items'.rows items.next = some r ∧ ∀ m, m ≠ items.next → items'.rows m = items.rows m := by
  unfold Items.insert
  rw [dif_neg (by simp [h])]
  exact ⟨_, rfl, rfl, Function.update_self .., fun m hm => Function.update_of_ne hm _ _⟩

theorem insert_clash (items : Items) (r : ContentItem) (h : items.clashes r.slug = true) : items.insert r = .error .uniqueViolation := by
  unfold Items.insert
  rw [dif_pos h]

/-- publishing a new item again writes over it -/
theorem revise_new (now now' : ℤ) (u : UserId) (board : ℕ) (d : Draft) (slug : Option Text) :
    ∃ t, reads now' board d
        (newItem now u board d slug (d.title.take 200) (d.description.map (List.take 300))) =
      { newItem now u board d slug (d.title.take 200) (d.description.map (List.take 300)) with updatedAt := t } := by
  have hsummary : ((given d.description).map (List.take 300)).or (d.description.map (List.take 300)) =
      d.description.map (List.take 300) := by
    cases hd : d.description with
    | none => rfl
    | some t =>
      by_cases ht : t = []
      · simp [given, Option.filter, ht]
      · simp [given, Option.filter, ht]
  unfold reads revise
  split_ifs
  · exact ⟨now, rfl⟩
  · refine ⟨now', ?_⟩
    simp only [assign, newItem, hsummary, Option.some_or]

/-- there is no live item with the slug -/
theorem keptBy_insert (hslug : '\x00' ∉ d.slug) (hstored : '\x00' ∉ d.content)
    (hget : (if d.slug = [] then none else getBySlug s d.slug) = none) :
    KeptBy (fun now s => getSession (publishBlogItem (env.atTime now) s u board d)) u now s ↔
      fits 200 d.slug = true ∧ TextsFit d d.description ∧
        (s.items.clashes (if d.slug = [] then none else some (d.slug.take 200)) = true ∨ d.slug ≠ [] ∧ d.slug.length ≤ 200) := by
  have hcall := publishBlogItem_insert (env.atTime now) u board hslug hstored hget
  by_cases hfit : fits 200 d.slug = true ∧ TextsFit d d.description
  · rw [← and_assoc, and_iff_right hfit]
    rw [if_pos hfit, Env.atTime_now] at hcall
    generalize hcolumn : (if d.slug = [] then none else some (d.slug.take 200)) = column at hcall
    by_cases hclash : s.items.clashes column = true
    · refine iff_of_true ?_ (.inl hclash)
      have herror := insert_clash s.items (newItem now u board d column (d.title.take 200)
        (d.description.map (List.take 300))) hclash
      rw [herror] at hcall
      simp only [KeptBy, hcall, getSession]
      rfl
    · rw [or_iff_right hclash]
      obtain ⟨items, hinsert, hnext, hnew, hold⟩ := insert_ok s.items (newItem now u board d column
        (d.title.take 200) (d.description.map (List.take 300))) (Bool.eq_false_iff.2 hclash)
      rw [hinsert] at hcall
      dsimp only at hcall
      generalize hs' : enqueueEvent (env.atTime now)
        (enqueueContentEvent (env.atTime now) { s with items := items } s.items.next) u s.items.next = s' at hcall
      have hitems : s'.items = items := by
        rw [← hs', items_enqueueEvent, items_enqueueContentEvent]
      simp only [KeptBy, hcall, getSession]
      have hown : Own u s s' s.items.next := by
        intro m hm
        obtain rfl : m = s.items.next := by
          by_contra hmn
          rw [hitems] at hm
          exact hm (hold m hmn)
        refine ⟨rfl, ⟨_, by rw [hitems]; exact hnew, rfl, rfl⟩, fun r hr => ?_⟩
        rw [s.items.fresh _ le_rfl] at hr
        cases hr
      rw [and_iff_right hown]
      constructor
      · intro hagain
        obtain ⟨s'', hs'', -⟩ := hagain now
        by_contra hnot
        have hget' : (if d.slug = [] then none else getBySlug s' d.slug) = none := by
          split_ifs with hnil
          · rfl
          · rw [if_neg hnil] at hget hcolumn
            refine Items.find_eq_none.2 fun m q hq => ?_
            rw [hitems] at hq
            by_cases hm : m = s.items.next
            · subst hm
              obtain rfl := Option.some.inj (hnew.symm.trans hq)
              have hlen : d.slug.take 200 ≠ d.slug := by
                intro heq
                have hle : d.slug.length ≤ 200 := by
                  rw [← heq, List.length_take]
                  omega
                exact hnot ⟨hnil, hle⟩
              simp [newItem, ← hcolumn, hlen]
            · exact Items.find_eq_none.1 hget m q ((hold m hm).symm.trans hq)
        have hcall' := publishBlogItem_insert (env.atTime now) u board hslug hstored hget'
        rw [if_pos hfit, hcolumn, Env.atTime_now] at hcall'
        by_cases hclash' : s'.items.clashes column = true
        · rw [insert_clash s'.items (newItem now u board d column (d.title.take 200)
            (d.description.map (List.take 300))) hclash'] at hcall'
          rw [hcall'] at hs''
          cases hs''
        · obtain ⟨items', hinsert', -⟩ := insert_ok s'.items (newItem now u board d column
            (d.title.take 200) (d.description.map (List.take 300))) (Bool.eq_false_iff.2 hclash')
          rw [hinsert'] at hcall'
          rw [hcall'] at hs''
          have hn := congrArg Prod.fst (Except.ok.inj hs'')
          simp only [hitems, hnext] at hn
          omega
      · rintro ⟨hne, hlen⟩ now'
        rw [if_neg hne, List.take_of_length_le hlen] at hcolumn
        have hget' : (if d.slug = [] then none else getBySlug s' d.slug) =
            some (s.items.next, newItem now u board d column (d.title.take 200) (d.description.map (List.take 300))) := by
          rw [if_neg hne]
          exact getBySlug_of_row (by rw [hitems]; exact hnew) hcolumn.symm rfl
        have hcall' := publishBlogItem_update (env.atTime now') u board hslug hstored hget'
        rw [if_pos hfit.2.given] at hcall'
        obtain ⟨t, ht⟩ := revise_new now now' u board d column
        have hrow : s'.items.rows s.items.next = some (newItem now u board d column (d.title.take 200)
            (d.description.map (List.take 300))) := by
          rw [hitems]
          exact hnew
        refine ⟨_, congrArg getSession hcall', fun m hm => revised_rows_of_ne hm, _, t, hrow, ?_⟩
        exact (revised_rows hrow).trans (congrArg some ht)
  · refine iff_of_false ?_ fun h => hfit ⟨h.1, h.2.1⟩
    simp only [KeptBy, hcall, if_neg hfit, getSession]
    exact Bool.false_ne_true

/-! ## The call -/

theorem keptBy_iff (env : Env) (hstored : '\x00' ∉ d.content) :
    KeptBy (fun now s => getSession (publishBlogItem (env.atTime now) s u board d)) u now s ↔ SlugKept now s u board d := by
  unfold SlugKept
  by_cases hslug : '\x00' ∉ d.slug
  · rw [and_iff_right hslug]
    rcases hget : (if d.slug = [] then none else getBySlug s d.slug) with _ | ⟨n, r⟩
    · exact keptBy_insert hslug hstored hget
    · exact keptBy_update hslug hstored hget
  · refine iff_of_false ?_ fun h => hslug h.1
    have hcall : publishBlogItem (env.atTime now) s u board d = .error .dataError := by
      unfold publishBlogItem
      rw [textColumn_eq, if_neg hslug]
      rfl
    simp only [KeptBy, hcall, getSession]
    exact Bool.false_ne_true

/-- the tables that an item does not concern stay -/
theorem publishBlogItem_frame (hstored : '\x00' ∉ d.content) (h : publishBlogItem env s u board d = .ok (n, s')) :
    s'.series = s.series ∧ s'.files = s.files ∧ s'.boards = s.boards := by
  have hcontent : ∀ (s : Store) k, (enqueueContentEvent env s k).series = s.series ∧ (enqueueContentEvent env s k).files = s.files ∧
      (enqueueContentEvent env s k).boards = s.boards := by
    intro s k
    unfold enqueueContentEvent
    split_ifs
    · exact ⟨rfl, rfl, rfl⟩
    · exact ⟨rfl, rfl, rfl⟩
  have hpoints : ∀ (s : Store) k, (enqueueEvent env s u k).series = s.series ∧ (enqueueEvent env s u k).files = s.files ∧
      (enqueueEvent env s u k).boards = s.boards := by
    intro s k
    unfold enqueueEvent
    split_ifs
    · exact ⟨rfl, rfl, rfl⟩
    · exact ⟨rfl, rfl, rfl⟩
  by_cases hslug : '\x00' ∉ d.slug
  · rcases hget : (if d.slug = [] then none else getBySlug s d.slug) with _ | ⟨k, r⟩
    · rw [publishBlogItem_insert env u board hslug hstored hget] at h
      split at h
      · split at h
        next k items _ =>
          obtain ⟨-, rfl⟩ := Prod.mk.inj (Except.ok.inj h)
          obtain ⟨h1, h2, h3⟩ := hpoints (enqueueContentEvent env { s with items := items } k) k
          obtain ⟨h1', h2', h3'⟩ := hcontent { s with items := items } k
          exact ⟨h1.trans h1', h2.trans h2', h3.trans h3'⟩
        next => cases h
      · cases h
    · rw [publishBlogItem_update env u board hslug hstored hget] at h
      split at h
      · obtain ⟨-, rfl⟩ := Prod.mk.inj (Except.ok.inj h)
        exact hcontent _ _
      · cases h
  · unfold publishBlogItem at h
    rw [textColumn_eq, if_neg hslug] at h
    cases h

/-- another call does the same on a store with the same items, and after it -/
theorem KeptBy.congr {call call' : ℤ → Store → Except Exn (ℕ × Store)} {s₁ : Store} (hitems : s₁.items = s.items)
    (hcall : call now s = call' now s₁) (hagain : ∀ now' n s', call' now s₁ = .ok (n, s') → call now' s' = call' now' s') :
    KeptBy call u now s ↔ KeptBy call' u now s₁ := by
  unfold KeptBy
  rw [hcall]
  rcases hfirst : call' now s₁ with e | ⟨n, s'⟩
  · exact Iff.rfl
  · simp only [Own, hitems]
    refine and_congr_right fun _ => forall_congr' fun now' => ?_
    rw [hagain now' n s' hfirst]

theorem ensureBySlug_some {category : Text} (hz : '\x00' ∉ category) (h : s.boards category = some board) :
    ensureBySlug s category = .ok (board, s) := by
  unfold ensureBySlug
  simp only [textColumn_eq, if_pos hz, bind, Except.bind, h]
  rfl

theorem ensureBySlug_none {category : Text} (hz : '\x00' ∉ category) (h : s.boards category = none) :
    ensureBySlug s category =
      if fits 50 category = true then
        if category.length ≤ 50 then
          .ok (s.nextBoard, { s with boards := Function.update s.boards category (some s.nextBoard), nextBoard := s.nextBoard + 1 })
        else .error (.biz .internalError)
      else .error .dataError := by
  unfold ensureBySlug
  simp only [textColumn_eq, if_pos hz, bind, Except.bind, h, varchar_eq]
  by_cases hf : fits 50 category = true
  · rw [if_pos hf]
    simp only [if_pos (And.intro hz hf)]
    by_cases hlen : category.length ≤ 50
    · rw [if_pos hlen]
      simp only [List.take_of_length_le hlen, h, Option.isSome_none, Bool.false_eq_true, if_false, Function.update_self]
      rfl
    · have hcut : category ≠ category.take 50 := by
        intro heq
        apply hlen
        rw [heq, List.length_take]
        omega
      rw [if_neg hlen]
      split_ifs
      · simp only [h]
      · simp only [Function.update_of_ne hcut, h]
  · have hnot : ¬ ('\x00' ∉ category ∧ fits 50 category = true) := fun hc => hf hc.2
    simp only [if_neg hnot, if_neg hf]

/-- what a call comes to, once the file is at hand -/
theorem publish_file (now : ℤ) {c : Call} {content : Text} {fm : Dict} (hseries : s.series c.series = some c.user)
    (hpath : '\x00' ∉ Text.lstripSlash c.filepath) (hfile : s.files c.series (Text.lstripSlash c.filepath) = some content)
    (hfm : parseFrontmatter env.safeLoad content = .ok fm) :
    publish (env.atTime now) s c =
      getSession ((ensureBySlug s (draftOf (Text.lstripSlash c.filepath) content fm c.override).category).bind fun p =>
        publishBlogItem (env.atTime now) p.2 c.user p.1 (draftOf (Text.lstripSlash c.filepath) content fm c.override)) := by
  have hload : parseFrontmatter (env.atTime now).safeLoad content = .ok fm := hfm
  unfold publish publishSeriesFile
  simp only [hseries, ne_eq, not_true_eq_false, if_false, textColumn_eq, if_pos hpath, bind, Except.bind, hfile, hload]

/-- the item, when there is a board -/
theorem kept_of_board {c : Call} {content : Text} {fm : Dict} {s₁ : Store} (hseries : s.series c.series = some c.user)
    (hpath : '\x00' ∉ Text.lstripSlash c.filepath) (hfile : s.files c.series (Text.lstripSlash c.filepath) = some content)
    (hfm : parseFrontmatter env.safeLoad content = .ok fm)
    (hd : draftOf (Text.lstripSlash c.filepath) content fm c.override = d) (hz : '\x00' ∉ d.category)
    (hboard : ensureBySlug s d.category = .ok (board, s₁)) (hitems : s₁.items = s.items) (hsame : s₁.series = s.series)
    (hfiles : s₁.files = s.files) (hboards : s₁.boards d.category = some board) :
    Kept env s c ↔ SlugKept env.now s c.user board d := by
  have hcontent : d.content = content := by rw [← hd]; rfl
  have hstored : '\x00' ∉ d.content := hcontent ▸ s.stored _ _ _ hfile
  have hslug : SlugKept env.now s₁ c.user board d ↔ SlugKept env.now s c.user board d := by
    unfold SlugKept getBySlug
    rw [hitems]
  rw [← hslug, ← keptBy_iff env hstored]
  refine KeptBy.congr hitems ?_ ?_
  · rw [publish_file _ hseries hpath hfile hfm, hd, hboard]
    rfl
  · intro now' n s' hcall
    have hok : publishBlogItem (env.atTime env.now) s₁ c.user board d = .ok (n, s') := by
      rcases hitem : publishBlogItem (env.atTime env.now) s₁ c.user board d with e | p
      · rw [hitem] at hcall
        cases e <;> cases hcall
      · rw [hitem] at hcall
        exact hcall
    obtain ⟨h1, h2, h3⟩ := publishBlogItem_frame hstored hok
    rw [publish_file _ ((congrFun (h1.trans hsame) _).trans hseries) hpath ((congrFun (congrFun (h2.trans hfiles) _) _).trans hfile)
      hfm, hd, ensureBySlug_some hz ((congrFun h3 _).trans hboards)]
    rfl

theorem kept_of_error {c : Call} {e : Exn} (h : publish (env.atTime env.now) s c = .error e) :
    Kept env s c ↔ e.isDomain = true := by
  unfold Kept KeptBy
  simp only [h]

/-- **Publishing.** Of every store, user and call: the law is kept if and only if the user does not own the series, or the
texts are as `Accepts` asks and the slug is not that of a live item of somebody else or of another kind. -/
theorem publish_kept (env : Env) (s : Store) (c : Call) : Kept env s c ↔ Accepts env s c := by
  unfold Accepts
  by_cases hseries : s.series c.series = some c.user
  · rw [forall_prop_of_true hseries]
    by_cases hpath : '\x00' ∉ Text.lstripSlash c.filepath
    · rw [and_iff_right hpath]
      rcases hfile : s.files c.series (Text.lstripSlash c.filepath) with _ | content
      · refine iff_of_true ((kept_of_error (e := .biz .fileNotFound) ?_).2 rfl) fun content h => (nomatch h)
        unfold publish publishSeriesFile
        simp only [hseries, ne_eq, not_true_eq_false, if_false, textColumn_eq, if_pos hpath, bind, Except.bind, hfile]
        rfl
      simp only [Option.some.injEq, forall_eq']
      rcases hfm : parseFrontmatter env.safeLoad content with e | fm
      · -- only a value that is no YAML error gets out of the reader
        have he : e = .valueError := by
          unfold parseFrontmatter at hfm
          split at hfm
          · cases hfm
          · split at hfm
            · cases hfm
            · cases hfm
            · cases hfm
            · exact (Except.error.inj hfm).symm
        refine iff_of_false ?_ fun ⟨fm, h, _⟩ => (nomatch h)
        have hload : parseFrontmatter (env.atTime env.now).safeLoad content = .error e := hfm
        rw [kept_of_error (e := .valueError)]
        · exact Bool.false_ne_true
        · unfold publish publishSeriesFile
          simp only [hseries, ne_eq, not_true_eq_false, if_false, textColumn_eq, if_pos hpath, bind, Except.bind, hfile, hload, he]
          rfl
      simp only [Except.ok.injEq, exists_eq_left']
      have hcall := publish_file env.now hseries hpath hfile hfm
      generalize hd : draftOf (Text.lstripSlash c.filepath) content fm c.override = d at hcall ⊢
      by_cases hz : '\x00' ∉ d.category
      · rw [and_iff_right hz]
        rcases hboard : s.boards d.category with _ | board
        · have hensure := ensureBySlug_none hz hboard
          by_cases hfit : fits 50 d.category = true
          · rw [if_pos hfit] at hensure
            by_cases hlen : d.category.length ≤ 50
            · rw [if_pos hlen] at hensure
              simp only [hfit, hlen, true_and, forall_true_left]
              exact kept_of_board hseries hpath hfile hfm hd hz hensure rfl rfl rfl (Function.update_self ..)
            · rw [if_neg hlen] at hensure
              rw [hensure] at hcall
              exact iff_of_true ((kept_of_error hcall).2 rfl) ⟨hfit, fun h => absurd h hlen⟩
          · rw [if_neg hfit] at hensure
            rw [hensure] at hcall
            refine iff_of_false ?_ fun h => hfit h.1
            rw [kept_of_error hcall]
            exact Bool.false_ne_true
        · exact kept_of_board hseries hpath hfile hfm hd hz (ensureBySlug_some hz hboard) rfl rfl rfl hboard
      · refine iff_of_false ?_ fun h => hz h.1
        have hensure : ensureBySlug s d.category = .error .dataError := by
          unfold ensureBySlug
          rw [textColumn_eq, if_neg hz]
          rfl
        rw [hensure] at hcall
        rw [kept_of_error hcall]
        exact Bool.false_ne_true
    · refine iff_of_false ?_ fun h => hpath h.1
      rw [kept_of_error (e := .dataError)]
      · exact Bool.false_ne_true
      · unfold publish publishSeriesFile
        simp only [hseries, ne_eq, not_true_eq_false, if_false, textColumn_eq, if_neg hpath, bind, Except.bind]
        rfl
  · refine iff_of_true ?_ fun h => absurd h hseries
    rcases howner : s.series c.series with _ | owner
    · refine (kept_of_error (e := .biz .seriesNotFound) ?_).2 rfl
      unfold publish publishSeriesFile
      simp only [howner]
      rfl
    · have hne : owner ≠ c.user := by
        rintro rfl
        exact hseries howner
      refine (kept_of_error (e := .biz .forbidden) ?_).2 rfl
      unfold publish publishSeriesFile
      simp only [howner, if_pos hne]
      rfl

/-! ## A run -/

/-- user 1 has a series with one file, and user 2 an article -/
def shelf : Store where
  series := fun k => if k = 0 then some 1 else none
  files := fun k path => if k = 0 ∧ path = "a.md".toList then some "# Title".toList else none
  stored := by
    intro k path content h
    split_ifs at h
    rw [← Option.some.inj h]
    decide
  boards := fun _ => none
  nextBoard := 0
  items :=
    { rows := fun n => if n = 0 then some
        { contentType := .article, boardId := 9, authorId := some 2, slug := some "news".toList, title := "News".toList,
          excerpt := [], content := "Old".toList } else none
      next := 1
      fresh := by
        intro n hn
        rw [if_neg (by omega)]
      unique := by
        intro n m r r' s hr hr' _ _
        split_ifs at hr hr'
        omega }

/-- there is no frontmatter to be read -/
def shelfEnv : Env := { now := 5, safeLoad := fun _ => .error .yamlError }

/-- user 1 publishes the file under the slug of the article -/
def hijack : Call := { series := 0, user := 1, filepath := "a.md".toList, override := [("slug".toList, .text "news".toList)] }

/-- the article of user 2 is a blog post now, with the text of user 1 -/
theorem hijacked : ¬ Kept shelfEnv shelf hijack ∧
    ∃ s, publish shelfEnv shelf hijack = .ok (0, s) ∧
      (s.items.rows 0).map (fun r => (r.authorId, r.contentType, r.title)) = some (some 2, .blogPost, "Title".toList) := by
  obtain ⟨s, hs, hrow⟩ : ∃ s, publish shelfEnv shelf hijack = .ok (0, s) ∧
      (s.items.rows 0).map (fun r => (r.authorId, r.contentType, r.title)) = some (some 2, .blogPost, "Title".toList) :=
    ⟨_, rfl, by decide⟩
  refine ⟨fun hkept => ?_, s, hs, hrow⟩
  have hcall : publish (shelfEnv.atTime shelfEnv.now) shelf hijack = .ok (0, s) := hs
  unfold Kept KeptBy at hkept
  simp only [hcall] at hkept
  have hmine := (hkept.1 0 ?_).2.2 _ rfl
  · cases hmine.1
  · intro heq
    rw [heq] at hrow
    revert hrow
    decide

end LkmService.Blog
