/-
Tag synchronisation: an article's tags become the names of the list, unless the list has no name.

- `tagsOf σ n`: the names of the tags that article `n` is linked to. `Sound`: what the schema holds of the rows.
- `leads_nameToId` … `leads_flushLinks`: what each part of `sync_for_article` leaves of the rows, run while nothing else runs.
- `Synced`: the rows after a synchronisation with a list that has a name. `leads_sync`: it comes about when every name fits
  its column, and else the synchronisation raises. `leads_again`: run on such rows it changes nothing.
- `replaces_iff`: the synchronisation replaces the article's tags iff every name fits and the list has a name or the article
  no tag. `emptied_list_keeps_tags`: an update to no tags leaves the tag that the article had.

`sync_for_article` returns at once when no name is left, before the links that are not in the list are deleted; its comment
on that deletion says that the method replaces.
-/
import Mathlib.Data.Set.Basic
import LkmService.Articles.Model
import LkmService.Lib.Solo

namespace LkmService.Articles

open Session Sql Sql.Discipline

open Tbl

/-! ## Names -/

theorem tagNamesSequence_append (names : List String) (name : String) : tagNamesSequence (names ++ [name]) =
    if name ≠ "" ∧ name ∉ tagNamesSequence names then tagNamesSequence names ++ [name] else tagNamesSequence names := by
  simp [tagNamesSequence, List.foldl_append]

theorem mem_tagNamesSequence {names : List String} {name : String} :
    name ∈ tagNamesSequence names ↔ name ∈ names ∧ name ≠ "" := by
  induction names using List.reverseRecOn with
  | nil => simp [tagNamesSequence]
  | append_singleton names last ih =>
    rw [tagNamesSequence_append, List.mem_append, List.mem_singleton]
    split_ifs with h
    · rw [List.mem_append, List.mem_singleton, ih]
      constructor
      · rintro (⟨hmem, hne⟩ | rfl)
        · exact ⟨Or.inl hmem, hne⟩
        · exact ⟨Or.inr rfl, h.1⟩
      · rintro ⟨hmem | rfl, hne⟩
        · exact Or.inl ⟨hmem, hne⟩
        · exact Or.inr rfl
    · rw [ih]
      constructor
      · exact fun hmem => ⟨Or.inl hmem.1, hmem.2⟩
      · rintro ⟨hmem | rfl, hne⟩
        · exact ⟨hmem, hne⟩
        · exact ih.1 (not_not.1 fun hnew => h ⟨hne, hnew⟩)

theorem nodup_tagNamesSequence (names : List String) : (tagNamesSequence names).Nodup := by
  induction names using List.reverseRecOn with
  | nil => simp [tagNamesSequence]
  | append_singleton names last ih =>
    rw [tagNamesSequence_append]
    split_ifs with h
    · exact List.nodup_append.2 ⟨ih, by simp, fun a ha b hb heq => h.2 (List.mem_singleton.1 hb ▸ heq ▸ ha)⟩
    · exact ih

/-- the column holds the name as it is -/
def Fits (name : String) : Prop := stored name = some name ∧ hasNul name = false

instance (name : String) : Decidable (Fits name) := inferInstanceAs (Decidable (_ ∧ _))

/-- what the column holds it would hold again -/
theorem fits_of_stored {name s : String} (h : stored name = some s) (hnul : hasNul name = false) : Fits s := by
  simp only [stored] at h
  split_ifs at h
  obtain rfl := Option.some.inj h
  constructor
  · simp [stored, List.take_take]
  · simp only [hasNul, String.toList_ofList, List.any_eq_false] at hnul ⊢
    exact fun c hc => hnul c (List.mem_of_mem_take hc)

/-! ## Rows -/

abbrev Rows := Snap Row Unit

variable {μ ν : Rows} {n m id : ℕ} {names ordered : List String} {i : ℕ}

/-- the tags that article `n` is linked to -/
def links (σ : Rows) (n : ℕ) : Set ℕ := {id | ∃ m, σ.com articleTag m = some { articleId := n, tagId := id }}

/-- the names of the tags that article `n` is linked to -/
def tagsOf (σ : Rows) (n : ℕ) : Set String := {name | ∃ id ∈ links σ n, σ.com tags id = some { name := name }}

/-- the schema: names are unique and fit their column, links are unique and lead to a tag -/
structure Sound (σ : Rows) : Prop where
  name : ∀ m m' t, σ.com tags m = some t → σ.com tags m' = some t → m = m'
  fits : ∀ m t, σ.com tags m = some t → Fits t.name
  link : ∀ m m' l, σ.com articleTag m = some l → σ.com articleTag m' = some l → m = m'
  tag : ∀ n, ∀ id ∈ links σ n, ∃ t, σ.com tags id = some t

/-- what `name_to_id` answers -/
def Found (σ : Rows) (names : List String) (found : List (String × ℕ)) : Prop :=
  ∀ name id, (name, id) ∈ found ↔ name ∈ names ∧ σ.com tags id = some { name := name }

theorem leads_nameToId (names : List String) : leads i (nameToId names) (fun r ν => ν = μ ∧
    ((∃ found, r = .ok found ∧ Found μ names found ∧ ∀ name ∈ names, hasNul name = false) ∨
      r = .error .dataError ∧ ∃ name ∈ names, hasNul name = true)) μ := by
  rw [nameToId]
  split_ifs with hnul
  · exact leads_raise ⟨rfl, Or.inr ⟨rfl, List.any_eq_true.1 hnul⟩⟩
  · have hclear : ∀ name ∈ names, hasNul name = false := by simpa using hnul
    refine leads_select fun rows hrows => leads_pure ⟨rfl, Or.inl ⟨_, rfl, fun name id => ?_, hclear⟩⟩
    simp only [List.mem_map, Prod.mk.injEq, Prod.exists]
    constructor
    · rintro ⟨m, t, ht, rfl, rfl⟩
      obtain ⟨hcom, hin⟩ := (hrows _ _).1 ht
      exact ⟨by simpa using hin, hcom⟩
    · rintro ⟨hin, hcom⟩
      exact ⟨id, { name := name }, (hrows _ _).2 ⟨hcom, by simpa using hin⟩, rfl, rfl⟩

theorem Found.lookup {found : List (String × ℕ)} (h : Found μ names found) (hμ : Sound μ) {name : String} :
    found.lookup name = some id ↔ name ∈ names ∧ μ.com tags id = some { name := name } := by
  rw [← h name id]
  constructor
  · intro hlookup
    obtain ⟨l₁, l₂, hfound, -⟩ := List.lookup_eq_some_iff.1 hlookup
    exact hfound ▸ List.mem_append_right l₁ List.mem_cons_self
  · intro hmem
    have hsome : (found.lookup name).isSome = true := List.lookup_isSome_iff.2 ⟨_, hmem, beq_self_eq_true name⟩
    obtain ⟨id', hlookup⟩ := Option.isSome_iff_exists.1 hsome
    obtain ⟨l₁, l₂, hfound, -⟩ := List.lookup_eq_some_iff.1 hlookup
    have hmem' : (name, id') ∈ found := hfound ▸ List.mem_append_right l₁ List.mem_cons_self
    rw [hlookup, hμ.name id' id _ ((h name id').1 hmem').2 ((h name id).1 hmem).2]

/-- the rows after the tags of the list were inserted -/
structure Grown (names : List String) (σ τ : Rows) : Prop where
  sound : Sound τ
  kept : ∀ m t, σ.com tags m = some t → τ.com tags m = some t
  there : ∀ name ∈ names, ∃ s id, stored name = some s ∧ τ.com tags id = some { name := s }
  link : τ.com articleTag = σ.com articleTag

theorem Grown.cons {name : String} {κ : Rows} (h : Grown [name] μ κ) (h' : Grown names κ ν) :
    Grown (name :: names) μ ν where
  sound := h'.sound
  kept m t ht := h'.kept m t (h.kept m t ht)
  there := by
    rintro name' hmem
    rcases List.mem_cons.1 hmem with rfl | hmem
    · obtain ⟨s, id, hs, hid⟩ := h.there name' (List.mem_singleton_self name')
      exact ⟨s, id, hs, h'.kept id _ hid⟩
    · exact h'.there name' hmem
  link := h'.link.trans h.link

/-- no name of the table is the new one -/
theorem Grown.insert {name s : String} (hμ : Sound μ) (hs : stored name = some s) (hnul : hasNul name = false)
    (hfree : μ.com tags m = none) (hnew : ∀ m' t, μ.com tags m' = some t → t.name ≠ s) :
    Grown [name] μ (μ.set tags m (some { name := s })) := by
  have hlink : (μ.set tags m (some { name := s })).com articleTag = μ.com articleTag := Snap.set_com_other _ (by decide)
  have hkept : ∀ m' t, μ.com tags m' = some t → (μ.set tags m (some { name := s })).com tags m' = some t := by
    intro m' t ht
    rw [Snap.set_com_self, if_neg]
    · exact ht
    · rintro rfl
      rw [hfree] at ht
      cases ht
  have hcases : ∀ m' t, (μ.set tags m (some { name := s })).com tags m' = some t →
      (m' = m ∧ t.name = s) ∨ μ.com tags m' = some t := by
    intro m' t ht
    rw [Snap.set_com_self] at ht
    split_ifs at ht with heq
    · exact Or.inl ⟨heq, congrArg Tag.name (Option.some.inj ht).symm⟩
    · exact Or.inr ht
  refine ⟨⟨?_, ?_, ?_, ?_⟩, hkept, ?_, hlink⟩
  · intro m₁ m₂ t h₁ h₂
    rcases hcases m₁ t h₁ with ⟨heq₁, hname⟩ | hold₁
    · rcases hcases m₂ t h₂ with ⟨heq₂, -⟩ | hold₂
      · rw [heq₁, heq₂]
      · exact absurd hname (hnew m₂ t hold₂)
    · rcases hcases m₂ t h₂ with ⟨-, hname⟩ | hold₂
      · exact absurd hname (hnew m₁ t hold₁)
      · exact hμ.name m₁ m₂ t hold₁ hold₂
  · intro m' t ht
    rcases hcases m' t ht with ⟨-, hname⟩ | ht
    · exact hname ▸ fits_of_stored hs hnul
    · exact hμ.fits m' t ht
  · rw [hlink]
    exact hμ.link
  · rintro n id ⟨m', hm'⟩
    rw [hlink] at hm'
    obtain ⟨t, ht⟩ := hμ.tag n id ⟨m', hm'⟩
    exact ⟨t, hkept id t ht⟩
  · intro name' hmem
    obtain rfl := List.mem_singleton.1 hmem
    exact ⟨s, m, hs, by rw [Snap.set_com_self, if_pos rfl]⟩

theorem Grown.links (h : Grown names μ ν) (n : ℕ) : links ν n = links μ n := by
  simp only [Articles.links, h.link]

theorem leads_insertTag (hμ : Sound μ) {name s : String} (hs : stored name = some s) (hnul : hasNul name = false) :
    leads i (insertUnique tags (.tagName s) (fun t => decide (t.name = s)) { name := s } : Op (Option ℕ))
      (fun r ν => ∃ o, r = .ok o ∧ Grown [name] μ ν) μ := by
  refine leads_insertUnique (fun m t ht hclash => ⟨_, rfl, ?_⟩) fun m hfree hclear => ⟨_, rfl, ?_⟩
  · refine ⟨hμ, fun _ _ => id, fun name' hmem => ?_, rfl⟩
    obtain rfl := List.mem_singleton.1 hmem
    obtain rfl : t.name = s := of_decide_eq_true hclash
    exact ⟨t.name, m, hs, ht⟩
  · exact Grown.insert hμ hs hnul hfree fun m' t ht => of_decide_eq_false (hclear m' t ht)

theorem leads_upsertTags (hμ : Sound μ) (hnul : ∀ name ∈ names, hasNul name = false) :
    leads i (upsertTags names) (fun r ν => r = .ok () ∧ Grown names μ ν ∨
      r = .error .dataError ∧ ∃ name ∈ names, stored name = none) μ := by
  induction names generalizing μ with
  | nil => exact leads_pure (Or.inl ⟨rfl, hμ, fun _ _ => id, nofun, rfl⟩)
  | cons name names ih =>
    rw [upsertTags]
    rcases hs : stored name with _ | s
    · exact leads_raise (Or.inr ⟨rfl, name, List.mem_cons_self, hs⟩)
    · refine leads_then (leads_insertTag hμ hs (hnul name List.mem_cons_self)) fun o κ hκ => ?_
      refine leads_mono (ih hκ.sound fun name' hmem => hnul name' (List.mem_cons_of_mem name hmem)) ?_
      rintro r ν (⟨rfl, hν⟩ | ⟨rfl, name', hmem, hnone⟩)
      · exact Or.inl ⟨rfl, hκ.cons hν⟩
      · exact Or.inr ⟨rfl, name', List.mem_cons_of_mem name hmem, hnone⟩

/-- the tags of the names, one for each -/
structure Looked (σ : Rows) (ordered : List String) (ids : List ℕ) : Prop where
  nodup : ids.Nodup
  mem : ∀ id, id ∈ ids ↔ ∃ name ∈ ordered, σ.com tags id = some { name := name }
  there : ∀ name ∈ ordered, ∃ id, σ.com tags id = some { name := name }

theorem leads_lookupIds {found : List (String × ℕ)} (hμ : Sound μ) (h : Found μ names found)
    (hsub : ∀ name ∈ ordered, name ∈ names) (hnodup : ordered.Nodup) :
    leads i (lookupIds found ordered) (fun r ν => ν = μ ∧ ((∃ ids, r = .ok ids ∧ Looked μ ordered ids) ∨
      r = .error .keyError ∧ ∃ name ∈ ordered, ∀ id, μ.com tags id ≠ some { name := name })) μ := by
  induction ordered with
  | nil => exact leads_pure ⟨rfl, Or.inl ⟨[], rfl, List.nodup_nil, by simp, nofun⟩⟩
  | cons name ordered ih =>
    obtain ⟨hnot, hnodup⟩ := List.nodup_cons.1 hnodup
    rw [lookupIds]
    rcases hlookup : found.lookup name with _ | id
    · refine leads_raise ⟨rfl, Or.inr ⟨rfl, name, List.mem_cons_self, fun id hid => ?_⟩⟩
      rw [(h.lookup hμ).2 ⟨hsub name List.mem_cons_self, hid⟩] at hlookup
      cases hlookup
    · obtain ⟨-, hid⟩ := (h.lookup hμ).1 hlookup
      refine leads_seq (ih (fun name' hmem => hsub name' (List.mem_cons_of_mem name hmem)) hnodup) ?_ ?_
      · rintro rest ν ⟨rfl, ⟨_, hok, hrest⟩ | ⟨herror, -⟩⟩
        · obtain rfl := Except.ok.inj hok
          refine leads_pure ⟨rfl, Or.inl ⟨_, rfl, List.nodup_cons.2 ⟨fun hmem => ?_, hrest.nodup⟩, fun id' => ?_, ?_⟩⟩
          · obtain ⟨name', hmem', hid'⟩ := (hrest.mem id).1 hmem
            rw [hid] at hid'
            obtain rfl : name = name' := congrArg Tag.name (Option.some.inj hid')
            exact hnot hmem'
          · rw [List.mem_cons, hrest.mem]
            simp only [List.mem_cons, exists_eq_or_imp]
            refine or_congr_left ⟨?_, fun hid' => hμ.name id' id _ hid' hid⟩
            rintro rfl
            exact hid
          · intro name' hmem
            rcases List.mem_cons.1 hmem with rfl | hmem
            · exact ⟨id, hid⟩
            · exact hrest.there name' hmem
        · cases herror
      · rintro x ν ⟨rfl, ⟨ids, hok, -⟩ | ⟨herror, name', hmem, hmissing⟩⟩
        · cases hok
        · obtain rfl := Except.error.inj herror
          exact ⟨rfl, Or.inr ⟨rfl, name', List.mem_cons_of_mem name hmem, hmissing⟩⟩

theorem leads_deleteTags (p : ArticleTag → Bool) (ms : List ℕ) : leads i (deleteTags p ms) (fun r ν => ∃ u, r = .ok u ∧
    ν.com tags = μ.com tags ∧ (ms = [] → ν = μ) ∧
    ∀ m l, ν.com articleTag m = some l ↔ μ.com articleTag m = some l ∧ (m ∈ ms → p l = false)) μ := by
  induction ms generalizing μ with
  | nil => exact leads_pure ⟨(), rfl, rfl, fun _ => rfl, by simp⟩
  | cons m ms ih =>
    refine leads_then (P := fun _ κ => κ.com tags = μ.com tags ∧
      ∀ m' l, κ.com articleTag m' = some l ↔ μ.com articleTag m' = some l ∧ (m' = m → p l = false)) ?_ ?_
    · refine leads_deleteIf (fun hmiss => ⟨_, rfl, rfl, fun m' l => ?_⟩) fun l₀ hl₀ hp => ⟨_, rfl, ?_, fun m' l => ?_⟩
      · refine ⟨fun hl => ⟨hl, ?_⟩, And.left⟩
        rintro rfl
        exact hmiss l hl
      · exact Snap.set_com_other _ (by decide)
      · rw [Snap.set_com_self]
        split_ifs with heq
        · subst heq
          refine ⟨nofun, fun ⟨hl, hkeep⟩ => ?_⟩
          obtain rfl := Option.some.inj (hl₀.symm.trans hl)
          rw [hkeep rfl] at hp
          cases hp
        · exact ⟨fun hl => ⟨hl, fun h => absurd h heq⟩, And.left⟩
    · rintro b κ ⟨htags, hκ⟩
      refine leads_mono ih ?_
      rintro r ν ⟨u, hr, htags', -, hν⟩
      refine ⟨u, hr, htags'.trans htags, nofun, fun m' l => ?_⟩
      rw [hν, hκ, and_assoc]
      simp only [List.mem_cons, or_imp]

/-- the rows after the links of article `n` to the tags of the list were inserted -/
structure Linked (n : ℕ) (ids : List ℕ) (σ τ : Rows) : Prop where
  tags : τ.com tags = σ.com tags
  kept : ∀ m l, σ.com articleTag m = some l → τ.com articleTag m = some l
  new : ∀ m l, τ.com articleTag m = some l → σ.com articleTag m = some l ∨ l.articleId = n ∧ l.tagId ∈ ids
  there : ∀ id ∈ ids, id ∈ links τ n
  link : ∀ m m' l, τ.com articleTag m = some l → τ.com articleTag m' = some l → m = m'

theorem Linked.cons {κ : Rows} {ids : List ℕ} (h : Linked n [id] μ κ) (h' : Linked n ids κ ν) : Linked n (id :: ids) μ ν where
  tags := h'.tags.trans h.tags
  kept m l hl := h'.kept m l (h.kept m l hl)
  new m l hl := by
    rcases h'.new m l hl with hl | ⟨hn, hmem⟩
    · refine (h.new m l hl).imp_right fun hl => ⟨hl.1, ?_⟩
      rw [List.mem_singleton.1 hl.2]
      exact List.mem_cons_self
    · exact Or.inr ⟨hn, List.mem_cons_of_mem id hmem⟩
  there := by
    intro id' hmem
    rcases List.mem_cons.1 hmem with rfl | hmem
    · obtain ⟨m, hm⟩ := h.there id' (List.mem_singleton_self id')
      exact ⟨m, h'.kept m _ hm⟩
    · exact h'.there id' hmem
  link := h'.link

/-- a link that is not there goes through -/
theorem leads_insertLink (hlink : ∀ m m' l, μ.com articleTag m = some l → μ.com articleTag m' = some l → m = m')
    (hnew : id ∉ links μ n) : leads i (insertUnique articleTag (.articleTag n id)
      (fun l => decide (l.articleId = n ∧ l.tagId = id)) { articleId := n, tagId := id } : Op (Option ℕ))
      (fun r ν => ∃ o, r = .ok o ∧ (∃ m, o = some m) ∧ Linked n [id] μ ν) μ := by
  refine leads_insertUnique (fun m l hl hclash => ?_) fun m hfree _ => ⟨_, rfl, ⟨m, rfl⟩, ?_⟩
  · obtain ⟨rfl, rfl⟩ := of_decide_eq_true hclash
    exact absurd ⟨m, hl⟩ hnew
  · have hcases : ∀ m' l, (μ.set articleTag m (some { articleId := n, tagId := id })).com articleTag m' = some l →
        (m' = m ∧ l = { articleId := n, tagId := id }) ∨ μ.com articleTag m' = some l := by
      intro m' l hl
      rw [Snap.set_com_self] at hl
      split_ifs at hl with heq
      · exact Or.inl ⟨heq, (Option.some.inj hl).symm⟩
      · exact Or.inr hl
    refine ⟨Snap.set_com_other _ (by decide), fun m' l hl => ?_, fun m' l hl => ?_, fun id' hmem => ?_, ?_⟩
    · rw [Snap.set_com_self, if_neg]
      · exact hl
      · rintro rfl
        rw [hfree] at hl
        cases hl
    · rcases hcases m' l hl with ⟨-, rfl⟩ | hl
      · exact Or.inr ⟨rfl, List.mem_singleton_self id⟩
      · exact Or.inl hl
    · rw [List.mem_singleton.1 hmem]
      exact ⟨m, by rw [Snap.set_com_self, if_pos rfl]⟩
    · intro m₁ m₂ l h₁ h₂
      rcases hcases m₁ l h₁ with ⟨heq₁, hl⟩ | hold₁
      · rcases hcases m₂ l h₂ with ⟨heq₂, -⟩ | hold₂
        · rw [heq₁, heq₂]
        · exact absurd ⟨m₂, hl ▸ hold₂⟩ hnew
      · rcases hcases m₂ l h₂ with ⟨-, hl⟩ | hold₂
        · exact absurd ⟨m₁, hl ▸ hold₁⟩ hnew
        · exact hlink m₁ m₂ l hold₁ hold₂

theorem leads_flushLinks {ids : List ℕ} (hnodup : ids.Nodup) (hnew : ∀ id ∈ ids, id ∉ links μ n)
    (hlink : ∀ m m' l, μ.com articleTag m = some l → μ.com articleTag m' = some l → m = m') :
    leads i (flushLinks n ids) (fun r ν => r = .ok () ∧ Linked n ids μ ν ∧ (ids = [] → ν = μ)) μ := by
  induction ids generalizing μ with
  | nil => exact leads_pure ⟨rfl, ⟨rfl, fun _ _ => id, fun _ _ => Or.inl, nofun, hlink⟩, fun _ => rfl⟩
  | cons id ids ih =>
    obtain ⟨hnot, hnodup⟩ := List.nodup_cons.1 hnodup
    refine leads_then (leads_insertLink hlink (hnew id List.mem_cons_self)) ?_
    rintro _ κ ⟨⟨m, rfl⟩, hκ⟩
    refine leads_mono (ih hnodup (fun id' hmem hin => ?_) hκ.link) fun r ν h => ⟨h.1, hκ.cons h.2.1, nofun⟩
    obtain ⟨m', hm'⟩ := hin
    rcases hκ.new m' _ hm' with hold | ⟨-, heq⟩
    · exact hnew id' (List.mem_cons_of_mem id hmem) ⟨m', hold⟩
    · obtain rfl := List.mem_singleton.1 heq
      exact hnot hmem

/-! ## The synchronisation -/

/-- the article's links lead to the tags of the list, and each name of the list has a tag -/
structure Listed (σ : Rows) (n : ℕ) (ordered : List String) : Prop where
  own : ∀ id, id ∈ links σ n ↔ ∃ name ∈ ordered, σ.com tags id = some { name := name }
  there : ∀ name ∈ ordered, ∃ id, σ.com tags id = some { name := name }

/-- the rows `τ` from which only the links to `ids` are missing -/
structure Pending (n : ℕ) (ordered : List String) (σ τ : Rows) (ids : List ℕ) : Prop where
  sound : Sound τ
  kept : ∀ m t, σ.com tags m = some t → τ.com tags m = some t
  others : ∀ n', n' ≠ n → links τ n' = links σ n'
  own : ∀ id, id ∈ links τ n ∨ id ∈ ids ↔ ∃ name ∈ ordered, τ.com tags id = some { name := name }
  there : ∀ name ∈ ordered, ∃ id, τ.com tags id = some { name := name }
  nodup : ids.Nodup
  new : ∀ id ∈ ids, id ∉ links τ n
  idle : Listed σ n ordered → ids = [] ∧ τ = σ

/-- the links of the article that are not in the list are deleted -/
theorem Pending.deleted {tagIds : List ℕ} {rows old : List (ℕ × ArticleTag)} (hμ : Sound μ) (h : Looked μ ordered tagIds)
    (hrows : ∀ m l, (m, l) ∈ rows ↔
      μ.com articleTag m = some l ∧ (decide (l.articleId = n) && tagIds.contains l.tagId) = true)
    (hold : ∀ m l, (m, l) ∈ old ↔
      μ.com articleTag m = some l ∧ (decide (l.articleId = n) && !tagIds.contains l.tagId) = true)
    (hν : ν.com tags = μ.com tags ∧ (old.map Prod.fst = [] → ν = μ) ∧ ∀ m l, ν.com articleTag m = some l ↔
      μ.com articleTag m = some l ∧
        (m ∈ old.map Prod.fst → (decide (l.articleId = n) && !tagIds.contains l.tagId) = false)) :
    Pending n ordered μ ν (tagIds.filter fun id => !(rows.map fun q => q.2.tagId).contains id) := by
  obtain ⟨htags, hnone, hdel⟩ := hν
  simp only [Bool.and_eq_true, decide_eq_true_eq, Bool.not_eq_true', List.contains_eq_mem,
    decide_eq_false_iff_not] at hrows hold
  have hexisting : ∀ id, id ∈ rows.map (fun q => q.2.tagId) ↔ id ∈ links μ n ∧ id ∈ tagIds := by
    intro id
    simp only [List.mem_map, Prod.exists, hrows]
    constructor
    · rintro ⟨m, ⟨n', id'⟩, ⟨hl, rfl, hmem⟩, rfl⟩
      exact ⟨⟨m, hl⟩, hmem⟩
    · rintro ⟨⟨m, hl⟩, hmem⟩
      exact ⟨m, _, ⟨hl, rfl, hmem⟩, rfl⟩
  have hlinks : ∀ n' id, id ∈ links ν n' ↔ id ∈ links μ n' ∧ (n' = n → id ∈ tagIds) := by
    intro n' id
    constructor
    · rintro ⟨m, hm⟩
      obtain ⟨hl, hkeep⟩ := (hdel m _).1 hm
      refine ⟨⟨m, hl⟩, fun heq => ?_⟩
      by_contra hnot
      have hmem : m ∈ old.map Prod.fst := List.mem_map_of_mem ((hold m _).2 ⟨hl, heq, hnot⟩)
      simpa [heq, hnot] using hkeep hmem
    · rintro ⟨⟨m, hl⟩, hin⟩
      refine ⟨m, (hdel m _).2 ⟨hl, fun _ => ?_⟩⟩
      by_cases heq : n' = n
      · simp [hin heq]
      · simp [heq]
  have hmem : ∀ id, id ∈ tagIds.filter (fun id => !(rows.map fun q => q.2.tagId).contains id) ↔
      id ∈ tagIds ∧ id ∉ links μ n := by
    intro id
    simp only [List.mem_filter, Bool.not_eq_true', List.contains_eq_mem, decide_eq_false_iff_not, hexisting]
    exact ⟨fun hid => ⟨hid.1, fun hlink => hid.2 ⟨hlink, hid.1⟩⟩, fun hid => ⟨hid.1, fun hboth => hid.2 hboth.1⟩⟩
  refine ⟨⟨?_, ?_, ?_, ?_⟩, ?_, ?_, ?_, ?_, h.nodup.filter _, ?_, ?_⟩
  · rw [htags]
    exact hμ.name
  · rw [htags]
    exact hμ.fits
  · exact fun m m' l hl hl' => hμ.link m m' l ((hdel m l).1 hl).1 ((hdel m' l).1 hl').1
  · rw [htags]
    exact fun n' id hid => hμ.tag n' id ((hlinks n' id).1 hid).1
  · rw [htags]
    exact fun _ _ => id
  · exact fun n' hne => Set.ext fun id => ((hlinks n' id).trans (and_iff_left fun heq => absurd heq hne))
  · intro id
    rw [hlinks, hmem, htags, ← h.mem]
    constructor
    · rintro (hid | hid)
      · exact hid.2 rfl
      · exact hid.1
    · intro hid
      by_cases hlink : id ∈ links μ n
      · exact Or.inl ⟨hlink, fun _ => hid⟩
      · exact Or.inr ⟨hid, hlink⟩
  · rw [htags]
    exact h.there
  · exact fun id hid hlink => ((hmem id).1 hid).2 ((hlinks n id).1 hlink).1
  · intro hlisted
    have hall : ∀ id, id ∈ tagIds ↔ id ∈ links μ n := fun id => (h.mem id).trans (hlisted.own id).symm
    refine ⟨List.eq_nil_iff_forall_not_mem.2 fun id hid => ?_, hnone (List.map_eq_nil_iff.2 ?_)⟩
    · obtain ⟨hid, hnot⟩ := (hmem id).1 hid
      exact hnot ((hall id).1 hid)
    · refine List.eq_nil_iff_forall_not_mem.2 ?_
      rintro ⟨m, n', id⟩ hentry
      obtain ⟨hl, rfl, hnot⟩ := (hold m _).1 hentry
      exact hnot ((hall id).2 ⟨m, hl⟩)

/-- the tags that are missing were inserted before -/
theorem Pending.grown {ids : List ℕ} {κ : Rows} (h : Pending n ordered κ ν ids) (hκ : Grown names μ κ)
    (hnot : ¬ Listed μ n ordered) : Pending n ordered μ ν ids where
  sound := h.sound
  kept m t ht := h.kept m t (hκ.kept m t ht)
  others n' hne := (h.others n' hne).trans (hκ.links n')
  own := h.own
  there := h.there
  nodup := h.nodup
  new := h.new
  idle hlisted := absurd hlisted hnot

theorem leads_replaceLinks {found : List (String × ℕ)} (hμ : Sound μ) (h : Found μ ordered found) (hnodup : ordered.Nodup) :
    leads i (do
      let tagIds ← lookupIds found ordered
      let rows ← select articleTag fun _ l => decide (l.articleId = n) && tagIds.contains l.tagId
      let existing := rows.map fun q => q.2.tagId
      let old ← select articleTag fun _ l => decide (l.articleId = n) && !tagIds.contains l.tagId
      deleteTags (fun l => decide (l.articleId = n) && !tagIds.contains l.tagId) (old.map Prod.fst)
      pure (tagIds.filter fun id => !existing.contains id) : Op (List ℕ))
      (fun r ν => (∃ ids, r = .ok ids ∧ Pending n ordered μ ν ids) ∨
        r = .error .keyError ∧ ∃ name ∈ ordered, ∀ id, μ.com tags id ≠ some { name := name }) μ := by
  refine leads_seq (leads_lookupIds hμ h (fun _ => id) hnodup) ?_ ?_
  · rintro tagIds ν ⟨rfl, ⟨_, hok, hlooked⟩ | ⟨herror, -⟩⟩
    · obtain rfl := Except.ok.inj hok
      refine leads_select fun rows hrows => leads_select fun old hold => ?_
      refine leads_then (leads_deleteTags _ _) fun _ κ hκ => leads_pure (Or.inl ⟨_, rfl, ?_⟩)
      exact Pending.deleted hμ hlooked hrows hold hκ
    · cases herror
  · rintro x ν ⟨rfl, ⟨ids, hok, -⟩ | ⟨herror, hmissing⟩⟩
    · cases hok
    · exact Or.inr ⟨herror, hmissing⟩

/-- the tags of the names that were not found are inserted, and all are looked up again -/
theorem leads_insertMissing {missing : List String} {f : List (String × ℕ) → Op (List ℕ)}
    {Q : Except Exn (List ℕ) → Rows → Prop} (hμ : Sound μ) (hclear : ∀ name ∈ ordered, hasNul name = false)
    (hsub : ∀ name ∈ missing, name ∈ ordered)
    (hok : ∀ found κ, Grown missing μ κ → Found κ ordered found → leads i (f found) Q κ)
    (herror : ∀ x κ, (∃ name ∈ missing, ¬ Fits name) → Q (.error x) κ) :
    leads i (upsertTags missing >>= fun _ => (pure () : Op Unit) >>= fun _ => nameToId ordered >>= f) Q μ := by
  refine leads_seq (leads_upsertTags hμ fun name hmem => hclear name (hsub name hmem)) ?_ ?_
  · rintro u κ (⟨-, hκ⟩ | ⟨h, -⟩)
    · change leads i (nameToId ordered >>= f) Q κ
      refine leads_seq (leads_nameToId ordered) ?_ ?_
      · rintro found κ ⟨rfl, ⟨_, h, hfound, -⟩ | ⟨h, -⟩⟩
        · obtain rfl := Except.ok.inj h
          exact hok found κ hκ hfound
        · cases h
      · rintro x κ ⟨rfl, ⟨found, h, -⟩ | ⟨-, name, hmem, hnul⟩⟩
        · cases h
        · rw [hclear name hmem] at hnul
          cases hnul
    · cases h
  · rintro x κ (⟨h, -⟩ | ⟨-, name, hmem, hnone⟩)
    · cases h
    · refine herror x κ ⟨name, hmem, fun hfits => ?_⟩
      rw [hfits.1] at hnone
      cases hnone

/-- the names are those of `tag_names_sequence`, of which there is one at least -/
theorem leads_syncForArticle (hμ : Sound μ) (hne : tagNamesSequence names ≠ []) :
    leads i (syncForArticle n names (pure ())) (fun r ν =>
      ((∀ name ∈ names, Fits name) ∧ ∃ ids, r = .ok ids ∧ Pending n (tagNamesSequence names) μ ν ids) ∨
        (∃ name ∈ names, ¬ Fits name) ∧ ∃ x, r = .error x) μ := by
  have hnodup := nodup_tagNamesSequence names
  have hall : ∀ {σ : Rows}, Sound σ → (∀ name ∈ tagNamesSequence names, ∃ id, σ.com tags id = some { name := name }) →
      ∀ name ∈ names, Fits name := by
    intro σ hσ hthere name hmem
    by_cases hempty : name = ""
    · subst hempty
      decide
    · obtain ⟨id, hid⟩ := hthere name (mem_tagNamesSequence.2 ⟨hmem, hempty⟩)
      exact hσ.fits id _ hid
  rw [syncForArticle]
  dsimp only
  rw [if_neg (by simpa using hne)]
  refine leads_seq (leads_nameToId _) ?_ ?_
  · rintro found μ ⟨rfl, ⟨_, hok, hfound, hclear⟩ | ⟨herror, -⟩⟩
    · obtain rfl := Except.ok.inj hok
      have hfind : ∀ name ∈ tagNamesSequence names, (found.lookup name).isNone = false ↔
          ∃ id, μ.com tags id = some { name := name } := by
        intro name hmem
        rw [Option.isNone_eq_false_iff, Option.isSome_iff_exists]
        exact exists_congr fun id => (hfound.lookup hμ).trans (and_iff_right hmem)
      split_ifs with hmissing
      · have hthere : ∀ name ∈ tagNamesSequence names, ∃ id, μ.com tags id = some { name := name } := by
          intro name hmem
          rw [List.isEmpty_iff, List.filter_eq_nil_iff] at hmissing
          exact (hfind name hmem).1 (Bool.eq_false_iff.2 (hmissing name hmem))
        have hpure : leads i (pure found : Op (List (String × ℕ))) (fun r ν => ∃ a, r = .ok a ∧ a = found ∧ ν = μ) μ :=
          leads_pure ⟨found, rfl, rfl, rfl⟩
        refine leads_then hpure ?_
        rintro _ _ ⟨rfl, rfl⟩
        refine leads_mono (leads_replaceLinks hμ hfound hnodup) ?_
        rintro r κ (⟨ids, hok, hids⟩ | ⟨-, name, hmem, hnot⟩)
        · exact Or.inl ⟨hall hμ hthere, ids, hok, hids⟩
        · obtain ⟨id, hid⟩ := hthere name hmem
          exact absurd hid (hnot id)
      · have hin : ∀ name ∈ (tagNamesSequence names).filter (fun name => (found.lookup name).isNone),
            name ∈ tagNamesSequence names := fun name hmem => (List.mem_filter.1 hmem).1
        refine leads_insertMissing hμ hclear hin (fun found' κ hκ hfound' => ?_) fun x κ ⟨name, hmem, hnot⟩ => ?_
        · refine leads_mono (leads_replaceLinks hκ.sound hfound' hnodup) ?_
          rintro r ν (⟨ids, hok, hids⟩ | ⟨herror, name, hmem, hnot⟩)
          · refine Or.inl ⟨hall hids.sound hids.there, ids, hok, hids.grown hκ fun hlisted => ?_⟩
            rw [List.isEmpty_iff, List.filter_eq_nil_iff] at hmissing
            refine hmissing fun name hmem => ?_
            rw [(hfind name hmem).2 (hlisted.there name hmem)]
            exact Bool.false_ne_true
          · refine Or.inr ⟨⟨name, (mem_tagNamesSequence.1 hmem).1, fun hfits => ?_⟩, _, herror⟩
            by_cases hold : (found.lookup name).isNone = true
            · obtain ⟨s, id, hs, hid⟩ := hκ.there name (List.mem_filter.2 ⟨hmem, hold⟩)
              obtain rfl : name = s := Option.some.inj (hfits.1.symm.trans hs)
              exact hnot id hid
            · obtain ⟨id, hid⟩ := (hfind name hmem).1 (Bool.eq_false_iff.2 hold)
              exact hnot id (hκ.kept id _ hid)
        · exact Or.inr ⟨⟨name, (mem_tagNamesSequence.1 (hin name hmem)).1, hnot⟩, x, rfl⟩
    · cases herror
  · rintro x ν ⟨rfl, ⟨found, hok, -⟩ | ⟨-, name, hmem, hnul⟩⟩
    · cases hok
    · refine Or.inr ⟨⟨name, (mem_tagNamesSequence.1 hmem).1, fun hfits => ?_⟩, x, rfl⟩
      rw [hfits.2] at hnul
      cases hnul

/-- `sync_for_article` and the flush after it, as a request of their own -/
def syncTags (n : ℕ) (names : List String) : Op Unit :=
  transaction (do
    let links ← syncForArticle n names (pure ())
    flushLinks n links)

/-- the rows after a synchronisation with a list that has a name -/
structure Synced (n : ℕ) (ordered : List String) (σ τ : Rows) : Prop where
  sound : Sound τ
  kept : ∀ m t, σ.com tags m = some t → τ.com tags m = some t
  others : ∀ n', n' ≠ n → links τ n' = links σ n'
  listed : Listed τ n ordered
  idle : Listed σ n ordered → τ = σ

theorem Pending.flushed {κ : Rows} {ids : List ℕ} (h : Pending n ordered μ κ ids) (h' : Linked n ids κ ν)
    (hsame : ids = [] → ν = κ) : Synced n ordered μ ν := by
  have hown : ∀ id, id ∈ links ν n ↔ id ∈ links κ n ∨ id ∈ ids := by
    intro id
    constructor
    · rintro ⟨m, hm⟩
      exact (h'.new m _ hm).imp (fun hold => ⟨m, hold⟩) And.right
    · rintro (⟨m, hm⟩ | hid)
      · exact ⟨m, h'.kept m _ hm⟩
      · exact h'.there id hid
  have hothers : ∀ n', n' ≠ n → links ν n' = links κ n' := by
    intro n' hne
    ext id
    constructor
    · rintro ⟨m, hm⟩
      exact (h'.new m _ hm).elim (fun hold => ⟨m, hold⟩) fun hnew => absurd hnew.1 hne
    · rintro ⟨m, hm⟩
      exact ⟨m, h'.kept m _ hm⟩
  have hlisted : Listed ν n ordered := by
    constructor
    · intro id
      rw [hown, h'.tags]
      exact h.own id
    · rw [h'.tags]
      exact h.there
  refine ⟨⟨?_, ?_, h'.link, ?_⟩, ?_, fun n' hne => (hothers n' hne).trans (h.others n' hne), hlisted, ?_⟩
  · rw [h'.tags]
    exact h.sound.name
  · rw [h'.tags]
    exact h.sound.fits
  · intro n' id hid
    by_cases heq : n' = n
    · subst heq
      obtain ⟨name, -, ht⟩ := (hlisted.own id).1 hid
      exact ⟨_, ht⟩
    · rw [hothers n' heq] at hid
      rw [h'.tags]
      exact h.sound.tag n' id hid
  · rw [h'.tags]
    exact h.kept
  · intro hold
    obtain ⟨hnil, hκ⟩ := h.idle hold
    exact (hsame hnil).trans hκ

theorem leads_sync (hμ : Sound μ) (hne : tagNamesSequence names ≠ []) :
    leads i (syncForArticle n names (pure ()) >>= flushLinks n) (fun r ν =>
      ((∀ name ∈ names, Fits name) ∧ r = .ok () ∧ Synced n (tagNamesSequence names) μ ν) ∨
        (∃ name ∈ names, ¬ Fits name) ∧ ∃ x, r = .error x) μ := by
  refine leads_seq (leads_syncForArticle hμ hne) ?_ ?_
  · rintro ids κ (⟨hfits, _, hok, hids⟩ | ⟨-, x, herror⟩)
    · obtain rfl := Except.ok.inj hok
      refine leads_mono (leads_flushLinks hids.nodup hids.new hids.sound.link) ?_
      rintro r ν ⟨rfl, hν, hsame⟩
      exact Or.inl ⟨hfits, rfl, hids.flushed hν hsame⟩
    · cases herror
  · rintro x κ (⟨-, ids, hok, -⟩ | ⟨hnot, -⟩)
    · cases hok
    · exact Or.inr ⟨hnot, x, rfl⟩

/-- a list without a name changes nothing -/
theorem leads_sync_nil (hnil : tagNamesSequence names = []) :
    leads i (syncForArticle n names (pure ()) >>= flushLinks n) (fun r ν => r = .ok () ∧ ν = μ) μ := by
  rw [syncForArticle]
  dsimp only
  rw [if_pos (by simp [hnil])]
  exact leads_pure ⟨rfl, rfl⟩

/-! ## Replacement -/

/-- a store between two requests -/
structure Resting where
  db : Store
  quiet : ∀ j, db.own j = {}
  sound : Sound db.snap

/-- the synchronisation has replaced the tags of article `n`, and would change nothing more -/
structure Replaces (i n : ℕ) (names : List String) (d e : Store) : Prop where
  tags : tagsOf e.snap n = {name | name ∈ names ∧ name ≠ ""}
  others : ∀ n', n' ≠ n → tagsOf e.snap n' = tagsOf d.snap n'
  unique : ∀ m m' t t', e.snap.com Tbl.tags m = some t → e.snap.com Tbl.tags m' = some t' → t.name = t'.name → m = m'
  again : ∃ e', (syncTags n names).alone i e = some (.ok (), e') ∧ e'.snap = e.snap

theorem Listed.tagsOf (h : Listed μ n ordered) : tagsOf μ n = {name | name ∈ ordered} := by
  ext name
  constructor
  · rintro ⟨id, hid, ht⟩
    obtain ⟨name', hmem, ht'⟩ := (h.own id).1 hid
    rw [ht] at ht'
    obtain rfl : name = name' := congrArg Tag.name (Option.some.inj ht')
    exact hmem
  · intro hmem
    obtain ⟨id, ht⟩ := h.there name hmem
    exact ⟨id, (h.own id).2 ⟨name, hmem, ht⟩, ht⟩

theorem Synced.tagsOf (h : Synced n ordered μ ν) (hμ : Sound μ) {n' : ℕ} (hne : n' ≠ n) : tagsOf ν n' = tagsOf μ n' := by
  ext name
  constructor
  · rintro ⟨id, hid, ht⟩
    rw [h.others n' hne] at hid
    obtain ⟨t, ht'⟩ := hμ.tag n' id hid
    rw [h.kept id t ht'] at ht
    exact ⟨id, hid, ht'.trans ht⟩
  · rintro ⟨id, hid, ht⟩
    exact ⟨id, h.others n' hne ▸ hid, h.kept id _ ht⟩

/-- what a run of the synchronisation comes to, where the list has a name -/
theorem Resting.sync (d : Resting) (i n : ℕ) (hne : tagNamesSequence names ≠ []) :
    ∃ r e, (syncTags n names).alone i d.db = some (r, e) ∧ (∀ j, e.own j = {}) ∧
      ((∀ name ∈ names, Fits name) ∧ r = .ok () ∧ Synced n (tagNamesSequence names) d.db.snap e.snap ∨
        (∃ name ∈ names, ¬ Fits name) ∧ ∃ x, r = .error x) := by
  obtain ⟨r, e, hrun, hquiet, ⟨u, rfl, hu⟩ | ⟨x, ν, rfl, hx⟩⟩ := leads_transaction (leads_sync d.sound hne) d.quiet rfl
  · exact ⟨_, e, hrun, hquiet, hu⟩
  · refine ⟨_, e, hrun, hquiet, Or.inr ?_⟩
    rcases hx with ⟨-, hok, -⟩ | hx
    · cases hok
    · exact hx

theorem Resting.sync_nil (d : Resting) (i n : ℕ) (hnil : tagNamesSequence names = []) :
    ∃ e, (syncTags n names).alone i d.db = some (.ok (), e) ∧ (∀ j, e.own j = {}) ∧ e.snap = d.db.snap := by
  obtain ⟨r, e, hrun, hquiet, ⟨u, rfl, hu⟩ | ⟨x, ν, rfl, hx⟩⟩ := leads_transaction (leads_sync_nil hnil) d.quiet rfl
  · exact ⟨e, hrun, hquiet, hu.2⟩
  · cases hx.1

theorem Replaces.of_synced {d e : Resting} (hne : tagNamesSequence names ≠ [])
    (h : Synced n (tagNamesSequence names) d.db.snap e.db.snap) (hfits : ∀ name ∈ names, Fits name) :
    Replaces i n names d.db e.db where
  tags := by
    rw [h.listed.tagsOf]
    exact Set.ext fun name => mem_tagNamesSequence
  others _ hne' := h.tagsOf d.sound hne'
  unique := by
    rintro m m' t ⟨name⟩ ht ht' (rfl : t.name = name)
    exact h.sound.name m m' t ht ht'
  again := by
    obtain ⟨r, e', hrun, -, ⟨-, rfl, h'⟩ | ⟨⟨name, hmem, hnot⟩, -⟩⟩ := e.sync i n hne
    · exact ⟨e', hrun, h'.idle h.listed⟩
    · exact absurd (hfits name hmem) hnot

theorem Replaces.of_nil {d e : Resting} (hnil : tagNamesSequence names = []) (h : e.db.snap = d.db.snap)
    (hempty : tagsOf d.db.snap n = ∅) : Replaces i n names d.db e.db where
  tags := by
    rw [h, hempty]
    refine (Set.eq_empty_of_forall_notMem fun name hname => ?_).symm
    have hmem := mem_tagNamesSequence.2 hname
    rw [hnil] at hmem
    cases hmem
  others n' _ := by rw [h]
  unique := by
    rintro m m' t ⟨name⟩ ht ht' (rfl : t.name = name)
    exact e.sound.name m m' t ht ht'
  again := by
    obtain ⟨e', hrun, -, h'⟩ := e.sync_nil i n hnil
    exact ⟨e', hrun, h'⟩

/-- **Replacement.** The synchronisation replaces the tags of the article, leaves those of the others alone and changes
nothing when it runs again, iff every name fits its column and the list has a name or the article no tag. -/
theorem replaces_iff (d : Resting) (i n : ℕ) (names : List String) :
    (∃ e, (syncTags n names).alone i d.db = some (.ok (), e) ∧ Replaces i n names d.db e) ↔
      (∀ name ∈ names, Fits name) ∧ ((∃ name ∈ names, name ≠ "") ∨ tagsOf d.db.snap n = ∅) := by
  by_cases hnil : tagNamesSequence names = []
  · have hblank : ∀ name ∈ names, name = "" := by
      intro name hmem
      by_contra hne
      have hin := mem_tagNamesSequence.2 ⟨hmem, hne⟩
      rw [hnil] at hin
      cases hin
    obtain ⟨e, hrun, hquiet, hsame⟩ := d.sync_nil i n hnil
    constructor
    · rintro ⟨e', hrun', h⟩
      obtain rfl : e = e' := congrArg Prod.snd (Option.some.inj (hrun.symm.trans hrun'))
      refine ⟨fun name hmem => ?_, Or.inr ?_⟩
      · rw [hblank name hmem]
        decide
      · rw [← hsame, h.tags]
        exact Set.eq_empty_of_forall_notMem fun name hname => hname.2 (hblank name hname.1)
    · rintro ⟨-, ⟨name, hmem, hne⟩ | hempty⟩
      · exact absurd (hblank name hmem) hne
      · have hsound : Sound e.snap := hsame ▸ d.sound
        exact ⟨e, hrun, Replaces.of_nil (e := ⟨e, hquiet, hsound⟩) hnil hsame hempty⟩
  · obtain ⟨r, e, hrun, hquiet, ⟨hfits, rfl, h⟩ | ⟨⟨name, hmem, hnot⟩, x, rfl⟩⟩ := d.sync i n hnil
    · have hname : ∃ name ∈ names, name ≠ "" := by
        obtain ⟨name, hmem⟩ := List.exists_mem_of_ne_nil _ hnil
        exact ⟨name, mem_tagNamesSequence.1 hmem⟩
      refine ⟨fun _ => ⟨hfits, Or.inl hname⟩, fun _ => ?_⟩
      exact ⟨e, hrun, Replaces.of_synced (e := ⟨e, hquiet, h.sound⟩) hnil h hfits⟩
    · constructor
      · rintro ⟨e', hrun', -⟩
        cases hrun.symm.trans hrun'
      · exact fun h => absurd (h.1 name hmem) hnot

/-! ## The run that shows the rest -/

/-- one article with one tag -/
def demoStore : Store where
  tab
    | .articles => .ofList [{ slug := "a", title := "A", categoryId := 0, content := "text", updatedAt := 0 }]
    | .articleCategories => .ofList [{ slug := "c", title := "C" }]
    | .tags => .ofList [{ name := "lean" }]
    | .articleTag => .ofList [{ articleId := 0, tagId := 0 }]
  ext := ()

/-- An update to no tags answers the tag that the article had, and keeps it. -/
theorem emptied_list_keeps_tags :
    (∃ e, (syncTags 0 []).alone 0 demoStore = some (.ok (), e) ∧ "lean" ∈ tagsOf e.snap 0 ∧ ¬ Replaces 0 0 [] demoStore e) ∧
      ∃ e detail, (Request.updateArticleEx "a" { tags := some [] } 1).prog.alone 0 demoStore = some (.ok (.detail detail), e) ∧
        detail.tags = ["lean"] := by
  refine ⟨⟨_, rfl, ⟨0, ⟨0, rfl⟩, rfl⟩, fun h => ?_⟩, _, _, rfl, rfl⟩
  have hmem : "lean" ∈ tagsOf (demoStore.finish 0 true).snap 0 := ⟨0, ⟨0, rfl⟩, rfl⟩
  exact absurd (h.tags ▸ hmem) nofun

end LkmService.Articles
