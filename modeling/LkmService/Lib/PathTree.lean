/-
Nested dictionaries of names, and the sorted tree that is listed from one.

- `ensure d p`: the dictionary with a file at the path `p`. What is a file or a directory in the way of `p` is replaced.
- `Blob d q`: there is a file at `q`; `blob_ensure` says which files are left after `ensure`.
- `listing d`: the entries, sorted by name at every level (`Ordered`).
- `leaves`: the paths to the files of a listing. No leaf is the beginning of another, and a listing is known by its leaves.
- `ofPaths ps`: the listing of some paths; if none of them is the beginning of another it has exactly these as leaves.
-/
import LkmService.Lib.OrderedDict
import LkmService.Lib.Sorted
import Mathlib.Data.List.Infix

namespace LkmService.PathTree

open OrderedDict

/-- a file, or a directory with its dictionary -/
inductive Node (K : Type) where
  | blob
  | dir (entries : List (K × Node K))

abbrev Dict (K : Type) := List (K × Node K)

/-- an entry of a listing -/
inductive Item (K : Type) where
  | blob (name : K)
  | tree (name : K) (children : List (Item K))

def Item.name {K : Type} : Item K → K
  | .blob name => name
  | .tree name _ => name

variable {K : Type} [LinearOrder K] {d : Dict K} {p q : List K} {n : K} {ps : List (List K)}
  {a b : List (Item K)}

/-! ## Dictionaries -/

/-- the dictionary of a directory; a new one in place of anything else -/
def Node.entries : Option (Node K) → Dict K
  | some (.dir entries) => entries
  | _ => []

def ensure (d : Dict K) : List K → Dict K
  | [] => d
  | [name] => put d name .blob
  | name :: next :: rest => put d name (.dir (ensure (Node.entries (get? d name)) (next :: rest)))

def Blob (d : Dict K) : List K → Prop
  | [] => False
  | [name] => get? d name = some .blob
  | name :: next :: rest => Blob (Node.entries (get? d name)) (next :: rest)

theorem not_blob_nil : ¬Blob ([] : Dict K) q := by
  induction q with
  | nil => exact id
  | cons name rest ih =>
    cases rest with
    | nil => simp [Blob, get?]
    | cons next rest => exact ih

/-- the files after `ensure`: the new one, and those that it is not in the way of. By induction on the new path, for every
dictionary -/
theorem blob_ensure (hp : p ≠ []) : Blob (ensure d p) q ↔ q = p ∨ Blob d q ∧ ¬p <+: q ∧ ¬q <+: p := by
  induction p generalizing d q with
  | nil => exact absurd rfl hp
  | cons name rest ih =>
    rcases q with _ | ⟨m, q⟩
    · cases rest <;> simp [Blob]
    cases rest with
    | nil =>
      by_cases hm : m = name
      · subst hm
        cases q with
        | nil => simp [ensure, Blob, get?_put]
        | cons next q => simpa [ensure, Blob, get?_put, Node.entries] using not_blob_nil
      · have hother : Blob (ensure d [name]) (m :: q) ↔ Blob d (m :: q) := by
          cases q <;> simp [ensure, Blob, get?_put, hm]
        rw [hother]
        simp [List.cons_prefix_cons, hm, Ne.symm hm]
    | cons next rest =>
      by_cases hm : m = name
      · subst hm
        cases q with
        | nil => simp [ensure, Blob, get?_put, List.cons_prefix_cons]
        | cons next' q =>
          have hinner : Blob (ensure d (m :: next :: rest)) (m :: next' :: q) ↔
              Blob (ensure (Node.entries (get? d m)) (next :: rest)) (next' :: q) := by
            simp [ensure, Blob, get?_put, Node.entries]
          rw [hinner, ih (List.cons_ne_nil next rest), List.cons_prefix_cons, List.cons_prefix_cons]
          simp [Blob]
      · have hother : Blob (ensure d (name :: next :: rest)) (m :: q) ↔ Blob d (m :: q) := by
          cases q <;> simp [ensure, Blob, get?_put, hm]
        rw [hother]
        simp [List.cons_prefix_cons, hm, Ne.symm hm]

/-- each name once at every level, and no directory is empty -/
inductive WellFormed : Dict K → Prop
  | intro (d : Dict K) (keyed : Keyed d) (filled : ∀ n entries, (n, Node.dir entries) ∈ d → entries ≠ [])
      (dirs : ∀ n entries, (n, Node.dir entries) ∈ d → WellFormed entries) : WellFormed d

omit [LinearOrder K] in
theorem WellFormed.nil : WellFormed ([] : Dict K) := by
  refine ⟨_, List.nodup_nil, ?_, ?_⟩
  · exact fun _ _ h => (List.not_mem_nil h).elim
  · exact fun _ _ h => (List.not_mem_nil h).elim

omit [LinearOrder K] in
theorem WellFormed.keyed (h : WellFormed d) : Keyed d := by
  cases h with
  | intro _ hkeyed => exact hkeyed

theorem WellFormed.entries (h : WellFormed d) (name : K) : WellFormed (Node.entries (get? d name)) := by
  cases h with
  | intro _ hkeyed _ hdirs =>
    rcases hget : get? d name with _ | _ | entries
    · exact .nil
    · exact .nil
    · exact hdirs name entries ((get?_eq_some_iff hkeyed).1 hget)

theorem WellFormed.put {node : Node K} (h : WellFormed d)
    (hnode : ∀ entries, node = .dir entries → entries ≠ [] ∧ WellFormed entries) : WellFormed (put d n node) := by
  cases h with
  | intro _ hkeyed hfilled hdirs =>
    have hmem : ∀ m entries, (m, Node.dir entries) ∈ OrderedDict.put d n node →
        node = .dir entries ∨ (m, Node.dir entries) ∈ d := by
      intro m entries hmem
      have hget := (get?_eq_some_iff (hkeyed.put n node)).2 hmem
      rw [get?_put] at hget
      split_ifs at hget with hm
      · exact .inl (Option.some.inj hget)
      · exact .inr ((get?_eq_some_iff hkeyed).1 hget)
    refine ⟨_, hkeyed.put n node, fun m entries h => ?_, fun m entries h => ?_⟩
    · exact (hmem m entries h).elim (fun h => (hnode entries h).1) (hfilled m entries)
    · exact (hmem m entries h).elim (fun h => (hnode entries h).2) (hdirs m entries)

theorem put_ne_nil {node : Node K} : put d n node ≠ [] := by
  intro h
  have hget := get?_put (d := d) (k := n) (j := n) (v := node)
  rw [h] at hget
  simp [get?] at hget

theorem ensure_ne_nil (hp : p ≠ []) : ensure d p ≠ [] := by
  match p, hp with
  | [_], _ => exact put_ne_nil
  | _ :: _ :: _, _ => exact put_ne_nil

theorem WellFormed.ensure (h : WellFormed d) (p : List K) : WellFormed (ensure d p) := by
  induction p generalizing d with
  | nil => exact h
  | cons name rest ih =>
    cases rest with
    | nil => exact h.put fun entries hnode => by cases hnode
    | cons next rest =>
      refine h.put fun entries hnode => ?_
      cases hnode
      exact ⟨ensure_ne_nil (List.cons_ne_nil next rest), ih (h.entries name)⟩

/-! ## Listings -/

def sortByName (items : List (Item K)) : List (Item K) := items.insertionSort fun a b => a.name ≤ b.name

mutual

def Node.item (name : K) : Node K → Item K
  | .blob => .blob name
  | .dir entries => .tree name (sortByName (itemsOf entries))
termination_by structural node => node

def itemsOf : List (K × Node K) → List (Item K)
  | [] => []
  | entry :: rest => itemOf entry :: itemsOf rest
termination_by structural entries => entries

def itemOf : K × Node K → Item K
  | (name, node) => node.item name
termination_by structural entry => entry

end

def listing (d : Dict K) : List (Item K) := sortByName (itemsOf d)

mutual

def Item.leaves : Item K → List (List K)
  | .blob name => [[name]]
  | .tree name children => (leavesOf children).map (name :: ·)

/-- the paths to the files -/
def leavesOf : List (Item K) → List (List K)
  | [] => []
  | item :: rest => item.leaves ++ leavesOf rest

end

/-- sorted by name at every level, each name once, and no empty directory -/
inductive Ordered : List (Item K) → Prop
  | intro (items : List (Item K)) (sorted : items.Pairwise fun a b => a.name < b.name)
      (filled : ∀ n children, Item.tree n children ∈ items → children ≠ [])
      (trees : ∀ n children, Item.tree n children ∈ items → Ordered children) : Ordered items

theorem itemsOf_eq_map (d : Dict K) : itemsOf d = d.map itemOf := by
  induction d with
  | nil => rfl
  | cons entry d ih => rw [itemsOf, ih, List.map_cons]

theorem itemOf_name (entry : K × Node K) : (itemOf entry).name = entry.1 := by
  obtain ⟨name, _ | entries⟩ := entry
  · rfl
  · rfl

omit [LinearOrder K] in
theorem mem_leavesOf : q ∈ leavesOf a ↔ ∃ item ∈ a, q ∈ item.leaves := by
  induction a with
  | nil => simp [leavesOf]
  | cons item a ih => simp [leavesOf, ih]

theorem mem_listing {item : Item K} : item ∈ listing d ↔ ∃ entry ∈ d, itemOf entry = item := by
  rw [listing, sortByName, List.mem_insertionSort, itemsOf_eq_map, List.mem_map]

theorem blob_mem_listing : Item.blob n ∈ listing d ↔ (n, Node.blob) ∈ d := by
  rw [mem_listing]
  constructor
  · rintro ⟨⟨name, _ | entries⟩, hentry, heq⟩
    · cases heq
      exact hentry
    · cases heq
  · intro h
    exact ⟨_, h, rfl⟩

theorem tree_mem_listing {children : List (Item K)} :
    Item.tree n children ∈ listing d ↔ ∃ entries, (n, Node.dir entries) ∈ d ∧ listing entries = children := by
  rw [mem_listing]
  constructor
  · rintro ⟨⟨name, _ | entries⟩, hentry, heq⟩
    · cases heq
    · cases heq
      exact ⟨entries, hentry, rfl⟩
  · rintro ⟨entries, hentry, rfl⟩
    exact ⟨_, hentry, rfl⟩

theorem listing_ne_nil (h : d ≠ []) : listing d ≠ [] := by
  intro hnil
  obtain ⟨entry, hentry⟩ := List.exists_mem_of_ne_nil d h
  have hmem : itemOf entry ∈ listing d := mem_listing.2 ⟨entry, hentry, rfl⟩
  rw [hnil] at hmem
  exact List.not_mem_nil hmem

theorem sorted_listing (h : Keyed d) : (listing d).Pairwise fun a b => a.name < b.name := by
  have hnames : (itemsOf d).map Item.name = d.map Prod.fst := by
    rw [itemsOf_eq_map, List.map_map]
    exact List.map_congr_left fun entry _ => itemOf_name entry
  exact Sorted.pairwise_sorted (hnames ▸ h)

theorem WellFormed.ordered (h : WellFormed d) : Ordered (listing d) := by
  induction h with
  | intro d hkeyed hfilled _ ih =>
    refine ⟨_, sorted_listing hkeyed, fun n children hmem => ?_, fun n children hmem => ?_⟩
    · obtain ⟨entries, hentries, rfl⟩ := tree_mem_listing.1 hmem
      exact listing_ne_nil (hfilled n entries hentries)
    · obtain ⟨entries, hentries, rfl⟩ := tree_mem_listing.1 hmem
      exact ih n entries hentries

/-- the files of a dictionary are the leaves of its listing -/
theorem WellFormed.mem_leaves (h : WellFormed d) : q ∈ leavesOf (listing d) ↔ Blob d q := by
  induction h generalizing q with
  | intro d hkeyed _ _ ih =>
    rw [mem_leavesOf]
    constructor
    · rintro ⟨item, hitem, hq⟩
      cases item with
      | blob n =>
        obtain rfl : q = [n] := by simpa [Item.leaves] using hq
        exact (get?_eq_some_iff hkeyed).2 (blob_mem_listing.1 hitem)
      | tree n children =>
        obtain ⟨entries, hentries, rfl⟩ := tree_mem_listing.1 hitem
        obtain ⟨r, hr, rfl⟩ := List.mem_map.1 hq
        have hblob := (ih n entries hentries).1 hr
        cases r with
        | nil => exact hblob.elim
        | cons next rest =>
          rw [Blob, (get?_eq_some_iff hkeyed).2 hentries]
          exact hblob
    · intro hblob
      match q, hblob with
      | [n], hblob =>
        refine ⟨.blob n, blob_mem_listing.2 ((get?_eq_some_iff hkeyed).1 hblob), ?_⟩
        exact List.mem_singleton_self _
      | n :: next :: rest, hblob =>
        rw [Blob] at hblob
        rcases hget : get? d n with _ | _ | entries
        · rw [hget] at hblob
          exact (not_blob_nil hblob).elim
        · rw [hget] at hblob
          exact (not_blob_nil hblob).elim
        · rw [hget] at hblob
          have hentries := (get?_eq_some_iff hkeyed).1 hget
          refine ⟨.tree n (listing entries), tree_mem_listing.2 ⟨entries, hentries, rfl⟩, ?_⟩
          exact List.mem_map.2 ⟨_, (ih n entries hentries).2 hblob, rfl⟩

/-! ## Leaves -/

omit [LinearOrder K] in
theorem tree_leaves {r : List K} {children : List (Item K)} :
    n :: r ∈ (Item.tree n children).leaves ↔ r ∈ leavesOf children := by
  simp [Item.leaves]

omit [LinearOrder K] in
theorem head_of_mem_leaves {item : Item K} (h : q ∈ item.leaves) : ∃ r, q = item.name :: r := by
  cases item with
  | blob name => exact ⟨[], List.mem_singleton.1 h⟩
  | tree name children =>
    obtain ⟨r, _, rfl⟩ := List.mem_map.1 h
    exact ⟨r, rfl⟩

omit [LinearOrder K] in
theorem nil_notMem_leavesOf : [] ∉ leavesOf a := by
  intro h
  obtain ⟨item, _, hq⟩ := mem_leavesOf.1 h
  obtain ⟨r, hr⟩ := head_of_mem_leaves hq
  cases hr

theorem Ordered.nodup_names (h : Ordered a) : (a.map Item.name).Nodup := by
  cases h with
  | intro _ hsorted => exact List.pairwise_map.2 (hsorted.imp ne_of_lt)

/-- the item that a leaf goes through -/
theorem Ordered.leaf_of_item {item : Item K} {r : List K} (h : Ordered a) (hitem : item ∈ a)
    (hleaf : item.name :: r ∈ leavesOf a) : item.name :: r ∈ item.leaves := by
  obtain ⟨other, hother, hmem⟩ := mem_leavesOf.1 hleaf
  obtain ⟨s, hs⟩ := head_of_mem_leaves hmem
  obtain rfl := List.inj_on_of_nodup_map h.nodup_names hitem hother (List.cons.inj hs).1
  exact hmem

/-- there is a file below every directory -/
theorem Ordered.exists_leaf (h : Ordered a) (hne : a ≠ []) : ∃ q, q ∈ leavesOf a := by
  induction h with
  | intro a _ hfilled _ ih =>
    obtain ⟨item, hitem⟩ := List.exists_mem_of_ne_nil a hne
    cases item with
    | blob n => exact ⟨[n], mem_leavesOf.2 ⟨_, hitem, List.mem_singleton_self _⟩⟩
    | tree n children =>
      obtain ⟨r, hr⟩ := ih n children hitem (hfilled n children hitem)
      exact ⟨n :: r, mem_leavesOf.2 ⟨_, hitem, tree_leaves.2 hr⟩⟩

/-- no file lies below another -/
theorem Ordered.prefix_free (h : Ordered a) (hp : p ∈ leavesOf a) (hq : q ∈ leavesOf a) (hpq : p <+: q) : p = q := by
  induction h generalizing p q with
  | intro a hsorted hfilled htrees ih =>
    have hordered : Ordered a := ⟨a, hsorted, hfilled, htrees⟩
    obtain ⟨item, hitem, hp⟩ := mem_leavesOf.1 hp
    obtain ⟨r, rfl⟩ := head_of_mem_leaves hp
    obtain ⟨t, rfl⟩ := hpq
    have hq := hordered.leaf_of_item hitem hq
    cases item with
    | blob n =>
      have hq : (Item.blob n).name :: (r ++ t) = [n] := List.mem_singleton.1 hq
      obtain ⟨rfl, rfl⟩ := List.append_eq_nil_iff.1 (List.cons.inj hq).2
      rfl
    | tree n children =>
      have heq := ih n children hitem (tree_leaves.1 hp) (tree_leaves.1 hq) (List.prefix_append r t)
      exact congrArg (n :: ·) heq

theorem Ordered.nodup_leaves (h : Ordered a) : (leavesOf a).Nodup := by
  induction h with
  | intro a hsorted hfilled htrees ih =>
    induction a with
    | nil => exact List.nodup_nil
    | cons item a iha =>
      obtain ⟨hfirst, hrest⟩ := List.pairwise_cons.1 hsorted
      have hrest := iha hrest (fun n c h => hfilled n c (List.mem_cons_of_mem _ h))
        (fun n c h => htrees n c (List.mem_cons_of_mem _ h)) (fun n c h => ih n c (List.mem_cons_of_mem _ h))
      refine List.nodup_append.2 ⟨?_, hrest, ?_⟩
      · cases item with
        | blob n => exact List.nodup_singleton _
        | tree n children =>
          have hchildren := ih n children List.mem_cons_self
          exact hchildren.map (List.cons_injective (a := n))
      · intro p hp q hq hpq
        obtain ⟨r, rfl⟩ := head_of_mem_leaves hp
        obtain ⟨other, hother, hq⟩ := mem_leavesOf.1 hq
        obtain ⟨s, rfl⟩ := head_of_mem_leaves hq
        exact absurd (List.cons.inj hpq).1 (ne_of_lt (hfirst other hother))

/-- what another listing has in the place of an item, if it has its leaves -/
theorem Ordered.counterpart {item : Item K} (ha : Ordered a) (hitem : item ∈ a)
    (hleaves : ∀ q ∈ leavesOf a, q ∈ leavesOf b) :
    (∃ n, item = .blob n ∧ .blob n ∈ b) ∨ ∃ n children children', item = .tree n children ∧ .tree n children' ∈ b := by
  cases item with
  | blob n =>
    have hleaf : [n] ∈ leavesOf a := mem_leavesOf.2 ⟨_, hitem, List.mem_singleton_self _⟩
    obtain ⟨other, hother, hmem⟩ := mem_leavesOf.1 (hleaves _ hleaf)
    cases other with
    | blob m =>
      obtain rfl : n = m := by simpa [Item.leaves] using hmem
      exact .inl ⟨n, rfl, hother⟩
    | tree m children =>
      obtain ⟨r, hr, heq⟩ := List.mem_map.1 hmem
      obtain rfl : r = [] := (List.cons.inj heq).2
      exact absurd hr nil_notMem_leavesOf
  | tree n children =>
    cases ha with
    | intro _ _ hfilled htrees =>
      obtain ⟨r, hr⟩ := (htrees n children hitem).exists_leaf (hfilled n children hitem)
      have hleaf : n :: r ∈ leavesOf a := mem_leavesOf.2 ⟨_, hitem, tree_leaves.2 hr⟩
      obtain ⟨other, hother, hmem⟩ := mem_leavesOf.1 (hleaves _ hleaf)
      cases other with
      | blob m =>
        obtain rfl : r = [] := (List.cons.inj (List.mem_singleton.1 hmem)).2
        exact absurd hr nil_notMem_leavesOf
      | tree m children' =>
        obtain ⟨s, _, heq⟩ := List.mem_map.1 hmem
        obtain rfl : m = n := (List.cons.inj heq).1
        exact .inr ⟨m, children, children', rfl, hother⟩

/-- a listing is known by its leaves. By induction on one of the two, whose directories have the leaves of the other's -/
theorem Ordered.eq_of_leaves (ha : Ordered a) (hb : Ordered b) (hleaves : ∀ q, q ∈ leavesOf a ↔ q ∈ leavesOf b) : a = b := by
  induction ha generalizing b with
  | intro a hsorted hfilled htrees ih =>
    have ha : Ordered a := ⟨a, hsorted, hfilled, htrees⟩
    have hchildren : ∀ n children children', Item.tree n children ∈ a → Item.tree n children' ∈ b → children = children' := by
      intro n children children' hmem hmem'
      have hb' : Ordered children' := by
        cases hb with
        | intro _ _ _ htrees' => exact htrees' n children' hmem'
      refine ih n children hmem hb' fun r => ⟨fun hr => ?_, fun hr => ?_⟩
      · have hleaf := mem_leavesOf.2 ⟨_, hmem, tree_leaves.2 hr⟩
        exact tree_leaves.1 (hb.leaf_of_item hmem' ((hleaves _).1 hleaf))
      · have hleaf := mem_leavesOf.2 ⟨_, hmem', tree_leaves.2 hr⟩
        exact tree_leaves.1 (ha.leaf_of_item hmem ((hleaves _).2 hleaf))
    have hmem : ∀ item, item ∈ a ↔ item ∈ b := by
      refine fun item => ⟨fun h => ?_, fun h => ?_⟩
      · obtain ⟨n, rfl, hb⟩ | ⟨n, children, children', rfl, hb⟩ := ha.counterpart h fun q => (hleaves q).1
        · exact hb
        · rw [hchildren n children children' h hb]
          exact hb
      · obtain ⟨n, rfl, ha⟩ | ⟨n, children, children', rfl, ha⟩ := hb.counterpart h fun q => (hleaves q).2
        · exact ha
        · rw [← hchildren n children' children ha h]
          exact ha
    cases hb with
    | intro _ hsorted' =>
      exact Sorted.eq_of_mem_iff hsorted hsorted' hmem

/-! ## The tree of some paths -/

def ofPaths (ps : List (List K)) : Dict K := ps.foldl ensure []

theorem WellFormed.foldl (h : WellFormed d) (ps : List (List K)) : WellFormed (ps.foldl PathTree.ensure d) := by
  induction ps generalizing d with
  | nil => exact h
  | cons p ps ih => exact ih (h.ensure p)

theorem ofPaths_ordered (ps : List (List K)) : Ordered (listing (ofPaths ps)) := (WellFormed.nil.foldl ps).ordered

theorem blob_of_foldl (hps : ∀ p ∈ ps, p ≠ []) (h : Blob (ps.foldl ensure d) q) : q ∈ ps ∨ Blob d q := by
  induction ps generalizing d with
  | nil => exact .inr h
  | cons p ps ih =>
    have hrest : ∀ r ∈ ps, r ≠ [] := fun r hr => hps r (List.mem_cons_of_mem p hr)
    rcases ih hrest h with hq | hq
    · exact .inl (List.mem_cons_of_mem p hq)
    · rcases (blob_ensure (hps p List.mem_cons_self)).1 hq with rfl | ⟨hq, _⟩
      · exact .inl List.mem_cons_self
      · exact .inr hq

/-- no file comes of anything but the paths -/
theorem mem_of_leaf (hps : ∀ p ∈ ps, p ≠ []) (h : q ∈ leavesOf (listing (ofPaths ps))) : q ∈ ps := by
  rcases blob_of_foldl hps ((WellFormed.nil.foldl ps).mem_leaves.1 h) with hq | hq
  · exact hq
  · exact absurd hq not_blob_nil

/-- where no path is the beginning of another none is in the way of another -/
theorem blob_foldl (hps : ∀ p ∈ ps, p ≠ []) (hfree : ∀ p ∈ ps, p <+: q ∨ q <+: p → q = p) (h : q ∈ ps ∨ Blob d q) :
    Blob (ps.foldl ensure d) q := by
  induction ps generalizing d with
  | nil => exact h.resolve_left List.not_mem_nil
  | cons p ps ih =>
    have hp := blob_ensure (d := d) (q := q) (hps p List.mem_cons_self)
    refine ih (fun r hr => hps r (List.mem_cons_of_mem p hr)) (fun r hr => hfree r (List.mem_cons_of_mem p hr)) ?_
    by_cases hqp : q = p
    · exact .inr (hp.2 (.inl hqp))
    rcases h with h | h
    · exact .inl ((List.mem_cons.1 h).resolve_left hqp)
    · refine .inr (hp.2 (.inr ⟨h, fun hpre => hqp ?_, fun hpre => hqp ?_⟩))
      · exact hfree p List.mem_cons_self (.inl hpre)
      · exact hfree p List.mem_cons_self (.inr hpre)

theorem mem_leaves_ofPaths (hps : ∀ p ∈ ps, p ≠ []) (hfree : ∀ p ∈ ps, ∀ q ∈ ps, p <+: q → p = q) :
    q ∈ leavesOf (listing (ofPaths ps)) ↔ q ∈ ps := by
  constructor
  · exact mem_of_leaf hps
  · intro hq
    refine (WellFormed.nil.foldl ps).mem_leaves.2 (blob_foldl hps (fun p hp h => ?_) (.inl hq))
    rcases h with h | h
    · exact (hfree p hp q hq h).symm
    · exact hfree q hq p hp h

end LkmService.PathTree
