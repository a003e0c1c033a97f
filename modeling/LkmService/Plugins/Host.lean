/-
The plugin host (`core/plugins/host.py`): which sets of manifests are accepted, and in which order they are installed.

- `providersByCapability_getD`: the table of providers, a plugin as often as it lists the capability.
- `validate_ok_iff`: a set is accepted if and only if it is valid and no plugin lists a capability twice.
- `validate_ok`: what is returned is the set, providers first, and the set as it came when it came in order.
- `accepted_iff`: the host decides as it should if and only if no plugin of a valid set lists a capability twice.
-/
import LkmService.Lib.Graph
import LkmService.Lib.OrderedDict
import Mathlib.Data.List.Dedup
import Mathlib.Data.List.Sort
import Mathlib.Data.String.Basic

namespace LkmService.Plugins

open Relation OrderedDict LkmService.Graph

/-! ## The host -/

structure Manifest where
  name : String
  provides : List String := []
  requires : List String := []
deriving DecidableEq

/-- `PluginError`, with what its text is made of -/
inductive PluginError where
  | duplicateNames (names : List String)
  | ambiguous (providers : List (String × List String))
  | unsatisfied (missing provided : List String)
  | cycle (names : List String)
deriving DecidableEq

/-- `sorted` -/
def sorted (names : List String) : List String := names.insertionSort (· ≤ ·)

/-- `providers.setdefault(cap, []).append(name)` -/
def addProvider (name : String) (providers : List (String × List String)) (cap : String) : List (String × List String) :=
  put providers cap ((get? providers cap).getD [] ++ [name])

/-- `_providers_by_capability` -/
def providersByCapability (manifests : List Manifest) : List (String × List String) :=
  manifests.foldl (fun providers m => m.provides.foldl (addProvider m.name) providers) []

/-- `_check_unique_capabilities` -/
def checkUniqueCapabilities (providers : List (String × List String)) : Except PluginError Unit :=
  let ambiguous := providers.filter fun entry => 1 < entry.2.length
  if ambiguous = [] then .ok () else .error (.ambiguous ambiguous)

/-- `_check_requirements` -/
def checkRequirements (manifests : List Manifest) (providers : List (String × List String)) : Except PluginError Unit :=
  let missing := (manifests.flatMap Manifest.requires).filter (· ∉ providers.map Prod.fst)
  if missing = [] then .ok () else .error (.unsatisfied (sorted missing.dedup) (sorted (providers.map Prod.fst)))

/-- the plugins that have to be installed before -/
def deps (providers : List (String × List String)) (m : Manifest) : List String :=
  m.requires.flatMap fun cap => (get? providers cap).getD []

/-- the `while` loop of `install_order`, `none` while it runs -/
def installLoop (fuel : ℕ) (manifests : List Manifest) : Option (Except (List Manifest) (List Manifest)) :=
  rounds Manifest.name (deps (providersByCapability manifests)) fuel [] manifests

/-- `install_order` -/
def installOrder (manifests : List Manifest) : Except PluginError (List Manifest) :=
  match (installLoop manifests.length manifests).get (rounds_isSome le_rfl) with
  | .ok done => .ok done
  | .error remaining => .error (.cycle (sorted (remaining.map Manifest.name)))

/-- `validate` -/
def validate (manifests : List Manifest) : Except PluginError (List Manifest) := do
  let names := manifests.map Manifest.name
  let duplicates := (names.filter fun name => 1 < names.count name).dedup
  if duplicates ≠ [] then throw (.duplicateNames (sorted duplicates))
  let providers := providersByCapability manifests
  checkUniqueCapabilities providers
  checkRequirements manifests providers
  installOrder manifests

/-! ## What a set of plugins is -/

/-- `x` requires something that `y` provides -/
def DependsOn (manifests : List Manifest) (x y : String) : Prop :=
  ∃ m ∈ manifests, ∃ p ∈ manifests, m.name = x ∧ p.name = y ∧ ∃ cap ∈ m.requires, cap ∈ p.provides

structure Valid (manifests : List Manifest) : Prop where
  names : (manifests.map Manifest.name).Nodup
  unique : ∀ m ∈ manifests, ∀ p ∈ manifests, ∀ cap, cap ∈ m.provides → cap ∈ p.provides → m.name = p.name
  satisfied : ∀ m ∈ manifests, ∀ cap ∈ m.requires, ∃ p ∈ manifests, cap ∈ p.provides
  acyclic : Acyclic (DependsOn manifests)

/-- who provides a capability comes before who requires it -/
def ProvidersFirst (order : List Manifest) : Prop :=
  ∀ before m after, order = before ++ m :: after → ∀ cap ∈ m.requires, ∃ p ∈ before, cap ∈ p.provides

/-- the host decides about the set as it should, and returns it in an order that it can be installed in -/
structure Accepted (manifests : List Manifest) : Prop where
  decides : (∃ order, validate manifests = .ok order) ↔ Valid manifests
  order : ∀ order, validate manifests = .ok order →
    order.Perm manifests ∧ ProvidersFirst order ∧ (ProvidersFirst manifests → order = manifests)

/-! ## The table of providers -/

section Providers

variable {manifests : List Manifest} {providers : List (String × List String)} {m : Manifest} {name cap : String}

theorem addProvider_getD (added : String) :
    (get? (addProvider name providers added) cap).getD [] =
      (get? providers cap).getD [] ++ List.replicate (if added = cap then 1 else 0) name := by
  rw [addProvider, get?_put]
  by_cases heq : cap = added
  · subst heq
    simp
  · simp [heq, Ne.symm heq]

theorem addProviders_getD (caps : List String) :
    (get? (caps.foldl (addProvider name) providers) cap).getD [] =
      (get? providers cap).getD [] ++ List.replicate (caps.count cap) name := by
  induction caps generalizing providers with
  | nil => simp
  | cons added caps ih =>
    rw [List.foldl_cons, ih, addProvider_getD, List.append_assoc, ← List.replicate_add, List.count_cons, Nat.add_comm]
    simp

/-- who provides a capability, in the order of the manifests -/
theorem providersByCapability_getD : (get? (providersByCapability manifests) cap).getD [] =
    manifests.flatMap fun m => List.replicate (m.provides.count cap) m.name := by
  have hgrow : ∀ (l : List Manifest) (providers : List (String × List String)),
      (get? (l.foldl (fun providers m => m.provides.foldl (addProvider m.name) providers) providers) cap).getD [] =
        (get? providers cap).getD [] ++ l.flatMap fun m => List.replicate (m.provides.count cap) m.name := by
    intro l
    induction l with
    | nil => simp
    | cons m l ih =>
      intro providers
      rw [List.foldl_cons, ih, addProviders_getD, List.flatMap_cons, List.append_assoc]
  exact hgrow manifests []

theorem keyed_addProviders (h : Keyed providers) (caps : List String) : Keyed (caps.foldl (addProvider name) providers) := by
  induction caps generalizing providers with
  | nil => exact h
  | cons added caps ih => exact ih (h.put _ _)

theorem keyed_providersByCapability : Keyed (providersByCapability manifests) := by
  have hkeyed : ∀ (l : List Manifest) (providers : List (String × List String)), Keyed providers →
      Keyed (l.foldl (fun providers m => m.provides.foldl (addProvider m.name) providers) providers) := by
    intro l
    induction l with
    | nil => exact fun _ h => h
    | cons m l ih => exact fun _ h => ih _ (keyed_addProviders h _)
  exact hkeyed manifests [] List.nodup_nil

theorem mem_keys_put {v : List String} : cap ∈ (put providers name v).map Prod.fst ↔ cap = name ∨ cap ∈ providers.map Prod.fst := by
  have hnone : cap ∉ (put providers name v).map Prod.fst ↔ ¬ (cap = name ∨ cap ∈ providers.map Prod.fst) := by
    rw [← get?_eq_none_iff, get?_put, not_or, ← get?_eq_none_iff]
    split_ifs with heq
    · simp [heq]
    · simp [heq]
  exact not_iff_not.1 hnone

theorem mem_keys_addProviders (caps : List String) :
    cap ∈ (caps.foldl (addProvider name) providers).map Prod.fst ↔ cap ∈ caps ∨ cap ∈ providers.map Prod.fst := by
  induction caps generalizing providers with
  | nil => simp
  | cons added caps ih => rw [List.foldl_cons, ih, addProvider, mem_keys_put, List.mem_cons, or_left_comm, or_assoc]

theorem mem_keys_providersByCapability :
    cap ∈ (providersByCapability manifests).map Prod.fst ↔ ∃ m ∈ manifests, cap ∈ m.provides := by
  have hmem : ∀ (l : List Manifest) (providers : List (String × List String)),
      cap ∈ (l.foldl (fun providers m => m.provides.foldl (addProvider m.name) providers) providers).map Prod.fst ↔
        (∃ m ∈ l, cap ∈ m.provides) ∨ cap ∈ providers.map Prod.fst := by
    intro l
    induction l with
    | nil => simp
    | cons m l ih =>
      intro providers
      rw [List.foldl_cons, ih, mem_keys_addProviders, List.exists_mem_cons_iff, or_left_comm, or_assoc]
  exact (hmem manifests []).trans (by simp)

theorem mem_deps : name ∈ deps (providersByCapability manifests) m ↔
    ∃ cap ∈ m.requires, ∃ p ∈ manifests, cap ∈ p.provides ∧ p.name = name := by
  simp only [deps, List.mem_flatMap, providersByCapability_getD, List.mem_replicate, ne_eq, List.count_eq_zero, not_not,
    eq_comm (a := name)]

/-- one provider for each capability: no capability is listed twice, by whomever -/
theorem checkUniqueCapabilities_ok_iff :
    checkUniqueCapabilities (providersByCapability manifests) = .ok () ↔ (manifests.flatMap Manifest.provides).Nodup := by
  have hcount : ∀ cap, ((get? (providersByCapability manifests) cap).getD []).length =
      (manifests.flatMap Manifest.provides).count cap := by
    intro cap
    simp [providersByCapability_getD, List.length_flatMap, List.count_flatMap, Function.comp_def]
  have hok : checkUniqueCapabilities (providersByCapability manifests) = .ok () ↔
      ∀ entry ∈ providersByCapability manifests, entry.2.length ≤ 1 := by
    simp [checkUniqueCapabilities, List.filter_eq_nil_iff]
  rw [hok, List.nodup_iff_count_le_one]
  constructor
  · intro hone cap
    rw [← hcount]
    rcases hget : get? (providersByCapability manifests) cap with _ | names
    · simp
    · exact hone (cap, names) ((get?_eq_some_iff keyed_providersByCapability).1 hget)
  · rintro hone ⟨cap, names⟩ hentry
    have hget := (get?_eq_some_iff keyed_providersByCapability).2 hentry
    have := hone cap
    rwa [← hcount, hget] at this

theorem checkRequirements_ok_iff : checkRequirements manifests (providersByCapability manifests) = .ok () ↔
    ∀ m ∈ manifests, ∀ cap ∈ m.requires, ∃ p ∈ manifests, cap ∈ p.provides := by
  have hok : checkRequirements manifests (providersByCapability manifests) = .ok () ↔
      ∀ cap ∈ manifests.flatMap Manifest.requires, cap ∈ (providersByCapability manifests).map Prod.fst := by
    simp only [checkRequirements]
    split_ifs with hmissing
    · refine iff_of_true rfl fun cap hcap => ?_
      simpa using List.filter_eq_nil_iff.1 hmissing cap hcap
    · refine iff_of_false (by simp) fun hall => hmissing ?_
      exact List.filter_eq_nil_iff.2 fun cap hcap => by simpa using hall cap hcap
  simp only [hok, mem_keys_providersByCapability, List.mem_flatMap]
  constructor
  · intro h m hm cap hcap
    exact h cap ⟨m, hm, hcap⟩
  · rintro h cap ⟨m, hm, hcap⟩
    exact h m hm cap hcap

end Providers

/-! ## The order -/

section Order

variable {manifests order remaining : List Manifest}

/-- the names that a plugin waits for are those it depends on -/
theorem needs_eq_dependsOn :
    Needs Manifest.name (deps (providersByCapability manifests)) manifests = DependsOn manifests := by
  funext x y
  refine propext ⟨?_, ?_⟩
  · rintro ⟨m, hm, rfl, hy⟩
    obtain ⟨cap, hcap, p, hp, hprovides, rfl⟩ := mem_deps.1 hy
    exact ⟨m, hm, p, hp, rfl, rfl, cap, hcap, hprovides⟩
  · rintro ⟨m, hm, p, hp, rfl, rfl, cap, hcap, hprovides⟩
    exact ⟨m, hm, rfl, mem_deps.2 ⟨cap, hcap, p, hp, hprovides, rfl⟩⟩

theorem deps_subset : ∀ m ∈ manifests, deps (providersByCapability manifests) m ⊆ manifests.map Manifest.name := by
  intro m _ name hname
  obtain ⟨_, _, p, hp, _, rfl⟩ := mem_deps.1 hname
  exact List.mem_map_of_mem hp

/-- **The loop.** It ends after at most as many rounds as there are plugins. -/
theorem installLoop_ends (manifests : List Manifest) {fuel : ℕ} (h : manifests.length ≤ fuel) :
    installLoop fuel manifests = some ((installLoop manifests.length manifests).get (rounds_isSome le_rfl)) :=
  rounds_mono (Option.some_get _).symm h

theorem installOrder_ok_iff :
    installOrder manifests = .ok order ↔ installLoop manifests.length manifests = some (.ok order) := by
  have hends := installLoop_ends manifests le_rfl
  rw [hends, installOrder]
  rcases (installLoop manifests.length manifests).get (rounds_isSome le_rfl) with remaining | done
  · simp
  · simp

/-- a provider that is known by its name is the provider -/
theorem providersFirst_iff (hnames : (manifests.map Manifest.name).Nodup)
    (hunique : ∀ m ∈ manifests, ∀ p ∈ manifests, ∀ cap, cap ∈ m.provides → cap ∈ p.provides → m.name = p.name)
    (hsatisfied : ∀ m ∈ manifests, ∀ cap ∈ m.requires, ∃ p ∈ manifests, cap ∈ p.provides) (hsub : order ⊆ manifests) :
    InOrder Manifest.name (deps (providersByCapability manifests)) [] order ↔ ProvidersFirst order := by
  rw [inOrder_iff]
  constructor
  · rintro h before m after rfl cap hcap
    obtain ⟨p, hp, hprovides⟩ := hsatisfied m (hsub (by simp)) cap hcap
    have hname : p.name ∈ before.map Manifest.name := h before m after rfl (mem_deps.2 ⟨cap, hcap, p, hp, hprovides, rfl⟩)
    obtain ⟨q, hq, hsame⟩ := List.mem_map.1 hname
    obtain rfl : q = p := List.inj_on_of_nodup_map hnames (hsub (List.mem_append_left _ hq)) hp hsame
    exact ⟨q, hq, hprovides⟩
  · rintro h before m after rfl name hname
    obtain ⟨cap, hcap, p, hp, hprovides, rfl⟩ := mem_deps.1 hname
    obtain ⟨q, hq, hfirst⟩ := h before m after rfl cap hcap
    rw [← hunique q (hsub (List.mem_append_left _ hq)) p hp cap hfirst hprovides]
    exact List.mem_map_of_mem hq

theorem duplicates_nil_iff : (((manifests.map Manifest.name).filter fun name =>
    1 < (manifests.map Manifest.name).count name).dedup = []) ↔ (manifests.map Manifest.name).Nodup := by
  rw [List.dedup_eq_nil, List.filter_eq_nil_iff, List.nodup_iff_count_le_one]
  constructor
  · intro h name
    by_cases hmem : name ∈ manifests.map Manifest.name
    · simpa using h name hmem
    · rw [List.count_eq_zero.2 hmem]
      exact Nat.zero_le 1
  · intro h name _
    simpa using h name

theorem validate_eq_ok_iff : validate manifests = .ok order ↔
    (manifests.map Manifest.name).Nodup ∧ (manifests.flatMap Manifest.provides).Nodup ∧
      (∀ m ∈ manifests, ∀ cap ∈ m.requires, ∃ p ∈ manifests, cap ∈ p.provides) ∧ installOrder manifests = .ok order := by
  rw [← duplicates_nil_iff, ← checkUniqueCapabilities_ok_iff, ← checkRequirements_ok_iff, validate]
  constructor
  · intro hok
    by_cases hnames : ((manifests.map Manifest.name).filter fun name =>
        1 < (manifests.map Manifest.name).count name).dedup = []
    · simp only [hnames, ne_eq, not_true_eq_false, ↓reduceIte] at hok
      obtain ⟨_, hunique, hrest⟩ := bind_ok hok
      obtain ⟨_, hrequired, horder⟩ := bind_ok hrest
      exact ⟨hnames, hunique, hrequired, horder⟩
    · simp only [ne_eq, hnames, not_false_eq_true, ↓reduceIte] at hok
      cases hok
  · rintro ⟨hnames, hunique, hrequired, horder⟩
    simp only [hnames, ne_eq, not_true_eq_false, ↓reduceIte, hunique, hrequired]
    exact horder

/-- no capability is listed twice: no plugin lists one twice, and no two plugins list the same -/
theorem nodup_provides_iff (hnames : (manifests.map Manifest.name).Nodup) :
    (manifests.flatMap Manifest.provides).Nodup ↔ (∀ m ∈ manifests, m.provides.Nodup) ∧
      ∀ m ∈ manifests, ∀ p ∈ manifests, ∀ cap, cap ∈ m.provides → cap ∈ p.provides → m.name = p.name := by
  rw [List.nodup_flatMap]
  refine and_congr_right fun _ => ?_
  constructor
  · intro hpair m hm p hp cap hcap hcap'
    by_contra hne
    have hsymm : Std.Symm (Function.onFun List.Disjoint Manifest.provides) := ⟨fun _ _ h => h.symm⟩
    have hdisjoint : List.Disjoint m.provides p.provides := hpair.forall hm hp fun heq => hne (heq ▸ rfl)
    exact hdisjoint hcap hcap'
  · intro hunique
    refine List.Pairwise.imp_of_mem (fun hm hp hne => ?_) (List.pairwise_map.1 hnames)
    exact fun cap hcap hcap' => hne (hunique _ hm _ hp cap hcap hcap')

end Order

/-! ## What is accepted -/

section Accepted

variable {manifests order : List Manifest}

theorem validate_ok_iff :
    (∃ order, validate manifests = .ok order) ↔ Valid manifests ∧ ∀ m ∈ manifests, m.provides.Nodup := by
  simp only [validate_eq_ok_iff]
  constructor
  · rintro ⟨order, hnames, hnodup, hsatisfied, horder⟩
    obtain ⟨hself, hunique⟩ := (nodup_provides_iff hnames).1 hnodup
    refine ⟨⟨hnames, hunique, hsatisfied, ?_⟩, hself⟩
    rw [← needs_eq_dependsOn]
    exact (rounds_ok_iff hnames deps_subset le_rfl).1 ⟨order, installOrder_ok_iff.1 horder⟩
  · rintro ⟨hvalid, hself⟩
    have hacyclic := hvalid.acyclic
    rw [← needs_eq_dependsOn] at hacyclic
    obtain ⟨order, hrun⟩ := (rounds_ok_iff hvalid.names deps_subset le_rfl).2 hacyclic
    exact ⟨order, hvalid.names, (nodup_provides_iff hvalid.names).2 ⟨hself, hvalid.unique⟩, hvalid.satisfied,
      installOrder_ok_iff.2 hrun⟩

theorem validate_ok (h : validate manifests = .ok order) :
    order.Perm manifests ∧ ProvidersFirst order ∧ (ProvidersFirst manifests → order = manifests) := by
  obtain ⟨hvalid, -⟩ := validate_ok_iff.1 ⟨order, h⟩
  have hrun := installOrder_ok_iff.1 (validate_eq_ok_iff.1 h).2.2.2
  obtain ⟨hperm, hin⟩ := rounds_ok inOrder_nil hrun
  rw [List.nil_append] at hperm
  refine ⟨hperm, (providersFirst_iff hvalid.names hvalid.unique hvalid.satisfied hperm.subset).1 hin, fun hfirst => ?_⟩
  have hordered := (providersFirst_iff hvalid.names hvalid.unique hvalid.satisfied (List.Subset.refl _)).2 hfirst
  have hsame := hrun.symm.trans (rounds_inOrder hordered)
  simpa using hsame

/-- **The host.** Its loop ends on every set of plugins; and it decides as it should, and orders what it accepts, if and
only if no plugin of a valid set lists a capability twice. -/
theorem accepted_iff (manifests : List Manifest) :
    (∀ fuel, manifests.length ≤ fuel → (installLoop fuel manifests).isSome) ∧
      (Accepted manifests ↔ (Valid manifests → ∀ m ∈ manifests, m.provides.Nodup)) := by
  refine ⟨fun fuel hfuel => ?_, ?_⟩
  · rw [installLoop_ends manifests hfuel]
    rfl
  · constructor
    · intro haccepted hvalid
      exact (validate_ok_iff.1 (haccepted.decides.2 hvalid)).2
    · intro hself
      refine ⟨?_, fun order h => validate_ok h⟩
      rw [validate_ok_iff]
      exact and_iff_left_of_imp hself

/-! ## A plugin that is refused -/

/-- one plugin that lists its capability twice -/
def repeated : List Manifest := [{ name := "blog", provides := ["article", "article"] }]

theorem repeated_refused : ¬ Accepted repeated := by
  have hvalid : Valid repeated := by
    refine ⟨by decide, by decide, by decide, fun x hcycle => ?_⟩
    obtain ⟨_, ⟨m, hm, _, _, _, _, cap, hcap, _⟩, _⟩ := (TransGen.head'_iff).1 hcycle
    obtain rfl := List.mem_singleton.1 hm
    cases hcap
  have hrefused : validate repeated = .error (.ambiguous [("article", ["blog", "blog"])]) := by decide
  intro haccepted
  obtain ⟨order, hok⟩ := haccepted.decides.2 hvalid
  cases hrefused.symm.trans hok

end Accepted

end LkmService.Plugins
