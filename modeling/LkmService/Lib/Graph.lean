/-
Directed graphs without cycles, and the two loops that look for one.

- `exists_cycle`: among finitely many elements each of which leads to another of them, some lie on a cycle.
- `Ordered r l`: each element of the list leads only to elements after it. `Ordered.acyclic`: none of them lies on a
  cycle.
- `visitAll`: the recursive search that keeps the path it is on (`visiting`) and what it has finished (`visited`).
  `visitAll_ok_iff`: it raises nothing if and only if every edge passes the check and there is no cycle.
- `rounds`: the rounds that take, from front to end, every element whose needs have been taken. `rounds_isSome` says
  that they end, `rounds_ok` what they return, `rounds_error` that a round that takes nothing has found a cycle, and
  `rounds_inOrder` that a list in order stays as it is.
-/
import Mathlib.Data.Finite.Defs
import Mathlib.Data.List.Nodup
import Mathlib.Data.List.Perm.Basic
import Mathlib.Data.Set.Finite.List
import Mathlib.Logic.Relation
import Mathlib.Order.WellFounded
import Mathlib.Tactic.Common

namespace LkmService.Graph

open Relation

variable {α : Type} {r : α → α → Prop} {l : List α} {a b : α}

/-! ## Cycles -/

/-- nothing leads back to itself -/
def Acyclic (r : α → α → Prop) : Prop := ∀ a, ¬ TransGen r a a

/-- in a finite set where everything leads on, something leads back to itself -/
theorem exists_cycle (hne : l ≠ []) (h : ∀ a ∈ l, ∃ b ∈ l, r a b) : ∃ a ∈ l, TransGen r a a := by
  by_contra hno
  have hirrefl : ∀ a ∈ l, ¬ TransGen r a a := fun a ha hc => hno ⟨a, ha, hc⟩
  let leads : {a // a ∈ l} → {a // a ∈ l} → Prop := fun x y => TransGen r y.1 x.1
  have htrans : IsTrans _ leads := ⟨fun _ _ _ hxy hyz => hyz.trans hxy⟩
  have hstrict : Std.Irrefl leads := ⟨fun x => hirrefl x.1 x.2⟩
  have hfinite : Finite {a // a ∈ l} := List.finite_toSet l
  have hwf : WellFounded leads := Finite.wellFounded_of_trans_of_irrefl leads
  obtain ⟨a, ha⟩ := List.exists_mem_of_ne_nil l hne
  -- an element from which nothing in the list can be reached
  obtain ⟨x, -, hmin⟩ := hwf.has_min Set.univ ⟨⟨a, ha⟩, trivial⟩
  obtain ⟨b, hb, hxb⟩ := h x.1 x.2
  exact hmin ⟨b, hb⟩ trivial (TransGen.single hxb)

/-! ## Ordered lists -/

inductive Ordered (r : α → α → Prop) : List α → Prop
  | nil : Ordered r []
  | cons {a : α} {l : List α} (fresh : a ∉ l) (next : ∀ b, r a b → b ∈ l) (rest : Ordered r l) : Ordered r (a :: l)

theorem Ordered.closed (h : Ordered r l) (ha : a ∈ l) (hab : r a b) : b ∈ l := by
  induction h with
  | nil => cases ha
  | cons _ next _ ih =>
    rcases List.mem_cons.1 ha with rfl | ha
    · exact List.mem_cons_of_mem _ (next b hab)
    · exact List.mem_cons_of_mem _ (ih ha)

theorem Ordered.reachable (h : Ordered r l) (ha : a ∈ l) (hab : TransGen r a b) : b ∈ l := by
  induction hab with
  | single hab => exact h.closed ha hab
  | tail _ hbc ih => exact h.closed ih hbc

theorem Ordered.acyclic (h : Ordered r l) (ha : a ∈ l) : ¬ TransGen r a a := by
  induction h with
  | nil => cases ha
  | @cons b l fresh next rest ih =>
    intro hcycle
    by_cases hmem : a ∈ l
    · exact ih hmem hcycle
    · obtain rfl := (List.mem_cons.1 ha).resolve_right hmem
      -- the first step leaves the head, and nothing leads back to it
      obtain ⟨b, hab, hba⟩ := (TransGen.head'_iff).1 hcycle
      rcases reflTransGen_iff_eq_or_transGen.1 hba with heq | hba
      · exact fresh (heq ▸ next b hab)
      · exact fresh (rest.reachable (next b hab) hba)

/-! ## The recursive search -/

section Visit

variable [DecidableEq α] {ε : Type} {next : α → List α} {check : α → α → Except ε Unit} {cycle : α → ε}
  {visiting visited visited' keys js : List α} {fuel : ℕ}

/-- each level is one call deeper -/
def visit (next : α → List α) (check : α → α → Except ε Unit) (cycle : α → ε) :
    ℕ → List α → List α → α → Except ε (List α)
  | 0, _, _, a => .error (cycle a)
  | fuel + 1, visiting, visited, a =>
    if a ∈ visiting then .error (cycle a)
    else if a ∈ visited then .ok visited
    else do
      let visited ← (next a).foldlM (fun visited b => do
        check a b
        visit next check cycle fuel (a :: visiting) visited b) visited
      pure (a :: visited)

theorem visit_succ : visit next check cycle (fuel + 1) visiting visited a =
    if a ∈ visiting then .error (cycle a)
    else if a ∈ visited then .ok visited
    else (do
      let visited ← (next a).foldlM (fun visited b => do
        check a b
        visit next check cycle fuel (a :: visiting) visited b) visited
      pure (a :: visited)) := rfl

/-- the path cannot be longer than the elements that have successors, so this fuel is never used up: `visitAll_fuel` -/
def visitAll (next : α → List α) (check : α → α → Except ε Unit) (cycle : α → ε) (keys : List α) :
    Except ε (List α) :=
  keys.foldlM (visit next check cycle (keys.length + 1) []) []

/-- more fuel than the path can use changes nothing -/
theorem visit_fuel {fuel' : ℕ} (hkeys : ∀ a, next a ≠ [] → a ∈ keys) (hnodup : visiting.Nodup) (hsub : visiting ⊆ keys)
    (hfuel : keys.length < fuel + visiting.length) (hfuel' : keys.length < fuel' + visiting.length) :
    visit next check cycle fuel visiting visited a = visit next check cycle fuel' visiting visited a := by
  have hshort : visiting.length ≤ keys.length := (List.subperm_of_subset hnodup hsub).length_le
  induction fuel generalizing fuel' visiting visited a with
  | zero => omega
  | succ fuel ih =>
    rcases fuel' with _ | fuel'
    · omega
    · rw [visit_succ, visit_succ]
      split_ifs with hmem hdone
      · rfl
      · rfl
      · rcases hnext : next a with _ | ⟨b, rest⟩
        · rfl
        · have hkey : a ∈ keys := hkeys a (by simp [hnext])
          have hpath : (a :: visiting).Nodup := List.nodup_cons.2 ⟨hmem, hnodup⟩
          have hpathsub : a :: visiting ⊆ keys := List.cons_subset.2 ⟨hkey, hsub⟩
          have hsame : ∀ v c, visit next check cycle fuel (a :: visiting) v c =
              visit next check cycle fuel' (a :: visiting) v c := fun v c =>
            ih hpath hpathsub (by simp only [List.length_cons]; omega) (by simp only [List.length_cons]; omega)
              (List.subperm_of_subset hpath hpathsub).length_le
          simp only [hsame]

theorem visitAll_fuel (hkeys : ∀ a, next a ≠ [] → a ∈ keys) (hfuel : keys.length < fuel) :
    keys.foldlM (visit next check cycle fuel []) [] = visitAll next check cycle keys := by
  have hsame : visit next check cycle fuel [] = visit next check cycle (keys.length + 1) [] := by
    funext visited a
    exact visit_fuel hkeys List.nodup_nil (List.nil_subset _) (by simpa using hfuel) (by simp)
  rw [visitAll, hsame]

/-- what a search that has raised nothing leaves: everything finished leads only to what was finished before it -/
structure Finished (next : α → List α) (check : α → α → Except ε Unit) (visiting visited : List α) : Prop where
  ordered : Ordered (fun a b => b ∈ next a) visited
  checked : ∀ a ∈ visited, ∀ b ∈ next a, check a b = .ok ()
  apart : ∀ a ∈ visiting, a ∉ visited

theorem bind_ok {β γ : Type} {x : Except ε β} {f : β → Except ε γ} {c : γ} (h : x >>= f = .ok c) :
    ∃ b, x = .ok b ∧ f b = .ok c := by
  cases x with
  | error e => cases h
  | ok b => exact ⟨b, rfl, h⟩

omit [DecidableEq α] in
/-- the loop over the successors, one after the other -/
theorem foldlM_finished {f : List α → α → Except ε (List α)} (h : Finished next check visiting visited)
    (hstep : ∀ visited b visited', b ∈ js → Finished next check visiting visited → f visited b = .ok visited' →
      Finished next check visiting visited' ∧ visited ⊆ visited' ∧ b ∈ visited')
    (hrun : js.foldlM f visited = .ok visited') :
    Finished next check visiting visited' ∧ visited ⊆ visited' ∧ ∀ b ∈ js, b ∈ visited' := by
  induction js generalizing visited with
  | nil =>
    obtain rfl := Except.ok.inj hrun
    exact ⟨h, List.Subset.refl _, fun b hb => by cases hb⟩
  | cons b js ih =>
    rw [List.foldlM_cons] at hrun
    obtain ⟨mid, hmid, hrest⟩ := bind_ok hrun
    obtain ⟨hfin, hsub, hb⟩ := hstep visited b mid List.mem_cons_self h hmid
    obtain ⟨hfin', hsub', hall⟩ := ih hfin (fun v c v' hc => hstep v c v' (List.mem_cons_of_mem _ hc)) hrest
    refine ⟨hfin', fun x hx => hsub' (hsub hx), fun c hc => ?_⟩
    rcases List.mem_cons.1 hc with rfl | hc
    · exact hsub' hb
    · exact hall c hc

omit [DecidableEq α] in
/-- each successor has been checked when the loop came to it -/
theorem foldlM_checked {f : List α → α → Except ε (List α)}
    (hrun : js.foldlM (fun visited b => do
      check a b
      f visited b) visited = .ok visited') : ∀ b ∈ js, check a b = .ok () := by
  induction js generalizing visited with
  | nil =>
    intro b hb
    cases hb
  | cons c js ih =>
    rw [List.foldlM_cons] at hrun
    obtain ⟨mid, hmid, hrest⟩ := bind_ok hrun
    obtain ⟨⟨⟩, hcheck, -⟩ := bind_ok hmid
    intro b hb
    rcases List.mem_cons.1 hb with rfl | hb
    · exact hcheck
    · exact ih hrest b hb

theorem visit_finished (h : Finished next check visiting visited)
    (hrun : visit next check cycle fuel visiting visited a = .ok visited') :
    Finished next check visiting visited' ∧ visited ⊆ visited' ∧ a ∈ visited' := by
  induction fuel generalizing visiting visited visited' a with
  | zero => cases hrun
  | succ fuel ih =>
    rw [visit_succ] at hrun
    split_ifs at hrun with hpath hdone
    · obtain rfl := Except.ok.inj hrun
      exact ⟨h, List.Subset.refl _, hdone⟩
    · obtain ⟨mid, hmid, hcons⟩ := bind_ok hrun
      obtain rfl := Except.ok.inj hcons
      have hfin : Finished next check (a :: visiting) visited := by
        refine ⟨h.ordered, h.checked, fun x hx => ?_⟩
        rcases List.mem_cons.1 hx with rfl | hx
        · exact hdone
        · exact h.apart x hx
      obtain ⟨hmidfin, hsub, hall⟩ := foldlM_finished hfin (fun v b v' _ hv hr => by
        obtain ⟨⟨⟩, -, hvisit⟩ := bind_ok hr
        exact ih hv hvisit) hmid
      have hfresh : a ∉ mid := hmidfin.apart a List.mem_cons_self
      have hchecks : ∀ b ∈ next a, check a b = .ok () := foldlM_checked hmid
      refine ⟨⟨.cons hfresh hall hmidfin.ordered, fun x hx b hb => ?_, fun x hx hmem => ?_⟩,
        fun x hx => List.mem_cons_of_mem _ (hsub hx), List.mem_cons_self⟩
      · rcases List.mem_cons.1 hx with rfl | hx
        · exact hchecks b hb
        · exact hmidfin.checked x hx b hb
      · rcases List.mem_cons.1 hmem with rfl | hmem
        · exact hpath hx
        · exact hmidfin.apart x (List.mem_cons_of_mem _ hx) hmem

omit [DecidableEq α] in
theorem foldlM_ok {f : List α → α → Except ε (List α)} (h : ∀ b ∈ js, ∀ visited, ∃ visited', f visited b = .ok visited') :
    ∃ visited', js.foldlM f visited = .ok visited' := by
  induction js generalizing visited with
  | nil => exact ⟨visited, rfl⟩
  | cons b js ih =>
    obtain ⟨w, hw⟩ := h b List.mem_cons_self visited
    obtain ⟨v', hv'⟩ := ih fun c hc => h c (List.mem_cons_of_mem _ hc)
    refine ⟨v', ?_⟩
    rw [List.foldlM_cons, hw]
    exact hv'

/-- on a graph without cycles whose edges pass, the search raises nothing: the path leads to where it is, so it never
meets itself, and it is never longer than the elements with successors -/
theorem visit_ok (hcheck : ∀ a, ∀ b ∈ next a, check a b = .ok ()) (hacyclic : Acyclic fun a b => b ∈ next a)
    (hkeys : ∀ a, next a ≠ [] → a ∈ keys) (hpath : ∀ x ∈ visiting, TransGen (fun a b => b ∈ next a) x a)
    (hnodup : visiting.Nodup) (hsub : visiting ⊆ keys) (hfuel : keys.length < fuel + visiting.length) :
    ∃ visited', visit next check cycle fuel visiting visited a = .ok visited' := by
  induction fuel generalizing visiting visited a with
  | zero =>
    have := (List.subperm_of_subset hnodup hsub).length_le
    omega
  | succ fuel ih =>
    rw [visit_succ]
    split_ifs with hmem hdone
    · exact absurd (hpath a hmem) (hacyclic a)
    · exact ⟨visited, rfl⟩
    · have hloop : ∀ b ∈ next a, ∀ v, ∃ w, (do
          check a b
          visit next check cycle fuel (a :: visiting) v b) = .ok w := by
        intro b hb v
        rw [hcheck a b hb]
        refine ih (fun x hx => ?_) (List.nodup_cons.2 ⟨hmem, hnodup⟩)
          (List.cons_subset.2 ⟨hkeys a (List.ne_nil_of_mem hb), hsub⟩) (by simp only [List.length_cons]; omega)
        rcases List.mem_cons.1 hx with rfl | hx
        · exact TransGen.single hb
        · exact (hpath x hx).tail hb
      obtain ⟨v', hv'⟩ := foldlM_ok hloop
      rw [hv']
      exact ⟨a :: v', rfl⟩

/-- **The search.** It raises nothing if and only if every edge passes the check and there is no cycle. -/
theorem visitAll_ok_iff (hkeys : ∀ a, next a ≠ [] → a ∈ keys) :
    (∃ visited, visitAll next check cycle keys = .ok visited) ↔
      (∀ a, ∀ b ∈ next a, check a b = .ok ()) ∧ Acyclic fun a b => b ∈ next a := by
  constructor
  · rintro ⟨visited, hrun⟩
    have hstart : Finished next check [] ([] : List α) := by
      refine ⟨.nil, ?_, ?_⟩
      · intro a ha
        cases ha
      · intro a ha
        cases ha
    obtain ⟨hfin, -, hall⟩ := foldlM_finished hstart (fun _ _ _ _ hv hr => visit_finished hv hr) hrun
    refine ⟨fun a b hb => hfin.checked a (hall a (hkeys a (List.ne_nil_of_mem hb))) b hb, fun a hcycle => ?_⟩
    obtain ⟨b, hb, -⟩ := (TransGen.head'_iff).1 hcycle
    exact hfin.ordered.acyclic (hall a (hkeys a (List.ne_nil_of_mem hb))) hcycle
  · rintro ⟨hcheck, hacyclic⟩
    refine foldlM_ok fun a _ v => ?_
    exact visit_ok hcheck hacyclic hkeys (fun x hx => by cases hx) List.nodup_nil (List.nil_subset _) (by simp)

end Visit

/-! ## Rounds -/

section Rounds

variable {β κ : Type} [DecidableEq κ] {name : β → κ} {needs : β → List κ} {m : β} {done pending all out rest : List β}
  {fuel : ℕ}

/-- one pass over the pending elements; one that is taken counts for those after it -/
def turn (name : β → κ) (needs : β → List κ) (done : List β) : List β → List β × List β
  | [] => (done, [])
  | m :: pending =>
    if needs m ⊆ done.map name then turn name needs (done ++ [m]) pending
    else ((turn name needs done pending).1, m :: (turn name needs done pending).2)

theorem turn_cons : turn name needs done (m :: pending) = if needs m ⊆ done.map name then turn name needs (done ++ [m]) pending
    else ((turn name needs done pending).1, m :: (turn name needs done pending).2) := rfl

/-- passes until nothing is pending, or one takes nothing; `none` when the fuel is out -/
def rounds (name : β → κ) (needs : β → List κ) : ℕ → List β → List β → Option (Except (List β) (List β))
  | _, done, [] => some (.ok done)
  | 0, _, _ :: _ => none
  | fuel + 1, done, m :: pending =>
    let turned := turn name needs done (m :: pending)
    if turned.2.length = (m :: pending).length then some (.error turned.2)
    else rounds name needs fuel turned.1 turned.2

theorem rounds_nil : rounds name needs fuel done [] = some (.ok done) := by
  cases fuel <;> rfl

theorem rounds_cons : rounds name needs (fuel + 1) done (m :: pending) =
    if (turn name needs done (m :: pending)).2.length = (m :: pending).length then
      some (.error (turn name needs done (m :: pending)).2)
    else rounds name needs fuel (turn name needs done (m :: pending)).1 (turn name needs done (m :: pending)).2 := rfl

/-- each element after those it needs -/
def InOrder (name : β → κ) (needs : β → List κ) : List κ → List β → Prop
  | _, [] => True
  | known, m :: l => needs m ⊆ known ∧ InOrder name needs (known ++ [name m]) l

/-- `x` needs `y`, by their names -/
def Needs (name : β → κ) (needs : β → List κ) (all : List β) (x y : κ) : Prop := ∃ m ∈ all, name m = x ∧ y ∈ needs m

omit [DecidableEq κ] in
theorem inOrder_nil {known : List κ} : InOrder name needs known [] := trivial

omit [DecidableEq κ] in
theorem inOrder_append {known : List κ} {l l' : List β} :
    InOrder name needs known (l ++ l') ↔ InOrder name needs known l ∧ InOrder name needs (known ++ l.map name) l' := by
  induction l generalizing known with
  | nil => simp [inOrder_nil]
  | cons m l ih =>
    calc InOrder name needs known (m :: (l ++ l'))
        ↔ needs m ⊆ known ∧ InOrder name needs (known ++ [name m]) (l ++ l') := Iff.rfl
      _ ↔ needs m ⊆ known ∧ InOrder name needs (known ++ [name m]) l ∧
            InOrder name needs (known ++ [name m] ++ l.map name) l' := by rw [ih]
      _ ↔ InOrder name needs known (m :: l) ∧ InOrder name needs (known ++ (m :: l).map name) l' := by
          rw [List.append_assoc, ← and_assoc]
          rfl

omit [DecidableEq κ] in
theorem inOrder_iff {l : List β} :
    InOrder name needs [] l ↔ ∀ before m after, l = before ++ m :: after → needs m ⊆ before.map name := by
  constructor
  · rintro h before m after rfl
    have hm := (inOrder_append.1 h).2.1
    rwa [List.nil_append] at hm
  · intro h
    induction l using List.reverseRecOn with
    | nil => trivial
    | append_singleton l m ih =>
      refine inOrder_append.2 ⟨ih fun before m' after heq => ?_, ?_, trivial⟩
      · exact h before m' (after ++ [m]) (by simp [heq])
      · simpa using h l m [] rfl

omit [DecidableEq κ] in
/-- backwards, a list in order is ordered along the needs -/
theorem InOrder.ordered {l : List β} (h : InOrder name needs [] l) (hsub : l ⊆ all) (hnames : (all.map name).Nodup)
    (hnodup : (l.map name).Nodup) : Ordered (Needs name needs all) (l.map name).reverse := by
  induction l using List.reverseRecOn with
  | nil => exact .nil
  | append_singleton l m ih =>
    obtain ⟨hinit, hlast, -⟩ := inOrder_append.1 h
    rw [List.map_append, List.nodup_append] at hnodup
    rw [List.map_append, List.map_singleton, List.reverse_append, List.reverse_singleton, List.singleton_append]
    refine .cons ?_ ?_ (ih hinit (fun x hx => hsub (List.mem_append_left _ hx)) hnodup.1)
    · intro hmem
      exact hnodup.2.2 _ (List.mem_reverse.1 hmem) _ (by simp) rfl
    · rintro y ⟨m', hm', hname, hy⟩
      obtain rfl : m' = m := List.inj_on_of_nodup_map hnames hm' (hsub (by simp)) hname
      exact List.mem_reverse.2 (by simpa using hlast hy)

variable (name needs) in
theorem turn_perm (done pending : List β) :
    ((turn name needs done pending).1 ++ (turn name needs done pending).2).Perm (done ++ pending) := by
  induction pending generalizing done with
  | nil => rfl
  | cons m pending ih =>
    rw [turn_cons]
    split_ifs with hready
    · simpa using ih (done ++ [m])
    · exact List.perm_middle.trans (((ih done).cons m).trans List.perm_middle.symm)

theorem turn_inOrder (h : InOrder name needs [] done) : InOrder name needs [] (turn name needs done pending).1 := by
  induction pending generalizing done with
  | nil => exact h
  | cons m pending ih =>
    rw [turn_cons]
    split_ifs with hready
    · exact ih (inOrder_append.2 ⟨h, by simpa using hready, trivial⟩)
    · exact ih h

variable (name needs) in
theorem turn_length_le (done pending : List β) : (turn name needs done pending).2.length ≤ pending.length := by
  induction pending generalizing done with
  | nil => exact Nat.le_refl 0
  | cons m pending ih =>
    rw [turn_cons]
    split_ifs with hready
    · exact Nat.le_succ_of_le (ih _)
    · exact Nat.succ_le_succ (ih _)

/-- a pass that takes nothing found nothing it could take -/
theorem turn_stuck (h : (turn name needs done pending).2.length = pending.length) :
    turn name needs done pending = (done, pending) ∧ ∀ m ∈ pending, ¬ needs m ⊆ done.map name := by
  induction pending generalizing done with
  | nil => exact ⟨rfl, fun x hx => (nomatch hx)⟩
  | cons m pending ih =>
    rw [turn_cons] at h ⊢
    split_ifs at h ⊢ with hready
    · have := turn_length_le name needs (done ++ [m]) pending
      rw [List.length_cons] at h
      omega
    · obtain ⟨heq, hnone⟩ := ih (Nat.succ.inj h)
      rw [heq]
      refine ⟨rfl, fun x hx => ?_⟩
      rcases List.mem_cons.1 hx with rfl | hx
      · exact hready
      · exact hnone x hx

theorem turn_of_inOrder (h : InOrder name needs (done.map name) pending) :
    turn name needs done pending = (done ++ pending, []) := by
  induction pending generalizing done with
  | nil => rw [turn, List.append_nil]
  | cons m pending ih =>
    rw [turn_cons, if_pos h.1, ih (by simpa using h.2)]
    simp

/-- a pass that takes something leaves fewer, so the rounds end -/
theorem rounds_isSome (h : pending.length ≤ fuel) : (rounds name needs fuel done pending).isSome := by
  induction fuel generalizing done pending with
  | zero =>
    obtain rfl := List.length_eq_zero_iff.1 (Nat.le_zero.1 h)
    rfl
  | succ fuel ih =>
    rcases pending with _ | ⟨m, pending⟩
    · rfl
    · rw [rounds_cons]
      split_ifs with hstuck
      · rfl
      · have hle := turn_length_le name needs done (m :: pending)
        exact ih (by omega)

theorem rounds_mono {fuel' : ℕ} {result : Except (List β) (List β)}
    (h : rounds name needs fuel done pending = some result) (hle : fuel ≤ fuel') :
    rounds name needs fuel' done pending = some result := by
  induction fuel generalizing fuel' done pending with
  | zero =>
    rcases pending with _ | ⟨m, pending⟩
    · rw [← h, rounds_nil, rounds_nil]
    · cases h
  | succ fuel ih =>
    obtain ⟨fuel', rfl⟩ : ∃ k, fuel' = k + 1 := ⟨fuel' - 1, by omega⟩
    rcases pending with _ | ⟨m, pending⟩
    · rw [← h, rounds_nil, rounds_nil]
    · rw [rounds_cons] at h ⊢
      split_ifs at h ⊢ with hstuck
      · exact h
      · exact ih h (by omega)

theorem rounds_ok (h : InOrder name needs [] done) (hrun : rounds name needs fuel done pending = some (.ok out)) :
    out.Perm (done ++ pending) ∧ InOrder name needs [] out := by
  induction fuel generalizing done pending with
  | zero =>
    rcases pending with _ | ⟨m, pending⟩
    · obtain rfl : done = out := by simpa [rounds_nil] using hrun
      simpa using h
    · cases hrun
  | succ fuel ih =>
    rcases pending with _ | ⟨m, pending⟩
    · obtain rfl : done = out := by simpa [rounds_nil] using hrun
      simpa using h
    · rw [rounds_cons] at hrun
      split_ifs at hrun with hstuck
      · cases hrun
      · obtain ⟨hperm, hin⟩ := ih (turn_inOrder h) hrun
        exact ⟨hperm.trans (turn_perm name needs done (m :: pending)), hin⟩

theorem rounds_stuck (hrun : rounds name needs fuel done pending = some (.error rest)) :
    rest ≠ [] ∧ ∃ done', (done' ++ rest).Perm (done ++ pending) ∧ ∀ m ∈ rest, ¬ needs m ⊆ done'.map name := by
  induction fuel generalizing done pending with
  | zero => rcases pending with _ | ⟨m, pending⟩ <;> cases hrun
  | succ fuel ih =>
    rcases pending with _ | ⟨m, pending⟩
    · cases hrun
    · rw [rounds_cons] at hrun
      split_ifs at hrun with hstuck
      · obtain ⟨heq, hnone⟩ := turn_stuck hstuck
        simp only [heq, Option.some.injEq, Except.error.injEq] at hrun
        subst hrun
        exact ⟨by simp, done, .refl _, hnone⟩
      · obtain ⟨hne, done', hperm, hnone⟩ := ih hrun
        exact ⟨hne, done', hperm.trans (turn_perm name needs done (m :: pending)), hnone⟩

/-- what is left over holds a cycle: everything in it needs something that was not taken -/
theorem rounds_error (hall : ∀ m ∈ all, needs m ⊆ all.map name)
    (hrun : rounds name needs fuel [] all = some (.error rest)) : ¬ Acyclic (Needs name needs all) := by
  obtain ⟨hne, done, hperm, hnone⟩ := rounds_stuck hrun
  rw [List.nil_append] at hperm
  have hleads : ∀ x ∈ rest.map name, ∃ y ∈ rest.map name, Needs name needs all x y := by
    intro x hx
    obtain ⟨m, hm, rfl⟩ := List.mem_map.1 hx
    have hmall : m ∈ all := hperm.subset (List.mem_append_right _ hm)
    obtain ⟨y, hy, hnot⟩ : ∃ y ∈ needs m, y ∉ done.map name := by simpa [List.subset_def] using hnone m hm
    obtain ⟨p, hp, rfl⟩ := List.mem_map.1 (hall m hmall hy)
    rcases List.mem_append.1 (hperm.symm.subset hp) with hdone | hrest
    · exact absurd (List.mem_map_of_mem hdone) hnot
    · exact ⟨name p, List.mem_map_of_mem hrest, m, hmall, rfl, hy⟩
  obtain ⟨x, -, hcycle⟩ := exists_cycle (by simpa using hne) hleads
  exact fun hacyclic => hacyclic x hcycle

theorem rounds_inOrder (h : InOrder name needs [] all) : rounds name needs all.length [] all = some (.ok all) := by
  rcases all with _ | ⟨m, l⟩
  · rfl
  · rw [List.length_cons, rounds_cons, turn_of_inOrder (by simpa using h), if_neg (by simp), rounds_nil, List.nil_append]

/-- **The rounds.** With distinct names and needs that are among them, they end with a list if and only if there is no
cycle. -/
theorem rounds_ok_iff (hnames : (all.map name).Nodup) (hall : ∀ m ∈ all, needs m ⊆ all.map name) (hfuel : all.length ≤ fuel) :
    (∃ out, rounds name needs fuel [] all = some (.ok out)) ↔ Acyclic (Needs name needs all) := by
  constructor
  · rintro ⟨out, hrun⟩ x hcycle
    obtain ⟨hperm, hin⟩ := rounds_ok inOrder_nil hrun
    rw [List.nil_append] at hperm
    have hordered := hin.ordered hperm.subset hnames ((hperm.map name).nodup_iff.2 hnames)
    obtain ⟨y, ⟨m, hm, rfl, -⟩, -⟩ := (TransGen.head'_iff).1 hcycle
    refine hordered.acyclic ?_ hcycle
    exact List.mem_reverse.2 (List.mem_map_of_mem (hperm.symm.subset hm))
  · intro hacyclic
    have hends : (rounds name needs fuel [] all).isSome := rounds_isSome hfuel
    obtain ⟨result, hrun⟩ := Option.isSome_iff_exists.1 hends
    rcases result with rest | out
    · exact absurd hacyclic (rounds_error hall hrun)
    · exact ⟨out, hrun⟩

end Rounds

end LkmService.Graph
