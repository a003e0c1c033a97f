/-
Forests that are grown from a list of roots along a function that gives the children of an element.

- `grow`: the tree below an element, `none` when it has not ended within the fuel. `growAll_isSome`: where every child comes
  later in a bounded rank, it ends; `growAll_mono`: more fuel changes nothing.
- `nodes`: each label with the labels of its children. `kids_of_growAll`: these are the children of the label.
- `mem_labels_growAll`: the labels are what can be reached from the roots.
- `nodup_labels_growAll`: where a child has one parent (`Rooted`) and no root lies below another, no label comes twice.
-/
import Mathlib.Data.List.Nodup
import Mathlib.Logic.Relation
import Mathlib.Tactic.Common

namespace LkmService.Forest

open Relation

inductive Tree (α : Type) where
  | node (label : α) (children : List (Tree α))

variable {α : Type} {children : α → List α} {fuel : ℕ} {a b : α} {as : List α} {t : Tree α} {ts : List (Tree α)}

def Tree.label : Tree α → α
  | .node label _ => label

mutual

/-- each label with those of its children -/
def Tree.nodes : Tree α → List (α × List α)
  | .node label ts => (label, ts.map Tree.label) :: nodes ts

def nodes : List (Tree α) → List (α × List α)
  | [] => []
  | t :: ts => t.nodes ++ nodes ts

end

def labels (ts : List (Tree α)) : List α := (nodes ts).map Prod.fst

/-- the tree below an element -/
def grow (children : α → List α) : ℕ → α → Option (Tree α)
  | 0, _ => none
  | fuel + 1, a => ((children a).mapM (grow children fuel)).map (.node a)

def growAll (children : α → List α) (fuel : ℕ) (roots : List α) : Option (List (Tree α)) := roots.mapM (grow children fuel)

/-! ## Growing -/

theorem growAll_nil : growAll children fuel [] = some [] := rfl

theorem growAll_cons : growAll children fuel (a :: as) = some ts ↔
    ∃ t rest, grow children fuel a = some t ∧ growAll children fuel as = some rest ∧ ts = t :: rest := by
  have hcons : growAll children fuel (a :: as) =
      (do let t ← grow children fuel a; let rest ← growAll children fuel as; pure (t :: rest)) := List.mapM_cons
  rw [hcons]
  rcases grow children fuel a with _ | t
  · simp
  · rcases growAll children fuel as with _ | rest
    · simp
    · simp [eq_comm]

theorem grow_succ : grow children (fuel + 1) a = some t ↔ ∃ ts, growAll children fuel (children a) = some ts ∧ t = .node a ts := by
  have hgrow : grow children (fuel + 1) a = (growAll children fuel (children a)).map (.node a) := rfl
  rw [hgrow, Option.map_eq_some_iff]
  simp only [eq_comm]

/-- a tree for each root, in their order -/
theorem map_label_growAll (h : growAll children fuel as = some ts) : ts.map Tree.label = as := by
  induction as generalizing ts with
  | nil =>
    obtain rfl := Option.some.inj (growAll_nil.symm.trans h)
    rfl
  | cons a as ih =>
    obtain ⟨t, rest, hgrow, hrest, rfl⟩ := growAll_cons.1 h
    have hlabel : t.label = a := by
      rcases fuel with _ | fuel
      · cases hgrow
      · obtain ⟨_, _, rfl⟩ := grow_succ.1 hgrow
        rfl
    rw [List.map_cons, hlabel, ih hrest]

theorem growAll_isSome_of (h : ∀ a ∈ as, (grow children fuel a).isSome) : (growAll children fuel as).isSome := by
  induction as with
  | nil => rfl
  | cons a as ih =>
    obtain ⟨t, ht⟩ := Option.isSome_iff_exists.1 (h a List.mem_cons_self)
    obtain ⟨rest, hrest⟩ := Option.isSome_iff_exists.1 (ih fun b hb => h b (List.mem_cons_of_mem _ hb))
    rw [growAll_cons.2 ⟨t, rest, ht, hrest, rfl⟩]
    rfl

/-- **It ends.** Every child comes later, and no rank is beyond the bound. -/
theorem grow_isSome {p : α → Prop} {rank : α → ℕ} {bound : ℕ} (hup : ∀ a b, p a → b ∈ children a → p b ∧ rank a < rank b)
    (hbound : ∀ a, p a → rank a < bound) (ha : p a) (hfuel : bound ≤ fuel + rank a) : (grow children fuel a).isSome := by
  induction fuel generalizing a with
  | zero =>
    have := hbound a ha
    omega
  | succ fuel ih =>
    have hall : (growAll children fuel (children a)).isSome := by
      refine growAll_isSome_of fun b hb => ?_
      obtain ⟨hp, hrank⟩ := hup a b ha hb
      exact ih hp (by omega)
    obtain ⟨ts, hts⟩ := Option.isSome_iff_exists.1 hall
    rw [grow_succ.2 ⟨ts, hts, rfl⟩]
    rfl

theorem growAll_isSome {p : α → Prop} {rank : α → ℕ} {bound : ℕ} (hup : ∀ a b, p a → b ∈ children a → p b ∧ rank a < rank b)
    (hbound : ∀ a, p a → rank a < bound) (has : ∀ a ∈ as, p a) (hfuel : bound ≤ fuel) : (growAll children fuel as).isSome :=
  growAll_isSome_of fun a ha => grow_isSome hup hbound (has a ha) (by omega)

/-- more fuel changes nothing -/
theorem growAll_mono {fuel' : ℕ} (h : growAll children fuel as = some ts) (hle : fuel ≤ fuel') :
    growAll children fuel' as = some ts := by
  induction fuel generalizing fuel' as ts with
  | zero =>
    rcases as with _ | ⟨a, as⟩
    · exact h
    · obtain ⟨_, _, hgrow, _⟩ := growAll_cons.1 h
      cases hgrow
  | succ fuel ih =>
    obtain ⟨fuel', rfl⟩ : ∃ k, fuel' = k + 1 := ⟨fuel' - 1, by omega⟩
    induction as generalizing ts with
    | nil => exact h
    | cons a as ihas =>
      obtain ⟨t, rest, hgrow, hrest, rfl⟩ := growAll_cons.1 h
      obtain ⟨kids, hkids, rfl⟩ := grow_succ.1 hgrow
      exact growAll_cons.2 ⟨_, rest, grow_succ.2 ⟨kids, ih hkids (by omega), rfl⟩, ihas hrest, rfl⟩

/-! ## Labels -/

theorem Tree.nodes_node : (Tree.node a ts).nodes = (a, ts.map Tree.label) :: Forest.nodes ts := rfl

theorem nodes_cons : nodes (t :: ts) = t.nodes ++ nodes ts := rfl

theorem labels_nil : labels ([] : List (Tree α)) = [] := rfl

theorem labels_cons : labels (t :: ts) = labels [t] ++ labels ts := by
  have hone : nodes [t] = t.nodes := List.append_nil _
  unfold labels
  rw [nodes_cons, hone, List.map_append]

theorem labels_node : labels [.node a ts] = a :: labels ts := congrArg (List.map Prod.fst) (List.append_nil _)

/-- what is said of the nodes of a single tree and of a list of trees, by induction on the fuel -/
theorem forall_nodes {P : α → List α → Prop} (hP : ∀ a, P a (children a)) (h : growAll children fuel as = some ts) :
    ∀ node ∈ nodes ts, P node.1 node.2 := by
  induction fuel generalizing as ts with
  | zero =>
    rcases as with _ | ⟨a, as⟩
    · obtain rfl := Option.some.inj (growAll_nil.symm.trans h)
      intro node hnode
      cases hnode
    · obtain ⟨_, _, hgrow, _⟩ := growAll_cons.1 h
      cases hgrow
  | succ fuel ih =>
    induction as generalizing ts with
    | nil =>
      obtain rfl := Option.some.inj (growAll_nil.symm.trans h)
      intro node hnode
      cases hnode
    | cons a as ihas =>
      obtain ⟨t, rest, hgrow, hrest, rfl⟩ := growAll_cons.1 h
      obtain ⟨kids, hkids, rfl⟩ := grow_succ.1 hgrow
      intro node hnode
      rw [nodes_cons, Tree.nodes_node, List.cons_append, List.mem_cons, List.mem_append] at hnode
      rcases hnode with rfl | hnode | hnode
      · rw [map_label_growAll hkids]
        exact hP a
      · exact ih hkids node hnode
      · exact ihas hrest node hnode

theorem kids_of_growAll {kids : List α} (h : growAll children fuel as = some ts) (hnode : (a, kids) ∈ nodes ts) :
    kids = children a := by
  have hall : ∀ node ∈ nodes ts, children node.1 = node.2 := forall_nodes (fun _ => rfl) h
  exact (hall _ hnode).symm

/-- **What is in the forest.** -/
theorem mem_labels_growAll (h : growAll children fuel as = some ts) :
    b ∈ labels ts ↔ ∃ a ∈ as, ReflTransGen (fun x y => y ∈ children x) a b := by
  induction fuel generalizing as ts with
  | zero =>
    rcases as with _ | ⟨a, as⟩
    · obtain rfl := Option.some.inj (growAll_nil.symm.trans h)
      simp [labels_nil]
    · obtain ⟨_, _, hgrow, _⟩ := growAll_cons.1 h
      cases hgrow
  | succ fuel ih =>
    induction as generalizing ts with
    | nil =>
      obtain rfl := Option.some.inj (growAll_nil.symm.trans h)
      simp [labels_nil]
    | cons a as ihas =>
      obtain ⟨t, rest, hgrow, hrest, rfl⟩ := growAll_cons.1 h
      obtain ⟨kids, hkids, rfl⟩ := grow_succ.1 hgrow
      rw [labels_cons, labels_node, List.mem_append, List.mem_cons, ih hkids, ihas hrest, List.exists_mem_cons_iff]
      refine or_congr_left ?_
      rw [ReflTransGen.cases_head_iff]
      exact or_congr_left eq_comm

/-- every label has a node -/
theorem exists_node (h : growAll children fuel as = some ts) (hb : b ∈ labels ts) : (b, children b) ∈ nodes ts := by
  obtain ⟨node, hnode, rfl⟩ := List.mem_map.1 hb
  rw [← kids_of_growAll h hnode]
  exact hnode

/-- the elements among which a child has one parent -/
structure Rooted (children : α → List α) (p : α → Prop) : Prop where
  closed : ∀ a b, p a → b ∈ children a → p b
  unique : ∀ a b c, p a → p b → c ∈ children a → c ∈ children b → a = b
  nodup : ∀ a, p a → (children a).Nodup
  acyclic : ∀ a, p a → ¬ TransGen (fun x y => y ∈ children x) a a

variable {p : α → Prop}

theorem Rooted.reach (hr : Rooted children p) (ha : p a) (h : ReflTransGen (fun x y => y ∈ children x) a b) :
    p b ∧ ReflTransGen (fun x y => p x ∧ y ∈ children x) a b := by
  induction h with
  | refl => exact ⟨ha, .refl⟩
  | tail _ hstep ih => exact ⟨hr.closed _ _ ih.1 hstep, ih.2.tail ⟨ih.1, hstep⟩⟩

/-- of two elements above a third, one is above the other -/
theorem Rooted.comparable (hr : Rooted children p) {c : α} (ha : p a) (hc : p c)
    (hab : ReflTransGen (fun x y => y ∈ children x) a b) (hcb : ReflTransGen (fun x y => y ∈ children x) c b) :
    ReflTransGen (fun x y => y ∈ children x) a c ∨ ReflTransGen (fun x y => y ∈ children x) c a := by
  have hright : Relator.RightUnique (Function.swap fun x y => p x ∧ y ∈ children x) :=
    fun b x y hx hy => hr.unique x y b hx.1 hy.1 hx.2 hy.2
  have hforget : ∀ {x y}, ReflTransGen (Function.swap fun x y => p x ∧ y ∈ children x) x y →
      ReflTransGen (fun x y => y ∈ children x) y x := by
    intro x y h
    have hback : ReflTransGen (fun x y => p x ∧ y ∈ children x) y x := h.swap
    exact hback.lift id fun _ _ hstep => hstep.2
  rcases ReflTransGen.total_of_right_unique hright (hr.reach ha hab).2.swap (hr.reach hc hcb).2.swap with h | h
  · exact Or.inr (hforget h)
  · exact Or.inl (hforget h)

/-- **Each once.** No root lies below another, so the trees have nothing in common. -/
theorem nodup_labels_growAll (hr : Rooted children p) (has : ∀ a ∈ as, p a) (hnodup : as.Nodup)
    (hapart : ∀ a ∈ as, ∀ b ∈ as, ReflTransGen (fun x y => y ∈ children x) a b → a = b)
    (h : growAll children fuel as = some ts) : (labels ts).Nodup := by
  induction fuel generalizing as ts with
  | zero =>
    rcases as with _ | ⟨a, as⟩
    · obtain rfl := Option.some.inj (growAll_nil.symm.trans h)
      exact List.nodup_nil
    · obtain ⟨_, _, hgrow, _⟩ := growAll_cons.1 h
      cases hgrow
  | succ fuel ih =>
    induction as generalizing ts with
    | nil =>
      obtain rfl := Option.some.inj (growAll_nil.symm.trans h)
      exact List.nodup_nil
    | cons a as ihas =>
      obtain ⟨t, rest, hgrow, hrest, rfl⟩ := growAll_cons.1 h
      obtain ⟨kids, hkids, rfl⟩ := grow_succ.1 hgrow
      obtain ⟨hfresh, htail⟩ := List.nodup_cons.1 hnodup
      have hp : p a := has a List.mem_cons_self
      have hbelow : (labels kids).Nodup := by
        refine ih (fun b hb => hr.closed a b hp hb) (hr.nodup a hp) (fun b hb c hc hreach => ?_) hkids
        -- the way from one child to another would lead through their parent
        rcases (ReflTransGen.cases_tail_iff _ _ _).1 hreach with heq | ⟨x, hbx, hxc⟩
        · exact heq.symm
        · obtain rfl := hr.unique x a c (hr.reach (hr.closed a b hp hb) hbx).1 hp hxc hc
          exact absurd (TransGen.head' hb hbx) (hr.acyclic x hp)
      have hothers := ihas (fun b hb => has b (List.mem_cons_of_mem _ hb)) htail (fun b hb c hc => hapart b (List.mem_cons_of_mem _ hb) c (List.mem_cons_of_mem _ hc)) hrest
      have hroot : a ∉ labels kids := by
        intro ha
        obtain ⟨b, hb, hreach⟩ := (mem_labels_growAll hkids).1 ha
        exact hr.acyclic a hp (TransGen.head' hb hreach)
      rw [labels_cons, labels_node]
      refine List.nodup_append.2 ⟨List.nodup_cons.2 ⟨hroot, hbelow⟩, hothers, fun x hx y hy heq => ?_⟩
      subst heq
      have hax : ReflTransGen (fun x y => y ∈ children x) a x := by
        rcases List.mem_cons.1 hx with rfl | hx
        · exact .refl
        · obtain ⟨b, hb, hreach⟩ := (mem_labels_growAll hkids).1 hx
          exact .head hb hreach
      obtain ⟨c, hc, hcx⟩ := (mem_labels_growAll hrest).1 hy
      have hsame : a = c := by
        rcases hr.comparable hp (has c (List.mem_cons_of_mem _ hc)) hax hcx with hac | hca
        · exact hapart a List.mem_cons_self c (List.mem_cons_of_mem _ hc) hac
        · exact (hapart c (List.mem_cons_of_mem _ hc) a List.mem_cons_self hca).symm
      exact hfresh (hsame ▸ hc)

end LkmService.Forest
