/-
Rely-guarantee reasoning about sessions over the store, one session at a time.

All that a session knows is what it owns (`Own`: its uncommitted versions and its keys) and what is committed (`Snap`).
A `Discipline` states the invariant of the committed state, what session `i` may rely on while it owns `o`, what each
commit does, and what holds of the committed state while a key is free or held (`lock`: who takes a free key may assume
what it protects, and who releases it owes that). Its `protocol` adds what the store itself guarantees: what a session
owns no other session changes.
- `wp i p Q o σ`: the program `p` of session `i`, which owns `o` while `σ` is committed, keeps the discipline and ends
  in `Q`.
- `wp_select` … `wp_perform`: one rule for each statement. Only `commit` and the statements outside the tables owe the
  discipline anything (`Good`); every statement may find the committed state moved on by the others (`Later`).
- A discipline whose keys protect nothing is `Lockless`: then ending a transaction owes nothing for its keys.
- `ok`, `okCommit`: conditions on the runs; a connection may be lost only where the keys of the session may be released.
-/
import Mathlib.Tactic.Common
import LkmService.Lib.Rely
import LkmService.Lib.Sql

namespace LkmService.Sql

open Session

set_option linter.unusedSectionVars false

variable {T : Type} [DecidableEq T] {Row : T → Type} {K : Type} [DecidableEq K] {X : Type}

/-! ## What a session owns and what is committed -/

/-- the committed rows, the number of row identities given out, and the state outside the tables -/
structure Snap {T : Type} (Row : T → Type) (X : Type) where
  com (t : T) : ℕ → Option (Row t)
  next : T → ℕ
  ext : X

/-- the rows that a session has locked or written, with its versions of them, and the keys it holds -/
@[ext] structure Own {T : Type} (Row : T → Type) (K : Type) where
  row (t : T) : ℕ → Option (Option (Row t)) := fun _ => none
  key : K → Prop := fun _ => False

namespace Own

def put (t : T) (n : ℕ) (v : Option (Row t)) (o : Own Row K) : Own Row K :=
  { o with row := Function.update o.row t (Function.update (o.row t) n (some v)) }

def take (k : K) (o : Own Row K) : Own Row K := { o with key := fun k' => k' = k ∨ o.key k' }

/-- no row and no key belongs to both -/
structure Disjoint (o o' : Own Row K) : Prop where
  row : ∀ t n, o.row t n ≠ none → o'.row t n = none
  key : ∀ k, o.key k → ¬ o'.key k

/-- the version of a row that the session sees -/
def view (o : Own Row K) (σ : Snap Row X) (t : T) (n : ℕ) : Option (Row t) := (o.row t n).getD (σ.com t n)

variable {o o' : Own Row K}

@[simp] theorem put_row_self (t : T) (n : ℕ) (v : Option (Row t)) : (o.put t n v).row t n = some v := by
  simp [put]

theorem put_row_of_ne (t : T) (n : ℕ) (v : Option (Row t)) {t' : T} {m : ℕ} (h : t' = t → m ≠ n) :
    (o.put t n v).row t' m = o.row t' m := by
  by_cases ht : t' = t
  · subst ht; simp [put, Function.update_of_ne (h rfl)]
  · simp [put, Function.update_of_ne ht]

/-- taking a row leaves the rows owned before -/
theorem put_row_of_some {t t' : T} {n m : ℕ} {v : Option (Row t')} (w : Option (Row t)) (hn : o.row t n = none)
    (hv : o.row t' m = some v) : (o.put t n w).row t' m = some v := by
  rw [put_row_of_ne _ _ _ fun ht hm => ?_, hv]
  subst ht hm
  rw [hn] at hv
  simp at hv

/-- the rows of the same table, as a function of the row's number -/
theorem put_row_same (t : T) (n m : ℕ) (v : Option (Row t)) :
    (o.put t n v).row t m = if m = n then some v else o.row t m := by
  simp [put, Function.update_apply]

/-- a row that is owned after a row of its table was taken -/
theorem put_row_cases {t : T} {n m : ℕ} {v w : Option (Row t)} (h : (o.put t n v).row t m = some w) :
    o.row t m = some w ∨ m = n ∧ w = v := by
  rw [put_row_same] at h
  split_ifs at h with hmn
  · exact Or.inr ⟨hmn, (Option.some.inj h).symm⟩
  · exact Or.inl h

theorem put_row_other (t : T) (n : ℕ) (v : Option (Row t)) {t' : T} (h : t' ≠ t) :
    (o.put t n v).row t' = o.row t' := by
  simp [put, Function.update_of_ne h]

/-- of two versions that the session writes of one row the second stays -/
@[simp] theorem put_put (t : T) (n : ℕ) (v w : Option (Row t)) : (o.put t n v).put t n w = o.put t n w := by
  simp [put]

theorem put_self {t : T} {n : ℕ} {v : Option (Row t)} (h : o.row t n = some v) : o.put t n v = o := by
  refine Own.ext (funext fun t' => funext fun m => ?_) rfl
  by_cases heq : t' = t ∧ m = n
  · obtain ⟨rfl, rfl⟩ := heq
    rw [put_row_self, h]
  · exact put_row_of_ne _ _ _ fun ht hm => heq ⟨ht, hm⟩

/-- rows of two tables are written in either order -/
theorem put_comm (t t' : T) (n m : ℕ) (v : Option (Row t)) (w : Option (Row t')) (h : t ≠ t') :
    (o.put t n v).put t' m w = (o.put t' m w).put t n v := by
  simp [put, Function.update_of_ne h, Function.update_of_ne h.symm, Function.update_comm h]

@[simp] theorem empty_row (t : T) (n : ℕ) : ({} : Own Row K).row t n = none := rfl

@[simp] theorem empty_key (k : K) : ¬ ({} : Own Row K).key k := id

@[simp] theorem put_key (t : T) (n : ℕ) (v : Option (Row t)) : (o.put t n v).key = o.key := rfl

@[simp] theorem take_row (k : K) : (o.take k).row = o.row := rfl

@[simp] theorem take_key (k k' : K) : (o.take k).key k' ↔ k' = k ∨ o.key k' := Iff.rfl

theorem view_of_row {σ : Snap Row X} {t : T} {n : ℕ} {v : Option (Row t)} (h : o.row t n = some v) :
    o.view σ t n = v := by simp [view, h]

theorem view_of_none {σ : Snap Row X} {t : T} {n : ℕ} (h : o.row t n = none) : o.view σ t n = σ.com t n := by
  simp [view, h]

@[simp] theorem view_empty (σ : Snap Row X) (t : T) (n : ℕ) : ({} : Own Row K).view σ t n = σ.com t n := rfl

/-- what `o` holds, `o'` holds too; the versions may differ -/
structure Sub (o o' : Own Row K) : Prop where
  row : ∀ t n, o.row t n ≠ none → o'.row t n ≠ none
  key : ∀ k, o.key k → o'.key k

theorem Sub.refl (o : Own Row K) : o.Sub o := ⟨fun _ _ h => h, fun _ h => h⟩

theorem Sub.trans {o₁ o₂ o₃ : Own Row K} (h : o₁.Sub o₂) (h' : o₂.Sub o₃) : o₁.Sub o₃ :=
  ⟨fun t n hn => h'.row t n (h.row t n hn), fun k hk => h'.key k (h.key k hk)⟩

theorem sub_put (o : Own Row K) (t : T) (n : ℕ) (v : Option (Row t)) : o.Sub (o.put t n v) where
  row t' m hm := by
    by_cases h : t' = t ∧ m = n
    · obtain ⟨rfl, rfl⟩ := h
      simp
    · rwa [put_row_of_ne _ _ _ fun h₁ h₂ => h ⟨h₁, h₂⟩]
  key _ hk := hk

theorem sub_take (o : Own Row K) (k : K) : o.Sub (o.take k) := ⟨fun _ _ h => h, fun _ h => Or.inr h⟩

theorem empty_sub (o : Own Row K) : ({} : Own Row K).Sub o := ⟨fun _ _ h => absurd rfl h, fun _ h => h.elim⟩

theorem disjoint_empty (o : Own Row K) : o.Disjoint {} := ⟨fun _ _ _ => rfl, fun _ _ => id⟩

end Own

namespace Snap

/-- the committed state after the commit of a session that owns `o` -/
def merge (o : Own Row K) (σ : Snap Row X) : Snap Row X := { σ with com := o.view σ }

/-- the row number `n` of table `t` is given out -/
def bump (t : T) (n : ℕ) (σ : Snap Row X) : Snap Row X :=
  { σ with next := Function.update σ.next t (max (σ.next t) (n + 1)) }

/-- row numbers that are not given out are used nowhere -/
def Fresh (o : Own Row K) (σ : Snap Row X) : Prop := ∀ t n, σ.next t ≤ n → σ.com t n = none ∧ o.row t n = none

@[simp] theorem merge_com (o : Own Row K) (σ : Snap Row X) (t : T) (n : ℕ) :
    (σ.merge o).com t n = (o.row t n).getD (σ.com t n) := rfl

theorem merge_of_none {o : Own Row K} {t : T} {n : ℕ} (h : o.row t n = none) (σ : Snap Row X) :
    (σ.merge o).com t n = σ.com t n := by simp [h]

theorem merge_of_some {o : Own Row K} {t : T} {n : ℕ} {v : Option (Row t)} (h : o.row t n = some v) (σ : Snap Row X) :
    (σ.merge o).com t n = v := by simp [h]

/-- a row of the new committed state is the session's own or was committed before -/
theorem merge_cases {o : Own Row K} {σ : Snap Row X} {t : T} {n : ℕ} {v : Option (Row t)}
    (h : (σ.merge o).com t n = v) : o.row t n = some v ∨ o.row t n = none ∧ σ.com t n = v := by
  rcases hr : o.row t n with _ | w
  · exact Or.inr ⟨rfl, by rwa [merge_of_none hr] at h⟩
  · rw [merge_of_some hr] at h
    exact Or.inl (by rw [h])

/-- a table of which the session has written one more row -/
theorem merge_put_self (o : Own Row K) (σ : Snap Row X) (t : T) (n : ℕ) (v : Option (Row t)) :
    (σ.merge (o.put t n v)).com t = Function.update ((σ.merge o).com t) n v := by
  funext m
  rw [merge_com, Own.put_row_same, Function.update_apply]
  split_ifs
  · rfl
  · rfl

theorem merge_put_other (o : Own Row K) (σ : Snap Row X) {t t' : T} (n : ℕ) (v : Option (Row t)) (h : t' ≠ t) :
    (σ.merge (o.put t n v)).com t' = (σ.merge o).com t' := by
  funext m
  rw [merge_com, Own.put_row_other t n v h]
  rfl

@[simp] theorem merge_take (o : Own Row K) (σ : Snap Row X) (k : K) : σ.merge (o.take k) = σ.merge o := rfl

@[simp] theorem merge_ext (o : Own Row K) (σ : Snap Row X) : (σ.merge o).ext = σ.ext := rfl

@[simp] theorem merge_next (o : Own Row K) (σ : Snap Row X) : (σ.merge o).next = σ.next := rfl

@[simp] theorem bump_com (t : T) (n : ℕ) (σ : Snap Row X) : (σ.bump t n).com = σ.com := rfl

@[simp] theorem bump_ext (t : T) (n : ℕ) (σ : Snap Row X) : (σ.bump t n).ext = σ.ext := rfl

theorem bump_of_lt {t : T} {n : ℕ} {σ : Snap Row X} (h : n < σ.next t) : σ.bump t n = σ := by
  have hm : max (σ.next t) (n + 1) = σ.next t := by omega
  simp [bump, hm]

theorem le_bump (t : T) (n : ℕ) (σ : Snap Row X) (t' : T) : σ.next t' ≤ (σ.bump t n).next t' := by
  by_cases h : t' = t
  · subst h
    simp only [bump, Function.update_self]
    omega
  · simp [bump, Function.update_of_ne h]

theorem lt_bump (t : T) (n : ℕ) (σ : Snap Row X) : n < (σ.bump t n).next t := by
  simp only [bump, Function.update_self]
  omega

theorem Fresh.put {o : Own Row K} {σ : Snap Row X} (h : σ.Fresh o) (t : T) (n : ℕ) (v : Option (Row t)) :
    (σ.bump t n).Fresh (o.put t n v) := by
  intro t' m hm
  obtain ⟨hc, ho⟩ := h t' m (Nat.le_trans (σ.le_bump t n t') hm)
  refine ⟨hc, ?_⟩
  rwa [Own.put_row_of_ne _ _ _ fun ht hmn => ?_]
  subst ht hmn
  exact absurd (σ.lt_bump t' m) (by omega)

/-- a row in sight has a number that is given out -/
theorem Fresh.lt_of_view {o : Own Row K} {σ : Snap Row X} (h : σ.Fresh o) {t : T} {n : ℕ} {r : Row t}
    (hv : o.view σ t n = some r) : n < σ.next t := by
  by_contra hn
  obtain ⟨hcom, hown⟩ := h t n (Nat.not_lt.1 hn)
  rw [Own.view_of_none hown, hcom] at hv
  cases hv

theorem Fresh.take {o : Own Row K} {σ : Snap Row X} (h : σ.Fresh o) (k : K) : σ.Fresh (o.take k) := h

/-- a session that only holds locks commits nothing -/
theorem merge_of_unchanged {o : Own Row K} {σ : Snap Row X} (h : ∀ t n v, o.row t n = some v → σ.com t n = v) :
    σ.merge o = σ := by
  have : o.view σ = σ.com := by
    funext t n
    rcases hr : o.row t n with _ | v
    · exact Own.view_of_none hr
    · rw [Own.view_of_row hr, h t n v hr]
  simp [merge, this]

@[simp] theorem merge_empty (σ : Snap Row X) : σ.merge ({} : Own Row K) = σ := rfl

end Snap

namespace Db

def own (i : ℕ) (d : Db Row K X) : Own Row K where
  row t n := (d.cell t n).mine i
  key k := d.key k = some i

def snap (d : Db Row K X) : Snap Row X where
  com t n := (d.cell t n).committed
  next t := (d.tab t).next
  ext := d.ext

variable {i j : ℕ} (d : Db Row K X)

theorem view_own (t : T) (n : ℕ) : (d.cell t n).view i = (d.own i).view d.snap t n := rfl

theorem fresh (t : T) (n : ℕ) (h : d.snap.next t ≤ n) : d.cell t n = {} := (d.tab t).fresh n h

theorem lt_of_com {t : T} {n : ℕ} {r : Row t} (h : d.snap.com t n = some r) : n < d.snap.next t := by
  by_contra hn
  have hcell := d.fresh t n (Nat.not_lt.1 hn)
  simp only [snap, hcell] at h
  cases h

theorem lt_of_own {t : T} {n : ℕ} {v : Option (Row t)} (h : (d.own i).row t n = some v) : n < d.snap.next t := by
  by_contra hn
  have hcell := d.fresh t n (Nat.not_lt.1 hn)
  simp [own, hcell] at h

theorem own_disjoint (h : j ≠ i) : (d.own j).Disjoint (d.own i) where
  row t n hn := Cell.mine_exclusive hn h.symm
  key k hj hi := by
    simp only [own] at hi hj
    rw [hi] at hj
    exact h (Option.some.inj hj).symm

/-- before the first statement nobody owns anything -/
@[simp] theorem own_empty (x : X) : ({ ext := x } : Db Row K X).own i = {} :=
  Own.ext rfl (funext fun k => propext (by simp [own]))

@[simp] theorem com_empty (x : X) (t : T) (n : ℕ) : ({ ext := x } : Db Row K X).snap.com t n = none := rfl

theorem own_put_self (t : T) (n : ℕ) (v : Option (Row t)) : (d.put i t n v).own i = (d.own i).put t n v := by
  refine Own.ext (funext fun t' => funext fun m => ?_) rfl
  by_cases h : t' = t ∧ m = n
  · obtain ⟨rfl, rfl⟩ := h
    simp [own, cell_put_self]
  · rw [Own.put_row_of_ne _ _ _ fun ht hm => h ⟨ht, hm⟩]
    exact congrArg (Cell.mine i) (cell_put_of_ne i t n v d fun ht hm => h ⟨ht, hm⟩)

theorem own_put_other (hj : j ≠ i) (t : T) (n : ℕ) (v : Option (Row t)) (hb : (d.cell t n).mine j = none) :
    (d.put i t n v).own j = d.own j := by
  refine Own.ext (funext fun t' => funext fun m => ?_) rfl
  by_cases h : t' = t ∧ m = n
  · obtain ⟨rfl, rfl⟩ := h
    simp only [own, cell_put_self]
    rw [Cell.mine_put_of_ne hj, hb]
  · exact congrArg (Cell.mine j) (cell_put_of_ne i t n v d fun ht hm => h ⟨ht, hm⟩)

theorem snap_put (t : T) (n : ℕ) (v : Option (Row t)) : (d.put i t n v).snap = d.snap.bump t n := by
  have hc : (fun t' m => ((d.put i t n v).cell t' m).committed) = fun t' m => (d.cell t' m).committed := by
    funext t' m
    by_cases h : t' = t ∧ m = n
    · obtain ⟨rfl, rfl⟩ := h
      rw [cell_put_self, Cell.committed_put]
    · rw [cell_put_of_ne i t n v d fun ht hm => h ⟨ht, hm⟩]
  have hn : (fun t' => ((d.put i t n v).tab t').next) = (d.snap.bump t n).next := by
    funext t'
    by_cases h : t' = t
    · subst h; simp [put, Table.put, snap, Snap.bump]
    · simp [put, snap, Snap.bump, Function.update_of_ne h]
  simp only [snap, hc, hn, Snap.bump]
  rfl

theorem own_takeKey_self (k : K) : (d.takeKey i k).own i = (d.own i).take k := by
  refine Own.ext rfl (funext fun k' => propext ?_)
  by_cases h : k' = k
  · simp [own, takeKey, Own.take, h]
  · simp [own, takeKey, Own.take, h]

theorem own_takeKey_other (hj : j ≠ i) (k : K) (hb : d.keyBusy i k = false) : (d.takeKey i k).own j = d.own j := by
  refine Own.ext rfl (funext fun k' => propext ?_)
  by_cases h : k' = k
  · subst h
    simp only [own, takeKey, Function.update_self, Option.some.injEq, hj.symm, false_iff]
    intro hk
    simp [keyBusy, hk, hj] at hb
  · simp [own, takeKey, Function.update_of_ne h]

theorem own_finish (b : Bool) : (d.finish i b).own j = if j = i then {} else d.own j := by
  split_ifs with h
  · subst h
    refine Own.ext (funext fun t => funext fun n => ?_) (funext fun k => propext ?_)
    · simp [own, Cell.mine_finish]
    · simp [own, finish]
  · refine Own.ext (funext fun t => funext fun n => ?_) (funext fun k => propext ?_)
    · simp [own, Cell.mine_finish, h]
    · simp only [own, finish]
      split_ifs with hk
      · simp [hk, Ne.symm h]
      · rfl

theorem key_finish (b : Bool) (k : K) : (d.finish i b).key k = if d.key k = some i then none else d.key k := rfl

theorem snap_finish_false : (d.finish i false).snap = d.snap := by
  simp only [snap, cell_finish, Cell.committed_finish]
  rfl

theorem snap_finish_true : (d.finish i true).snap = d.snap.merge (d.own i) := by
  simp only [snap, cell_finish, Cell.committed_finish]
  rfl

end Db

/-! ## Disciplines -/

structure Discipline {T : Type} [DecidableEq T] (Row : T → Type) (K : Type) [DecidableEq K] (Fx : Type → Type)
    (X : Type) [Effects Fx X] where
  inv : Snap Row X → Prop
  rely : ℕ → Own Row K → Snap Row X → Snap Row X → Prop
  act : ℕ → Snap Row X → Snap Row X → Prop
  ok : {β : Type} → ℕ → Fx β → Own Row K → Snap Row X → Prop
  okCommit : ℕ → Own Row K → Snap Row X → Prop := fun _ _ _ => True
  lock : K → Option ℕ → Snap Row X → Prop := fun _ _ _ => True
  rely_refl : ∀ i o σ, rely i o σ σ
  rely_trans : ∀ i o σ τ υ, rely i o σ τ → rely i o τ υ → rely i o σ υ
  act_refl : ∀ i σ, inv σ → act i σ σ
  grow_inv : ∀ σ t n, inv σ → inv (σ.bump t n)
  grow_act : ∀ i σ t n, inv σ → act i σ (σ.bump t n)
  grow_rely : ∀ i o σ t n, inv σ → rely i o σ (σ.bump t n)
  grow_lock : ∀ k v σ t n, lock k v σ → lock k v (σ.bump t n) := by intros; trivial
  take_lock : ∀ k i σ, lock k none σ → lock k (some i) σ := by intros; trivial

variable {Fx : Type → Type} [Effects Fx X] {ε ε' α γ : Type}

namespace Discipline

variable (D : Discipline Row K Fx X)

/-- a committed state that a session which owns `o` can find when `σ` was committed before -/
structure Later (i : ℕ) (o : Own Row K) (σ σ' : Snap Row X) : Prop where
  rely : D.rely i o σ σ'
  com : ∀ t n, o.row t n ≠ none → σ'.com t n = σ.com t n
  inv : D.inv σ'
  fresh : σ'.Fresh o

/-- what a session that owns `o` owes when it changes the committed state -/
structure Good (i : ℕ) (o : Own Row K) (σ σ' : Snap Row X) : Prop where
  inv : D.inv σ'
  act : D.act i σ σ'
  rely : ∀ j, j ≠ i → ∀ o' : Own Row K, o'.Disjoint o → D.rely j o' σ σ'

variable {D}

theorem Later.refl {i : ℕ} {o : Own Row K} {σ : Snap Row X} (h : D.inv σ) (hf : σ.Fresh o) : D.Later i o σ σ :=
  ⟨D.rely_refl _ _ _, fun _ _ _ => rfl, h, hf⟩

theorem Later.trans {i : ℕ} {o : Own Row K} {σ τ υ : Snap Row X} (h : D.Later i o σ τ) (h' : D.Later i o τ υ) : D.Later i o σ υ :=
  ⟨D.rely_trans _ _ _ _ _ h.rely h'.rely, fun t n hn => (h'.com t n hn).trans (h.com t n hn), h'.inv, h'.fresh⟩

/-- a row number given out on the way -/
theorem Later.bump {i : ℕ} {o : Own Row K} {σ τ : Snap Row X} (h : D.Later i o σ τ) (t : T) (n : ℕ) :
    D.Later i o σ (τ.bump t n) :=
  ⟨D.rely_trans _ _ _ _ _ h.rely (D.grow_rely i o τ t n h.inv), h.com, D.grow_inv τ t n h.inv,
    fun t' m hm => h.fresh t' m (Nat.le_trans (τ.le_bump t n t') hm)⟩

/-- owning less: what the others may do to more, they may do to less -/
theorem Later.sub {i : ℕ} {o o' : Own Row K} {σ τ : Snap Row X} (h : D.Later i o' σ τ) (hs : o.Sub o')
    (hr : D.rely i o σ τ) : D.Later i o σ τ := by
  refine ⟨hr, fun t n hn => h.com t n (hs.row t n hn), h.inv, fun t n hn => ⟨(h.fresh t n hn).1, ?_⟩⟩
  by_contra ho
  exact hs.row t n ho (h.fresh t n hn).2

theorem Later.com_eq {i : ℕ} {o : Own Row K} {σ τ : Snap Row X} (h : D.Later i o σ τ) {t : T} {n : ℕ}
    {v : Option (Row t)} (hv : o.row t n = some v) : τ.com t n = σ.com t n := h.com t n (by simp [hv])

variable (D)

/-- the discipline together with what the store guarantees -/
def protocol : Protocol (Stmt Row K Fx) (Db Row K X) where
  inv d := D.inv d.snap ∧ ∀ k, D.lock k (d.key k) d.snap
  rely i d d' := d'.own i = d.own i ∧ (∀ t n, (d.own i).row t n ≠ none → d'.snap.com t n = d.snap.com t n) ∧
    D.rely i (d.own i) d.snap d'.snap
  act i d d' := D.act i d.snap d'.snap
  ok i c d :=
    match c with
    | .sql c => c.isCommit = true → D.okCommit i (d.own i) d.snap
    | .fx x => D.ok i x (d.own i) d.snap
  okDrop i d := ∀ k, d.key k = some i → D.lock k none d.snap
  rely_refl i d := ⟨rfl, fun _ _ _ => rfl, D.rely_refl _ _ _⟩
  rely_trans i d e f h h' := by
    obtain ⟨ho, hc, hr⟩ := h
    obtain ⟨ho', hc', hr'⟩ := h'
    refine ⟨ho'.trans ho, fun t n hn => ?_, D.rely_trans _ _ _ _ _ hr (ho ▸ hr')⟩
    rw [hc' t n (by rwa [ho]), hc t n hn]
  drop_inv i d h hd := by
    change D.inv (d.finish i false).snap ∧ ∀ k, D.lock k ((d.finish i false).key k) (d.finish i false).snap
    rw [Db.snap_finish_false]
    refine ⟨h.1, fun k => ?_⟩
    rw [Db.key_finish]
    split_ifs with hk
    · exact hd k hk
    · exact h.2 k
  drop_act i d h _ := by
    change D.act i d.snap (d.finish i false).snap
    rw [Db.snap_finish_false]
    exact D.act_refl i _ h.1
  drop_rely i d h _ j hj := by
    change (d.finish i false).own j = d.own j ∧ (∀ t n, _ → (d.finish i false).snap.com t n = _) ∧
      D.rely j (d.own j) d.snap (d.finish i false).snap
    rw [Db.snap_finish_false, Db.own_finish, if_neg hj]
    exact ⟨rfl, fun _ _ _ => rfl, D.rely_refl _ _ _⟩

/-- the program `p` of session `i`, which owns `o` while `σ` is committed, keeps the discipline and ends in `Q` -/
def wp (i : ℕ) (p : Prog (Stmt Row K Fx) ε α) (Q : Except ε α → Own Row K → Snap Row X → Prop) (o : Own Row K)
    (σ : Snap Row X) : Prop :=
  ∀ d : Db Row K X, d.own i = o → d.snap = σ → D.protocol.wp i p (fun r e => Q r (e.own i) e.snap) d

variable {D} {i : ℕ} {Q : Except ε α → Own Row K → Snap Row X → Prop} {o : Own Row K} {σ : Snap Row X}

/-! ## How preconditions compose -/

theorem wp_done {r : Except ε α} (h : Q r o σ) : D.wp i (.done r) Q o σ := by
  rintro d rfl rfl; exact h

theorem wp_pure {a : α} (h : Q (.ok a) o σ) : D.wp i (pure a : Prog (Stmt Row K Fx) ε α) Q o σ := wp_done h

theorem wp_raise (x : ε) (h : Q (.error x) o σ) : D.wp i (Prog.raise x : Prog (Stmt Row K Fx) ε α) Q o σ := wp_done h

theorem wp_andThen {p : Prog (Stmt Row K Fx) ε γ} {f : Except ε γ → Prog (Stmt Row K Fx) ε' α}
    {Q : Except ε' α → Own Row K → Snap Row X → Prop} (h : D.wp i p (fun r o τ => D.wp i (f r) Q o τ) o σ) :
    D.wp i (p.andThen f) Q o σ := by
  intro d ho hσ
  rw [Protocol.wp_andThen]
  exact D.protocol.wp_mono i (h d ho hσ) fun r e hr => hr e rfl rfl

theorem wp_bind {p : Prog (Stmt Row K Fx) ε γ} {f : γ → Prog (Stmt Row K Fx) ε α}
    (h : D.wp i p (fun r o τ =>
      match r with
      | .ok a => D.wp i (f a) Q o τ
      | .error e => Q (.error e) o τ) o σ) : D.wp i (p >>= f) Q o σ := by
  intro d ho hσ
  rw [Protocol.wp_bind]
  refine D.protocol.wp_mono i (h d ho hσ) ?_
  rintro (_ | a) t ht
  · exact ht
  · exact ht t rfl rfl

theorem wp_mono {p : Prog (Stmt Row K Fx) ε α} {Q' : Except ε α → Own Row K → Snap Row X → Prop}
    (h : D.wp i p Q' o σ) (hQ : ∀ r o τ, Q' r o τ → Q r o τ) : D.wp i p Q o σ :=
  fun d ho hσ => D.protocol.wp_mono i (h d ho hσ) fun r _ hr => hQ r _ _ hr

/-- the postcondition of a program that may also raise; it says nothing about the state after an exception -/
def Returns (P : α → Own Row K → Snap Row X → Prop) : Except ε α → Own Row K → Snap Row X → Prop
  | .ok a => P a
  | .error _ => fun _ _ => True

theorem wp_seq {p : Prog (Stmt Row K Fx) ε γ} {f : γ → Prog (Stmt Row K Fx) ε α}
    {P : γ → Own Row K → Snap Row X → Prop} {P' : α → Own Row K → Snap Row X → Prop}
    (h : D.wp i p (Returns P) o σ) (hf : ∀ a o τ, P a o τ → D.wp i (f a) (Returns P') o τ) :
    D.wp i (p >>= f) (Returns P') o σ := by
  refine wp_bind (wp_mono h ?_)
  rintro (_ | a) o τ hP
  · trivial
  · exact hf a o τ hP

theorem wp_return {P : α → Own Row K → Snap Row X → Prop} {a : α} (h : P a o σ) :
    D.wp i (pure a : Prog (Stmt Row K Fx) ε α) (Returns P) o σ := wp_done h

theorem wp_fail {P : α → Own Row K → Snap Row X → Prop} (x : ε) :
    D.wp i (Prog.raise x : Prog (Stmt Row K Fx) ε α) (Returns P) o σ := wp_done trivial

theorem wp_returns_mono {p : Prog (Stmt Row K Fx) ε α} {P P' : α → Own Row K → Snap Row X → Prop}
    (h : D.wp i p (Returns P) o σ) (hP : ∀ a o τ, P a o τ → P' a o τ) : D.wp i p (Returns P') o σ := by
  refine wp_mono h ?_
  rintro (_ | a) o τ h
  · trivial
  · exact hP a o τ h

/-- the postcondition of a program that may also raise, with what it leaves then -/
def ReturnsOr (P : α → Own Row K → Snap Row X → Prop) (E : ε → Own Row K → Snap Row X → Prop) :
    Except ε α → Own Row K → Snap Row X → Prop
  | .ok a => P a
  | .error e => E e

theorem wp_seqOr {p : Prog (Stmt Row K Fx) ε γ} {f : γ → Prog (Stmt Row K Fx) ε α}
    {P : γ → Own Row K → Snap Row X → Prop} {E : ε → Own Row K → Snap Row X → Prop} (h : D.wp i p (ReturnsOr P E) o σ)
    (hf : ∀ a o τ, P a o τ → D.wp i (f a) Q o τ) (he : ∀ e o τ, E e o τ → Q (.error e) o τ) :
    D.wp i (p >>= f) Q o σ := by
  refine wp_bind (wp_mono h ?_)
  rintro (e | a) o τ hP
  · exact he e o τ hP
  · exact hf a o τ hP

theorem wp_returnsOr {p : Prog (Stmt Row K Fx) ε α} {P : α → Own Row K → Snap Row X → Prop}
    {E : ε → Own Row K → Snap Row X → Prop} (h : D.wp i p (ReturnsOr P E) o σ) : D.wp i p (Returns P) o σ := by
  refine wp_mono h ?_
  rintro (e | a) o τ hP
  · trivial
  · exact hP

/-! ## The rule of each statement -/

/-- one statement: what it answers, owns and commits follows from what the session owns and what is committed -/
theorem wp_stmt {β : Type} {c : Stmt Row K Fx β} {Q : Except ε β → Own Row K → Snap Row X → Prop}
    (h : ∀ d : Db Row K X, d.own i = o → D.Later i o σ d.snap → D.protocol.inv d → D.protocol.ok i c d →
      ∀ b e, Machine.exec i c d = some (b, e) → D.protocol.Good i d e ∧ Q (.ok b) (e.own i) e.snap) :
    D.wp i (Prog.call c : Prog (Stmt Row K Fx) ε β) Q o σ := by
  rintro d rfl rfl
  rw [Protocol.wp_call]
  rintro e ⟨ho, hc, hr⟩ hi hok b f hf
  refine h e ho ⟨hr, hc, hi.1, fun t n hn => ?_⟩ hi hok b f hf
  rw [← ho]
  simp only [Db.own, Db.snap, e.fresh t n hn, Cell.mine_empty, and_self]

/-- a step that changes nothing -/
theorem good_refl {d : Db Row K X} (h : D.protocol.inv d) : D.protocol.Good i d d :=
  ⟨h, D.act_refl i _ h.1, fun j _ => D.protocol.rely_refl j d⟩

/-- a step that writes a row which no other session holds -/
theorem good_put {d : Db Row K X} (h : D.protocol.inv d) {t : T} {n : ℕ} (v : Option (Row t))
    (hb : ∀ j, j ≠ i → (d.cell t n).mine j = none) : D.protocol.Good i d (d.put i t n v) where
  inv := by
    change D.inv (d.put i t n v).snap ∧ ∀ k, D.lock k (d.key k) (d.put i t n v).snap
    rw [Db.snap_put]
    exact ⟨D.grow_inv _ t n h.1, fun k => D.grow_lock k _ _ t n (h.2 k)⟩
  act := by
    change D.act i _ _
    rw [Db.snap_put]; exact D.grow_act i _ t n h.1
  rely j hj := by
    refine ⟨Db.own_put_other d hj t n v (hb j hj), fun t' m _ => ?_, ?_⟩
    · rw [Db.snap_put]; rfl
    · rw [Db.snap_put]; exact D.grow_rely _ _ _ t n h.1

theorem good_takeKey {d e : Db Row K X} (h : D.protocol.Good i d e) {k : K} (hb : e.keyBusy i k = false) :
    D.protocol.Good i d (e.takeKey i k) where
  inv := by
    refine ⟨h.inv.1, fun k' => ?_⟩
    have hlock := h.inv.2 k'
    change D.lock k' ((e.takeKey i k).key k') e.snap
    by_cases hkk : k' = k
    · subst hkk
      simp only [Db.takeKey, Function.update_self]
      rcases hk : e.key k' with _ | j
      · exact D.take_lock k' i _ (hk ▸ hlock)
      · have hji : j = i := by simpa [Db.keyBusy, hk] using hb
        rwa [hk, hji] at hlock
    · simpa only [Db.takeKey, Function.update_of_ne hkk] using hlock
  act := h.act
  rely j hj := by
    obtain ⟨ho, hc, hr⟩ := h.rely j hj
    exact ⟨(Db.own_takeKey_other e hj k hb).trans ho, hc, hr⟩

theorem good_rollback {d : Db Row K X} (h : D.protocol.inv d) (hk : ∀ k, (d.own i).key k → D.lock k none d.snap) :
    D.protocol.Good i d (d.finish i false) :=
  D.protocol.good_drop i d h hk

theorem wp_select {t : T} {p : ℕ → Row t → Bool} {Q : Except ε (List (ℕ × Row t)) → Own Row K → Snap Row X → Prop}
    (h : ∀ τ, D.Later i o σ τ → ∀ l : List (ℕ × Row t), (∀ n r, (n, r) ∈ l ↔ o.view τ t n = some r ∧ p n r = true) →
      l.Pairwise (fun a b => a.1 < b.1) → Q (.ok l) o τ) :
    D.wp i (select t p : Prog (Stmt Row K Fx) ε _) Q o σ := by
  refine wp_stmt fun d ho hl hi _ b e he => ?_
  obtain ⟨rfl, rfl⟩ : (((d.tab t).rows i).filter fun q => p q.1 q.2) = b ∧ d = e := by
    simpa [Machine.exec, Cmd.exec] using he
  refine ⟨good_refl hi, ?_⟩
  subst ho
  refine h d.snap hl _ (fun n r => ?_) ((d.tab t).rows_pairwise i |>.filter _)
  rw [List.mem_filter, Table.mem_rows]
  rfl

/-- SELECT … LIMIT 1 -/
theorem wp_selectHead {t : T} {p : ℕ → Row t → Bool} {f : Option (ℕ × Row t) → Prog (Stmt Row K Fx) ε α}
    {Q : Except ε α → Own Row K → Snap Row X → Prop}
    (hnone : ∀ τ, D.Later i o σ τ → (∀ n r, o.view τ t n = some r → p n r = false) → D.wp i (f none) Q o τ)
    (hsome : ∀ τ n r, D.Later i o σ τ → o.view τ t n = some r → p n r = true → D.wp i (f (some (n, r))) Q o τ) :
    D.wp i (select t p >>= fun rows => f rows.head?) Q o σ := by
  refine wp_bind (wp_select fun τ hl l hmem _ => ?_)
  rcases l with _ | ⟨⟨n, r⟩, l⟩
  · refine hnone τ hl fun n r hv => ?_
    by_contra hp
    have := (hmem n r).2 ⟨hv, by simpa using hp⟩
    simp at this
  · obtain ⟨hv, hp⟩ := (hmem n r).1 List.mem_cons_self
    exact hsome τ n r hl hv hp

/-- the statements that work on one row -/
theorem wp_onRow {β : Type} {c : Cmd Row K β} {t : T} {n : ℕ} {p : Row t → Bool} {new : Row t → Option (Row t)}
    {hit : Row t → β} {miss : β} {busy : Option β} {Q : Except ε β → Own Row K → Snap Row X → Prop}
    (hc : ∀ d : Db Row K X, c.exec i d = Cmd.onRow i t n p new hit miss busy d)
    (hmiss : ∀ τ, D.Later i o σ τ → (∀ r, o.view τ t n = some r → p r = false) → Q (.ok miss) o τ)
    (hbusy : ∀ τ b, D.Later i o σ τ → busy = some b → Q (.ok b) o τ)
    (hhit : ∀ τ r, D.Later i o σ τ → o.view τ t n = some r → p r = true → Q (.ok (hit r)) (o.put t n (new r)) τ) :
    D.wp i (Prog.call (.sql c) : Prog (Stmt Row K Fx) ε β) Q o σ := by
  refine wp_stmt fun d ho hl hi _ b e he => ?_
  change c.exec i d = some (b, e) at he
  rw [hc, Cmd.onRow] at he
  subst ho
  have hlt : ∀ r, (d.own i).view d.snap t n = some r → n < d.snap.next t := by
    intro r hr
    by_contra hn
    rw [← Db.view_own, d.fresh t n (by omega)] at hr
    simp at hr
  rw [Db.view_own] at he
  split at he
  · next hv =>
    simp only [Option.some.injEq, Prod.mk.injEq] at he
    obtain ⟨rfl, rfl⟩ := he
    exact ⟨good_refl hi, hmiss _ hl fun r hr => by simp [hv] at hr⟩
  · next r hv =>
    split at he
    · next hp =>
      split at he
      · obtain ⟨b', hb', hbe⟩ := Option.map_eq_some_iff.1 he
        simp only [Prod.mk.injEq] at hbe
        obtain ⟨rfl, rfl⟩ := hbe
        exact ⟨good_refl hi, hbusy _ _ hl hb'⟩
      · next hb =>
        simp only [Option.some.injEq, Prod.mk.injEq] at he
        obtain ⟨rfl, rfl⟩ := he
        refine ⟨good_put hi _ fun j hj => Cell.mine_of_not_busy (by simpa using hb) hj, ?_⟩
        rw [Db.own_put_self, Db.snap_put, Snap.bump_of_lt (hlt r hv)]
        exact hhit _ r hl hv hp
    · next hp =>
      simp only [Option.some.injEq, Prod.mk.injEq] at he
      obtain ⟨rfl, rfl⟩ := he
      refine ⟨good_refl hi, hmiss _ hl fun r' hr => ?_⟩
      simp only [hv, Option.some.injEq] at hr
      subst hr
      simpa using hp

theorem wp_lockRow {t : T} {n : ℕ} {p : Row t → Bool} {Q : Except ε (Option (Row t)) → Own Row K → Snap Row X → Prop}
    (hmiss : ∀ τ, D.Later i o σ τ → (∀ r, o.view τ t n = some r → p r = false) → Q (.ok none) o τ)
    (hhit : ∀ τ r, D.Later i o σ τ → o.view τ t n = some r → p r = true →
      Q (.ok (some r)) (o.put t n (some r)) τ) :
    D.wp i (lockRow t n p : Prog (Stmt Row K Fx) ε _) Q o σ :=
  wp_onRow (fun _ => rfl) hmiss (fun _ _ _ h => by simp at h) hhit

/-- a row that another session holds is passed over -/
theorem wp_tryLockRow {t : T} {n : ℕ} {p : Row t → Bool}
    {Q : Except ε (Option (Row t)) → Own Row K → Snap Row X → Prop} (hmiss : ∀ τ, D.Later i o σ τ → Q (.ok none) o τ)
    (hhit : ∀ τ r, D.Later i o σ τ → o.view τ t n = some r → p r = true →
      Q (.ok (some r)) (o.put t n (some r)) τ) :
    D.wp i (tryLockRow t n p : Prog (Stmt Row K Fx) ε _) Q o σ :=
  wp_onRow (fun _ => rfl) (fun τ hl _ => hmiss τ hl)
    (fun τ b hl h => by simp only [Option.some.injEq] at h; exact h ▸ hmiss τ hl) hhit

theorem wp_updateRow {t : T} {n : ℕ} {p : Row t → Bool} {f : Row t → Row t}
    {Q : Except ε (Option (Row t)) → Own Row K → Snap Row X → Prop}
    (hmiss : ∀ τ, D.Later i o σ τ → (∀ r, o.view τ t n = some r → p r = false) → Q (.ok none) o τ)
    (hhit : ∀ τ r, D.Later i o σ τ → o.view τ t n = some r → p r = true →
      Q (.ok (some (f r))) (o.put t n (some (f r))) τ) :
    D.wp i (updateRow t n p f : Prog (Stmt Row K Fx) ε _) Q o σ :=
  wp_onRow (fun _ => rfl) hmiss (fun _ _ _ h => by simp at h) hhit

/-- the update of a row that the session holds -/
theorem wp_updateOwned {t : T} {n : ℕ} {p : Row t → Bool} {f : Row t → Row t} {r : Row t}
    {Q : Except ε (Option (Row t)) → Own Row K → Snap Row X → Prop} (hp : p r = true) (hr : o.row t n = some (some r))
    (hQ : ∀ τ, D.Later i o σ τ → Q (.ok (some (f r))) (o.put t n (some (f r))) τ) :
    D.wp i (updateRow t n p f : Prog (Stmt Row K Fx) ε _) Q o σ := by
  refine wp_updateRow (fun τ _ hmiss => ?_) fun τ r' hl hv _ => ?_
  · have := hmiss r (Own.view_of_row hr)
    rw [hp] at this
    simp at this
  · rw [Own.view_of_row hr, Option.some.injEq] at hv
    exact hv ▸ hQ τ hl

theorem wp_deleteRow {t : T} {n : ℕ} {Q : Except ε Bool → Own Row K → Snap Row X → Prop}
    (hmiss : ∀ τ, D.Later i o σ τ → o.view τ t n = none → Q (.ok false) o τ)
    (hhit : ∀ τ r, D.Later i o σ τ → o.view τ t n = some r → Q (.ok true) (o.put t n none) τ) :
    D.wp i (deleteRow t n : Prog (Stmt Row K Fx) ε _) Q o σ := by
  refine wp_onRow (fun _ => rfl) (fun τ hl h => hmiss τ hl ?_) (fun _ _ _ h => by simp at h)
    fun τ r hl hr _ => hhit τ r hl hr
  rcases hv : o.view τ t n with _ | r
  · rfl
  · simp [hv] at h

theorem wp_deleteIf {t : T} {n : ℕ} {p : Row t → Bool} {Q : Except ε Bool → Own Row K → Snap Row X → Prop}
    (hmiss : ∀ τ, D.Later i o σ τ → (∀ r, o.view τ t n = some r → p r = false) → Q (.ok false) o τ)
    (hhit : ∀ τ r, D.Later i o σ τ → o.view τ t n = some r → p r = true → Q (.ok true) (o.put t n none) τ) :
    D.wp i (deleteIf t n p : Prog (Stmt Row K Fx) ε _) Q o σ :=
  wp_onRow (fun _ => rfl) hmiss (fun _ _ _ h => by simp at h) hhit

/-- one snapshot of all tables -/
theorem wp_query {β : Type} {f : ((t : T) → List (ℕ × Row t)) → β} {Q : Except ε β → Own Row K → Snap Row X → Prop}
    (h : ∀ τ, D.Later i o σ τ → ∀ l : (t : T) → List (ℕ × Row t), (∀ t n r, (n, r) ∈ l t ↔ o.view τ t n = some r) →
      (∀ t, (l t).Pairwise fun a b => a.1 < b.1) → Q (.ok (f l)) o τ) :
    D.wp i (query f : Prog (Stmt Row K Fx) ε _) Q o σ := by
  refine wp_bind (wp_stmt fun d ho hl hi _ b e he => ?_)
  obtain ⟨rfl, rfl⟩ : (fun t => (d.tab t).rows i) = b ∧ d = e := by
    simpa [Machine.exec, Cmd.exec] using he
  refine ⟨good_refl hi, wp_pure ?_⟩
  subst ho
  exact h d.snap hl _ (fun t n r => Table.mem_rows) fun t => (d.tab t).rows_pairwise i

/-- the row of a number, in the answer of a SELECT -/
theorem find_number {R : Type} {l : List (ℕ × R)} {v : ℕ → Option R} (h : ∀ n r, (n, r) ∈ l ↔ v n = some r) (m : ℕ) :
    l.find? (fun q => decide (q.1 = m)) = (v m).map fun r => (m, r) := by
  rcases hf : l.find? (fun q => decide (q.1 = m)) with _ | ⟨n, r⟩
  · rcases hv : v m with _ | r
    · rw [hf, Option.map_none]
    · have hnone := List.find?_eq_none.1 hf (m, r) ((h m r).2 hv)
      simp at hnone
  · have hn : n = m := by simpa using List.find?_some hf
    subst hn
    rw [hf, (h n r).1 (List.mem_of_find?_eq_some hf), Option.map_some]

/-- the new row's number has never been used -/
theorem wp_insert {t : T} {r : Row t} {Q : Except ε ℕ → Own Row K → Snap Row X → Prop}
    (h : ∀ τ, D.Later i o σ τ → Q (.ok (τ.next t)) (o.put t (τ.next t) (some r)) (τ.bump t (τ.next t))) :
    D.wp i (insert t r : Prog (Stmt Row K Fx) ε _) Q o σ := by
  refine wp_stmt fun d ho hl hi _ b e he => ?_
  obtain ⟨rfl, rfl⟩ : (d.tab t).next = b ∧ d.put i t (d.tab t).next (some r) = e := by
    simpa [Machine.exec, Cmd.exec] using he
  subst ho
  have hf : d.cell t (d.tab t).next = {} := d.fresh t _ (Nat.le_refl _)
  refine ⟨good_put hi _ fun j _ => by simp [hf], ?_⟩
  rw [Db.own_put_self, Db.snap_put]
  exact h _ hl

theorem wp_insertUnique {t : T} {k : K} {clash : Row t → Bool} {r : Row t}
    {Q : Except ε (Option ℕ) → Own Row K → Snap Row X → Prop}
    (hmiss : ∀ τ m r', D.Later i o σ τ → o.view τ t m = some r' → clash r' = true → Q (.ok none) o τ)
    (hhit : ∀ τ, D.Later i o σ τ → (∀ m r', o.view τ t m = some r' → clash r' = false) →
      Q (.ok (some (τ.next t))) ((o.put t (τ.next t) (some r)).take k) (τ.bump t (τ.next t))) :
    D.wp i (insertUnique t k clash r : Prog (Stmt Row K Fx) ε _) Q o σ := by
  refine wp_stmt fun d ho hl hi _ b e he => ?_
  change Cmd.exec i (.insertUnique t k clash r) d = some (b, e) at he
  subst ho
  simp only [Cmd.exec] at he
  split at he
  · next hc =>
    simp only [Option.some.injEq, Prod.mk.injEq] at he
    obtain ⟨rfl, rfl⟩ := he
    obtain ⟨c, hm, hcl⟩ := List.any_eq_true.1 hc
    obtain ⟨m, -, rfl⟩ := List.mem_map.1 hm
    obtain ⟨r', hv, hr'⟩ := Cell.view_of_conflict hcl
    exact ⟨good_refl hi, hmiss _ m r' hl hv hr'⟩
  · next hc =>
    split at he
    · simp at he
    · next hu =>
      simp only [Option.some.injEq, Prod.mk.injEq] at he
      obtain ⟨rfl, rfl⟩ := he
      simp only [Bool.or_eq_true, not_or, Bool.not_eq_true] at hu hc
      have hf : d.cell t (d.tab t).next = {} := d.fresh t _ (Nat.le_refl _)
      refine ⟨good_takeKey (good_put hi _ fun j _ => by simp [hf]) hu.2, ?_⟩
      rw [Db.own_takeKey_self, Db.own_put_self]
      change Q _ _ (d.put i t _ _).snap
      rw [Db.snap_put]
      refine hhit _ hl fun m r' hv => ?_
      by_cases hm : m < (d.tab t).next
      · have hmem : d.cell t m ∈ (List.range (d.tab t).next).map (d.cell t) :=
          List.mem_map_of_mem (List.mem_range.2 hm)
        exact Cell.clash_of_view (List.any_eq_false.1 hc _ hmem) (List.any_eq_false.1 hu.1 _ hmem) hv
      · rw [← Db.view_own, d.fresh t m (by simpa [Db.snap] using hm)] at hv
        simp at hv

/-- who takes a free key may assume what it protects -/
theorem wp_lockKey {k : K} {Q : Except ε Unit → Own Row K → Snap Row X → Prop}
    (h : ∀ τ, D.Later i o σ τ → o.key k ∨ D.lock k none τ → Q (.ok ()) (o.take k) τ) :
    D.wp i (lockKey k : Prog (Stmt Row K Fx) ε _) Q o σ := by
  refine wp_stmt fun d ho hl hi _ b e he => ?_
  change Cmd.exec i (.lockKey k) d = some (b, e) at he
  simp only [Cmd.exec] at he
  split at he
  · simp at he
  · next hb =>
    simp only [Option.some.injEq, Prod.mk.injEq] at he
    obtain ⟨-, rfl⟩ := he
    refine ⟨good_takeKey (good_refl hi) (by simpa using hb), ?_⟩
    rw [Db.own_takeKey_self, ho]
    refine h _ hl ?_
    rcases hk : d.key k with _ | j
    · exact Or.inr (hk ▸ hi.2 k)
    · have hji : j = i := by simpa [Db.keyBusy, hk] using hb
      left
      rw [← ho]
      exact hk.trans (by rw [hji])

/-- a commit releases the keys of the session, and owes what they protect -/
theorem wp_commitLock {Q : Except ε Unit → Own Row K → Snap Row X → Prop}
    (h : ∀ τ, D.Later i o σ τ → D.okCommit i o τ → D.Good i o τ (τ.merge o) ∧
      (∀ k v, (v = some i ↔ o.key k) → D.lock k v τ → D.lock k (if v = some i then none else v) (τ.merge o)) ∧
      Q (.ok ()) {} (τ.merge o)) :
    D.wp i (commit : Prog (Stmt Row K Fx) ε _) Q o σ := by
  refine wp_stmt fun d ho hl hi hok b e he => ?_
  obtain rfl : d.finish i true = e := by simpa [Machine.exec, Cmd.exec] using he
  subst ho
  obtain ⟨hg, hlock, hQ⟩ := h _ hl (hok rfl)
  rw [Db.own_finish, if_pos rfl, Db.snap_finish_true]
  refine ⟨⟨?_, ?_, fun j hj => ⟨?_, fun t n hn => ?_, ?_⟩⟩, hQ⟩
  · change D.inv (d.finish i true).snap ∧ ∀ k, D.lock k ((d.finish i true).key k) (d.finish i true).snap
    rw [Db.snap_finish_true]
    exact ⟨hg.inv, fun k => hlock k _ Iff.rfl (hi.2 k)⟩
  · change D.act i _ (d.finish i true).snap
    rw [Db.snap_finish_true]; exact hg.act
  · rw [Db.own_finish, if_neg hj]
  · rw [Db.snap_finish_true, Snap.merge_com, (d.own_disjoint hj).row t n hn]
    rfl
  · rw [Db.snap_finish_true]
    exact hg.rely j hj _ (d.own_disjoint hj)

theorem wp_rollbackLock {Q : Except ε Unit → Own Row K → Snap Row X → Prop}
    (h : ∀ τ, D.Later i o σ τ → (∀ k, o.key k → D.lock k (some i) τ → D.lock k none τ) ∧ Q (.ok ()) {} τ) :
    D.wp i (rollback : Prog (Stmt Row K Fx) ε _) Q o σ := by
  refine wp_stmt fun d ho hl hi _ b e he => ?_
  obtain rfl : d.finish i false = e := by simpa [Machine.exec, Cmd.exec] using he
  subst ho
  obtain ⟨hlock, hQ⟩ := h _ hl
  refine ⟨good_rollback hi fun k hk => hlock k hk (hk ▸ hi.2 k), ?_⟩
  rw [Db.own_finish, if_pos rfl, Db.snap_finish_false]
  exact hQ

theorem wp_performLock {β : Type} {x : Fx β} {Q : Except ε β → Own Row K → Snap Row X → Prop}
    (h : ∀ τ, D.Later i o σ τ → D.ok i x o τ →
      D.Good i o τ { τ with ext := (Effects.exec i x τ.ext).2 } ∧
        (∀ k v, (v = some i ↔ o.key k) → D.lock k v τ → D.lock k v { τ with ext := (Effects.exec i x τ.ext).2 }) ∧
        Q (.ok (Effects.exec i x τ.ext).1) o { τ with ext := (Effects.exec i x τ.ext).2 }) :
    D.wp i (perform x : Prog (Stmt Row K Fx) ε _) Q o σ := by
  refine wp_stmt fun d ho hl hi hok b e he => ?_
  obtain ⟨rfl, rfl⟩ : (Effects.exec i x d.ext).1 = b ∧ { d with ext := (Effects.exec i x d.ext).2 } = e := by
    simpa [Machine.exec] using he
  subst ho
  obtain ⟨hg, hlock, hQ⟩ := h _ hl hok
  exact ⟨⟨⟨hg.inv, fun k => hlock k _ Iff.rfl (hi.2 k)⟩, hg.act,
    fun j hj => ⟨rfl, fun _ _ _ => rfl, hg.rely j hj _ (d.own_disjoint hj)⟩⟩, hQ⟩

/-! ## Keys that protect nothing -/

/-- the discipline asks nothing of a session that releases a key -/
class Lockless (D : Discipline Row K Fx X) : Prop where
  lock : ∀ k v σ, D.lock k v σ

theorem wp_commit [Lockless D] {Q : Except ε Unit → Own Row K → Snap Row X → Prop}
    (h : ∀ τ, D.Later i o σ τ → D.Good i o τ (τ.merge o) ∧ Q (.ok ()) {} (τ.merge o)) :
    D.wp i (commit : Prog (Stmt Row K Fx) ε _) Q o σ :=
  wp_commitLock fun τ hl _ => ⟨(h τ hl).1, fun _ _ _ _ => Lockless.lock _ _ _, (h τ hl).2⟩

theorem wp_rollback [Lockless D] {Q : Except ε Unit → Own Row K → Snap Row X → Prop}
    (h : ∀ τ, D.Later i o σ τ → Q (.ok ()) {} τ) : D.wp i (rollback : Prog (Stmt Row K Fx) ε _) Q o σ :=
  wp_rollbackLock fun τ hl => ⟨fun _ _ _ => Lockless.lock _ _ _, h τ hl⟩

theorem wp_perform [Lockless D] {β : Type} {x : Fx β} {Q : Except ε β → Own Row K → Snap Row X → Prop}
    (h : ∀ τ, D.Later i o σ τ → D.ok i x o τ →
      D.Good i o τ { τ with ext := (Effects.exec i x τ.ext).2 } ∧
        Q (.ok (Effects.exec i x τ.ext).1) o { τ with ext := (Effects.exec i x τ.ext).2 }) :
    D.wp i (perform x : Prog (Stmt Row K Fx) ε _) Q o σ :=
  wp_performLock fun τ hl hok => ⟨(h τ hl hok).1, fun _ _ _ _ => Lockless.lock _ _ _, (h τ hl hok).2⟩

/-- a transaction keeps the discipline if what it has written when it ends may be committed -/
theorem wp_transactionEnds [Lockless D] {p : Prog (Stmt Row K Fx) ε α} {P : α → Own Row K → Snap Row X → Prop}
    {Q : Except ε α → Own Row K → Snap Row X → Prop} (h : D.wp i p (Returns P) o σ)
    (hcommit : ∀ a o' τ, P a o' τ → ∀ υ, D.Later i o' τ υ → D.okCommit i o' υ →
      D.Good i o' υ (υ.merge o') ∧ Q (.ok a) {} (υ.merge o'))
    (herror : ∀ x τ, Q (.error x) {} τ) : D.wp i (transaction p) Q o σ := by
  unfold transaction
  refine wp_andThen (wp_mono h ?_)
  intro r o' τ hr
  cases r with
  | ok a =>
    refine wp_bind (wp_commitLock ?_)
    intro υ hl hok
    obtain ⟨hg, hq⟩ := hcommit a o' τ hr υ hl hok
    exact ⟨hg, fun _ _ _ _ => Lockless.lock _ _ _, wp_pure hq⟩
  | error e => exact wp_bind (wp_rollback fun υ _ => wp_raise e (herror e υ))

/-- the same without what holds at the end; the transaction leaves nothing owned -/
theorem wp_transaction [Lockless D] {p : Prog (Stmt Row K Fx) ε α} {P : α → Own Row K → Snap Row X → Prop}
    (h : D.wp i p (Returns P) o σ)
    (hcommit : ∀ a o' τ, P a o' τ → ∀ υ, D.Later i o' τ υ → D.okCommit i o' υ → D.Good i o' υ (υ.merge o')) :
    D.wp i (transaction p) (fun _ o _ => o = {}) o σ :=
  wp_transactionEnds h (fun a o' τ hP υ hl hok => ⟨hcommit a o' τ hP υ hl hok, rfl⟩) fun _ _ => rfl

/-! ## Programs of which nothing is known -/

/-- a statement on the tables that does not end the transaction keeps every discipline -/
theorem exec_good {β : Type} {c : Cmd Row K β} {d e : Db Row K X} {b : β} (h : D.protocol.inv d)
    (hc : c.isCommit = false) (hr : c.isRollback = false) (he : c.exec i d = some (b, e)) : D.protocol.Good i d e := by
  have honRow : ∀ {γ : Type} {t : T} {n : ℕ} {p : Row t → Bool} {new : Row t → Option (Row t)} {hit : Row t → γ}
      {miss : γ} {busy : Option γ} {x : γ}, Cmd.onRow i t n p new hit miss busy d = some (x, e) →
      D.protocol.Good i d e := by
    intro γ t n p new hit miss busy x hx
    simp only [Cmd.onRow] at hx
    split at hx
    · simp only [Option.some.injEq, Prod.mk.injEq] at hx
      exact hx.2 ▸ good_refl h
    · split at hx
      · split at hx
        · obtain ⟨y, -, hy⟩ := Option.map_eq_some_iff.1 hx
          simp only [Prod.mk.injEq] at hy
          exact hy.2 ▸ good_refl h
        · next hb =>
          simp only [Option.some.injEq, Prod.mk.injEq] at hx
          exact hx.2 ▸ good_put h _ fun j hj => Cell.mine_of_not_busy (by simpa using hb) hj
      · simp only [Option.some.injEq, Prod.mk.injEq] at hx
        exact hx.2 ▸ good_refl h
  have hfresh : ∀ t, d.cell t (d.tab t).next = {} := fun t => d.fresh t _ (Nat.le_refl _)
  cases c with
  | select t p =>
    simp only [Cmd.exec, Option.some.injEq, Prod.mk.injEq] at he
    exact he.2 ▸ good_refl h
  | lockRow => exact honRow he
  | tryLockRow => exact honRow he
  | updateRow => exact honRow he
  | deleteRow => exact honRow he
  | deleteIf => exact honRow he
  | insert t r =>
    simp only [Cmd.exec, Option.some.injEq, Prod.mk.injEq] at he
    exact he.2 ▸ good_put h _ fun j _ => by simp [hfresh]
  | insertUnique t k clash r =>
    simp only [Cmd.exec] at he
    split at he
    · simp only [Option.some.injEq, Prod.mk.injEq] at he
      exact he.2 ▸ good_refl h
    · split at he
      · simp at he
      · next hu =>
        simp only [Option.some.injEq, Prod.mk.injEq] at he
        simp only [Bool.or_eq_true, not_or, Bool.not_eq_true] at hu
        exact he.2 ▸ good_takeKey (good_put h _ fun j _ => by simp [hfresh]) hu.2
  | snapshot =>
    simp only [Cmd.exec, Option.some.injEq, Prod.mk.injEq] at he
    exact he.2 ▸ good_refl h
  | lockKey k =>
    simp only [Cmd.exec] at he
    split at he
    · simp at he
    · next hb =>
      simp only [Option.some.injEq, Prod.mk.injEq] at he
      exact he.2 ▸ good_takeKey (good_refl h) (by simpa using hb)
  | commit => simp [Cmd.isCommit] at hc
  | rollback => simp [Cmd.isRollback] at hr

/-- a store on which nothing but statements on the tables is run -/
inductive NoFx (X : Type) : Type → Type

instance : Effects (NoFx X) X := ⟨fun _ x _ => nomatch x⟩

/-- the committed rows and the rest of the state are as in `σ₀` -/
def frozen (σ₀ : Snap Row X) : Discipline Row K (NoFx X) X where
  inv σ := σ.com = σ₀.com ∧ σ.ext = σ₀.ext
  rely _ _ _ _ := True
  act _ _ _ := True
  ok _ x _ _ := nomatch x
  rely_refl _ _ _ := trivial
  rely_trans _ _ _ _ _ _ _ := trivial
  act_refl _ _ _ := trivial
  grow_inv _ _ _ h := h
  grow_act _ _ _ _ _ := trivial
  grow_rely _ _ _ _ _ _ := trivial

/-- what a statement on the tables leaves alone unless it ends the transaction: the committed rows, the rest of the
state, and what the other sessions hold -/
theorem exec_keeps {β : Type} {c : Cmd Row K β} {d e : Db Row K X} {b : β} (hc : c.isCommit = false)
    (hr : c.isRollback = false) (he : c.exec i d = some (b, e)) :
    (∀ t n, e.snap.com t n = d.snap.com t n) ∧ e.ext = d.ext ∧ ∀ j, j ≠ i → e.own j = d.own j := by
  have hg := exec_good (D := (frozen d.snap : Discipline Row K (NoFx X) X)) ⟨⟨rfl, rfl⟩, fun _ => trivial⟩ hc hr he
  exact ⟨fun t n => congrFun (congrFun hg.inv.1.1 t) n, hg.inv.1.2, fun j hj => (hg.rely j hj).1⟩

/-! ## Statements over many rows -/

/-- whichever candidate is picked, it meets the condition when it is locked -/
theorem wp_lockFirst {t : T} {p : Row t → Bool} {ns : List ℕ}
    {Q : Except ε (Option (ℕ × Row t)) → Own Row K → Snap Row X → Prop} (hi : D.inv σ) (hf : σ.Fresh o)
    (hmiss : ∀ τ, D.Later i o σ τ → Q (.ok none) o τ)
    (hhit : ∀ τ n r, D.Later i o σ τ → o.view τ t n = some r → p r = true →
      Q (.ok (some (n, r))) (o.put t n (some r)) τ) :
    D.wp i (lockFirst t p ns : Prog (Stmt Row K Fx) ε _) Q o σ := by
  induction ns generalizing σ with
  | nil => exact wp_pure (hmiss σ (Later.refl hi hf))
  | cons n ns ih =>
    refine wp_bind (wp_tryLockRow (fun τ hl => ?_) fun τ r hl hv hp => ?_)
    · exact ih hl.inv hl.fresh (fun υ h => hmiss υ (hl.trans h)) fun υ m r h => hhit υ m r (hl.trans h)
    · exact wp_pure (hhit τ n r hl hv hp)

/-- an update of many rows, one after the other: what each row that is hit keeps; by induction on the list -/
theorem wp_updateAll {t : T} {p : Row t → Bool} {f : Row t → Row t} {I : ℕ → Own Row K → Snap Row X → Prop} {ns : List ℕ}
    (hlater : ∀ k o σ τ, D.Later i o σ τ → I k o σ → I k o τ)
    (hhit : ∀ k o τ n r, D.Later i o τ τ → I k o τ → o.view τ t n = some r → p r = true →
      I (k + 1) (o.put t n (some (f r))) τ) {k : ℕ} (h : I k o σ) :
    D.wp i (updateAll t p f ns : Prog (Stmt Row K Fx) ε ℕ) (Returns fun a o τ => I (k + a) o τ) o σ := by
  induction ns generalizing o σ k with
  | nil => exact wp_return h
  | cons n ns ih =>
    refine wp_bind (wp_updateRow (fun τ hl _ => ?_) fun τ r hl hview hp => ?_)
    · exact wp_seq (ih (hlater k o σ τ hl h)) fun a o' υ h' => wp_return h'
    · have hput := hhit k o τ n r (Later.refl hl.inv hl.fresh) (hlater k o σ τ hl h) hview hp
      refine wp_seq (ih hput) fun a o' υ h' => wp_return ?_
      rwa [Nat.add_right_comm] at h'

/-! ## Soundness -/

/-- all sessions start from the tables `d` and own nothing -/
theorem safe_start {d : Db Row K X} {prog : ℕ → Prog (Stmt Row K Fx) ε α} (h : D.inv d.snap) (hk : ∀ k, D.lock k (d.key k) d.snap)
    (ho : ∀ i, d.own i = {}) (hp : ∀ i, D.wp i (prog i) (fun _ _ _ => True) {} d.snap) :
    D.protocol.Safe (start d prog) :=
  D.protocol.safe_start ⟨h, hk⟩ fun i => hp i d (ho i) rfl

/-- a discipline without conditions allows every schedule -/
theorem legal_of_ok [Lockless D] (hok : ∀ {β : Type} (i : ℕ) (x : Fx β) (o : Own Row K) (σ : Snap Row X), D.ok i x o σ)
    (hc : ∀ i o σ, D.okCommit i o σ) (w : World (Stmt Row K Fx) (Db Row K X) ε α) (ms : List Move) :
    D.protocol.Legal w ms := by
  refine D.protocol.legal_of_ok (fun i c d => ?_) (fun _ _ _ _ => Lockless.lock _ _ _) w ms
  cases c with
  | sql c => exact fun _ => hc _ _ _
  | fx x => exact hok _ _ _ _

/-- the session commits with its next statement -/
def committing (w : World (Stmt Row K Fx) (Db Row K X) ε α) (i : ℕ) : Bool :=
  match w.prog i with
  | some (.op (.sql c) _) => c.isCommit
  | _ => false

/-- where the statements outside the tables are free, the conditions on a run are about its commits -/
theorem stepOk_of_commits [Lockless D] (hx : ∀ {β : Type} (i : ℕ) (x : Fx β) (o : Own Row K) (σ : Snap Row X), D.ok i x o σ)
    {w : World (Stmt Row K Fx) (Db Row K X) ε α} {m : Move}
    (h : ∀ i, m = .run i → committing w i = true → D.okCommit i (w.st.own i) w.st.snap) : D.protocol.stepOk w m := by
  refine D.protocol.stepOk_of (fun _ _ _ _ => Lockless.lock _ _ _) ?_
  rintro β i (c | x) k rfl hp
  · intro hc
    exact h i rfl (by simp only [committing, hp, hc])
  · exact hx _ _ _ _

/-- where nothing but statements on the tables is run, too -/
theorem stepOk_of_committing {D : Discipline Row K (NoFx X) X} [Lockless D]
    {w : World (Stmt Row K (NoFx X)) (Db Row K X) ε α} {m : Move}
    (h : ∀ i, m = .run i → committing w i = true → D.okCommit i (w.st.own i) w.st.snap) : D.protocol.stepOk w m :=
  stepOk_of_commits (fun _ x _ _ => nomatch x) h

/-! ## Transactions that have ended -/

/-- the session has come to its end, or its connection is lost -/
def ended (w : World (Stmt Row K Fx) (Db Row K X) ε α) (i : ℕ) : Bool :=
  match w.prog i with
  | some (.op _ _) => false
  | _ => true

/-- a session whose connection is lost owns nothing -/
theorem own_of_lost {w : World (Stmt Row K Fx) (Db Row K X) ε α} {ms : List Move} (h : D.protocol.Safe w)
    (hl : D.protocol.Legal w ms) (hw : w.prog i = none → w.st.own i = {}) :
    (run w ms).prog i = none → (run w ms).st.own i = {} := by
  induction ms generalizing w with
  | nil => exact hw
  | cons m ms ih =>
    refine ih (D.protocol.step_safe h hl.1) hl.2 ?_
    intro hnone
    by_cases hi : i = Protocol.who m
    · cases m with
      | crash j =>
        have hj : i = j := hi
        change (w.st.finish j false).own i = {}
        rw [Db.own_finish, if_pos hj]
      | run j =>
        have hj : i = j := hi
        subst hj
        rcases hp : w.prog i with _ | (r | ⟨c, k⟩)
        · have hstay : step w (.run i) = w := by simp [step, hp]
          rw [hstay]
          exact hw hp
        · simp [step, hp] at hnone
        · rcases he : Machine.exec i c w.st with _ | ⟨b, t⟩
          · simp [step, hp, he] at hnone
          · simp [step, hp, he] at hnone
    · rcases D.protocol.step_cases h hl.1 with hstay | ⟨hg, ho, -⟩
      · rw [hstay] at hnone ⊢
        exact hw hnone
      · rw [(hg.rely i hi).1]
        exact hw ((ho i hi).symm.trans hnone)

/-- **Quiet.** When every session that has begun has ended, and a session that ends owns nothing, nobody owns anything. -/
theorem own_of_ended {w : World (Stmt Row K Fx) (Db Row K X) ε α} {ms : List Move} (h : D.protocol.Safe w)
    (hl : D.protocol.Legal w ms) (hown : ∀ i, w.st.own i = {})
    (hp : ∀ i, ∃ p, w.prog i = some p ∧ D.wp i p (fun _ o _ => o = {}) (w.st.own i) w.st.snap)
    (hend : ∀ m ∈ ms, ended (run w ms) (Protocol.who m) = true) (i : ℕ) : (run w ms).st.own i = {} := by
  by_cases hm : ∃ m ∈ ms, Protocol.who m = i
  · obtain ⟨m, hmem, rfl⟩ := hm
    obtain ⟨p, hprog, hwp⟩ := hp (Protocol.who m)
    have he := hend m hmem
    rcases hr : (run w ms).prog (Protocol.who m) with _ | (r | ⟨c, k⟩)
    · exact own_of_lost h hl (fun hnone => by simp [hprog] at hnone) hr
    · refine D.protocol.run_result _ (Q := fun _ d => d.own (Protocol.who m) = {}) ?_ h hl hprog (hwp _ rfl rfl)
        (World.answer_eq_some.2 hr)
      intro _ d e hd hrely
      exact hrely.1.trans hd
    · simp [ended, hr] at he
  · obtain ⟨-, hrely⟩ := D.protocol.run_others (i := i) h hl fun m hmem heq => hm ⟨m, hmem, heq⟩
    exact hrely.1.trans (hown i)

end Discipline

end LkmService.Sql
