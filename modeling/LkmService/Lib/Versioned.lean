/-
Values with a version. A compare-and-set raises the version by one, and if it expects a version it is applied to a value of that
version alone; any other write leaves the version.

- `Made a l b`: the value `b` is what the edits `l` make of `a`, one after the other.
- `Made.version`: the version counts the compare-and-sets.
- `Made.at_most_one`: of those that expect the same version at most one is among the edits.
- `Made.prefix_`: a beginning of the edits has made a value on the way.
-/
import Mathlib.Data.List.Induction
import Mathlib.Data.Nat.Notation

namespace LkmService.Versions

structure Versioned (V : Type) where
  version : ℕ
  value : V
deriving DecidableEq

inductive Kind where
  | compareAndSet (expected : Option ℕ)
  | plain
deriving DecidableEq

/-- who has written what; `D` is what is written over a value -/
structure Edit (D : Type) where
  author : ℕ
  kind : Kind
  delta : D
deriving DecidableEq

variable {V D : Type}

def Edit.raises (e : Edit D) : Bool :=
  match e.kind with
  | .compareAndSet _ => true
  | .plain => false

def Edit.expects (v : ℕ) (e : Edit D) : Bool := decide (e.kind = .compareAndSet (some v))

/-- the version is the one that the edit expects, if it expects one -/
def Edit.meets (e : Edit D) (version : ℕ) : Prop := ∀ v, e.expects v = true → version = v

variable (write : D → V → V)

def Edit.apply (e : Edit D) (b : Versioned V) : Versioned V where
  version := b.version + if e.raises then 1 else 0
  value := write e.delta b.value

/-- `b` is what the edits make of `a`, one after the other -/
inductive Made (a : Versioned V) : List (Edit D) → Versioned V → Prop where
  | nil : Made a [] a
  | snoc {l : List (Edit D)} {b : Versioned V} (h : Made a l b) (e : Edit D) (hmeets : e.meets b.version) :
    Made a (l ++ [e]) (e.apply write b)

variable {write} {a b : Versioned V} {l h t : List (Edit D)} {e : Edit D} {v : ℕ}

theorem Edit.raises_of_expects (he : e.expects v = true) : e.raises = true := by
  have hkind : e.kind = .compareAndSet (some v) := of_decide_eq_true he
  simp only [Edit.raises, hkind]

theorem Made.version (hm : Made write a l b) : b.version = a.version + l.countP Edit.raises := by
  induction hm with
  | nil => rfl
  | snoc _ e _ ih =>
    rw [List.countP_append, List.countP_singleton, Edit.apply, ih, Nat.add_assoc]

/-- the value before the last edit -/
theorem Made.before (hm : Made write a (l ++ [e]) b) : ∃ c, Made write a l c ∧ e.meets c.version ∧ b = e.apply write c := by
  generalize hl : l ++ [e] = l' at hm
  cases hm with
  | nil => simp at hl
  | @snoc l'' c h e' hmeets =>
    obtain ⟨rfl, he⟩ := List.append_inj' hl rfl
    obtain rfl : e = e' := by simpa using he
    exact ⟨c, h, hmeets, rfl⟩

theorem Made.prefix_ (hm : Made write a (h ++ t) b) : ∃ c, Made write a h c := by
  induction t using List.reverseRecOn generalizing b with
  | nil => exact ⟨b, by simpa using hm⟩
  | append_singleton t e ih =>
    rw [← List.append_assoc] at hm
    obtain ⟨c, hc, -⟩ := hm.before
    exact ih hc

/-- an edit that expects a version stands where the compare-and-sets before it have led to that version -/
theorem Made.expected (hm : Made write a (h ++ e :: t) b) (he : e.expects v = true) : v = a.version + h.countP Edit.raises := by
  have hsplit : h ++ e :: t = (h ++ [e]) ++ t := by simp
  rw [hsplit] at hm
  obtain ⟨c, hc⟩ := hm.prefix_
  obtain ⟨c', hc', hmeets, -⟩ := hc.before
  rw [← hmeets v he]
  exact hc'.version

theorem Made.at_most_one (hm : Made write a l b) (v : ℕ) : l.countP (Edit.expects v) ≤ 1 := by
  induction hm with
  | nil => exact Nat.zero_le _
  | @snoc l c h e hmeets ih =>
    rw [List.countP_append, List.countP_singleton]
    by_cases he : e.expects v = true
    · have hzero : l.countP (Edit.expects v) = 0 := by
        rw [List.countP_eq_zero]
        intro e' hmem he'
        obtain ⟨s, t, rfl⟩ := List.append_of_mem hmem
        have hpos := h.expected he'
        have hlast := h.version
        rw [hmeets v he, List.countP_append, List.countP_cons_of_pos (Edit.raises_of_expects he')] at hlast
        omega
      simp [hzero, he]
    · rw [if_neg he]
      exact ih

end LkmService.Versions
