/-
Concurrent sessions over a shared state. Every session runs a program; a program is a tree of statements over an
arbitrary statement type `F`, and one statement is the unit of interleaving. A scheduler picks, move by move, the
session that runs its next statement, or a session whose connection is lost.

- `Prog F ε α`: a program that ends with a result of type `α` or raises an exception of type `ε`. It is a monad, so a
  source function is written in `do` notation.
- `Machine F S`: what a statement of session `i` does to the shared state. `none` means that it has to wait: the
  session stays where it is and tries again when it is scheduled again.
- `step`, `run`: one move, and a whole schedule. Both are total and computable.
- `Along ok w ms`: every move of the schedule meets the condition `ok` in the world it is made in.
-/
import Mathlib.Data.Nat.Notation
import Mathlib.Logic.Function.Basic

namespace LkmService.Session

/-! ## Programs -/

/-- a session's program: it has ended with `r`, or runs the statement `c` and goes on with its answer -/
inductive Prog (F : Type → Type) (ε α : Type) : Type 1 where
  | done (r : Except ε α)
  | op {β : Type} (c : F β) (k : β → Prog F ε α)

namespace Prog

variable {F : Type → Type} {ε ε' α γ : Type}

/-- go on with `f` after the program has ended, normally or with an exception -/
def andThen : Prog F ε α → (Except ε α → Prog F ε' γ) → Prog F ε' γ
  | .done r, f => f r
  | .op c k, f => .op c fun b => (k b).andThen f

/-- raise an exception -/
def raise (e : ε) : Prog F ε α := .done (.error e)

/-- run one statement and return its answer -/
def call {β : Type} (c : F β) : Prog F ε β := .op c fun b => .done (.ok b)

instance : Monad (Prog F ε) where
  pure a := .done (.ok a)
  bind p f := p.andThen fun
    | .ok a => f a
    | .error e => .done (.error e)

@[simp] theorem pure_eq (a : α) : (pure a : Prog F ε α) = .done (.ok a) := rfl

theorem bind_eq {α γ : Type} (p : Prog F ε α) (f : α → Prog F ε γ) :
    p >>= f = p.andThen fun
      | .ok a => f a
      | .error e => .done (.error e) := rfl

theorem bind_assoc {α β γ : Type} (p : Prog F ε α) (f : α → Prog F ε β) (g : β → Prog F ε γ) :
    (p >>= f) >>= g = p >>= fun a => f a >>= g := by
  induction p with
  | done r =>
    cases r with
    | ok a => rfl
    | error e => rfl
  | op c k ih => exact congrArg (Prog.op c) (funext ih)

end Prog

/-! ## The machine and its runs -/

/-- how the statements of a session act on the shared state; `drop` is what happens to the state when the connection
of the session is lost -/
class Machine (F : Type → Type) (S : outParam Type) where
  exec {β : Type} (i : ℕ) (c : F β) (s : S) : Option (β × S)
  drop (i : ℕ) (s : S) : S

/-- what a statement answers, and the state that it leaves -/
theorem exec_inj {S β : Type} {b b' : β} {s s' : S} (h : some (b, s) = some (b', s')) : b = b' ∧ s = s' :=
  Prod.mk.inj (Option.some.inj h)

/-- one move of the scheduler -/
inductive Move where
  | run (i : ℕ)
  | crash (i : ℕ)
deriving DecidableEq, Repr

/-- the shared state and the rest of every session's program (`none`: its connection is lost) -/
structure World (F : Type → Type) (S ε α : Type) : Type 1 where
  st : S
  prog : ℕ → Option (Prog F ε α)

variable {F : Type → Type} {S ε α : Type} [Machine F S]

def step (w : World F S ε α) : Move → World F S ε α
  | .run i =>
    match w.prog i with
    | some (.op c k) =>
      match Machine.exec i c w.st with
      | none => w
      | some (b, s) => ⟨s, Function.update w.prog i (some (k b))⟩
    | some (.done _) => w
    | none => w
  | .crash i => ⟨Machine.drop F i w.st, Function.update w.prog i none⟩

def run (w : World F S ε α) (ms : List Move) : World F S ε α := ms.foldl step w

/-- all sessions at the start of their programs -/
def start (s : S) (prog : ℕ → Prog F ε α) : World F S ε α := ⟨s, fun i => some (prog i)⟩

@[simp] theorem run_nil (w : World F S ε α) : run w [] = w := rfl

theorem run_cons (w : World F S ε α) (m : Move) (ms : List Move) : run w (m :: ms) = run (step w m) ms := rfl

theorem run_append (w : World F S ε α) (a b : List Move) : run w (a ++ b) = run (run w a) b := by
  simp [run]

theorem run_snoc (w : World F S ε α) (ms : List Move) (m : Move) : run w (ms ++ [m]) = step (run w ms) m := by
  rw [run_append]; rfl

/-- how the program has ended, if it has -/
def Prog.result : Prog F ε α → Option (Except ε α)
  | .done r => some r
  | .op _ _ => none

/-- the answer of a session that has ended -/
def World.answer (w : World F S ε α) (i : ℕ) : Option (Except ε α) := (w.prog i).bind Prog.result

omit [Machine F S] in
theorem World.answer_eq_some {w : World F S ε α} {i : ℕ} {r : Except ε α} :
    w.answer i = some r ↔ w.prog i = some (.done r) := by
  rcases h : w.prog i with _ | (r' | ⟨c, k⟩)
  · simp [World.answer, h]
  · simp [World.answer, h, Prog.result]
  · simp [World.answer, h, Prog.result]

/-- the end of a program that runs while nobody else moves; `none`: it has to wait -/
def Prog.alone (i : ℕ) : Prog F ε α → S → Option (Except ε α × S)
  | .done r, s => some (r, s)
  | .op c k, s =>
    match Machine.exec i c s with
    | some (b, t) => (k b).alone i t
    | none => none

theorem Prog.alone_op {i : ℕ} {β : Type} {c : F β} {k : β → Prog F ε α} {s t : S} {b : β} (h : Machine.exec i c s = some (b, t)) :
    (Prog.op c k).alone i s = (k b).alone i t := by
  simp only [Prog.alone, h]

theorem Prog.alone_andThen {i : ℕ} {ε' γ : Type} (p : Prog F ε α) (f : Except ε α → Prog F ε' γ) (s : S) :
    (p.andThen f).alone i s = (p.alone i s).bind fun x => (f x.1).alone i x.2 := by
  induction p generalizing s with
  | done r => rfl
  | op c k ih =>
    simp only [Prog.andThen, Prog.alone]
    split
    · exact ih _ _
    · rfl

theorem Prog.alone_ok {i : ℕ} {γ : Type} {p : Prog F ε α} {f : α → Prog F ε γ} {s t : S} {a : α}
    (h : p.alone i s = some (.ok a, t)) : (p >>= f).alone i s = (f a).alone i t := by
  rw [Prog.bind_eq, Prog.alone_andThen, h]
  rfl

theorem Prog.alone_error {i : ℕ} {γ : Type} {p : Prog F ε α} {f : α → Prog F ε γ} {s t : S} {e : ε}
    (h : p.alone i s = some (.error e, t)) : (p >>= f).alone i s = some (.error e, t) := by
  rw [Prog.bind_eq, Prog.alone_andThen, h]
  rfl

/-- a number of moves of one session -/
def moves (i k : ℕ) : List Move := List.replicate k (.run i)

/-- a statement that does not have to wait -/
theorem step_op {w : World F S ε α} {i : ℕ} {β : Type} {c : F β} {k : β → Prog F ε α} {b : β} {s : S}
    (hp : w.prog i = some (.op c k)) (he : Machine.exec i c w.st = some (b, s)) :
    step w (.run i) = ⟨s, Function.update w.prog i (some (k b))⟩ := by
  simp only [step, hp, he]

/-- every move of the schedule meets the condition in the world it is made in -/
def Along (ok : World F S ε α → Move → Prop) : World F S ε α → List Move → Prop
  | _, [] => True
  | w, m :: ms => ok w m ∧ Along ok (step w m) ms

instance decidableAlong (ok : World F S ε α → Move → Prop) [∀ w m, Decidable (ok w m)] :
    ∀ (w : World F S ε α) (ms : List Move), Decidable (Along ok w ms)
  | _, [] => isTrue trivial
  | w, m :: ms =>
    have := decidableAlong ok (step w m) ms
    inferInstanceAs (Decidable (ok w m ∧ Along ok (step w m) ms))

theorem along_of_forall {ok : World F S ε α → Move → Prop} (h : ∀ w m, ok w m) (w : World F S ε α) (ms : List Move) :
    Along ok w ms := by
  induction ms generalizing w with
  | nil => trivial
  | cons m ms ih => exact ⟨h w m, ih _⟩

theorem Along.mono {ok ok' : World F S ε α → Move → Prop} (h : ∀ w m, ok w m → ok' w m) {w : World F S ε α}
    {ms : List Move} (ha : Along ok w ms) : Along ok' w ms := by
  induction ms generalizing w with
  | nil => trivial
  | cons m ms ih => exact ⟨h w m ha.1, ih ha.2⟩

theorem along_append {ok : World F S ε α → Move → Prop} {w : World F S ε α} (a b : List Move) :
    Along ok w (a ++ b) ↔ Along ok w a ∧ Along ok (run w a) b := by
  induction a generalizing w with
  | nil => simp [Along]
  | cons m a ih => simp only [List.cons_append, Along, ih, run_cons, and_assoc]

/-- the same, move by move -/
theorem along_iff {ok : World F S ε α → Move → Prop} {w : World F S ε α} {ms : List Move} :
    Along ok w ms ↔ ∀ pre m post, ms = pre ++ m :: post → ok (run w pre) m := by
  refine ⟨fun h pre m post he => ?_, fun h => ?_⟩
  · subst he
    exact ((along_append pre (m :: post)).1 h).2.1
  · induction ms generalizing w with
    | nil => trivial
    | cons m ms ih =>
      refine ⟨h [] m ms rfl, ih fun pre m' post he => ?_⟩
      have := h (m :: pre) m' post (by rw [he]; rfl)
      exact this

/-- who has answered has nothing more to run; only the connection can be lost afterwards -/
theorem answer_step {w : World F S ε α} {i : ℕ} {r : Except ε α} (h : w.answer i = some r) (m : Move) :
    (step w m).answer i = some r ∨ (step w m).prog i = none := by
  have hp := World.answer_eq_some.1 h
  cases m with
  | crash j =>
    by_cases hj : i = j
    · right; simp [step, hj]
    · left
      rw [World.answer_eq_some]
      simpa [step, Function.update_of_ne hj] using hp
  | run j =>
    left
    rw [World.answer_eq_some]
    by_cases hj : i = j
    · subst hj
      simp [step, hp]
    · rcases hq : w.prog j with _ | (r' | ⟨c, k⟩)
      · simpa [step, hq] using hp
      · simpa [step, hq] using hp
      · rcases he : Machine.exec j c w.st with _ | ⟨b, t⟩
        · simpa [step, hq, he] using hp
        · simpa [step, hq, he, Function.update_of_ne hj] using hp

end LkmService.Session
