/-
What the aggregation of notifications promises, in every run of requests that create notifications or mark them as read.

Every committed call is counted once. A notification that has been read stays as it is, and what comes after it comes into another.
A notification shows every field of the last event that has come into it; the fields which that event does not have stay from
those before. Unread notifications of a key lie more than a window apart if all its calls use that window and the clock does not
go back; with two windows they do not (`two_windows`).

- `Law`, `nothing_lost`: the promise, from any state in order.
-/
import LkmService.Notifications.Window

namespace LkmService.Notifications

open Session Sql Sql.Discipline Tbl

variable {V : Type} {digest : Key → ℕ} {d : Store V} {requests : ℕ → Request V}

/-! ## The law -/

/-- no reading of the clock is before the last one -/
def clockForward (w : World (Stmt (Row V) ℕ Clock) (Store V) Exn Unit) (m : Move) : Bool :=
  match m with
  | .crash _ => true
  | .run i =>
    match w.prog i with
    | some (.op (.fx (.read t)) _) => decide (w.st.ext ≤ t)
    | _ => true

/-- two unread notifications of the key lie more than the window apart -/
def Spaced (key : Key) (window : ℤ) (σ : State V) : Prop :=
  ∀ n m a b, n ≠ m → σ.com notifications n = some a → σ.com notifications m = some b → Window.Unread key a → Window.Unread key b →
    a.createdAt + window < b.createdAt ∨ b.createdAt + window < a.createdAt

/-- of a run in two parts -/
structure Law (digest : Key → ℕ) (d : Store V) (requests : ℕ → Request V) (pre post : List Move) : Prop where
  /-- the notifications of a key stand for its committed calls -/
  counted : ∀ key, total (run (init digest d requests) (pre ++ post)).st key =
    calls (run (init digest d requests) (pre ++ post)).st key
  /-- what has been read stays -/
  stays : ∀ n r, (after digest d requests pre).com notifications n = some r → r.readAt.isSome = true →
    (after digest d requests (pre ++ post)).com notifications n = some r
  /-- and what is committed later has come into another -/
  later : ∀ n r m e, (after digest d requests pre).com notifications n = some r → r.readAt.isSome = true →
    (after digest d requests (pre ++ post)).com events m = some e → (after digest d requests pre).com events m = none → e.into ≠ n
  /-- the last event is shown -/
  shown : ∀ n r, (after digest d requests (pre ++ post)).com notifications n = some r →
    ∃ m e, (after digest d requests (pre ++ post)).com events m = some e ∧ e.into = n ∧
      (∀ m' e', (after digest d requests (pre ++ post)).com events m' = some e' → e'.into = n → m' ≤ m) ∧ Shows r e
  /-- one window for all calls of a key, and a clock that does not go back -/
  spaced : ∀ key window, (∀ i, ∀ c ∈ Window.Request.calls (requests i), Window.Uniform key window c) →
    Window.Apart key window d.ext (d.snap.com notifications) →
    Along (fun w m => clockForward w m = true) (init digest d requests) (pre ++ post) →
    Spaced key window (after digest d requests (pre ++ post))

/-! ## Runs -/

theorem stepOk_of_clockForward {key : Key} {window : ℤ} (w : World (Stmt (Row V) ℕ Clock) (Store V) Exn Unit) (m : Move)
    (h : clockForward w m = true) : (Window.discipline digest key window).protocol.stepOk w m := by
  refine Protocol.stepOk_of _ (fun _ _ _ _ => Lockless.lock _ _ _) ?_
  rintro β i (c | ⟨⟨t⟩⟩) k rfl hp
  · exact fun _ => trivial
  · simp only [clockForward, hp, decide_eq_true_eq] at h
    exact h

theorem spaced_after (h : Starts d) {key : Key} {window : ℤ}
    (huniform : ∀ i, ∀ c ∈ Window.Request.calls (requests i), Window.Uniform key window c)
    (hapart : Window.Apart key window d.ext (d.snap.com notifications)) {ms : List Move}
    (hforward : Along (fun w m => clockForward w m = true) (init digest d requests) ms) :
    Spaced key window (after digest d requests ms) := by
  have hsafe : (Window.discipline digest key window).protocol.Safe (init digest d requests) :=
    safe_start hapart (fun _ => trivial) h.own fun i => Window.prog_spec (requests i) (huniform i) hapart
  have hinv := (Window.discipline digest key window).protocol.run_inv hsafe (hforward.mono stepOk_of_clockForward)
  exact fun n m a b hne ha hb hua hub => hinv.1.apart n m a b hne ha hb hua hub

/-- **Nothing is lost.** -/
theorem nothing_lost (digest : Key → ℕ) (d : Store V) (requests : ℕ → Request V) (pre post : List Move) (h : Starts d) :
    Law digest d requests pre post where
  counted key := total_eq_calls (inv_after h (pre ++ post)) key
  stays n r hr hread := (stays_after h pre post).read n r hr hread
  later _ _ _ _ hr hread he hnew := into_unread h pre post hr hread he hnew
  shown := (inv_after h (pre ++ post)).latest
  spaced _ _ huniform hapart hforward := spaced_after h huniform hapart hforward

/-! ## Runs on an empty table -/

def empty : Store ℕ := { ext := 0 }

theorem starts_empty : Starts empty :=
  ⟨fun i => Db.own_empty 0, ⟨fun n r hr => by simp [empty] at hr, fun m e he => by simp [empty] at he,
    fun n r hr => by simp [empty] at hr⟩⟩

def demoKey : Key := { userId := 1, type := "content_commented", actorId := some 2, targetId := some 3 }

/-- a call at time `t` whose payload is one field -/
def comment (window t : ℤ) (field : String) (value : ℕ) : Call ℕ where
  key := demoKey
  payload := some [(field, value)]
  keyed := by simp [OrderedDict.Keyed]
  window := window
  now := t
  later := t

/-- two calls of a short window, one of a long window, and then all are read -/
def demoRequests : ℕ → Request ℕ
  | 0 => .create [comment 10 0 "comment_id" 1] false
  | 1 => .create [comment 10 20 "comment_id" 2] false
  | 2 => .create [comment 100 30 "title" 3] false
  | 3 => .markRead 1 [] true 40
  | _ => .create [comment 100 50 "title" 4] false

/-- the first two calls -/
def demoBefore : List Move := moves 0 7 ++ moves 1 7

def demoAfter : List Move := moves 2 7

/-- a later call finds one unread notification in its window at most -/
def OneInWindow (σ : State ℕ) (c : Call ℕ) : Prop :=
  ∀ n m a b, σ.com notifications n = some a → σ.com notifications m = some b → candidate c.key (c.now - c.window) a = true →
    candidate c.key (c.now - c.window) b = true → n = m

/-- a notification shows the payload of the last event that has come into it, and nothing else -/
def ShowsLast (σ : State ℕ) : Prop :=
  ∀ n r m e, σ.com notifications n = some r → σ.com events m = some e → e.into = n →
    (∀ m' e', σ.com events m' = some e' → e'.into = n → m' ≤ m) → r.payload = e.payload

/-- the call of the long window finds the notifications of both calls of the short one, and leaves a field of the second -/
theorem two_windows : Starts empty ∧
    Along (fun w m => clockForward w m = true) (init Key.userId empty demoRequests) (demoBefore ++ demoAfter) ∧
    ¬ OneInWindow (after Key.userId empty demoRequests demoBefore) (comment 100 30 "title" 3) ∧
    ¬ ShowsLast (after Key.userId empty demoRequests (demoBefore ++ demoAfter)) := by
  refine ⟨starts_empty, by decide, fun hone => ?_, fun hlast => ?_⟩
  · have hsame := hone 0 1 { key := demoKey, payload := [("comment_id", 1)], createdAt := 0 }
      { key := demoKey, payload := [("comment_id", 2)], createdAt := 20 } (by decide) (by decide) (by decide) (by decide)
    cases hsame
  · have hnext : (after Key.userId empty demoRequests (demoBefore ++ demoAfter)).next events = 3 := by decide
    have hsame := hlast 1
      { key := demoKey, payload := [("comment_id", 2), ("title", 3)], count := some 2, createdAt := 30 } 2
      { key := demoKey, payload := [("title", 3)], into := 1 } (by decide) (by decide) rfl fun m' e' he' _ => by
        have hlt : m' < (after Key.userId empty demoRequests (demoBefore ++ demoAfter)).next events := Db.lt_of_com _ he'
        rw [hnext] at hlt
        omega
    exact absurd hsame (by decide)

/-- four calls, of which the last comes after the reading -/
theorem nothing_lost_demo :
    (((run (init Key.userId empty demoRequests) ((demoBefore ++ demoAfter ++ moves 3 4) ++ moves 4 7)).st.committed
      notifications).map fun q => (q.2.total, q.2.readAt.isSome)) = [(1, true), (2, true), (1, false)] ∧
    Law Key.userId empty demoRequests (demoBefore ++ demoAfter ++ moves 3 4) (moves 4 7) :=
  ⟨by decide, nothing_lost Key.userId empty demoRequests _ _ starts_empty⟩

end LkmService.Notifications
