/-
What `cached_read` leaves under a key.

`_set_if_not_invalidated` compares the invalidation key with what it was before the load. That key lives for a minute, and
whether the load has taken less is asked before `WATCH`: an invalidation early in a load of nearly a minute is forgotten
by the time of the comparison, if there is any delay between the two (`stale_refill`).

- `cached_read_fresh`: while no comparison comes after the end of the guard of an invalidation that it should see, no
  value lies under a key whose loader began before an invalidation that has been completed.
- `one_loader`: in every run, a process is in at most one loader of a key at a time.
-/
import Mathlib.Tactic.SplitIfs
import LkmService.Cache.Model

namespace LkmService.Cache

open Session Session.Protocol

variable {c : Prop} {s s' t : Shared} {i j n : ℕ} {p : Proc} {key k : Key} {r : Read}

/-! ## The invariant -/

/-- no value was read before an invalidation of its key -/
def Fresh (s : Shared) : Prop := ∀ k e, s.value k = some e → e.readAt = s.epoch k

/-- the process is in at most one loader of the key -/
def OneLoader (s : Shared) : Prop := ∀ i j p k, s.loading i = some (p, k) → s.loading j = some (p, k) → i = j

/-- `c`: whether the comparisons are in time -/
structure Inv (c : Prop) (s : Shared) : Prop where
  fresh : c → Fresh s
  token : ∀ k g, s.guard k = some g → g.token = s.epoch k
  /-- a task that runs is the flight of its key -/
  flight : ∀ i p k, s.task i = .running p k → s.flights p k = some i
  loading : ∀ i p k, s.loading i = some (p, k) → s.task i = .running p k

theorem Inv.oneLoader (h : Inv c s) : OneLoader s := by
  intro i j p k hi hj
  have hi' := h.flight i p k (h.loading i p k hi)
  have hj' := h.flight j p k (h.loading j p k hj)
  exact Option.some.inj (hi'.symm.trans hj')

/-- what the others cannot undo -/
structure Rely (i : ℕ) (s s' : Shared) : Prop where
  epoch : ∀ k, s.epoch k ≤ s'.epoch k
  changes : ∀ k, s.changes k ≤ s'.changes k
  /-- an invalidation is a change -/
  unchanged : ∀ k, s'.changes k = s.changes k → s'.epoch k = s.epoch k
  /-- a task that has not been started is left to its caller -/
  idle : i % 2 = 0 → s.task (taskOf i) = .idle → s'.task (taskOf i) = .idle
  /-- and one that has been to itself -/
  own : i % 2 = 1 → s.task (taskOf i) ≠ .idle → s'.task (taskOf i) = s.task (taskOf i)

theorem Rely.refl (i : ℕ) (s : Shared) : Rely i s s :=
  ⟨fun _ => Nat.le_refl _, fun _ => Nat.le_refl _, fun _ _ => rfl, fun _ h => h, fun _ _ => rfl⟩

theorem Rely.trans (h : Rely i s s') (h' : Rely i s' t) : Rely i s t where
  epoch k := Nat.le_trans (h.epoch k) (h'.epoch k)
  changes k := Nat.le_trans (h.changes k) (h'.changes k)
  unchanged k hk := by
    have hle := h.changes k
    have hle' := h'.changes k
    exact (h'.unchanged k (by omega)).trans (h.unchanged k (by omega))
  idle hi hidle := h'.idle hi (h.idle hi hidle)
  own hi hne := by
    have hsame := h.own hi hne
    exact (h'.own hi (by rwa [hsame])).trans hsame

/-- a comparison is in time: an invalidation since the loader began is still told of -/
def inTime (s : Shared) (key : Key) (began : ℕ) : Prop := s.epoch key ≠ began → s.guardAlive key = true

/-! ## Steps -/

/-- the counters of the keys go on -/
structure Onward (s t : Shared) : Prop where
  epoch : ∀ k, s.epoch k ≤ t.epoch k
  changes : ∀ k, s.changes k ≤ t.changes k
  unchanged : ∀ k, t.changes k = s.changes k → t.epoch k = s.epoch k

theorem onward_of_eq (he : t.epoch = s.epoch) (hc : t.changes = s.changes) : Onward s t := by
  exact ⟨fun k => Nat.le_of_eq (by rw [he]), fun k => Nat.le_of_eq (by rw [hc]), fun k _ => by rw [he]⟩

/-- what a step of session `i` does to the tasks -/
structure Owns (i : ℕ) (s t : Shared) : Prop where
  others : ∀ n, n ≠ taskOf i → t.task n = s.task n
  caller : i % 2 = 0 → s.task (taskOf i) ≠ .idle → t.task (taskOf i) = s.task (taskOf i)
  task : i % 2 = 1 → s.task (taskOf i) = .idle → t.task (taskOf i) = .idle

theorem owns_of_task (h : t.task = s.task) : Owns i s t := by
  refine ⟨fun n _ => by rw [h], fun _ _ => by rw [h], fun _ hidle => ?_⟩
  rwa [h]

theorem rely_of_owns (h : Onward s t) (ho : Owns i s t) (hj : j ≠ i) : Rely j s t := by
  refine ⟨h.epoch, h.changes, h.unchanged, fun hpar hidle => ?_, fun hpar hne => ?_⟩
  · by_cases ht : taskOf j = taskOf i
    · have hodd : i % 2 = 1 := by
        simp only [taskOf] at ht
        omega
      rw [ht] at hidle ⊢
      exact ho.task hodd hidle
    · rwa [ho.others _ ht]
  · by_cases ht : taskOf j = taskOf i
    · have heven : i % 2 = 0 := by
        simp only [taskOf] at ht
        omega
      rw [ht] at hne ⊢
      exact ho.caller heven hne
    · exact ho.others _ ht

theorem reclaim_cases (s : Shared) (p : Proc) (key : Key) (n : ℕ) :
    s.reclaim p key n = s ∨ ((s.task n).isDone = true ∧ s.flights p key = some n ∧
      s.reclaim p key n = s.setFlight p key none) := by
  rw [Shared.reclaim]
  by_cases h : s.refs n = 0 ∧ (s.task n).isDone ∧ s.flights p key = some n
  · rw [if_pos h]
    exact Or.inr ⟨h.2.1, h.2.2, rfl⟩
  · rw [if_neg h]
    exact Or.inl rfl

theorem reclaim_task (s : Shared) (p : Proc) (key : Key) (n : ℕ) : (s.reclaim p key n).task = s.task := by
  rcases reclaim_cases s p key n with h | ⟨-, -, h⟩
  · rw [h]
  · rw [h]
    rfl

theorem reclaim_onward (s : Shared) (p : Proc) (key : Key) (n : ℕ) : Onward s (s.reclaim p key n) := by
  rcases reclaim_cases s p key n with h | ⟨-, -, h⟩
  · exact onward_of_eq (by rw [h]) (by rw [h])
  · refine onward_of_eq ?_ ?_
    · rw [h]
      rfl
    · rw [h]
      rfl

theorem setFlight_flights (s : Shared) (p : Proc) (key : Key) (x : Option ℕ) (q : Proc) (k : Key) :
    (s.setFlight p key x).flights q k = if q = p ∧ k = key then x else s.flights q k := by
  by_cases hq : q = p
  · subst hq
    by_cases hk : k = key
    · simp [Shared.setFlight, hk]
    · simp [Shared.setFlight, hk]
  · simp [Shared.setFlight, hq]

/-- only the flight of a task that is done is taken away -/
theorem Inv.reclaim (h : Inv c s) (p : Proc) (key : Key) (n : ℕ) : Inv c (s.reclaim p key n) := by
  rcases reclaim_cases s p key n with heq | ⟨hdone, hflight, heq⟩
  · rwa [heq]
  · rw [heq]
    refine ⟨h.fresh, h.token, fun i q k hrun => ?_, h.loading⟩
    have hi := h.flight i q k hrun
    rw [setFlight_flights]
    by_cases hqk : q = p ∧ k = key
    · obtain ⟨rfl, rfl⟩ := hqk
      obtain rfl := Option.some.inj (hi.symm.trans hflight)
      have hrun' : s.task i = .running q k := hrun
      rw [hrun'] at hdone
      cases hdone
    · rw [if_neg hqk]
      exact hi

theorem Inv.finish (h : Inv c s) (n : ℕ) (outcome : Outcome) : Inv c (s.finish n outcome) := by
  refine ⟨h.fresh, h.token, fun i q k hrun => ?_, fun i q k hload => ?_⟩
  · by_cases hi : i = n
    · subst hi
      simp [Shared.finish] at hrun
    · exact h.flight i q k (by simpa [Shared.finish, hi] using hrun)
  · by_cases hi : i = n
    · subst hi
      simp [Shared.finish] at hload
    · have hload' : s.loading i = some (q, k) := by simpa [Shared.finish, hi] using hload
      simpa [Shared.finish, hi] using h.loading i q k hload'

theorem finish_owns (n : ℕ) (outcome : Outcome) (hn : n = taskOf i) (hodd : i % 2 = 1) (hne : s.task n ≠ .idle) :
    Owns i s (s.finish n outcome) := by
  subst hn
  refine ⟨fun m hm => ?_, fun heven => by omega, fun _ hidle => absurd hidle hne⟩
  simp [Shared.finish, hm]

theorem Inv.start (h : Inv c s) (hidle : s.task n = .idle) (hnone : s.flights p key = none) (refs : ℕ → ℕ) :
    Inv c { s.setFlight p key (some n) with refs := refs, task := Function.update s.task n (.running p key) } := by
  refine ⟨h.fresh, h.token, fun i q k hrun => ?_, fun i q k hload => ?_⟩
  · change (s.setFlight p key (some n)).flights q k = some i
    change Function.update s.task n (.running p key) i = _ at hrun
    rw [setFlight_flights]
    by_cases hi : i = n
    · subst hi
      simp only [Function.update_self, Task.running.injEq] at hrun
      rw [if_pos ⟨hrun.1.symm, hrun.2.symm⟩]
    · rw [Function.update_of_ne hi] at hrun
      have hflight := h.flight i q k hrun
      rw [if_neg]
      · exact hflight
      · rintro ⟨rfl, rfl⟩
        rw [hnone] at hflight
        cases hflight
  · have hrun := h.loading i q k hload
    have hi : i ≠ n := by
      rintro rfl
      rw [hidle] at hrun
      cases hrun
    exact (Function.update_of_ne hi _ _).trans hrun

/-! ## The protocol -/

/-- a comparison on behalf of a loader is in time -/
def okCmd (c : Prop) {β : Type} (cmd : Cmd β) (s : Shared) : Prop :=
  match cmd with
  | .getGuard key (some began) => c → inTime s key began
  | _ => True

theorem drop_cases (i : ℕ) (s : Shared) : dropSession i s = s ∨ (i % 2 = 1 ∧ ∃ p key, s.task (taskOf i) = .running p key ∧
    dropSession i s = (s.finish (taskOf i) (.error .cancelled)).reclaim p key (taskOf i)) := by
  rw [dropSession]
  by_cases hi : i % 2 = 0
  · rw [if_pos hi]
    exact Or.inl rfl
  · rw [if_neg hi]
    split
    · next p key hrun => exact Or.inr ⟨by omega, p, key, hrun, rfl⟩
    · exact Or.inl rfl

theorem drop_onward (i : ℕ) (s : Shared) : Onward s (dropSession i s) ∧ Owns i s (dropSession i s) := by
  rcases drop_cases i s with h | ⟨hodd, p, key, hrun, h⟩
  · rw [h]
    exact ⟨onward_of_eq rfl rfl, owns_of_task rfl⟩
  · rw [h]
    have howns := finish_owns (s := s) (taskOf i) (.error .cancelled) rfl hodd (by simp [hrun])
    have hon := reclaim_onward (s.finish (taskOf i) (.error .cancelled)) p key (taskOf i)
    refine ⟨⟨hon.epoch, hon.changes, hon.unchanged⟩, ?_⟩
    refine ⟨fun n hn => ?_, fun heven => by omega, fun _ hidle => ?_⟩
    · rw [reclaim_task]
      exact howns.others n hn
    · rw [hrun] at hidle
      cases hidle

/-- callers and tasks; `c`: whether the comparisons are in time -/
def guarded (c : Prop) : Protocol Cmd Shared where
  inv := Inv c
  rely := Rely
  act _ _ _ := True
  ok _ cmd s := okCmd c cmd s
  rely_refl := Rely.refl
  rely_trans _ _ _ _ h h' := h.trans h'
  drop_inv i s h _ := by
    change Inv c (dropSession i s)
    rcases drop_cases i s with heq | ⟨-, p, key, -, heq⟩
    · rwa [heq]
    · rw [heq]
      exact (h.finish _ _).reclaim _ _ _
  drop_act _ _ _ _ := trivial
  drop_rely i s _ _ j hj := rely_of_owns (drop_onward i s).1 (drop_onward i s).2 hj

/-! ## Statements under the protocol -/

variable {α β : Type} {Q : Except Exn α → Shared → Prop}

/-- one statement, and what comes after it -/
theorem wp_stmt {cmd : Cmd β} {f : β → Prg α}
    (h : ∀ s', Rely i s s' → Inv c s' → okCmd c cmd s' → ∀ b t, Cmd.exec i cmd s' = some (b, t) →
      (Inv c t ∧ Onward s' t ∧ Owns i s' t) ∧ (guarded c).wp i (f b) Q t) :
    (guarded c).wp i (Prog.call cmd >>= f) Q s := by
  intro s' hrely hinv hok b t he
  obtain ⟨⟨hinv', hon, howns⟩, hwp⟩ := h s' hrely hinv hok b t he
  exact ⟨⟨hinv', trivial, fun j hj => rely_of_owns hon howns hj⟩, hwp⟩

/-- a statement that only reads -/
theorem wp_read {cmd : Cmd β} {f : β → Prg α} (x : Shared → β) (hexec : ∀ s, Cmd.exec i cmd s = some (x s, s))
    (h : ∀ s', Rely i s s' → Inv c s' → okCmd c cmd s' → (guarded c).wp i (f (x s')) Q s') :
    (guarded c).wp i (Prog.call cmd >>= f) Q s := by
  refine wp_stmt fun s' hrely hinv hok b t he => ?_
  rw [hexec, Option.some.injEq, Prod.mk.injEq] at he
  obtain ⟨rfl, rfl⟩ := he
  exact ⟨⟨hinv, onward_of_eq rfl rfl, owns_of_task rfl⟩, h s' hrely hinv hok⟩

/-- the session is the task of a flight -/
structure Mine (i : ℕ) (p : Proc) (key : Key) (s : Shared) : Prop where
  odd : i % 2 = 1
  running : s.task (taskOf i) = .running p key

theorem Mine.later (h : Mine i p key s) (hrely : Rely i s s') : Mine i p key s' := by
  refine ⟨h.odd, (hrely.own h.odd ?_).trans h.running⟩
  rw [h.running]
  exact Task.noConfusion

theorem wp_cacheGet {f : Option String → Prg α} (h : ∀ s' x, Rely i s s' → (guarded c).wp i (f x) Q s') :
    (guarded c).wp i (cacheGet key >>= f) Q s :=
  wp_read (fun s => s.get key) (fun _ => rfl) fun s' hrely _ _ => h s' _ hrely

/-! ## The store -/

/-- what the token says that was read before the loader began -/
def Before (token : Option ℕ) (began : ℕ) : Prop := ∀ e, token = some e → e ≤ began

theorem token_eq (h : Inv c s) (halive : s.guardAlive k = true) : s.token k = some (s.epoch k) := by
  rcases hg : s.guard k with _ | g
  · simp [Shared.guardAlive, hg] at halive
  · have hnow : s.now < g.expires := by simpa [Shared.guardAlive, hg] using halive
    simp [Shared.token, hg, hnow, h.token k g hg]

theorem token_le (h : Inv c s) : Before (s.token k) (s.epoch k) := by
  intro e he
  rcases hg : s.guard k with _ | g
  · simp [Shared.token, hg] at he
  · simp only [Shared.token, hg, Option.bind_some, Option.ite_none_right_eq_some, Option.some.injEq] at he
    exact Nat.le_of_eq (he.2.symm.trans (h.token k g hg))

/-- a comparison that is in time sees every invalidation since the loader began -/
theorem epoch_of_token {token : Option ℕ} {began : ℕ} (h : Inv c s) (htime : inTime s key began)
    (hbefore : Before token began) (hle : began ≤ s.epoch key) (heq : s.token key = token) : s.epoch key = began := by
  by_contra hne
  have htoken := token_eq h (htime hne)
  have hlt := hbefore (s.epoch key) (heq.symm.trans htoken)
  omega

theorem Inv.store {value : String} {ttl began : ℕ} (h : Inv c s) (hbegan : c → s.epoch key = began) :
    Inv c (s.store key value ttl began) := by
  refine ⟨fun hc k e he => ?_, h.token, h.flight, h.loading⟩
  by_cases hk : k = key
  · subst hk
    simp only [Shared.store, Function.update_self, Option.some.injEq] at he
    rw [← he]
    exact (hbegan hc).symm
  · exact h.fresh hc k e (by simpa [Shared.store, hk] using he)

theorem store_onward {value : String} {ttl began : ℕ} : Onward s (s.store key value ttl began) := by
  refine ⟨fun k => Nat.le_refl _, fun k => ?_, fun k _ => rfl⟩
  by_cases hk : k = key
  · subst hk
    simp [Shared.store]
  · simp [Shared.store, hk]

/-- the transaction goes through only if nothing has changed since `WATCH` -/
theorem set_spec {watched began : ℕ} {value : String} {ttl : ℕ} (hmine : Mine i p k s)
    (hunchanged : ∀ s', Rely i s s' → s'.changes key = watched → c → s'.epoch key = began) :
    (guarded c).wp i (do let _ ← Prog.call (.set key watched value ttl began); pure () : Prg Unit)
      (fun _ t => Mine i p k t) s := by
  refine wp_stmt fun s' hrely hinv _ b t he => ?_
  have hmine' := hmine.later hrely
  simp only [Cmd.exec] at he
  split_ifs at he with hwatch
  · obtain ⟨rfl, rfl⟩ := exec_inj he
    exact ⟨⟨hinv.store (hunchanged s' hrely hwatch), store_onward, owns_of_task rfl⟩, hmine'.odd, hmine'.running⟩
  · obtain ⟨rfl, rfl⟩ := exec_inj he
    exact ⟨⟨hinv, onward_of_eq rfl rfl, owns_of_task rfl⟩, hmine'⟩

theorem setIfNotInvalidated_spec {value : String} {ttl startedAt began : ℕ} {token : Option ℕ} (hmine : Mine i p k s)
    (hle : began ≤ s.epoch key) (hbefore : Before token began) :
    (guarded c).wp i (setIfNotInvalidated key value ttl token startedAt began) (fun _ t => Mine i p k t) s := by
  refine wp_read (fun s => s.now) (fun _ => rfl) fun s₁ h₁ _ _ => ?_
  have hmine₁ := hmine.later h₁
  by_cases hlate : s₁.now - startedAt ≥ guardTtl
  · rw [if_pos hlate]
    exact hmine₁
  rw [if_neg hlate]
  refine wp_read (fun s => s.changes key) (fun _ => rfl) fun s₂ h₂ _ _ => ?_
  refine wp_read (fun s => s.token key) (fun _ => rfl) fun s₃ h₃ hinv₃ hok => ?_
  refine wp_read (fun s => s.get key) (fun _ => rfl) fun s₄ h₄ _ _ => ?_
  have hmine₄ := ((hmine₁.later h₂).later h₃).later h₄
  by_cases htoken : s₃.token key ≠ token
  · rw [if_pos htoken]
    exact hmine₄
  rw [if_neg htoken]
  by_cases hthere : ((s₄.get key).bind Raw.loads).isSome = true
  · rw [if_pos hthere]
    exact hmine₄
  rw [if_neg hthere]
  refine set_spec hmine₄ fun s₅ h₅ hwatch hc => ?_
  -- the comparison sees the count of the loader, and nothing has changed it from `WATCH` to `EXEC`
  have hcompared : s₃.epoch key = began := by
    refine epoch_of_token hinv₃ (hok hc) hbefore ?_ (not_not.1 htoken)
    exact Nat.le_trans hle (Nat.le_trans (h₁.epoch key) (Nat.le_trans (h₂.epoch key) (h₃.epoch key)))
  have hwatched := (h₃.trans (h₄.trans h₅)).unchanged key hwatch
  have hle₃ := h₃.epoch key
  have hle₅ := (h₄.trans h₅).epoch key
  omega

/-! ## The task of a flight -/

theorem wp_then {q : Prg β} {f : β → Prg α} (h : (guarded c).wp i q (fun _ t => Mine i p k t) s)
    (hf : ∀ a t, Mine i p k t → (guarded c).wp i (f a) (fun _ t => Mine i p k t) t) :
    (guarded c).wp i (q >>= f) (fun _ t => Mine i p k t) s := by
  rw [wp_bind]
  refine (guarded c).wp_mono i h fun x t ht => ?_
  cases x with
  | ok a => exact hf a t ht
  | error e => exact ht

theorem fill_spec {token : Option ℕ} {startedAt began : ℕ} {value : Option String} (hmine : Mine i p k s)
    (hle : began ≤ s.epoch r.key) (hbefore : Before token began) :
    (guarded c).wp i (fill r token startedAt began value) (fun _ t => Mine i p k t) s := by
  unfold fill
  split_ifs
  · split
    · exact setIfNotInvalidated_spec hmine hle hbefore
    · exact setIfNotInvalidated_spec hmine hle hbefore
    · exact hmine
  · exact hmine

theorem Inv.startLoader (h : Inv c s) (hrun : s.task n = .running p key) :
    Inv c { s with loading := Function.update s.loading n (some (p, key)) } := by
  refine ⟨h.fresh, h.token, h.flight, fun i q k hload => ?_⟩
  by_cases hi : i = n
  · subst hi
    simp only [Function.update_self, Option.some.injEq, Prod.mk.injEq] at hload
    obtain ⟨rfl, rfl⟩ := hload
    exact hrun
  · exact h.loading i q k (by simpa [hi] using hload)

theorem Inv.endLoader (h : Inv c s) (n : ℕ) : Inv c { s with loading := Function.update s.loading n none } := by
  refine ⟨h.fresh, h.token, h.flight, fun i q k hload => ?_⟩
  by_cases hi : i = n
  · subst hi
    simp at hload
  · exact h.loading i q k (by simpa [hi] using hload)

/-- the token is read before the loader begins -/
theorem load_spec (hmine : Mine i r.proc r.key s) :
    (guarded c).wp i (load r) (fun _ t => Mine i r.proc r.key t) s := by
  have hguard : (guarded c).wp i (readGuard r) (fun x t => Mine i r.proc r.key t ∧
      ∀ token, x = .ok token → Before token (t.epoch r.key)) s := by
    rw [readGuard]
    split_ifs
    · intro s' hrely hinv _ b t he
      obtain ⟨rfl, rfl⟩ := exec_inj he
      refine ⟨⟨hinv, trivial, fun j _ => Rely.refl j _⟩, hmine.later hrely, fun token htoken => ?_⟩
      obtain rfl := Except.ok.inj htoken
      exact token_le hinv
    · refine ⟨hmine, fun token htoken => ?_⟩
      obtain rfl := Except.ok.inj htoken
      exact nofun
  rw [load, wp_bind]
  refine (guarded c).wp_mono i hguard fun x s₁ h₁ => ?_
  obtain ⟨hmine₁, htoken⟩ := h₁
  cases x with
  | error e => exact hmine₁
  | ok token =>
    refine wp_stmt fun s₂ h₂ hinv₂ _ b t he => ?_
    have hmine₂ := hmine₁.later h₂
    obtain ⟨rfl, rfl⟩ := exec_inj he
    refine ⟨⟨hinv₂.startLoader hmine₂.running, onward_of_eq rfl rfl, owns_of_task rfl⟩, ?_⟩
    have hbefore : Before token (s₂.epoch r.key) := fun e hvalue => Nat.le_trans (htoken token rfl e hvalue) (h₂.epoch r.key)
    have hmine₃ : Mine i r.proc r.key
        { s₂ with loading := Function.update s₂.loading (taskOf i) (some (r.proc, r.key)) } := ⟨hmine₂.odd, hmine₂.running⟩
    refine wp_stmt fun s₄ h₄ hinv₄ _ b t he => ?_
    obtain ⟨rfl, rfl⟩ := exec_inj he
    refine ⟨⟨hinv₄.endLoader _, onward_of_eq rfl rfl, owns_of_task rfl⟩, ?_⟩
    have hmine₄ := hmine₃.later h₄
    cases r.loaded with
    | error e => exact ⟨hmine₄.odd, hmine₄.running⟩
    | ok value =>
      refine wp_then (fill_spec ⟨hmine₄.odd, hmine₄.running⟩ (h₄.epoch r.key) hbefore) fun _ t ht => ?_
      exact ht

theorem loadAndFill_spec (hmine : Mine i r.proc r.key s) :
    (guarded c).wp i (loadAndFill r) (fun _ t => Mine i r.proc r.key t) s := by
  refine wp_cacheGet fun s' x hrely => ?_
  cases x with
  | some value => exact hmine.later hrely
  | none => exact load_spec (hmine.later hrely)

theorem flight_spec (hodd : i % 2 = 1) : (guarded c).wp i (flight r) (fun _ _ => True) s := by
  refine wp_stmt fun s₁ _ hinv _ b t he => ?_
  have hbegin : s₁.task (taskOf i) = .running r.proc r.key ∧ t = s₁ := by
    simp only [Cmd.exec] at he
    split at he
    · next p' key' hrun =>
      split_ifs at he with hsame
      obtain ⟨rfl, rfl⟩ := hsame
      exact ⟨hrun, (exec_inj he).2.symm⟩
    · cases he
  obtain ⟨hrun, rfl⟩ := hbegin
  refine ⟨⟨hinv, onward_of_eq rfl rfl, owns_of_task rfl⟩, ?_⟩
  rw [wp_andThen]
  refine (guarded c).wp_mono i (loadAndFill_spec ⟨hodd, hrun⟩) fun outcome s₂ hmine => ?_
  refine wp_stmt fun s₃ h₃ hinv₃ _ b t he => ?_
  have hmine₃ := hmine.later h₃
  obtain ⟨rfl, rfl⟩ := exec_inj he
  refine ⟨⟨hinv₃.finish _ _, onward_of_eq rfl rfl, ?_⟩, ?_⟩
  · exact finish_owns _ outcome rfl hodd (by simp [hmine₃.running])
  refine wp_stmt fun s₄ h₄ hinv₄ _ b t he => ?_
  obtain ⟨rfl, rfl⟩ := exec_inj he
  exact ⟨⟨hinv₄.reclaim _ _ _, reclaim_onward _ _ _ _, owns_of_task (reclaim_task _ _ _ _)⟩, trivial⟩

/-! ## The callers -/

theorem leave_spec {t : ℕ} {f : Unit → Prg α} (hf : ∀ s', (guarded c).wp i (f ()) (fun _ _ => True) s') :
    (guarded c).wp i (Prog.call (.leave p key t) >>= f) (fun _ _ => True) s := by
  refine wp_stmt fun s' _ hinv _ b u he => ?_
  obtain ⟨rfl, rfl⟩ := exec_inj he
  have hinv' : Inv c { s' with refs := Function.update s'.refs t (s'.refs t - 1) } :=
    ⟨hinv.fresh, hinv.token, hinv.flight, hinv.loading⟩
  have hon := reclaim_onward { s' with refs := Function.update s'.refs t (s'.refs t - 1) } p key t
  exact ⟨⟨hinv'.reclaim p key t, ⟨hon.epoch, hon.changes, hon.unchanged⟩, owns_of_task (reclaim_task _ _ _ _)⟩, hf _⟩

/-- a flight is started only where there is none -/
theorem enter_spec {f : ℕ → Prg α} (heven : i % 2 = 0) (hidle : s.task (taskOf i) = .idle)
    (hf : ∀ t s', (guarded c).wp i (f t) (fun _ _ => True) s') :
    (guarded c).wp i (Prog.call (.enter p key) >>= f) (fun _ _ => True) s := by
  refine wp_stmt fun s' hrely hinv _ b t he => ?_
  simp only [Cmd.exec] at he
  split at he
  · obtain ⟨rfl, rfl⟩ := exec_inj he
    exact ⟨⟨⟨hinv.fresh, hinv.token, hinv.flight, hinv.loading⟩, onward_of_eq rfl rfl, owns_of_task rfl⟩, hf _ _⟩
  · next hnone =>
    obtain ⟨rfl, rfl⟩ := exec_inj he
    have hidle' := hrely.idle heven hidle
    refine ⟨⟨hinv.start hidle' hnone _, onward_of_eq rfl rfl, ?_⟩, hf _ _⟩
    exact ⟨fun n hn => Function.update_of_ne hn _ _, fun _ hne => absurd hidle' hne, fun hodd => by omega⟩

theorem cachedRead_spec (heven : i % 2 = 0) (hidle : s.task (taskOf i) = .idle) :
    (guarded c).wp i (cachedRead r) (fun _ _ => True) s := by
  refine wp_cacheGet fun s₁ x h₁ => ?_
  cases x with
  | some value => trivial
  | none =>
    refine enter_spec heven (h₁.idle heven hidle) fun t s₂ => ?_
    split_ifs
    · exact leave_spec fun _ => trivial
    · refine wp_stmt fun s₃ _ hinv _ b u he => ?_
      have hsame : u = s₃ := by
        simp only [Cmd.exec] at he
        split at he
        · exact (exec_inj he).2.symm
        · cases he
      subst hsame
      exact ⟨⟨hinv, onward_of_eq rfl rfl, owns_of_task rfl⟩, leave_spec fun _ => trivial⟩

theorem Inv.invalidate (h : Inv c s) (keys : List Key) : Inv c (s.invalidate keys) := by
  refine ⟨fun hc k e he => ?_, fun k g hg => ?_, h.flight, h.loading⟩
  · by_cases hk : k ∈ keys
    · simp [Shared.invalidate, hk] at he
    · have hold : s.value k = some e := by simpa [Shared.invalidate, hk] using he
      simpa [Shared.invalidate, hk] using h.fresh hc k e hold
  · by_cases hk : k ∈ keys
    · simp only [Shared.invalidate, if_pos hk, Option.some.injEq] at hg
      simp [Shared.invalidate, hk, ← hg]
    · have hold : s.guard k = some g := by simpa [Shared.invalidate, hk] using hg
      simpa [Shared.invalidate, hk] using h.token k g hold

theorem invalidate_onward (keys : List Key) : Onward s (s.invalidate keys) := by
  refine ⟨fun k => ?_, fun k => ?_, fun k hk => ?_⟩
  · by_cases hmem : k ∈ keys
    · simp [Shared.invalidate, hmem]
    · simp [Shared.invalidate, hmem]
  · by_cases hmem : k ∈ keys
    · simp [Shared.invalidate, hmem]
    · simp [Shared.invalidate, hmem]
  · by_cases hmem : k ∈ keys
    · simp [Shared.invalidate, hmem] at hk
    · simp [Shared.invalidate, hmem]

theorem invalidate_spec {keys : List Key} {f : Unit → Prg α} (hf : ∀ s', (guarded c).wp i (f ()) (fun _ _ => True) s') :
    (guarded c).wp i (Prog.call (.invalidate keys) >>= f) (fun _ _ => True) s := by
  refine wp_stmt fun s' _ hinv _ b t he => ?_
  obtain ⟨rfl, rfl⟩ := exec_inj he
  exact ⟨⟨hinv.invalidate keys, invalidate_onward keys, owns_of_task rfl⟩, hf _⟩

variable {isSecondary : Key → Bool} {requests : ℕ → Request}

theorem cacheInvalidate_spec (keys : List Key) :
    (guarded c).wp i (cacheInvalidate isSecondary keys) (fun _ _ => True) s := by
  cases keys with
  | nil => trivial
  | cons key keys =>
    refine invalidate_spec fun s' => ?_
    dsimp only
    split_ifs
    · trivial
    · exact invalidate_spec (f := pure) fun _ => trivial

theorem session_spec (hidle : ∀ n, s.task n = .idle) (n : ℕ) :
    (guarded c).wp n (session isSecondary requests n) (fun _ _ => True) s := by
  rw [session]
  by_cases heven : n % 2 = 0
  · rw [if_pos heven]
    cases requests (n / 2) with
    | cachedRead r => exact cachedRead_spec heven (hidle _)
    | cacheInvalidate keys =>
      rw [Request.caller, wp_bind]
      refine (guarded c).wp_mono n (cacheInvalidate_spec keys) fun x t _ => ?_
      cases x with
      | ok _ => trivial
      | error e => trivial
    | wait dt =>
      refine wp_stmt fun s' _ hinv _ b t he => ?_
      obtain ⟨rfl, rfl⟩ := exec_inj he
      exact ⟨⟨⟨hinv.fresh, hinv.token, hinv.flight, hinv.loading⟩, onward_of_eq rfl rfl, owns_of_task rfl⟩, trivial⟩
  · rw [if_neg heven]
    cases requests (n / 2) with
    | cachedRead r => exact flight_spec (by omega)
    | cacheInvalidate keys => trivial
    | wait dt => trivial

/-! ## The law -/

abbrev Sessions := World Cmd Shared Exn (Option String)

def init (isSecondary : Key → Bool) (s : Shared) (requests : ℕ → Request) : Sessions :=
  start s (session isSecondary requests)

/-- nothing is under way -/
structure Starts (s : Shared) : Prop where
  fresh : Fresh s
  token : ∀ k g, s.guard k = some g → g.token = s.epoch k
  task : ∀ n, s.task n = .idle
  loading : ∀ n, s.loading n = none

theorem Starts.inv (h : Starts s) : Inv c s := by
  refine ⟨fun _ => h.fresh, h.token, fun i p k hrun => ?_, fun i p k hload => ?_⟩
  · rw [h.task] at hrun
    cases hrun
  · rw [h.loading] at hload
    cases hload

/-- the next statement is a comparison on behalf of a loader, after the guard of an invalidation since that began -/
def late (s : Shared) : Prg (Option String) → Bool
  | .op (.getGuard key (some began)) _ => decide (s.epoch key ≠ began) && !s.guardAlive key
  | _ => false

def timely (w : Sessions) : Move → Prop
  | .run i => (w.prog i).any (late w.st) = false
  | .crash _ => True

instance (w : Sessions) : DecidablePred (timely w)
  | .run i => inferInstanceAs (Decidable ((w.prog i).any (late w.st) = false))
  | .crash _ => inferInstanceAs (Decidable True)

theorem stepOk_of_timely {w : Sessions} {m : Move} (h : timely w m) : (guarded True).stepOk w m := by
  refine stepOk_of _ (fun _ _ => trivial) ?_
  rintro β i cmd f rfl hp
  rw [timely, hp] at h
  change okCmd True cmd w.st
  cases cmd with
  | getGuard key began =>
    cases began with
    | none => trivial
    | some began =>
      intro _ hne
      simpa [late, hne] using h
  | _ => trivial

theorem safe_init (hs : Starts s) : (guarded c).Safe (init isSecondary s requests) :=
  (guarded c).safe_start hs.inv fun n => session_spec hs.task n

/-- **One loader.** In every run, a process is in at most one loader of a key at a time. -/
theorem one_loader (isSecondary : Key → Bool) (s : Shared) (requests : ℕ → Request) (ms : List Move) (hs : Starts s) :
    OneLoader (run (init isSecondary s requests) ms).st := by
  have hlegal : (guarded False).Legal (init isSecondary s requests) ms := by
    refine (guarded False).legal_of_ok (fun i cmd s => ?_) (fun _ _ => trivial) _ ms
    change okCmd False cmd s
    unfold okCmd
    split
    · exact False.elim
    · trivial
  exact ((guarded False).run_inv (safe_init hs) hlegal).oneLoader

/-- **Fresh.** While the comparisons are timely, no value lies under a key that a loader has read which began before an
invalidation of the key; and a process is in at most one loader of a key at a time. -/
theorem cached_read_fresh (isSecondary : Key → Bool) (s : Shared) (requests : ℕ → Request) (ms : List Move)
    (hs : Starts s) (h : Along timely (init isSecondary s requests) ms) :
    ∀ pre, pre <+: ms → Fresh (run (init isSecondary s requests) pre).st ∧
      OneLoader (run (init isSecondary s requests) pre).st := by
  intro pre hpre
  obtain ⟨post, rfl⟩ := hpre
  have hlegal := (((along_append pre post).1 h).1).mono fun _ _ => stepOk_of_timely
  have hinv := (guarded True).run_inv (safe_init hs) hlegal
  exact ⟨hinv.fresh trivial, hinv.oneLoader⟩

/-! ## Two runs -/

/-- nothing is cached -/
def cold : Shared where
  now := 0
  value := fun _ => none
  guard := fun _ => none
  changes := fun _ => 0
  epoch := fun _ => 0
  flights := fun _ _ => none
  refs := fun _ => 0
  task := fun _ => .idle
  loading := fun _ => none

theorem starts_cold : Starts cold := ⟨fun _ _ h => (nomatch h), fun _ _ h => (nomatch h), fun _ => rfl, fun _ => rfl⟩

/-- two readers of one process, one of another, an invalidation, and time that passes -/
def coldRequests : ℕ → Request
  | 0 => .cachedRead
    { proc := 0, key := "article", ttl := 300000, nullTtl := none, canFill := true, loaded := .ok (some "old") }
  | 1 => .cachedRead
    { proc := 0, key := "article", ttl := 300000, nullTtl := none, canFill := true, loaded := .ok (some "new") }
  | 2 => .cachedRead
    { proc := 1, key := "article", ttl := 300000, nullTtl := none, canFill := true, loaded := .ok (some "new") }
  | 3 => .cacheInvalidate ["article"]
  | 4 => .wait 59999
  | _ => .wait 1

def schedule (turns : List (ℕ × ℕ)) : List Move := turns.flatMap fun turn => moves turn.1 turn.2

/-- the key is invalidated while the two readers share a flight, which stores nothing; the other process does -/
def shared : List Move := schedule [(0, 2), (1, 4), (2, 2), (6, 1), (4, 2), (5, 12), (1, 9), (0, 3), (2, 3), (4, 3)]

theorem cached_read_fresh_demo :
    Fresh (run (init (fun _ => false) cold coldRequests) shared).st ∧
      OneLoader (run (init (fun _ => false) cold coldRequests) shared).st :=
  cached_read_fresh (fun _ => false) cold coldRequests shared starts_cold (by decide) shared List.prefix_rfl

theorem one_loader_demo : OneLoader (run (init (fun _ => false) cold coldRequests) shared).st :=
  one_loader (fun _ => false) cold coldRequests shared starts_cold

/-- the load takes a millisecond less than the guard lives, and so does the check; `WATCH` comes a millisecond later -/
def delayed : List Move := schedule [(0, 2), (1, 4), (6, 1), (8, 1), (1, 2), (10, 1), (1, 9)]

/-- the loader began before the invalidation, and what it has read lies under the key after it -/
theorem stale_refill :
    let s := (run (init (fun _ => false) cold coldRequests) delayed).st
    s.value "article" = some { raw := .json "old", expires := 360000, readAt := 0 } ∧ s.epoch "article" = 1 ∧ ¬ Fresh s := by
  refine ⟨by decide, by decide, fun h => ?_⟩
  have hentry : (run (init (fun _ => false) cold coldRequests) delayed).st.value "article" =
      some { raw := .json "old", expires := 360000, readAt := 0 } := by decide
  have hepoch : (run (init (fun _ => false) cold coldRequests) delayed).st.epoch "article" = 1 := by decide
  have hread := h "article" _ hentry
  rw [hepoch] at hread
  cases hread

end LkmService.Cache
