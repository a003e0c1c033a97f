/-
Lists that are read after a commit.

The new number of a collection can be seen before the commit that it is for. A reader in between puts the old rows under
the new number, where they stay after the commit (`rule_passed_over`). A number that is lost starts again from the beginning,
where the keys of before may still live.

- `Since`: whatever is under a number, or will be, includes the first writes.
- `settles`: after a commit, an increment or a loss of the number, nothing from before the last commit is under the number.
- `lists_fresh`: in every run in which the number settles, a list that is read after a commit includes its write.
-/
import Mathlib.Tactic.Common
import Mathlib.Data.List.Infix
import LkmService.Cache.Collection

namespace LkmService.Cache

open Session Session.Protocol

variable {S P V : Type} {s t u : Lists S P V} {i j n b : ℕ} {p : ℕ} {key : ListKey P} {v : Version}
  {params : P} {x : Loaded S V}

/-! ## The condition -/

/-- what is under the number, and what a task will hand over or hands over for it, includes the first `n` writes -/
structure Since (v : Version) (n : ℕ) (s : Lists S P V) : Prop where
  value : ∀ params x, s.value (v, params) = some x → n ≤ x.since
  running : ∀ m p params b, s.task m = .running p (v, params) → s.began m = some b → n ≤ b
  shared : ∀ m p params x, s.flights p (v, params) = some m → s.task m = .done (.ok x) → n ≤ x.since

/-- nothing under the number of the collection is from before the last commit -/
def Settled (s : Lists S P V) : Prop := Since s.version s.commits s

def ListCmd.settles {β : Type} (i : ℕ) (s : Lists S P V) : ListCmd S P V β → Prop
  | .incrVersion => Settled s.incr
  | .loseVersion => Settled s.lose
  | .commit change => Settled (s.commit i change)
  | _ => True

/-! ## What is handed over -/

def ListRequest.effect : ListRequest S P → S → S
  | .write w, rows => w.change rows
  | _, rows => rows

/-- the rows after the writes of a log -/
def replay (base : S) (requests : ℕ → ListRequest S P) (log : List ℕ) : S :=
  log.foldl (fun rows n => (requests n).effect rows) base

section Results

variable (c : Collection S P V) (base : S) (requests : ℕ → ListRequest S P)

/-- a state of the run so far -/
structure Past (log : List ℕ) (src : Snapshot S) : Prop where
  rows : src.rows = replay base requests src.log
  log : src.log <+: log

/-- the payload is what the loader makes of states of the run, of which the first is the oldest -/
structure Sound (log : List ℕ) (params : P) (x : Loaded S V) : Prop where
  value : x.value = c.view params (x.sources.map Snapshot.rows)
  rest : x.rest.length = c.more params
  past : ∀ src ∈ x.sources, Past base requests log src
  first : ∀ src ∈ x.sources, x.first.log <+: src.log

/-- a task for a list of the number that will hand over, or has handed over, what includes the first `n` writes -/
def Will (v : Version) (params : P) (n m : ℕ) (s : Lists S P V) : Prop :=
  ((∃ p, s.task m = .running p (v, params)) ∧ ∀ b, s.began m = some b → n ≤ b) ∨
    ∃ outcome, s.task m = .done outcome ∧ ∀ x, outcome = .ok x → n ≤ x.since ∧ Sound c base requests s.db.log params x

end Results

variable {c : Collection S P V} {base : S} {requests : ℕ → ListRequest S P}

theorem Past.onward {src : Snapshot S} {log log' : List ℕ} (h : Past base requests log src) (ho : log <+: log') :
    Past base requests log' src := ⟨h.rows, h.log.trans ho⟩

theorem Sound.onward {log log' : List ℕ} (h : Sound c base requests log params x) (ho : log <+: log') :
    Sound c base requests log' params x :=
  ⟨h.value, h.rest, fun src hsrc => (h.past src hsrc).onward ho, h.first⟩

/-! ## The protocol -/

structure ListInv (c : Collection S P V) (base : S) (requests : ℕ → ListRequest S P) (s : Lists S P V) : Prop where
  settled : Settled s
  rows : s.db.rows = replay base requests s.db.log
  value : ∀ key x, s.value key = some x → Sound c base requests s.db.log key.2 x
  /-- the task of a flight runs for its key, or has ended -/
  flight : ∀ p key m, s.flights p key = some m → s.task m = .running p key ∨
    ∃ outcome, s.task m = .done outcome ∧ ∀ x, outcome = .ok x → Sound c base requests s.db.log key.2 x
  idle : ∀ m, s.task m = .idle → s.began m = none

structure ListRely (c : Collection S P V) (base : S) (requests : ℕ → ListRequest S P) (i : ℕ) (s t : Lists S P V) : Prop where
  log : s.db.log <+: t.db.log
  since : ∀ v n, n ≤ s.commits → Since v n s → Since v n t
  will : ∀ v params n m, n ≤ s.commits → Since v n s → Will c base requests v params n m s → Will c base requests v params n m t
  /-- a task that has not been started is left to its caller -/
  idle : i % 2 = 0 → s.task (slot i) = .idle → t.task (slot i) = .idle
  /-- and one that has been to itself -/
  own : i % 2 = 1 → s.task (slot i) ≠ .idle → t.task (slot i) = s.task (slot i)
  began : i % 2 = 1 → t.began (slot i) = s.began (slot i)

theorem commits_onward (h : s.db.log <+: t.db.log) : s.commits ≤ t.commits := h.length_le

theorem ListRely.refl (i : ℕ) (s : Lists S P V) : ListRely c base requests i s s :=
  ⟨List.prefix_rfl, fun _ _ _ h => h, fun _ _ _ _ _ _ h => h, fun _ h => h, fun _ _ => rfl, fun _ => rfl⟩

theorem ListRely.trans (h : ListRely c base requests i s t) (h' : ListRely c base requests i t u) : ListRely c base requests i s u where
  log := h.log.trans h'.log
  since v n hn hs := h'.since v n (hn.trans (commits_onward h.log)) (h.since v n hn hs)
  will v params n m hn hs hw :=
    h'.will v params n m (hn.trans (commits_onward h.log)) (h.since v n hn hs) (h.will v params n m hn hs hw)
  idle hi hidle := h'.idle hi (h.idle hi hidle)
  own hi hne := by
    have htask := h.own hi hne
    exact (h'.own hi (by rwa [htask])).trans htask
  began hi := (h'.began hi).trans (h.began hi)

/-! ## Steps that leave the tasks -/

/-- what a step does to the tasks -/
structure SameTasks (s t : Lists S P V) : Prop where
  task : t.task = s.task
  began : t.began = s.began
  flights : ∀ p key m, t.flights p key = some m → s.flights p key = some m

/-- a value that is new is not older than a task that has read it -/
def Fills (s t : Lists S P V) : Prop :=
  ∀ key x, t.value key = some x → s.value key = some x ∨
    ∃ m p, s.task m = .running p key ∧ s.began m = some x.since

theorem SameTasks.since (h : SameTasks s t) (hv : Fills s t) {v : Version} {n : ℕ} (hs : Since v n s) : Since v n t := by
  refine ⟨fun params x hx => ?_, fun m p params b hm hb => ?_, fun m p params x hm hx => ?_⟩
  · rcases hv _ x hx with hold | ⟨m, p, hm, hb⟩
    · exact hs.value params x hold
    · exact hs.running m p params _ hm hb
  · rw [h.task] at hm
    rw [h.began] at hb
    exact hs.running m p params b hm hb
  · rw [h.task] at hx
    exact hs.shared m p params x (h.flights p _ m hm) hx

theorem SameTasks.will (h : SameTasks s t) (ho : s.db.log <+: t.db.log) {m : ℕ} (hw : Will c base requests v params n m s) :
    Will c base requests v params n m t := by
  unfold Will at hw ⊢
  rw [h.task, h.began]
  rcases hw with hrun | ⟨outcome, hdone, hok⟩
  · exact .inl hrun
  · exact .inr ⟨outcome, hdone, fun x hx => ⟨(hok x hx).1, (hok x hx).2.onward ho⟩⟩

theorem SameTasks.rely (h : SameTasks s t) (hv : Fills s t) (ho : s.db.log <+: t.db.log) (j : ℕ) :
    ListRely c base requests j s t where
  log := ho
  since _ _ _ hs := h.since hv hs
  will _ _ _ _ _ _ hw := h.will ho hw
  idle _ hidle := by rwa [h.task]
  own _ _ := by rw [h.task]
  began _ := by rw [h.began]

theorem SameTasks.flight (h : SameTasks s t) (hinv : ListInv c base requests s) (ho : s.db.log <+: t.db.log) :
    ∀ p key m, t.flights p key = some m → t.task m = .running p key ∨
      ∃ outcome, t.task m = .done outcome ∧ ∀ x, outcome = .ok x → Sound c base requests t.db.log key.2 x := by
  intro p key m hm
  rw [h.task]
  rcases hinv.flight p key m (h.flights p key m hm) with hrun | ⟨outcome, hdone, hok⟩
  · exact .inl hrun
  · exact .inr ⟨outcome, hdone, fun x hx => (hok x hx).onward ho⟩

theorem SameTasks.idle (h : SameTasks s t) (hinv : ListInv c base requests s) : ∀ m, t.task m = .idle → t.began m = none := by
  intro m hm
  rw [h.task] at hm
  rw [h.began]
  exact hinv.idle m hm

theorem SameTasks.refl (s : Lists S P V) : SameTasks s s := ⟨rfl, rfl, fun _ _ _ h => h⟩

theorem fills_of_eq (h : t.value = s.value) : Fills s t := by
  intro key x hx
  rw [h] at hx
  exact .inl hx

/-- a step that leaves the tasks, the database and the number -/
theorem SameTasks.inv (h : SameTasks s t) (hinv : ListInv c base requests s) (hv : Fills s t) (hdb : t.db = s.db)
    (hversion : t.version = s.version) (hvalue : ∀ key x, t.value key = some x → Sound c base requests t.db.log key.2 x) :
    ListInv c base requests t where
  settled := by
    have hcommits : t.commits = s.commits := by rw [Lists.commits, Lists.commits, hdb]
    rw [Settled, hversion, hcommits]
    exact h.since hv hinv.settled
  rows := by
    rw [hdb]
    exact hinv.rows
  value := hvalue
  flight := h.flight hinv (by rw [hdb])
  idle := h.idle hinv

/-- a step that leaves the tasks and what is cached -/
theorem rely_same (h : SameTasks s t) (hinv : ListInv c base requests s) (hdb : t.db = s.db) (hversion : t.version = s.version)
    (hvalue : t.value = s.value) : ListInv c base requests t ∧ ∀ j, ListRely c base requests j s t := by
  refine ⟨h.inv hinv (fills_of_eq hvalue) hdb hversion fun key x hx => ?_, fun j => h.rely (fills_of_eq hvalue) (by rw [hdb]) j⟩
  rw [hvalue] at hx
  rw [hdb]
  exact hinv.value key x hx

/-- a new number, or none -/
theorem rely_version (hinv : ListInv c base requests s) (version : Version) (hsettled : Settled { s with version := version }) :
    ListInv c base requests { s with version := version } ∧ ∀ j, ListRely c base requests j s { s with version := version } :=
  have hsame : SameTasks s { s with version := version } := ⟨rfl, rfl, fun _ _ _ h => h⟩
  ⟨⟨hsettled, hinv.rows, hinv.value, hinv.flight, hinv.idle⟩, fun j => hsame.rely (fills_of_eq rfl) List.prefix_rfl j⟩

theorem rely_commit {w : ListWrite S} (hw : requests (slot i) = .write w) (hinv : ListInv c base requests s)
    (hsettled : Settled (s.commit i w.change)) :
    ListInv c base requests (s.commit i w.change) ∧ ∀ j, ListRely c base requests j s (s.commit i w.change) := by
  have hlog : s.db.log <+: (s.commit i w.change).db.log := List.prefix_append ..
  have hsame : SameTasks s (s.commit i w.change) := ⟨rfl, rfl, fun _ _ _ h => h⟩
  refine ⟨⟨hsettled, ?_, fun key x hx => (hinv.value key x hx).onward hlog, hsame.flight hinv hlog, hsame.idle hinv⟩,
    fun j => hsame.rely (fills_of_eq rfl) hlog j⟩
  simp only [Lists.commit, replay, List.foldl_append, List.foldl_cons, List.foldl_nil, hw, ListRequest.effect]
  rw [hinv.rows]
  rfl

/-! ## Steps of one task -/

/-- a step that leaves all but the task of session `i` -/
structure OneTask (i : ℕ) (s t : Lists S P V) : Prop where
  task : ∀ m, m ≠ slot i → t.task m = s.task m
  began : ∀ m, m ≠ slot i → t.began m = s.began m
  db : t.db = s.db
  version : t.version = s.version
  value : t.value = s.value

theorem OneTask.will (h : OneTask i s t) {m : ℕ} (hm : m ≠ slot i) (hw : Will c base requests v params n m s) :
    Will c base requests v params n m t := by
  unfold Will at hw ⊢
  rw [h.task m hm, h.began m hm]
  rcases hw with hrun | ⟨outcome, hdone, hok⟩
  · exact .inl hrun
  · exact .inr ⟨outcome, hdone, fun x hx => ⟨(hok x hx).1, (hok x hx).2.onward (by rw [h.db])⟩⟩

theorem OneTask.rely (h : OneTask i s t) (hsince : ∀ v n, n ≤ s.commits → Since v n s → Since v n t)
    (hwill : ∀ v params n, n ≤ s.commits → Since v n s → Will c base requests v params n (slot i) s →
      Will c base requests v params n (slot i) t)
    (hcaller : i % 2 = 0 → s.task (slot i) = .idle ∧ t.began (slot i) = s.began (slot i))
    (htask : i % 2 = 1 → s.task (slot i) ≠ .idle) (hj : j ≠ i) :
    ListRely c base requests j s t where
  log := by rw [h.db]
  since := hsince
  will v params n m hn hs hw := by
    by_cases hm : m = slot i
    · subst hm
      exact hwill v params n hn hs hw
    · exact h.will hm hw
  idle hpar hidle := by
    by_cases hslot : slot j = slot i
    · have hodd : i % 2 = 1 := by
        simp only [slot] at hslot
        omega
      exact absurd (hslot ▸ hidle) (htask hodd)
    · rwa [h.task _ hslot]
  own hpar hne := by
    by_cases hslot : slot j = slot i
    · have heven : i % 2 = 0 := by
        simp only [slot] at hslot
        omega
      exact absurd (hslot ▸ (hcaller heven).1) hne
    · exact h.task _ hslot
  began hpar := by
    by_cases hslot : slot j = slot i
    · have heven : i % 2 = 0 := by
        simp only [slot] at hslot
        omega
      rw [hslot]
      exact (hcaller heven).2
    · exact h.began _ hslot

theorem OneTask.settled (h : OneTask i s t) (hinv : ListInv c base requests s)
    (hsince : ∀ v n, n ≤ s.commits → Since v n s → Since v n t) : Settled t := by
  have hcommits : t.commits = s.commits := by rw [Lists.commits, Lists.commits, h.db]
  rw [Settled, h.version, hcommits]
  exact hsince _ _ (Nat.le_refl _) hinv.settled

theorem OneTask.sound (h : OneTask i s t) (hinv : ListInv c base requests s) :
    ∀ key x, t.value key = some x → Sound c base requests t.db.log key.2 x := by
  intro key x hx
  rw [h.value] at hx
  exact (hinv.value key x hx).onward (by rw [h.db])

/-- a task that runs has read what it will hand over -/
theorem rely_setBegan (hodd : i % 2 = 1) (hrun : s.task (slot i) = .running p key)
    (hb : ∀ n, n ≤ s.commits → Since key.1 n s → n ≤ b) (hinv : ListInv c base requests s) :
    ListInv c base requests (s.setBegan (slot i) b) ∧ ∀ j, j ≠ i → ListRely c base requests j s (s.setBegan (slot i) b) := by
  have hone : OneTask i s (s.setBegan (slot i) b) :=
    ⟨fun _ _ => rfl, fun m hm => Function.update_of_ne hm .., rfl, rfl, rfl⟩
  have hbegan : (s.setBegan (slot i) b).began (slot i) = some b := Function.update_self ..
  have hkey : ∀ {p' v params}, s.task (slot i) = .running p' (v, params) → key.1 = v := by
    intro p' v params hrun'
    rw [hrun] at hrun'
    obtain ⟨-, rfl⟩ := ListTask.running.inj hrun'
    rfl
  have hsince : ∀ v n, n ≤ s.commits → Since v n s → Since v n (s.setBegan (slot i) b) := by
    intro v n hn hs
    refine ⟨hs.value, fun m p' params b' hm hb' => ?_, hs.shared⟩
    by_cases hslot : m = slot i
    · subst hslot
      rw [hbegan] at hb'
      obtain rfl := Option.some.inj hb'
      exact hb n hn (hkey hm ▸ hs)
    · rw [hone.began m hslot] at hb'
      exact hs.running m p' params b' hm hb'
  refine ⟨⟨hone.settled hinv hsince, hinv.rows, hone.sound hinv, hinv.flight, fun m hm => ?_⟩, fun j hj => ?_⟩
  · by_cases hslot : m = slot i
    · have hidle : s.task (slot i) = .idle := hslot ▸ hm
      rw [hrun] at hidle
      cases hidle
    · rw [hone.began m hslot]
      exact hinv.idle m hm
  · refine hone.rely hsince (fun v params n hn hs hw => ?_) (fun heven => by omega) (fun _ => by rw [hrun]; exact nofun) hj
    rcases hw with ⟨⟨p', hrun'⟩, -⟩ | ⟨outcome, hdone, -⟩
    · refine .inl ⟨⟨p', hrun'⟩, fun b' hb' => ?_⟩
      rw [hbegan] at hb'
      obtain rfl := Option.some.inj hb'
      exact hb n hn (hkey hrun' ▸ hs)
    · rw [hrun] at hdone
      cases hdone

/-- a task ends, and hands over what it has read -/
theorem rely_finish {outcome : ListOutcome S V} (hodd : i % 2 = 1) (hrun : s.task (slot i) = .running p key)
    (hok : ∀ x, outcome = .ok x → s.began (slot i) = some x.since ∧ Sound c base requests s.db.log key.2 x)
    (hinv : ListInv c base requests s) :
    ListInv c base requests (s.finish (slot i) outcome) ∧
      ∀ j, j ≠ i → ListRely c base requests j s (s.finish (slot i) outcome) := by
  have hone : OneTask i s (s.finish (slot i) outcome) :=
    ⟨fun m hm => Function.update_of_ne hm .., fun _ _ => rfl, rfl, rfl, rfl⟩
  have htask : (s.finish (slot i) outcome).task (slot i) = .done outcome := Function.update_self ..
  have hkey : ∀ {p' key'}, s.task (slot i) = .running p' key' → key' = key := by
    intro p' key' hrun'
    rw [hrun] at hrun'
    exact (ListTask.running.inj hrun').2.symm
  have hflight : ∀ p' key', s.flights p' key' = some (slot i) → key' = key := by
    intro p' key' hm
    rcases hinv.flight p' key' _ hm with hrun' | ⟨outcome', hdone, -⟩
    · exact hkey hrun'
    · rw [hrun] at hdone
      cases hdone
  have hsince : ∀ v n, n ≤ s.commits → Since v n s → Since v n (s.finish (slot i) outcome) := by
    intro v n _ hs
    refine ⟨hs.value, fun m p' params b hm hb => ?_, fun m p' params x hm hx => ?_⟩
    · by_cases hslot : m = slot i
      · subst hslot
        rw [htask] at hm
        cases hm
      · rw [hone.task m hslot] at hm
        exact hs.running m p' params b hm hb
    · by_cases hslot : m = slot i
      · subst hslot
        rw [htask] at hx
        have hread := (hok x (ListTask.done.inj hx)).1
        obtain rfl := hflight p' _ hm
        exact hs.running _ p params _ hrun hread
      · rw [hone.task m hslot] at hx
        exact hs.shared m p' params x hm hx
  refine ⟨⟨hone.settled hinv hsince, hinv.rows, hone.sound hinv, fun p' key' m hm => ?_, fun m hm => ?_⟩, fun j hj => ?_⟩
  · by_cases hslot : m = slot i
    · subst hslot
      obtain rfl := hflight p' key' hm
      exact .inr ⟨outcome, htask, fun x hx => (hok x hx).2⟩
    · rw [hone.task m hslot]
      exact hinv.flight p' key' m hm
  · by_cases hslot : m = slot i
    · rw [hslot, htask] at hm
      cases hm
    · rw [hone.task m hslot] at hm
      exact hinv.idle m hm
  · refine hone.rely hsince (fun v params n _ hs hw => ?_) (fun heven => by omega) (fun _ => by rw [hrun]; exact nofun) hj
    rcases hw with ⟨⟨p', hrun'⟩, hb⟩ | ⟨outcome', hdone, -⟩
    · refine .inr ⟨outcome, htask, fun x hx => ?_⟩
      obtain ⟨hread, hsound⟩ := hok x hx
      have heq := hkey hrun'
      subst heq
      exact ⟨hb _ hread, hsound⟩
    · rw [hrun] at hdone
      cases hdone

variable [DecidableEq P]

/-- a caller that finds no flight starts its task -/
theorem rely_enter (heven : i % 2 = 0) (hidle : s.task (slot i) = .idle) (hinv : ListInv c base requests s)
    (ht : t = { s.setFlight p key (some (slot i)) with
      refs := Function.update s.refs (slot i) 1
      task := Function.update s.task (slot i) (.running p key) }) :
    ListInv c base requests t ∧ (∀ j, j ≠ i → ListRely c base requests j s t) ∧ t.task (slot i) = .running p key ∧
      t.began (slot i) = none := by
  have htask : t.task (slot i) = .running p key := by
    rw [ht]
    exact Function.update_self ..
  have hbegan : t.began = s.began := by rw [ht]; rfl
  have hone : OneTask i s t := by
    rw [ht]
    exact ⟨fun m hm => Function.update_of_ne hm .., fun _ _ => rfl, rfl, rfl, rfl⟩
  have hnone : t.began (slot i) = none := by
    rw [hbegan]
    exact hinv.idle _ hidle
  have hflights : ∀ p' key' m, t.flights p' key' = some m → (p' = p ∧ key' = key ∧ m = slot i) ∨ s.flights p' key' = some m := by
    intro p' key' m hm
    have hm' : Function.update s.flights p (Function.update (s.flights p) key (some (slot i))) p' key' = some m := by
      rw [ht] at hm
      exact hm
    by_cases hp : p' = p
    · subst hp
      rw [Function.update_self] at hm'
      by_cases hk : key' = key
      · subst hk
        rw [Function.update_self] at hm'
        exact .inl ⟨rfl, rfl, (Option.some.inj hm').symm⟩
      · rw [Function.update_of_ne hk] at hm'
        exact .inr hm'
    · rw [Function.update_of_ne hp] at hm'
      exact .inr hm'
  -- nobody waits for a task that has not been started
  have hnew : ∀ p' key' m, s.flights p' key' = some m → m ≠ slot i := by
    intro p' key' m hm hslot
    subst hslot
    rcases hinv.flight p' key' _ hm with hrun | ⟨outcome, hdone, -⟩
    · rw [hidle] at hrun
      cases hrun
    · rw [hidle] at hdone
      cases hdone
  have hsince : ∀ v n, n ≤ s.commits → Since v n s → Since v n t := by
    intro v n _ hs
    refine ⟨fun params x hx => ?_, fun m p' params b hm hb => ?_, fun m p' params x hm hx => ?_⟩
    · rw [hone.value] at hx
      exact hs.value params x hx
    · by_cases hslot : m = slot i
      · subst hslot
        rw [hnone] at hb
        cases hb
      · rw [hone.task m hslot] at hm
        rw [hbegan] at hb
        exact hs.running m p' params b hm hb
    · rcases hflights p' _ m hm with ⟨-, -, rfl⟩ | hold
      · rw [htask] at hx
        cases hx
      · rw [hone.task m (hnew _ _ _ hold)] at hx
        exact hs.shared m p' params x hold hx
  refine ⟨⟨hone.settled hinv hsince, ?_, hone.sound hinv, fun p' key' m hm => ?_, fun m hm => ?_⟩, fun j hj => ?_, htask, hnone⟩
  · rw [hone.db]
    exact hinv.rows
  · rcases hflights p' key' m hm with ⟨rfl, rfl, rfl⟩ | hold
    · exact .inl htask
    · rw [hone.task m (hnew _ _ _ hold)]
      rcases hinv.flight p' key' m hold with hrun | ⟨outcome, hdone, hok⟩
      · exact .inl hrun
      · exact .inr ⟨outcome, hdone, fun x hx => (hok x hx).onward (by rw [hone.db])⟩
  · by_cases hslot : m = slot i
    · rw [hslot]
      exact hnone
    · rw [hone.task m hslot] at hm
      rw [hbegan]
      exact hinv.idle m hm
  · refine hone.rely hsince (fun v params n _ _ hw => ?_) (fun _ => ⟨hidle, by rw [hbegan]⟩) (fun hodd => by omega) hj
    rcases hw with ⟨⟨p', hrun⟩, -⟩ | ⟨outcome, hdone, -⟩
    · rw [hidle] at hrun
      cases hrun
    · rw [hidle] at hdone
      cases hdone

theorem sameTasks_reclaim (s : Lists S P V) (p : ℕ) (key : ListKey P) (m : ℕ) : SameTasks s (s.reclaim p key m) := by
  unfold Lists.reclaim
  split
  · refine ⟨rfl, rfl, fun p' key' m' hm => ?_⟩
    have hm' : Function.update s.flights p (Function.update (s.flights p) key none) p' key' = some m' := hm
    by_cases hp : p' = p
    · subst hp
      rw [Function.update_self] at hm'
      by_cases hk : key' = key
      · subst hk
        rw [Function.update_self] at hm'
        cases hm'
      · rwa [Function.update_of_ne hk] at hm'
    · rwa [Function.update_of_ne hp] at hm'
  · exact .refl s

theorem reclaim_frame (s : Lists S P V) (p : ℕ) (key : ListKey P) (m : ℕ) : (s.reclaim p key m).db = s.db ∧
    (s.reclaim p key m).version = s.version ∧ (s.reclaim p key m).value = s.value := by
  unfold Lists.reclaim
  split
  · exact ⟨rfl, rfl, rfl⟩
  · exact ⟨rfl, rfl, rfl⟩

theorem rely_reclaim (hinv : ListInv c base requests s) (p : ℕ) (key : ListKey P) (m : ℕ) :
    ListInv c base requests (s.reclaim p key m) ∧ ∀ j, ListRely c base requests j s (s.reclaim p key m) := by
  obtain ⟨hdb, hversion, hvalue⟩ := reclaim_frame s p key m
  exact rely_same (sameTasks_reclaim s p key m) hinv hdb hversion hvalue

theorem rely_evict (hinv : ListInv c base requests s) (key : ListKey P) :
    ListInv c base requests (s.evict key) ∧ ∀ j, ListRely c base requests j s (s.evict key) := by
  have hold : ∀ key' x, (s.evict key).value key' = some x → s.value key' = some x := by
    intro key' x hx
    have hx' : Function.update s.value key none key' = some x := hx
    by_cases hk : key' = key
    · subst hk
      rw [Function.update_self] at hx'
      cases hx'
    · rwa [Function.update_of_ne hk] at hx'
  have hsame : SameTasks s (s.evict key) := ⟨rfl, rfl, fun _ _ _ h => h⟩
  have hfills : Fills s (s.evict key) := fun key' x hx => .inl (hold key' x hx)
  exact ⟨hsame.inv hinv hfills rfl rfl fun key' x hx => hinv.value key' x (hold key' x hx),
    fun j => hsame.rely hfills List.prefix_rfl j⟩

/-- a task stores what it has read -/
theorem rely_store (hrun : s.task n = .running p key) (hread : s.began n = some x.since)
    (hsound : Sound c base requests s.db.log key.2 x) (hinv : ListInv c base requests s) :
    ListInv c base requests (s.store key x) ∧ ∀ j, ListRely c base requests j s (s.store key x) := by
  have hcases : ∀ key' x', (s.store key x).value key' = some x' → (key' = key ∧ x' = x) ∨ s.value key' = some x' := by
    intro key' x' hx
    have hx' : Function.update s.value key (some x) key' = some x' := hx
    by_cases hk : key' = key
    · subst hk
      rw [Function.update_self] at hx'
      exact .inl ⟨rfl, (Option.some.inj hx').symm⟩
    · rw [Function.update_of_ne hk] at hx'
      exact .inr hx'
  have hsame : SameTasks s (s.store key x) := ⟨rfl, rfl, fun _ _ _ h => h⟩
  have hfills : Fills s (s.store key x) := by
    intro key' x' hx
    rcases hcases key' x' hx with ⟨rfl, rfl⟩ | hold
    · exact .inr ⟨n, p, hrun, hread⟩
    · exact .inl hold
  refine ⟨hsame.inv hinv hfills rfl rfl fun key' x' hx => ?_, fun j => hsame.rely hfills List.prefix_rfl j⟩
  rcases hcases key' x' hx with ⟨rfl, rfl⟩ | hold
  · exact hsound
  · exact hinv.value key' x' hold

/-- the connection of a task is lost: it is cancelled -/
theorem rely_drop (hinv : ListInv c base requests s) (i : ℕ) :
    ListInv c base requests (dropList i s) ∧ ∀ j, j ≠ i → ListRely c base requests j s (dropList i s) := by
  unfold dropList
  split
  · exact ⟨hinv, fun j _ => .refl j s⟩
  next hodd =>
    split
    next p key hrun =>
      have hnone : ∀ x, (Except.error .cancelled : ListOutcome S V) ≠ .ok x := fun x => nofun
      obtain ⟨hinv', hrely⟩ := rely_finish (by omega) hrun (fun x hx => absurd hx (hnone x)) hinv
      obtain ⟨hinv'', hrely'⟩ := rely_reclaim hinv' p key (slot i)
      exact ⟨hinv'', fun j hj => (hrely j hj).trans (hrely' j)⟩
    · exact ⟨hinv, fun j _ => .refl j s⟩

def listProtocol (c : Collection S P V) (base : S) (requests : ℕ → ListRequest S P) : Protocol (ListCmd S P V) (Lists S P V) where
  inv := ListInv c base requests
  rely := ListRely c base requests
  act _ s t := s.db.log <+: t.db.log
  ok i cmd s := cmd.settles i s
  rely_refl := ListRely.refl
  rely_trans _ _ _ _ := ListRely.trans
  drop_inv i _ h _ := (rely_drop h i).1
  drop_act i _ h _ := ((rely_drop h i).2 (i + 1) (Nat.succ_ne_self i)).log
  drop_rely i _ h _ j hj := (rely_drop h i).2 j hj

/-! ## Tasks -/

/-- the task of session `i` runs; `began`: what it has read so far -/
structure Runs (i p : ℕ) (key : ListKey P) (began : Option ℕ) (s : Lists S P V) : Prop where
  odd : i % 2 = 1
  task : s.task (slot i) = .running p key
  began : s.began (slot i) = began

/-- what a task will hand over -/
structure Holds (c : Collection S P V) (base : S) (requests : ℕ → ListRequest S P) (i p : ℕ) (key : ListKey P) (x : Loaded S V)
    (s : Lists S P V) : Prop where
  runs : Runs i p key (some x.since) s
  sound : Sound c base requests s.db.log key.2 x

/-- a task while it has not ended, and what it is about to end with -/
def Handing (c : Collection S P V) (base : S) (requests : ℕ → ListRequest S P) (i p : ℕ) (key : ListKey P)
    (outcome : ListOutcome S V) (s : Lists S P V) : Prop :=
  s.task (slot i) = .running p key ∧ ∀ x, outcome = .ok x → Holds c base requests i p key x s

variable {began : Option ℕ}

omit [DecidableEq P] in
theorem Runs.onward (h : Runs i p key began s) (hr : ListRely c base requests i s t) : Runs i p key began t := by
  have hne : s.task (slot i) ≠ .idle := by
    rw [h.task]
    exact nofun
  exact ⟨h.odd, (hr.own h.odd hne).trans h.task, (hr.began h.odd).trans h.began⟩

omit [DecidableEq P] in
theorem Holds.onward (h : Holds c base requests i p key x s) (hr : ListRely c base requests i s t) :
    Holds c base requests i p key x t := ⟨h.runs.onward hr, h.sound.onward hr.log⟩

omit [DecidableEq P] in
theorem handing_ok (h : Holds c base requests i p key x s) : Handing c base requests i p key (.ok x) s :=
  ⟨h.runs.task, fun _ hx => Except.ok.inj hx ▸ h⟩

theorem list_good (h : ListInv c base requests t ∧ ∀ j, j ≠ i → ListRely c base requests j s t) :
    (listProtocol c base requests).Good i s t := ⟨h.1, (h.2 (i + 1) (Nat.succ_ne_self i)).log, h.2⟩

theorem list_good_all (h : ListInv c base requests t ∧ ∀ j, ListRely c base requests j s t) :
    (listProtocol c base requests).Good i s t := ⟨h.1, (h.2 i).log, fun j _ => h.2 j⟩

theorem list_same (h : ListInv c base requests s) : (listProtocol c base requests).Good i s s :=
  ⟨h, List.prefix_rfl, fun j _ => .refl j s⟩

/-- a query of the loader -/
theorem select_spec (h : Runs i p key began s) : (listProtocol c base requests).wp i (Prog.call .select : ListPrg S P V (Snapshot S))
    (Ends fun snapshot t => Past base requests t.db.log snapshot ∧ s.db.log <+: snapshot.log ∧
      Runs i p key (some (began.getD snapshot.log.length)) t) s := by
  refine (wp_call _ _ _ _ _).2 fun s' hr hi _ snapshot t he => ?_
  obtain ⟨rfl, rfl⟩ := exec_inj he
  have hruns := h.onward hr
  have hb : ∀ n, n ≤ s'.commits → Since key.1 n s' → n ≤ (s'.began (slot i)).getD s'.commits := by
    intro n hn hs
    rcases hold : s'.began (slot i) with _ | b
    · exact hn
    · exact hs.running _ p key.2 b hruns.task hold
  refine ⟨list_good (rely_setBegan hruns.odd hruns.task hb hi), s'.db, rfl, ⟨hi.rows, List.prefix_rfl⟩, hr.log, hruns.odd,
    hruns.task, ?_⟩
  rw [← hruns.began]
  exact Function.update_self ..

theorem selects_spec {first : Snapshot S} (k : ℕ) (h : Runs i p key (some b) s) (hpast : Past base requests s.db.log first) :
    (listProtocol c base requests).wp i (selects k : ListPrg S P V (List (Snapshot S)))
      (Ends fun rest t => rest.length = k ∧ (∀ src ∈ rest, Past base requests t.db.log src ∧ first.log <+: src.log) ∧
        s.db.log <+: t.db.log ∧ Runs i p key (some b) t) s := by
  induction k generalizing s with
  | zero => exact ⟨[], rfl, rfl, fun _ h => (List.not_mem_nil h).elim, List.prefix_rfl, h⟩
  | succ k ih =>
    refine wp_next _ _ (select_spec h) fun snapshot t ⟨hsnapshot, hlog, hruns⟩ => ?_
    have hon : s.db.log <+: t.db.log := hlog.trans hsnapshot.log
    refine wp_next _ _ (ih hruns (hpast.onward hon)) fun others u ⟨hlength, hothers, hon', hruns'⟩ => ?_
    refine ⟨snapshot :: others, rfl, by rw [List.length_cons, hlength], fun src hsrc => ?_, hon.trans hon', hruns'⟩
    rcases List.mem_cons.1 hsrc with rfl | hsrc
    · exact ⟨hsnapshot.onward hon', hpast.log.trans hlog⟩
    · exact hothers src hsrc

theorem loader_spec {fails : Bool} (h : Runs i p key none s) :
    (listProtocol c base requests).wp i (loader c key.2 fails) (Handing c base requests i p key) s := by
  refine wp_next _ _ (select_spec h) fun first t ⟨hfirst, _, hruns⟩ => ?_
  refine wp_next _ _ (selects_spec (c.more key.2) hruns hfirst) fun rest u ⟨hlength, hrest, hon, hruns'⟩ => ?_
  split
  · exact ⟨hruns'.task, fun x hx => nomatch hx⟩
  · refine handing_ok ⟨hruns', rfl, hlength, fun src hsrc => ?_, fun src hsrc => ?_⟩
    · rcases List.mem_cons.1 hsrc with rfl | hsrc
      · exact hfirst.onward hon
      · exact (hrest src hsrc).1
    · rcases List.mem_cons.1 hsrc with rfl | hsrc
      · exact List.prefix_rfl
      · exact (hrest src hsrc).2

theorem fillList_spec (h : Holds c base requests i p key x s) :
    (listProtocol c base requests).wp i (fillList key x) (Ends fun _ t => Holds c base requests i p key x t) s := by
  have hwatch : (listProtocol c base requests).wp i (Prog.call (.watch key) : ListPrg S P V ℕ)
      (Ends fun _ t => Holds c base requests i p key x t) s := by
    refine (wp_call _ _ _ _ _).2 fun s' hr hi _ m t he => ?_
    obtain ⟨rfl, rfl⟩ := exec_inj he
    exact ⟨list_same hi, _, rfl, h.onward hr⟩
  refine wp_next _ _ hwatch fun watched t ht => ?_
  have hget : (listProtocol c base requests).wp i (Prog.call (.get key) : ListPrg S P V (Option (Loaded S V)))
      (Ends fun _ t => Holds c base requests i p key x t) t := by
    refine (wp_call _ _ _ _ _).2 fun s' hr hi _ m t he => ?_
    obtain ⟨rfl, rfl⟩ := exec_inj he
    exact ⟨list_same hi, _, rfl, ht.onward hr⟩
  refine wp_next _ _ hget fun current u hu => ?_
  cases current with
  | some y => exact ⟨(), rfl, hu⟩
  | none =>
    have hset : (listProtocol c base requests).wp i (Prog.call (.set key watched x) : ListPrg S P V Bool)
        (Ends fun _ t => Holds c base requests i p key x t) u := by
      refine (wp_call _ _ _ _ _).2 fun s' hr hi _ m t he => ?_
      have hheld := hu.onward hr
      simp only [Machine.exec, ListCmd.exec] at he
      split at he
      · obtain ⟨rfl, rfl⟩ := exec_inj he
        exact ⟨list_good_all (rely_store hheld.runs.task hheld.runs.began hheld.sound hi), true, rfl,
          ⟨hheld.runs.odd, hheld.runs.task, hheld.runs.began⟩, hheld.sound⟩
      · obtain ⟨rfl, rfl⟩ := exec_inj he
        exact ⟨list_same hi, false, rfl, hheld⟩
    exact wp_next _ _ hset fun _ v hv => ⟨(), rfl, hv⟩

theorem loadAndFillList_spec (r : ListRead P) (h : Runs i p key none s) :
    (listProtocol c base requests).wp i (loadAndFillList c r key) (Handing c base requests i p key) s := by
  have hagain : (listProtocol c base requests).wp i (Prog.call (.getAgain key) : ListPrg S P V (Option (Loaded S V)))
      (Ends fun again t => (∀ x, again = some x → Holds c base requests i p key x t) ∧ (again = none → Runs i p key none t)) s := by
    refine (wp_call _ _ _ _ _).2 fun s' hr hi _ again t he => ?_
    have hruns := h.onward hr
    simp only [Machine.exec, ListCmd.exec] at he
    split at he
    next x hx =>
      obtain ⟨rfl, rfl⟩ := exec_inj he
      have hb : ∀ n, n ≤ s'.commits → Since key.1 n s' → n ≤ x.since := fun n _ hs => hs.value key.2 x hx
      refine ⟨list_good (rely_setBegan hruns.odd hruns.task hb hi), some x, rfl, fun y hy => ?_, fun h => (nomatch h)⟩
      obtain rfl := Option.some.inj hy
      exact ⟨⟨hruns.odd, hruns.task, Function.update_self ..⟩, hi.value key x hx⟩
    · obtain ⟨rfl, rfl⟩ := exec_inj he
      exact ⟨list_same hi, none, rfl, fun y hy => (nomatch hy), fun _ => hruns⟩
  refine wp_next _ _ hagain fun again t ⟨hhit, hmiss⟩ => ?_
  cases again with
  | some x => exact handing_ok (hhit x rfl)
  | none =>
    refine (wp_bind _ _ _ _ _ _).2 (wp_mono _ _ (loader_spec (hmiss rfl)) fun outcome u hout => ?_)
    cases outcome with
    | error e => exact ⟨hout.1, fun x hx => nomatch hx⟩
    | ok x =>
      have hx := hout.2 x rfl
      simp only
      split
      · exact wp_next _ _ (fillList_spec hx) fun _ v hv => handing_ok hv
      · exact handing_ok hx

/-- the task of a caller, from before it is started -/
theorem listFlight_spec (r : ListRead P) (hodd : i % 2 = 1) (hbegan : s.began (slot i) = none) :
    (listProtocol c base requests).wp i (listFlight c r) (fun _ _ => True) s := by
  have hbegin : (listProtocol c base requests).wp i (Prog.call .begin : ListPrg S P V (ℕ × ListKey P))
      (Ends fun q t => Runs i q.1 q.2 none t) s := by
    refine (wp_call _ _ _ _ _).2 fun s' hr hi _ q t he => ?_
    simp only [Machine.exec, ListCmd.exec] at he
    split at he
    next p key hrun =>
      obtain ⟨rfl, rfl⟩ := exec_inj he
      exact ⟨list_same hi, _, rfl, hodd, hrun, (hr.began hodd).trans hbegan⟩
    · cases he
  refine wp_next _ _ hbegin fun q t hruns => ?_
  obtain ⟨p, key⟩ := q
  refine (wp_andThen _ _ _ _ _ _).2 (wp_mono _ _ (loadAndFillList_spec r hruns) fun outcome u hout => ?_)
  have hfinish : (listProtocol c base requests).wp i (Prog.call (.finish outcome) : ListPrg S P V Unit) (Ends fun _ _ => True) u := by
    refine (wp_call _ _ _ _ _).2 fun s' hr hi _ _ t he => ?_
    obtain ⟨rfl, rfl⟩ := exec_inj he
    have hne : u.task (slot i) ≠ .idle := by
      rw [hout.1]
      exact nofun
    have hok : ∀ x, outcome = .ok x → s'.began (slot i) = some x.since ∧ Sound c base requests s'.db.log key.2 x := by
      intro x hx
      have hheld := (hout.2 x hx).onward hr
      exact ⟨hheld.runs.began, hheld.sound⟩
    exact ⟨list_good (rely_finish hodd ((hr.own hodd hne).trans hout.1) hok hi), (), rfl, trivial⟩
  refine wp_next _ _ hfinish fun _ v _ => ?_
  have hdone : (listProtocol c base requests).wp i (Prog.call (.onTaskDone p key) : ListPrg S P V Unit) (Ends fun _ _ => True) v := by
    refine (wp_call _ _ _ _ _).2 fun s' hr hi _ _ t he => ?_
    obtain ⟨rfl, rfl⟩ := exec_inj he
    exact ⟨list_good_all (rely_reclaim hi p key (slot i)), (), rfl, trivial⟩
  exact wp_next _ _ hdone fun _ _ _ => trivial

/-! ## Callers -/

/-- a caller that has not entered a flight yet -/
structure Calls (i : ℕ) (v : Version) (n : ℕ) (s : Lists S P V) : Prop where
  even : i % 2 = 0
  idle : s.task (slot i) = .idle
  known : n ≤ s.commits
  since : Since v n s

/-- what a caller comes back with includes the first `n` writes -/
structure Includes (c : Collection S P V) (base : S) (requests : ℕ → ListRequest S P) (params : P) (n : ℕ) (x : Loaded S V)
    (s : Lists S P V) : Prop where
  since : n ≤ x.since
  sound : Sound c base requests s.db.log params x

omit [DecidableEq P] in
theorem Calls.onward (h : Calls i v n s) (hr : ListRely c base requests i s t) : Calls i v n t :=
  ⟨h.even, hr.idle h.even h.idle, h.known.trans (commits_onward hr.log), hr.since v n h.known h.since⟩

omit [DecidableEq P] in
theorem Includes.onward (h : Includes c base requests params n x s) (hr : ListRely c base requests i s t) :
    Includes c base requests params n x t := ⟨h.since, h.sound.onward hr.log⟩

omit [DecidableEq P] in
/-- a flight of the number that is under way -/
theorem will_of_flight (hinv : ListInv c base requests s) (hs : Since v n s) {m : ℕ} (hm : s.flights p (v, params) = some m) :
    Will c base requests v params n m s := by
  rcases hinv.flight p (v, params) m hm with hrun | ⟨outcome, hdone, hok⟩
  · exact .inl ⟨⟨p, hrun⟩, fun b hb => hs.running m p params b hrun hb⟩
  · refine .inr ⟨outcome, hdone, fun x hx => ⟨?_, hok x hx⟩⟩
    subst hx
    exact hs.shared m p params x hm hdone

theorem joins_spec (h : Calls i v n s) : (listProtocol c base requests).wp i (Prog.call (.enter p (v, params)) : ListPrg S P V ℕ)
    (Ends fun m t => n ≤ t.commits ∧ Since v n t ∧ Will c base requests v params n m t) s := by
  refine (wp_call _ _ _ _ _).2 fun s' hr hi _ m t he => ?_
  have hcalls := h.onward hr
  simp only [Machine.exec, ListCmd.exec] at he
  split at he
  next m' hm =>
    obtain ⟨rfl, rfl⟩ := exec_inj he
    have hsame : SameTasks s' { s' with refs := Function.update s'.refs m' (s'.refs m' + 1) } := ⟨rfl, rfl, fun _ _ _ h => h⟩
    obtain ⟨hinv, hrely⟩ := rely_same hsame hi rfl rfl rfl
    refine ⟨list_good_all ⟨hinv, hrely⟩, m', rfl, hcalls.known, (hrely i).since v n hcalls.known hcalls.since, ?_⟩
    exact (hrely i).will v params n m' hcalls.known hcalls.since (will_of_flight hi hcalls.since hm)
  · obtain ⟨rfl, ht⟩ := exec_inj he
    obtain ⟨hinv, hrely, hrun, hnone⟩ := rely_enter hcalls.even hcalls.idle hi ht.symm
    have hlog := (hrely (i + 1) (Nat.succ_ne_self i)).log
    refine ⟨list_good ⟨hinv, hrely⟩, slot i, rfl, hcalls.known.trans (commits_onward hlog), ?_, .inl ⟨⟨p, hrun⟩, fun b hb => ?_⟩⟩
    · exact (hrely (i + 1) (Nat.succ_ne_self i)).since v n hcalls.known hcalls.since
    · rw [hnone] at hb
      cases hb

theorem listSingleflight_spec (r : ListRead P) (h : Calls i v n s) :
    (listProtocol c base requests).wp i (listSingleflight r (v, params)) (After fun x t => Includes c base requests params n x t) s := by
  refine wp_next _ _ (joins_spec h) fun m t ⟨hn, hsince, hwill⟩ => ?_
  have hawait : (listProtocol c base requests).wp i (Prog.call (.awaitTask m) : ListPrg S P V (ListOutcome S V))
      (Ends fun outcome u => ∀ x, outcome = .ok x → Includes c base requests params n x u) t := by
    refine (wp_call _ _ _ _ _).2 fun s' hr hi _ outcome u he => ?_
    simp only [Machine.exec, ListCmd.exec] at he
    split at he
    next outcome' hdone =>
      obtain ⟨rfl, rfl⟩ := exec_inj he
      refine ⟨list_same hi, outcome', rfl, fun x hx => ?_⟩
      rcases hr.will v params n m hn hsince hwill with ⟨⟨p', hrun⟩, -⟩ | ⟨outcome'', hdone', hok⟩
      · rw [hdone] at hrun
        cases hrun
      · rw [hdone] at hdone'
        obtain rfl := ListTask.done.inj hdone'
        exact ⟨(hok x hx).1, (hok x hx).2⟩
    · cases he
  refine wp_next _ _ hawait fun outcome u hout => ?_
  have hleave : (listProtocol c base requests).wp i (Prog.call (.leave r.proc (v, params) m) : ListPrg S P V Unit)
      (Ends fun _ w => ∀ x, outcome = .ok x → Includes c base requests params n x w) u := by
    refine (wp_call _ _ _ _ _).2 fun s' hr hi _ _ w he => ?_
    obtain ⟨rfl, rfl⟩ := exec_inj he
    have hsame : SameTasks s' { s' with refs := Function.update s'.refs m (s'.refs m - 1) } := ⟨rfl, rfl, fun _ _ _ h => h⟩
    obtain ⟨hinv, hrely⟩ := rely_same hsame hi rfl rfl rfl
    obtain ⟨hinv', hrely'⟩ := rely_reclaim hinv r.proc (v, params) m
    refine ⟨list_good_all ⟨hinv', fun j => (hrely j).trans (hrely' j)⟩, (), rfl, fun x hx => ?_⟩
    exact ((hout x hx).onward hr).onward ((hrely i).trans (hrely' i))
  refine wp_next _ _ hleave fun _ w hw => ?_
  cases outcome with
  | ok x => exact hw x rfl
  | error e => trivial

/-- a list that is read while its caller knows of `n` writes -/
theorem readList_spec (r : ListRead P) (heven : i % 2 = 0) (hidle : s.task (slot i) = .idle) :
    (listProtocol c base requests).wp i (readList r) (After fun x t => Includes c base requests r.params s.commits x t) s := by
  have hversion : (listProtocol c base requests).wp i (collectionVersion : ListPrg S P V Version)
      (Ends fun v t => Calls i v s.commits t) s := by
    refine (wp_call _ _ _ _ _).2 fun s' hr hi _ v t he => ?_
    obtain ⟨rfl, rfl⟩ := exec_inj he
    have hknown := commits_onward hr.log
    have hsince : Since s'.version s.commits s' :=
      ⟨fun q x hx => hknown.trans (hi.settled.value q x hx), fun m p q b hm hb => hknown.trans (hi.settled.running m p q b hm hb),
        fun m p q x hm hx => hknown.trans (hi.settled.shared m p q x hm hx)⟩
    exact ⟨list_same hi, _, rfl, heven, hr.idle heven hidle, hknown, hsince⟩
  refine wp_next _ _ hversion fun v t hcalls => ?_
  have hget : (listProtocol c base requests).wp i (Prog.call (.get (v, r.params)) : ListPrg S P V (Option (Loaded S V)))
      (Ends fun cached u => Calls i v s.commits u ∧ ∀ x, cached = some x → Includes c base requests r.params s.commits x u) t := by
    refine (wp_call _ _ _ _ _).2 fun s' hr hi _ cached u he => ?_
    obtain ⟨rfl, rfl⟩ := exec_inj he
    have hcalls' := hcalls.onward hr
    exact ⟨list_same hi, _, rfl, hcalls', fun x hx => ⟨hcalls'.since.value r.params x hx, hi.value _ x hx⟩⟩
  refine wp_next _ _ hget fun cached u ⟨hcalls', hhit⟩ => ?_
  cases cached with
  | some x => exact hhit x rfl
  | none => exact listSingleflight_spec r hcalls'

/-! ## Requests -/

/-- what a session comes back with -/
def ListRequest.Found (c : Collection S P V) (base : S) (requests : ℕ → ListRequest S P) (n : ℕ) :
    ListRequest S P → Option (Loaded S V) → Lists S P V → Prop
  | .read r, some x, t => Includes c base requests r.params n x t
  | _, _, _ => True

theorem caller_spec (hq : i % 2 = 0) (hidle : s.task (slot i) = .idle) :
    (listProtocol c base requests).wp i ((requests (slot i)).caller)
      (After fun x t => (requests (slot i)).Found c base requests s.commits x t) s := by
  cases hreq : requests (slot i) with
  | read r => exact wp_step _ _ (readList_spec r hq hidle) fun x t hx => hx
  | evict key =>
    refine wp_step _ _ (Φ := fun _ _ => True) ((wp_call _ _ _ _ _).2 fun s' _ hi _ _ t he => ?_) fun _ _ _ => trivial
    obtain ⟨rfl, rfl⟩ := exec_inj he
    exact ⟨list_good_all (rely_evict hi key), trivial⟩
  | loseVersion =>
    refine wp_step _ _ (Φ := fun _ _ => True) ((wp_call _ _ _ _ _).2 fun s' _ hi hok _ t he => ?_) fun _ _ _ => trivial
    obtain ⟨rfl, rfl⟩ := exec_inj he
    exact ⟨list_good_all (rely_version hi none hok), trivial⟩
  | write w =>
    refine wp_step _ _ (Φ := fun _ _ => True) ?_ fun _ _ _ => trivial
    refine wp_step _ _ (Φ := fun _ _ => True) ((wp_call _ _ _ _ _).2 fun s' _ hi hok _ t he => ?_) fun _ u _ => ?_
    · obtain ⟨rfl, rfl⟩ := exec_inj he
      exact ⟨list_good_all (rely_version hi _ hok), trivial⟩
    · split
      · refine (wp_call _ _ _ _ _).2 fun s' _ hi hok _ t he => ?_
        obtain ⟨rfl, rfl⟩ := exec_inj he
        exact ⟨list_good_all (rely_commit hreq hi hok), trivial⟩
      · trivial

/-! ## Runs -/

/-- after the move, the number of the collection is not one that something from before the last commit is under -/
def numberSettles (w : ListRun S P V) : Move → Prop
  | .run i =>
    match w.prog i with
    | some (.op cmd _) => cmd.settles i w.st
    | _ => True
  | .crash _ => True

theorem legal_of_settles {w : ListRun S P V} {ms : List Move} (h : Along numberSettles w ms) :
    (listProtocol c base requests).Legal w ms := by
  refine h.mono fun w m hm => ?_
  refine stepOk_of _ (fun _ _ => trivial) ?_
  rintro β i cmd f rfl hp
  simp only [numberSettles, hp] at hm
  exact hm

theorem safe_initLists (c : Collection S P V) (base : S) (requests : ℕ → ListRequest S P) :
    (listProtocol c base requests).Safe (initLists c base requests) := by
  refine safe_start _ ⟨⟨?_, ?_, ?_⟩, rfl, ?_, ?_, fun _ _ => rfl⟩ fun i => ?_
  · exact fun _ _ h => nomatch h
  · exact fun _ _ _ _ h => nomatch h
  · exact fun _ _ _ _ h => nomatch h
  · exact fun _ _ h => nomatch h
  · exact fun _ _ _ h => nomatch h
  · unfold listSession
    split
    next heven => exact wp_mono _ _ (caller_spec heven rfl) fun _ _ _ => trivial
    next hodd =>
      cases hreq : requests (i / 2) with
      | read r => exact listFlight_spec r (by omega) rfl
      | write w => trivial
      | evict key => trivial
      | loseVersion => trivial

/-- a list whose reading begins when a write has been committed is made of states that include it -/
theorem list_includes (c : Collection S P V) (base : S) (requests : ℕ → ListRequest S P) (pre post : List Move)
    (hsettles : Along numberSettles (initLists c base requests) (pre ++ post)) {n w : ℕ} {r : ListRead P} {x : Loaded S V}
    (hr : requests n = .read r) (hlater : ∀ m ∈ pre, who m ≠ 2 * n) (hw : w ∈ (run (initLists c base requests) pre).st.db.log)
    (hx : (run (initLists c base requests) (pre ++ post)).answer (2 * n) = some (.ok (some x))) :
    Sound c base requests (run (initLists c base requests) (pre ++ post)).st.db.log r.params x ∧ ∀ src ∈ x.sources, w ∈ src.log := by
  have hsafe := safe_initLists c base requests
  obtain ⟨hpre, hpost⟩ := (along_append pre post).1 hsettles
  have hlegal : (listProtocol c base requests).Legal (initLists c base requests) pre := legal_of_settles hpre
  have hslot : slot (2 * n) = n := Nat.mul_div_cancel_left n Nat.two_pos
  have heven : 2 * n % 2 = 0 := Nat.mul_mod_right 2 n
  -- the caller is where it began, and its task has not been started
  obtain ⟨hprog, hrely⟩ := run_others _ hsafe hlegal hlater
  have hidle : (run (initLists c base requests) pre).st.task (slot (2 * n)) = .idle := hrely.idle heven rfl
  have hcaller : (run (initLists c base requests) pre).prog (2 * n) = some ((requests (slot (2 * n))).caller) := by
    rw [hprog]
    simp only [initLists, start, listSession, heven, if_true]
    rfl
  rw [run_append] at hx ⊢
  have hstable : ∀ (res : Except ListExn (Option (Loaded S V))) s t, After (fun x t => (requests (slot (2 * n))).Found c base requests
      (run (initLists c base requests) pre).st.commits x t) res s → ListRely c base requests (2 * n) s t →
      After (fun x t => (requests (slot (2 * n))).Found c base requests
        (run (initLists c base requests) pre).st.commits x t) res t := by
    intro res s t hres hrel
    rw [hslot, hr] at hres ⊢
    rcases res with _ | (_ | y)
    · trivial
    · trivial
    · exact Includes.onward hres hrel
  have hsafe' := run_safe _ hsafe hlegal
  have hlegal' : (listProtocol c base requests).Legal (run (initLists c base requests) pre) post := legal_of_settles hpost
  have hfound := run_result _ _ hstable hsafe' hlegal' hcaller (caller_spec heven hidle) hx
  rw [hslot, hr] at hfound
  have hincludes : Includes c base requests r.params (run (initLists c base requests) pre).st.commits x
      (run (run (initLists c base requests) pre) post).st := hfound
  have hon : (run (initLists c base requests) pre).st.db.log <+: (run (run (initLists c base requests) pre) post).st.db.log :=
    run_induct (listProtocol c base requests) (Φ := fun t => (run (initLists c base requests) pre).st.db.log <+: t.db.log)
      hsafe' hlegal' (fun _ _ _ _ _ hact h => h.trans hact) List.prefix_rfl
  -- the log of then is the beginning of what the loader has seen first
  have hfirst : (run (initLists c base requests) pre).st.db.log <+: x.first.log :=
    List.prefix_of_prefix_length_le hon (hincludes.sound.past x.first List.mem_cons_self).log hincludes.since
  exact ⟨hincludes.sound, fun src hsrc => (hincludes.sound.first src hsrc).subset (hfirst.subset hw)⟩

/-- **Lists are fresh after a commit.** In a run in which the number settles, a list whose reading begins after a commit is
what the loader makes of states that include the write. -/
theorem lists_fresh (c : Collection S P V) (base : S) (requests : ℕ → ListRequest S P) (pre post : List Move)
    (hsettles : Along numberSettles (initLists c base requests) (pre ++ post)) {n w : ℕ} {r : ListRead P} {x : Loaded S V}
    (hr : requests n = .read r) (hlater : ∀ m ∈ pre, who m ≠ 2 * n) (hw : w ∈ (run (initLists c base requests) pre).st.db.log)
    (hx : (run (initLists c base requests) (pre ++ post)).answer (2 * n) = some (.ok (some x))) :
    x.value = c.view r.params (x.sources.map Snapshot.rows) ∧ ∀ src ∈ x.sources, src.rows = replay base requests src.log ∧
      src.log <+: (run (initLists c base requests) (pre ++ post)).st.db.log ∧ w ∈ src.log := by
  obtain ⟨hsound, hincludes⟩ := list_includes c base requests pre post hsettles hr hlater hw hx
  refine ⟨hsound.value, fun src hsrc => ?_⟩
  have hpast := hsound.past src hsrc
  exact ⟨hpast.rows, hpast.log, hincludes src hsrc⟩

omit [DecidableEq P] in
/-- what a write brings about and no write undoes holds of the rows that include it -/
theorem replay_keeps {Φ : S → Prop} {base : S} {requests : ℕ → ListRequest S P} {log : List ℕ} {w : ℕ} {write : ListWrite S}
    (hw : requests w = .write write) (hsets : ∀ rows, Φ (write.change rows))
    (hkeeps : ∀ m write', requests m = .write write' → ∀ rows, Φ rows → Φ (write'.change rows)) (hmem : w ∈ log) :
    Φ (replay base requests log) := by
  have hall : ∀ (log : List ℕ) (rows : S), Φ rows ∨ w ∈ log → Φ (replay rows requests log) := by
    intro log
    induction log with
    | nil => exact fun rows h => h.resolve_right (List.not_mem_nil)
    | cons m log ih =>
      intro rows h
      have hstep : Φ rows → Φ ((requests m).effect rows) := by
        intro hrows
        cases hm : requests m with
        | write write' => exact hkeeps m write' hm rows hrows
        | _ => exact hrows
      apply ih
      rcases h with hrows | hmem
      · exact .inl (hstep hrows)
      · rcases List.mem_cons.1 hmem with rfl | hmem
        · have heffect : Φ ((requests w).effect rows) := by
            rw [hw]
            exact hsets rows
          exact .inl heffect
        · exact .inr hmem
  exact hall log base (.inr hmem)

end LkmService.Cache
