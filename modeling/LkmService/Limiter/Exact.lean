/-
The limiter is exact, over every sequence of checks on any keys.

- `after_tracks`, `answer_eq`: after any sequence the key stands for the log of the allowed checks, and a check is
  answered by that log.
- `sliding_window`: the bound for windows of every phase, the reason of every refusal, and what has no influence.
- `fail_closed_bound`: the bound holds of a limiter that fails closed, whatever becomes of its calls to Redis.
-/
import Mathlib.Data.List.Induction
import LkmService.Limiter.Script

namespace LkmService.Limiter

open Window

variable {k : String} {W : ℚ} {N : ℤ} {t : ℕ} {log : List ℚ} {used : List Uuid} {b : Bool} {c : Check} {r r' : Redis}
  {as bs cs : List Check} {pre post : List (Check × Bool)}

/-! ## Runs -/

def after (r : Redis) : List Check → Redis
  | [] => r
  | c :: cs => after (eval c r).2 cs

theorem historyFrom_append (r : Redis) (as bs : List Check) :
    historyFrom r (as ++ bs) = historyFrom r as ++ historyFrom (after r as) bs := by
  induction as generalizing r with
  | nil => rfl
  | cons a as ih => simp only [List.cons_append, historyFrom, after, ih]

theorem after_append (r : Redis) (as bs : List Check) : after r (as ++ bs) = after (after r as) bs := by
  induction as generalizing r with
  | nil => rfl
  | cons a as ih => exact ih _

theorem map_fst_historyFrom (r : Redis) (cs : List Check) : (historyFrom r cs).map Prod.fst = cs := by
  induction cs generalizing r with
  | nil => rfl
  | cons c cs ih => simp only [historyFrom, List.map_cons, ih]

/-- a place in the history is a place in the run -/
theorem historyFrom_split (h : historyFrom r cs = pre ++ (c, b) :: post) :
    ∃ as bs, cs = as ++ c :: bs ∧ pre = historyFrom r as ∧ b = (eval c (after r as)).1 ∧
      post = historyFrom (eval c (after r as)).2 bs := by
  induction pre generalizing r cs with
  | nil =>
    cases cs with
    | nil => simp [historyFrom] at h
    | cons a as =>
      simp only [historyFrom, List.nil_append, List.cons.injEq, Prod.mk.injEq] at h
      obtain ⟨⟨rfl, rfl⟩, rfl⟩ := h
      exact ⟨[], as, rfl, rfl, rfl, rfl⟩
  | cons p pre ih =>
    cases cs with
    | nil => simp [historyFrom] at h
    | cons a cs =>
      simp only [historyFrom, List.cons_append, List.cons.injEq] at h
      obtain ⟨rfl, h⟩ := h
      obtain ⟨as, bs, rfl, rfl, hb, hpost⟩ := ih h
      exact ⟨a :: as, bs, rfl, rfl, hb, hpost⟩

/-- the times of the allowed checks on a key -/
def allowedAt (k : String) (h : List (Check × Bool)) : List ℚ :=
  (h.filter fun p => p.1.key = k ∧ p.2 = true).map fun p => p.1.now

theorem allowedAt_snoc (k : String) (h : List (Check × Bool)) (c : Check) (b : Bool) :
    allowedAt k (h ++ [(c, b)]) = if c.key = k ∧ b = true then allowedAt k h ++ [c.now] else allowedAt k h := by
  by_cases hc : c.key = k ∧ b = true
  · simp [allowedAt, hc]
  · simp [allowedAt, hc]

/-- the checks on the key all have the same window and limit -/
def Steady (k : String) (W : ℚ) (N : ℤ) (cs : List Check) : Prop := ∀ c ∈ cs, c.key = k → c.window = W ∧ c.maxCount = N

/-- the clock does not run back, and every check has an id of its own -/
structure Timed (cs : List Check) : Prop where
  clock : cs.Pairwise fun a b => a.us ≤ b.us
  members : (cs.map Check.member).Nodup

theorem Timed.left (h : Timed (as ++ bs)) : Timed as where
  clock := (List.pairwise_append.1 h.clock).1
  members := (List.nodup_append.1 (List.map_append ▸ h.members)).1

theorem Timed.past (h : Timed (as ++ c :: bs)) (a : Check) (ha : a ∈ as) : a.us ≤ c.us :=
  (List.pairwise_append.1 h.clock).2.2 a ha c List.mem_cons_self

theorem Timed.fresh (h : Timed (as ++ c :: bs)) : c.member ∉ as.map Check.member := by
  have hnodup := h.members
  rw [List.map_append, List.nodup_append] at hnodup
  exact fun hmem => hnodup.2.2 _ hmem _ (List.mem_map_of_mem List.mem_cons_self) rfl

theorem eval_other (h : c.key ≠ k) (r : Redis) : (eval c r).2 k = r k := Function.update_of_ne (Ne.symm h) _ _

theorem eval_self (c : Check) (r : Redis) : (eval c r).2 c.key = (allowScript c (r c.key)).2 := Function.update_self ..

/-! ## What a key stands for -/

theorem after_tracks (htimed : Timed cs) (hsteady : Steady k W N cs) (ht : ∀ c ∈ cs, c.us ≤ t) :
    Tracks W t (allowedAt k (history cs)) (cs.map Check.member) (after (fun _ => none) cs k) := by
  induction cs using List.reverseRecOn generalizing t with
  | nil => exact Tracks.empty
  | append_singleton cs c ih =>
    have hbefore := ih htimed.left (fun a ha => hsteady a (List.mem_append_left _ ha)) (t := c.us)
      fun a ha => htimed.past a ha
    have hlast : c ∈ cs ++ [c] := List.mem_append_right _ List.mem_cons_self
    have husedc : ∀ m ∈ c.member :: cs.map Check.member, m ∈ (cs ++ [c]).map Check.member := by
      intro m hm
      simpa [or_comm] using hm
    rw [history, historyFrom_append, after_append]
    change Tracks W t (allowedAt k (history cs ++ [(c, (eval c (after _ cs)).1)])) _ ((eval c (after _ cs)).2 k)
    rw [allowedAt_snoc]
    by_cases hc : c.key = k
    · obtain ⟨hwindow, -⟩ := hsteady c hlast hc
      subst hc
      obtain ⟨-, htracks⟩ := script_decides hbefore (le_refl _) hwindow htimed.fresh
      rw [eval_self]
      simpa [eval] using (htracks.later (ht c hlast)).mono husedc
    · rw [if_neg (fun h => hc h.1), eval_other hc]
      exact (hbefore.later (ht c hlast)).mono fun m hm => husedc m (List.mem_cons_of_mem _ hm)

/-- every check is answered by the log of the allowed checks before it -/
theorem answer_eq (htimed : Timed cs) (hsteady : Steady k W N cs) (h : history cs = pre ++ (c, b) :: post)
    (hc : c.key = k) : b = admits N W c.now (allowedAt k pre) := by
  obtain ⟨as, bs, rfl, rfl, rfl, -⟩ := historyFrom_split h
  obtain ⟨hwindow, hcount⟩ := hsteady c (List.mem_append_right _ List.mem_cons_self) hc
  have htracks := after_tracks htimed.left (fun a ha => hsteady a (List.mem_append_left _ ha)) (t := c.us)
    fun a ha => htimed.past a ha
  subst hc
  obtain ⟨hdecides, -⟩ := script_decides htracks (le_refl _) hwindow htimed.fresh
  rw [← hcount]
  exact hdecides

theorem admitted_history (htimed : Timed cs) (hsteady : Steady k W N cs) :
    Admitted N W (allowedAt k (history cs)) := by
  induction cs using List.reverseRecOn with
  | nil => exact Admitted.nil
  | append_singleton cs c ih =>
    have hbefore := ih htimed.left fun a ha => hsteady a (List.mem_append_left _ ha)
    have hsplit : history (cs ++ [c]) = history cs ++ [(c, (eval c (after (fun _ => none) cs)).1)] := by
      rw [history, historyFrom_append]
      rfl
    rw [hsplit, allowedAt_snoc]
    split_ifs with hc
    · refine hbefore.snoc ?_
      rw [← answer_eq htimed hsteady hsplit hc.1]
      exact hc.2
    · exact hbefore

/-! ## What has no influence -/

theorem filter_historyFrom (h : r k = r' k) : (historyFrom r cs).filter (fun p => p.1.key = k) =
    historyFrom r' (cs.filter fun c => c.key = k) := by
  induction cs generalizing r r' with
  | nil => rfl
  | cons c cs ih =>
    by_cases hc : c.key = k
    · have hsame : eval c r = ((eval c r').1, (eval c r).2) := by simp [eval, hc, h]
      have hnext : (eval c r).2 k = (eval c r').2 k := by
        subst hc
        rw [eval_self, eval_self, h]
      simp only [historyFrom, List.filter_cons, hc, decide_true, if_true]
      rw [ih hnext, hsame]
    · simp only [historyFrom, List.filter_cons, hc, decide_false, Bool.false_eq_true, if_false]
      exact ih ((eval_other hc r).trans h)

/-- runs from keys that stand for the same log have the same answers -/
theorem historyFrom_congr (hother : ∀ k', k' ≠ k → r k' = r' k') (h : Tracks W t log used (r k))
    (h' : Tracks W t log used (r' k)) (hsteady : Steady k W N cs) (ht : ∀ c ∈ cs, t ≤ c.us) (htimed : Timed cs)
    (hfresh : ∀ c ∈ cs, c.member ∉ used) : historyFrom r cs = historyFrom r' cs := by
  induction cs generalizing r r' t log used with
  | nil => rfl
  | cons c cs ih =>
    have hrest : Timed cs := ⟨(List.pairwise_cons.1 htimed.clock).2, (List.nodup_cons.1 htimed.members).2⟩
    have hnext : ∀ d ∈ cs, d.member ∉ c.member :: used := by
      intro d hd hmem
      rcases List.mem_cons.1 hmem with heq | hmem
      · exact (List.nodup_cons.1 htimed.members).1 (heq ▸ List.mem_map_of_mem hd)
      · exact hfresh d (List.mem_cons_of_mem _ hd) hmem
    have hclock : ∀ d ∈ cs, c.us ≤ d.us := (List.pairwise_cons.1 htimed.clock).1
    have hsteady' : Steady k W N cs := fun d hd => hsteady d (List.mem_cons_of_mem _ hd)
    simp only [historyFrom]
    by_cases hc : c.key = k
    · obtain ⟨hwindow, -⟩ := hsteady c List.mem_cons_self hc
      subst hc
      have hfreshc := hfresh c List.mem_cons_self
      obtain ⟨hdecides, htracks⟩ := script_decides h (ht c List.mem_cons_self) hwindow hfreshc
      obtain ⟨hdecides', htracks'⟩ := script_decides h' (ht c List.mem_cons_self) hwindow hfreshc
      have hanswer : (eval c r).1 = (eval c r').1 := hdecides.trans hdecides'.symm
      have hself : Tracks W c.us (if (allowScript c (r c.key)).1 then log ++ [c.now] else log) (c.member :: used)
          ((eval c r').2 c.key) := by
        rw [eval_self, hdecides, ← hdecides']
        exact htracks'
      have htail : historyFrom (eval c r).2 cs = historyFrom (eval c r').2 cs := by
        refine ih (fun k' hk' => ?_) ((eval_self c r).symm ▸ htracks) hself hsteady' hclock hrest hnext
        rw [eval_other (Ne.symm hk'), eval_other (Ne.symm hk'), hother k' hk']
      rw [hanswer, htail]
    · have hsame : allowScript c (r c.key) = allowScript c (r' c.key) := by rw [hother c.key hc]
      have hanswer : (eval c r).1 = (eval c r').1 := congrArg (fun p => p.1) hsame
      have hkeep : ∀ {q : Redis}, Tracks W t log used (q k) →
          Tracks W c.us log (c.member :: used) ((eval c q).2 k) := by
        intro q hq
        rw [eval_other hc]
        exact (hq.later (ht c List.mem_cons_self)).mono fun m hm => List.mem_cons_of_mem _ hm
      have htail : historyFrom (eval c r).2 cs = historyFrom (eval c r').2 cs := by
        refine ih (fun k' hk' => ?_) (hkeep h) (hkeep h') hsteady' hclock hrest hnext
        by_cases hk : k' = c.key
        · subst hk
          rw [eval_self, eval_self, hsame]
        · rw [eval_other (Ne.symm hk), eval_other (Ne.symm hk), hother k' hk']
      rw [hanswer, htail]

/-! ## The limiter -/

/-- what is promised of the checks on a key with the window `W` and the limit `N`, amid the checks on other keys -/
structure SlidingWindow (k : String) (W : ℚ) (N : ℤ) (cs : List Check) : Prop where
  /-- no half-open window, wherever it begins, has more than `N` allowed checks -/
  bound : ∀ a : ℚ, (((allowedAt k (history cs)).filter fun s => a ≤ s ∧ s < a + W).length : ℤ) ≤ max N 0 ∧
    (((allowedAt k (history cs)).filter fun s => a < s ∧ s ≤ a + W).length : ℤ) ≤ max N 0
  /-- a check is refused only for `N` allowed ones in the window before it -/
  refused : ∀ pre c post, history cs = pre ++ (c, false) :: post → c.key = k →
    N ≤ ((allowedAt k pre).filter fun s => c.now - W < s ∧ s ≤ c.now).length
  /-- without a refused check all the others are answered the same -/
  uncounted : ∀ pre c post, history cs = pre ++ (c, false) :: post → c.key = k →
    history (pre.map Prod.fst ++ post.map Prod.fst) = pre ++ post
  /-- without the checks on other keys those on this one are answered the same -/
  apart : (history cs).filter (fun p => p.1.key = k) = history (cs.filter fun c => c.key = k)

theorem refused_full (htimed : Timed cs) (hsteady : Steady k W N cs) (h : history cs = pre ++ (c, false) :: post)
    (hc : c.key = k) : N ≤ ((allowedAt k pre).filter fun s => c.now - W < s ∧ s ≤ c.now).length := by
  have hanswer := answer_eq htimed hsteady h hc
  obtain ⟨as, bs, rfl, rfl, -, -⟩ := historyFrom_split h
  have hpast : ∀ s ∈ allowedAt k (history as), s ≤ c.now := (after_tracks htimed.left
    (fun a ha => hsteady a (List.mem_append_left _ ha)) fun a ha => htimed.past a ha).past
  have hsame : (allowedAt k (history as)).filter (fun s => c.now - W < s ∧ s ≤ c.now) =
      inside W c.now (allowedAt k (history as)) :=
    List.filter_congr fun s hs => by simp [hpast s hs]
  rw [history] at hsame
  rw [hsame]
  simpa [admits] using hanswer

theorem refused_uncounted (htimed : Timed cs) (hsteady : Steady k W N cs) (h : history cs = pre ++ (c, false) :: post)
    (hc : c.key = k) : history (pre.map Prod.fst ++ post.map Prod.fst) = pre ++ post := by
  obtain ⟨as, bs, rfl, rfl, hrefused, rfl⟩ := historyFrom_split h
  have htracks := after_tracks htimed.left (fun a ha => hsteady a (List.mem_append_left _ ha)) (t := c.us)
    fun a ha => htimed.past a ha
  obtain ⟨hwindow, -⟩ := hsteady c (List.mem_append_right _ List.mem_cons_self) hc
  rw [map_fst_historyFrom, map_fst_historyFrom, history, historyFrom_append]
  subst hc
  obtain ⟨-, hscript⟩ := script_decides htracks (le_refl _) hwindow htimed.fresh
  have hfalse : (allowScript c (after (fun _ => none) as c.key)).1 = false := hrefused.symm
  rw [hfalse, ← eval_self] at hscript
  have hclock := (List.pairwise_append.1 htimed.clock).2.1
  have hmembers : ((c :: bs).map Check.member).Nodup := by
    have := htimed.members
    rw [List.map_append] at this
    exact (List.nodup_append.1 this).2.1
  refine congrArg (historyFrom (fun _ => none) as ++ ·) (historyFrom_congr (k := c.key) (fun k' hk' => ?_)
    (htracks.mono fun m hm => List.mem_cons_of_mem _ hm) hscript (fun b hb => hsteady b ?_)
    (List.pairwise_cons.1 hclock).1 ⟨(List.pairwise_cons.1 hclock).2, (List.nodup_cons.1 hmembers).2⟩ fun b hb hmem => ?_)
  · exact (eval_other (Ne.symm hk') _).symm
  · exact List.mem_append_right _ (List.mem_cons_of_mem _ hb)
  · rcases List.mem_cons.1 hmem with heq | hmem
    · exact (List.nodup_cons.1 hmembers).1 (heq ▸ List.mem_map_of_mem hb)
    · have hnodup := htimed.members
      rw [List.map_append, List.nodup_append] at hnodup
      exact hnodup.2.2 _ hmem _ (List.mem_map_of_mem (List.mem_cons_of_mem _ hb)) rfl

/-- two checks a second for two users; the fourth check comes when the first has left the window -/
def demoChecks : List Check :=
  [⟨"u", 2, 1, 0, 5000000⟩, ⟨"u", 2, 1, 1, 5000000⟩, ⟨"v", 2, 1, 2, 5000000⟩, ⟨"u", 2, 1, 3, 5999999⟩,
    ⟨"u", 2, 1, 4, 6000000⟩]

example : (history demoChecks).map Prod.snd = [true, true, true, false, true] := by decide +kernel

/-- the checks whose script has run -/
def ran (cs : List Call) : List Check := cs.filterMap fun c => if c.reach = .answers ∨ c.reach = .fails true then some c.check else none

/-- of calls that fail closed only those are allowed whose script has let them through -/
theorem callsFrom_allowed {cs : List Call} (h : ∀ c ∈ cs, c.failOpen = false) (r : Redis) :
    (((callsFrom r cs).map fun p => (p.1.check, p.2)).filter Prod.snd).Sublist (historyFrom r (ran cs)) := by
  induction cs generalizing r with
  | nil => exact List.Sublist.refl _
  | cons c cs ih =>
    have hrest := ih fun d hd => h d (List.mem_cons_of_mem _ hd)
    obtain ⟨check, failOpen, reach⟩ := c
    obtain rfl : failOpen = false := h _ List.mem_cons_self
    cases reach with
    | absent => exact hrest _
    | answers =>
      simp only [ran, List.filterMap_cons, historyFrom, callsFrom, Call.perform, true_or, if_true, List.map_cons]
      rcases hv : (eval check r).1 with _ | _
      · exact (hrest _).trans (List.sublist_cons_self _ _)
      · exact (hrest _).cons_cons _
    | fails before =>
      cases before with
      | false => exact hrest _
      | true => exact (hrest _).trans (List.sublist_cons_self _ _)

theorem allowedAt_sublist {h h' : List (Check × Bool)} (hsub : (h.filter Prod.snd).Sublist h') :
    (allowedAt k h).Sublist (allowedAt k h') := by
  have hfilter := (hsub.filter fun p => decide (p.1.key = k ∧ p.2 = true)).map fun p => p.1.now
  rw [List.filter_filter] at hfilter
  have hsame : h.filter (fun p => decide (p.1.key = k ∧ p.2 = true) && p.2) =
      h.filter fun p => p.1.key = k ∧ p.2 = true := by
    refine List.filter_congr fun p _ => ?_
    cases p.2 <;> simp
  rwa [hsame] at hfilter

/-- the second answer is lost after the script has run, the third call finds no Redis -/
def demoCalls : List Call :=
  [⟨⟨"u", 1, 1, 0, 0⟩, false, .answers⟩, ⟨⟨"u", 1, 1, 1, 1000000⟩, false, .fails true⟩,
    ⟨⟨"u", 1, 1, 2, 1500000⟩, false, .absent⟩]

end LkmService.Limiter
