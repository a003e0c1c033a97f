/-
One check against the log of all allowed checks.

- `Tracks`: the sorted set, trimmed and expired as it may be, agrees with the log on every window from now on.
- `Tracks.trim`, `Tracks.add`: what the commands of the script do to it.
- `script_decides`: the script lets a check through if and only if the log admits its time, and keeps track.
-/
import Mathlib.Algebra.Order.Field.Rat
import Mathlib.Tactic.Linarith
import LkmService.Lib.Window
import LkmService.Limiter.Model

namespace LkmService.Limiter

open Window

variable {W : ℚ} {t us : ℕ} {log : List ℚ} {used : List Uuid} {z : Option Zset} {c : Check}
  {r r' : Redis} {cs : List Check}

/-! ## The clock -/

theorem seconds_eq (us : ℕ) : seconds us = (us : ℚ) / 1000000 := by
  have h : ((1000000 * (us / 1000000) + us % 1000000 : ℕ) : ℚ) = us := by rw [Nat.div_add_mod]
  rw [seconds, ← h]
  push_cast
  ring

theorem seconds_nonneg (us : ℕ) : 0 ≤ seconds us := by
  rw [seconds_eq]
  positivity

theorem seconds_le (h : t ≤ us) : seconds t ≤ seconds us := by
  rw [seconds_eq, seconds_eq]
  have : (t : ℚ) ≤ us := by exact_mod_cast h
  linarith

/-- an expiry set with the ceiling of the window comes no earlier than the window ends -/
theorem seconds_expired (h : ((t / 1000 : ℕ) : ℤ) + ⌈W⌉ * 1000 < (us / 1000 : ℕ)) : seconds t ≤ seconds us - W := by
  have hus : (t : ℤ) + ⌈W⌉ * 1000000 ≤ us := by omega
  have hus' : (t : ℚ) + ⌈W⌉ * 1000000 ≤ us := by exact_mod_cast hus
  have hW : W ≤ ⌈W⌉ := Int.le_ceil W
  rw [seconds_eq, seconds_eq]
  linarith

/-! ## The sorted set and the log -/

def stored (z : Option Zset) : List ℚ := z.elim [] fun z => z.scores.map Prod.snd

/-- the sorted set of a key stands for the log of the allowed checks -/
structure Tracks (W : ℚ) (t : ℕ) (log : List ℚ) (used : List Uuid) (z : Option Zset) : Prop where
  values : inside W (seconds t) (stored z) = inside W (seconds t) log
  /-- the key expires when no window holds any of its times -/
  gone : ∀ us, live us z = none → inside W (seconds us) (stored z) = []
  past : ∀ s ∈ log, s ≤ seconds t
  nonneg : ∀ s ∈ stored z, 0 ≤ s
  members : ∀ y, z = some y → ∀ m ∈ y.scores, m.1 ∈ used

theorem Tracks.empty : Tracks W t [] used none where
  values := rfl
  gone _ _ := rfl
  past s hs := by simp at hs
  nonneg s hs := by simp [stored] at hs
  members y hy := by cases hy

theorem Tracks.later (h : Tracks W t log used z) (ht : t ≤ us) : Tracks W us log used z where
  values := by rw [← inside_inside (seconds_le ht), h.values, inside_inside (seconds_le ht)]
  gone := h.gone
  past s hs := (h.past s hs).trans (seconds_le ht)
  nonneg := h.nonneg
  members := h.members

theorem Tracks.mono {used' : List Uuid} (h : Tracks W t log used z) (hu : ∀ m ∈ used, m ∈ used') :
    Tracks W t log used' z :=
  { h with members := fun y hy m hm => hu _ (h.members y hy m hm) }

theorem live_cases (us : ℕ) (z : Option Zset) : live us z = z ∨ live us z = none := by
  cases z with
  | none => exact Or.inl rfl
  | some y =>
    by_cases hy : y.expireAt.all (fun e => decide (((us / 1000 : ℕ) : ℤ) ≤ e)) = true
    · exact Or.inl (by rw [live, Option.filter_some, if_pos hy])
    · exact Or.inr (by rw [live, Option.filter_some, if_neg hy])

/-- a key with the same expiry, or none, is gone no later -/
theorem live_none {y y' : Zset} (h : y'.expireAt = y.expireAt) (hgone : live us (some y') = none) :
    live us (some y) = none := by
  rw [live, Option.filter_eq_none_iff] at *
  intro a ha
  obtain rfl : y = a := by simpa using ha
  simpa [h] using hgone y' rfl

theorem stored_zremrangebyscore {b : ℚ} (h : ∀ s ∈ stored z, 0 ≤ s) :
    stored (zremrangebyscore 0 b z) = (stored z).filter fun s => b < s := by
  cases z with
  | none => rfl
  | some y =>
    have hkeep : y.scores.filter (fun m => decide (¬ (0 ≤ m.2 ∧ m.2 ≤ b))) = y.scores.filter fun m => b < m.2 := by
      refine List.filter_congr fun m hm => ?_
      have : 0 ≤ m.2 := h m.2 (List.mem_map_of_mem hm)
      simp [this]
    simp only [zremrangebyscore, Option.bind_some, hkeep]
    split_ifs with hnil
    · simp only [stored, Option.elim_none, Option.elim_some, List.filter_map]
      exact (congrArg (List.map Prod.snd) hnil).symm
    · simp only [stored, Option.elim_some, List.filter_map]
      rfl

theorem length_stored (z : Option Zset) : (stored z).length = zcard z := by
  cases z with
  | none => rfl
  | some y => simp [stored, zcard]

/-- what trimming leaves of a key -/
theorem zremrangebyscore_some {lo hi : ℚ} {y : Zset} (h : zremrangebyscore lo hi z = some y) :
    ∃ y', z = some y' ∧ y.expireAt = y'.expireAt ∧ ∀ m ∈ y.scores, m ∈ y'.scores := by
  cases z with
  | none => simp [zremrangebyscore] at h
  | some y' =>
    simp only [zremrangebyscore, Option.bind_some] at h
    split_ifs at h with hnil
    obtain rfl := Option.some.inj h
    exact ⟨y', rfl, rfl, fun m hm => List.mem_of_mem_filter hm⟩

/-- the key as the script finds it, after it has trimmed it -/
theorem Tracks.trim (h : Tracks W us log used z) :
    Tracks W us log used (zremrangebyscore 0 (seconds us - W) (live us z)) ∧
      stored (zremrangebyscore 0 (seconds us - W) (live us z)) = inside W (seconds us) log := by
  rcases live_cases us z with hlive | hlive
  · have hstored := stored_zremrangebyscore (b := seconds us - W) h.nonneg
    rw [hlive]
    refine ⟨⟨?_, fun us' hgone => ?_, h.past, fun s hs => ?_, fun y hy m hm => ?_⟩, hstored.trans h.values⟩
    · rw [hstored]
      exact (inside_inside (le_refl _) _).trans h.values
    · rcases htrim : zremrangebyscore 0 (seconds us - W) z with _ | y
      · rfl
      · obtain ⟨y', rfl, hexpire, hsub⟩ := zremrangebyscore_some htrim
        have hnone := h.gone us' (live_none hexpire (htrim ▸ hgone))
        refine List.filter_eq_nil_iff.2 fun s hs => ?_
        obtain ⟨m, hm, rfl⟩ := List.mem_map.1 hs
        exact List.filter_eq_nil_iff.1 hnone _ (List.mem_map_of_mem (hsub m hm))
    · rw [hstored] at hs
      exact h.nonneg s (List.mem_of_mem_filter hs)
    · obtain ⟨y', rfl, -, hsub⟩ := zremrangebyscore_some hy
      exact h.members y' rfl m (hsub m hm)
  · have hlog : inside W (seconds us) log = [] := h.values.symm.trans (h.gone us hlive)
    rw [hlive]
    refine ⟨⟨hlog.symm, fun _ _ => rfl, h.past, fun s hs => ?_, fun y hy => by cases hy⟩, hlog.symm⟩
    simp [zremrangebyscore, stored] at hs

/-- the members and scores of a key to which a new member is added -/
theorem zadd_scores {m : Uuid} {q : ℚ} (h : ∀ y, z = some y → ∀ p ∈ y.scores, p.1 ∈ used) (hm : m ∉ used) :
    (zadd q m z).scores.map Prod.snd = stored z ++ [q] ∧ ∀ p ∈ (zadd q m z).scores, p.1 ∈ m :: used := by
  cases z with
  | none => simp [zadd, stored]
  | some y =>
    have hfresh : y.scores.filter (fun p => p.1 ≠ m) = y.scores := by
      refine List.filter_eq_self.2 fun p hp => ?_
      simp only [decide_eq_true_eq]
      rintro rfl
      exact hm (h y rfl p hp)
    rw [zadd, hfresh]
    refine ⟨by simp [stored], fun p hp => ?_⟩
    rcases List.mem_append.1 hp with hp | hp
    · exact List.mem_cons_of_mem _ (h y rfl p hp)
    · rw [List.mem_singleton.1 hp]
      exact List.mem_cons_self

/-- the key after an allowed check -/
theorem Tracks.add {m : Uuid} (h : Tracks W us log used z) (hstored : stored z = inside W (seconds us) log)
    (hm : m ∉ used) : Tracks W us (log ++ [seconds us]) (m :: used) (expire us ⌈W⌉ (zadd (seconds us) m z)) := by
  obtain ⟨hscores, hmembers⟩ := zadd_scores (q := seconds us) h.members hm
  rw [hstored] at hscores
  have hpast : ∀ s ∈ log ++ [seconds us], s ≤ seconds us := by
    intro s hs
    rcases List.mem_append.1 hs with hs | hs
    · exact h.past s hs
    · exact le_of_eq (List.mem_singleton.1 hs)
  have hkept : ∀ s ∈ inside W (seconds us) log ++ [seconds us], s ∈ stored z ∨ s = seconds us := by
    intro s hs
    rw [hstored]
    exact (List.mem_append.1 hs).imp_right List.mem_singleton.1
  have hstored' : ∀ e, stored (some { zadd (seconds us) m z with expireAt := e }) =
      inside W (seconds us) log ++ [seconds us] := fun e => hscores
  unfold expire
  split_ifs with hceil
  · -- an empty window: nothing is stored and nothing counts
    have hW : W ≤ 0 := (Int.le_ceil W).trans (by exact_mod_cast hceil)
    refine ⟨?_, fun _ _ => rfl, hpast, fun s hs => by simp [stored] at hs, fun y hy => by cases hy⟩
    symm
    refine List.filter_eq_nil_iff.2 fun s hs => ?_
    have := hpast s hs
    simp only [decide_eq_true_eq, not_lt]
    linarith
  · refine ⟨?_, fun us' hgone => ?_, hpast, fun s hs => ?_, fun y hy p hp => ?_⟩
    · calc inside W (seconds us) ((zadd (seconds us) m z).scores.map Prod.snd)
          = inside W (seconds us) (inside W (seconds us) log) ++ inside W (seconds us) [seconds us] := by
            rw [hscores, inside_append]
        _ = inside W (seconds us) (log ++ [seconds us]) := by rw [inside_inside (le_refl _), inside_append]
    · have hexpired : ((us / 1000 : ℕ) : ℤ) + ⌈W⌉ * 1000 < (us' / 1000 : ℕ) := by
        rw [live, Option.filter_some] at hgone
        simpa using hgone
      refine List.filter_eq_nil_iff.2 fun s hs => ?_
      have hle : s ≤ seconds us := by
        rw [hstored'] at hs
        rcases List.mem_append.1 hs with hs | hs
        · exact h.past s (List.mem_of_mem_filter hs)
        · exact le_of_eq (List.mem_singleton.1 hs)
      simp only [decide_eq_true_eq, not_lt]
      exact hle.trans (seconds_expired hexpired)
    · rw [hstored'] at hs
      rcases hkept s hs with hs | rfl
      · exact h.nonneg s hs
      · exact seconds_nonneg _
    · obtain rfl := Option.some.inj hy
      exact hmembers p hp

/-- **One check.** The script lets a check through if and only if the log admits its time. -/
theorem script_decides (h : Tracks W t log used z) (ht : t ≤ c.us) (hW : c.window = W) (hm : c.member ∉ used) :
    (allowScript c z).1 = admits c.maxCount W c.now log ∧
      Tracks W c.us (if (allowScript c z).1 then log ++ [c.now] else log) (c.member :: used) (allowScript c z).2 := by
  obtain ⟨htrim, hstored⟩ := (h.later ht).trim
  have hcard := length_stored (zremrangebyscore 0 (seconds c.us - W) (live c.us z))
  rw [hstored] at hcard
  simp only [allowScript, Check.now, hW, admits, hcard]
  by_cases hfull : c.maxCount ≤ zcard (zremrangebyscore 0 (seconds c.us - W) (live c.us z))
  · rw [if_pos hfull]
    refine ⟨by simpa using hfull, ?_⟩
    exact htrim.mono fun m hm => List.mem_cons_of_mem _ hm
  · rw [if_neg hfull]
    exact ⟨by simpa using hfull, htrim.add hstored hm⟩

end LkmService.Limiter
