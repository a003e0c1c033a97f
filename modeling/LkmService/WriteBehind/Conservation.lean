/-
Nothing is lost between a bump and a row.

- `unwritten`: what sessions have taken for a column of a row and not yet written to it.
- `Conserved`: the column, what is pending in Redis and what is unwritten are together the initial value, the bumps and
  what the floor at 0 has added.
- `discipline`, `call_good`: every bump and every flush keeps it, step by step.
- `counters_conserve`: so it holds after every schedule, and what a flush that has ended had taken is written.
- `floor_adds`: two flushes that write in the other order than they have taken leave one like too many.
-/
import Mathlib.Algebra.BigOperators.Group.List.Basic
import Mathlib.Tactic.Linarith
import LkmService.WriteBehind.Model

namespace LkmService.WriteBehind

open Session Sql Tbl

/-! ## Keys of columns -/

def Field.key (env : Text) (f : Field) (u : Uuid) : Text := makeKey env "count".toList [f.text, u.str]

variable {env : Text} {f f' : Field} {u u' : Uuid} {i j n : ℕ}

theorem Field.text_mem (f : Field) : f.text ∈ counterFields := by cases f <;> decide

theorem column_text (f : Field) : column f.text = some f := by cases f <;> decide

theorem text_injective (h : f.text = f'.text) : f = f' :=
  Option.some.inj ((column_text f).symm.trans (h ▸ column_text f'))

theorem counterKey_text : counterKey env f.text u = some (f.key env u) := by
  rw [counterKey, if_pos f.text_mem, Field.key]

theorem parse_key : parseCounterKey (f.key env u) = if ':' ∈ env then none else some (f.text, u) :=
  parse_counterKey counterKey_text

/-- no two columns share a key -/
theorem key_injective (h : f.key env u = f'.key env u') : f = f' ∧ u = u' := by
  have hplain : ∀ f : Field, escapeSeg f.text = f.text ∧ '|' ∉ f.text := by intro f; cases f <;> decide
  have hid : ∀ u : Uuid, escapeSeg u.str = u.str := fun u => escapeSeg_of_plain
    ⟨fun h => absurd (Uuid.mem_str h) (by decide), fun h => absurd (Uuid.mem_str h) (by decide)⟩
  have hpart : ∀ (f : Field) (u : Uuid), ['|'].intercalate ([f.text, u.str].map escapeSeg) = f.text ++ '|' :: u.str := by
    intro f u
    simp [List.intercalate, (hplain f).1, hid u]
  simp only [Field.key, makeKey, hpart, List.append_cancel_left_eq, List.append_assoc, List.cons_append, List.cons.injEq,
    true_and] at h
  have hpair := congrArg (partition '|') h
  rw [partition_append (hplain f).2, partition_append (hplain f').2] at hpair
  refine ⟨text_injective (Prod.mk.inj hpair).1, ?_⟩
  have hstr := congrArg Uuid.parse (Prod.mk.inj hpair).2
  rwa [Uuid.parse_str, Uuid.parse_str, Option.some.injEq] at hstr

/-! ## What is on its way -/

/-- the sum of the takings that meet the condition -/
def takings (p : ℕ × Text → Bool) (l : List (ℕ × Text × ℤ)) : ℤ := ((l.filter fun e => p (e.1, e.2.1)).map fun e => e.2.2).sum

theorem takings_cons (p : ℕ × Text → Bool) (k : Text) (v : ℤ) (l : List (ℕ × Text × ℤ)) :
    takings p ((i, k, v) :: l) = (if p (i, k) then v else 0) + takings p l := by
  unfold takings
  by_cases h : p (i, k) = true
  · rw [List.filter_cons_of_pos (by exact h), List.map_cons, List.sum_cons, if_pos h]
  · rw [List.filter_cons_of_neg (by exact h), if_neg h, zero_add]

theorem takings_split (p q : ℕ × Text → Bool) (l : List (ℕ × Text × ℤ)) :
    takings p l = takings (fun e => p e && q e) l + takings (fun e => p e && !q e) l := by
  induction l with
  | nil => rfl
  | cons e l ih =>
    obtain ⟨i, k, v⟩ := e
    rw [takings_cons, takings_cons, takings_cons, ih]
    cases p (i, k) <;> cases q (i, k) <;> simp <;> ring

/-- what session `i` has taken from a key -/
def takenBy (i : ℕ) (k : Text) (e : Redis) : ℤ := takings (fun x => decide (x.1 = i) && decide (x.2 = k)) e.taken

/-- what has been taken from the key of a column and not been written to the row -/
def unwritten (k : Text) (settled : List ℕ) (e : Redis) : ℤ :=
  takings (fun x => decide (x.2 = k) && decide (x.1 ∉ settled)) e.taken

/-- a session settles what it has taken -/
theorem unwritten_settle {k : Text} {settled : List ℕ} (e : Redis) (h : i ∉ settled) :
    unwritten k settled e = unwritten k (i :: settled) e + takenBy i k e := by
  rw [unwritten, takings_split _ (fun x => decide (x.1 ≠ i))]
  congr 1
  · unfold unwritten
    congr 1
    funext x
    by_cases hx : x.1 = i <;> simp [hx]
  · unfold takenBy
    congr 1
    funext x
    by_cases hx : x.1 = i <;> simp [hx, h]

/-! ## The invariant -/

abbrev State := Snap Row Redis

abbrev Held := Own Row Empty

/-- the columns and the initial values of them and of Redis together -/
structure Conserved (env : Text) (initial : Uuid → Field → ℤ) (σ : State) : Prop where
  total : ∀ (u : Uuid) r, σ.com items u.val = some r → ∀ f,
    r.count f + (σ.ext.val (f.key env u)).getD 0 + unwritten (f.key env u) (r.settled f) σ.ext =
      initial u f + (σ.ext.bumped (f.key env u) + r.bumped f) + r.floored f
  floored : ∀ n r, σ.com items n = some r → ∀ f, 0 ≤ r.floored f

/-- every key that is read as a counter's was made for that counter -/
def Canonical (env : Text) (e : Redis) : Prop :=
  ∀ k v, e.val k = some v → ∀ t u, parseCounterKey k = some (t, u) → ∃ f : Field, t = f.text ∧ k = f.key env u

structure Inv (env : Text) (initial : Uuid → Field → ℤ) (σ : State) : Prop where
  conserved : Conserved env initial σ
  canonical : Canonical env σ.ext

/-- no other session takes or settles in the name of `i`; rows stay -/
structure Rely (i : ℕ) (σ τ : State) : Prop where
  taken : ∀ k, takenBy i k τ.ext = takenBy i k σ.ext
  row : ∀ n r', τ.com items n = some r' → ∃ r, σ.com items n = some r ∧ ∀ f, i ∈ r'.settled f ↔ i ∈ r.settled f

theorem Rely.refl (i : ℕ) (σ : State) : Rely i σ σ := ⟨fun _ => rfl, fun _ r h => ⟨r, h, fun _ => Iff.rfl⟩⟩

theorem Rely.trans {σ τ υ : State} (h : Rely i σ τ) (h' : Rely i τ υ) : Rely i σ υ where
  taken k := (h'.taken k).trans (h.taken k)
  row n r' hr' := by
    obtain ⟨r₁, h₁, hs₁⟩ := h'.row n r' hr'
    obtain ⟨r, hr, hs⟩ := h.row n r₁ h₁
    exact ⟨r, hr, fun f => (hs₁ f).trans (hs f)⟩

def discipline (env : Text) (initial : Uuid → Field → ℤ) : Discipline Row Empty Fx Redis where
  inv := Inv env initial
  rely i _ := Rely i
  act _ _ _ := True
  ok _ _ _ _ := True
  rely_refl i _ := Rely.refl i
  rely_trans _ _ _ _ _ := Rely.trans
  act_refl _ _ _ := trivial
  grow_inv _ _ _ h := ⟨⟨h.conserved.total, h.conserved.floored⟩, h.canonical⟩
  grow_act _ _ _ _ _ := trivial
  grow_rely i _ σ _ _ _ := ⟨fun _ => rfl, fun _ r h => ⟨r, h, fun _ => Iff.rfl⟩⟩

instance (initial : Uuid → Field → ℤ) : Discipline.Lockless (discipline env initial) := ⟨fun _ _ _ => trivial⟩

variable {initial : Uuid → Field → ℤ} {o : Held} {σ τ : State} {k : Text} {v delta : ℤ}

/-! ## Commands of Redis -/

theorem takenBy_cons (e : Redis) (k' : Text) (w : Text → Option ℤ) :
    takenBy j k' { e with val := w, taken := (i, k, v) :: e.taken } = (if i = j ∧ k = k' then v else 0) + takenBy j k' e := by
  simp only [takenBy, takings_cons, Bool.and_eq_true, decide_eq_true_eq]

theorem unwritten_cons (e : Redis) (k' : Text) (w : Text → Option ℤ) (settled : List ℕ) :
    unwritten k' settled { e with val := w, taken := (i, k, v) :: e.taken } =
      (if k = k' ∧ i ∉ settled then v else 0) + unwritten k' settled e := by
  simp only [unwritten, takings_cons, Bool.and_eq_true, decide_eq_true_eq]

/-- a bump that goes to Redis -/
theorem incrby_good (h : Inv env initial σ) (i : ℕ) (o : Held) (f : Field) (u : Uuid) (delta : ℤ) :
    (discipline env initial).Good i o σ { σ with ext := (Redis.exec i (.incrby (f.key env u) delta) σ.ext).2 } := by
  refine ⟨⟨⟨?_, h.conserved.floored⟩, ?_⟩, trivial, fun j _ _ _ => ⟨fun _ => rfl, fun _ r hr => ⟨r, hr, fun _ => Iff.rfl⟩⟩⟩
  · intro u' r hr f'
    have htotal := h.conserved.total u' r hr f'
    by_cases hk : f'.key env u' = f.key env u
    · simp only [Redis.exec, hk, Function.update_self, Option.getD_some] at htotal ⊢
      change r.count f' + _ + unwritten (f.key env u) (r.settled f') σ.ext = _
      linarith
    · simp only [Redis.exec, Function.update_of_ne hk]
      exact htotal
  · intro k v hk t u' hparse
    by_cases heq : k = f.key env u
    · subst heq
      rw [parse_key] at hparse
      split_ifs at hparse
      obtain ⟨rfl, rfl⟩ := Prod.mk.inj (Option.some.inj hparse)
      exact ⟨f, rfl, rfl⟩
    · simp only [Redis.exec, Function.update_of_ne heq] at hk
      exact h.canonical k v hk t u' hparse

theorem getdel_some (e : Redis) (hv : e.val k = some v) : Redis.exec i (.getdel k) e =
    (some v, { e with val := Function.update e.val k none, taken := (i, k, v) :: e.taken }) := by
  simp only [Redis.exec, hv]

theorem getdel_none (e : Redis) (hv : e.val k = none) : Redis.exec i (.getdel k) e = (none, e) := by
  simp only [Redis.exec, hv]

/-- a session that has settled nothing takes what is pending -/
theorem getdel_good (h : Inv env initial σ) (hunsettled : ∀ n r, σ.com items n = some r → ∀ f, i ∉ r.settled f)
    (hv : σ.ext.val k = some v) (o : Held) : (discipline env initial).Good i o σ
      { σ with ext := { σ.ext with val := Function.update σ.ext.val k none, taken := (i, k, v) :: σ.ext.taken } } := by
  refine ⟨⟨⟨?_, h.conserved.floored⟩, ?_⟩, trivial, fun j hj _ _ => ⟨?_, fun _ r hr => ⟨r, hr, fun _ => Iff.rfl⟩⟩⟩
  · intro u r hr f
    have htotal := h.conserved.total u r hr f
    have hnot := hunsettled _ r hr f
    dsimp only at hr ⊢
    rw [unwritten_cons]
    by_cases hk : k = f.key env u
    · rw [← hk, hv, Option.getD_some] at htotal
      rw [← hk, Function.update_self, Option.getD_none, if_pos ⟨rfl, hnot⟩]
      linarith
    · rw [if_neg fun hh => hk hh.1, Function.update_of_ne (Ne.symm hk), zero_add]
      exact htotal
  · intro k' v' hk' t u hparse
    by_cases heq : k' = k
    · subst heq
      simp at hk'
    · dsimp only at hk'
      rw [Function.update_of_ne heq] at hk'
      exact h.canonical k' v' hk' t u hparse
  · intro k'
    rw [takenBy_cons, if_neg fun hh => hj hh.1.symm, zero_add]

/-! ## Dictionaries of differences -/

def value (k : Text × Uuid) (l : Drained) : ℤ := ((l.filter fun e => e.1 = k).map Prod.snd).sum

theorem value_cons (k : Text × Uuid) (e : (Text × Uuid) × ℤ) (l : Drained) :
    value k (e :: l) = (if e.1 = k then e.2 else 0) + value k l := by
  unfold value
  by_cases h : e.1 = k
  · rw [List.filter_cons_of_pos (by simpa using h), List.map_cons, List.sum_cons, if_pos h]
  · rw [List.filter_cons_of_neg (by simpa using h), if_neg h, zero_add]

theorem value_addTo (k k' : Text × Uuid) (delta : ℤ) (l : Drained) :
    value k' (addTo k delta l) = value k' l + if k = k' then delta else 0 := by
  induction l with
  | nil =>
    rw [addTo, value_cons]
    exact add_comm _ _
  | cons e l ih =>
    obtain ⟨k₀, v⟩ := e
    unfold addTo
    split_ifs with h₁ h₂ h₂
    · subst h₁ h₂
      rw [value_cons, value_cons, if_pos rfl, if_pos rfl]
      ring
    · subst h₁
      rw [value_cons, value_cons, if_neg h₂, if_neg h₂, add_zero]
    · rw [value_cons, value_cons, ih, if_pos h₂]
      ring
    · rw [value_cons, value_cons, ih, if_neg h₂]
      ring

theorem mem_keys_addTo {k k' : Text × Uuid} {l : Drained} (h : k' ∈ (addTo k delta l).map Prod.fst) :
    k' = k ∨ k' ∈ l.map Prod.fst := by
  induction l with
  | nil => exact .inl (by simpa [addTo] using h)
  | cons e l ih =>
    obtain ⟨k₀, v⟩ := e
    unfold addTo at h
    split_ifs at h with h₁
    · exact .inr h
    · rcases List.mem_cons.1 h with rfl | h
      · exact .inr List.mem_cons_self
      · exact (ih h).imp id fun hm => List.mem_cons_of_mem _ hm

theorem nodup_addTo {k : Text × Uuid} {l : Drained} (h : (l.map Prod.fst).Nodup) :
    ((addTo k delta l).map Prod.fst).Nodup := by
  induction l with
  | nil => simp [addTo]
  | cons e l ih =>
    obtain ⟨k₀, v⟩ := e
    obtain ⟨hk₀, hl⟩ := List.nodup_cons.1 h
    unfold addTo
    split_ifs with h₁
    · exact h
    · refine List.nodup_cons.2 ⟨?_, ih hl⟩
      intro hm
      rcases mem_keys_addTo hm with he | hm
      · exact h₁ he
      · exact hk₀ hm

/-- an entry of a dictionary is the value of its key -/
theorem value_of_mem {l : Drained} (h : (l.map Prod.fst).Nodup) {k : Text × Uuid} (hm : (k, v) ∈ l) : value k l = v := by
  induction l with
  | nil => cases hm
  | cons e l ih =>
    obtain ⟨hk₀, hl⟩ := List.nodup_cons.1 h
    have hrest : ∀ k', k' ∉ l.map Prod.fst → value k' l = 0 := by
      intro k' hk'
      have hnil : (l.filter fun e => decide (e.1 = k')) = [] := by
        rw [List.filter_eq_nil_iff]
        intro a ha he
        exact hk' (List.mem_map.2 ⟨a, ha, of_decide_eq_true he⟩)
      rw [value, hnil]
      rfl
    rw [value_cons]
    rcases List.mem_cons.1 hm with rfl | hm
    · rw [if_pos rfl, hrest k hk₀, add_zero]
    · have hne : e.1 ≠ k := fun he => hk₀ (List.mem_map.2 ⟨_, hm, he.symm⟩)
      rw [if_neg hne, ih hl hm, zero_add]

theorem mem_of_value {l : Drained} {k : Text × Uuid} (h : value k l ≠ 0) : ∃ e ∈ l, e.1 = k := by
  by_contra hno
  apply h
  have hnil : (l.filter fun e => decide (e.1 = k)) = [] := by
    rw [List.filter_eq_nil_iff]
    intro a ha he
    exact hno ⟨a, ha, of_decide_eq_true he⟩
  rw [value, hnil]
  rfl

/-! ## A flush takes -/

/-- the others leave alone what a session has taken, and settle nothing for it -/
structure Unsettled (env : Text) (i : ℕ) (l : Drained) (σ : State) : Prop where
  dict : ∀ (f : Field) u, takenBy i (f.key env u) σ.ext = value (f.text, u) l
  rows : ∀ n r, σ.com items n = some r → ∀ f, i ∉ r.settled f

theorem Unsettled.later {l : Drained} (h : Unsettled env i l σ) (hr : Rely i σ τ) : Unsettled env i l τ where
  dict f u := (hr.taken _).trans (h.dict f u)
  rows n r' hr' f hi := by
    obtain ⟨r, hrow, hs⟩ := hr.row n r' hr'
    exact h.rows n r hrow f ((hs f).1 hi)

/-- a dictionary of columns, each once -/
structure Columns (l : Drained) : Prop where
  nodup : (l.map Prod.fst).Nodup
  column : ∀ e ∈ l, ∃ f : Field, e.1.1 = f.text

theorem Columns.addTo {l : Drained} (h : Columns l) (f : Field) (u : Uuid) (delta : ℤ) :
    Columns (addTo (f.text, u) delta l) where
  nodup := nodup_addTo h.nodup
  column e he := by
    rcases mem_keys_addTo (List.mem_map.2 ⟨e, he, rfl⟩) with heq | hm
    · exact ⟨f, congrArg Prod.fst heq⟩
    · obtain ⟨e', he', heq⟩ := List.mem_map.1 hm
      obtain ⟨f', hf'⟩ := h.column e' he'
      exact ⟨f', by rw [← heq, hf']⟩

theorem wp_getdel {Q : Except Exn (Option ℤ) → Held → State → Prop}
    (hnone : ∀ τ, (discipline env initial).Later i o σ τ → τ.ext.val k = none → Q (.ok none) o τ)
    (hsome : ∀ τ v, (discipline env initial).Later i o σ τ → τ.ext.val k = some v →
      (∀ n r, τ.com items n = some r → ∀ f, i ∉ r.settled f) ∧ Q (.ok (some v)) o
        { τ with ext := { τ.ext with val := Function.update τ.ext.val k none, taken := (i, k, v) :: τ.ext.taken } }) :
    (discipline env initial).wp i (perform (.getdel k)) Q o σ := by
  refine Discipline.wp_perform ?_
  intro τ hl _
  change (discipline env initial).Good i o τ { τ with ext := (Redis.exec i (.getdel k) τ.ext).2 } ∧
    Q (.ok (Redis.exec i (.getdel k) τ.ext).1) o { τ with ext := (Redis.exec i (.getdel k) τ.ext).2 }
  rcases hv : τ.ext.val k with _ | v
  · rw [getdel_none _ hv]
    exact ⟨⟨hl.inv, trivial, fun j _ _ _ => Rely.refl j τ⟩, hnone τ hl hv⟩
  · rw [getdel_some _ hv]
    obtain ⟨hunsettled, hq⟩ := hsome τ v hl hv
    exact ⟨getdel_good hl.inv hunsettled hv o, hq⟩

/-- after the loop the dictionary is what the session has taken -/
theorem wp_drainKeys {keys : List Text} {l : Drained} (hcol : Columns l) (h : Unsettled env i l σ) :
    (discipline env initial).wp i (drainKeys keys l)
      (Discipline.Returns fun l' o' τ => o' = o ∧ Columns l' ∧ Unsettled env i l' τ) o σ := by
  induction keys generalizing l σ with
  | nil => exact Discipline.wp_return ⟨rfl, hcol, h⟩
  | cons key keys ih =>
    unfold drainKeys
    cases hparse : parseCounterKey key with
    | none => exact ih hcol h
    | some parsed =>
      obtain ⟨t, u⟩ := parsed
      refine Discipline.wp_bind (wp_getdel ?_ ?_)
      · intro τ hl _
        exact ih hcol (h.later hl.rely)
      · intro τ v hl hv
        have hlater := h.later hl.rely
        refine ⟨hlater.rows, ?_⟩
        obtain ⟨f, rfl, rfl⟩ := hl.inv.canonical key v hv t u hparse
        dsimp only
        have hcol' : Columns (if v = 0 then l else addTo (f.text, u) v l) := by
          split_ifs
          · exact hcol
          · exact hcol.addTo f u v
        refine ih hcol' ⟨?_, hlater.rows⟩
        intro f' u'
        have hvalue : value (f'.text, u') (if v = 0 then l else addTo (f.text, u) v l) =
            value (f'.text, u') l + if (f.text, u) = (f'.text, u') then v else 0 := by
          split_ifs with h₀ h₁ h₁
          · rw [h₀, add_zero]
          · rw [add_zero]
          · rw [value_addTo, if_pos h₁]
          · rw [value_addTo, if_neg h₁]
        rw [takenBy_cons, hlater.dict, hvalue, add_comm]
        congr 1
        by_cases heq : (f.text, u) = (f'.text, u')
        · obtain ⟨hf, hu⟩ := Prod.mk.inj heq
          rw [if_pos heq, text_injective hf, hu, if_pos ⟨rfl, rfl⟩]
        · rw [if_neg heq, if_neg]
          rintro ⟨-, hk⟩
          obtain ⟨rfl, rfl⟩ := key_injective hk
          exact heq rfl

/-! ## A flush writes -/

/-- the columns of a row that a session has written: it has settled what it has taken, or has only kept the balance -/
structure Balance (i : ℕ) (taken : ℤ) (f : Field) (r r' : ContentItem) : Prop where
  floored : r.floored f ≤ r'.floored f
  total : (r'.settled f = r.settled f ∧ r'.count f - r'.floored f - r'.bumped f = r.count f - r.floored f - r.bumped f) ∨
    (r'.settled f = i :: r.settled f ∧
      r'.count f - r'.floored f - r'.bumped f = r.count f - r.floored f - r.bumped f + taken)

theorem Balance.refl (taken : ℤ) (f : Field) (r : ContentItem) : Balance i taken f r r :=
  ⟨le_rfl, .inl ⟨rfl, rfl⟩⟩

/-- every row that the session owns is committed, and its columns are in balance -/
def Written (env : Text) (i : ℕ) (o : Held) (σ : State) : Prop :=
  ∀ n v, o.row items n = some v → ∃ (u : Uuid) (r r' : ContentItem), n = u.val ∧ v = some r' ∧
    σ.com items n = some r ∧ ∀ f, Balance i (takenBy i (f.key env u) σ.ext) f r r'

theorem Written.later (h : Written env i o σ) (hl : (discipline env initial).Later i o σ τ) : Written env i o τ := by
  intro n v hv
  obtain ⟨u, r, r', hn, hv', hr, hb⟩ := h n v hv
  refine ⟨u, r, r', hn, hv', (hl.com items n (by simp [hv])).trans hr, ?_⟩
  intro f
  rw [hl.rely.taken]
  exact hb f

/-- **The commit of a session.** -/
theorem Written.good (h : Written env i o σ) (hi : Inv env initial σ)
    (hunsettled : ∀ n r, σ.com items n = some r → ∀ f, i ∉ r.settled f) :
    (discipline env initial).Good i o σ (σ.merge o) := by
  refine ⟨⟨⟨?_, ?_⟩, hi.canonical⟩, trivial, ?_⟩
  · intro u r' hr' f
    rcases Snap.merge_cases hr' with ho | ⟨-, hc⟩
    · obtain ⟨u', r, r₁, hn, hv, hr, hb⟩ := h _ _ ho
      obtain rfl := Fin.ext hn
      obtain rfl := Option.some.inj hv
      have htotal := hi.conserved.total u r hr f
      change _ + (σ.ext.val _).getD 0 + unwritten _ _ σ.ext = _ + (σ.ext.bumped _ + _) + _
      rcases (hb f).total with ⟨hs, hc⟩ | ⟨hs, hc⟩
      · rw [hs]
        linarith
      · rw [unwritten_settle σ.ext (hunsettled _ r hr f)] at htotal
        rw [hs]
        linarith
    · exact hi.conserved.total u r' hc f
  · intro n r' hr' f
    rcases Snap.merge_cases hr' with ho | ⟨-, hc⟩
    · obtain ⟨u, r, r₁, rfl, hv, hr, hb⟩ := h _ _ ho
      obtain rfl := Option.some.inj hv
      exact le_trans (hi.conserved.floored _ r hr f) (hb f).floored
    · exact hi.conserved.floored n r' hc f
  · intro j hj _ _
    refine ⟨fun _ => rfl, ?_⟩
    intro n r' hr'
    rcases Snap.merge_cases hr' with ho | ⟨-, hc⟩
    · obtain ⟨u, r, r₁, rfl, hv, hr, hb⟩ := h _ _ ho
      obtain rfl := Option.some.inj hv
      refine ⟨r, hr, fun f => ?_⟩
      rcases (hb f).total with ⟨hs, -⟩ | ⟨hs, -⟩
      · rw [hs]
      · rw [hs, List.mem_cons]
        exact ⟨fun hh => hh.resolve_left hj, .inr⟩
    · exact ⟨r', hc, fun _ => Iff.rfl⟩

/-- a column is as it was -/
structure Same (f : Field) (r r' : ContentItem) : Prop where
  count : r'.count f = r.count f
  floored : r'.floored f = r.floored f
  bumped : r'.bumped f = r.bumped f
  settled : r'.settled f = r.settled f

/-- a flush before it writes the entries `rest` of its dictionary -/
structure Applying (env : Text) (i : ℕ) (l rest : Drained) (o : Held) (σ : State) : Prop where
  unsettled : Unsettled env i l σ
  written : Written env i o σ
  sub : ∀ e ∈ rest, e ∈ l
  nodup : (rest.map Prod.fst).Nodup
  todo : ∀ (f : Field) (u : Uuid), (f.text, u) ∈ rest.map Prod.fst → ∀ r', o.row items u.val = some (some r') →
    ∃ r, σ.com items u.val = some r ∧ Same f r r'
  settled : ∀ (f : Field) (u : Uuid), takenBy i (f.key env u) σ.ext ≠ 0 → (f.text, u) ∈ rest.map Prod.fst ∨
    σ.com items u.val = none ∨ ∃ r', o.row items u.val = some (some r') ∧ i ∈ r'.settled f

theorem Applying.later {l rest : Drained} (h : Applying env i l rest o σ)
    (hl : (discipline env initial).Later i o σ τ) : Applying env i l rest o τ where
  unsettled := h.unsettled.later hl.rely
  written := h.written.later hl
  sub := h.sub
  nodup := h.nodup
  todo f u hm r' hr' := by
    obtain ⟨r, hr, hs⟩ := h.todo f u hm r' hr'
    exact ⟨r, (hl.com items u.val (by simp [hr'])).trans hr, hs⟩
  settled f u ht := by
    rw [hl.rely.taken] at ht
    refine (h.settled f u ht).imp id (Or.imp ?_ id)
    intro hnone
    rcases hr : τ.com items u.val with _ | r'
    · rfl
    · obtain ⟨r, hr', -⟩ := hl.rely.row _ r' hr
      rw [hnone] at hr'
      cases hr'

theorem Applying.tail {l rest : Drained} {e : (Text × Uuid) × ℤ} (h : Applying env i l (e :: rest) o σ)
    (he : ∀ (f : Field) u, (f.text, u) = e.1 → takenBy i (f.key env u) σ.ext ≠ 0 →
      σ.com items u.val = none ∨ ∃ r', o.row items u.val = some (some r') ∧ i ∈ r'.settled f) :
    Applying env i l rest o σ where
  unsettled := h.unsettled
  written := h.written
  sub e' he' := h.sub e' (List.mem_cons_of_mem _ he')
  nodup := (List.nodup_cons.1 h.nodup).2
  todo f u hm := h.todo f u (List.mem_cons_of_mem _ hm)
  settled f u ht := by
    rcases h.settled f u ht with hm | hrow
    · rcases List.mem_cons.1 hm with heq | hm
      · exact .inr (he f u heq ht)
      · exact .inl hm
    · exact .inr hrow

theorem floorAdd_ge (c delta : ℤ) : 0 ≤ floorAdd c delta - (c + delta) := by
  unfold floorAdd
  omega

/-- the row of the first entry is written -/
theorem Applying.put {l rest : Drained} {r₀ : ContentItem} (h : Applying env i l (((f.text, u), delta) :: rest) o σ)
    (hcol : Columns l) (hv : o.view σ items u.val = some r₀) :
    Applying env i l rest (o.put items u.val (some
      { r₀.add f delta with settled := Function.update r₀.settled f (i :: r₀.settled f) })) σ := by
  obtain ⟨hnot, hnodup⟩ := List.nodup_cons.1 h.nodup
  have htaken : takenBy i (f.key env u) σ.ext = delta := by
    rw [h.unsettled.dict]
    exact value_of_mem hcol.nodup (h.sub _ List.mem_cons_self)
  -- the committed row, whose column is still as it was
  have hbase : ∃ r, σ.com items u.val = some r ∧ Same f r r₀ ∧
      ∀ f', Balance i (takenBy i (f'.key env u) σ.ext) f' r r₀ := by
    rcases Snap.merge_cases hv with ho | ⟨-, hc⟩
    · obtain ⟨u', r, r₁, hn, hr₁, hr, hb⟩ := h.written _ _ ho
      obtain rfl := Fin.ext hn
      obtain rfl := Option.some.inj hr₁
      obtain ⟨r₂, hr₂, hsame⟩ := h.todo f u List.mem_cons_self r₀ ho
      rw [hr] at hr₂
      obtain rfl := Option.some.inj hr₂
      exact ⟨r, hr, hsame, hb⟩
    · exact ⟨r₀, hc, ⟨rfl, rfl, rfl, rfl⟩, fun f' => Balance.refl _ f' r₀⟩
  obtain ⟨r, hr, hsame, hb⟩ := hbase
  refine ⟨h.unsettled, ?_, fun e he => h.sub e (List.mem_cons_of_mem _ he), hnodup, ?_, ?_⟩
  · intro n v hv'
    rw [Own.put_row_same] at hv'
    split_ifs at hv' with hn
    · subst hn
      refine ⟨u, r, _, rfl, (Option.some.inj hv').symm, hr, fun f' => ?_⟩
      by_cases hf : f' = f
      · subst hf
        refine ⟨?_, .inr ⟨?_, ?_⟩⟩
        · simp only [ContentItem.add, Function.update_self, hsame.floored]
          have := floorAdd_ge (r₀.count f') delta
          linarith
        · simp only [Function.update_self, hsame.settled]
        · simp only [ContentItem.add, Function.update_self, hsame.floored, hsame.bumped, hsame.count, htaken]
          ring
      · have hother : Balance i (takenBy i (f'.key env u) σ.ext) f' r r₀ := hb f'
        refine ⟨?_, ?_⟩
        · simp only [ContentItem.add, Function.update_of_ne hf]
          exact hother.floored
        · simp only [ContentItem.add, Function.update_of_ne hf]
          exact hother.total
    · exact h.written n v hv'
  · intro f' u' hm r' hr'
    rw [Own.put_row_same] at hr'
    split_ifs at hr' with hn
    · obtain rfl := Fin.ext hn
      obtain rfl := Option.some.inj (Option.some.inj hr')
      have hf : f' ≠ f := by
        rintro rfl
        exact hnot hm
      refine ⟨r, hr, ?_⟩
      have hold : Same f' r r₀ := by
        rcases Snap.merge_cases hv with ho | ⟨-, hc⟩
        · obtain ⟨r₂, hr₂, hs⟩ := h.todo f' u' (List.mem_cons_of_mem _ hm) r₀ ho
          rw [hr] at hr₂
          exact Option.some.inj hr₂ ▸ hs
        · obtain rfl := Option.some.inj (hr.symm.trans hc)
          exact ⟨rfl, rfl, rfl, rfl⟩
      refine ⟨?_, ?_, hold.bumped, ?_⟩
      · simp only [ContentItem.add, Function.update_of_ne hf, hold.count]
      · simp only [ContentItem.add, Function.update_of_ne hf, hold.floored]
      · simp only [Function.update_of_ne hf, hold.settled]
    · exact h.todo f' u' (List.mem_cons_of_mem _ hm) r' hr'
  · intro f' u' ht
    by_cases hhead : (f'.text, u') = (f.text, u)
    · obtain ⟨hf, rfl⟩ := Prod.mk.inj hhead
      obtain rfl := text_injective hf
      refine .inr (.inr ⟨_, Own.put_row_self _ _ _, ?_⟩)
      simp
    · rcases h.settled f' u' ht with hm | hnone | ⟨r', hr', hi'⟩
      · rcases List.mem_cons.1 hm with heq | hm
        · exact absurd heq hhead
        · exact .inl hm
      · exact .inr (.inl hnone)
      · refine .inr (.inr ?_)
        by_cases hu : u' = u
        · subst hu
          refine ⟨_, Own.put_row_self _ _ _, ?_⟩
          have hf : f' ≠ f := by
            rintro rfl
            exact hhead rfl
          rw [Own.view_of_row hr'] at hv
          obtain rfl := Option.some.inj hv
          simpa [Function.update_of_ne hf] using hi'
        · refine ⟨r', ?_, hi'⟩
          rw [Own.put_row_of_ne _ _ _ fun _ hn => hu (Fin.ext hn)]
          exact hr'

theorem wp_applyDrained {l rest : Drained} (hcol : Columns l) (h : Applying env i l rest o σ) :
    (discipline env initial).wp i (applyDrained i rest)
      (Discipline.Returns fun _ o' τ => Applying env i l [] o' τ) o σ := by
  induction rest generalizing o σ with
  | nil => exact Discipline.wp_return h
  | cons e rest ih =>
    obtain ⟨⟨t, u⟩, delta⟩ := e
    obtain ⟨f, hf⟩ := hcol.column _ (h.sub _ List.mem_cons_self)
    obtain rfl : t = f.text := hf
    have htaken : ∀ {υ : State}, Unsettled env i l υ → takenBy i (f.key env u) υ.ext = delta := by
      intro υ hu
      rw [hu.dict]
      exact value_of_mem hcol.nodup (h.sub _ List.mem_cons_self)
    unfold applyDrained
    rw [column_text]
    dsimp only
    split_ifs with hzero
    · refine ih (h.tail ?_)
      intro f' u' heq ht
      obtain ⟨hf', rfl⟩ := Prod.mk.inj heq
      obtain rfl := text_injective hf'
      exact absurd ((htaken h.unsettled).trans hzero) ht
    · refine Discipline.wp_bind (Discipline.wp_updateRow ?_ ?_)
      · intro τ hl hmiss
        have hl' := h.later hl
        refine Discipline.wp_seq (ih (hl'.tail ?_)) fun _ _ _ h' => Discipline.wp_return h'
        intro f' u' heq _
        obtain ⟨hf', rfl⟩ := Prod.mk.inj heq
        rcases hr : o.row items u'.val with _ | v
        · left
          rcases hc : τ.com items u'.val with _ | r
          · rfl
          · have := hmiss r ((Own.view_of_none hr).trans hc)
            cases this
        · obtain ⟨_, _, r', _, rfl, _⟩ := h.written _ _ hr
          have := hmiss r' (Own.view_of_row hr)
          cases this
      · intro τ r₀ hl hv _
        exact Discipline.wp_seq (ih ((h.later hl).put hcol hv)) fun _ _ _ h' => Discipline.wp_return h'

/-! ## Calls -/

/-- a transaction before its commit -/
structure Ready (env : Text) (i : ℕ) (o : Held) (σ : State) : Prop where
  written : Written env i o σ
  rows : ∀ n r, σ.com items n = some r → ∀ f, i ∉ r.settled f
  -- what has been taken is in the rows to be committed, unless there is no row
  settles : ∀ (f : Field) (u : Uuid), takenBy i (f.key env u) σ.ext ≠ 0 →
    σ.com items u.val = none ∨ ∃ r', o.row items u.val = some (some r') ∧ i ∈ r'.settled f

/-- what the session has taken is settled in every row there is -/
def Settled (env : Text) (i : ℕ) (σ : State) : Prop :=
  ∀ (f : Field) (u : Uuid) r, σ.com items u.val = some r → takenBy i (f.key env u) σ.ext = 0 ∨ i ∈ r.settled f

theorem Settled.later (h : Settled env i σ) (hr : Rely i σ τ) : Settled env i τ := by
  intro f u r' hr'
  obtain ⟨r, hrow, hs⟩ := hr.row _ r' hr'
  rw [hr.taken, hs f]
  exact h f u r hrow

theorem Ready.settled (h : Ready env i o σ) : Settled env i (σ.merge o) := by
  intro f u r hr
  by_cases ht : takenBy i (f.key env u) σ.ext = 0
  · exact .inl ht
  · right
    rcases h.settles f u ht with hnone | ⟨r', hr', hi⟩
    · rcases Snap.merge_cases hr with ho | ⟨-, hc⟩
      · obtain ⟨_, r₁, _, _, _, hr₁, _⟩ := h.written _ _ ho
        rw [hnone] at hr₁
        cases hr₁
      · rw [hnone] at hc
        cases hc
    · rw [Snap.merge_of_some hr'] at hr
      exact Option.some.inj hr ▸ hi

/-- a session that has taken nothing -/
theorem Ready.of_none (ho : ∀ n, o.row items n = none) (h : Unsettled env i [] σ) : Ready env i o σ where
  written n v hv := by
    rw [ho n] at hv
    cases hv
  rows := h.rows
  settles f u ht := absurd (h.dict f u) ht

theorem wp_flush {redis : Bool} {scanned : List Text} (h : Unsettled env i [] σ) :
    (discipline env initial).wp i (do
        let applied ← flushCounters i redis scanned
        pure (applied : ℤ))
      (Discipline.Returns fun _ o' τ => Ready env i o' τ ∧ ∃ l, Unsettled env i l τ) {} σ := by
  have hdrain : (discipline env initial).wp i (drainCounters redis scanned)
      (Discipline.Returns fun l o' τ => o' = {} ∧ Columns l ∧ Unsettled env i l τ) {} σ := by
    have hnil : Columns [] := ⟨List.nodup_nil, fun e he => by cases he⟩
    unfold drainCounters
    split_ifs
    · exact wp_drainKeys hnil h
    · exact Discipline.wp_return ⟨rfl, hnil, h⟩
  refine Discipline.wp_seq (P := fun _ o' τ => Ready env i o' τ ∧ ∃ l, Unsettled env i l τ) ?_
    fun _ _ _ h' => Discipline.wp_return h'
  unfold flushCounters
  refine Discipline.wp_seq hdrain ?_
  rintro l _ τ ⟨rfl, hcol, hl⟩
  refine Discipline.wp_returns_mono (wp_applyDrained hcol ⟨hl, ?_, fun _ he => he, hcol.nodup, ?_, ?_⟩) ?_
  · intro n v hv
    simp at hv
  · intro f u _ r' hr'
    simp at hr'
  · intro f u ht
    rw [hl.dict] at ht
    obtain ⟨e, he, heq⟩ := mem_of_value ht
    exact .inl (List.mem_map.2 ⟨e, he, heq⟩)
  · intro _ o' υ ha
    refine ⟨⟨ha.written, ha.unsettled.rows, fun f u ht => ?_⟩, l, ha.unsettled⟩
    rcases ha.settled f u ht with hm | hrest
    · cases hm
    · exact hrest

theorem keyOf_eq : keyOf env f u = pure (f.key env u) := by
  unfold keyOf
  rw [counterKey_text]

theorem wp_writeThroughBump (h : Unsettled env i [] σ) :
    (discipline env initial).wp i (writeThroughBump u f delta)
      (Discipline.Returns fun _ o' τ => Ready env i o' τ ∧ Unsettled env i [] τ) {} σ := by
  unfold writeThroughBump
  apply Discipline.wp_bind
  refine Discipline.wp_updateRow (fun _ _ _ => Discipline.wp_fail _) ?_
  intro τ r hl hv _
  have hl' := h.later hl.rely
  refine Discipline.wp_return ⟨⟨?_, hl'.rows, fun f' u' ht => absurd (hl'.dict f' u') ht⟩, hl'⟩
  intro n v hv'
  rw [Own.put_row_same] at hv'
  split_ifs at hv' with hn
  · subst hn
    refine ⟨u, r, _, rfl, (Option.some.inj hv').symm, hv, fun f' => ?_⟩
    by_cases hf : f' = f
    · subst hf
      refine ⟨?_, .inl ⟨rfl, ?_⟩⟩
      · simp only [ContentItem.add, Function.update_self]
        have := floorAdd_ge (r.count f') delta
        linarith
      · simp only [ContentItem.add, Function.update_self]
        ring
    · refine ⟨?_, .inl ⟨rfl, ?_⟩⟩
      · simp only [ContentItem.add, Function.update_of_ne hf, le_refl]
      · simp only [ContentItem.add, Function.update_of_ne hf]

theorem bumpCounter_eq (redis : Bool) : bumpCounter env redis f u delta =
    if redis then (do
      perform (.incrby (f.key env u) delta)
      pure true)
    else pure false := by
  unfold bumpCounter
  rw [keyOf_eq]
  rfl

theorem pendingDelta_eq (redis : Bool) : pendingDelta env redis f u =
    if redis then (do
      let raw ← perform (.get (f.key env u))
      pure (raw.getD 0))
    else pure 0 := by
  unfold pendingDelta
  rw [keyOf_eq]
  rfl

theorem wp_bumpCounter {redis : Bool} (h : Unsettled env i [] σ) :
    (discipline env initial).wp i (bumpCounter env redis f u delta)
      (Discipline.Returns fun _ o' τ => o' = {} ∧ Unsettled env i [] τ) {} σ := by
  rw [bumpCounter_eq]
  split_ifs
  · apply Discipline.wp_bind
    refine Discipline.wp_perform ?_
    intro τ hl _
    refine ⟨incrby_good hl.inv i _ f u delta, Discipline.wp_return ⟨rfl, ?_⟩⟩
    exact ⟨(h.later hl.rely).dict, (h.later hl.rely).rows⟩
  · exact Discipline.wp_return ⟨rfl, h⟩

theorem wp_pendingDelta {redis : Bool} (h : Unsettled env i [] σ) :
    (discipline env initial).wp i (pendingDelta env redis f u)
      (Discipline.Returns fun _ o' τ => o' = {} ∧ Unsettled env i [] τ) {} σ := by
  rw [pendingDelta_eq]
  split_ifs
  · apply Discipline.wp_bind
    refine Discipline.wp_perform ?_
    intro τ hl _
    exact ⟨⟨hl.inv, trivial, fun j _ _ _ => Rely.refl j τ⟩, Discipline.wp_return ⟨rfl, h.later hl.rely⟩⟩
  · exact Discipline.wp_return ⟨rfl, h⟩

theorem wp_bump {writeThrough redis : Bool} (h : Unsettled env i [] σ) :
    (discipline env initial).wp i (bumpContentCounter env writeThrough redis u f delta)
      (Discipline.Returns fun _ o' τ => Ready env i o' τ ∧ Unsettled env i [] τ) {} σ := by
  unfold bumpContentCounter
  split_ifs
  · exact wp_writeThroughBump h
  · refine Discipline.wp_bind (Discipline.wp_select ?_)
    intro τ hl l _ _
    dsimp only
    cases l.head? with
    | none => exact Discipline.wp_fail _
    | some q =>
      refine Discipline.wp_seq (wp_bumpCounter (h.later hl.rely)) ?_
      rintro b _ υ ⟨rfl, hu⟩
      cases b with
      | false => exact wp_writeThroughBump hu
      | true =>
        refine Discipline.wp_seq (wp_pendingDelta hu) ?_
        rintro _ _ φ ⟨rfl, hφ⟩
        exact Discipline.wp_return ⟨Ready.of_none (fun _ => rfl) hφ, hφ⟩

/-- the state of a transaction that the others have left alone -/
theorem Ready.later (h : Ready env i o σ) (hl : (discipline env initial).Later i o σ τ) : Ready env i o τ where
  written := h.written.later hl
  rows n r' hr' f hi := by
    obtain ⟨r, hr, hs⟩ := hl.rely.row n r' hr'
    exact h.rows n r hr f ((hs f).1 hi)
  settles f u ht := by
    rw [hl.rely.taken] at ht
    refine (h.settles f u ht).imp ?_ id
    intro hnone
    rcases hr : τ.com items u.val with _ | r'
    · rfl
    · obtain ⟨r, hr', -⟩ := hl.rely.row _ r' hr
      rw [hnone] at hr'
      cases hr'

/-- every call keeps the discipline, and has settled what it had taken when it ends normally -/
theorem call_good (call : Call) (h : Unsettled env i [] σ) : (discipline env initial).wp i (call.prog env i)
    (fun r o τ => o = {} ∧ ∀ a, r = .ok a → Settled env i τ) {} σ := by
  have hend : ∀ {p : Op ℤ}, (discipline env initial).wp i p (Discipline.Returns fun _ o' τ => Ready env i o' τ) {} σ →
      (discipline env initial).wp i (transaction p) (fun r o τ => o = {} ∧ ∀ a, r = .ok a → Settled env i τ) {} σ := by
    intro p hp
    refine Discipline.wp_transactionEnds hp ?_ fun _ _ => ⟨rfl, fun _ he => by cases he⟩
    intro a o' τ hready υ hl _
    have hlater := hready.later hl
    exact ⟨hlater.written.good hl.inv hlater.rows, rfl, fun _ _ => hlater.settled⟩
  cases call with
  | bump writeThrough redis itemId field delta =>
    exact hend (Discipline.wp_returns_mono (wp_bump h) fun _ _ _ hr => hr.1)
  | flush redis scanned => exact hend (Discipline.wp_returns_mono (wp_flush h) fun _ _ _ hr => hr.1)

/-! ## Whole runs -/

/-- a run begins: nothing has been taken, and every key of Redis was made for the counter that it is read as -/
structure Starts (env : Text) (d : Store) : Prop where
  own : ∀ i, d.own i = {}
  bumped : ∀ k, d.ext.bumped k = 0
  taken : d.ext.taken = []
  canonical : Canonical env d.ext
  rows : ∀ n r, d.snap.com items n = some r → ∀ f, r.bumped f = 0 ∧ r.floored f = 0 ∧ r.settled f = []

/-- the column together with what is pending in Redis -/
def initialOf (env : Text) (d : Store) (u : Uuid) (f : Field) : ℤ :=
  ((d.snap.com items u.val).map fun r => r.count f + (d.ext.val (f.key env u)).getD 0).getD 0

abbrev World := Session.World (Stmt Row Empty Fx) Store Exn ℤ

def init (env : Text) (d : Store) (calls : ℕ → Call) : World := start d fun i => (calls i).prog env i

variable {d : Store} {calls : ℕ → Call} {ms : List Move}

theorem inv_start (h : Starts env d) : Inv env (initialOf env d) d.snap := by
  refine ⟨⟨?_, ?_⟩, h.canonical⟩
  · intro u r hr f
    obtain ⟨hb, hf, -⟩ := h.rows _ r hr f
    have htaken : unwritten (f.key env u) (r.settled f) d.snap.ext = 0 := by
      change takings _ d.ext.taken = 0
      rw [h.taken]
      rfl
    rw [htaken, hb, hf, initialOf, hr, Option.map_some, Option.getD_some]
    change r.count f + (d.ext.val _).getD 0 + 0 = r.count f + (d.ext.val _).getD 0 + (d.ext.bumped _ + 0) + 0
    rw [h.bumped]
    ring
  · intro n r hr f
    rw [(h.rows n r hr f).2.1]

theorem unsettled_start (h : Starts env d) (i : ℕ) : Unsettled env i [] d.snap where
  dict f u := by
    change takings _ d.ext.taken = 0
    rw [h.taken]
    rfl
  rows n r hr f hi := by
    rw [(h.rows n r hr f).2.2] at hi
    cases hi

theorem safe_init (h : Starts env d) : (discipline env (initialOf env d)).protocol.Safe (init env d calls) := by
  refine Discipline.safe_start (inv_start h) (fun _ => trivial) h.own ?_
  intro i
  exact Discipline.wp_mono (call_good (calls i) (unsettled_start h i)) fun _ _ _ _ => trivial

/-- **Counters conserve.** After every schedule of bumps and flushes, lost connections included:
- each column, what is pending for it in Redis and what has been taken for it and not been written are together its
  initial value, the bumps and what the floor at 0 has added, which is never negative;
- a session that has ended normally has written all that it had taken;
- `parse_counter_key` inverts `counter_key` for every environment name without a colon. -/
theorem counters_conserve (env : Text) (d : Store) (calls : ℕ → Call) (ms : List Move) (h : Starts env d) :
    (∀ (u : Uuid) r, (run (init env d calls) ms).st.snap.com items u.val = some r → ∀ f,
      r.count f + ((run (init env d calls) ms).st.ext.val (f.key env u)).getD 0 +
          unwritten (f.key env u) (r.settled f) (run (init env d calls) ms).st.ext =
        initialOf env d u f + ((run (init env d calls) ms).st.ext.bumped (f.key env u) + r.bumped f) + r.floored f ∧
      0 ≤ r.floored f) ∧
    (∀ i a, (run (init env d calls) ms).answer i = some (.ok a) → Settled env i (run (init env d calls) ms).st.snap) ∧
    ∀ field u key, counterKey env field u = some key → ':' ∉ env → parseCounterKey key = some (field, u) := by
  have hlegal : (discipline env (initialOf env d)).protocol.Legal (init env d calls) ms :=
    Discipline.legal_of_ok (fun _ _ _ _ => trivial) (fun _ _ _ => trivial) _ _
  have hsafe : (discipline env (initialOf env d)).protocol.Safe (init env d calls) := safe_init h
  have hinv := ((discipline env (initialOf env d)).protocol.run_inv hsafe hlegal).1
  refine ⟨?_, ?_, ?_⟩
  · intro u r hr f
    exact ⟨hinv.conserved.total u r hr f, hinv.conserved.floored _ r hr f⟩
  · intro i a ha
    have hwp : (discipline env (initialOf env d)).protocol.wp i ((calls i).prog env i)
        (fun r e => Db.own i e = {} ∧ ∀ a, r = .ok a → Settled env i e.snap) d :=
      call_good (calls i) (unsettled_start h i) d (h.own i) rfl
    refine (discipline env (initialOf env d)).protocol.run_result i
      (Q := fun r e => ∀ a, r = .ok a → Settled env i e.snap) ?_ hsafe hlegal rfl ?_ ha a rfl
    · intro r e e' hq hrely a hr
      exact (hq a hr).later hrely.2.2
    · exact (discipline env (initialOf env d)).protocol.wp_mono i hwp fun _ _ hr => hr.2
  · intro field u key hkey henv
    rw [parse_counterKey hkey, if_neg henv]

/-! ## Runs on one item -/

def demoStore : Store where
  tab
    | .items => Table.ofList [{ count := fun _ => 0 }]
  ext := {}

def demoEnv : Text := "prod".toList

/-- a like and its removal, each followed by a flush -/
def demoCalls : ℕ → Call
  | 0 => .bump false true 0 .likeCount 1
  | 1 => .flush true [Field.likeCount.key demoEnv 0]
  | 2 => .bump false true 0 .likeCount (-1)
  | _ => .flush true [Field.likeCount.key demoEnv 0]

theorem starts_demoStore : Starts demoEnv demoStore where
  own i := Own.ext (funext fun t => by cases t; rfl) (funext fun k => nomatch k)
  bumped _ := rfl
  taken := rfl
  canonical k v hk := by cases hk
  rows n r hr f := by
    have hlt := demoStore.lt_of_com hr
    change n < 1 at hlt
    obtain rfl : n = 0 := by omega
    obtain rfl := Option.some.inj hr
    exact ⟨rfl, rfl, rfl⟩

/-- the like is taken by one flush and its removal by another; the state after each has written what it took -/
theorem counters_conserve_demo :
    ((run (init demoEnv demoStore demoCalls) (moves 0 4 ++ moves 1 1 ++ moves 2 4 ++ moves 1 2 ++ moves 3 3)).st.snap.com
        items 0).map (fun r => (r.count .likeCount, r.floored .likeCount)) = some (0, 0) ∧
    Settled demoEnv 3 (run (init demoEnv demoStore demoCalls)
      (moves 0 4 ++ moves 1 1 ++ moves 2 4 ++ moves 1 2 ++ moves 3 3)).st.snap :=
  ⟨by decide, (counters_conserve demoEnv demoStore demoCalls _ starts_demoStore).2.1 3 1 (by
    rw [World.answer_eq_some]
    rfl)⟩

/-- the removal is written before the like -/
def floorRun : List Move := moves 0 4 ++ moves 1 1 ++ moves 2 4 ++ moves 3 3 ++ moves 1 2

/-- a count of one stays, though the bumps are none together and nothing is on its way; and with a colon in the name of
the environment the key of a counter is not read -/
theorem floor_adds : Starts demoEnv demoStore ∧
    (∀ i ∈ [0, 1, 2, 3], Discipline.ended (run (init demoEnv demoStore demoCalls) floorRun) i = true) ∧
    (((run (init demoEnv demoStore demoCalls) floorRun).st.snap.com items 0).map fun r =>
      (r.count .likeCount, unwritten (Field.likeCount.key demoEnv 0) (r.settled .likeCount)
        (run (init demoEnv demoStore demoCalls) floorRun).st.ext)) = some (1, 0) ∧
    (run (init demoEnv demoStore demoCalls) floorRun).st.ext.val (Field.likeCount.key demoEnv 0) = none ∧
    (run (init demoEnv demoStore demoCalls) floorRun).st.ext.bumped (Field.likeCount.key demoEnv 0) = 0 ∧
    counterKey "prod:eu".toList Field.likeCount.text 0 = some (Field.likeCount.key "prod:eu".toList 0) ∧
    parseCounterKey (Field.likeCount.key "prod:eu".toList 0) = none :=
  ⟨starts_demoStore, by decide, by decide, by decide, by decide, counterKey_text,
    by decide⟩

end LkmService.WriteBehind
