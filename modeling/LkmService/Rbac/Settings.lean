/-
The last setting decides.

- `Says σ q e`: the committed row of the pair `q` is enabled or not, as `e` says.
- `Carries`, `Seeded`: what a setting and a seed have come to when they commit.
- `says_run`: after any run the rows say what the committed requests, in the order of their commits, make of the table.
- `permissions_follow`: a role has a permission if the last setting of the pair says so, or by default after a seed; a
  setting reports a change when it makes one; the decision, the menu and the closure of the roles agree.
-/
import LkmService.Rbac.Model
import LkmService.Lib.Count
import Mathlib.Data.List.TakeWhile

namespace LkmService.Rbac

open Session Sql Sql.Discipline Auth Tbl

abbrev State := Snap Row Unit

abbrev Held := Own Row Pair

variable {i : ℕ} {o o' : Held} {σ τ : State} {q : Pair} {v : Bool}

/-! ## What every session keeps -/

def index : (t : Tbl) → Row t → Option Pair
  | .rolePermissions, r => some r.pair

/-- every row stays, with its pair -/
def Kept (σ τ : State) : Prop :=
  ∀ n r, σ.com rolePermissions n = some r → ∃ r', τ.com rolePermissions n = some r' ∧ r'.pair = r.pair

theorem Kept.refl (σ : State) : Kept σ σ := fun _ r h => ⟨r, h, rfl⟩

theorem Kept.trans {υ : State} (h : Kept σ τ) (h' : Kept τ υ) : Kept σ υ := by
  intro n r hr
  obtain ⟨r', hr', hp⟩ := h n r hr
  obtain ⟨r'', hr'', hp'⟩ := h' n r' hr'
  exact ⟨r'', hr'', hp'.trans hp⟩

def discipline : Discipline Row Pair (NoFx Unit) Unit where
  inv := Unique index
  rely _ o σ τ := Apart index o σ τ ∧ Kept σ τ ∧ (Unique index σ → Unique index τ)
  act _ := Kept
  ok _ x _ _ := nomatch x
  rely_refl _ o σ := ⟨Apart.refl o σ, Kept.refl σ, id⟩
  rely_trans _ _ _ _ _ h h' := ⟨h.1.trans h'.1, h.2.1.trans h'.2.1, fun hu => h'.2.2 (h.2.2 hu)⟩
  act_refl _ σ _ := Kept.refl σ
  grow_inv _ _ _ h := h
  grow_act _ σ _ _ _ := Kept.refl σ
  grow_rely _ o σ _ _ _ := ⟨Apart.refl o σ, Kept.refl σ, id⟩

instance : Lockless discipline := ⟨fun _ _ _ => trivial⟩

/-- the session has written rows over committed ones of the same pair, or new ones -/
theorem good_of (he : Entries index o σ)
    (hrows : ∀ n w, o.row rolePermissions n = some w → ∃ r', w = some r' ∧
      ∀ r, σ.com rolePermissions n = some r → r'.pair = r.pair) : discipline.Good i o σ (σ.merge o) := by
  have hkept : Kept σ (σ.merge o) := by
    intro n r hr
    rcases hrow : o.row rolePermissions n with _ | w
    · exact ⟨r, (Snap.merge_of_none hrow σ).trans hr, rfl⟩
    · obtain ⟨r', rfl, hpair⟩ := hrows n w hrow
      exact ⟨r', Snap.merge_of_some hrow σ, hpair r hr⟩
  exact ⟨he.merge, hkept, fun j hj o' ho => ⟨he.apart ho, hkept, fun _ => he.merge⟩⟩

/-! ## Inserts -/

theorem Entries.step (h : Entries index o σ) (hl : discipline.Later i o σ τ) : Entries index o τ :=
  h.later hl.inv hl.com hl.rely.1

/-- a row of the pair is in the way, or it is added -/
theorem wp_insertRow {r : RolePermission} {P : Option ℕ → Held → State → Prop}
    (hmiss : ∀ τ, discipline.Later i o σ τ → ∀ m, Filed index (τ.merge o) rolePermissions m r.pair → P none o τ)
    (hhit : ∀ τ, discipline.Later i o σ τ → (∀ m r', o.view τ rolePermissions m = some r' → r'.pair ≠ r.pair) →
      P (some (τ.next rolePermissions)) ((o.put rolePermissions (τ.next rolePermissions) (some r)).take r.pair)
        (τ.bump rolePermissions (τ.next rolePermissions))) :
    discipline.wp i (insertRow r) (Returns P) o σ := by
  unfold insertRow
  refine wp_insertUnique ?_ ?_
  · intro τ m r' hl hv hclash
    exact hmiss τ hl m ⟨r', hv, congrArg some (of_decide_eq_true hclash)⟩
  · intro τ hl hno
    exact hhit τ hl fun m r' hv => of_decide_eq_false (hno m r' hv)

/-! ## Settings -/

/-- a session has written the row of the pair, and no other; `b` is whether that changes anything -/
structure Carries (q : Pair) (v b : Bool) (o : Held) (σ : State) : Prop where
  inv : Unique index σ
  entries : Entries index o σ
  row : ∃ n, o.row rolePermissions n = some (some ⟨q.1, q.2, v⟩) ∧ (∀ m, m ≠ n → o.row rolePermissions m = none) ∧
    ((b = true ∧ σ.com rolePermissions n = none ∧ o.key q ∧ ∀ m, ¬ Filed index σ rolePermissions m q) ∨
      ∃ r, σ.com rolePermissions n = some r ∧ r.pair = q ∧ (b = true ↔ r.enabled ≠ v))

theorem Carries.keep {b : Bool} (h : Carries q v b o σ) (hu : Unique index τ) (ha : Apart index o σ τ)
    (hcom : ∀ t n, o.row t n ≠ none → τ.com t n = σ.com t n) : Carries q v b o τ := by
  obtain ⟨n, hrow, hother, hcase⟩ := h.row
  have hsame : τ.com rolePermissions n = σ.com rolePermissions n := hcom rolePermissions n (by simp [hrow])
  refine ⟨hu, h.entries.later hu hcom ha, n, hrow, hother, ?_⟩
  rcases hcase with ⟨hb, hnone, hkey, hno⟩ | ⟨r, hr, hpair, hb⟩
  · exact .inl ⟨hb, hsame.trans hnone, hkey, fun m hm => hno m (ha q hkey rolePermissions m hm)⟩
  · exact .inr ⟨r, hsame.trans hr, hpair, hb⟩

theorem Carries.good {b : Bool} (h : Carries q v b o σ) : discipline.Good i o σ (σ.merge o) := by
  obtain ⟨n, hrow, hother, hcase⟩ := h.row
  refine good_of h.entries ?_
  intro m w hw
  by_cases hm : m = n
  · subst hm
    obtain rfl : some (⟨q.1, q.2, v⟩ : RolePermission) = w := Option.some.inj (hrow.symm.trans hw)
    refine ⟨_, rfl, fun r hr => ?_⟩
    rcases hcase with ⟨-, hnone, -⟩ | ⟨r', hr', hpair, -⟩
    · rw [hnone] at hr
      cases hr
    · obtain rfl : r' = r := Option.some.inj (hr'.symm.trans hr)
      exact hpair.symm
  · rw [hother m hm] at hw
    cases hw

theorem updateConflict_spec {n : ℕ} {r : RolePermission}
    (hrow : σ.com rolePermissions n = some r) (hpair : r.pair = q) :
    discipline.wp i (updateConflict n v) (Returns fun b o' τ => Carries q v b o' τ) {} σ := by
  unfold updateConflict
  refine wp_bind (wp_lockRow ?_ ?_)
  · intro τ _ _
    exact wp_fail _
  intro τ r' hl hv _
  have hcom : τ.com rolePermissions n = some r' := hv
  obtain ⟨r'', hr'', hp⟩ := hl.rely.2.1 n r hrow
  obtain rfl : r'' = r' := Option.some.inj (hr''.symm.trans hcom)
  have hpair' : r''.pair = q := hp.trans hpair
  have hentries : Entries index (({} : Held).put rolePermissions n (some r'')) τ :=
    (Entries.empty hl.inv).update hv rfl
  have hrow' : r'' = ⟨q.1, q.2, r''.enabled⟩ := by rw [← hpair']; rfl
  dsimp only
  split
  next hsame =>
    refine wp_return ⟨hl.inv, hentries, n, ?_, fun m hm => ?_, .inr ⟨r'', hcom, hpair', by simp [hsame]⟩⟩
    · rw [Own.put_row_self, ← hsame, ← hrow']
    · exact Own.put_row_of_ne _ _ _ fun _ => hm
  next hdiff =>
    refine wp_bind (wp_updateOwned rfl (Own.put_row_self ..) ?_)
    intro υ hl'
    have hcom' : υ.com rolePermissions n = some r'' := (hl'.com_eq (Own.put_row_self ..)).trans hcom
    have hsight : Entries index ((({} : Held).put rolePermissions n (some r'')).put rolePermissions n (some { r'' with enabled := v })) υ :=
      (Entries.step hentries hl').update (Own.view_of_row (Own.put_row_self ..)) rfl
    refine wp_return ⟨hl'.inv, hsight, n, ?_, fun m hm => ?_, .inr ⟨r'', hcom', hpair', by simpa using hdiff⟩⟩
    · rw [Own.put_row_self, ← hpair']
      rfl
    · rw [Own.put_row_of_ne _ _ _ fun _ => hm, Own.put_row_of_ne _ _ _ fun _ => hm]

theorem setPermission_spec {roleName permission : String} :
    discipline.wp i (setPermission roleName permission v)
      (Returns fun b o' τ => Carries (roleName, permission) v b o' τ) {} σ := by
  unfold setPermission
  split
  · exact wp_fail _
  refine wp_seq (P := fun a o' τ => (a ≠ none → Carries (roleName, permission) v true o' τ) ∧ (a = none → o' = {}))
    (wp_insertRow ?_ ?_) ?_
  · intro τ _ m _
    exact ⟨fun h => absurd rfl h, fun _ => rfl⟩
  · intro τ hl hno
    have hfresh := hl.fresh rolePermissions (τ.next rolePermissions) le_rfl
    have hno' : ∀ m r', ({} : Held).view τ rolePermissions m = some r' → index rolePermissions r' ≠ some (roleName, permission) :=
      fun m r' hv heq => hno m r' hv (Option.some.inj heq)
    refine ⟨fun _ => ?_, fun h => by cases h⟩
    refine ⟨hl.inv, (Entries.empty hl.inv).insert rfl hno' _, τ.next rolePermissions, ?_, fun m hm => ?_, .inl ⟨rfl, hfresh.1, .inl rfl, ?_⟩⟩
    · rw [Own.take_row, Own.put_row_self]
    · rw [Own.take_row, Own.put_row_of_ne _ _ _ fun _ => hm]
    · rintro m ⟨r', hr', heq⟩
      exact hno' m r' hr' heq
  rintro a o τ ⟨hsome, hnone⟩
  cases a with
  | some n => exact wp_return (hsome (Option.some_ne_none n))
  | none =>
    obtain rfl := hnone rfl
    refine wp_bind (wp_select ?_)
    intro υ hl l hmem _
    dsimp only
    rcases hhead : l.head? with _ | ⟨n, r⟩
    · exact wp_fail _
    · obtain ⟨hv, hp⟩ := (hmem n r).1 (List.mem_of_head? hhead)
      exact updateConflict_spec hv (of_decide_eq_true hp)

/-! ## Seeds -/

/-- a session has added enabled rows of defaults that had none, and the pairs that it is through with have one -/
structure Seeding (through : List Pair) (o : Held) (σ : State) : Prop where
  inv : Unique index σ
  entries : Entries index o σ
  rows : ∀ m w, o.row rolePermissions m = some w → ∃ r, w = some r ∧ r.enabled = true ∧ r.pair ∈ seedRows ∧
    σ.com rolePermissions m = none ∧ o.key r.pair ∧ ∀ k, ¬ Filed index σ rolePermissions k r.pair
  through : ∀ q ∈ through, ∃ m, Filed index (σ.merge o) rolePermissions m q

variable {through : List Pair}

theorem Seeding.keep (h : Seeding through o σ) (hu : Unique index τ) (ha : Apart index o σ τ) (hk : Kept σ τ)
    (hcom : ∀ t n, o.row t n ≠ none → τ.com t n = σ.com t n) : Seeding through o τ := by
  refine ⟨hu, h.entries.later hu hcom ha, fun m w hw => ?_, fun q hq => ?_⟩
  · obtain ⟨r, rfl, he, hp, hnone, hkey, hno⟩ := h.rows m w hw
    have hsame : τ.com rolePermissions m = σ.com rolePermissions m := hcom rolePermissions m (by simp [hw])
    exact ⟨r, rfl, he, hp, hsame.trans hnone, hkey, fun k hk => hno k (ha _ hkey rolePermissions k hk)⟩
  · obtain ⟨m, r, hr, hp⟩ := h.through q hq
    rcases Snap.merge_cases hr with hrow | ⟨hrow, hcom⟩
    · exact ⟨m, r, Snap.merge_of_some hrow τ, hp⟩
    · obtain ⟨r', hr', hp'⟩ := hk m r hcom
      exact ⟨m, r', (Snap.merge_of_none hrow τ).trans hr', (congrArg some hp').trans hp⟩

theorem Seeding.later (h : Seeding through o σ) (hl : discipline.Later i o σ τ) : Seeding through o τ :=
  h.keep hl.inv hl.rely.1 hl.rely.2.1 hl.com

theorem Seeding.good (h : Seeding through o σ) : discipline.Good i o σ (σ.merge o) := by
  refine good_of h.entries ?_
  intro m w hw
  obtain ⟨r, rfl, -, -, hnone, -⟩ := h.rows m w hw
  refine ⟨r, rfl, fun r' hr' => ?_⟩
  rw [hnone] at hr'
  cases hr'

/-- the row of a default is added -/
theorem Seeding.insert (h : Seeding through o σ) (hfresh : σ.Fresh o) (hq : q ∈ seedRows)
    (hno : ∀ m r', o.view σ rolePermissions m = some r' → r'.pair ≠ q) :
    Seeding (through ++ [q]) ((o.put rolePermissions (σ.next rolePermissions) (some ⟨q.1, q.2, true⟩)).take q)
      (σ.bump rolePermissions (σ.next rolePermissions)) := by
  have hno' : ∀ m r', o.view σ rolePermissions m = some r' → index rolePermissions r' ≠ some q :=
    fun m r' hv heq => hno m r' hv (Option.some.inj heq)
  have hnew := hfresh rolePermissions (σ.next rolePermissions) le_rfl
  refine ⟨h.inv, h.entries.insert rfl hno' _, fun m w hw => ?_, fun q' hq' => ?_⟩
  · rw [Own.take_row, Own.put_row_same] at hw
    split_ifs at hw with hm
    · obtain rfl := Option.some.inj hw
      refine ⟨_, rfl, rfl, hq, hm ▸ hnew.1, .inl rfl, ?_⟩
      rintro k ⟨r', hr', heq⟩
      -- the session has written no committed row, so it sees it
      rcases hrow : o.row rolePermissions k with _ | w
      · exact hno' k r' ((Own.view_of_none hrow).trans hr') heq
      · obtain ⟨-, -, -, -, hnone, -⟩ := h.rows k w hrow
        rw [show σ.com rolePermissions k = some r' from hr'] at hnone
        cases hnone
    · obtain ⟨r, rfl, he, hp, hnone, hkey, hfree⟩ := h.rows m w hw
      exact ⟨r, rfl, he, hp, hnone, .inr hkey, hfree⟩
  · rcases List.mem_append.1 hq' with hq' | hq'
    · obtain ⟨m, r, hr, hp⟩ := h.through q' hq'
      have hm : m ≠ σ.next rolePermissions := by
        rintro rfl
        have hnone : o.view σ rolePermissions (σ.next rolePermissions) = none := (Own.view_of_none hnew.2).trans hnew.1
        rw [show o.view σ rolePermissions (σ.next rolePermissions) = some r from hr] at hnone
        cases hnone
      refine ⟨m, r, ?_, hp⟩
      rw [Snap.merge_com, Own.take_row, Own.put_row_of_ne _ _ _ fun _ => hm]
      exact hr
    · obtain rfl := List.mem_singleton.1 hq'
      refine ⟨σ.next rolePermissions, ⟨q'.1, q'.2, true⟩, ?_, rfl⟩
      rw [Snap.merge_com, Own.take_row, Own.put_row_self]
      rfl

/-- by induction on the pairs that are left -/
theorem insertRows_spec {rest : List Pair} (hrest : ∀ q ∈ rest, q ∈ seedRows) (h : Seeding through o σ) :
    discipline.wp i (insertRows rest) (Returns fun _ o' τ => Seeding (through ++ rest) o' τ) o σ := by
  induction rest generalizing through o σ with
  | nil => exact wp_return (by simpa using h)
  | cons q rest ih =>
    unfold insertRows
    refine wp_seq (P := fun _ o' τ => Seeding (through ++ [q]) o' τ) (wp_insertRow ?_ ?_) ?_
    · intro τ hl m hm
      have h' := h.later hl
      refine ⟨h'.inv, h'.entries, h'.rows, fun q' hq' => ?_⟩
      rcases List.mem_append.1 hq' with hq' | hq'
      · exact h'.through q' hq'
      · obtain rfl := List.mem_singleton.1 hq'
        exact ⟨m, hm⟩
    · intro τ hl hno
      exact (h.later hl).insert hl.fresh (hrest q List.mem_cons_self) hno
    intro added o τ h'
    refine wp_seq (ih (fun q' hq' => hrest q' (List.mem_cons_of_mem q hq')) h') ?_
    intro n o υ h''
    exact wp_return (by simpa using h'')

/-! ## What a request has come to -/

def Done : Request → Response → Held → State → Prop
  | .set roleName permission v, .changed b, o, σ => Carries (roleName, permission.value) v b o σ
  | .seed, .inserted _, o, σ => Seeding seedRows o σ
  | _, _, _, _ => False

theorem Done.keep {r : Request} {a : Response} (h : Done r a o σ) (hu : Unique index τ) (ha : Apart index o σ τ) (hk : Kept σ τ)
    (hcom : ∀ t n, o.row t n ≠ none → τ.com t n = σ.com t n) : Done r a o τ := by
  cases r with
  | set roleName permission v =>
    cases a with
    | changed b => exact Carries.keep h hu ha hcom
    | inserted n => exact h.elim
  | seed =>
    cases a with
    | changed b => exact h.elim
    | inserted n => exact Seeding.keep h hu ha hk hcom

theorem Done.good {r : Request} {a : Response} (h : Done r a o σ) : discipline.Good i o σ (σ.merge o) := by
  cases r with
  | set roleName permission v =>
    cases a with
    | changed b => exact Carries.good h
    | inserted n => exact h.elim
  | seed =>
    cases a with
    | changed b => exact h.elim
    | inserted n => exact Seeding.good h

theorem body_spec (r : Request) (hinv : Unique index σ) :
    discipline.wp i r.body (Returns fun a o' τ => Done r a o' τ) {} σ := by
  cases r with
  | set roleName permission v =>
    exact wp_seq setPermission_spec fun b o τ h => wp_return h
  | seed =>
    have hstart : Seeding [] ({} : Held) σ :=
      ⟨hinv, Entries.empty hinv, fun _ _ h => (nomatch h), fun _ h => (List.not_mem_nil h).elim⟩
    exact wp_seq (insertRows_spec (fun _ h => h) hstart) fun n o τ h => wp_return h

/-! ## What a commit says -/

/-- the committed row of the pair is enabled, or not -/
def Says (σ : State) (q : Pair) (e : Bool) : Prop :=
  ∃ n r, σ.com rolePermissions n = some r ∧ r.pair = q ∧ r.enabled = e

variable {e b : Bool} {q' : Pair}

theorem filed_of_says (h : Says σ q e) : ∃ n, Filed index σ rolePermissions n q := by
  obtain ⟨n, r, hr, hp, -⟩ := h
  exact ⟨n, r, hr, congrArg some hp⟩

theorem Carries.tells (h : Carries q v b o σ) :
    Says (σ.merge o) q' e ↔ if q' = q then e = v else Says σ q' e := by
  have hu := h.inv
  obtain ⟨n, hrow, hother, hcase⟩ := h.row
  have hself : (σ.merge o).com rolePermissions n = some ⟨q.1, q.2, v⟩ := Snap.merge_of_some hrow σ
  have hrest : ∀ m, m ≠ n → (σ.merge o).com rolePermissions m = σ.com rolePermissions m :=
    fun m hm => Snap.merge_of_none (hother m hm) σ
  -- the committed rows of the pair are those that are written over
  have honly : ∀ m r, σ.com rolePermissions m = some r → (r.pair = q ↔ m = n) := by
    intro m r hr
    rcases hcase with ⟨-, hnone, -, hno⟩ | ⟨r', hr', hp', -⟩
    · refine ⟨fun hp => absurd ⟨r, hr, congrArg some hp⟩ (hno m), fun hm => ?_⟩
      rw [hm, hnone] at hr
      cases hr
    · refine ⟨fun hp => hu.filed ⟨r, hr, congrArg some hp⟩ ⟨r', hr', congrArg some hp'⟩, fun hm => ?_⟩
      subst hm
      obtain rfl : r = r' := Option.some.inj (hr.symm.trans hr')
      exact hp'
  split_ifs with heq
  · subst heq
    constructor
    · rintro ⟨m, r, hr, hp, rfl⟩
      by_cases hm : m = n
      · subst hm
        rw [hself, Option.some.injEq] at hr
        rw [← hr]
      · exact absurd ((honly m r ((hrest m hm).symm.trans hr)).1 hp) hm
    · rintro rfl
      exact ⟨n, _, hself, rfl, rfl⟩
  · constructor
    · rintro ⟨m, r, hr, hp, he⟩
      by_cases hm : m = n
      · subst hm
        rw [hself, Option.some.injEq] at hr
        exact absurd (hp.symm.trans (hr ▸ rfl)) heq
      · exact ⟨m, r, (hrest m hm).symm.trans hr, hp, he⟩
    · rintro ⟨m, r, hr, hp, he⟩
      have hm : m ≠ n := fun hm => heq (hp.symm.trans ((honly m r hr).2 hm))
      exact ⟨m, r, (hrest m hm).trans hr, hp, he⟩

/-- the answer tells whether the row is another one now -/
theorem Carries.changed (h : Carries q v b o σ) :
    b = true ↔ ¬ ∀ e, Says (σ.merge o) q e ↔ Says σ q e := by
  have htells : ∀ e, Says (σ.merge o) q e ↔ e = v := by
    intro e
    rw [h.tells, if_pos rfl]
  simp only [htells]
  obtain ⟨n, -, -, hcase⟩ := h.row
  rcases hcase with ⟨rfl, -, -, hno⟩ | ⟨r, hr, hp, hb⟩
  · refine iff_of_true rfl ?_
    intro hall
    obtain ⟨m, hm⟩ := filed_of_says ((hall v).1 rfl)
    exact hno m hm
  · rw [hb]
    have hbefore : ∀ e, Says σ q e ↔ e = r.enabled := by
      intro e
      constructor
      · rintro ⟨m, r', hr', hp', rfl⟩
        obtain rfl := h.inv.filed ⟨r', hr', congrArg some hp'⟩ ⟨r, hr, congrArg some hp⟩
        rw [Option.some.inj (hr'.symm.trans hr)]
      · rintro rfl
        exact ⟨n, r, hr, hp, rfl⟩
    simp only [hbefore]
    refine not_congr ⟨?_, fun hall => ((hall r.enabled).2 rfl)⟩
    rintro heq e
    rw [heq]

theorem Seeding.tells (h : Seeding seedRows o σ) :
    Says (σ.merge o) q e ↔ Says σ q e ∨ ((∀ e', ¬ Says σ q e') ∧ q ∈ seedRows ∧ e = true) := by
  have hkeeps : ∀ m r, σ.com rolePermissions m = some r → (σ.merge o).com rolePermissions m = some r := by
    intro m r hr
    rcases hrow : o.row rolePermissions m with _ | w
    · exact (Snap.merge_of_none hrow σ).trans hr
    · obtain ⟨-, -, -, -, hnone, -⟩ := h.rows m w hrow
      rw [hnone] at hr
      cases hr
  constructor
  · rintro ⟨m, r, hr, hp, he⟩
    rcases Snap.merge_cases hr with hrow | ⟨-, hcom⟩
    · obtain ⟨r', heq, hen, hseed, -, -, hfree⟩ := h.rows m _ hrow
      obtain rfl : r = r' := Option.some.inj heq
      refine .inr ⟨fun e' htells => ?_, hp ▸ hseed, he ▸ hen⟩
      obtain ⟨k, hk⟩ := filed_of_says htells
      exact hfree k (hp ▸ hk)
    · exact .inl ⟨m, r, hcom, hp, he⟩
  · rintro (⟨m, r, hr, hp, he⟩ | ⟨hnone, hseed, rfl⟩)
    · exact ⟨m, r, hkeeps m r hr, hp, he⟩
    · obtain ⟨m, r, hr, hp⟩ := h.through q hseed
      have hpair : r.pair = q := Option.some.inj hp
      rcases Snap.merge_cases hr with hrow | ⟨-, hcom⟩
      · obtain ⟨r', heq, hen, -⟩ := h.rows m _ hrow
        obtain rfl : r = r' := Option.some.inj heq
        exact ⟨m, r, hr, hpair, hen⟩
      · exact absurd ⟨m, r, hcom, hpair, rfl⟩ (hnone r.enabled)

/-! ## The table as a function -/

/-- what a committed request makes of the settings -/
def Request.apply : Request → (Pair → Option Bool) → Pair → Option Bool
  | .set roleName permission v, f => Function.update f (roleName, permission.value) (some v)
  | .seed, f => fun q => (f q).or (if q ∈ seedRows then some true else none)

def Reads (σ : State) (f : Pair → Option Bool) : Prop := ∀ q e, Says σ q e ↔ f q = some e

theorem Done.reads {r : Request} {a : Response} {f : Pair → Option Bool} (h : Done r a o σ)
    (hf : Reads σ f) : Reads (σ.merge o) (r.apply f) := by
  intro q e
  cases r with
  | set roleName permission v =>
    cases a with
    | inserted n => exact h.elim
    | changed b =>
      have h : Carries (roleName, permission.value) v b o σ := h
      rw [h.tells, Request.apply, Function.update_apply]
      split_ifs
      · rw [Option.some.injEq, eq_comm]
      · exact hf q e
  | seed =>
    cases a with
    | changed b => exact h.elim
    | inserted n =>
      have h : Seeding seedRows o σ := h
      rw [h.tells, hf q e]
      simp only [Reads] at hf
      simp only [hf q, Request.apply]
      rcases f q with _ | e'
      · simp only [reduceCtorEq, not_false_eq_true, implies_true, true_and, false_or, Option.none_or]
        split_ifs with hseed
        · simp [hseed, eq_comm]
        · simp [hseed]
      · simp

/-! ## Runs -/

abbrev Run := World (Stmt Row Pair (NoFx Unit)) Store Exn Response

def init (d : Store) (requests : ℕ → Request) : Run := start d fun i => (requests i).prog

/-- an empty table, before any session has begun -/
structure Starts (d : Store) : Prop where
  empty : ∀ n, d.snap.com rolePermissions n = none
  own : ∀ i, d.own i = {}

/-- the move commits a request -/
def commits (w : Run) : Move → Bool
  | .run i => committing w i
  | .crash _ => false

/-- the requests that commit, in the order of their commits -/
def history (requests : ℕ → Request) : Run → List Move → List Request
  | _, [] => []
  | w, m :: ms => (if commits w m then [requests (Protocol.who m)] else []) ++ history requests (step w m) ms

variable {d : Store} {requests : ℕ → Request} {ms : List Move}

theorem history_snoc (requests : ℕ → Request) (w : Run) (ms : List Move) (m : Move) :
    history requests w (ms ++ [m]) =
      history requests w ms ++ (if commits (run w ms) m then [requests (Protocol.who m)] else []) := by
  induction ms generalizing w with
  | nil =>
    rw [List.nil_append, history, history, history, List.append_nil, List.nil_append]
    rfl
  | cons m' ms ih =>
    rw [List.cons_append, history, history, ih, List.append_assoc]
    rfl

theorem unique_start (h : Starts d) : Unique index d.snap := by
  intro t n m r r' k hr
  cases t with
  | rolePermissions =>
    rw [h.empty n] at hr
    cases hr

theorem safe_init (h : Starts d) : discipline.protocol.Safe (init d requests) := by
  refine safe_start (unique_start h) (fun _ => trivial) h.own ?_
  intro i
  refine wp_mono (wp_transaction (body_spec (requests i) (unique_start h)) ?_) fun _ _ _ _ => trivial
  intro a o τ hdone υ hl _
  exact (hdone.keep hl.inv hl.rely.1 hl.rely.2.1 hl.com).good

theorem legal_init (w : Run) (ms : List Move) : discipline.protocol.Legal w ms :=
  legal_of_ok (fun _ x _ _ => nomatch x) (fun _ _ _ => trivial) w ms

theorem plain_insertRow {r : RolePermission} : Plain (insertRow r) := plain_insertUnique _ _ _ _

theorem plain_updateConflict {n : ℕ} : Plain (updateConflict n v) := by
  refine plain_bind (plain_lockRow _ _ _) ?_
  intro r
  split
  · trivial
  · exact plain_ite (plain_pure _) (plain_bind (plain_updateRow _ _ _ _) fun _ => plain_pure _)

theorem plain_setPermission {roleName permission : String} : Plain (setPermission roleName permission v) := by
  refine plain_ite (plain_raise _) (plain_bind plain_insertRow ?_)
  intro added
  split
  · trivial
  · refine plain_bind (plain_select _ _) ?_
    intro rows
    split
    · trivial
    · exact plain_updateConflict

theorem plain_insertRows (rest : List Pair) : Plain (insertRows rest) := by
  induction rest with
  | nil => trivial
  | cons q rest ih => exact plain_bind plain_insertRow fun _ => plain_bind ih fun _ => plain_pure _

theorem plain_body (r : Request) : Plain r.body := by
  cases r with
  | set roleName permission v => exact plain_bind plain_setPermission fun _ => plain_pure _
  | seed => exact plain_bind (plain_insertRows seedRows) fun _ => plain_pure _

theorem Done.inv {r : Request} {a : Response} (h : Done r a o σ) : Unique index σ := by
  cases r with
  | set roleName permission v =>
    cases a with
    | changed b => exact Carries.inv h
    | inserted n => exact h.elim
  | seed =>
    cases a with
    | changed b => exact h.elim
    | inserted n => exact Seeding.inv h

/-- what a session has come to, and the others cannot undo -/
def Ends (r : Request) : Except Exn Response → Held → State → Prop := Returns fun a o σ => Done r a o σ

theorem ends_stable (r : Request) (i : ℕ) : Stable discipline i (Ends r) := by
  intro x o σ τ hr hcom h
  cases x with
  | error e => trivial
  | ok a => exact Done.keep h (hr.2.2 (Done.inv h)) hr.1 hr.2.1 hcom

theorem stage (h : Starts d) (ms : List Move) (i : ℕ) : Stage discipline (Ends (requests i)) i (run (init d requests) ms) := by
  refine Stage.run (safe_init h) (legal_init _ ms) (ends_stable _ i) (stage_start rfl (plain_body _) ?_)
  rw [h.own i]
  exact body_spec (requests i) (unique_start h)

/-- a commit does what its request says, and answers -/
theorem commits_done (h : Starts d) {m : Move} (hc : commits (run (init d requests) ms) m = true) :
    ∃ a, Done (requests (Protocol.who m)) a ((run (init d requests) ms).st.own (Protocol.who m)) (run (init d requests) ms).st.snap ∧
      (run (init d requests) (ms ++ [m])).st.snap =
        (run (init d requests) ms).st.snap.merge ((run (init d requests) ms).st.own (Protocol.who m)) ∧
      (run (init d requests) (ms ++ [m])).answer (Protocol.who m) = some (.ok a) := by
  cases m with
  | crash i => cases hc
  | run i =>
    obtain ⟨a, hdone, hst, hanswer⟩ := (stage h ms i).commits hc
    refine ⟨a, hdone, ?_, ?_⟩
    · rw [run_snoc, hst, Db.snap_finish_true]
      rfl
    · rw [run_snoc]
      exact hanswer

/-- **Refinement.** The rows say what the committed requests make of the empty table, one after the other. -/
theorem says_run (h : Starts d) (ms : List Move) :
    Reads (run (init d requests) ms).st.snap
      ((history requests (init d requests) ms).foldl (fun f r => r.apply f) fun _ => none) := by
  induction ms using List.reverseRecOn with
  | nil =>
    intro q e
    refine iff_of_false ?_ (by simp [history])
    rintro ⟨n, r, hr, -⟩
    exact absurd ((h.empty n).symm.trans hr) (by simp)
  | append_singleton ms m ih =>
    rw [history_snoc, List.foldl_append]
    by_cases hc : commits (run (init d requests) ms) m = true
    · obtain ⟨a, hdone, hsnap, -⟩ := commits_done h hc
      rw [if_pos hc, hsnap]
      exact hdone.reads ih
    · have hcom : (run (init d requests) (ms ++ [m])).st.snap.com = (run (init d requests) ms).st.snap.com := by
        rw [run_snoc]
        refine step_com ?_
        rintro i rfl
        simpa [commits] using hc
      rw [if_neg hc]
      intro q e
      rw [List.foldl_nil, ← ih q e]
      simp only [Says, hcom]

/-! ## The last setting -/

/-- the last setting of the pair, if there is one -/
def lastSet (h : List Request) (q : Pair) : Option Bool :=
  h.reverse.findSome? fun r =>
    match r with
    | .set roleName permission v => if (roleName, permission.value) = q then some v else none
    | .seed => none

/-- what the history says of a pair -/
def decided (h : List Request) (q : Pair) : Option Bool :=
  (lastSet h q).or (if .seed ∈ h ∧ q ∈ seedRows then some true else none)

theorem lastSet_snoc (h : List Request) (r : Request) (q : Pair) :
    lastSet (h ++ [r]) q = (match r with
      | .set roleName permission v => if (roleName, permission.value) = q then some v else none
      | .seed => none : Option Bool).or (lastSet h q) := by
  simp only [lastSet, List.reverse_append, List.reverse_singleton, List.singleton_append, List.findSome?_cons]
  cases r with
  | set roleName permission v =>
    dsimp only
    split_ifs
    · rfl
    · rfl
  | seed => rfl

/-- by induction on the history, from its end -/
theorem foldl_apply (h : List Request) : h.foldl (fun f r => r.apply f) (fun _ => none) = decided h := by
  induction h using List.reverseRecOn with
  | nil =>
    funext q
    simp [decided, lastSet]
  | append_singleton h r ih =>
    rw [List.foldl_append, ih]
    funext q
    rw [List.foldl_cons, List.foldl_nil, decided, lastSet_snoc]
    cases r with
    | set roleName permission v =>
      by_cases hq : (roleName, permission.value) = q
      · simp [Request.apply, hq]
      · simp [Request.apply, hq, Function.update_of_ne (Ne.symm hq), decided]
    | seed =>
      rcases hlast : lastSet h q with _ | v
      · by_cases hseed : q ∈ seedRows
        · by_cases hran : Request.seed ∈ h
          · simp [Request.apply, decided, hlast, hseed, hran]
          · simp [Request.apply, decided, hlast, hseed, hran]
        · simp [Request.apply, decided, hlast, hseed]
      · simp [Request.apply, decided, hlast]

/-! ## Decisions -/

section Decisions

variable {rows : List RolePermission} {level role : String} {cur : CurrentUser} {permission : Permission}

/-- the text before the first colon -/
def levelOf (role : String) : List Char := role.toList.takeWhile (· ≠ ':')

/-- with one colon in the role, the level is what is before it -/
theorem prefix_iff {l r : List Char} (h : r.count ':' = 1) : l ++ [':'] <+: r ↔ r.takeWhile (· ≠ ':') = l := by
  constructor
  · rintro ⟨t, rfl⟩
    have hnone : ':' ∉ l := by
      intro hmem
      have hpos := List.count_pos_iff.2 hmem
      simp only [List.count_append, List.count_singleton_self] at h
      omega
    have hall : ∀ c ∈ l, decide (c ≠ ':') = true := fun c hc => decide_eq_true fun heq => hnone (heq ▸ hc)
    rw [List.append_assoc, List.takeWhile_append_of_pos hall]
    simp
  · rintro rfl
    have hmem : ':' ∈ r := List.count_pos_iff.1 (by omega)
    have hsplit := List.takeWhile_append_dropWhile (p := fun c => decide (c ≠ ':')) (l := r)
    rcases hdrop : r.dropWhile (fun c => decide (c ≠ ':')) with _ | ⟨c, t⟩
    · have hall := List.dropWhile_eq_nil_iff.1 hdrop ':' hmem
      simp at hall
    · have hc : c = ':' := by
        have hhead := List.head?_dropWhile_not (fun c => decide (c ≠ ':')) r
        rw [hdrop, List.head?_cons] at hhead
        exact not_not.1 (of_decide_eq_false hhead)
      refine ⟨t, ?_⟩
      rw [hdrop, hc] at hsplit
      rw [List.append_assoc]
      exact hsplit

theorem ofLevel_iff (h : role ∈ knownRoles) : ofLevel level role = true ↔ levelOf role = level.toList := by
  have hcount : ∀ role ∈ knownRoles, role.toList.count ':' = 1 := by decide
  rw [ofLevel, List.isPrefixOf_iff_prefix, prefix_iff (hcount role h)]
  rfl

theorem hasPermission_iff {name : String} :
    hasPermission rows role name = true ↔ ∃ r ∈ rows, r.pair = (role, name) ∧ r.enabled = true := by
  simp only [hasPermission, List.any_eq_true, Bool.and_eq_true, decide_eq_true_eq, RolePermission.pair, Prod.mk.injEq]

theorem hasAnyPermission_iff {roles : List String} {name : String} :
    hasAnyPermission rows roles name = true ↔ ∃ role ∈ roles, hasPermission rows role name = true := by
  simp only [hasPermission_iff, hasAnyPermission]
  split_ifs with hnil
  · simp [hnil]
  · simp only [List.any_eq_true, Bool.and_eq_true, decide_eq_true_eq, RolePermission.pair, Prod.mk.injEq]
    constructor
    · rintro ⟨r, hr, ⟨hrole, hname⟩, he⟩
      exact ⟨r.roleName, hrole, r, hr, ⟨rfl, hname⟩, he⟩
    · rintro ⟨role, hrole, r, hr, ⟨rfl, hname⟩, he⟩
      exact ⟨r, hr, ⟨hrole, hname⟩, he⟩

theorem mem_permissionsOf {roles : List String} {name : String} :
    name ∈ permissionsOf rows roles ↔ ∃ role ∈ roles, hasPermission rows role name = true := by
  simp only [hasPermission_iff, permissionsOf]
  split_ifs with hnil
  · simp [hnil]
  · simp only [mem_sorted, List.mem_dedup, List.mem_map, List.mem_filter, Bool.and_eq_true, decide_eq_true_eq,
      RolePermission.pair, Prod.mk.injEq]
    constructor
    · rintro ⟨r, ⟨hr, hrole, he⟩, hname⟩
      exact ⟨r.roleName, hrole, r, hr, ⟨rfl, hname⟩, he⟩
    · rintro ⟨role, hrole, r, hr, ⟨rfl, hname⟩, he⟩
      exact ⟨r, ⟨hr, hrole, he⟩, hname⟩

/-- the roles that the session runs with -/
def CurrentUser.roles (cur : CurrentUser) : List String := cur.activeRoles.getD [compositeRole cur.accountLevel cur.role]

theorem mem_validRoles : role ∈ validRoles cur ↔ role ∈ roleClosure cur.roles ∧ levelOf role = cur.accountLevel.toList := by
  rw [validRoles, List.mem_filter]
  refine and_congr_right fun hmem => ofLevel_iff ?_
  obtain ⟨senior, -, hknown, hreach⟩ := mem_roleClosure.1 hmem
  exact hreach.known hknown

theorem userHasPermission_iff : userHasPermission rows cur permission = true ↔
    ∃ role ∈ validRoles cur, hasPermission rows role permission.value = true := by
  unfold userHasPermission
  split
  next role hone => simp [hone]
  next => exact hasAnyPermission_iff

end Decisions

/-- **Permissions.** In every run from an empty table:
- a role has a permission if and only if the last committed setting of the pair enabled it, or there was none, the pair is a
  default and a seed has been committed;
- a setting that commits answers that something has changed if and only if what is stored of its pair is not what it was;
- the decision, the menu and the closure of the active roles, kept to the user's level, agree. -/
theorem permissions_follow (d : Store) (requests : ℕ → Request) (ms : List Move) (h : Starts d) :
    let w := run (init d requests) ms
    let rows := (w.st.committed rolePermissions).map Prod.snd
    let past := history requests (init d requests) ms
    (∀ role (permission : Permission), hasPermission rows role permission.value = true ↔
      lastSet past (role, permission.value) = some true ∨
        (lastSet past (role, permission.value) = none ∧ .seed ∈ past ∧ (role, permission.value) ∈ seedRows)) ∧
    (∀ i roleName permission v, requests i = .set roleName permission v → committing w i = true →
      ∃ b, (step w (.run i)).answer i = some (.ok (.changed b)) ∧
        (b = true ↔ ¬ ∀ e, Says (step w (.run i)).st.snap (roleName, permission.value) e ↔
          Says w.st.snap (roleName, permission.value) e)) ∧
    (∀ cur (permission : Permission),
      (userHasPermission rows cur permission = true ↔ ∃ role ∈ roleClosure cur.roles,
        levelOf role = cur.accountLevel.toList ∧ hasPermission rows role permission.value = true) ∧
      (permission.value ∈ userPermissions rows cur ↔ ∃ role ∈ roleClosure cur.roles,
        levelOf role = cur.accountLevel.toList ∧ hasPermission rows role permission.value = true)) := by
  intro w rows past
  have hvalid : ∀ (cur : CurrentUser) (P : String → Prop), (∃ role ∈ validRoles cur, P role) ↔
      ∃ role ∈ roleClosure cur.roles, levelOf role = cur.accountLevel.toList ∧ P role := by
    intro cur P
    simp only [mem_validRoles, and_assoc]
  refine ⟨fun role permission => ?_, fun i roleName permission v hr hc => ?_, fun cur permission => ⟨?_, ?_⟩⟩
  · have htells : hasPermission rows role permission.value = true ↔ Says w.st.snap (role, permission.value) true := by
      rw [hasPermission_iff]
      constructor
      · rintro ⟨r, hr, hp, he⟩
        obtain ⟨⟨n, r'⟩, hmem, rfl⟩ := List.mem_map.1 hr
        exact ⟨n, r', (Db.mem_committed _).1 hmem, hp, he⟩
      · rintro ⟨n, r, hr, hp, he⟩
        exact ⟨r, List.mem_map.2 ⟨(n, r), (Db.mem_committed _).2 hr, rfl⟩, hp, he⟩
    rw [htells, says_run h ms, foldl_apply, decided]
    rcases lastSet past (role, permission.value) with _ | v
    · simp [past]
    · simp
  · obtain ⟨a, hdone, hsnap, hanswer⟩ := commits_done (m := .run i) h hc
    rw [run_snoc] at hsnap hanswer
    rw [show requests (Protocol.who (.run i)) = .set roleName permission v from hr] at hdone
    cases a with
    | inserted n => exact hdone.elim
    | changed b =>
      refine ⟨b, hanswer, ?_⟩
      rw [hsnap]
      exact Carries.changed hdone
  · rw [userHasPermission_iff, hvalid]
  · rw [userPermissions, mem_permissionsOf, hvalid]

/-! ## A run -/

/-- a grant and its revocation -/
def revoked : ℕ → Request
  | 0 => .set "normal:member" .contentCreate true
  | _ => .set "normal:member" .contentCreate false

theorem starts_empty : Starts ({ ext := () } : Store) := ⟨fun _ => rfl, fun _ => Db.own_empty ()⟩

theorem permissions_follow_demo :
    let w := run (init { ext := () } revoked) (moves 0 10 ++ moves 1 20)
    let rows := (w.st.committed rolePermissions).map Prod.snd
    hasPermission rows "normal:member" Permission.contentCreate.value = false := by
  have h := permissions_follow { ext := () } revoked (moves 0 10 ++ moves 1 20) starts_empty
  have hpast : history revoked (init { ext := () } revoked) (moves 0 10 ++ moves 1 20) =
      [.set "normal:member" .contentCreate true, .set "normal:member" .contentCreate false] := by decide
  intro w rows
  rw [Bool.eq_false_iff, Ne, h.1, hpast]
  decide

end LkmService.Rbac
