/-
The count of a notification is the number of the calls that have come into it, and none that has been read is touched again.

- `Inv`: every event has come into one notification of its key, which counts it; a notification shows the last of its events.
- `Ready`: what a session has written may be committed, whatever the others commit meanwhile.
- `inv_after`, `stays_after`: in every run the invariant holds, and what has been read stays as it was.
-/
import LkmService.Lib.Count
import LkmService.Notifications.Model

namespace LkmService.Notifications

open Session Sql Sql.Discipline Tbl

set_option linter.unusedSectionVars false

variable {V : Type}

abbrev State (V : Type) := Snap (Row V) ℤ

abbrev Held (V : Type) := Own (Row V) ℕ

variable {digest : Key → ℕ} {i n m : ℕ} {o : Held V} {σ τ : State V} {r r' : Notification V} {e : Event V} {c : Call V}

/-! ## The invariant -/

/-- the number of events that a notification stands for -/
def Notification.total (r : Notification V) : ℕ := r.count.getD 1

/-- every field of the event is shown -/
def Shows (r : Notification V) (e : Event V) : Prop :=
  ∀ x v, OrderedDict.get? e.payload x = some v → OrderedDict.get? r.payload x = some v

/-- the event has come into notification `n` -/
def comeInto (n : ℕ) (e : Event V) : Bool := decide (e.into = n)

structure Inv (σ : State V) : Prop where
  counts : σ.Counts notifications events Notification.total comeInto
  into : ∀ m e, σ.com events m = some e → ∃ r, σ.com notifications e.into = some r ∧ r.key = e.key
  /-- the last event that has come into a notification -/
  latest : ∀ n r, σ.com notifications n = some r → ∃ m e, σ.com events m = some e ∧ e.into = n ∧
    (∀ m' e', σ.com events m' = some e' → e'.into = n → m' ≤ m) ∧ Shows r e

/-- a notification that has been read stays as it is, and so does every event -/
structure Stays (σ τ : State V) : Prop where
  read : ∀ n r, σ.com notifications n = some r → r.readAt.isSome = true → τ.com notifications n = some r
  event : ∀ m e, σ.com events m = some e → τ.com events m = some e

theorem Stays.refl (σ : State V) : Stays σ σ := ⟨fun _ _ h _ => h, fun _ _ h => h⟩

theorem Stays.trans {υ : State V} (h : Stays σ τ) (h' : Stays τ υ) : Stays σ υ :=
  ⟨fun n r hr hread => h'.read n r (h.read n r hr hread) hread, fun m e he => h'.event m e (h.event m e he)⟩

/-- events stay, and nobody else lets one come into a notification that the session holds -/
structure Rely (o : Held V) (σ τ : State V) : Prop where
  event : ∀ m e, σ.com events m = some e → τ.com events m = some e
  held : ∀ m e, τ.com events m = some e → o.row notifications e.into ≠ none → σ.com events m = some e

def discipline : Discipline (Row V) ℕ Clock ℤ where
  inv := Inv
  rely _ := Rely
  act _ := Stays
  ok _ _ _ _ := True
  rely_refl _ _ _ := ⟨fun _ _ h => h, fun _ _ h _ => h⟩
  rely_trans _ _ _ _ _ h h' :=
    ⟨fun m e he => h'.event m e (h.event m e he), fun m e he hn => h.held m e (h'.held m e he hn) hn⟩
  act_refl _ σ _ := Stays.refl σ
  grow_inv _ _ _ h := ⟨h.counts, h.into, h.latest⟩
  grow_act _ _ _ _ _ := ⟨fun _ _ h _ => h, fun _ _ h => h⟩
  grow_rely _ _ _ _ _ _ := ⟨fun _ _ h => h, fun _ _ h _ => h⟩

instance : Lockless (discipline (V := V)) := ⟨fun _ _ _ => trivial⟩

/-! ## One more event -/

theorem fresh_merge (h : σ.Fresh o) : (σ.merge o).Fresh ({} : Held V) := by
  intro t k hk
  obtain ⟨hcom, hown⟩ := h t k hk
  exact ⟨by rw [Snap.merge_of_none hown, hcom], rfl⟩

/-- an event comes into a notification, which counts it and shows it -/
theorem Inv.record (h : Inv σ) (hfresh : σ.Fresh ({} : Held V))
    (hnotifications : ∀ k, k ≠ n → τ.com notifications k = σ.com notifications k) (hn : τ.com notifications n = some r)
    (hevents : ∀ k, k ≠ m → τ.com events k = σ.com events k) (hm : τ.com events m = some e)
    (hnew : ∀ k e', σ.com events k = some e' → k < m) (hinto : e.into = n) (hkey : r.key = e.key)
    (hold : ∀ r', σ.com notifications n = some r' → r'.key = r.key)
    (htotal : r.total = (σ.matching events (comeInto n)).ncard + 1) (hshows : Shows r e) : Inv τ := by
  have hnone : σ.com events m = none := by
    rcases he : σ.com events m with _ | e'
    · rfl
    · exact absurd (hnew m e' he) (Nat.lt_irrefl m)
  -- the events of the other notifications are those they were
  have hother : ∀ k, k ≠ n → τ.matching events (comeInto k) = σ.matching events (comeInto k) := by
    intro k hk
    ext m'
    by_cases hm' : m' = m
    · subst hm'
      simp [Snap.matching, comeInto, hm, hnone, hinto, hk.symm]
    · simp [Snap.matching, hevents m' hm']
  refine ⟨fun k r'' hr'' => ?_, fun m' e' he' => ?_, fun k r'' hr'' => ?_⟩
  · by_cases hk : k = n
    · subst hk
      obtain rfl : r = r'' := Option.some.inj (hn.symm.trans hr'')
      have hcard := Snap.ncard_matching (Snap.matching_finite hfresh (comeInto k)) hevents
      simp only [hm, hnone, Option.any_some, Option.any_none, comeInto, hinto, decide_true, Bool.toNat_true,
        Bool.toNat_false] at hcard
      rw [htotal]
      omega
    · rw [hnotifications k hk] at hr''
      rw [hother k hk]
      exact h.counts k r'' hr''
  · by_cases hm' : m' = m
    · subst hm'
      obtain rfl : e = e' := Option.some.inj (hm.symm.trans he')
      exact ⟨r, hinto ▸ hn, hkey⟩
    · rw [hevents m' hm'] at he'
      obtain ⟨r'', hr'', hkey''⟩ := h.into m' e' he'
      by_cases hk : e'.into = n
      · rw [hk] at hr'' ⊢
        exact ⟨r, hn, (hold r'' hr'').symm.trans hkey''⟩
      · exact ⟨r'', (hnotifications _ hk).trans hr'', hkey''⟩
  · by_cases hk : k = n
    · subst hk
      obtain rfl : r = r'' := Option.some.inj (hn.symm.trans hr'')
      refine ⟨m, e, hm, hinto, fun m' e' he' _ => ?_, hshows⟩
      by_cases hm' : m' = m
      · exact Nat.le_of_eq hm'
      · rw [hevents m' hm'] at he'
        exact Nat.le_of_lt (hnew m' e' he')
    · rw [hnotifications k hk] at hr''
      obtain ⟨m', e', he', hinto', hlast, hshows'⟩ := h.latest k r'' hr''
      refine ⟨m', e', ?_, hinto', fun m'' e'' he'' hinto'' => ?_, hshows'⟩
      · rw [hevents m' fun heq => ?_]
        · exact he'
        · rw [heq, hnone] at he'
          cases he'
      · by_cases hm'' : m'' = m
        · subst hm''
          obtain rfl : e = e'' := Option.some.inj (hm.symm.trans he'')
          exact absurd (hinto''.symm.trans hinto) hk
        · rw [hevents m'' hm''] at he''
          exact hlast m'' e'' he'' hinto''

/-- rows are rewritten whose events stay as they were -/
theorem Inv.rewrite (h : Inv σ) (hevents : τ.com events = σ.com events)
    (hback : ∀ k r, σ.com notifications k = some r → ∃ r', τ.com notifications k = some r' ∧ r'.key = r.key)
    (hrows : ∀ k r', τ.com notifications k = some r' → ∃ r, σ.com notifications k = some r ∧ r'.total = r.total ∧
      r'.payload = r.payload) : Inv τ := by
  have hmatching : ∀ p : Event V → Bool, τ.matching events p = σ.matching events p := by
    intro p
    simp only [Snap.matching, hevents]
  refine ⟨fun k r' hr' => ?_, fun m e he => ?_, fun k r' hr' => ?_⟩
  · obtain ⟨r, hr, htotal, -⟩ := hrows k r' hr'
    rw [htotal, hmatching]
    exact h.counts k r hr
  · rw [hevents] at he
    obtain ⟨r, hr, hkey⟩ := h.into m e he
    obtain ⟨r', hr', hkey'⟩ := hback e.into r hr
    exact ⟨r', hr', hkey'.trans hkey⟩
  · obtain ⟨r, hr, -, hpayload⟩ := hrows k r' hr'
    obtain ⟨m, e, he, hinto, hlast, hshows⟩ := h.latest k r hr
    refine ⟨m, e, by rw [hevents]; exact he, hinto, by rw [hevents]; exact hlast, fun x v hx => ?_⟩
    rw [hpayload]
    exact hshows x v hx

/-! ## What a session has written -/

structure Ready (o : Held V) (σ : State V) : Prop where
  inv : Inv (σ.merge o)
  /-- the events of the session are new, and have come into notifications that it holds -/
  event : ∀ m v, o.row events m = some v → σ.com events m = none ∧ ∃ e, v = some e ∧ o.row notifications e.into ≠ none
  /-- the notifications that it holds have been unread, and keep their keys -/
  row : ∀ n v, o.row notifications n = some v → ∃ r, v = some r ∧
    ∀ b, σ.com notifications n = some b → b.key = r.key ∧ b.readAt = none

theorem ready_empty (h : Inv σ) : Ready {} σ := ⟨h, fun _ _ h => by simp at h, fun _ _ h => by simp at h⟩

section Later

variable (h : Ready o σ) (hl : (discipline (V := V)).Later i o σ τ)

include h hl

theorem Ready.com_event (m : ℕ) (hm : o.row events m ≠ none) : τ.com events m = none := by
  obtain ⟨v, hv⟩ := Option.ne_none_iff_exists'.1 hm
  rw [hl.com events m hm]
  exact (h.event m v hv).1

/-- the events in sight stay in sight -/
theorem Ready.event_stays (he : (σ.merge o).com events m = some e) : (τ.merge o).com events m = some e := by
  rcases Snap.merge_cases he with hown | ⟨hnone, hcom⟩
  · exact Snap.merge_of_some hown τ
  · rw [Snap.merge_of_none hnone]
    exact hl.rely.event m e hcom

/-- those that have come into a notification of the session are in sight -/
theorem Ready.event_held (he : (τ.merge o).com events m = some e) (hheld : o.row notifications e.into ≠ none) :
    (σ.merge o).com events m = some e := by
  rcases Snap.merge_cases he with hown | ⟨hnone, hcom⟩
  · exact Snap.merge_of_some hown σ
  · rw [Snap.merge_of_none hnone]
    exact hl.rely.held m e hcom hheld

/-- those that have come into another are committed -/
theorem Ready.event_other (hfree : o.row notifications n = none) :
    (τ.merge o).com events m = some e ∧ e.into = n ↔ τ.com events m = some e ∧ e.into = n := by
  refine and_congr_left fun hinto => ?_
  rcases ho : o.row events m with _ | v
  · rw [Snap.merge_of_none ho]
  · obtain ⟨hnone, e', rfl, hheld⟩ := h.event m v ho
    rw [Snap.merge_of_some ho, h.com_event hl m (by simp [ho])]
    constructor
    · intro he
      obtain rfl := Option.some.inj he
      rw [hinto] at hheld
      exact absurd hfree hheld
    · intro he
      cases he

theorem Ready.row_later (hn : (τ.merge o).com notifications n = some r) :
    (o.row notifications n ≠ none ∧ (σ.merge o).com notifications n = some r) ∨
      (o.row notifications n = none ∧ τ.com notifications n = some r) := by
  rcases Snap.merge_cases hn with hown | hcom
  · exact .inl ⟨by simp [hown], Snap.merge_of_some hown σ⟩
  · exact .inr hcom

theorem Ready.matching_held (hheld : o.row notifications n ≠ none) :
    (τ.merge o).matching events (comeInto n) = (σ.merge o).matching events (comeInto n) := by
  ext m
  simp only [Snap.matching, comeInto, Set.mem_ofPred_eq, Option.any_eq_true, decide_eq_true_eq]
  constructor
  · rintro ⟨e, he, hinto⟩
    exact ⟨e, h.event_held hl he (hinto ▸ hheld), hinto⟩
  · rintro ⟨e, he, hinto⟩
    exact ⟨e, h.event_stays hl he, hinto⟩

theorem Ready.matching_other (hfree : o.row notifications n = none) :
    (τ.merge o).matching events (comeInto n) = τ.matching events (comeInto n) := by
  ext m
  simp only [Snap.matching, comeInto, Set.mem_ofPred_eq, Option.any_eq_true, decide_eq_true_eq]
  exact exists_congr fun e => h.event_other hl hfree

theorem Ready.later : Ready o τ := by
  have hinv : Inv τ := hl.inv
  refine ⟨⟨fun n r hr => ?_, fun m e he => ?_, fun n r hr => ?_⟩,
    fun m v hv => ⟨h.com_event hl m (by simp [hv]), (h.event m v hv).2⟩, fun n v hv => ?_⟩
  · rcases h.row_later hl hr with ⟨hheld, hrow⟩ | ⟨hfree, hrow⟩
    · rw [h.matching_held hl hheld]
      exact h.inv.counts n r hrow
    · rw [h.matching_other hl hfree]
      exact hinv.counts n r hrow
  · rcases hn : o.row notifications e.into with _ | v
    · obtain ⟨r, hr, hkey⟩ := hinv.into m e ((h.event_other hl hn).1 ⟨he, rfl⟩).1
      exact ⟨r, by rw [Snap.merge_of_none hn, hr], hkey⟩
    · obtain ⟨r, hr, hkey⟩ := h.inv.into m e (h.event_held hl he (by simp [hn]))
      rw [Snap.merge_of_some hn] at hr ⊢
      exact ⟨r, hr, hkey⟩
  · rcases h.row_later hl hr with ⟨hheld, hrow⟩ | ⟨hfree, hrow⟩
    · obtain ⟨m, e, he, hinto, hlast, hshows⟩ := h.inv.latest n r hrow
      refine ⟨m, e, h.event_stays hl he, hinto, fun m' e' he' hinto' => ?_, hshows⟩
      exact hlast m' e' (h.event_held hl he' (hinto' ▸ hheld)) hinto'
    · obtain ⟨m, e, he, hinto, hlast, hshows⟩ := hinv.latest n r hrow
      refine ⟨m, e, ((h.event_other hl hfree).2 ⟨he, hinto⟩).1, hinto, fun m' e' he' hinto' => ?_, hshows⟩
      exact hlast m' e' ((h.event_other hl hfree).1 ⟨he', hinto'⟩).1 hinto'
  · obtain ⟨r, rfl, hold⟩ := h.row n v hv
    refine ⟨r, rfl, fun b hb => hold b ?_⟩
    rwa [hl.com_eq hv] at hb

end Later

/-! ## What a session writes -/

theorem merge_put_row (k : ℕ) (v : Option (Notification V)) : (σ.merge (o.put notifications n v)).com notifications k =
    if k = n then v else (σ.merge o).com notifications k := by
  rw [Snap.merge_put_self, Function.update_apply]

/-- a notification in sight is rewritten, its events are not -/
theorem Ready.rewrite (h : Ready o σ) (hview : o.view σ notifications n = some r) (hread : r.readAt = none) (hkey : r'.key = r.key)
    (htotal : r'.total = r.total) (hpayload : r'.payload = r.payload) : Ready (o.put notifications n (some r')) σ := by
  have hn : (σ.merge o).com notifications n = some r := hview
  refine ⟨h.inv.rewrite (Snap.merge_put_other o σ n _ (by simp)) (fun k r'' hr'' => ?_) (fun k r'' hr'' => ?_), fun m v hv => ?_,
    fun k v hv => ?_⟩
  · rw [merge_put_row]
    split_ifs with hk
    · subst hk
      obtain rfl : r = r'' := Option.some.inj (hn.symm.trans hr'')
      exact ⟨r', rfl, hkey⟩
    · exact ⟨r'', hr'', rfl⟩
  · rw [merge_put_row] at hr''
    split_ifs at hr'' with hk
    · obtain rfl := Option.some.inj hr''
      exact ⟨r, hk ▸ hn, htotal, hpayload⟩
    · exact ⟨r'', hr'', rfl, rfl⟩
  · rw [Own.put_row_other _ _ _ (by simp)] at hv
    obtain ⟨hnone, e, rfl, hheld⟩ := h.event m v hv
    exact ⟨hnone, e, rfl, (o.sub_put notifications n _).row notifications _ hheld⟩
  · rw [Own.put_row_same] at hv
    split_ifs at hv with hk
    · obtain rfl := Option.some.inj hv
      refine ⟨r', rfl, fun b hb => ?_⟩
      rcases ho : o.row notifications n with _ | w
      · have hcom : σ.com notifications n = some r := (Own.view_of_none ho).symm.trans hview
        obtain rfl : r = b := Option.some.inj (hcom.symm.trans (hk ▸ hb))
        exact ⟨hkey.symm, hread⟩
      · obtain ⟨r'', rfl, hold⟩ := h.row n w ho
        obtain rfl : r'' = r := Option.some.inj ((Own.view_of_row ho).symm.trans hview)
        obtain ⟨hbkey, hbread⟩ := hold b (hk ▸ hb)
        exact ⟨hbkey.trans hkey.symm, hbread⟩
    · exact h.row k v hv

/-- a notification is written with the event that comes into it -/
theorem Ready.record (h : Ready o σ) (hfresh : σ.Fresh o) (hm : m = σ.next events) (hinto : e.into = n) (hkey : r.key = e.key)
    (hold : ∀ r', o.view σ notifications n = some r' → r'.key = r.key)
    (hread : ∀ b, σ.com notifications n = some b → b.key = r.key ∧ b.readAt = none)
    (htotal : r.total = ((σ.merge o).matching events (comeInto n)).ncard + 1) (hshows : Shows r e) :
    Ready ((o.put notifications n (some r)).put events m (some e)) (σ.bump events m) := by
  have hmnone := hfresh events m (Nat.le_of_eq hm.symm)
  have hrow : ∀ k, ((σ.bump events m).merge ((o.put notifications n (some r)).put events m (some e))).com notifications k =
      if k = n then some r else (σ.merge o).com notifications k := by
    intro k
    rw [Snap.merge_put_other _ _ _ _ (by simp)]
    exact merge_put_row k _
  have hevent : ∀ k, ((σ.bump events m).merge ((o.put notifications n (some r)).put events m (some e))).com events k =
      if k = m then some e else (σ.merge o).com events k := by
    intro k
    rw [Snap.merge_put_self, Function.update_apply, Snap.merge_put_other _ _ _ _ (by simp)]
    rfl
  refine ⟨h.inv.record (fresh_merge hfresh) (fun k hk => by rw [hrow, if_neg hk]) (by rw [hrow, if_pos rfl])
    (fun k hk => by rw [hevent, if_neg hk]) (by rw [hevent, if_pos rfl]) (fun k e' he' => ?_) hinto hkey hold htotal hshows,
    fun k v hv => ?_, fun k v hv => ?_⟩
  · by_contra hk
    have hnone := (fresh_merge hfresh events k (hm ▸ Nat.le_of_not_lt hk)).1
    rw [hnone] at he'
    cases he'
  · have hheld : ∀ j, o.row notifications j ≠ none ∨ j = n →
        ((o.put notifications n (some r)).put events m (some e)).row notifications j ≠ none := by
      intro j hj
      rw [Own.put_row_other _ _ _ (by simp), Own.put_row_same]
      split_ifs with hjn
      · simp
      · exact hj.resolve_right hjn
    rw [Own.put_row_same] at hv
    split_ifs at hv with hk
    · obtain rfl := Option.some.inj hv
      exact ⟨hk ▸ hmnone.1, e, rfl, hheld _ (.inr hinto)⟩
    · rw [Own.put_row_other _ _ _ (by simp)] at hv
      obtain ⟨hnone, e', rfl, hheld'⟩ := h.event k v hv
      exact ⟨hnone, e', rfl, hheld _ (.inl hheld')⟩
  · rw [Own.put_row_other _ _ _ (by simp), Own.put_row_same] at hv
    split_ifs at hv with hk
    · obtain rfl := Option.some.inj hv
      exact ⟨r, rfl, hk ▸ hread⟩
    · exact h.row k v hv

/-- what the commit of the session owes -/
theorem Ready.good (h : Ready o σ) : (discipline (V := V)).Good i o σ (σ.merge o) := by
  have hevent : ∀ m e, σ.com events m = some e → (σ.merge o).com events m = some e := by
    intro m e he
    rcases ho : o.row events m with _ | v
    · rw [Snap.merge_of_none ho, he]
    · rw [(h.event m v ho).1] at he
      cases he
  refine ⟨h.inv, ⟨fun n r hr hread => ?_, hevent⟩, fun j _ o' hd => ⟨hevent, fun m e he hheld => ?_⟩⟩
  · rcases ho : o.row notifications n with _ | v
    · rw [Snap.merge_of_none ho, hr]
    · obtain ⟨r', -, hold⟩ := h.row n v ho
      rw [(hold r hr).2] at hread
      cases hread
  · rcases Snap.merge_cases he with hown | ⟨-, hcom⟩
    · obtain ⟨-, e', he', hown'⟩ := h.event m _ hown
      obtain rfl := Option.some.inj he'
      exact absurd (hd.row notifications _ hheld) hown'
    · exact hcom

/-! ## The operations -/

/-- the objects of a session are the notifications as it has written them -/
def Fits (loaded : Loaded V) (o : Held V) : Prop := ∀ n r, loaded.lookup n = some r → o.row notifications n = some (some r)

/-- owning less -/
theorem later_of_put {t : Tbl} {v : Option (Row V t)} (h : (discipline (V := V)).Later i (o.put t n v) σ τ) :
    (discipline (V := V)).Later i o σ τ :=
  h.sub (o.sub_put t n v) ⟨h.rely.event, fun m e he hn => h.rely.held m e he ((o.sub_put t n v).row notifications _ hn)⟩

/-- the notification that is locked -/
structure Locked (p : Notification V → Bool) (o : Held V) (loaded : Loaded V) (q : Option (ℕ × Notification V)) (o' : Held V)
    (σ : State V) : Prop where
  ready : Ready o' σ
  fits : Fits loaded o → Fits loaded o'
  found : ∀ n r, q = some (n, r) → o'.row notifications n = some (some r) ∧ p r = true
  missed : q = none → o' = o

theorem lockNext_spec {p : Notification V → Bool} {loaded : Loaded V} (hp : ∀ r, p r = true → r.readAt = none) (ns : List ℕ)
    (h : Ready o σ) : (discipline (V := V)).wp i (lockNext p ns) (Returns fun q o' τ => Locked p o loaded q o' τ) o σ := by
  induction ns generalizing σ with
  | nil => exact wp_return ⟨h, id, fun n r hq => (nomatch hq), fun _ => rfl⟩
  | cons n ns ih =>
    refine wp_bind (wp_lockRow (fun τ hl _ => ih (h.later hl)) fun τ r hl hview hpr => wp_return ?_)
    refine ⟨(h.later hl).rewrite hview (hp r hpr) rfl rfl rfl, fun hfits k r' hk => ?_, fun k r' hq => ?_, fun hq => nomatch hq⟩
    · have hrow := hfits k r' hk
      by_cases hkn : k = n
      · subst hkn
        have hsame := (Own.view_of_row hrow).symm.trans hview
        rw [hsame, Own.put_row_self]
      · rw [Own.put_row_same, if_neg hkn, hrow]
    · obtain ⟨rfl, rfl⟩ := exec_inj hq
      exact ⟨by simp, hpr⟩

theorem findRecentUnread_spec {key : Key} {since : ℤ} (loaded : Loaded V) (h : Ready o σ) :
    (discipline (V := V)).wp i (findRecentUnread key since)
      (Returns fun q o' τ => Locked (candidate key since) o loaded q o' τ) o σ := by
  refine wp_bind (wp_select fun τ hl l _ _ => ?_)
  refine lockNext_spec (fun r hr => ?_) _ (h.later hl)
  simp only [candidate, Bool.and_eq_true, Option.isNone_iff_eq_none] at hr
  exact hr.1.2

theorem shows_update (c : Call V) {now : ℤ} {existing : Notification V} {n : ℕ} :
    Shows (c.merged now existing existing) { key := c.key, payload := c.fields, into := n } := by
  intro x v hx
  have hkeyed : OrderedDict.Keyed c.fields := c.keyed
  change OrderedDict.get? (OrderedDict.update existing.payload c.fields) x = some v
  rw [OrderedDict.get?_update hkeyed, hx]
  rfl

theorem mergeInto_spec {loaded : Loaded V} {now : ℤ} (h : Ready o σ) (hfits : Fits loaded o)
    (hown : o.row notifications n = some (some r)) (hkey : r.key = c.key) :
    (discipline (V := V)).wp i (mergeInto c now n r) (Returns fun q o' τ => Ready o' τ ∧ Fits (q :: loaded) o') o σ := by
  refine wp_bind (wp_updateOwned rfl hown fun τ hl => ?_)
  refine wp_bind (wp_insert fun υ hl' => wp_return ?_)
  have hready := (h.later hl).later (later_of_put hl')
  have hfresh : υ.Fresh o := (later_of_put hl').fresh
  obtain ⟨r', hr', hbase⟩ := hready.row n _ hown
  obtain rfl := Option.some.inj hr'
  have hview : o.view υ notifications n = some r := Own.view_of_row hown
  refine ⟨hready.record hfresh rfl rfl hkey ?_ hbase ?_ (shows_update c), fun k r' hk => ?_⟩
  · intro r' hr'
    obtain rfl := Option.some.inj (hview.symm.trans hr')
    rfl
  · rw [← hready.inv.counts n r hview]
    rfl
  · rw [Own.put_row_other _ _ _ (by simp), Own.put_row_same]
    rw [List.lookup_cons] at hk
    by_cases hkn : k = n
    · subst hkn
      simp only [BEq.rfl] at hk
      rw [if_pos rfl, Option.some.inj hk]
    · rw [beq_eq_false_iff_ne.2 hkn] at hk
      rw [if_neg hkn, hfits k r' hk]

/-- a reading of the clock -/
theorem read_wp {α : Type} {t : ℤ} {f : ℤ → Op V α} {P : α → Held V → State V → Prop} (h : Ready o σ)
    (hf : ∀ τ, Ready o τ → (discipline (V := V)).wp i (f t) (Returns P) o τ) :
    (discipline (V := V)).wp i (perform (.read t) >>= f) (Returns P) o σ := by
  refine wp_bind (wp_perform fun τ hl _ => ⟨⟨?_, ?_, fun j _ o' _ => ?_⟩, hf _ ?_⟩)
  · have hinv : Inv τ := hl.inv
    exact ⟨hinv.counts, hinv.into, hinv.latest⟩
  · exact ⟨fun _ _ hr _ => hr, fun _ _ he => he⟩
  · exact ⟨fun _ _ he => he, fun _ _ he _ => he⟩
  · have hready := h.later hl
    exact ⟨⟨hready.inv.counts, hready.inv.into, hready.inv.latest⟩, hready.event, hready.row⟩

theorem add_spec {loaded : Loaded V} (h : Ready o σ) (hfits : Fits loaded o) :
    (discipline (V := V)).wp i (add c) (Returns fun q o' τ => Ready o' τ ∧ Fits (q :: loaded) o') o σ := by
  refine read_wp h fun τ hτ => wp_bind (wp_insert fun υ hl => wp_bind (wp_insert fun ω hl' => wp_return ?_))
  have hυ := hτ.later hl
  obtain ⟨hcom, hrow⟩ := hl.fresh notifications _ (Nat.le_refl (υ.next notifications))
  have hω : (discipline (V := V)).Later i o υ ω :=
    ((Later.refl hl.inv hl.fresh).bump notifications _).trans (later_of_put hl')
  have hcom' : ω.com notifications (υ.next notifications) = none := by
    rw [hl'.com notifications _ (by simp)]
    exact hcom
  have hview : o.view ω notifications (υ.next notifications) = none := (Own.view_of_none hrow).trans hcom'
  have hready := hυ.later hω
  refine ⟨hready.record (e := { key := c.key, payload := c.fields, into := υ.next notifications }) hω.fresh rfl rfl rfl ?_ ?_ ?_
    (fun x v hx => hx), fun k r' hk => ?_⟩
  · intro r' hr'
    rw [hview] at hr'
    cases hr'
  · intro b hb
    rw [hcom'] at hb
    cases hb
  · have hempty : (ω.merge o).matching events (comeInto (υ.next notifications)) = ∅ := by
      refine Set.eq_empty_of_forall_notMem fun m hm => ?_
      simp only [Snap.matching, comeInto, Set.mem_ofPred_eq, Option.any_eq_true, decide_eq_true_eq] at hm
      obtain ⟨e, he, hinto⟩ := hm
      obtain ⟨r, hr, -⟩ := hready.inv.into m e he
      rw [hinto] at hr
      rw [show (ω.merge o).com notifications (υ.next notifications) = none from hview] at hr
      cases hr
    rw [hempty, Set.ncard_empty]
    rfl
  · rw [Own.put_row_other _ _ _ (by simp), Own.put_row_same]
    rw [List.lookup_cons] at hk
    by_cases hkn : k = υ.next notifications
    · subst hkn
      simp only [BEq.rfl] at hk
      rw [if_pos rfl, Option.some.inj hk]
    · rw [beq_eq_false_iff_ne.2 hkn] at hk
      rw [if_neg hkn, hfits k r' hk]

theorem createNotification_spec {loaded : Loaded V} (h : Ready o σ) (hfits : Fits loaded o) :
    (discipline (V := V)).wp i (createNotification digest loaded c)
      (Returns fun q o' τ => Ready o' τ ∧ Fits (q :: loaded) o') o σ := by
  unfold createNotification
  split_ifs
  · refine wp_bind (wp_lockKey fun τ hl _ => ?_)
    have hτ : Ready (o.take (digest c.key)) τ := ⟨(h.later hl).inv, (h.later hl).event, (h.later hl).row⟩
    refine read_wp hτ fun υ hυ => wp_seq (findRecentUnread_spec loaded hυ) fun q o' ω hlocked => ?_
    have hfits' := hlocked.fits hfits
    cases q with
    | none => exact add_spec hlocked.ready hfits'
    | some q =>
      obtain ⟨n, r⟩ := q
      obtain ⟨hown, hcandidate⟩ := hlocked.found n r rfl
      have hloaded : (loaded.lookup n).getD r = r := by
        rcases hr : loaded.lookup n with _ | r'
        · rfl
        · exact Option.some.inj (Option.some.inj ((hfits' n r' hr).symm.trans hown))
      dsimp only
      rw [hloaded]
      simp only [candidate, Bool.and_eq_true, decide_eq_true_eq] at hcandidate
      exact mergeInto_spec hlocked.ready hfits' hown hcandidate.1.1
  · exact add_spec h hfits

theorem createAll_spec {loaded : Loaded V} (calls : List (Call V)) (h : Ready o σ) (hfits : Fits loaded o) :
    (discipline (V := V)).wp i (createAll digest loaded calls) (Returns fun _ o' τ => Ready o' τ) o σ := by
  induction calls generalizing loaded o σ with
  | nil => exact wp_return h
  | cons c calls ih => exact wp_seq (createNotification_spec h hfits) fun q o' τ hq => ih hq.1 hq.2

theorem markRead_spec {userId : ℕ} {ids : List ℕ} {all_ : Bool} {now : ℤ} (h : Ready o σ) :
    (discipline (V := V)).wp i (markRead userId ids all_ now) (Returns fun _ o' τ => Ready o' τ) o σ := by
  unfold markRead
  split_ifs
  · exact wp_return h
  · refine wp_bind (wp_select fun τ hl l _ _ => ?_)
    refine wp_updateAll (I := fun _ o τ => Ready o τ) (fun _ _ _ _ hl' h' => h'.later hl') ?_ (k := 0) (h.later hl)
    intro _ o' υ k r _ hready hview hp
    simp only [Bool.and_eq_true, Option.isNone_iff_eq_none] at hp
    exact hready.rewrite hview hp.2 rfl rfl rfl

/-! ## Runs -/

theorem body_spec (r : Request V) (h : Ready o σ) :
    (discipline (V := V)).wp i (r.body digest) (Returns fun _ o' τ => Ready o' τ) o σ := by
  cases r with
  | create calls fails =>
    refine wp_seq (createAll_spec calls h fun n r hr => by simp at hr) fun _ o' τ hready => ?_
    split_ifs
    · exact wp_fail _
    · exact wp_return hready
  | markRead userId ids all_ now => exact wp_seq (markRead_spec h) fun _ o' τ hready => wp_return hready

theorem prog_spec (r : Request V) (h : Inv σ) : (discipline (V := V)).wp i (r.prog digest) (fun _ _ _ => True) {} σ := by
  refine wp_mono (wp_transaction (body_spec r (ready_empty h)) fun _ o τ hready υ hl _ => ?_) fun _ _ _ _ => trivial
  exact (hready.later hl).good

/-- the committed state after a schedule -/
def after (digest : Key → ℕ) (d : Store V) (requests : ℕ → Request V) (ms : List Move) : State V :=
  (run (init digest d requests) ms).st.snap

/-- the events are in order, and no transaction is open -/
structure Starts (d : Store V) : Prop where
  own : ∀ i, d.own i = {}
  inv : Inv d.snap

variable {d : Store V} {requests : ℕ → Request V}

theorem safe_init (h : Starts d) : (discipline (V := V)).protocol.Safe (init digest d requests) :=
  safe_start h.inv (fun _ => trivial) h.own fun i => prog_spec (requests i) h.inv

theorem legal_run (w : World (Stmt (Row V) ℕ Clock) (Store V) Exn Unit) (ms : List Move) :
    (discipline (V := V)).protocol.Legal w ms := legal_of_ok (fun _ _ _ _ => trivial) (fun _ _ _ => trivial) w ms

theorem inv_after (h : Starts d) (ms : List Move) : Inv (after digest d requests ms) :=
  ((discipline (V := V)).protocol.run_inv (safe_init h) (legal_run _ ms)).1

theorem stays_after (h : Starts d) (pre post : List Move) :
    Stays (after digest d requests pre) (after digest d requests (pre ++ post)) := by
  have hstart : (discipline (V := V)).protocol.Safe (init digest d requests) := safe_init h
  have hsafe := (discipline (V := V)).protocol.run_safe hstart (legal_run _ pre)
  have hstays := (discipline (V := V)).protocol.run_induct (Φ := fun e => Stays (after digest d requests pre) e.snap)
    hsafe (legal_run _ post) (fun i s t _ _ hact hΦ => hΦ.trans hact) (Stays.refl _)
  have hrun : after digest d requests (pre ++ post) = (run (run (init digest d requests) pre) post).st.snap := by
    rw [after, run_append]
  rwa [hrun]

/-- an event that is committed after a notification has been read has come into another -/
theorem into_unread (h : Starts d) (pre post : List Move) {r : Notification V} {e : Event V}
    (hr : (after digest d requests pre).com notifications n = some r) (hread : r.readAt.isSome = true)
    (he : (after digest d requests (pre ++ post)).com events m = some e)
    (hnew : (after digest d requests pre).com events m = none) :
    e.into ≠ n := by
  intro hinto
  have hstays : Stays (after digest d requests pre) (after digest d requests (pre ++ post)) := stays_after h pre post
  have hbefore : Inv (after digest d requests pre) := inv_after h pre
  have hcount := hbefore.counts n r hr
  have hcount' := (inv_after h (pre ++ post)).counts n r (hstays.read n r hr hread)
  -- the events that have come into it are as many as before, and those from before are among them
  have hsub : (after digest d requests pre).matching events (comeInto n) ⊆
      (after digest d requests (pre ++ post)).matching events (comeInto n) := by
    intro k hk
    obtain ⟨e', he', hinto'⟩ := Option.any_eq_true _ _ |>.1 hk
    exact (Option.any_eq_true _ _).2 ⟨e', hstays.event k e' he', hinto'⟩
  have hfinite : ((after digest d requests (pre ++ post)).matching events (comeInto n)).Finite :=
    Snap.matching_finite (o := ({} : Held V)) (fun t k hk => ⟨by
      have hcell := (run (init digest d requests) (pre ++ post)).st.fresh t k hk
      simp only [after, Db.snap, hcell], rfl⟩) _
  have hsame := Set.eq_of_subset_of_ncard_le hsub (by rw [← hcount, ← hcount']) hfinite
  have hmem : m ∈ (after digest d requests (pre ++ post)).matching events (comeInto n) :=
    (Option.any_eq_true _ _).2 ⟨e, he, by simp [comeInto, hinto]⟩
  rw [← hsame] at hmem
  obtain ⟨e', he', -⟩ := Option.any_eq_true _ _ |>.1 hmem
  rw [hnew] at he'
  cases he'

/-! ## Sums -/

/-- what the notifications of a key stand for -/
def total (d : Store V) (key : Key) : ℕ :=
  (((d.committed notifications).filter fun q => decide (q.2.key = key)).map fun q => q.2.total).sum

/-- the events of a key -/
def calls (d : Store V) (key : Key) : ℕ := (d.committed events).countP fun q => decide (q.2.key = key)

theorem total_eq_calls (h : Inv d.snap) (key : Key) : total d key = calls d key := by
  have hnodup : (((d.committed notifications).filter fun q => decide (q.2.key = key)).map Prod.fst).Nodup :=
    nodup_numbers ((d.committed_pairwise notifications).filter _)
  calc total d key = ((((d.committed notifications).filter fun q => decide (q.2.key = key)).map Prod.fst).map fun n =>
        (d.committed events).countP fun q => decide (q.2.into = n)).sum := by
        rw [total, List.map_map]
        congr 1
        refine List.map_congr_left fun q hq => ?_
        have hrow := d.mem_committed.1 (List.mem_of_mem_filter hq)
        have hcount := d.countP_committed (t := events) (comeInto q.1)
        exact (h.counts q.1 q.2 hrow).trans hcount.symm
    _ = (d.committed events).countP fun q => decide (q.2.into ∈
        ((d.committed notifications).filter fun q => decide (q.2.key = key)).map Prod.fst) := sum_countP _ hnodup _
    _ = calls d key := by
        refine List.countP_congr fun q hq => ?_
        obtain ⟨r, hr, hkey⟩ := h.into q.1 q.2 (d.mem_committed.1 hq)
        simp only [decide_eq_true_eq, List.mem_map, List.mem_filter]
        constructor
        · rintro ⟨⟨n, r'⟩, ⟨hmem, hkey'⟩, hn⟩
          have hrow := d.mem_committed.1 hmem
          rw [show n = q.2.into from hn, hr] at hrow
          obtain rfl := Option.some.inj hrow
          exact hkey.symm.trans hkey'
        · intro hq'
          exact ⟨(q.2.into, r), ⟨d.mem_committed.2 hr, hkey.trans hq'⟩, rfl⟩

end LkmService.Notifications
