/-
Unread notifications of one key lie more than a window apart, as long as all calls of the key use that window and the clock does
not go back.

The advisory lock keeps the others from adding a notification of the key or moving one; what they may do is to mark one as read.

- `Apart`: the law.
- `Calm`: what a session has written keeps the law, and it holds the lock if it has written an unread notification of the key.
- `apart_after`: the law holds in every run in which no reading of the clock is before the last one.
-/
import LkmService.Notifications.Ledger

namespace LkmService.Notifications.Window

open Session Sql Sql.Discipline Tbl

set_option linter.unusedSectionVars false

variable {V : Type} {digest : Key → ℕ} {key : Key} {window : ℤ} {i n : ℕ} {o : Held V} {σ τ : State V} {r : Notification V}
  {t : ℤ} {c : Call V}

/-! ## The law -/

/-- unread, and of the key -/
def Unread (key : Key) (r : Notification V) : Prop := r.key = key ∧ r.readAt = none

/-- two unread notifications of the key lie more than the window apart, and none after `t` -/
structure Apart (key : Key) (window t : ℤ) (view : ℕ → Option (Notification V)) : Prop where
  past : ∀ n a, view n = some a → Unread key a → a.createdAt ≤ t
  apart : ∀ n m a b, n ≠ m → view n = some a → view m = some b → Unread key a → Unread key b →
    a.createdAt + window < b.createdAt ∨ b.createdAt + window < a.createdAt

/-- what is unread in the second view was unread in the first, with the same time -/
def Thins (key : Key) (view view' : ℕ → Option (Notification V)) : Prop :=
  ∀ n b, view' n = some b → Unread key b → ∃ a, view n = some a ∧ Unread key a ∧ a.createdAt = b.createdAt

theorem Thins.refl (view : ℕ → Option (Notification V)) : Thins key view view := fun _ b hb hu => ⟨b, hb, hu, rfl⟩

theorem Thins.trans {u v w : ℕ → Option (Notification V)} (h : Thins key u v) (h' : Thins key v w) : Thins key u w := by
  intro n b hb hu
  obtain ⟨a, ha, hua, hat⟩ := h' n b hb hu
  obtain ⟨a', ha', hua', hat'⟩ := h n a ha hua
  exact ⟨a', ha', hua', hat'.trans hat⟩

theorem Apart.thin {u v : ℕ → Option (Notification V)} {t' : ℤ} (h : Apart key window t u) (hthin : Thins key u v) (ht : t ≤ t') :
    Apart key window t' v := by
  refine ⟨fun n b hb hu => ?_, fun n m b b' hne hb hb' hu hu' => ?_⟩
  · obtain ⟨a, ha, hua, hat⟩ := hthin n b hb hu
    exact hat ▸ (h.past n a ha hua).trans ht
  · obtain ⟨a, ha, hua, hat⟩ := hthin n b hb hu
    obtain ⟨a', ha', hua', hat'⟩ := hthin m b' hb' hu'
    rw [← hat, ← hat']
    exact h.apart n m a a' hne ha ha' hua hua'

/-! ## The discipline -/

/-- the clock goes on, and while the session holds the lock no notification of the key comes or moves -/
structure Rely (digest : Key → ℕ) (key : Key) (o : Held V) (σ τ : State V) : Prop where
  clock : σ.ext ≤ τ.ext
  held : o.key (digest key) → Thins key (σ.com notifications) (τ.com notifications)

/-- the reading is not before the last one -/
def forward {β : Type} (x : Clock β) (σ : State V) : Prop :=
  match x with
  | .read t => σ.ext ≤ t

def discipline (digest : Key → ℕ) (key : Key) (window : ℤ) : Discipline (Row V) ℕ Clock ℤ where
  inv σ := Apart key window σ.ext (σ.com notifications)
  rely _ := Rely digest key
  act _ _ _ := True
  ok _ x _ σ := forward x σ
  rely_refl _ _ _ := ⟨le_refl _, fun _ => Thins.refl _⟩
  rely_trans _ _ _ _ _ h h' := ⟨h.clock.trans h'.clock, fun hk => (h.held hk).trans (h'.held hk)⟩
  act_refl _ _ _ := trivial
  grow_inv _ _ _ h := h
  grow_act _ _ _ _ _ := trivial
  grow_rely _ _ _ _ _ _ := ⟨le_refl _, fun _ => Thins.refl _⟩

instance : Lockless (discipline (V := V) digest key window) := ⟨fun _ _ _ => trivial⟩

/-! ## What a session has written -/

structure Calm (digest : Key → ℕ) (key : Key) (window : ℤ) (o : Held V) (σ : State V) : Prop where
  apart : Apart key window σ.ext (o.view σ notifications)
  lock : ∀ n r, o.row notifications n = some (some r) → Unread key r → o.key (digest key)

theorem calm_empty (h : Apart key window σ.ext (σ.com notifications)) : Calm digest key window ({} : Held V) σ :=
  ⟨h, fun _ _ h => by simp at h⟩

/-- what a session that holds the lock sees -/
theorem thins_later (hl : (discipline digest key window).Later i o σ τ) (hk : o.key (digest key)) :
    Thins key (o.view σ notifications) (o.view τ notifications) := by
  intro n b hb hu
  rcases ho : o.row notifications n with _ | v
  · rw [Own.view_of_none ho] at hb ⊢
    exact hl.rely.held hk n b hb hu
  · rw [Own.view_of_row ho] at hb ⊢
    exact ⟨b, hb, hu, rfl⟩

theorem Calm.later (h : Calm digest key window o σ) (hl : (discipline digest key window).Later i o σ τ) :
    Calm digest key window o τ := by
  refine ⟨?_, h.lock⟩
  by_cases hk : o.key (digest key)
  · exact h.apart.thin (thins_later hl hk) hl.rely.clock
  · have hinv : Apart key window τ.ext (τ.com notifications) := hl.inv
    refine hinv.thin (fun n b hb hu => ?_) (le_refl _)
    rcases ho : o.row notifications n with _ | v
    · rw [Own.view_of_none ho] at hb
      exact ⟨b, hb, hu, rfl⟩
    · rw [Own.view_of_row ho] at hb
      subst hb
      exact absurd (h.lock n b ho hu) hk

/-- what the commit of the session owes -/
theorem Calm.good (h : Calm digest key window o σ) : (discipline digest key window).Good i o σ (σ.merge o) := by
  refine ⟨h.apart, trivial, fun j _ o' hd => ⟨le_refl _, fun hk n b hb hu => ?_⟩⟩
  rcases Snap.merge_cases hb with hown | ⟨-, hcom⟩
  · exact absurd (h.lock n b hown hu) (hd.key _ hk)
  · exact ⟨b, hcom, hu, rfl⟩

/-- what is in sight after a row has been written -/
theorem view_put {v b : Notification V} {k : ℕ} (hb : (o.put notifications n (some v)).view σ notifications k = some b) :
    (k = n ∧ b = v) ∨ (k ≠ n ∧ o.view σ notifications k = some b) := by
  by_cases hk : k = n
  · subst hk
    rw [Own.view_of_row (show (o.put notifications k (some v)).row notifications k = some (some v) by simp)] at hb
    exact .inl ⟨rfl, (Option.some.inj hb).symm⟩
  · refine .inr ⟨hk, ?_⟩
    rwa [Own.view, Own.put_row_same, if_neg hk] at hb

/-- a row of the session is written that the law does not see, or one that was there -/
theorem Calm.put (h : Calm digest key window o σ) {v : Notification V} (hthin : Unread key v → o.key (digest key) ∧
    ∃ a, o.view σ notifications n = some a ∧ Unread key a ∧ a.createdAt = v.createdAt) :
    Calm digest key window (o.put notifications n (some v)) σ := by
  refine ⟨h.apart.thin (fun k b hb hu => ?_) (le_refl _), fun k b hb hu => ?_⟩
  · rcases view_put hb with ⟨rfl, rfl⟩ | ⟨-, hb'⟩
    · exact (hthin hu).2
    · exact ⟨b, hb', hu, rfl⟩
  · rw [Own.put_row_same] at hb
    split_ifs at hb with hk
    · obtain rfl := Option.some.inj (Option.some.inj hb)
      exact (hthin hu).1
    · exact h.lock k b hb hu

theorem Calm.event (h : Calm digest key window o σ) (m : ℕ) (e : Event V) :
    Calm digest key window (o.put events m (some e)) (σ.bump events m) := by
  have hrow : (o.put events m (some e)).row notifications = o.row notifications := Own.put_row_other _ _ _ (by simp)
  have hview : (o.put events m (some e)).view (σ.bump events m) notifications = o.view σ notifications := by
    funext k
    simp only [Own.view, hrow, Snap.bump_com]
  refine ⟨hview ▸ h.apart, fun k r hr hu => h.lock k r (by rwa [hrow] at hr) hu⟩

/-! ## The operations -/

/-- the time of every unread notification of the key that the session sees -/
def All (key : Key) (bound : ℤ → Prop) (o : Held V) (σ : State V) : Prop :=
  ∀ n a, o.view σ notifications n = some a → Unread key a → bound a.createdAt

theorem All.thin {bound : ℤ → Prop} {o' : Held V} (h : All key bound o σ)
    (hthin : Thins key (o.view σ notifications) (o'.view τ notifications)) : All key bound o' τ := by
  intro n b hb hu
  obtain ⟨a, ha, hua, hat⟩ := hthin n b hb hu
  exact hat ▸ h n a ha hua

/-- what a session has that may have locked a notification -/
structure Passed (digest : Key → ℕ) (key : Key) (window : ℤ) (o : Held V) (σ : State V) (o' : Held V) (τ : State V) : Prop where
  calm : Calm digest key window o' τ
  keys : o'.key = o.key
  clock : σ.ext ≤ τ.ext
  thins : o.key (digest key) → Thins key (o.view σ notifications) (o'.view τ notifications)

theorem Passed.later {o' : Held V} {υ : State V} (h : Passed digest key window o τ o' υ)
    (hl : (discipline digest key window).Later i o σ τ) : Passed digest key window o σ o' υ :=
  ⟨h.calm, h.keys, hl.rely.clock.trans h.clock, fun hk => (thins_later hl hk).trans (h.thins hk)⟩

/-- the row in sight is locked -/
theorem passed_lock (h : Calm digest key window o σ) (hview : o.view σ notifications n = some r)
    (hlock : Unread key r → o.key (digest key)) :
    Passed digest key window o σ (o.put notifications n (some r)) σ := by
  refine ⟨h.put fun hu => ⟨hlock hu, r, hview, hu, rfl⟩, rfl, le_refl _, fun _ k b hb hu => ?_⟩
  refine ⟨b, ?_, hu, rfl⟩
  by_cases hk : k = n
  · subst hk
    rw [Own.view_of_row (show (o.put notifications k (some r)).row notifications k = some (some r) by simp)] at hb
    rw [hview, hb]
  · rwa [Own.view, Own.put_row_same, if_neg hk] at hb

theorem candidate_congr {key' : Key} {since : ℤ} {a b : Notification V} (ha : Unread key a) (hb : Unread key b)
    (hat : a.createdAt = b.createdAt) : candidate key' since a = candidate key' since b := by
  simp only [candidate, ha.1, ha.2, hb.1, hb.2, hat]

theorem lockNext_spec {key' : Key} {since : ℤ} (ns : List ℕ) (h : Calm digest key window o σ)
    (hlock : key' = key → o.key (digest key)) :
    (discipline digest key window).wp i (lockNext (candidate key' since) ns) (Returns fun q o' τ =>
      Passed digest key window o σ o' τ ∧
      (∀ n r, q = some (n, r) → o'.row notifications n = some (some r) ∧ candidate key' since r = true) ∧
      (q = none → o.key (digest key) → ∀ n ∈ ns, ∀ b, o'.view τ notifications n = some b → Unread key b →
        candidate key' since b = false)) o σ := by
  induction ns generalizing σ with
  | nil =>
    refine wp_return ⟨⟨h, rfl, le_refl _, fun _ => Thins.refl _⟩, fun n r hq => ?_, fun _ _ n hn => ?_⟩
    · cases hq
    · cases hn
  | cons n ns ih =>
    refine wp_bind (wp_lockRow (fun τ hl hmiss => ?_) fun τ r hl hview hcandidate => wp_return ?_)
    · refine wp_returns_mono (ih (h.later hl)) ?_
      rintro q o' υ ⟨hpassed, hfound, hnone⟩
      refine ⟨hpassed.later hl, hfound, fun hq hk m hm b hb hu => ?_⟩
      rcases List.mem_cons.1 hm with rfl | hm
      · obtain ⟨a, ha, hua, hat⟩ := hpassed.thins hk m b hb hu
        rw [← candidate_congr hua hu hat]
        exact hmiss a ha
      · exact hnone hq hk m hm b hb hu
    · have hkey : Unread key r → key' = key := by
        intro hu
        simp only [candidate, Bool.and_eq_true, decide_eq_true_eq] at hcandidate
        exact hcandidate.1.1.symm.trans hu.1
      refine ⟨(passed_lock (h.later hl) hview fun hu => hlock (hkey hu)).later hl, fun k r' hq => ?_, fun hq => ?_⟩
      · obtain ⟨rfl, rfl⟩ := exec_inj hq
        exact ⟨by simp, hcandidate⟩
      · cases hq

theorem findRecentUnread_spec {key' : Key} {since : ℤ} (h : Calm digest key window o σ)
    (hlock : key' = key → o.key (digest key)) :
    (discipline digest key window).wp i (findRecentUnread key' since) (Returns fun q o' τ =>
      Passed digest key window o σ o' τ ∧
      (∀ n r, q = some (n, r) → o'.row notifications n = some (some r) ∧ candidate key' since r = true) ∧
      (q = none → key' = key → All key (· < since) o' τ)) o σ := by
  refine wp_bind (wp_select fun τ hl l hmem _ => ?_)
  refine wp_returns_mono (lockNext_spec _ (h.later hl) hlock) fun q o' υ ⟨hpassed, hfound, hnone⟩ => ?_
  refine ⟨hpassed.later hl, hfound, fun hq hkey n b hb hu => ?_⟩
  obtain ⟨a, ha, hua, hat⟩ := hpassed.thins (hlock hkey) n b hb hu
  by_contra hlt
  have hcandidate : candidate key' since b = true := by
    simp only [candidate, hkey, hu.1, hu.2, Bool.and_eq_true, decide_eq_true_eq, Option.isNone_none, and_self, true_and]
    exact not_lt.1 hlt
  have hin : (n, a) ∈ l := (hmem n a).2 ⟨ha, by rw [candidate_congr hua hu hat]; exact hcandidate⟩
  have hns : n ∈ (l.insertionSort newer).map Prod.fst :=
    List.mem_map.2 ⟨(n, a), (List.mem_insertionSort _).2 hin, rfl⟩
  rw [hnone hq (hlock hkey) n hns b hb hu] at hcandidate
  cases hcandidate

/-- a notification is written with the time `now`, more than a window after the others -/
theorem Apart.put {view view' : ℕ → Option (Notification V)} {now : ℤ} (h : Apart key window t view) (ht : now ≤ t)
    (hother : ∀ m a, m ≠ n → view m = some a → Unread key a → a.createdAt + window < now)
    (hview : ∀ m b, view' m = some b → (m = n ∧ b.createdAt = now) ∨ (m ≠ n ∧ view m = some b)) : Apart key window t view' := by
  refine ⟨fun m b hb hub => ?_, fun m m' b b' hne hb hb' hub hub' => ?_⟩
  · rcases hview m b hb with ⟨-, hnow⟩ | ⟨-, hb⟩
    · exact hnow ▸ ht
    · exact h.past m b hb hub
  · rcases hview m b hb with ⟨hm, hnow⟩ | ⟨hm, hb⟩
    · rcases hview m' b' hb' with ⟨hm', -⟩ | ⟨hm', hb'⟩
      · exact absurd (hm.trans hm'.symm) hne
      · exact .inr (hnow ▸ hother m' b' hm' hb' hub')
    · rcases hview m' b' hb' with ⟨-, hnow'⟩ | ⟨hm', hb'⟩
      · exact .inl (hnow' ▸ hother m b hm hb hub)
      · exact h.apart m m' b b' hne hb hb' hub hub'

/-- the others are more than a window before a notification within the window of `now` -/
theorem Apart.others {view : ℕ → Option (Notification V)} {now : ℤ} (h : Apart key window t view) (hn : view n = some r)
    (hu : Unread key r) (hsince : now - window ≤ r.createdAt) (hall : ∀ m a, view m = some a → Unread key a → a.createdAt ≤ now) :
    ∀ m a, m ≠ n → view m = some a → Unread key a → a.createdAt + window < now := by
  intro m a hm ha hua
  have hnow := hall n r hn hu
  have hpast := hall m a ha hua
  rcases h.apart m n a r hm ha hn hua hu with hlt | hlt
  · omega
  · omega

/-- the session writes a notification with the time `now` -/
theorem Calm.write {now : ℤ} {v : Notification V} (h : Calm digest key window o σ) (hnow : now ≤ σ.ext) (hv : v.createdAt = now)
    (hlock : v.key = key → o.key (digest key))
    (hother : v.key = key → ∀ m a, m ≠ n → o.view σ notifications m = some a → Unread key a → a.createdAt + window < now) :
    Calm digest key window (o.put notifications n (some v)) σ := by
  by_cases hkey : v.key = key
  · refine ⟨h.apart.put hnow (hother hkey) fun m b hb => ?_, fun k b hb hu => ?_⟩
    · rcases view_put hb with ⟨hm, rfl⟩ | hb
      · exact .inl ⟨hm, hv⟩
      · exact .inr hb
    · exact hlock hkey
  · exact h.put fun hu => absurd hu.1 hkey

theorem mergeInto_spec {now : ℤ} {existing : Notification V} (h : Calm digest key window o σ) (hnow : now ≤ σ.ext)
    (hown : o.row notifications n = some (some r)) (hcandidate : candidate c.key (now - c.window) r = true)
    (hlock : c.key = key → c.window = window ∧ o.key (digest key) ∧ All key (· ≤ now) o σ) :
    (discipline digest key window).wp i (mergeInto c now n existing) (Returns fun _ o' τ => Calm digest key window o' τ) o σ := by
  simp only [candidate, Bool.and_eq_true, decide_eq_true_eq, Option.isNone_iff_eq_none] at hcandidate
  obtain ⟨⟨hkey, hread⟩, hsince⟩ := hcandidate
  refine wp_bind (wp_updateRow (fun τ _ _ => wp_fail _) fun τ r' hl hview _ => wp_bind (wp_insert fun υ hl' => wp_return ?_))
  obtain rfl : r = r' := Option.some.inj ((Own.view_of_row hown).symm.trans hview)
  refine Calm.event (Calm.later ?_ hl') _ _
  refine (h.later hl).write (hnow.trans hl.rely.clock) rfl (fun hk => (hlock (hkey.symm.trans hk)).2.1) fun hk => ?_
  obtain ⟨hwindow, hheld, hall⟩ := hlock (hkey.symm.trans hk)
  exact (h.later hl).apart.others hview ⟨hk, hread⟩ (hwindow ▸ hsince) (hall.thin (thins_later hl hheld))

/-- a notification is new, and those that are unread are out of the window -/
theorem add_spec {now : ℤ} (h : Calm digest key window o σ) (hnow : now ≤ σ.ext)
    (hlock : c.key = key → o.key (digest key) ∧ All key (· < now - window) o σ) :
    (discipline digest key window).wp i (add c) (Returns fun _ o' τ => Calm digest key window o' τ) o σ := by
  refine wp_bind (wp_perform fun τ hl hforward => ?_)
  have hinv : Apart key window τ.ext (τ.com notifications) := hl.inv
  have ht : τ.ext ≤ c.later := hforward
  refine ⟨⟨hinv.thin (Thins.refl _) ht, trivial, fun j _ o' _ => ⟨ht, fun _ => Thins.refl _⟩⟩, ?_⟩
  have hτ : Calm digest key window o ({ τ with ext := c.later } : State V) :=
    ⟨(h.later hl).apart.thin (Thins.refl _) ht, h.lock⟩
  refine wp_bind (wp_insert fun υ hl' => wp_bind (wp_insert fun ω hl'' => wp_return (Calm.event (Calm.later ?_ hl'') _ _)))
  have hυ := hτ.later hl'
  have hthin : c.key = key → All key (· < now - window) o υ := by
    intro hk
    obtain ⟨hheld, hall⟩ := hlock hk
    have hstay := thins_later hl' hheld
    exact hall.thin ((thins_later hl hheld).trans hstay)
  have hwrite := hυ.write (v := c.new c.later) (n := υ.next notifications) (show c.later ≤ υ.ext from hl'.rely.clock) rfl
    (fun hk => (hlock hk).1) fun hk m a _ ha hua => ?_
  · exact ⟨hwrite.apart, hwrite.lock⟩
  · have hlt := hthin hk m a ha hua
    have hle := hnow.trans (hl.rely.clock.trans ht)
    omega

/-- the calls of the key aggregate, with the window -/
def Uniform (key : Key) (window : ℤ) (c : Call V) : Prop := c.key = key → c.aggregates = true ∧ c.window = window

theorem createNotification_spec {loaded : Loaded V} (hc : Uniform key window c) (h : Calm digest key window o σ) :
    (discipline digest key window).wp i (createNotification digest loaded c)
      (Returns fun _ o' τ => Calm digest key window o' τ) o σ := by
  unfold createNotification
  split_ifs with haggregates
  · refine wp_bind (wp_lockKey fun τ hl _ => wp_bind (wp_perform fun υ hl' hforward => ?_))
    have hinv : Apart key window υ.ext (υ.com notifications) := hl'.inv
    have ht : υ.ext ≤ c.now := hforward
    refine ⟨⟨hinv.thin (Thins.refl _) ht, trivial, fun j _ o' _ => ⟨ht, fun _ => Thins.refl _⟩⟩, ?_⟩
    have hτ : Calm digest key window (o.take (digest c.key)) τ := ⟨(h.later hl).apart, fun n r hr hu => .inr (h.lock n r hr hu)⟩
    have hυ := hτ.later hl'
    have hread : Calm digest key window (o.take (digest c.key)) ({ υ with ext := c.now } : State V) :=
      ⟨hυ.apart.thin (Thins.refl _) ht, hυ.lock⟩
    have hlock : c.key = key → (o.take (digest c.key)).key (digest key) := fun hk => .inl (by rw [hk])
    have hall : All key (· ≤ c.now) (o.take (digest c.key)) ({ υ with ext := c.now } : State V) :=
      fun n a ha hua => hread.apart.past n a ha hua
    refine wp_seq (findRecentUnread_spec hread hlock) fun q o' ω ⟨hpassed, hfound, hnone⟩ => ?_
    have hclock : c.now ≤ ω.ext := hpassed.clock
    cases q with
    | none =>
      refine add_spec hpassed.calm hclock fun hk => ⟨hpassed.keys ▸ hlock hk, ?_⟩
      exact (hc hk).2 ▸ hnone rfl hk
    | some q =>
      obtain ⟨hown, hcandidate⟩ := hfound q.1 q.2 rfl
      refine mergeInto_spec hpassed.calm hclock hown hcandidate fun hk => ⟨(hc hk).2, hpassed.keys ▸ hlock hk, ?_⟩
      exact hall.thin (hpassed.thins (hlock hk))
  · -- without aggregation, and so of another key
    have hkey : c.key ≠ key := fun hk => haggregates (hc hk).1
    exact add_spec h (le_refl _) fun hk => absurd hk hkey

theorem createAll_spec {loaded : Loaded V} (calls : List (Call V)) (hc : ∀ c ∈ calls, Uniform key window c)
    (h : Calm digest key window o σ) :
    (discipline digest key window).wp i (createAll digest loaded calls)
      (Returns fun _ o' τ => Calm digest key window o' τ) o σ := by
  induction calls generalizing loaded o σ with
  | nil => exact wp_return h
  | cons c calls ih =>
    refine wp_seq (createNotification_spec (hc c List.mem_cons_self) h) fun q o' τ h' => ?_
    exact ih (fun c' hc' => hc c' (List.mem_cons_of_mem _ hc')) h'

theorem markRead_spec {userId : ℕ} {ids : List ℕ} {all_ : Bool} {now : ℤ} (h : Calm digest key window o σ) :
    (discipline digest key window).wp i (markRead userId ids all_ now)
      (Returns fun _ o' τ => Calm digest key window o' τ) o σ := by
  unfold markRead
  split_ifs
  · exact wp_return h
  · refine wp_bind (wp_select fun τ hl l _ _ => ?_)
    refine wp_updateAll (I := fun _ o τ => Calm digest key window o τ) (fun _ _ _ _ hl' h' => h'.later hl') ?_ (k := 0)
      (h.later hl)
    intro _ o' υ k r _ hcalm _ _
    exact hcalm.put fun hu => nomatch hu.2

/-! ## Runs -/

/-- the calls of a request -/
def Request.calls : Request V → List (Call V)
  | .create calls _ => calls
  | .markRead _ _ _ _ => []

theorem prog_spec (q : Request V) (hq : ∀ c ∈ Request.calls q, Uniform key window c)
    (h : Apart key window σ.ext (σ.com notifications)) :
    (discipline digest key window).wp i (q.prog digest) (fun _ _ _ => True) {} σ := by
  have hbody : (discipline digest key window).wp i (q.body digest) (Returns fun _ o' τ => Calm digest key window o' τ) {} σ := by
    cases q with
    | create calls fails =>
      refine wp_seq (createAll_spec calls hq (calm_empty h)) fun _ o' τ h' => ?_
      split_ifs
      · exact wp_fail _
      · exact wp_return h'
    | markRead userId ids all_ now => exact wp_seq (markRead_spec (calm_empty h)) fun _ o' τ h' => wp_return h'
  refine wp_mono (wp_transaction hbody fun _ o τ hcalm υ hl _ => ?_) fun _ _ _ _ => trivial
  exact (hcalm.later hl).good

end LkmService.Notifications.Window
