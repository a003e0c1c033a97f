/-
The cached read of whom a user follows.

`getFollowingIds_right`: under the conditions of the protocol a read that starts at version `v` of the list returns
the committed list, if no request of the user has committed meanwhile.
-/
import LkmService.Follows.Invariant

namespace LkmService.Follows

open Session Sql Tbl

variable {i p u v w : ℕ} {l : List ℕ} {s t : Store} {tk : Ticket}

/-- the list was right at version `v`, and still is unless a request of the user has committed -/
def Right (l : List ℕ) (u v : ℕ) (s : Store) : Prop := v ≤ s.ext.version u ∧ (s.ext.version u = v → Lists l s u)

theorem Right.rely (h : Right l u v s) (hr : Rely i s t) : Right l u v t := by
  have := hr.version u
  exact ⟨h.1.trans this, fun he => hr.lists u l (by have := h.1; omega) (h.2 (by have := h.1; omega))⟩

theorem Right.still (h : Right l u v s) (hs : Still s t) : Right l u v t := by
  refine ⟨hs.version ▸ h.1, fun he => hs.lists (h.2 ?_)⟩
  rw [← hs.version]
  exact he

/-- the list that is right now was right at an earlier version, if nothing has been committed since -/
theorem Right.of_le (h : Right l u w s) (hv : v ≤ w) : Right l u v s := by
  have := h.1
  exact ⟨hv.trans h.1, fun he => h.2 (by omega)⟩

theorem Right.of_lists (h : Lists l s u) : Right l u (s.ext.version u) s := ⟨Nat.le_refl _, fun _ => h⟩

/-- a reader that has started at version `v`: what it knows of the flight of its key; it holds no row -/
structure Since (i p u v : ℕ) (s : Store) : Prop where
  le : v ≤ s.ext.version u
  behind : Behind p u v s
  own : s.own i = {}

theorem Since.rely (h : Since i p u v s) (hr : Rely i s t) : Since i p u v t :=
  ⟨h.le.trans (hr.version u), hr.behind p u v h.le h.behind, hr.own.trans h.own⟩

theorem wp_act {β : Type} {x : Act β} {Q : Except Exn β → Store → Prop}
    (h : ∀ t, Rely i s t → Inv t → okAct x t → ∀ b w, x.exec i t = some (b, w) → protocol.Good i t w ∧ Q (.ok b) w) :
    protocol.wp i (.call (.act x)) Q s := h

/-! ## The commands -/

/-- a hit is the committed list -/
theorem lists_of_read (hi : Inv t) (h : t.ext.read u = some l) : Lists l t u := by
  unfold Mem.read at h
  split_ifs at h
  obtain ⟨⟨l', e⟩, hq, rfl⟩ := Option.map_eq_some_iff.1 h
  exact (hi.cached u _ e hq).1

theorem wp_get {Q : Except Exn (Option (List ℕ)) → Store → Prop}
    (hmiss : ∀ t, Rely i s t → Q (.ok none) t) (hhit : ∀ t l, Rely i s t → Lists l t u → Q (.ok (some l)) t) :
    protocol.wp i (.call (.act (.get u))) Q s := by
  refine wp_act fun t hr hi _ b w he => ?_
  obtain ⟨rfl, rfl⟩ : t.ext.read u = b ∧ t = w := by simpa [Act.exec] using he
  refine ⟨good_refl hi, ?_⟩
  rcases hread : t.ext.read u with _ | l
  · exact hmiss t hr
  · exact hhit t l hr (lists_of_read hi hread)

theorem still_setFlight (s : Store) (f : Option Flight) : Still s { s with ext := s.ext.setFlight p u f } :=
  ⟨fun _ => rfl, rfl, rfl, rfl, rfl, fun _ h => h⟩

theorem setFlight_self (m : Mem) (f : Option Flight) : (m.setFlight p u f).flights p u = f := by
  simp [Mem.setFlight]

/-- the call leads a new flight, or joins one that has not read the list before now -/
theorem wp_enter {Q : Except Exn Bool → Store → Prop} (hv : v ≤ s.ext.version u) (hown : s.own i = {})
    (hlead : ∀ t, Since i p u v t → Leads i p u none t → Q (.ok true) t)
    (hjoin : ∀ t, Since i p u v t → Q (.ok false) t) : protocol.wp i (.call (.act (.enter p u))) Q s := by
  refine wp_act fun t hr hi hok b w he => ?_
  have hvt := hv.trans (hr.version u)
  rcases hf : t.ext.flights p u with _ | f
  · simp only [Act.exec, hf, Option.some.injEq, Prod.mk.injEq] at he
    obtain ⟨rfl, rfl⟩ := he
    obtain ⟨hg, _⟩ := good_setFlight (i := i) (p := p) (u := u) (f := some { leader := i, refs := 1 }) hi
      (by rintro g ⟨⟩; simp) (by rintro v' - - g ⟨⟩; simp) (by rintro j - seen ⟨g, hg, -⟩; simp [hf] at hg)
    refine ⟨hg, hlead _ ⟨hvt, ?_, hr.own.trans hown⟩ ⟨_, setFlight_self _ _, rfl, rfl, rfl⟩⟩
    intro g hg w hw
    rw [setFlight_self] at hg
    obtain rfl := Option.some.inj hg
    simp at hw
  · simp only [Act.exec, hf, Option.some.injEq, Prod.mk.injEq] at he
    obtain ⟨rfl, rfl⟩ := he
    have hb : Behind p u v t := by
      intro g hg w hw
      rw [hf] at hg
      obtain rfl := Option.some.inj hg
      simp only [okAct, hf, Option.all_some, decide_eq_true_eq] at hok
      rcases hok with hok | hok
      · simp [hok] at hw
      · rw [hok] at hw
        exact (Option.some.inj hw) ▸ hvt
    obtain ⟨hg, hkeep⟩ := good_setFlight (i := i) (p := p) (u := u) (f := some { f with refs := f.refs + 1 }) hi
      (by rintro g ⟨⟩; exact ⟨fun l hl => hi.flight p u f l hf hl, fun v hv => hi.seen p u f v hf hv⟩)
      (by rintro v' - hb g ⟨⟩ w hw; exact hb f hf w hw)
      (by
        rintro j - seen ⟨g, hg, hrest⟩
        rw [hf] at hg
        obtain rfl := Option.some.inj hg
        exact ⟨_, rfl, hrest⟩)
    exact ⟨hg, hjoin _ ⟨hvt, hkeep p u v hvt hb, hr.own.trans hown⟩⟩

/-- the leader's flight has read the list as it is now -/
theorem good_look (hi : Inv t) (hl : Leads i p u none t) (hs : Since i p u v t) :
    protocol.Good i t { t with ext := t.ext.look i p u } ∧
      Leads i p u (some (t.ext.version u)) { t with ext := t.ext.look i p u } ∧
      Since i p u v { t with ext := t.ext.look i p u } ∧ Still t { t with ext := t.ext.look i p u } := by
  obtain ⟨f, hf, hlead, hres, _⟩ := hl
  have hlook : t.ext.look i p u = t.ext.setFlight p u (some { f with seen := some (t.ext.version u) }) := by
    simp [Mem.look, hf, hlead]
  rw [hlook]
  obtain ⟨hg, hkeep⟩ := good_setFlight (i := i) (p := p) (u := u)
    (f := some { f with seen := some (t.ext.version u) }) hi
    (by rintro g ⟨⟩; simp [hres]) (by rintro v' hv' - g ⟨⟩ w hw; exact (Option.some.inj hw) ▸ hv')
    (by
      rintro j hj seen ⟨g, hg, hgl, -⟩
      rw [hf] at hg
      obtain rfl := Option.some.inj hg
      exact absurd (hgl.symm.trans hlead) hj)
  exact ⟨hg, ⟨_, setFlight_self _ _, hlead, hres, rfl⟩, ⟨hs.le, hkeep p u v hs.le hs.behind, hs.own⟩,
    still_setFlight t _⟩

theorem wp_reget {Q : Except Exn (Option (List ℕ)) → Store → Prop} (hs : Since i p u v s) (hl : Leads i p u none s)
    (hmiss : ∀ t, Since i p u v t → Leads i p u none t → Q (.ok none) t)
    (hhit : ∀ t l w, Since i p u v t → Leads i p u (some w) t → Right l u w t → Q (.ok (some l)) t) :
    protocol.wp i (.call (.act (.reget p u))) Q s := by
  refine wp_act fun t hr hi _ b w he => ?_
  have hst := hs.rely hr
  have hlt := hr.leads p u none hl
  rcases hread : t.ext.read u with _ | l
  · simp only [Act.exec, hread, Option.some.injEq, Prod.mk.injEq] at he
    obtain ⟨rfl, rfl⟩ := he
    exact ⟨good_refl hi, hmiss t hst hlt⟩
  · simp only [Act.exec, hread, Option.some.injEq, Prod.mk.injEq] at he
    obtain ⟨rfl, rfl⟩ := he
    obtain ⟨hg, hlead, hsince, hstill⟩ := good_look hi hlt hst
    exact ⟨hg, hhit _ l _ hsince hlead ((Right.of_lists (lists_of_read hi hread)).still hstill)⟩

/-- a ticket that has just been taken -/
theorem wp_guardGet {Q : Except Exn (Option Ticket) → Store → Prop} (hs : Since i p u v s) (hl : Leads i p u none s)
    (h : ∀ t ticket, Since i p u v t → Leads i p u none t → (∀ tk, ticket = some tk → Valid u tk t) → Q (.ok ticket) t) :
    protocol.wp i (.call (.act (.guardGet u))) Q s := by
  refine wp_act fun t hr hi _ b w he => ?_
  simp only [Act.exec, Option.some.injEq, Prod.mk.injEq] at he
  obtain ⟨rfl, rfl⟩ := he
  refine ⟨good_refl hi, h t _ (hs.rely hr) (hr.leads p u none hl) fun tk htk => ?_⟩
  split_ifs at htk
  obtain rfl := Option.some.inj htk
  refine ⟨Nat.le_refl _, fun x hx => ?_, fun x e hg hne => ?_⟩
  · obtain ⟨⟨x', e⟩, hg, rfl⟩ := Option.map_eq_some_iff.1 hx
    exact hi.tokens u _ e hg
  · exact absurd (by simp [hg]) hne

/-- what a session that holds no row sees is committed -/
theorem lists_load (hown : t.own i = {}) : Lists (listFollowingIds i u t) t u := by
  have hview : ∀ n, (t.cell follows n).view i = committed t n := by
    intro n
    rw [Db.view_own, hown]
    rfl
  intro g
  simp only [listFollowingIds, List.mem_filterMap, Prod.exists]
  constructor
  · rintro ⟨n, r, hmem, hq⟩
    split_ifs at hq with hc
    exact ⟨n, r, (hview n).symm.trans (Table.mem_rows.1 hmem), hc.1, Option.some.inj hq, hc.2⟩
  · rintro ⟨n, r, hr, hu, hg, hd⟩
    exact ⟨n, r, Table.mem_rows.2 ((hview n).trans hr), by simp [hu, hg, hd]⟩

theorem wp_load {ticket : Option Ticket} {Q : Except Exn (List ℕ) → Store → Prop}
    (hs : Since i p u v s) (hl : Leads i p u none s) (hv : ∀ tk, ticket = some tk → Valid u tk s)
    (h : ∀ t l w, Since i p u v t → Leads i p u (some w) t → Right l u w t →
      (∀ tk, ticket = some tk → Pending u tk l t) → Q (.ok l) t) :
    protocol.wp i (.call (.act (.load p u ticket))) Q s := by
  refine wp_act fun t hr hi hok b w he => ?_
  simp only [Act.exec, Option.some.injEq, Prod.mk.injEq] at he
  obtain ⟨rfl, rfl⟩ := he
  have hlists : Lists (listFollowingIds i u t) t u := lists_load (hs.rely hr).own
  obtain ⟨hg, hlead, hsince, hstill⟩ := good_look hi (hr.leads p u none hl) (hs.rely hr)
  refine ⟨hg, h _ _ _ hsince hlead ((Right.of_lists hlists).still hstill) fun tk htk => ?_⟩
  subst htk
  exact hstill.pending ⟨hr.valid u tk (hv tk rfl), fun hc => ⟨hlists, hok tk rfl hc⟩⟩

/-- what is cached is the committed list, between the requests of its user -/
theorem wp_fill {ttl : ℕ} {Q : Except Exn Unit → Store → Prop} (hs : Since i p u v s) (hl : Leads i p u (some w) s)
    (hr : Right l u w s) (hp : Pending u tk l s)
    (h : ∀ t, Since i p u v t → Leads i p u (some w) t → Right l u w t → Q (.ok ()) t) :
    protocol.wp i (.call (.act (.fill u l tk ttl))) Q s := by
  refine wp_act fun t hrel hi _ b w' he => ?_
  simp only [Act.exec, Option.some.injEq, Prod.mk.injEq] at he
  obtain ⟨-, rfl⟩ := he
  have hst := hs.rely hrel
  have hlt := hrel.leads p u _ hl
  have hrt := hr.rely hrel
  split_ifs with hacc
  · have hstill : Still t { t with ext := { t.ext with
        cached := Function.update t.ext.cached u (some (l, t.ext.now + ttl)) } } :=
      ⟨fun _ => rfl, rfl, rfl, rfl, rfl, fun _ h => h⟩
    obtain ⟨hlists, hclosed⟩ := (hrel.pending u tk l hp).fresh ⟨hacc.1, hacc.2.2.1⟩
    refine ⟨good_of ⟨fun u' l' e hq => ?_, hi.flight, hi.seen, hi.tokens⟩ fun j _ =>
      hstill.relyFlights rfl (fun _ => Iff.rfl) rfl, h _ ⟨hst.le, hst.behind, hst.own⟩ hlt hrt⟩
    by_cases hu : u' = u
    · subst hu
      simp only [Function.update_self, Option.some.injEq, Prod.mk.injEq] at hq
      obtain ⟨rfl, -⟩ := hq
      exact ⟨hlists, hclosed⟩
    · simp only [Function.update_of_ne hu] at hq
      exact hi.cached u' l' e hq
  · exact ⟨good_refl hi, h t hst hlt hrt⟩

theorem wp_publish {Q : Except Exn Unit → Store → Prop} (hs : Since i p u v s) (hl : Leads i p u (some w) s)
    (hr : Right l u w s) (h : ∀ t, Since i p u v t → Q (.ok ()) t) :
    protocol.wp i (.call (.act (.publish p u l))) Q s := by
  refine wp_act fun t hrel hi _ b w' he => ?_
  have hst := hs.rely hrel
  obtain ⟨f, hf, hlead, hres, hseen⟩ := hrel.leads p u _ hl
  have hrt := hr.rely hrel
  simp only [Act.exec, hf, if_pos hlead, Option.some.injEq, Prod.mk.injEq] at he
  obtain ⟨-, rfl⟩ := he
  obtain ⟨hg, hkeep⟩ := good_setFlight (i := i) (p := p) (u := u) (f := some { f with result := some l }) hi
    (by
      rintro g ⟨⟩
      refine ⟨fun l' hl' => ⟨w, hseen, fun he => ?_⟩, fun v hv => hi.seen p u f v hf hv⟩
      obtain rfl := Option.some.inj hl'
      exact hrt.2 he.symm)
    (by rintro v' - hb g ⟨⟩ w hw; exact hb f hf w hw)
    (by
      rintro j hj seen ⟨g, hg, hgl, -⟩
      rw [hf] at hg
      obtain rfl := Option.some.inj hg
      exact absurd (hgl.symm.trans hlead) hj)
  exact ⟨hg, h _ ⟨hst.le, hkeep p u v hst.le hst.behind, hst.own⟩⟩

theorem wp_await {Q : Except Exn (List ℕ) → Store → Prop} (hs : Since i p u v s)
    (h : ∀ t l, Right l u v t → Q (.ok l) t) : protocol.wp i (.call (.act (.await p u))) Q s := by
  refine wp_act fun t hrel hi _ b w he => ?_
  have hst := hs.rely hrel
  rcases hf : t.ext.flights p u with _ | f
  · simp [Act.exec, hf] at he
  · rcases hres : f.result with _ | l
    · simp [Act.exec, hf, hres] at he
    · simp only [Act.exec, hf, Option.bind_some, hres, Option.some.injEq, Prod.mk.injEq] at he
      obtain ⟨rfl, rfl⟩ := he
      obtain ⟨w, hseen, hl⟩ := hi.flight p u f l hf hres
      have hle := hst.behind f hf w hseen
      have := hi.seen p u f w hf hseen
      exact ⟨good_refl hi, h t l ⟨hst.le, fun he => hl (by omega)⟩⟩

theorem wp_leave {Q : Except Exn Unit → Store → Prop} (hr : Right l u v s) (h : ∀ t, Right l u v t → Q (.ok ()) t) :
    protocol.wp i (.call (.act (.leave p u))) Q s := by
  refine wp_act fun t hrel hi _ b w he => ?_
  have hrt := hr.rely hrel
  rcases hf : t.ext.flights p u with _ | f
  · simp only [Act.exec, hf, Option.some.injEq, Prod.mk.injEq] at he
    obtain ⟨-, rfl⟩ := he
    exact ⟨good_refl hi, h t hrt⟩
  · simp only [Act.exec, hf, Option.some.injEq, Prod.mk.injEq] at he
    obtain ⟨-, rfl⟩ := he
    refine ⟨(good_setFlight hi ?_ ?_ ?_).1, h _ (hrt.still (still_setFlight t _))⟩
    · intro g hg
      split_ifs at hg
      obtain rfl := Option.some.inj hg
      exact ⟨fun l hl => hi.flight p u f l hf hl, fun v hv => hi.seen p u f v hf hv⟩
    · intro v' _ hb g hg w hw
      split_ifs at hg
      obtain rfl := Option.some.inj hg
      exact hb f hf w hw
    · rintro j - seen ⟨g, hg, hgl, hgr, hgs⟩
      rw [hf] at hg
      obtain rfl := Option.some.inj hg
      exact ⟨{ f with refs := f.refs - 1 }, if_neg (by simp [hgr]), hgl, hgr, hgs⟩

/-! ## The read -/

theorem loadAndFill_since {canFill : Bool} {ttl : ℕ} (hs : Since i p u v s) (hl : Leads i p u none s) :
    protocol.wp i (loadAndFill p u canFill ttl) (fun r t => r = .ok () ∧ Since i p u v t) s := by
  -- from the ticket on: the list is loaded, perhaps cached, and published
  have hload : ∀ (ticket : Option Ticket) (f : List ℕ → Op Unit) (s : Store), Since i p u v s → Leads i p u none s →
      (∀ tk, ticket = some tk → Valid u tk s) → (ticket = none → ∀ l, f l = .call (.act (.publish p u l))) →
      (∀ tk, ticket = some tk → ∀ l, f l = do
        let _ ← .call (.act (.fill u l tk ttl))
        .call (.act (.publish p u l))) →
      protocol.wp i (.call (.act (.load p u ticket)) >>= f) (fun r t => r = .ok () ∧ Since i p u v t) s := by
    intro ticket f s hs hl hv hnone hsome
    rw [Protocol.wp_bind]
    refine wp_load hs hl hv fun t l w hs hl hr hp => ?_
    rcases ticket with _ | tk
    · simp only [hnone rfl]
      exact wp_publish hs hl hr fun _ hs => ⟨rfl, hs⟩
    · simp only [hsome tk rfl, Protocol.wp_bind]
      exact wp_fill hs hl hr (hp tk rfl) fun t hs hl hr => wp_publish hs hl hr fun _ hs => ⟨rfl, hs⟩
  unfold loadAndFill
  rw [Protocol.wp_bind]
  refine wp_reget hs hl (fun t hs hl => ?_) fun t l w hs hl hr => wp_publish hs hl hr fun _ hs => ⟨rfl, hs⟩
  cases canFill with
  | true =>
    simp only [if_true, Protocol.wp_bind]
    refine wp_guardGet hs hl fun t ticket hs hl hv => ?_
    refine (Protocol.wp_bind ..).1 (hload ticket _ t hs hl hv ?_ ?_)
    · rintro rfl _
      rfl
    · rintro tk rfl _
      rfl
  | false => exact hload none _ t hs hl (fun _ h => by cases h) (fun _ _ => rfl) fun _ h => by cases h

variable (i p) in
/-- a read returns the committed list, unless a request of the user has committed since it began -/
theorem getFollowingIds_right (canFill : Bool) (ttl : ℕ) (hown : s.own i = {}) (hv : s.ext.version u = v) :
    protocol.wp i (getFollowingIds p u canFill ttl)
      (fun r t => ∃ l, r = .ok (.ids l) ∧ Right l u v t) s := by
  unfold getFollowingIds
  rw [Protocol.wp_bind]
  refine wp_get (fun t hr => ?_) fun t l hr hl => ⟨l, rfl, (Right.of_lists hl).of_le (hv ▸ hr.version u)⟩
  simp only [Protocol.wp_bind]
  have htail : ∀ t, Since i p u v t → protocol.wp i (do
      let l ← .call (.act (.await p u))
      let _ ← .call (.act (.leave p u))
      pure (.ids l) : Op Answer) (fun r t => ∃ l, r = .ok (.ids l) ∧ Right l u v t) t := by
    intro t hs
    rw [Protocol.wp_bind]
    refine wp_await hs fun t l hr => ?_
    simp only [Protocol.wp_bind]
    exact wp_leave hr fun t hr => ⟨l, rfl, hr⟩
  refine wp_enter (hv ▸ hr.version u) (hr.own.trans hown) (fun t hs hl => ?_) fun t hs => ?_
  · simp only [if_true, Protocol.wp_bind]
    refine protocol.wp_mono i (loadAndFill_since hs hl) fun r t hs => ?_
    obtain ⟨rfl, hs⟩ := hs
    exact htail t hs
  · exact htail t hs

end LkmService.Follows
