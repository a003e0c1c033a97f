/-
The requests that follow and unfollow, and what happens to Redis beside them.

A request writes rows of its follower only (`Mine`) and invalidates the follower's key before it commits. The commit
(`good_commit`) changes no list but the follower's, of which nothing is cached while the request is in the window.
-/
import LkmService.Follows.Reads

namespace LkmService.Follows

open Session Sql Tbl

variable {i j n a b u : ℕ} {l : List ℕ} {s t : Store} {tk : Ticket}

/-! ## The end of a transaction -/

/-- what a session that ends its transaction has written and invalidated -/
structure Ready (i a : ℕ) (s : Store) : Prop where
  mine : Mine i a s
  only : ∀ u, (i, u) ∈ s.ext.window → u = a
  invalidated : ∀ n, (s.own i).row follows n ≠ none → (i, a) ∈ s.ext.window

theorem Ready.rely (h : Ready i a s) (hr : Rely i s t) : Ready i a t where
  mine := hr.mine h.mine
  only u hu := h.only u ((hr.window u).1 hu)
  invalidated n hn := (hr.window a).2 (h.invalidated n (hr.own ▸ hn))

/-- the state after the commit of session `i` -/
def commitOf (i : ℕ) (s : Store) : Store := let e := s.finish i true; { e with ext := e.ext.leaveWindow i true }

theorem committed_commit (i : ℕ) (s : Store) (n : ℕ) :
    committed (commitOf i s) n = ((s.own i).row follows n).getD (committed s n) :=
  congrFun (congrFun (congrArg Snap.com (Db.snap_finish_true s)) follows) n

/-- the lists of other users stay -/
theorem lists_commit (h : Mine i a s) (hu : u ≠ a) (hl : Lists l s u) : Lists l (commitOf i s) u := by
  have hrow : ∀ n r, r.followerId = u → (committed (commitOf i s) n = some r ↔ committed s n = some r) := by
    intro n r hr
    rw [committed_commit]
    rcases ho : (s.own i).row follows n with _ | v
    · rfl
    · obtain ⟨⟨r', rfl, hr'⟩, hcom⟩ := h n v ho
      refine ⟨fun he => ?_, fun he => ?_⟩
      · obtain rfl : r' = r := Option.some.inj he
        exact absurd (hr.symm.trans hr') hu
      · exact absurd (hr.symm.trans (hcom r he)) hu
  intro g
  rw [hl g]
  refine exists_congr fun n => exists_congr fun r => ?_
  constructor
  · rintro ⟨hr, hf, hrest⟩
    exact ⟨(hrow n r hf).2 hr, hf, hrest⟩
  · rintro ⟨hr, hf, hrest⟩
    exact ⟨(hrow n r hf).1 hr, hf, hrest⟩

/-- nobody is in the window of another user because of the commit -/
theorem closed_commit (h : Closed s u) : Closed (commitOf i s) u := closed_leave true s.ext h

theorem version_commit (i : ℕ) (s : Store) (u : ℕ) :
    (commitOf i s).ext.version u = if (i, u) ∈ s.ext.window then s.ext.version u + 1 else s.ext.version u := by
  simp [commitOf, Mem.leaveWindow, Db.finish]

/-- the commit of a request -/
theorem good_commit (hi : Inv s) (h : Ready i a s) : protocol.Good i s (commitOf i s) := by
  -- a list stays unless its user is the one in the window
  have hlists : ∀ u l, (i, u) ∉ s.ext.window → Lists l s u → Lists l (commitOf i s) u := by
    intro u l hu hl
    by_cases ha : u = a
    · subst ha
      have hnone : ∀ n, (s.own i).row follows n = none := by
        intro n
        by_contra hn
        exact hu (h.invalidated n hn)
      intro g
      rw [hl g]
      simp only [committed_commit, hnone, Option.getD_none]
    · exact lists_commit h.mine ha hl
  have hopen : ∀ u, Closed s u → (i, u) ∉ s.ext.window := fun u hc hu => hc _ hu rfl
  have hversion : ∀ u, s.ext.version u ≤ (commitOf i s).ext.version u := by
    intro u
    rw [version_commit]
    split_ifs <;> omega
  refine good_of ⟨fun u l e hq => ?_, fun p u f l hf hr => ?_, fun p u f v hf hv => ?_, fun u x e hg => ?_⟩
    fun j hj => ?_
  · obtain ⟨hl, hc⟩ := hi.cached u l e hq
    exact ⟨hlists u l (hopen u hc) hl, closed_commit hc⟩
  · obtain ⟨v, hv, hl⟩ := hi.flight p u f l hf hr
    refine ⟨v, hv, fun he => ?_⟩
    rw [version_commit] at he
    have := hi.seen p u f v hf hv
    split_ifs at he with hw
    · omega
    · exact hlists u l hw (hl he)
  · exact (hi.seen p u f v hf hv).trans (hversion u)
  · exact hi.tokens u x e hg
  · refine
      { own := own_end hj true true s
        window := fun u => window_leave hj true s.ext
        held := fun n hn => ?_
        kept := fun n r hr => ?_
        version := hversion
        lists := fun u l he hl => ?_
        valid := fun u tk hv => ⟨hv.past, hv.old, hv.outlived⟩
        pending := fun u tk l hp => ⟨⟨hp.valid.past, hp.valid.old, hp.valid.outlived⟩, fun hc => ?_⟩
        behind := fun p u v _ hb => hb
        leads := fun p u seen hl => hl }
    · have hnone := (Db.own_disjoint s hj).row follows n hn
      rw [committed_commit, hnone]
      rfl
    · rw [committed_commit]
      rcases ho : (s.own i).row follows n with _ | v
      · exact ⟨r, hr, rfl⟩
      · obtain ⟨⟨r', rfl, hr'⟩, hcom⟩ := h.mine n v ho
        exact ⟨r', rfl, hr'.trans (hcom r hr).symm⟩
    · rw [version_commit] at he
      refine hlists u l (fun hw => ?_) hl
      rw [if_pos hw] at he
      omega
    · obtain ⟨hl, hclosed⟩ := hp.fresh hc
      exact ⟨hlists u l (hopen u hclosed) hl, closed_commit hclosed⟩

/-! ## Statements -/

theorem wp_sql {β : Type} {c : Cmd Row Index β} {Q : Except Exn β → Store → Prop} (hc : c.isCommit = false)
    (hr : c.isRollback = false)
    (h : ∀ t, Rely i s t → ∀ b w, c.exec i t = some (b, w) → Still t w → w.ext = t.ext → Q (.ok b) w) :
    protocol.wp i (.call (.sql c)) Q s := by
  refine (Protocol.wp_call ..).2 fun t hrel hi _ b w he => ?_
  have he' : c.exec i t = some (b, w) := by
    obtain ⟨⟨b', w'⟩, hex, hq⟩ := Option.map_eq_some_iff.1 he
    simp only [hc, hr, Bool.or_self, Bool.false_eq_true, if_false, Prod.mk.injEq] at hq
    obtain ⟨rfl, rfl⟩ := hq
    exact hex
  obtain ⟨hcom, hext, hown⟩ := Discipline.exec_keeps hc hr he'
  have hstill : Still t w :=
    ⟨fun n => hcom follows n, by rw [hext], by rw [hext], by rw [hext], by rw [hext],
      fun u hcl => by unfold Closed; rw [hext]; exact hcl⟩
  refine ⟨good_of (hstill.inv hi (fun _ _ _ hq => hext ▸ hq) fun _ _ f hf _ => ⟨f, hext ▸ hf, rfl, rfl⟩)
    fun j hj => hstill.relyFlights (hown j hj) (fun u => by rw [hext]) (by rw [hext]), h t hrel b w he' hstill hext⟩

/-- a session before its first write: it holds nothing and is in no window -/
structure Idle (i : ℕ) (s : Store) : Prop where
  own : s.own i = {}
  outside : ∀ u, (i, u) ∉ s.ext.window

theorem Idle.rely (h : Idle i s) (hr : Rely i s t) : Idle i t :=
  ⟨hr.own.trans h.own, fun u hu => h.outside u ((hr.window u).1 hu)⟩

/-- a session before its invalidation: it has written rows of its follower, none if `changed` is false -/
structure Wrote (i a : ℕ) (changed : Bool) (s : Store) : Prop where
  mine : Mine i a s
  outside : ∀ u, (i, u) ∉ s.ext.window
  none : changed = false → ∀ n, (s.own i).row follows n = none

theorem Wrote.rely {changed : Bool} (h : Wrote i a changed s) (hr : Rely i s t) : Wrote i a changed t :=
  ⟨hr.mine h.mine, fun u hu => h.outside u ((hr.window u).1 hu), fun hc n => hr.own ▸ h.none hc n⟩

theorem Idle.wrote (h : Idle i s) (a : ℕ) : Wrote i a false s where
  mine n v hv := by simp [h.own] at hv
  outside := h.outside
  none _ n := by simp [h.own]

theorem Wrote.ready (h : Wrote i a false s) : Ready i a s :=
  ⟨h.mine, fun u hu => absurd hu (h.outside u), fun n hn => absurd (h.none rfl n) hn⟩

/-- one row of the follower is written -/
theorem wrote_put {w : Store} {r : UserFollow} (ht : Idle i t) (hown : ∀ m, (w.own i).row follows m =
      ((t.own i).put follows n (some r)).row follows m) (hstill : Still t w) (hext : w.ext = t.ext)
    (hr : r.followerId = a) (hcom : ∀ r, committed t n = some r → r.followerId = a) : Wrote i a true w where
  mine m v hv := by
    rw [hown] at hv
    by_cases hm : m = n
    · subst hm
      rw [Own.put_row_self, Option.some.injEq] at hv
      exact ⟨⟨r, hv.symm, hr⟩, fun r' hr' => hcom r' ((hstill.follow m).symm.trans hr')⟩
    · rw [Own.put_row_of_ne _ _ _ fun _ => hm, ht.own] at hv
      simp at hv
  outside u hu := ht.outside u (hext ▸ hu)
  none h := by simp at h

theorem view_idle (h : Idle i t) : (t.cell follows n).view i = committed t n := by
  rw [Db.view_own, h.own]
  rfl

theorem wp_getPair {Q : Except Exn (Option (ℕ × UserFollow)) → Store → Prop} {b : ℕ} (h : Idle i s)
    (hnone : ∀ t, Idle i t → Q (.ok none) t)
    (hsome : ∀ t n r, Idle i t → committed t n = some r → r.followerId = a → Q (.ok (some (n, r))) t) :
    protocol.wp i (getPair a b) Q s := by
  unfold getPair
  simp only [Protocol.wp_bind]
  refine wp_sql rfl rfl fun t hr l w he _ _ => ?_
  obtain ⟨hl, rfl⟩ : ((t.tab follows).rows i).filter
      (fun q => q.2.followerId == a && q.2.followingId == b) = l ∧ t = w := by simpa [Cmd.exec] using he
  have ht := h.rely hr
  rcases l with _ | ⟨⟨n, r⟩, l⟩
  · exact hnone t ht
  · have hmem : (n, r) ∈ ((t.tab follows).rows i).filter
        (fun q => q.2.followerId == a && q.2.followingId == b) := by
      rw [hl]
      exact List.mem_cons_self
    obtain ⟨hrow, hab⟩ := List.mem_filter.1 hmem
    simp only [Bool.and_eq_true, beq_iff_eq] at hab
    exact hsome t n r ht ((view_idle ht).symm.trans (Table.mem_rows.1 hrow)) hab.1

theorem wp_update {Q : Except Exn Unit → Store → Prop} {f : UserFollow → UserFollow} {r : UserFollow} (h : Idle i s)
    (hr : committed s n = some r) (ha : r.followerId = a) (hf : ∀ r, (f r).followerId = r.followerId)
    (hok : ∀ t, Wrote i a true t → Q (.ok ()) t) :
    protocol.wp i (update n f) Q s := by
  unfold update
  simp only [Protocol.wp_bind]
  refine wp_sql rfl rfl fun t hrel q w he hstill hext => ?_
  have ht := h.rely hrel
  obtain ⟨r', hr', ha'⟩ := hrel.kept n r hr
  have hview := (view_idle ht).trans hr'
  simp only [Cmd.exec, Cmd.onRow, hview, if_true] at he
  split_ifs at he with hbusy
  · simp at he
  · simp only [Option.some.injEq, Prod.mk.injEq] at he
    obtain ⟨rfl, rfl⟩ := he
    refine hok _ (wrote_put ht (n := n) (r := f r') (fun m => ?_) hstill hext ((hf r').trans (ha'.trans ha)) ?_)
    · rw [Db.own_put_self]
    · intro r'' hr''
      rw [hr', Option.some.injEq] at hr''
      exact hr'' ▸ ha'.trans ha

theorem wp_insert {Q : Except Exn (Option ℕ) → Store → Prop} {b : ℕ} (h : Idle i s)
    (hok : ∀ t n, Wrote i a true t → Q (.ok (some n)) t) (hnone : ∀ t, Q (.ok none) t) :
    protocol.wp i (.call (.sql (.insertUnique follows (a, b)
      (fun r => r.followerId == a && r.followingId == b) ⟨a, b, false⟩))) Q s := by
  refine wp_sql rfl rfl fun t hrel q w he hstill hext => ?_
  have ht := h.rely hrel
  simp only [Cmd.exec] at he
  split_ifs at he
  · simp only [Option.some.injEq, Prod.mk.injEq] at he
    obtain ⟨rfl, rfl⟩ := he
    exact hnone _
  · simp only [Option.some.injEq, Prod.mk.injEq] at he
    obtain ⟨rfl, rfl⟩ := he
    refine hok _ _ (wrote_put ht (n := (t.tab follows).next) (r := ⟨a, b, false⟩) (fun m => ?_) hstill hext rfl ?_)
    · rw [Db.own_takeKey_self, Db.own_put_self]
      rfl
    · intro r hr
      have hfresh := t.fresh follows _ (Nat.le_refl (t.tab follows).next)
      have : committed t (t.tab follows).next = none := by
        change (t.cell follows _).committed = none
        rw [hfresh]
      rw [this] at hr
      simp at hr

/-- the invalidation of a session that has changed a row opens its window -/
theorem wp_invalidate {Q : Except Exn Unit → Store → Prop} {changed : Bool} (h : Wrote i a changed s)
    (hok : ∀ t, Ready i a t → Q (.ok ()) t) : protocol.wp i (.call (.act (.invalidate a changed))) Q s := by
  refine wp_act fun t hrel hi hup b w he => ?_
  obtain rfl : { t with ext := t.ext.invalidate i a changed } = w := by simpa [Act.exec] using he
  have ht := h.rely hrel
  have hreach : t.ext.reachable = true := hup
  have hwin : ∀ j u, (j, u) ∈ (t.ext.invalidate i a changed).window ↔
      (changed = true ∧ j = i ∧ u = a) ∨ (j, u) ∈ t.ext.window := by
    intro j u
    cases changed <;> simp [Mem.invalidate, hreach]
  have hguard : (t.ext.invalidate i a changed).guard =
      Function.update t.ext.guard a (some (t.ext.tokens, t.ext.now + guardTtl)) := by
    cases changed <;> simp [Mem.invalidate, hreach]
  have hcached : (t.ext.invalidate i a changed).cached = Function.update t.ext.cached a none := by
    cases changed <;> simp [Mem.invalidate, hreach]
  have hrest : (t.ext.invalidate i a changed).tokens = t.ext.tokens + 1 ∧
      (t.ext.invalidate i a changed).now = t.ext.now ∧ (t.ext.invalidate i a changed).flights = t.ext.flights ∧
      (t.ext.invalidate i a changed).version = t.ext.version := by
    cases changed <;> simp [Mem.invalidate, hreach]
  obtain ⟨htok, hnow, hfl, hver⟩ := hrest
  have hlists : ∀ u l, Lists l t u → Lists l { t with ext := t.ext.invalidate i a changed } u := fun _ _ hl => hl
  -- nothing changes for the keys of other users
  have hclosed : ∀ u, u ≠ a → Closed t u → Closed { t with ext := t.ext.invalidate i a changed } u := by
    intro u hu hc q hq
    rcases (hwin q.1 q.2).1 hq with ⟨-, -, hqa⟩ | hq
    · exact fun he => hu (he.symm.trans hqa)
    · exact hc q hq
  have hvalid : ∀ u tk, Valid u tk t → Valid u tk { t with ext := t.ext.invalidate i a changed } := by
    intro u tk hv
    refine ⟨hnow ▸ hv.past, fun x hx => ?_, fun x e hg hne => ?_⟩
    · have := hv.old x hx
      change x < (t.ext.invalidate i a changed).tokens
      omega
    · change (t.ext.invalidate i a changed).guard u = some (x, e) at hg
      rw [hguard] at hg
      by_cases hu : u = a
      · subst hu
        simp only [Function.update_self, Option.some.injEq, Prod.mk.injEq] at hg
        have := hv.past
        omega
      · rw [Function.update_of_ne hu] at hg
        exact hv.outlived x e hg hne
  have hcurrent : ∀ u tk, Valid u tk t → Current u tk { t with ext := t.ext.invalidate i a changed } →
      u ≠ a ∧ Current u tk t := by
    rintro u tk hv ⟨hlt, htoken⟩
    change ((t.ext.invalidate i a changed).guard u).map Prod.fst = tk.token at htoken
    rw [hguard] at htoken
    by_cases hu : u = a
    · subst hu
      simp only [Function.update_self, Option.map_some] at htoken
      have := hv.old _ htoken.symm
      omega
    · rw [Function.update_of_ne hu] at htoken
      exact ⟨hu, hnow ▸ hlt, htoken⟩
  refine ⟨good_of ⟨fun u l e hq => ?_, fun p u f l hf hr => ?_, fun p u f v hf hv => ?_, fun u x e hg => ?_⟩
    fun j hj => ?_, hok _ ⟨ht.mine, fun u hu => ?_, fun n hn => (hwin i a).2 (Or.inl ⟨?_, rfl, rfl⟩)⟩⟩
  · change (t.ext.invalidate i a changed).cached u = some (l, e) at hq
    rw [hcached] at hq
    by_cases hu : u = a
    · subst hu
      simp at hq
    · rw [Function.update_of_ne hu] at hq
      obtain ⟨hl, hc⟩ := hi.cached u l e hq
      exact ⟨hl, hclosed u hu hc⟩
  · obtain ⟨v, hv, hl⟩ := hi.flight p u f l (hfl ▸ hf) hr
    exact ⟨v, hv, fun he => hl (hver ▸ he)⟩
  · change v ≤ (t.ext.invalidate i a changed).version u
    rw [hver]
    exact hi.seen p u f v (hfl ▸ hf) hv
  · change (t.ext.invalidate i a changed).guard u = some (x, e) at hg
    change x < (t.ext.invalidate i a changed).tokens
    rw [hguard] at hg
    by_cases hu : u = a
    · subst hu
      simp only [Function.update_self, Option.some.injEq, Prod.mk.injEq] at hg
      omega
    · rw [Function.update_of_ne hu] at hg
      have := hi.tokens u x e hg
      omega
  · refine
      { own := rfl
        window := fun u => ?_
        held := fun _ _ => rfl
        kept := fun n r hr => ⟨r, hr, rfl⟩
        version := fun u => Nat.le_of_eq (congrFun hver u).symm
        lists := fun u l _ hl => hl
        valid := hvalid
        pending := fun u tk l hp => ⟨hvalid u tk hp.valid, fun hc => ?_⟩
        behind := fun p u v _ hb f hf => hb f (hfl ▸ hf)
        leads := fun p u seen hl => by unfold Leads; rw [hfl]; exact hl }
    · change (j, u) ∈ (t.ext.invalidate i a changed).window ↔ _
      rw [hwin]
      simp [hj]
    · obtain ⟨hu, hcur⟩ := hcurrent u tk hp.valid hc
      exact ⟨(hp.fresh hcur).1, hclosed u hu (hp.fresh hcur).2⟩
  · rcases (hwin i u).1 hu with ⟨-, -, hua⟩ | hu
    · exact hua
    · exact absurd hu (ht.outside u)
  · cases changed with
    | true => rfl
    | false => exact absurd (ht.none rfl n) hn

/-! ## The requests -/

theorem wp_follow {Q : Except Exn Bool → Store → Prop} {b : ℕ} (h : Idle i s)
    (hok : ∀ t created, Wrote i a created t → Q (.ok created) t) (herr : ∀ t e, Q (.error e) t) :
    protocol.wp i (follow a b) Q s := by
  unfold follow
  simp only [Protocol.wp_bind]
  refine wp_getPair h (fun t ht => ?_) fun t n r ht hr ha => ?_
  · simp only [Protocol.wp_bind]
    exact wp_insert ht (fun t n hw => hok t true hw) fun t => herr t _
  · simp only
    split_ifs with hd
    · simp only [Protocol.wp_bind]
      exact wp_update ht hr ha (fun _ => rfl) fun t hw => hok t true hw
    · exact hok t false (ht.wrote a)

theorem wp_unfollow {Q : Except Exn Bool → Store → Prop} {b : ℕ} (h : Idle i s)
    (hok : ∀ t changed, Wrote i a changed t → Q (.ok changed) t) :
    protocol.wp i (unfollow a b) Q s := by
  unfold unfollow
  simp only [Protocol.wp_bind]
  refine wp_getPair h (fun t ht => hok t false (ht.wrote a)) fun t n r ht hr ha => ?_
  simp only
  split_ifs with hd
  · exact hok t false (ht.wrote a)
  · simp only [Protocol.wp_bind]
    exact wp_update ht hr ha (fun _ => rfl) fun t hw => hok t true hw

/-- a request that has invalidated before it ends may commit -/
theorem wp_getSession {α : Type} {p : Op α}
    (h : protocol.wp i p (fun r t => ∀ b, r = .ok b → Ready i a t) s) :
    protocol.wp i (getSession p) (fun _ _ => True) s := by
  unfold getSession
  rw [Protocol.wp_andThen]
  refine protocol.wp_mono i h fun r t hr => ?_
  rcases r with e | b
  · simp only [Protocol.wp_bind]
    refine (Protocol.wp_call ..).2 fun t' _ hi _ q w he => ?_
    obtain rfl : (let e := t'.finish i false; ({ e with ext := e.ext.leaveWindow i false } : Store)) = w := by
      simpa [Machine.exec, Cmd.exec, Cmd.isCommit, Cmd.isRollback] using he
    exact ⟨good_of (inv_rollback i hi) fun j hj => rely_rollback hj t', trivial⟩
  · simp only [Protocol.wp_bind]
    refine (Protocol.wp_call ..).2 fun t' hrel hi _ q w he => ?_
    obtain rfl : commitOf i t' = w := by
      simpa [commitOf, Machine.exec, Cmd.exec, Cmd.isCommit, Cmd.isRollback] using he
    exact ⟨good_commit hi ((hr b rfl).rely hrel), trivial⟩

theorem followUser_good {b : ℕ} {targetExists : Bool} (h : Idle i s) :
    protocol.wp i (getSession (followUser a b targetExists)) (fun _ _ => True) s := by
  refine wp_getSession (a := a) ?_
  unfold followUser
  split_ifs
  · exact fun _ he => by cases he
  · exact fun _ he => by cases he
  · simp only [Protocol.wp_bind]
    exact wp_follow h (fun t created hw => wp_invalidate hw fun t hr _ _ => hr) fun t e _ he => by cases he

theorem unfollowUser_good {b : ℕ} (h : Idle i s) :
    protocol.wp i (getSession (unfollowUser a b)) (fun _ _ => True) s := by
  refine wp_getSession (a := a) ?_
  unfold unfollowUser
  split_ifs
  · exact fun _ he => by cases he
  · simp only [Protocol.wp_bind]
    refine wp_unfollow h fun t changed hw => ?_
    cases changed with
    | true =>
      simp only [if_true, Protocol.wp_bind]
      exact wp_invalidate hw fun t hr _ _ => hr
    | false => exact fun _ _ => hw.ready

/-! ## Redis by itself -/

/-- a token that expires is one that outlives every ticket which does not carry it -/
theorem current_of_tick (hv : Valid u tk s) (hc : Current u tk { s with ext := s.ext.tick }) : Current u tk s := by
  obtain ⟨hlt, htoken⟩ := hc
  have hlt : s.ext.now + 1 < tk.startedAt + guardTtl := hlt
  refine ⟨by omega, ?_⟩
  change ((s.ext.guard u).filter fun q => s.ext.now + 1 < q.2).map Prod.fst = tk.token at htoken
  rcases hg : s.ext.guard u with _ | ⟨x, e⟩
  · rw [hg] at htoken
    simpa using htoken
  · by_cases he : s.ext.now + 1 < e
    · rw [hg, Option.filter_some, if_pos (by simpa using he)] at htoken
      exact htoken
    · rw [hg] at htoken
      simp only [Option.filter_some, he, decide_false, Bool.false_eq_true, if_false, Option.map_none] at htoken
      have := hv.outlived x e hg (by simp [← htoken])
      omega

theorem good_tick (hi : Inv s) : protocol.Good i s { s with ext := s.ext.tick } := by
  have hguard : ∀ u x e, (s.ext.tick).guard u = some (x, e) → s.ext.guard u = some (x, e) :=
    fun u x e hg => (Option.filter_eq_some_iff.1 hg).1
  have hvalid : ∀ u tk, Valid u tk s → Valid u tk { s with ext := s.ext.tick } := fun u tk hv =>
    ⟨Nat.le_succ_of_le hv.past, hv.old, fun x e hg => hv.outlived x e (hguard u x e hg)⟩
  refine good_of ⟨fun u l e hq => hi.cached u l e (Option.filter_eq_some_iff.1 hq).1, hi.flight, hi.seen,
    fun u x e hg => hi.tokens u x e (hguard u x e hg)⟩ fun j _ => ?_
  exact
    { own := rfl
      window := fun _ => Iff.rfl
      held := fun _ _ => rfl
      kept := fun n r hr => ⟨r, hr, rfl⟩
      version := fun _ => Nat.le_refl _
      lists := fun _ _ _ hl => hl
      valid := hvalid
      pending := fun u tk l hp => ⟨hvalid u tk hp.valid, fun hc => hp.fresh (current_of_tick hp.valid hc)⟩
      behind := fun _ _ _ _ hb => hb
      leads := fun _ _ _ hl => hl }

/-- the keys of a user without a token are lost -/
theorem good_lose (hi : Inv s) (hg : s.ext.guard u = none) :
    protocol.Good i s { s with ext := { s.ext with
      cached := Function.update s.ext.cached u none
      guard := Function.update s.ext.guard u none } } := by
  have hguard : Function.update s.ext.guard u none = s.ext.guard := by
    rw [← hg]
    exact Function.update_eq_self u s.ext.guard
  have hstill : Still s { s with ext := { s.ext with
      cached := Function.update s.ext.cached u none
      guard := Function.update s.ext.guard u none } } := ⟨fun _ => rfl, rfl, hguard, rfl, rfl, fun _ h => h⟩
  refine good_of (hstill.inv hi (fun u' l e hq => ?_) fun _ _ f hf _ => ⟨f, hf, rfl, rfl⟩) fun j _ =>
    hstill.relyFlights rfl (fun _ => Iff.rfl) rfl
  by_cases hu : u' = u
  · subst hu
    simp at hq
  · simpa [Function.update_of_ne hu] using hq

theorem good_connect (b : Bool) (hi : Inv s) :
    protocol.Good i s { s with ext := { s.ext with reachable := b } } := by
  have hstill : Still s { s with ext := { s.ext with reachable := b } } :=
    ⟨fun _ => rfl, rfl, rfl, rfl, rfl, fun _ h => h⟩
  exact good_of (hstill.inv hi (fun _ _ _ h => h) fun _ _ f hf _ => ⟨f, hf, rfl, rfl⟩) fun j _ =>
    hstill.relyFlights rfl (fun _ => Iff.rfl) rfl

/-- every call keeps the protocol -/
theorem call_good (call : Call) (h : Idle i s) : protocol.wp i call.prog (fun _ _ => True) s := by
  cases call with
  | follow a b targetExists => exact followUser_good h
  | unfollow a b => exact unfollowUser_good h
  | read p u canFill ttl =>
    exact protocol.wp_mono i (getFollowingIds_right i _ _ _ (v := s.ext.version u) h.own rfl) fun _ _ _ => trivial
  | tick =>
    simp only [Call.prog, Protocol.wp_bind]
    refine wp_act fun t _ hi _ b w he => ?_
    obtain rfl : { t with ext := t.ext.tick } = w := by simpa [Act.exec] using he
    exact ⟨good_tick hi, trivial⟩
  | connect c =>
    simp only [Call.prog, Protocol.wp_bind]
    refine wp_act fun t _ hi _ b w he => ?_
    obtain rfl : { t with ext := { t.ext with reachable := c } } = w := by simpa [Act.exec] using he
    exact ⟨good_connect c hi, trivial⟩
  | lose u =>
    simp only [Call.prog, Protocol.wp_bind]
    refine wp_act fun t _ hi hg b w he => ?_
    obtain rfl : ({ t with ext := { t.ext with
        cached := Function.update t.ext.cached u none
        guard := Function.update t.ext.guard u none } } : Store) = w := by simpa [Act.exec] using he
    exact ⟨good_lose hi hg, trivial⟩

end LkmService.Follows
