/-
What holds of the cached lists while requests follow, unfollow and read.

- `Inv`: a cached list is the committed one and no request of its user is between its invalidation and its commit; so
  is the result of a flight that has read the list as it is now.
- `Rely`: what a session keeps while the others move. Its rows and its flight are left alone, a ticket that the others
  have not invalidated stays good, and a list stays right as long as no request of its user commits.
- `protocol`: the conditions on the moves, `okAct`, under which every step keeps both.
-/
import LkmService.Follows.Model

namespace LkmService.Follows

open Session Sql Tbl

variable {i j n p u v : ℕ} {l : List ℕ} {s t : Store} {tk : Ticket}

/-! ## Assertions -/

/-- the committed rows of the table -/
def committed (s : Store) (n : ℕ) : Option UserFollow := s.snap.com follows n

/-- the list holds whom the user follows in the committed rows -/
def Lists (l : List ℕ) (s : Store) (u : ℕ) : Prop :=
  ∀ g, g ∈ l ↔ ∃ n r, committed s n = some r ∧ r.followerId = u ∧ r.followingId = g ∧ r.deleted = false

/-- no request of the user is between its invalidation and the end of its transaction -/
def Closed (s : Store) (u : ℕ) : Prop := ∀ q ∈ s.ext.window, q.2 ≠ u

/-- a ticket: any token put since it was taken outlives it -/
structure Valid (u : ℕ) (tk : Ticket) (s : Store) : Prop where
  past : tk.startedAt ≤ s.ext.now
  old : ∀ x, tk.token = some x → x < s.ext.tokens
  outlived : ∀ x e, s.ext.guard u = some (x, e) → tk.token ≠ some x → tk.startedAt + guardTtl ≤ e

/-- the ticket is neither too old nor invalidated -/
def Current (u : ℕ) (tk : Ticket) (s : Store) : Prop :=
  s.ext.now < tk.startedAt + guardTtl ∧ (s.ext.guard u).map Prod.fst = tk.token

/-- a list that has been loaded with the ticket: as long as the ticket is current the list may be cached -/
structure Pending (u : ℕ) (tk : Ticket) (l : List ℕ) (s : Store) : Prop where
  valid : Valid u tk s
  fresh : Current u tk s → Lists l s u ∧ Closed s u

/-- the flight of the key has read no version before `v` -/
def Behind (p u v : ℕ) (s : Store) : Prop := ∀ f, s.ext.flights p u = some f → ∀ w, f.seen = some w → v ≤ w

/-- session `i` leads the flight of the key, which has read the version `seen` and has no result -/
def Leads (i p u : ℕ) (seen : Option ℕ) (s : Store) : Prop :=
  ∃ f, s.ext.flights p u = some f ∧ f.leader = i ∧ f.result = none ∧ f.seen = seen

/-- the rows that session `i` has written are rows of the user -/
def Mine (i u : ℕ) (s : Store) : Prop :=
  ∀ n v, (s.own i).row follows n = some v → (∃ r, v = some r ∧ r.followerId = u) ∧
    ∀ r, committed s n = some r → r.followerId = u

structure Inv (s : Store) : Prop where
  cached : ∀ u l e, s.ext.cached u = some (l, e) → Lists l s u ∧ Closed s u
  flight : ∀ p u f l, s.ext.flights p u = some f → f.result = some l →
    ∃ v, f.seen = some v ∧ (v = s.ext.version u → Lists l s u)
  seen : ∀ p u f v, s.ext.flights p u = some f → f.seen = some v → v ≤ s.ext.version u
  tokens : ∀ u x e, s.ext.guard u = some (x, e) → x < s.ext.tokens

/-! ## What a session may rely on -/

structure Rely (i : ℕ) (s t : Store) : Prop where
  own : t.own i = s.own i
  window : ∀ u, (i, u) ∈ t.ext.window ↔ (i, u) ∈ s.ext.window
  held : ∀ n, (s.own i).row follows n ≠ none → committed t n = committed s n
  kept : ∀ n r, committed s n = some r → ∃ r', committed t n = some r' ∧ r'.followerId = r.followerId
  version : ∀ u, s.ext.version u ≤ t.ext.version u
  lists : ∀ u l, t.ext.version u = s.ext.version u → Lists l s u → Lists l t u
  valid : ∀ u tk, Valid u tk s → Valid u tk t
  pending : ∀ u tk l, Pending u tk l s → Pending u tk l t
  behind : ∀ p u v, v ≤ s.ext.version u → Behind p u v s → Behind p u v t
  leads : ∀ p u seen, Leads i p u seen s → Leads i p u seen t

theorem Rely.refl (i : ℕ) (s : Store) : Rely i s s where
  own := rfl
  window _ := Iff.rfl
  held _ _ := rfl
  kept _ r h := ⟨r, h, rfl⟩
  version _ := Nat.le_refl _
  lists _ _ _ h := h
  valid _ _ h := h
  pending _ _ _ h := h
  behind _ _ _ _ h := h
  leads _ _ _ h := h

theorem Rely.trans {w : Store} (h : Rely i s t) (h' : Rely i t w) : Rely i s w where
  own := h'.own.trans h.own
  window u := (h'.window u).trans (h.window u)
  held n hn := (h'.held n (h.own ▸ hn)).trans (h.held n hn)
  kept n r hr := by
    obtain ⟨r₁, hr₁, he₁⟩ := h.kept n r hr
    obtain ⟨r₂, hr₂, he₂⟩ := h'.kept n r₁ hr₁
    exact ⟨r₂, hr₂, he₂.trans he₁⟩
  version u := (h.version u).trans (h'.version u)
  lists u l hv hl := by
    have h₁ := h.version u
    have h₂ := h'.version u
    exact h'.lists u l (by omega) (h.lists u l (by omega) hl)
  valid u tk hv := h'.valid u tk (h.valid u tk hv)
  pending u tk l hp := h'.pending u tk l (h.pending u tk l hp)
  behind p u v hv hb := h'.behind p u v (hv.trans (h.version u)) (h.behind p u v hv hb)
  leads p u seen hl := h'.leads p u seen (h.leads p u seen hl)

theorem Rely.mine (h : Rely i s t) (hm : Mine i u s) : Mine i u t := by
  intro n v hv
  rw [h.own] at hv
  refine ⟨(hm n v hv).1, fun r hr => (hm n v hv).2 r ?_⟩
  rw [← h.held n (by simp [hv])]
  exact hr

/-! ## Steps that leave the rows and the tokens alone -/

/-- two states with the same committed rows, tokens and versions, and no more open windows -/
structure Still (s t : Store) : Prop where
  follow : ∀ n, committed t n = committed s n
  now : t.ext.now = s.ext.now
  guard : t.ext.guard = s.ext.guard
  tokens : t.ext.tokens = s.ext.tokens
  version : t.ext.version = s.ext.version
  closed : ∀ u, Closed s u → Closed t u

theorem Still.lists (h : Still s t) (hl : Lists l s u) : Lists l t u := by
  intro g
  rw [hl g]
  simp only [h.follow]

theorem Still.valid (h : Still s t) (hv : Valid u tk s) : Valid u tk t where
  past := h.now ▸ hv.past
  old x hx := h.tokens ▸ hv.old x hx
  outlived x e hg := hv.outlived x e (h.guard ▸ hg)

theorem Still.pending (h : Still s t) (hp : Pending u tk l s) : Pending u tk l t where
  valid := h.valid hp.valid
  fresh hc := by
    have hcur : Current u tk s := ⟨h.now ▸ hc.1, h.guard ▸ hc.2⟩
    exact ⟨h.lists (hp.fresh hcur).1, h.closed u (hp.fresh hcur).2⟩

theorem Still.rely (h : Still s t) (hown : t.own j = s.own j) (hwin : ∀ u, (j, u) ∈ t.ext.window ↔ (j, u) ∈ s.ext.window)
    (hb : ∀ p u v, v ≤ s.ext.version u → Behind p u v s → Behind p u v t)
    (hl : ∀ p u seen, Leads j p u seen s → Leads j p u seen t) : Rely j s t where
  own := hown
  window := hwin
  held n _ := h.follow n
  kept n r hr := ⟨r, (h.follow n).trans hr, rfl⟩
  version u := by rw [h.version]
  lists _ _ _ hl := h.lists hl
  valid _ _ hv := h.valid hv
  pending _ _ _ hp := h.pending hp
  behind := hb
  leads := hl

/-- and the same flights -/
theorem Still.relyFlights (h : Still s t) (hown : t.own j = s.own j) (hwin : ∀ u, (j, u) ∈ t.ext.window ↔ (j, u) ∈ s.ext.window)
    (hf : t.ext.flights = s.ext.flights) : Rely j s t :=
  h.rely hown hwin (fun p u v _ hb => by unfold Behind; rw [hf]; exact hb)
    (fun p u seen hl => by unfold Leads; rw [hf]; exact hl)

theorem Still.inv (h : Still s t) (hi : Inv s)
    (hc : ∀ u l e, t.ext.cached u = some (l, e) → s.ext.cached u = some (l, e))
    (hf : ∀ p u f, t.ext.flights p u = some f → f.result ≠ none ∨ f.seen ≠ none →
      ∃ f', s.ext.flights p u = some f' ∧ f'.result = f.result ∧ f'.seen = f.seen) : Inv t where
  cached u l e hq := by
    obtain ⟨hl, hcl⟩ := hi.cached u l e (hc u l e hq)
    exact ⟨h.lists hl, h.closed u hcl⟩
  flight p u f l hq hr := by
    obtain ⟨f', hq', hr', hs'⟩ := hf p u f hq (Or.inl (by simp [hr]))
    obtain ⟨v, hv, hl⟩ := hi.flight p u f' l hq' (hr'.trans hr)
    exact ⟨v, hs' ▸ hv, fun he => h.lists (hl (h.version ▸ he))⟩
  seen p u f v hq hs := by
    obtain ⟨f', hq', _, hs'⟩ := hf p u f hq (Or.inr (by simp [hs]))
    rw [h.version]
    exact hi.seen p u f' v hq' (hs'.trans hs)
  tokens u x e hg := by
    rw [h.tokens]
    exact hi.tokens u x e (h.guard ▸ hg)

/-! ## Conditions on the moves -/

/-- A list that may be cached later is not loaded between the invalidation and the commit of a request of its user. A
read joins no flight that has read the list before the last commit. The invalidations reach Redis, and Redis does not
lose a token. -/
def okAct {β : Type} (x : Act β) (s : Store) : Prop :=
  match x with
  | .enter p u => (s.ext.flights p u).all fun f => f.seen = none ∨ f.seen = some (s.ext.version u)
  | .load _ u ticket => ∀ tk ∈ ticket, Current u tk s → Closed s u
  | .invalidate _ _ => s.ext.reachable = true
  | .lose u => s.ext.guard u = none
  | _ => True

instance {β : Type} (x : Act β) (s : Store) : Decidable (okAct x s) :=
  match x with
  | .enter _ _ => inferInstanceAs (Decidable (_ = true))
  | .load _ u ticket =>
    have : ∀ tk, Decidable (Current u tk s) := fun _ => inferInstanceAs (Decidable (_ ∧ _))
    have : Decidable (Closed s u) := inferInstanceAs (Decidable (∀ q ∈ s.ext.window, q.2 ≠ u))
    inferInstanceAs (Decidable (∀ tk ∈ ticket, Current u tk s → Closed s u))
  | .invalidate _ _ => inferInstanceAs (Decidable (_ = true))
  | .lose _ => inferInstanceAs (Decidable (_ = none))
  | .get _ | .reget _ _ | .guardGet _ | .fill _ _ _ _ | .publish _ _ _ | .await _ _ | .leave _ _ | .tick
  | .connect _ => isTrue trivial

/-- the end of a transaction leaves the rows of the others alone -/
theorem own_end (h : j ≠ i) (keep b : Bool) (d : Store) :
    (let e := d.finish i keep; ({ e with ext := e.ext.leaveWindow i b } : Store)).own j = d.own j := by
  have := Db.own_finish (i := i) (j := j) d keep
  rw [if_neg h] at this
  exact this

theorem window_leave (h : j ≠ i) (b : Bool) (m : Mem) : (j, u) ∈ (m.leaveWindow i b).window ↔ (j, u) ∈ m.window := by
  simp [Mem.leaveWindow, h]

theorem closed_leave (b : Bool) (m : Mem) (h : ∀ q ∈ m.window, q.2 ≠ u) :
    ∀ q ∈ (m.leaveWindow i b).window, q.2 ≠ u :=
  fun q hq => h q (List.mem_of_mem_filter hq)

/-- a transaction that is rolled back -/
theorem still_rollback (i : ℕ) (s : Store) :
    Still s (let e := s.finish i false; { e with ext := e.ext.leaveWindow i false }) where
  follow n := congrFun (congrFun (congrArg Snap.com (Db.snap_finish_false s)) follows) n
  now := rfl
  guard := rfl
  tokens := rfl
  version := by
    funext u
    simp [Mem.leaveWindow, Db.finish]
  closed u h := closed_leave false s.ext h

theorem inv_rollback (i : ℕ) (hi : Inv s) : Inv (let e := s.finish i false; { e with ext := e.ext.leaveWindow i false }) :=
  (still_rollback i s).inv hi (fun _ _ _ h => h) fun _ _ f hf _ => ⟨f, hf, rfl, rfl⟩

theorem rely_rollback (h : j ≠ i) (s : Store) :
    Rely j s (let e := s.finish i false; { e with ext := e.ext.leaveWindow i false }) :=
  (still_rollback i s).relyFlights (own_end h false false s) (fun _ => window_leave h false s.ext) rfl

/-- the protocol of the requests -/
def protocol : Protocol Stmt Store where
  inv := Inv
  rely := Rely
  act _ _ _ := True
  ok _ c s :=
    match c with
    | .sql _ => True
    | .act x => okAct x s
  rely_refl := Rely.refl
  rely_trans _ _ _ _ h h' := h.trans h'
  drop_inv i _ h _ := inv_rollback i h
  drop_act _ _ _ _ := trivial
  drop_rely _ s _ _ _ hj := rely_rollback hj s

theorem good_of (hi : Inv t) (hr : ∀ j, j ≠ i → Rely j s t) : protocol.Good i s t := ⟨hi, trivial, hr⟩

theorem good_refl (hi : Inv s) : protocol.Good i s s := good_of hi fun j _ => Rely.refl j s

/-! ## Steps that write flights -/

/-- session `i` writes the flight of a key: no version that it had not read before, and not another one's flight -/
theorem good_setFlight {f : Option Flight} (hi : Inv s)
    (hinv : ∀ g, f = some g → (∀ l, g.result = some l → ∃ v, g.seen = some v ∧ (v = s.ext.version u → Lists l s u)) ∧
      ∀ v, g.seen = some v → v ≤ s.ext.version u)
    (hbehind : ∀ v, v ≤ s.ext.version u → Behind p u v s → ∀ g, f = some g → ∀ w, g.seen = some w → v ≤ w)
    (hlead : ∀ j, j ≠ i → ∀ seen, Leads j p u seen s →
      ∃ g, f = some g ∧ g.leader = j ∧ g.result = none ∧ g.seen = seen) :
    protocol.Good i s { s with ext := s.ext.setFlight p u f } ∧
      ∀ p' u' v, v ≤ s.ext.version u' → Behind p' u' v s → Behind p' u' v { s with ext := s.ext.setFlight p u f } := by
  have hget : ∀ p' u', (s.ext.setFlight p u f).flights p' u' = if p' = p ∧ u' = u then f else s.ext.flights p' u' := by
    intro p' u'
    by_cases hp : p' = p
    · subst hp
      by_cases hu : u' = u
      · subst hu
        simp [Mem.setFlight]
      · simp [Mem.setFlight, hu]
    · simp [Mem.setFlight, hp]
  have hstill : Still s { s with ext := s.ext.setFlight p u f } := ⟨fun _ => rfl, rfl, rfl, rfl, rfl, fun _ h => h⟩
  have hb : ∀ p' u' v, v ≤ s.ext.version u' → Behind p' u' v s →
      Behind p' u' v { s with ext := s.ext.setFlight p u f } := by
    intro p' u' v hv hb g hg w hw
    rw [hget] at hg
    split_ifs at hg with he
    · obtain ⟨rfl, rfl⟩ := he
      exact hbehind v hv hb g hg w hw
    · exact hb g hg w hw
  refine ⟨good_of ⟨fun u' l e hq => hi.cached u' l e hq, fun p' u' g l hg hr => ?_, fun p' u' g v hg hs => ?_,
    hi.tokens⟩ fun j hj => ?_, hb⟩
  · rw [hget] at hg
    split_ifs at hg with he
    · obtain ⟨rfl, rfl⟩ := he
      exact (hinv g hg).1 l hr
    · exact hi.flight p' u' g l hg hr
  · rw [hget] at hg
    split_ifs at hg with he
    · obtain ⟨rfl, rfl⟩ := he
      exact (hinv g hg).2 v hs
    · exact hi.seen p' u' g v hg hs
  · refine hstill.rely rfl (fun _ => Iff.rfl) hb fun p' u' seen hl => ?_
    by_cases he : p' = p ∧ u' = u
    · obtain ⟨rfl, rfl⟩ := he
      obtain ⟨g, hg, hrest⟩ := hlead j hj seen hl
      exact ⟨g, by rw [hget, if_pos ⟨rfl, rfl⟩, hg], hrest⟩
    · obtain ⟨g, hg, hrest⟩ := hl
      exact ⟨g, by rw [hget, if_neg he, hg], hrest⟩

end LkmService.Follows
