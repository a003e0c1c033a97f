/-
A lease has one holder, whatever the instances do and whenever it runs out.

- `Exclusive`: at most one instance has the token that is stored; a renewal or release with another token changes nothing and
  fails; and an instance that takes a lease for its own held it when it last acquired or renewed it.
- `lease_exclusive`: so it is in every run, where a call fails as `Op.failed` says.
- `release_is_silent`: a release with another token returns what one with the right token returns.
-/
import LkmService.Lease.Model

namespace LkmService.Lease

open Trace

variable {w : World} {r r' : Redis Token} {call : Call} {c i j : ℕ} {t : Token} {lost : Bool} {inst : Instance}

/-! ## The law -/

/-- a command of a call that renews or releases, while another token is stored, or none -/
def Rejects (failure : Op → Answer) (w : World) (m : Move) : Prop :=
  ∀ c lost call, m = .command c lost → w.calls c = some call → call.running = true → call.op.isAcquire = false →
    w.redis.get ≠ some call.token → (step w m).redis = w.redis ∧
      ∀ call' answer, (step w m).calls c = some call' → call'.stage = .ended answer → answer = failure call.op

structure Exclusive (failure : Op → Answer) (ms : List Move) : Prop where
  single : ∀ i j t, (run step {} ms).redis.get = some t → ((run step {} ms).insts i).token = some t →
    ((run step {} ms).insts j).token = some t → i = j
  rejects : Along step (Rejects failure) {} ms
  held : ∀ i t, ((run step {} ms).insts i).token = some t →
    ((run step {} ms).insts i).last = some { token := t, stored := some t }

/-! ## One command -/

/-- what the server keeps for a call is right -/
def Call.Fits (r : Redis Token) (call : Call) : Prop :=
  match call.stage with
  | .watched k _ => k.Since r
  | .matched k _ => k.Holds call.token r
  | _ => True

theorem Call.Fits.after (h : call.Fits r) (hr : Redis.After r r') : call.Fits r' := by
  unfold Call.Fits at h ⊢
  split
  · rename_i hstage
    rw [hstage] at h
    exact Redis.Watch.Since.after h hr
  · rename_i hstage
    rw [hstage] at h
    exact Redis.Watch.Holds.after h hr
  · trivial

structure Command (r : Redis Token) (call : Call) : Prop where
  after : Redis.After r (call.command r).1
  fits : Call.Fits (call.command r).1 { call with stage := (call.command r).2 }
  foreign : call.op.isAcquire = false → r.get ≠ some call.token →
    (call.command r).1 = r ∧ ∀ answer, (call.command r).2 = .ended answer → answer = call.op.failed
  success : (call.command r).2 = .ended .success → (call.command r).1.get = some call.token

theorem command_watch (n : ℕ) (hcommand : call.command r = (r, .watched r.watch n)) : Command r call := by
  refine ⟨?_, ?_, ?_, ?_⟩
  · rw [hcommand]
    exact .same
  · rw [hcommand]
    exact Redis.since_watch r
  · simp [hcommand]
  · simp [hcommand]

/-- a command that changes nothing, and after which the call has failed or is to try again -/
theorem command_same {stage : Stage} (hcommand : call.command r = (r, stage))
    (hstage : stage = .ended call.op.failed ∨ ∃ n, stage = .ready n) : Command r call := by
  refine ⟨?_, ?_, ?_, ?_⟩
  · rw [hcommand]
    exact .same
  · rw [hcommand]
    obtain rfl | ⟨n, rfl⟩ := hstage
    · trivial
    · trivial
  · intro _ _
    rw [hcommand]
    refine ⟨rfl, fun answer h => ?_⟩
    obtain rfl | ⟨n, rfl⟩ := hstage
    · cases h
      rfl
    · cases h
  · intro h
    rw [hcommand] at h
    obtain rfl | ⟨n, rfl⟩ := hstage
    · have : call.op.failed ≠ .success := by cases call.op <;> simp [Op.failed]
      exact absurd (Stage.ended.inj h) this
    · cases h

theorem command_ready {tries : ℕ} (hstage : call.stage = .ready tries) (httl : 0 < call.ttl) : Command r call := by
  rcases hop : call.op with again | n | _ | n
  · rcases hset : (r.setNx call.token call.ttl).1
    · have hcommand : call.command r = (r, if again then .ready tries else .ended .failure) := by
        simp [Call.command, hstage, hop, hset]
      cases again
      · exact command_same hcommand (.inl (by rw [hop]; rfl))
      · exact command_same hcommand (.inr ⟨tries, rfl⟩)
    · have hcommand : call.command r = ((r.setNx call.token call.ttl).2, .ended .success) := by
        simp [Call.command, hstage, hop, hset]
      refine ⟨?_, ?_, ?_, ?_⟩
      · rw [hcommand]
        exact Redis.after_setNx call.ttl
      · rw [hcommand]
        trivial
      · simp [hop, Op.isAcquire]
      · intro _
        rw [hcommand]
        exact Redis.get_setNx httl hset
  · exact command_watch (tries - 1) (by simp [Call.command, hstage, hop])
  · have hcommand : call.command r = ((r.compareExpire call.token call.ttl).2, .ended .nothing) := by
      simp [Call.command, hstage, hop]
    refine ⟨?_, ?_, ?_, ?_⟩
    · rw [hcommand]
      exact Redis.after_compareExpire call.ttl
    · rw [hcommand]
      trivial
    · intro _ hget
      rw [hcommand]
      simp [Redis.compareExpire, hget, hop, Op.failed]
    · simp [hcommand]
  · exact command_watch (tries - 1) (by simp [Call.command, hstage, hop])

theorem command_watched {k : Redis.Watch} {tries : ℕ} (hstage : call.stage = .watched k tries) (h : call.Fits r) :
    Command r call := by
  rw [Call.Fits, hstage] at h
  by_cases hget : r.get = some call.token
  · have hcommand : call.command r = (r, .matched k tries) := by simp [Call.command, hstage, hget]
    refine ⟨?_, ?_, ?_, ?_⟩
    · rw [hcommand]
      exact .same
    · rw [hcommand]
      exact Redis.Watch.Since.holds h hget
    · exact fun _ hforeign => absurd hget hforeign
    · simp [hcommand]
  · exact command_same (by simp [Call.command, hstage, hget]) (.inl rfl)

/-- EXEC: where it goes through the token is stored -/
theorem command_matched {k : Redis.Watch} {tries : ℕ} (hstage : call.stage = .matched k tries) (httl : 0 < call.ttl)
    (h : call.Fits r) : Command r call := by
  rw [Call.Fits, hstage] at h
  rcases habort : k.aborts r
  · have hget : r.get = some call.token := Redis.Watch.Holds.get_eq h habort
    have hcommand : call.command r = call.exec r := by simp [Call.command, hstage, habort]
    rcases hop : call.op with again | n | _ | n
    · exact command_same (hcommand.trans (by rw [Call.exec, hop])) (.inl (by rw [hop]))
    · have hexec : call.exec r = (r.expire call.ttl, .ended .success) := by rw [Call.exec, hop]
      refine ⟨?_, ?_, ?_, ?_⟩
      · rw [hcommand, hexec]
        exact Redis.after_expire call.ttl
      · rw [hcommand, hexec]
        trivial
      · exact fun _ hforeign => absurd hget hforeign
      · intro _
        rw [hcommand, hexec]
        exact (Redis.get_expire httl).trans hget
    · exact command_same (hcommand.trans (by rw [Call.exec, hop])) (.inl (by rw [hop]))
    · have hexec : call.exec r = (r.delete, .ended .nothing) := by rw [Call.exec, hop]
      refine ⟨?_, ?_, ?_, ?_⟩
      · rw [hcommand, hexec]
        exact Redis.after_delete
      · rw [hcommand, hexec]
        trivial
      · exact fun _ hforeign => absurd hget hforeign
      · rw [hcommand, hexec]
        simp
  · have hcommand : call.command r = (r, if tries = 0 then .ended call.op.failed else .ready tries) := by
      simp [Call.command, hstage, habort]
    refine command_same hcommand ?_
    split_ifs
    · exact .inl rfl
    · exact .inr ⟨tries, rfl⟩

theorem command_spec (hrunning : call.running = true) (httl : 0 < call.ttl) (h : call.Fits r) : Command r call := by
  rcases hstage : call.stage with tries | ⟨k, tries⟩ | ⟨k, tries⟩ | answer
  · exact command_ready hstage httl
  · exact command_watched hstage h
  · exact command_matched hstage httl h
  · rw [Call.running, hstage] at hrunning
    cases hrunning

/-! ## The invariant -/

/-- the call that an instance waits for is its own, and one that renews has the token of the instance -/
structure Waits (w : World) (i c : ℕ) (call : Call) : Prop where
  there : w.calls c = some call
  owner : call.owner = i
  token : ∀ tries, call.op = .renew tries → (w.insts i).token = some call.token

structure Inv (w : World) : Prop where
  fresh : ∀ c, w.next ≤ c → w.calls c = none
  calls : ∀ c call, w.calls c = some call → 0 < call.ttl ∧ call.Fits w.redis ∧ (call.op.isAcquire = true → call.token = c)
  waits : ∀ i c, (w.insts i).current = some c → ∃ call, Waits w i c call
  owned : ∀ i t, (w.insts i).token = some t → ∃ call, w.calls t = some call ∧ call.owner = i
  held : ∀ i t, (w.insts i).token = some t → (w.insts i).last = some { token := t, stored := some t }

theorem inv_init : Inv {} := by
  refine ⟨fun _ _ => rfl, ?_, ?_, ?_, ?_⟩
  · exact fun _ _ h => by cases h
  · exact fun _ _ h => by cases h
  · exact fun _ _ h => by cases h
  · exact fun _ _ h => by cases h

theorem Inv.wait (h : Inv w) (n : ℕ) : Inv { w with redis := w.redis.wait n } := by
  refine ⟨h.fresh, fun c call hc => ?_, fun i c hc => ?_, h.owned, h.held⟩
  · obtain ⟨httl, hfits, htoken⟩ := h.calls c call hc
    exact ⟨httl, hfits.after (.wait n), htoken⟩
  · obtain ⟨call, hcall⟩ := h.waits i c hc
    exact ⟨call, hcall.there, hcall.owner, hcall.token⟩

/-- an instance that waits for no call any more, with a token that it has or has just been given -/
theorem Inv.leave {f : Instance → Instance} (h : Inv w) (i : ℕ) (hcurrent : (f (w.insts i)).current = none)
    (htoken : ∀ t, (f (w.insts i)).token = some t →
      (∃ call, w.calls t = some call ∧ call.owner = i) ∧ (f (w.insts i)).last = some { token := t, stored := some t }) :
    Inv (w.update i f) := by
  have hother : ∀ j, j ≠ i → (w.update i f).insts j = w.insts j := fun j hj => Function.update_of_ne hj _ _
  have hself : (w.update i f).insts i = f (w.insts i) := Function.update_self i _ _
  refine ⟨h.fresh, h.calls, fun j c hc => ?_, fun j t ht => ?_, fun j t ht => ?_⟩
  · by_cases hj : j = i
    · subst hj
      rw [hself, hcurrent] at hc
      cases hc
    · rw [hother j hj] at hc
      obtain ⟨call, hcall⟩ := h.waits j c hc
      exact ⟨call, hcall.there, hcall.owner, fun n hn => by rw [hother j hj]; exact hcall.token n hn⟩
  · by_cases hj : j = i
    · subst hj
      rw [hself] at ht
      exact (htoken t ht).1
    · rw [hother j hj] at ht
      exact h.owned j t ht
  · by_cases hj : j = i
    · subst hj
      rw [hself] at ht ⊢
      exact (htoken t ht).2
    · rw [hother j hj] at ht ⊢
      exact h.held j t ht

theorem Inv.keep {f : Instance → Instance} (h : Inv w) (i : ℕ) (hcurrent : (f (w.insts i)).current = none)
    (htoken : ∀ t, (f (w.insts i)).token = some t → (w.insts i).token = some t ∧ (f (w.insts i)).last = (w.insts i).last) :
    Inv (w.update i f) := by
  refine h.leave i hcurrent fun t ht => ?_
  obtain ⟨ht, hlast⟩ := htoken t ht
  exact ⟨h.owned i t ht, hlast.trans (h.held i t ht)⟩

/-- a new call, for which the instance waits from now on; if it gives up its token, it does so at once -/
theorem Inv.newCall {op : Op} {f : Instance → Instance} {seconds : ℕ} (h : Inv w)
    (htoken : op.isAcquire = true → t = w.next) (hcurrent : (f (w.insts i)).current = some w.next)
    (hrenew : ∀ tries, op = .renew tries → (f (w.insts i)).token = some t)
    (hkeep : ∀ t, (f (w.insts i)).token = some t → (w.insts i).token = some t ∧ (f (w.insts i)).last = (w.insts i).last) :
    Inv ((w.call i op t seconds).update i f) := by
  let call : Call := { op := op, token := t, ttl := 1000 * max 1 seconds, owner := i, stage := .ready op.tries }
  have hnew : ((w.call i op t seconds).update i f).calls w.next = some call := Function.update_self _ _ _
  have hcalls : ∀ c call, w.calls c = some call → ((w.call i op t seconds).update i f).calls c = some call := by
    intro c call hc
    refine (Function.update_of_ne ?_ _ _).trans hc
    rintro rfl
    rw [h.fresh _ (Nat.le_refl _)] at hc
    cases hc
  have hother : ∀ j, j ≠ i → ((w.call i op t seconds).update i f).insts j = w.insts j :=
    fun j hj => Function.update_of_ne hj _ _
  have hself : ((w.call i op t seconds).update i f).insts i = f (w.insts i) := Function.update_self _ _ _
  refine ⟨fun c hc => ?_, fun c call' hc => ?_, fun j c hc => ?_, fun j t' ht => ?_, fun j t' ht => ?_⟩
  · have hlt : w.next < c := hc
    exact (Function.update_of_ne (Nat.ne_of_gt hlt) _ _).trans (h.fresh c (Nat.le_of_lt hlt))
  · by_cases hcn : c = w.next
    · subst hcn
      obtain rfl : call = call' := Option.some.inj (hnew.symm.trans hc)
      exact ⟨Nat.mul_pos (by decide) (Nat.lt_of_lt_of_le Nat.one_pos (Nat.le_max_left _ _)), trivial, htoken⟩
    · exact h.calls c call' ((Function.update_of_ne hcn _ _).symm.trans hc)
  · by_cases hj : j = i
    · subst hj
      rw [hself, hcurrent] at hc
      obtain rfl := Option.some.inj hc
      exact ⟨call, hnew, rfl, fun tries hop => by rw [hself]; exact hrenew tries hop⟩
    · rw [hother j hj] at hc
      obtain ⟨call', hcall'⟩ := h.waits j c hc
      exact ⟨call', hcalls c call' hcall'.there, hcall'.owner, fun n hn => by rw [hother j hj]; exact hcall'.token n hn⟩
  · obtain ⟨call', hcall', howner⟩ : ∃ call', w.calls t' = some call' ∧ call'.owner = j := by
      by_cases hj : j = i
      · subst hj
        rw [hself] at ht
        exact h.owned j t' (hkeep t' ht).1
      · rw [hother j hj] at ht
        exact h.owned j t' ht
    exact ⟨call', hcalls t' call' hcall', howner⟩
  · by_cases hj : j = i
    · subst hj
      rw [hself] at ht ⊢
      obtain ⟨ht, hlast⟩ := hkeep t' ht
      exact hlast.trans (h.held j t' ht)
    · rw [hother j hj] at ht ⊢
      exact h.held j t' ht

theorem Inv.start (h : Inv w) (i : ℕ) (op : Op) (seconds : ℕ) : Inv (w.start i op seconds) := by
  unfold World.start
  split
  · rename_i htoken
    exact h.newCall (fun _ => rfl) rfl (fun _ h => by cases h) fun t ht => ⟨ht, rfl⟩
  · exact h.newCall (fun h => by cases h) rfl (fun _ h => by cases h) fun t ht => by cases ht
  · rename_i htoken
    exact h.newCall (fun h => by cases h) rfl (fun _ _ => htoken) fun t ht => ⟨ht, rfl⟩
  · exact h.newCall (fun h => by cases h) rfl (fun _ h => by cases h) fun t ht => ⟨ht, rfl⟩
  · exact h

/-! ## A command -/

/-- a call that has gone on -/
theorem Inv.advance {stage : Stage} (h : Inv w) (hc : w.calls c = some call) (hafter : Redis.After w.redis r)
    (hfits : Call.Fits r { call with stage := stage }) :
    Inv { w with redis := r, calls := Function.update w.calls c (some { call with stage := stage }) } := by
  have hcalls : ∀ k call', w.calls k = some call' → ∃ stage', Function.update w.calls c (some { call with stage := stage }) k =
      some { call' with stage := stage' } := by
    intro k call' hk
    by_cases hkc : k = c
    · subst hkc
      obtain rfl : call = call' := Option.some.inj (hc.symm.trans hk)
      exact ⟨stage, Function.update_self _ _ _⟩
    · exact ⟨call'.stage, (Function.update_of_ne hkc _ _).trans hk⟩
  have hself : Function.update w.calls c (some { call with stage := stage }) c = some { call with stage := stage } :=
    Function.update_self c _ w.calls
  refine ⟨fun k hk => ?_, fun k call' hk => ?_, fun i k hk => ?_, fun i t ht => ?_, h.held⟩
  · have hkc : k ≠ c := by
      rintro rfl
      rw [h.fresh k hk] at hc
      cases hc
    exact (Function.update_of_ne hkc _ _).trans (h.fresh k hk)
  · by_cases hkc : k = c
    · subst hkc
      obtain rfl : { call with stage := stage } = call' := Option.some.inj (hself.symm.trans hk)
      obtain ⟨httl, _, htoken⟩ := h.calls k call hc
      exact ⟨httl, hfits, htoken⟩
    · obtain ⟨httl, hfits', htoken⟩ := h.calls k call' ((Function.update_of_ne hkc _ _).symm.trans hk)
      exact ⟨httl, hfits'.after hafter, htoken⟩
  · obtain ⟨call', hcall'⟩ := h.waits i k hk
    obtain ⟨stage', hthere⟩ := hcalls k call' hcall'.there
    exact ⟨_, hthere, hcall'.owner, hcall'.token⟩
  · obtain ⟨call', hcall', howner⟩ := h.owned i t ht
    obtain ⟨stage', hthere⟩ := hcalls t call' hcall'
    exact ⟨_, hthere, howner⟩

/-- the instance that waited for a call goes on: with the token of the call it has just acquired or renewed, or without one -/
theorem Inv.resume {stage : Stage} (h : Inv w) (howner : ∃ call', w.calls c = some call' ∧ call'.owner = i)
    (hrenew : ∀ tries, call.op = .renew tries → (w.insts i).token = some call.token)
    (hacquire : call.op.isAcquire = true → call.token = c)
    (hsuccess : stage = .ended .success → w.redis.get = some call.token) :
    Inv (w.update i (Instance.resume call w.redis stage)) := by
  cases stage with
  | ended answer =>
    rcases hop : call.op with again | n | _ | n
    · cases answer with
      | success =>
        refine h.leave i (by simp [Instance.resume, hop]) fun t ht => ?_
        obtain rfl : call.token = t := by simpa [Instance.resume, hop] using ht
        have htoken : call.token = c := hacquire (by rw [hop]; rfl)
        exact ⟨htoken ▸ howner, by simp [Instance.resume, hop, hsuccess rfl]⟩
      | failure => exact h.keep i (by simp [Instance.resume, hop]) fun t ht => by simpa [Instance.resume, hop] using ht
      | nothing => exact h.keep i (by simp [Instance.resume, hop]) fun t ht => by simpa [Instance.resume, hop] using ht
    · cases answer with
      | success =>
        refine h.leave i (by simp [Instance.resume, hop]) fun t ht => ?_
        have ht : (w.insts i).token = some t := by simpa [Instance.resume, hop] using ht
        obtain rfl : call.token = t := Option.some.inj ((hrenew n hop).symm.trans ht)
        exact ⟨h.owned i _ ht, by simp [Instance.resume, hop, hsuccess rfl]⟩
      | failure => exact h.keep i (by simp [Instance.resume, hop]) fun t ht => by simp [Instance.resume, hop] at ht
      | nothing => exact h.keep i (by simp [Instance.resume, hop]) fun t ht => by simp [Instance.resume, hop] at ht
    · exact h.keep i (by simp [Instance.resume, hop]) fun t ht => by simpa [Instance.resume, hop] using ht
    · exact h.keep i (by simp [Instance.resume, hop]) fun t ht => by simpa [Instance.resume, hop] using ht
  | _ =>
    have hsame : w.update i id = w := by simp [World.update]
    exact hsame.symm ▸ h

/-- a command of a call, and what it is for the key and for the call -/
theorem Inv.spec (h : Inv w) (hc : w.calls c = some call) (hrunning : call.running = true) : Command w.redis call := by
  obtain ⟨httl, hfits, _⟩ := h.calls c call hc
  exact command_spec hrunning httl hfits

theorem Inv.command (h : Inv w) (hc : w.calls c = some call) (hrunning : call.running = true) (lost : Bool) :
    Inv (w.command c call lost) := by
  have hspec := h.spec hc hrunning
  have hfits : Call.Fits (call.command w.redis).1 { call with stage := call.after w.redis lost } := by
    cases lost
    · exact hspec.fits
    · trivial
  have hnext := h.advance hc hspec.after hfits
  simp only [World.command]
  split_ifs with hcurrent
  · obtain ⟨call', hcall'⟩ := h.waits call.owner c hcurrent
    obtain rfl : call = call' := Option.some.inj (hc.symm.trans hcall'.there)
    refine hnext.resume ⟨_, Function.update_self c _ w.calls, rfl⟩ hcall'.token (h.calls c call hc).2.2 fun hstage => ?_
    · cases lost
      · exact hspec.success hstage
      · have hfailed : call.op.failed ≠ .success := by cases call.op <;> simp [Op.failed]
        exact absurd (Stage.ended.inj hstage) hfailed
  · exact hnext

theorem Inv.step (h : Inv w) (m : Move) : Inv (step w m) := by
  cases m with
  | wait n => exact h.wait n
  | start i op seconds => exact h.start i op seconds
  | command c lost =>
    simp only [Lease.step]
    split
    · split_ifs with hrunning
      · exact h.command ‹_› hrunning lost
      · exact h
    · exact h
  | drop i => exact h.keep (f := fun inst => { inst with current := none }) i rfl fun t ht => ⟨ht, rfl⟩
  | forget i => exact h.keep (f := fun inst => { inst with token := none, current := none }) i rfl fun t ht => by cases ht

theorem inv_run (ms : List Move) : Inv (run step {} ms) := run_inv along_true inv_init fun _ m h _ => h.step m

/-! ## The result -/

theorem calls_command :
    (w.command c call lost).calls c = some { call with stage := call.after w.redis lost } := by
  unfold World.command
  simp only
  split_ifs
  · exact Function.update_self c _ _
  · exact Function.update_self c _ _

theorem redis_command : (w.command c call lost).redis = (call.command w.redis).1 := by
  unfold World.command
  simp only
  split_ifs
  · rfl
  · rfl

theorem Inv.rejects (h : Inv w) (m : Move) : Rejects Op.failed w m := by
  rintro c lost call rfl hc hrunning hop hforeign
  have hstep : Lease.step w (.command c lost) = w.command c call lost := by simp only [Lease.step, hc, if_pos hrunning]
  obtain ⟨hsame, hfailed⟩ := (h.spec hc hrunning).foreign hop hforeign
  rw [hstep, redis_command]
  refine ⟨hsame, fun call' answer hcall' hstage => ?_⟩
  rw [calls_command] at hcall'
  obtain rfl := Option.some.inj hcall'
  cases lost
  · exact hfailed answer hstage
  · exact (Stage.ended.inj hstage).symm

/-- **Leases.** In every run: at most one instance has the token that is stored; a renewal or release with another token
changes nothing and fails; and an instance that takes a lease for its own held it when it last acquired or renewed it. -/
theorem lease_exclusive (ms : List Move) : Exclusive Op.failed ms where
  single i j t _ hi hj := by
    obtain ⟨call, hcall, rfl⟩ := (inv_run ms).owned i t hi
    obtain ⟨call', hcall', rfl⟩ := (inv_run ms).owned j t hj
    rw [Option.some.inj (hcall.symm.trans hcall')]
  rejects := along_of_inv inv_init (fun _ m h => h.step m) fun _ m h => h.rejects m
  held i t hi := (inv_run ms).held i t hi

/-! ## A release that is too late -/

/-- the lease of one instance runs out, another one acquires it, the first one releases it, and then the second one -/
def lateRelease : List Move :=
  [.start 1 acquireLease 1, .command 0 false, .wait 2000, .start 2 acquireLease 1, .command 1 false,
    .start 1 releaseLease 1, .command 2 false, .command 2 false,
    .start 2 releaseLease 1, .command 3 false, .command 3 false, .command 3 false]

/-- the one with the wrong token and the one with the right token return the same -/
theorem release_is_silent :
    (((run step {} lateRelease).calls 2).map Call.stage, ((run step {} lateRelease).calls 3).map Call.stage) =
      (some (.ended .nothing), some (.ended .nothing)) ∧ ¬Exclusive (fun _ => .failure) lateRelease := by
  refine ⟨by decide, fun h => ?_⟩
  have hsilent := (h.rejects (lateRelease.take 7) (.command 2 false) (lateRelease.drop 8) rfl 2 false _ rfl rfl rfl rfl
    (by decide)).2 _ .nothing rfl rfl
  cases hsilent

end LkmService.Lease
