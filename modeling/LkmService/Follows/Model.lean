/-
Following users, and the cached list of whom a user follows.

Modelled from `app/modules/interaction/service.py` (`follow_user`, `unfollow_user`, `get_following_ids`) and
`interaction/repository.py` over the row store of `Lib.Sql`, `core/cache.py` (`cache_invalidate`, `cached_read`,
`_set_if_not_invalidated`), `core/singleflight.py` (`run`) and `core/db/session.py` (`get_session`).

One statement is what a request does up to its next `await`: a command to Redis together with the reading of the clock
beside it, or a statement on the database. The key of the followed boards, which is invalidated along, and the rows of
the materialized feed are left out: the list of followed users is read from neither. `canFill` is what the distributed
lock lets a call do, and `ttl` the time that the jitter gives an entry.
-/
import LkmService.Lib.Discipline

namespace LkmService.Follows

open Session Sql

/-! ## State -/

/-- a row of `user_follows`: `deleted` is `deleted_at is not None` -/
structure UserFollow where
  followerId : ℕ
  followingId : ℕ
  deleted : Bool := false
deriving DecidableEq, Repr

inductive Tbl where
  | follows
deriving DecidableEq, Repr

open Tbl

abbrev Row : Tbl → Type
  | .follows => UserFollow

/-- an entry of `uq_user_follows_pair` -/
abbrev Index := ℕ × ℕ

/-- a call under way that others of the same process join; `seen` is the version of the list that it has read, which
nothing but the conditions below looks at -/
structure Flight where
  leader : ℕ
  refs : ℕ
  result : Option (List ℕ) := none
  seen : Option ℕ := none
deriving DecidableEq, Repr

/-- Redis, the clock, and the flights of each process. `window` holds the requests that have written a row and
invalidated, but not yet ended, with their users; `version` counts those that have committed. The code keeps neither. -/
structure Mem where
  now : ℕ := 0
  reachable : Bool := true
  /-- the list of a user's key, with the time at which it expires -/
  cached : ℕ → Option (List ℕ × ℕ) := fun _ => none
  /-- the invalidation token of a user's key, with the time at which it expires -/
  guard : ℕ → Option (ℕ × ℕ) := fun _ => none
  tokens : ℕ := 0
  flights : ℕ → ℕ → Option Flight := fun _ _ => none
  window : List (ℕ × ℕ) := []
  version : ℕ → ℕ := fun _ => 0

abbrev Store := Db Row Index Mem

/-! ## Statements -/

/-- `_INVALIDATION_GUARD_TTL_S` -/
def guardTtl : ℕ := 60

/-- what a fill needs: the token read before the list, and when -/
structure Ticket where
  token : Option ℕ
  startedAt : ℕ
deriving DecidableEq, Repr

inductive Act : Type → Type
  /-- `cache_get` -/
  | get (user : ℕ) : Act (Option (List ℕ))
  /-- the first part of `singleflight.run`: whether the call leads a new flight -/
  | enter (process user : ℕ) : Act Bool
  /-- `cache_get` inside of the flight -/
  | reget (process user : ℕ) : Act (Option (List ℕ))
  /-- the token of the key; `none` when Redis cannot be reached -/
  | guardGet (user : ℕ) : Act (Option Ticket)
  /-- `list_following_ids`; the ticket with which the list may be cached later is there for the conditions only -/
  | load (process user : ℕ) (ticket : Option Ticket) : Act (List ℕ)
  /-- `_set_if_not_invalidated` -/
  | fill (user : ℕ) (value : List ℕ) (ticket : Ticket) (ttl : ℕ) : Act Unit
  /-- the flight's task ends -/
  | publish (process user : ℕ) (value : List ℕ) : Act Unit
  /-- `await asyncio.shield(flight.task)` -/
  | await (process user : ℕ) : Act (List ℕ)
  /-- the last part of `singleflight.run` -/
  | leave (process user : ℕ) : Act Unit
  /-- `cache_invalidate`; `changed` says, for the conditions only, that the request has written a row -/
  | invalidate (user : ℕ) (changed : Bool) : Act Unit
  | tick : Act Unit
  /-- the connection to Redis is lost, or is there again -/
  | connect (reachable : Bool) : Act Unit
  /-- Redis loses the keys of a user, as on a restart -/
  | lose (user : ℕ) : Act Unit

inductive Stmt (β : Type) where
  | sql (c : Cmd Row Index β)
  | act (x : Act β)

/-- keys that have expired are gone -/
def Mem.tick (m : Mem) : Mem :=
  { m with
    now := m.now + 1
    cached := fun u => (m.cached u).filter fun q => m.now + 1 < q.2
    guard := fun u => (m.guard u).filter fun q => m.now + 1 < q.2 }

def Mem.setFlight (p u : ℕ) (f : Option Flight) (m : Mem) : Mem :=
  { m with flights := Function.update m.flights p (Function.update (m.flights p) u f) }

/-- the flight that session `i` leads has read the list as it is now -/
def Mem.look (i p u : ℕ) (m : Mem) : Mem :=
  match m.flights p u with
  | some f => if f.leader = i then m.setFlight p u (some { f with seen := some (m.version u) }) else m
  | none => m

/-- the value of a key, when Redis can be reached -/
def Mem.read (m : Mem) (u : ℕ) : Option (List ℕ) := if m.reachable then (m.cached u).map Prod.fst else none

/-- the fill goes through: the ticket is not too old, the token is still the same, and the key is empty -/
def Mem.accepts (m : Mem) (u : ℕ) (ticket : Ticket) : Prop :=
  m.now < ticket.startedAt + guardTtl ∧ m.reachable = true ∧ (m.guard u).map Prod.fst = ticket.token ∧
    m.cached u = none

instance (m : Mem) (u : ℕ) (ticket : Ticket) : Decidable (m.accepts u ticket) :=
  inferInstanceAs (Decidable (_ ∧ _ ∧ _ ∧ _))

def Mem.invalidate (i u : ℕ) (changed : Bool) (m : Mem) : Mem :=
  let m := if changed then { m with window := (i, u) :: m.window } else m
  if m.reachable then
    { m with
      cached := Function.update m.cached u none
      guard := Function.update m.guard u (some (m.tokens, m.now + guardTtl))
      tokens := m.tokens + 1 }
  else m

/-- the end of a transaction of session `i` -/
def Mem.leaveWindow (i : ℕ) (committed : Bool) (m : Mem) : Mem :=
  { m with
    window := m.window.filter fun q => q.1 ≠ i
    version := fun u => if committed = true ∧ (i, u) ∈ m.window then m.version u + 1 else m.version u }

/-- the followed users that session `i` sees, `list_following_ids` -/
def listFollowingIds (i u : ℕ) (d : Store) : List ℕ :=
  ((d.tab follows).rows i).filterMap fun q =>
    if q.2.followerId = u ∧ q.2.deleted = false then some q.2.followingId else none

def Act.exec {β : Type} (i : ℕ) (x : Act β) (d : Store) : Option (β × Store) :=
  match x with
  | .get u => some (d.ext.read u, d)
  | .enter p u =>
    match d.ext.flights p u with
    | none => some (true, { d with ext := d.ext.setFlight p u (some { leader := i, refs := 1 }) })
    | some f => some (false, { d with ext := d.ext.setFlight p u (some { f with refs := f.refs + 1 }) })
  | .reget p u =>
    match d.ext.read u with
    | none => some (none, d)
    | some l => some (some l, { d with ext := d.ext.look i p u })
  | .guardGet u =>
    some (if d.ext.reachable then some ⟨(d.ext.guard u).map Prod.fst, d.ext.now⟩ else none, d)
  | .load p u _ => some (listFollowingIds i u d, { d with ext := d.ext.look i p u })
  | .fill u l ticket ttl =>
    some ((), if d.ext.accepts u ticket then
      { d with ext := { d.ext with cached := Function.update d.ext.cached u (some (l, d.ext.now + ttl)) } } else d)
  | .publish p u l =>
    match d.ext.flights p u with
    | none => some ((), d)
    | some f =>
      some ((), if f.leader = i then { d with ext := d.ext.setFlight p u (some { f with result := some l }) } else d)
  | .await p u =>
    match (d.ext.flights p u).bind Flight.result with
    | none => none
    | some l => some (l, d)
  | .leave p u =>
    match d.ext.flights p u with
    | none => some ((), d)
    | some f =>
      let left := { f with refs := f.refs - 1 }
      some ((), { d with ext := d.ext.setFlight p u (if left.refs = 0 ∧ left.result ≠ none then none else some left) })
  | .invalidate u changed => some ((), { d with ext := d.ext.invalidate i u changed })
  | .tick => some ((), { d with ext := d.ext.tick })
  | .connect b => some ((), { d with ext := { d.ext with reachable := b } })
  | .lose u =>
    some ((), { d with ext := { d.ext with
      cached := Function.update d.ext.cached u none
      guard := Function.update d.ext.guard u none } })

instance : Machine Stmt Store where
  exec i c d :=
    match c with
    | .sql c =>
      (c.exec i d).map fun q =>
        (q.1, if c.isCommit || c.isRollback then { q.2 with ext := q.2.ext.leaveWindow i c.isCommit } else q.2)
    | .act x => x.exec i d
  drop i d := let e := d.finish i false; { e with ext := e.ext.leaveWindow i false }

/-! ## Requests -/

inductive Exn where
  | cannotFollowSelf
  | targetNotFound
  /-- the unique index refuses the row -/
  | integrityError
  /-- the flush of a changed row object finds no row -/
  | staleData
deriving DecidableEq, Repr

/-- what a request answers with -/
inductive Answer where
  | ok
  | ids (l : List ℕ)
deriving DecidableEq, Repr

abbrev Op (α : Type) := Prog Stmt Exn α

/-- `UserFollowRepository.get_pair` -/
def getPair (followerId followingId : ℕ) : Op (Option (ℕ × UserFollow)) := do
  let l ← .call (.sql (.select follows fun _ r => r.followerId == followerId && r.followingId == followingId))
  pure l.head?

/-- the update of a row object: by primary key -/
def update (n : ℕ) (f : UserFollow → UserFollow) : Op Unit := do
  match ← .call (.sql (.updateRow follows n (fun _ => true) f)) with
  | some _ => pure ()
  | none => .raise .staleData

/-- `UserFollowRepository.follow` -/
def follow (followerId followingId : ℕ) : Op Bool := do
  match ← getPair followerId followingId with
  | none =>
    match ← .call (.sql (.insertUnique follows (followerId, followingId)
      (fun r => r.followerId == followerId && r.followingId == followingId) ⟨followerId, followingId, false⟩)) with
    | some _ => pure true
    | none => .raise .integrityError
  | some (n, row) =>
    if row.deleted then do
      update n fun r => { r with deleted := false }
      pure true
    else pure false

/-- `UserFollowRepository.unfollow` -/
def unfollow (followerId followingId : ℕ) : Op Bool := do
  match ← getPair followerId followingId with
  | none => pure false
  | some (n, row) =>
    if row.deleted then pure false
    else do
      update n fun r => { r with deleted := true }
      pure true

/-- `get_session`: committed when the request ends normally, rolled back when it raises -/
def getSession {α : Type} (p : Op α) : Op α :=
  p.andThen fun
    | .ok a => do
      let _ ← .call (.sql .commit)
      pure a
    | .error e => do
      let _ ← .call (.sql .rollback)
      .raise e

def followUser (followerId followingId : ℕ) (targetExists : Bool) : Op Answer := do
  if followerId = followingId then .raise .cannotFollowSelf
  else if targetExists = false then .raise .targetNotFound
  else do
    let created ← follow followerId followingId
    let _ ← .call (.act (.invalidate followerId created))
    pure .ok

def unfollowUser (followerId followingId : ℕ) : Op Answer := do
  if followerId = followingId then .raise .cannotFollowSelf
  else do
    let changed ← unfollow followerId followingId
    if changed then do
      let _ ← .call (.act (.invalidate followerId true))
      pure .ok
    else pure .ok

/-- `_load_and_fill` of `cached_read`, the task of a flight -/
def loadAndFill (process user : ℕ) (canFill : Bool) (ttl : ℕ) : Op Unit := do
  match ← .call (.act (.reget process user)) with
  | some l => .call (.act (.publish process user l))
  | none =>
    let ticket ← if canFill then .call (.act (.guardGet user)) else pure none
    let l ← .call (.act (.load process user ticket))
    match ticket with
    | some ticket => do
      let _ ← .call (.act (.fill user l ticket ttl))
      .call (.act (.publish process user l))
    | none => .call (.act (.publish process user l))

/-- `get_following_ids`: `cached_read` with the single flight of the process -/
def getFollowingIds (process user : ℕ) (canFill : Bool) (ttl : ℕ) : Op Answer := do
  match ← .call (.act (.get user)) with
  | some l => pure (.ids l)
  | none =>
    let leader ← .call (.act (.enter process user))
    let _ ← if leader then loadAndFill process user canFill ttl else pure ()
    let l ← .call (.act (.await process user))
    let _ ← .call (.act (.leave process user))
    pure (.ids l)

inductive Call where
  | follow (followerId followingId : ℕ) (targetExists : Bool)
  | unfollow (followerId followingId : ℕ)
  | read (process user : ℕ) (canFill : Bool) (ttl : ℕ)
  | tick
  | connect (reachable : Bool)
  | lose (user : ℕ)

def Call.prog : Call → Op Answer
  | .follow a b targetExists => getSession (followUser a b targetExists)
  | .unfollow a b => getSession (unfollowUser a b)
  | .read process user canFill ttl => getFollowingIds process user canFill ttl
  | .tick => do
    let _ ← .call (.act .tick)
    pure .ok
  | .connect b => do
    let _ ← .call (.act (.connect b))
    pure .ok
  | .lose user => do
    let _ ← .call (.act (.lose user))
    pure .ok

/-- every session runs one call, over empty tables and an empty Redis -/
def begin (calls : ℕ → Call) : World Stmt Store Exn Answer := start { ext := {} } fun i => (calls i).prog

end LkmService.Follows
