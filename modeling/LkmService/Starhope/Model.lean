/-
The synchronised entities of StarHope (`starhope/service.py`, `starhope/repository.py`).

The four tables are alike and no request touches two of them: this is one. `Col` are the columns that hold the fields of
the entity, `Val` is what is in them, after `_dump_scalars`. The primary key is the id alone.

A push is one transaction at READ COMMITTED: a SELECT of the caller's rows, the merge on the objects of the ORM session,
the flush (the UPDATEs in the order of the keys, then the INSERTs) and the COMMIT. An UPDATE sets the columns that the
merge has changed; where `updated_at` is none of them, `onupdate` sets it to the time. A pull reads the clock and runs
two SELECTs. Times are microseconds of UTC since year 1; a `datetime` without an offset cannot be compared with one that
has an offset.

`log`, `missed`, `itemsTo` and `tombsTo` are no data of the program: the writes of the pushes that have been committed,
the deletes among them that found no row, and the times up to which a session has read items and tombstones.
-/
import Mathlib.Data.Fintype.Pi
import Mathlib.Data.List.Sort
import LkmService.Lib.Rely
import LkmService.Lib.Sql
import LkmService.Lib.Uuid

namespace LkmService.Starhope

open Session Sql

/-! ## Times -/

/-- what a client sends -/
structure Stamp where
  wall : ℤ
  offset : Option ℤ
deriving DecidableEq, Repr

/-- a `datetime` in the process -/
structure Moment where
  instant : ℤ
  naive : Bool
deriving DecidableEq, Repr

def Moment.utc (x : ℤ) : Moment := ⟨x, false⟩

def Stamp.instant (t : Stamp) : ℤ := t.wall - t.offset.getD 0

/-- the field `updated_at` as it was parsed -/
def Stamp.moment (t : Stamp) : Moment := ⟨t.instant, t.offset.isNone⟩

inductive Exn where
  /-- `BizError`: the request is not valid -/
  | invalidInput
  | typeError
  | overflowError
  /-- `IntegrityError`: the id is taken -/
  | conflict
deriving DecidableEq, Repr

/-- the year 9999 is over -/
def endOfTime : ℤ := 3652059 * 86400 * 1000000

/-- the time is between the years 1 and 9999 in UTC, too -/
def Stamp.fits (t : Stamp) : Prop := t.offset = none ∨ 0 ≤ t.instant ∧ t.instant < endOfTime

instance (t : Stamp) : Decidable t.fits :=
  inferInstanceAs (Decidable (t.offset = none ∨ 0 ≤ t.instant ∧ t.instant < endOfTime))

/-- `_as_utc` -/
def asUtc (t : Stamp) : Except Exn ℤ := if t.fits then .ok t.instant else .error .overflowError

/-- `a < b` -/
def Moment.lt (a b : Moment) : Except Exn Bool :=
  if a.naive = b.naive then .ok (decide (a.instant < b.instant)) else .error .typeError

/-- `a >= b` -/
def Moment.ge (a b : Moment) : Except Exn Bool :=
  if a.naive = b.naive then .ok (decide (b.instant ≤ a.instant)) else .error .typeError

/-! ## Rows and objects -/

abbrev Id := Text

abbrev User := ℕ

variable (Col Val : Type)

structure Row where
  userId : User
  values : Col → Val
  createdAt : ℤ
  updatedAt : ℤ
  deletedAt : Option ℤ

/-- a row as the ORM session holds it -/
structure Obj where
  values : Col → Val
  updatedAt : Moment
  deletedAt : Option Moment

/-- a payload that has been validated -/
structure Upsert where
  id : Id
  values : Col → Val
  updatedAt : Stamp

structure Tombstone where
  id : Id
  deletedAt : Stamp
deriving DecidableEq, Repr

/-- an upsert (`value` is what it writes) or a delete of the user -/
structure Write where
  user : User
  id : Id
  time : ℤ
  value : Option (Col → Val)

/-- an entry of `upserts` as the repository gets it -/
structure Staged where
  id : Id
  values : Col → Val
  /-- `updated_at` among the values -/
  parsed : Moment
  time : ℤ

variable {Col Val}

/-- the row was loaded and has not been changed -/
def Row.obj (r : Row Col Val) : Obj Col Val := ⟨r.values, .utc r.updatedAt, r.deletedAt.map .utc⟩

def Staged.obj (u : Staged Col Val) : Obj Col Val := ⟨u.values, u.parsed, none⟩

/-- the row that an INSERT writes -/
def Obj.row (user : User) (now : ℤ) (o : Obj Col Val) : Row Col Val where
  userId := user
  values := o.values
  createdAt := now
  updatedAt := o.updatedAt.instant
  deletedAt := o.deletedAt.map Moment.instant

/-- the row `c` after an UPDATE that sets what differs between the object and the row that was loaded -/
def Obj.apply [DecidableEq Val] (o : Obj Col Val) (loaded : Row Col Val) (now : ℤ) (c : Row Col Val) : Row Col Val where
  userId := c.userId
  values k := if o.values k = loaded.values k then c.values k else o.values k
  createdAt := c.createdAt
  updatedAt := if o.updatedAt = .utc loaded.updatedAt then now else o.updatedAt.instant
  deletedAt := if o.deletedAt = loaded.deletedAt.map .utc then c.deletedAt else o.deletedAt.map Moment.instant

/-- the flush has an UPDATE for the object -/
def Obj.dirty [Fintype Col] [DecidableEq Val] (o : Obj Col Val) (loaded : Row Col Val) : Bool :=
  !(decide (∀ k, o.values k = loaded.values k) && decide (o.updatedAt = .utc loaded.updatedAt) &&
    decide (o.deletedAt = loaded.deletedAt.map .utc))

/-! ## The merge -/

/-- `existing_map`, the new objects in the order of their additions, and `synced` -/
structure Work (Col Val : Type) where
  existing : Id → Option (Obj Col Val)
  added : List Id
  synced : ℕ

namespace Work

variable (w : Work Col Val)

def set (id : Id) (o : Obj Col Val) : Work Col Val :=
  { w with existing := Function.update w.existing id (some o), synced := w.synced + 1 }

/-- deleted, and later than the incoming write -/
def buried (o : Obj Col Val) (time : ℤ) : Except Exn Bool :=
  match o.deletedAt with
  | some d => (Moment.utc time).lt d
  | none => .ok false

/-- one turn of the loop over `upserts` -/
def upsert (u : Staged Col Val) : Except Exn (Work Col Val) :=
  match w.existing u.id with
  | none => .ok { w.set u.id u.obj with added := w.added ++ [u.id] }
  | some o => do
    if ← buried o u.time then .ok w
    else if ← (Moment.utc u.time).ge o.updatedAt then .ok (w.set u.id u.obj)
    else .ok w

/-- one turn of the loop over `deletes` -/
def delete (d : Id × ℤ) : Except Exn (Work Col Val) :=
  match w.existing d.1 with
  | none => .ok w
  | some o => do
    if ← (o.deletedAt.getD o.updatedAt).lt (.utc d.2) then
      .ok (w.set d.1 { o with updatedAt := .utc d.2, deletedAt := some (.utc d.2) })
    else .ok w

end Work

/-- both loops, over the rows that were found -/
def merge (rows : Id → Option (Row Col Val)) (upserts : List (Staged Col Val)) (deletes : List (Id × ℤ)) :
    Except Exn (Work Col Val) := do
  let w ← upserts.foldlM Work.upsert { existing := fun id => (rows id).map Row.obj, added := [], synced := 0 }
  deletes.foldlM Work.delete w

/-! ## The store -/

structure Store (Col Val : Type) where
  now : ℤ
  cell : Id → Cell (Row Col Val)
  log : List (Write Col Val)
  missed : List (Write Col Val)
  itemsTo : ℕ → Option ℤ
  tombsTo : ℕ → Option ℤ

namespace Store

/-- the row of the user that session `i` sees -/
def rowOf (s : Store Col Val) (i : ℕ) (user : User) (id : Id) : Option (Row Col Val) :=
  ((s.cell id).view i).filter fun r => r.userId = user

/-- the committed row of the user -/
def committed (s : Store Col Val) (user : User) (id : Id) : Option (Row Col Val) :=
  ((s.cell id).committed).filter fun r => r.userId = user

def put (s : Store Col Val) (i : ℕ) (id : Id) (r : Row Col Val) : Store Col Val :=
  { s with cell := Function.update s.cell id ((s.cell id).put i (some r)) }

def finish (s : Store Col Val) (i : ℕ) (keep : Bool) : Store Col Val :=
  { s with cell := fun id => (s.cell id).finish i keep }

end Store

inductive Cmd (Col Val : Type) : Type → Type where
  /-- `now_iso` -/
  | clock : Cmd Col Val ℤ
  /-- the rows of the user with these ids, deleted or not -/
  | selectByIds (user : User) (ids : List Id) : Cmd Col Val (Id → Option (Row Col Val))
  /-- the SELECT of `list_changed`; `cursor` is the time that the pull will answer with -/
  | selectChanged (user : User) (since : Option ℤ) (cursor : ℤ) : Cmd Col Val (Id → Option (Row Col Val))
  /-- the SELECT of `list_tombstones` -/
  | selectTombstones (user : User) (since : Option ℤ) (cursor : ℤ) : Cmd Col Val (Id → Option ℤ)
  /-- UPDATE … WHERE id = id, of what differs from the row that was loaded -/
  | update (id : Id) (loaded : Row Col Val) (o : Obj Col Val) : Cmd Col Val Unit
  /-- `False`: the primary key is taken -/
  | insert (user : User) (id : Id) (o : Obj Col Val) : Cmd Col Val Bool
  | commit (writes missed : List (Write Col Val)) : Cmd Col Val Unit
  | rollback : Cmd Col Val Unit
  | advance (dt : ℕ) : Cmd Col Val Unit

variable [DecidableEq Val]

def Cmd.exec {β : Type} (i : ℕ) (c : Cmd Col Val β) (s : Store Col Val) : Option (β × Store Col Val) :=
  match c with
  | .clock => some (s.now, s)
  | .selectByIds user ids => some (fun id => if id ∈ ids then s.rowOf i user id else none, s)
  | .selectChanged user since cursor => some
      (fun id => (s.rowOf i user id).filter fun r => r.deletedAt.isNone && since.all fun t => decide (t < r.updatedAt),
      { s with itemsTo := Function.update s.itemsTo i (some cursor) })
  | .selectTombstones user since cursor => some
      (fun id => ((s.rowOf i user id).bind Row.deletedAt).filter fun d => since.all fun t => decide (t < d),
      { s with tombsTo := Function.update s.tombsTo i (some cursor) })
  | .update id loaded o =>
    match (s.cell id).view i with
    | none => some ((), s)
    | some c => if (s.cell id).busy i then none else some ((), s.put i id (o.apply loaded s.now c))
  | .insert user id o =>
    if (s.cell id).busy i then none
    else if ((s.cell id).view i).isSome then some (false, s)
    else some (true, s.put i id (o.row user s.now))
  | .commit writes missed => some ((), { s.finish i true with log := s.log ++ writes, missed := s.missed ++ missed })
  | .rollback => some ((), s.finish i false)
  | .advance dt => some ((), { s with now := s.now + dt })

instance : Machine (Cmd Col Val) (Store Col Val) where
  exec := Cmd.exec
  drop i s := s.finish i false

abbrev Prg (Col Val α : Type) := Prog (Cmd Col Val) Exn α

/-! ## Push -/

/-- a payload that fails its validation is `none` -/
structure Push (Col Val : Type) where
  user : User
  upserts : List (Option (Upsert Col Val))
  deletes : List Tombstone

/-- `_MAX_PUSH_BATCH` -/
def maxPushBatch : ℕ := 500

/-- `_validate_entity_id` -/
def validId (id : Id) : Bool := id ≠ [] && id.length ≤ 36

def Upsert.staged (u : Upsert Col Val) : Except Exn (Staged Col Val) := do
  let time ← asUtc u.updatedAt
  pure { id := u.id, values := u.values, parsed := u.updatedAt.moment, time := time }

def Tombstone.staged (d : Tombstone) : Except Exn (Id × ℤ) := do
  let time ← asUtc d.deletedAt
  pure (d.id, time)

/-- what `push_entity` makes of the request before it calls the repository -/
def stage (p : Push Col Val) : Except Exn (List (Staged Col Val) × List (Id × ℤ)) := do
  if p.upserts.length > maxPushBatch ∨ p.deletes.length > maxPushBatch then .error .invalidInput
  else
    let parsed ← p.upserts.mapM fun raw => raw.elim (.error .invalidInput) .ok
    if !(parsed.all fun u => validId u.id) || !(p.deletes.all fun d => validId d.id) then .error .invalidInput
    else
      let staged ← parsed.mapM Upsert.staged
      let deletes ← p.deletes.mapM Tombstone.staged
      pure (staged, deletes)

variable [Fintype Col]

/-- the ids of a batch -/
def batchIds (upserts : List (Staged Col Val)) (deletes : List (Id × ℤ)) : List Id :=
  (upserts.map Staged.id ++ deletes.map Prod.fst).dedup

/-- the objects with changes, in the order of their keys -/
def dirtyObjs (rows : Id → Option (Row Col Val)) (w : Work Col Val) (ids : List Id) : List (Id × Row Col Val × Obj Col Val) :=
  (ids.insertionSort fun a b => ¬ b < a).filterMap fun id =>
    match rows id, w.existing id with
    | some r, some o => if o.dirty r then some (id, r, o) else none
    | _, _ => none

def flushUpdates : List (Id × Row Col Val × Obj Col Val) → Prg Col Val Unit
  | [] => pure ()
  | (id, r, o) :: rest => do
    Prog.call (.update id r o)
    flushUpdates rest

def flushInserts (user : User) : List (Id × Obj Col Val) → Prg Col Val Unit
  | [] => pure ()
  | (id, o) :: rest => do
    if ← Prog.call (.insert user id o) then flushInserts user rest else .raise .conflict

/-- the new objects, in the order of their additions -/
def newObjs (w : Work Col Val) : List (Id × Obj Col Val) := w.added.filterMap fun id => (w.existing id).map fun o => (id, o)

/-- the writes of a batch -/
def writesOf (user : User) (upserts : List (Staged Col Val)) (deletes : List (Id × ℤ)) : List (Write Col Val) :=
  upserts.map (fun u => { user := user, id := u.id, time := u.time, value := some u.values }) ++
    deletes.map fun d => { user := user, id := d.1, time := d.2, value := none }

/-- the deletes of a batch for which there is no row -/
def missedOf (user : User) (rows : Id → Option (Row Col Val)) (upserts : List (Staged Col Val)) (deletes : List (Id × ℤ)) :
    List (Write Col Val) :=
  (deletes.filter fun d => (rows d.1).isNone && !(upserts.any fun u => u.id = d.1)).map fun d =>
    { user := user, id := d.1, time := d.2, value := none }

/-- `StarHopeRepository.push`; the second part of the answer is for the log -/
def push (user : User) (upserts : List (Staged Col Val)) (deletes : List (Id × ℤ)) :
    Prg Col Val (ℕ × List (Write Col Val)) := do
  let ids := batchIds upserts deletes
  let rows ← if ids = [] then pure fun _ => none else Prog.call (.selectByIds user ids)
  match merge rows upserts deletes with
  | .error e => .raise e
  | .ok w => do
    flushUpdates (dirtyObjs rows w ids)
    flushInserts user (newObjs w)
    pure (w.synced, missedOf user rows upserts deletes)

/-- `synced` and `server_time` -/
abbrev PushResult := ℕ × ℤ

/-- `push_entity` in the transaction of the request -/
def pushEntity (p : Push Col Val) : Prg Col Val PushResult :=
  match stage p with
  | .error e => do
    Prog.call .rollback
    .raise e
  | .ok (upserts, deletes) =>
    (do
      let (synced, missed) ← push p.user upserts deletes
      let serverTime ← Prog.call .clock
      pure ((synced, serverTime), missed)).andThen fun
    | .ok (result, missed) => do
      Prog.call (.commit (writesOf p.user upserts deletes) missed)
      pure result
    | .error e => do
      Prog.call .rollback
      .raise e

/-! ## Pull -/

/-- an entity as the client gets it -/
structure Item (Col Val : Type) where
  values : Col → Val
  createdAt : ℤ
  updatedAt : ℤ

def Row.item (r : Row Col Val) : Item Col Val := ⟨r.values, r.createdAt, r.updatedAt⟩

structure PullData (Col Val : Type) where
  items : Id → Option (Item Col Val)
  tombstones : Id → Option ℤ
  serverTime : ℤ

/-- `pull_entity` -/
def pullEntity (user : User) (since : Option ℤ) : Prg Col Val (PullData Col Val) := do
  let cursor ← Prog.call .clock
  let rows ← Prog.call (.selectChanged user since cursor)
  let tombstones ← Prog.call (.selectTombstones user since cursor)
  pure { items := fun id => (rows id).map Row.item, tombstones := tombstones, serverTime := cursor }

/-- what a device has of the user's entities -/
abbrev Copy (Col Val : Type) := Id → Option (Item Col Val)

/-- the items, then the tombstones -/
def Copy.apply (copy : Copy Col Val) (d : PullData Col Val) : Copy Col Val := fun id =>
  if (d.tombstones id).isSome then none else (d.items id).orElse fun _ => copy id

/-- a device that pulls `n` times -/
def device (user : User) : ℕ → Option ℤ → Copy Col Val → Prg Col Val (Copy Col Val)
  | 0, _, copy => pure copy
  | n + 1, since, copy => do
    let d ← pullEntity user since
    device user n (some d.serverTime) (copy.apply d)

/-! ## Requests -/

inductive Request (Col Val : Type) where
  | push (p : Push Col Val)
  | device (user : User) (pulls : ℕ)
  | wait (dt : ℕ)

inductive Answer (Col Val : Type) where
  | pushed (result : PushResult)
  | copy (c : Copy Col Val)
  | none

def Request.prog : Request Col Val → Prg Col Val (Answer Col Val)
  | .push p => do
    let result ← pushEntity p
    pure (.pushed result)
  | .device user pulls => do
    let copy ← Starhope.device user pulls Option.none fun _ => Option.none
    pure (.copy copy)
  | .wait dt => do
    Prog.call (.advance dt)
    pure .none

end LkmService.Starhope
