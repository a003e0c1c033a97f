/-
The filter of the user ids (`core/bloom.py`), its seeding (`auth/bloom_seed.py`) and the registrations that add to it.

Shared are the committed rows of `users`, the bitmap and the mark that it has been seeded. One Redis command is one
statement: the pipelines are no transactions. A `Fault` says how many commands of a pipeline have been carried out when
it fails; `some 0` is also the case of no client. One page of the backfill is one statement of the database.

`_params` turns a capacity and an error rate into a number of bits and of rounds; the settings hold these two. `digest`
stands for the two halves of `blake2b`. A backfill that has not ended after `pages` pages stays where it is.

`losses`, `scanned` and `since` are no data of the program: how often the bitmap has been lost, the users that were
committed at the first page of a backfill, and the losses when a session first wrote a bit or found the mark. The mark
keeps the parameters under which it was set.
-/
import LkmService.Lib.Keyset
import LkmService.Lib.Rely
import LkmService.Lib.Uuid

namespace LkmService.Bloom

open Session

/-! ## The shared state -/

/-- `_params`: bits and rounds -/
structure Params where
  m : ℕ
  k : ℕ
deriving DecidableEq, Repr

structure Settings where
  enabled : Bool
  params : Params
  /-- `bloom_filter_seed_ttl_s` -/
  seedTtl : ℕ

structure Mark where
  expires : ℕ
  params : Params
deriving DecidableEq, Repr

structure Shared where
  now : ℕ
  /-- the committed rows -/
  users : List Uuid
  bitmap : ℕ → Bool
  seeded : Option Mark
  losses : ℕ
  scanned : ℕ → Option (List Uuid)
  since : ℕ → Option ℕ

/-- `_positions` -/
def positions (digest : Text → ℕ × ℕ) (key : Text) (q : Params) : List ℕ :=
  let h1 := (digest key).1
  let h2 := (digest key).2 ||| 1
  (List.range q.k).map fun i => (h1 + i * h2) % q.m

/-- the key is in the filter -/
def Shared.has (digest : Text → ℕ × ℕ) (s : Shared) (q : Params) (key : Text) : Bool :=
  (positions digest key q).all s.bitmap

/-- the mark, before its end -/
def Shared.mark (s : Shared) : Option Params := s.seeded.bind fun m => if s.now < m.expires then some m.params else none

/-- `ORDER BY users.id LIMIT n` after the cursor -/
def pageOf (cursor : Option Uuid) (n : ℕ) (users : List Uuid) : List Uuid :=
  Keyset.page OrderDual.toDual (cursor.map OrderDual.toDual) n users

/-- `_PAGE` -/
def pageSize : ℕ := 1000

/-- `_ADD_CHUNK` -/
def addChunk : ℕ := 1000

/-! ## Statements -/

inductive Cmd : Type → Type where
  | setbit (pos : ℕ) : Cmd Unit
  | getbit (pos : ℕ) : Cmd Bool
  /-- GET of the mark, of a lookup with these parameters -/
  | getSeeded (q : Params) : Cmd Bool
  | setSeeded (q : Params) (ttl : ℕ) : Cmd Unit
  | selectPage (cursor : Option Uuid) : Cmd (List Uuid)
  /-- COMMIT of a transaction with the row of a user -/
  | commitUser (id : Uuid) : Cmd Unit
  /-- Redis loses the bitmap, the mark, or both -/
  | lose (bitmap mark : Bool) : Cmd Unit
  | advance (dt : ℕ) : Cmd Unit

/-- the session counts the losses from here, if it does not yet -/
def Shared.watch (i : ℕ) (s : Shared) : Shared :=
  { s with since := Function.update s.since i (some ((s.since i).getD s.losses)) }

def Cmd.exec {β : Type} (i : ℕ) (c : Cmd β) (s : Shared) : Option (β × Shared) :=
  match c with
  | .setbit pos => some ((), { s.watch i with bitmap := Function.update s.bitmap pos true })
  | .getbit pos => some (s.bitmap pos, s)
  | .getSeeded _ => some (s.mark.isSome, if s.mark.isSome then s.watch i else s)
  | .setSeeded q ttl => some ((), { s with seeded := some { expires := s.now + ttl, params := q } })
  | .selectPage none =>
    some (pageOf none pageSize s.users, { s with scanned := Function.update s.scanned i (some s.users) })
  | .selectPage (some cursor) => some (pageOf (some cursor) pageSize s.users, s)
  | .commitUser id => some ((), { s with users := s.users.insert id })
  | .lose bitmap mark => some ((), { s with
      bitmap := if bitmap then fun _ => false else s.bitmap
      seeded := if mark then none else s.seeded
      losses := if bitmap then s.losses + 1 else s.losses })
  | .advance dt => some ((), { s with now := s.now + dt })

instance : Machine Cmd Shared where
  exec := Cmd.exec
  drop _ s := s

abbrev Prg (α : Type) := Prog Cmd Empty α

/-! ## The filter -/

/-- how many commands of a pipeline are carried out before it fails, if it does -/
abbrev Fault := Option ℕ

/-- the commands that are carried out -/
def Fault.sent {α : Type} (fault : Fault) (cmds : List α) : List α :=
  match fault with
  | none => cmds
  | some n => cmds.take n

def perform : List (Cmd Unit) → Prg Unit
  | [] => pure ()
  | cmd :: cmds => do
    Prog.call cmd
    perform cmds

/-- `True`: no exception -/
def pipeline (fault : Fault) (cmds : List (Cmd Unit)) : Prg Bool := do
  perform (fault.sent cmds)
  pure fault.isNone

variable (digest : Text → ℕ × ℕ) (settings : Settings)

def setbits (key : Text) : List (Cmd Unit) := (positions digest key settings.params).map .setbit

def add (fault : Fault) (key : Text) : Prg Bool :=
  if settings.enabled then pipeline fault (setbits digest settings key) else pure false

/-- the chunks from the `n`th on -/
def addChunks (fault : ℕ → Fault) : ℕ → ℕ → ℕ → List Text → Prg ℕ
  | 0, _, written, _ => pure written
  | _ + 1, _, written, [] => pure written
  | fuel + 1, n, written, keys => do
    if ← pipeline (fault n) ((keys.take addChunk).flatMap (setbits digest settings)) then
      addChunks fault fuel (n + 1) (written + (keys.take addChunk).length) (keys.drop addChunk)
    else pure written

def addMany (fault : ℕ → Fault) (keys : List Text) : Prg ℕ :=
  if keys = [] ∨ settings.enabled = false then pure 0 else addChunks digest settings fault keys.length 0 0 keys

def markSeeded (fault : Fault) : Prg Bool :=
  if settings.enabled then pipeline fault [.setSeeded settings.params (max 1 settings.seedTtl)] else pure false

def getbits : List ℕ → Prg (List Bool)
  | [] => pure []
  | pos :: rest => do
    let bit ← Prog.call (.getbit pos)
    let bits ← getbits rest
    pure (bit :: bits)

/-- the keys with a bit that is 0 among the bits `i * k` to `(i + 1) * k` -/
def absentKeys (k : ℕ) (keys : List Text) (bits : List Bool) : List Text :=
  keys.zipIdx.filterMap fun (key, i) => if ((bits.drop (i * k)).take k).any (fun bit => !bit) then some key else none

def definitelyAbsentMany (fault : Fault) (keys : List Text) : Prg (List Text) :=
  if keys = [] ∨ settings.enabled = false ∨ fault.isSome then pure []
  else do
    let seeded ← Prog.call (.getSeeded settings.params)
    let bits ← getbits (keys.flatMap fun key => positions digest key settings.params)
    if seeded then pure (absentKeys settings.params.k keys bits) else pure []

def definitelyAbsent (fault : Fault) (key : Text) : Prg Bool := do
  let absent ← definitelyAbsentMany digest settings fault [key]
  pure (absent ≠ [])

/-! ## Seeding -/

/-- the loop over the pages, from the `n`th on; `true`: to the end of the table -/
def backfillPages (fault : ℕ → ℕ → Fault) : ℕ → ℕ → Option Uuid → ℕ → Prg (ℕ × Bool)
  | 0, _, _, total => pure (total, false)
  | pages + 1, n, cursor, total => do
    let rows ← Prog.call (.selectPage cursor)
    match rows.getLast? with
    | none => pure (total, true)
    | some last => do
      let written ← addMany digest settings (fault n) (rows.map Uuid.str)
      if written ≠ rows.length then pure (total, false)
      else if rows.length < pageSize then pure (total + rows.length, true)
      else backfillPages fault pages (n + 1) (some last) (total + rows.length)

def backfillUserIds (fault : ℕ → ℕ → Fault) (marks : Fault) (pages : ℕ) : Prg ℕ := do
  let (total, complete) ← backfillPages digest settings fault pages 0 none 0
  if complete = false then pure total
  else if total = 0 then pure 0
  else do
    let _ ← markSeeded settings marks
    pure total

/-! ## Accounts -/

/-- `create_user_with_profile`, and the end of the request's transaction -/
def createUserWithProfile (fault : Fault) (id : Uuid) (commits : Bool) : Prg Unit := do
  let _ ← add digest settings fault id.str
  if commits then Prog.call (.commitUser id) else pure ()

/-- `seed_users`, `create_admin` and `admin_ops` -/
def createByScript (fault : Fault) (id : Uuid) : Prg Unit := do
  Prog.call (.commitUser id)
  let _ ← add digest settings fault id.str
  pure ()

/-! ## Requests -/

inductive Request where
  | createUserWithProfile (fault : Fault) (id : Uuid) (commits : Bool)
  | createByScript (fault : Fault) (id : Uuid)
  | backfillUserIds (fault : ℕ → ℕ → Fault) (marks : Fault) (pages : ℕ)
  | definitelyAbsentMany (fault : Fault) (keys : List Text)
  | definitelyAbsent (fault : Fault) (key : Text)
  /-- Redis loses keys -/
  | lose (bitmap mark : Bool)
  | wait (dt : ℕ)

/-- the program of a request; its result are the keys of which it says that they do not exist -/
def Request.prog : Request → Prg (List Text)
  | .createUserWithProfile fault id commits => do
    Bloom.createUserWithProfile digest settings fault id commits
    pure []
  | .createByScript fault id => do
    Bloom.createByScript digest settings fault id
    pure []
  | .backfillUserIds fault marks pages => do
    let _ ← Bloom.backfillUserIds digest settings fault marks pages
    pure []
  | .definitelyAbsentMany fault keys => Bloom.definitelyAbsentMany digest settings fault keys
  | .definitelyAbsent fault key => do
    let absent ← Bloom.definitelyAbsent digest settings fault key
    pure (if absent then [key] else [])
  | .lose bitmap mark => do
    Prog.call (.lose bitmap mark)
    pure []
  | .wait dt => do
    Prog.call (.advance dt)
    pure []

end LkmService.Bloom
