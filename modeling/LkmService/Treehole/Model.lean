/-
Conversations of the treehole (`treehole/services/conversations.py`, `treehole/models.py`).

- A request reads rows without a lock and keeps what it has changed in its unit of work. The flush and the commit are one
  statement here (`Stmt.commit`): the flush holds the locks of the rows until the commit, so nobody comes between.
- `Conversation.written`: the flush writes the columns that differ from what was loaded, and no others.
- `now_iso` answers what `Store.clock` says for that reading: the clocks of the hosts are not assumed to agree.
- `Store.log`: the transactions that have been committed, in that order.
-/
import Mathlib.Data.List.Nodup
import Mathlib.Data.Finset.Insert
import Mathlib.Data.Fintype.Defs
import LkmService.Lib.Paging
import LkmService.Lib.Rely
import LkmService.Lib.Text

namespace LkmService.Treehole

open Session

/-! ## Rows -/

inductive Side where
  | author
  | replier
  deriving DecidableEq, Repr

instance : Fintype Side := ⟨{Side.author, Side.replier}, fun side => by cases side <;> decide⟩

/-- the columns of one side: `{side}_blocked`, `{side}_hidden` and `{side}_cleared_at` -/
structure Standing where
  blocked : Bool := false
  hidden : Bool := false
  clearedAt : Option ℤ := none
  deriving DecidableEq

structure Letter where
  id : String
  ownerId : String
  privacy : String
  codename : String
  scheduledAt : Option ℤ := none
  sealUntil : Option ℤ := none
  deriving DecidableEq

structure Conversation where
  id : String
  letterId : String
  authorId : String
  replierId : String
  replierCodename : String
  author : Standing := {}
  replier : Standing := {}
  updatedAt : ℤ
  deriving DecidableEq

structure Message where
  id : String
  conversationId : String
  senderId : String
  text : Text
  recalled : Bool := false
  createdAt : ℤ
  deriving DecidableEq

namespace Conversation

def on (c : Conversation) : Side → Standing
  | .author => c.author
  | .replier => c.replier

/-- `setattr` on the columns of one side -/
def set (side : Side) (f : Standing → Standing) (c : Conversation) : Conversation :=
  match side with
  | .author => { c with author := f c.author }
  | .replier => { c with replier := f c.replier }

/-- `author_blocked or replier_blocked` -/
def blocked (c : Conversation) : Bool := c.author.blocked || c.replier.blocked

/-- the new message of a side makes the conversation reappear for both -/
def touched (now : ℤ) (c : Conversation) : Conversation :=
  { c with author := { c.author with hidden := false }, replier := { c.replier with hidden := false }, updatedAt := now }

theorem on_touched (now : ℤ) (c : Conversation) (side : Side) : (c.touched now).on side = { c.on side with hidden := false } := by
  cases side <;> rfl

theorem on_set (side side' : Side) (f : Standing → Standing) (c : Conversation) :
    (c.set side f).on side' = if side' = side then f (c.on side') else c.on side' := by
  cases side <;> cases side' <;> rfl

@[simp] theorem set_id (side : Side) (f : Standing → Standing) (c : Conversation) : (c.set side f).id = c.id := by
  cases side <;> rfl

end Conversation

/-- a column in the flush: written if it is not what was loaded -/
def column {α : Type} [DecidableEq α] (loaded new row : α) : α := if new = loaded then row else new

def Standing.written (loaded new row : Standing) : Standing where
  blocked := column loaded.blocked new.blocked row.blocked
  hidden := column loaded.hidden new.hidden row.hidden
  clearedAt := column loaded.clearedAt new.clearedAt row.clearedAt

def Conversation.written (loaded new row : Conversation) : Conversation :=
  { row with
    author := loaded.author.written new.author row.author
    replier := loaded.replier.written new.replier row.replier
    updatedAt := column loaded.updatedAt new.updatedAt row.updatedAt }

theorem Conversation.on_written (loaded new row : Conversation) (side : Side) :
    (loaded.written new row).on side = (loaded.on side).written (new.on side) (row.on side) := by
  cases side <;> rfl

@[simp] theorem column_self {α : Type} [DecidableEq α] (loaded row : α) : column loaded loaded row = row := if_pos rfl

def Message.written (loaded new row : Message) : Message :=
  { row with text := column loaded.text new.text row.text, recalled := column loaded.recalled new.recalled row.recalled }

/-! ## Tables -/

structure Tables where
  letters : List Letter
  conversations : List Conversation
  messages : List Message
  conversationIds : (conversations.map (·.id)).Nodup
  /-- the unique constraint of the letter and the replier -/
  pairs : (conversations.map fun c => (c.letterId, c.replierId)).Nodup
  messageIds : (messages.map (·.id)).Nodup

inductive Err where
  | notFound
  | forbidden
  | invalidInput
  /-- a violated key, as 409 -/
  | conflict
  /-- the row of an UPDATE is gone -/
  | stale
  deriving DecidableEq, Repr

/-- one more row with a key of its own -/
theorem nodup_keys_snoc {α κ : Type} {key : α → κ} {l : List α} {a : α} (h : (l.map key).Nodup) (ha : key a ∉ l.map key) :
    ((l ++ [a]).map key).Nodup := by
  rw [List.map_append, List.map_singleton, ← List.concat_eq_append]
  exact List.Nodup.concat ha h

/-- an UPDATE leaves the keys -/
theorem nodup_keys_update {α κ : Type} {key : α → κ} {l : List α} {f : α → α} (h : (l.map key).Nodup) (hf : ∀ a, key (f a) = key a) :
    ((l.map f).map key).Nodup := by
  rw [List.map_map, show key ∘ f = key from funext hf]
  exact h

namespace Tables

def updateConversation (loaded new : Conversation) (t : Tables) : Tables where
  letters := t.letters
  conversations := t.conversations.map fun row => if row.id = new.id then loaded.written new row else row
  messages := t.messages
  conversationIds := nodup_keys_update t.conversationIds fun row => by split_ifs <;> rfl
  pairs := nodup_keys_update t.pairs fun row => by split_ifs <;> rfl
  messageIds := t.messageIds

def updateMessage (loaded new : Message) (t : Tables) : Tables where
  letters := t.letters
  conversations := t.conversations
  messages := t.messages.map fun row => if row.id = new.id then loaded.written new row else row
  conversationIds := t.conversationIds
  pairs := t.pairs
  messageIds := nodup_keys_update t.messageIds fun row => by split_ifs <;> rfl

instance pairs_lawfulBEq : LawfulBEq (String × String) := inferInstance

def insertConversation (c : Conversation) (t : Tables) : Except Err Tables :=
  if hid : c.id ∈ t.conversations.map (·.id) then .error .conflict
  else if hpair : (c.letterId, c.replierId) ∈ t.conversations.map fun c => (c.letterId, c.replierId) then .error .conflict
  else .ok
    { letters := t.letters
      conversations := t.conversations ++ [c]
      messages := t.messages
      conversationIds := nodup_keys_snoc t.conversationIds hid
      pairs := nodup_keys_snoc t.pairs hpair
      messageIds := t.messageIds }

def insertMessage (m : Message) (t : Tables) : Except Err Tables :=
  if hid : m.id ∈ t.messages.map (·.id) then .error .conflict
  else .ok
    { letters := t.letters
      conversations := t.conversations
      messages := t.messages ++ [m]
      conversationIds := t.conversationIds
      pairs := t.pairs
      messageIds := nodup_keys_snoc t.messageIds hid }

end Tables

/-! ## Units of work -/

/-- what a request has added or changed when it commits -/
inductive Work where
  | create (c : Conversation) (m : Message)
  | change (loaded c : Conversation) (m : Option Message)
  | «recall» (loaded m : Message)

/-- the flush, conversations before messages -/
def Work.flush (t : Tables) : Work → Except Err Tables
  | .create c m => do
    let t ← t.insertConversation c
    t.insertMessage m
  | .change loaded c m =>
    if c.id ∈ t.conversations.map (·.id) then
      match m with
      | none => .ok (t.updateConversation loaded c)
      | some m => (t.updateConversation loaded c).insertMessage m
    else .error .stale
  | .recall loaded m => if m.id ∈ t.messages.map (·.id) then .ok (t.updateMessage loaded m) else .error .stale

/-! ## Statements -/

structure Store where
  tables : Tables
  /-- the answers of the clocks, reading by reading -/
  clock : ℕ → ℤ
  readings : ℕ := 0
  log : List ℕ := []

inductive Stmt : Type → Type where
  | getLetter (id : String) : Stmt (Option Letter)
  | getConversation (id : String) : Stmt (Option Conversation)
  | findConversation (letterId replierId : String) : Stmt (Option Conversation)
  | getMessage (id : String) : Stmt (Option Message)
  | listConversations (owner : String) (page : ℕ) : Stmt (List Conversation)
  | listMessages (conversationId : String) (cutoff : Option ℤ) : Stmt (List Message)
  | nowIso : Stmt ℤ
  | commit (w : Work) : Stmt (Except Err Unit)

/-- ORDER BY … DESC -/
def sortDesc {α : Type} (key : α → ℤ) (l : List α) : List α := l.insertionSort fun a b => key b ≤ key a

/-- the owner's side, if it is not hidden -/
def listedFor (owner : String) (c : Conversation) : Bool :=
  (decide (c.authorId = owner) && !c.author.hidden) || (decide (c.replierId = owner) && !c.replier.hidden)

def pageSize : ℕ := 100

def messageLimit : ℕ := 200

def afterCutoff (cutoff : Option ℤ) (m : Message) : Bool :=
  match cutoff with
  | none => true
  | some t => decide (t < m.createdAt)

def Tables.listConversations (owner : String) (page : ℕ) (t : Tables) : List Conversation :=
  Paging.slice (sortDesc Conversation.updatedAt (t.conversations.filter (listedFor owner))) page pageSize

/-- the latest messages, with the latest first -/
def Tables.listMessages (conversationId : String) (cutoff : Option ℤ) (t : Tables) : List Message :=
  (sortDesc Message.createdAt
    (t.messages.filter fun m => decide (m.conversationId = conversationId) && afterCutoff cutoff m)).take messageLimit

def Stmt.exec {β : Type} (i : ℕ) (s : Store) : Stmt β → β × Store
  | .getLetter id => (s.tables.letters.find? fun l => l.id = id, s)
  | .getConversation id => (s.tables.conversations.find? fun c => c.id = id, s)
  | .findConversation letterId replierId =>
    (s.tables.conversations.find? fun c => c.letterId = letterId ∧ c.replierId = replierId, s)
  | .getMessage id => (s.tables.messages.find? fun m => m.id = id, s)
  | .listConversations owner page => (s.tables.listConversations owner page, s)
  | .listMessages conversationId cutoff => (s.tables.listMessages conversationId cutoff, s)
  | .nowIso => (s.clock s.readings, { s with readings := s.readings + 1 })
  | .commit w =>
    match w.flush s.tables with
    | .ok t => (.ok (), { s with tables := t, log := s.log ++ [i] })
    | .error e => (.error e, s)

/-- nothing of a transaction is in the store before its commit -/
instance : Machine Stmt Store where
  exec i c s := some (c.exec i s)
  drop _ s := s

abbrev Prg (α : Type) := Prog Stmt Err α

/-! ## The service -/

def orNotFound {α : Type} : Option α → Prg α
  | some a => pure a
  | none => .raise .notFound

def commitWork (w : Work) : Prg Unit := do
  match ← Prog.call (.commit w) with
  | .ok _ => pure ()
  | .error e => .raise e

/-- `_visible` -/
def visible (letter : Letter) (now : ℤ) : Bool :=
  (letter.scheduledAt.all fun t => decide (t ≤ now)) && (letter.sealUntil.all fun t => decide (now < t))

/-- `_get_letter` -/
def getLetter (letterId : String) : Prg Letter := do
  let letter ← Prog.call (.getLetter letterId)
  orNotFound letter

def nowIso : Prg ℤ := Prog.call .nowIso

/-- `_participant` -/
def participant (c : Conversation) (owner : String) : Option Side :=
  if c.authorId = owner then some .author else if c.replierId = owner then some .replier else none

/-- `_conversation` -/
def conversation (convId owner : String) : Prg (Conversation × Side) := do
  let found ← Prog.call (.getConversation convId)
  let c ← orNotFound found
  let side ← orNotFound (participant c owner)
  pure (c, side)

/-- a message as its reader gets it -/
structure MessageItem where
  id : String
  text : Text
  recalled : Bool
  /-- `from` is `me` or `peer` -/
  mine : Bool
  sentAt : ℤ
  deriving DecidableEq

structure Item where
  id : String
  myLetterId : String
  peerLetterId : String
  peerCodename : String
  myCodename : String
  blocked : Bool
  updatedAt : ℤ
  messages : List MessageItem
  deriving DecidableEq

/-- `已撤回` -/
def recalledText : Text := "已撤回".toList

def messageItem (owner : String) (m : Message) : MessageItem where
  id := m.id
  text := if m.recalled then recalledText else m.text
  recalled := m.recalled
  mine := decide (m.senderId = owner)
  sentAt := m.createdAt

def codenameOf (letter : Option Letter) : String := letter.elim "匿名" (·.codename)

def item (owner : String) (side : Side) (c : Conversation) (letter : Option Letter) (messages : List Message) : Item where
  id := c.id
  myLetterId := if side = .author then c.letterId else ""
  peerLetterId := c.letterId
  peerCodename := if side = .author then c.replierCodename else codenameOf letter
  myCodename := if side = .author then codenameOf letter else c.replierCodename
  blocked := c.blocked
  updatedAt := c.updatedAt
  messages := messages.map (messageItem owner)

/-- the loop over the rows of the page -/
def items (owner : String) : List Conversation → Prg (List Item)
  | [] => pure []
  | c :: rest => do
    let side ← orNotFound (participant c owner)
    let messages ← Prog.call (.listMessages c.id (c.on side).clearedAt)
    let letter ← Prog.call (.getLetter c.letterId)
    let others ← items owner rest
    pure (item owner side c letter messages.reverse :: others)

def conversations (page : ℕ) (owner : String) : Prg (List Item) := do
  let rows ← Prog.call (.listConversations owner page)
  items owner rows

/-- the values that a request draws: `uuid4` twice, `token_hex` once -/
structure Drawn where
  conversationId : String
  replierCodename : String
  messageId : String
  deriving DecidableEq

def message (drawn : Drawn) (convId owner : String) (text : Text) (now : ℤ) : Message where
  id := drawn.messageId
  conversationId := convId
  senderId := owner
  text := Text.strip text
  createdAt := now

def startReply (letterId : String) (text : Text) (drawn : Drawn) (owner : String) : Prg String := do
  let letter ← getLetter letterId
  if letter.ownerId = owner ∨ letter.privacy ∉ ["public", "random"] then .raise .notFound
  else do
    let now ← nowIso
    if visible letter now = false then .raise .notFound
    else if Text.strip text = [] then .raise .invalidInput
    else do
      let found ← Prog.call (.findConversation letterId owner)
      match found with
      | none => do
        -- `created_at` and the first `updated_at`
        let _ ← nowIso
        let _ ← nowIso
        let now ← nowIso
        let c : Conversation :=
          { id := drawn.conversationId, letterId := letterId, authorId := letter.ownerId, replierId := owner
            replierCodename := drawn.replierCodename, updatedAt := now }
        commitWork (.create c (message drawn c.id owner text now))
        pure c.id
      | some c =>
        if c.blocked then .raise .forbidden
        else do
          let now ← nowIso
          commitWork (.change c (c.touched now) (some (message drawn c.id owner text now)))
          pure c.id

def sendMessage (convId : String) (text : Text) (drawn : Drawn) (owner : String) : Prg String := do
  let (c, _) ← conversation convId owner
  if c.blocked then .raise .forbidden
  else if Text.strip text = [] then .raise .invalidInput
  else do
    let now ← nowIso
    commitWork (.change c (c.touched now) (some (message drawn convId owner text now)))
    pure drawn.messageId

/-- two minutes, in microseconds -/
def recallWindow : ℤ := 120000000

def «recall» (convId messageId owner : String) : Prg Unit := do
  let _ ← conversation convId owner
  let found ← Prog.call (.getMessage messageId)
  let m ← orNotFound (found.filter fun m => decide (m.conversationId = convId ∧ m.senderId = owner))
  let now ← nowIso
  if now - m.createdAt > recallWindow then .raise .forbidden
  else commitWork (.recall m { m with recalled := true, text := [] })

def block (convId owner : String) : Prg Unit := do
  let (c, side) ← conversation convId owner
  commitWork (.change c (c.set side fun s => { s with blocked := true }) none)

def clear (convId owner : String) : Prg Unit := do
  let (c, side) ← conversation convId owner
  let now ← nowIso
  commitWork (.change c (c.set side fun s => { s with clearedAt := some now }) none)

def hideConversation (convId owner : String) : Prg Unit := do
  let (c, side) ← conversation convId owner
  let now ← nowIso
  commitWork (.change c (c.set side fun s => { s with hidden := true, clearedAt := some now }) none)

/-! ## Requests -/

inductive Action where
  | conversations (page : ℕ)
  | startReply (letterId : String) (text : Text) (drawn : Drawn)
  | sendMessage (convId : String) (text : Text) (drawn : Drawn)
  | «recall» (convId messageId : String)
  | block (convId : String)
  | clear (convId : String)
  | hideConversation (convId : String)
  deriving DecidableEq

structure Request where
  owner : String
  action : Action
  deriving DecidableEq

inductive Response where
  | conversations (items : List Item)
  | conversationId (id : String)
  | id (id : String)
  | recalled
  | blocked
  | cleared
  | deleted
  deriving DecidableEq

def Request.prog (r : Request) : Prg Response :=
  match r.action with
  | .conversations page => do
    let items ← Treehole.conversations page r.owner
    pure (.conversations items)
  | .startReply letterId text drawn => do
    let id ← Treehole.startReply letterId text drawn r.owner
    pure (.conversationId id)
  | .sendMessage convId text drawn => do
    let id ← Treehole.sendMessage convId text drawn r.owner
    pure (.id id)
  | .recall convId messageId => do
    Treehole.«recall» convId messageId r.owner
    pure .recalled
  | .block convId => do
    Treehole.block convId r.owner
    pure .blocked
  | .clear convId => do
    Treehole.clear convId r.owner
    pure .cleared
  | .hideConversation convId => do
    Treehole.hideConversation convId r.owner
    pure .deleted

abbrev Run := World Stmt Store Err Response

/-- all requests, before their first statement -/
def init (t : Tables) (clock : ℕ → ℤ) (requests : ℕ → Request) : Run :=
  start { tables := t, clock := clock } fun i => (requests i).prog

end LkmService.Treehole
