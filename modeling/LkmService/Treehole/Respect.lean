/-
What a conversation owes to its two sides.

A request decides on the row that it has read, and no later change of the row is looked at again: a block between the
reading and the commit of a message is passed by (`spoken_over`), and the times that decide who sees a message are read
before the commits that they belong to.

- `inTime`: what has been read still holds when a message commits, and its time is later than both cutoffs; the cutoff of a
  clear is not earlier than any message that it should cover.
- `Tables.Onward`: what no commit undoes.
- `Does`: what a commit does, request by request.
- `conversations_respected`: in every run whose commits are in time, the conversations respect both sides.
-/
import Mathlib.Tactic.SplitIfs
import LkmService.Treehole.Model

namespace LkmService.Treehole

open Session Session.Protocol

variable {i j : ℕ} {r : Request} {s t u : Tables} {c c' row : Conversation} {m m' : Message} {side : Side} {owner : String}

/-! ## What no commit undoes -/

/-- one row of a conversation, then and later -/
structure Conversation.Onward (c row : Conversation) : Prop where
  id : row.id = c.id
  authorId : row.authorId = c.authorId
  replierId : row.replierId = c.replierId
  blocked : ∀ side, (c.on side).blocked = true → (row.on side).blocked = true
  cutoff : ∀ side cut, (c.on side).clearedAt = some cut → ∃ cut', (row.on side).clearedAt = some cut' ∧ cut ≤ cut'

theorem Conversation.Onward.refl (c : Conversation) : c.Onward c :=
  ⟨rfl, rfl, rfl, fun _ h => h, fun _ cut h => ⟨cut, h, le_rfl⟩⟩

theorem Conversation.Onward.trans (h : c.Onward c') (h' : c'.Onward row) : c.Onward row where
  id := h'.id.trans h.id
  authorId := h'.authorId.trans h.authorId
  replierId := h'.replierId.trans h.replierId
  blocked side hb := h'.blocked side (h.blocked side hb)
  cutoff side cut hcut := by
    obtain ⟨cut', hcut', hle⟩ := h.cutoff side cut hcut
    obtain ⟨cut'', hcut'', hle'⟩ := h'.cutoff side cut' hcut'
    exact ⟨cut'', hcut'', hle.trans hle'⟩

structure Message.Onward (m row : Message) : Prop where
  id : row.id = m.id
  conversationId : row.conversationId = m.conversationId
  createdAt : row.createdAt = m.createdAt
  recalled : m.recalled = true → row.recalled = true

theorem Message.Onward.refl (m : Message) : m.Onward m := ⟨rfl, rfl, rfl, fun h => h⟩

theorem Message.Onward.trans {row : Message} (h : m.Onward m') (h' : m'.Onward row) : m.Onward row :=
  ⟨h'.id.trans h.id, h'.conversationId.trans h.conversationId, h'.createdAt.trans h.createdAt, fun hr => h'.recalled (h.recalled hr)⟩

/-- the message is there, as it was or recalled -/
def Tables.Has (t : Tables) (m : Message) : Prop := ∃ m' ∈ t.messages, m.Onward m'

structure Tables.Onward (s t : Tables) : Prop where
  conversations : ∀ c ∈ s.conversations, ∃ c' ∈ t.conversations, c.Onward c'
  messages : ∀ m ∈ s.messages, t.Has m
  /-- nobody has written into a conversation that was blocked -/
  fresh : ∀ m ∈ t.messages, (∃ m' ∈ s.messages, m'.id = m.id) ∨
    ∀ c ∈ s.conversations, c.id = m.conversationId → ∀ side, (c.on side).blocked = false

theorem Tables.Onward.refl (s : Tables) : s.Onward s :=
  ⟨fun c hc => ⟨c, hc, .refl c⟩, fun m hm => ⟨m, hm, .refl m⟩, fun m hm => .inl ⟨m, hm, rfl⟩⟩

theorem Tables.Onward.trans (h : s.Onward t) (h' : t.Onward u) : s.Onward u where
  conversations c hc := by
    obtain ⟨c', hc', hon⟩ := h.conversations c hc
    obtain ⟨c'', hc'', hon'⟩ := h'.conversations c' hc'
    exact ⟨c'', hc'', hon.trans hon'⟩
  messages m hm := by
    obtain ⟨m', hm', hon⟩ := h.messages m hm
    obtain ⟨m'', hm'', hon'⟩ := h'.messages m' hm'
    exact ⟨m'', hm'', hon.trans hon'⟩
  fresh m hm := by
    rcases h'.fresh m hm with ⟨m', hm', hid⟩ | hopen
    · rcases h.fresh m' hm' with ⟨m'', hm'', hid'⟩ | hopen
      · exact .inl ⟨m'', hm'', hid'.trans hid⟩
      · obtain ⟨n, hn, hon⟩ := h'.messages m' hm'
        have heq : n = m := List.inj_on_of_nodup_map u.messageIds hn hm (hon.id.trans hid)
        refine .inr fun c hc hconv side => hopen c hc ?_ side
        rw [hconv, ← heq, hon.conversationId]
    · refine .inr fun c hc hconv side => ?_
      obtain ⟨c', hc', hon⟩ := h.conversations c hc
      have hfree := hopen c' hc' (hon.id.trans hconv) side
      by_contra hblocked
      rw [hon.blocked side (by simpa using hblocked)] at hfree
      cases hfree

theorem conversation_unique (hc : c ∈ t.conversations) (hc' : c' ∈ t.conversations) (h : c.id = c'.id) : c = c' :=
  List.inj_on_of_nodup_map t.conversationIds hc hc' h

theorem message_unique (hm : m ∈ t.messages) (hm' : m' ∈ t.messages) (h : m.id = m'.id) : m = m' :=
  List.inj_on_of_nodup_map t.messageIds hm hm' h

theorem participant_congr (h : c.Onward row) : participant row owner = participant c owner := by
  rw [participant, participant, h.authorId, h.replierId]

theorem participant_inj {p q : String} (hp : participant c p = some side) (hq : participant c q = some side) : p = q := by
  unfold participant at hp hq
  split_ifs at hp with hpa hpr
  · obtain rfl := Option.some.inj hp
    split_ifs at hq with hqa hqr
    · exact hpa.symm.trans hqa
    · cases hq
  · obtain rfl := Option.some.inj hp
    split_ifs at hq with hqa hqr
    · cases hq
    · exact hpr.symm.trans hqr

/-! ## What a flush writes -/

theorem insertMessage_ok (h : s.insertMessage m = .ok t) :
    (∀ m' ∈ s.messages, m'.id ≠ m.id) ∧ t.conversations = s.conversations ∧ t.messages = s.messages ++ [m] := by
  unfold Tables.insertMessage at h
  split_ifs at h with hid
  obtain rfl := Except.ok.inj h
  refine ⟨fun m' hm' heq => hid ?_, rfl, rfl⟩
  rw [← heq]
  exact List.mem_map_of_mem hm'

theorem insertConversation_ok (h : s.insertConversation c = .ok t) :
    (∀ c' ∈ s.conversations, c'.id ≠ c.id) ∧ t.conversations = s.conversations ++ [c] ∧ t.messages = s.messages := by
  unfold Tables.insertConversation at h
  split_ifs at h with hid hpair
  obtain rfl := Except.ok.inj h
  refine ⟨fun c' hc' heq => hid ?_, rfl, rfl⟩
  rw [← heq]
  exact List.mem_map_of_mem hc'

theorem flush_create (h : (Work.create c m).flush s = .ok t) :
    (∀ c' ∈ s.conversations, c'.id ≠ c.id) ∧ (∀ m' ∈ s.messages, m'.id ≠ m.id) ∧
      t.conversations = s.conversations ++ [c] ∧ t.messages = s.messages ++ [m] := by
  cases hc : s.insertConversation c with
  | error e =>
    simp only [Work.flush, hc] at h
    cases h
  | ok u =>
    simp only [Work.flush, hc] at h
    obtain ⟨hid, hconv, hmsg⟩ := insertConversation_ok hc
    obtain ⟨hid', hconv', hmsg'⟩ := insertMessage_ok h
    rw [hmsg] at hid' hmsg'
    exact ⟨hid, hid', hconv'.trans hconv, hmsg'⟩

theorem flush_change {loaded : Conversation} {new : Option Message} (h : (Work.change loaded c new).flush s = .ok t) :
    t.conversations = (s.updateConversation loaded c).conversations ∧ t.messages = s.messages ++ new.toList ∧
      (∃ row ∈ s.conversations, row.id = c.id) ∧ ∀ m ∈ new, ∀ m' ∈ s.messages, m'.id ≠ m.id := by
  simp only [Work.flush] at h
  split_ifs at h with hid
  obtain ⟨row, hrow, heq⟩ := List.mem_map.1 hid
  cases new with
  | none =>
    obtain rfl := Except.ok.inj h
    exact ⟨rfl, (List.append_nil _).symm, ⟨row, hrow, heq⟩, fun _ h => (nomatch h)⟩
  | some m =>
    obtain ⟨hfree, hconv, hmsg⟩ := insertMessage_ok h
    refine ⟨hconv, hmsg, ⟨row, hrow, heq⟩, fun m' hm' => ?_⟩
    obtain rfl := Option.some.inj hm'
    exact hfree

theorem flush_recall {loaded : Message} (h : (Work.recall loaded m).flush s = .ok t) :
    t.conversations = s.conversations ∧ t.messages = (s.updateMessage loaded m).messages ∧ ∃ row ∈ s.messages, row.id = m.id := by
  simp only [Work.flush] at h
  split_ifs at h with hid
  obtain ⟨row, hrow, heq⟩ := List.mem_map.1 hid
  obtain rfl := Except.ok.inj h
  exact ⟨rfl, rfl, row, hrow, heq⟩

/-- the rows after the flush of a change -/
theorem mem_updateConversation {loaded new : Conversation} : c' ∈ (s.updateConversation loaded new).conversations ↔
    (c' ∈ s.conversations ∧ c'.id ≠ new.id) ∨ ∃ row ∈ s.conversations, row.id = new.id ∧ c' = loaded.written new row := by
  simp only [Tables.updateConversation, List.mem_map]
  constructor
  · rintro ⟨row, hrow, rfl⟩
    split_ifs with hid
    · exact .inr ⟨row, hrow, hid, rfl⟩
    · exact .inl ⟨hrow, hid⟩
  · rintro (⟨hc, hid⟩ | ⟨row, hrow, hid, rfl⟩)
    · exact ⟨c', hc, if_neg hid⟩
    · exact ⟨row, hrow, if_pos hid⟩

theorem mem_updateMessage {loaded new : Message} : m ∈ (s.updateMessage loaded new).messages ↔
    (m ∈ s.messages ∧ m.id ≠ new.id) ∨ ∃ row ∈ s.messages, row.id = new.id ∧ m = loaded.written new row := by
  simp only [Tables.updateMessage, List.mem_map]
  constructor
  · rintro ⟨row, hrow, rfl⟩
    split_ifs with hid
    · exact .inr ⟨row, hrow, hid, rfl⟩
    · exact .inl ⟨hrow, hid⟩
  · rintro (⟨hm, hid⟩ | ⟨row, hrow, hid, rfl⟩)
    · exact ⟨m, hm, if_neg hid⟩
    · exact ⟨row, hrow, if_pos hid⟩

/-! ## The condition -/

/-- what the request of a message has read still holds, and the message is later than both cutoffs -/
structure Current (loaded row : Conversation) (m : Message) : Prop where
  blocked : ∀ side, (row.on side).blocked = true → (loaded.on side).blocked = true
  hidden : ∀ side, (row.on side).hidden = true → (loaded.on side).hidden = true
  late : ∀ side, ∀ cut ∈ (row.on side).clearedAt, cut < m.createdAt

instance (loaded row : Conversation) (m : Message) : Decidable (Current loaded row m) :=
  decidable_of_iff ((∀ side, (row.on side).blocked = true → (loaded.on side).blocked = true) ∧
    (∀ side, (row.on side).hidden = true → (loaded.on side).hidden = true) ∧
    ∀ side, ∀ cut ∈ (row.on side).clearedAt, cut < m.createdAt)
    ⟨fun h => ⟨h.1, h.2.1, h.2.2⟩, fun h => ⟨h.blocked, h.hidden, h.late⟩⟩

/-- the cutoff of a clear is not earlier than the messages that are there and than the cutoff before it -/
structure Covering (t : Tables) (row : Conversation) (side : Side) (cut : ℤ) : Prop where
  messages : ∀ m ∈ t.messages, m.conversationId = row.id → m.createdAt ≤ cut
  cutoff : ∀ old ∈ (row.on side).clearedAt, old ≤ cut

instance (t : Tables) (row : Conversation) (side : Side) (cut : ℤ) : Decidable (Covering t row side cut) :=
  decidable_of_iff ((∀ m ∈ t.messages, m.conversationId = row.id → m.createdAt ≤ cut) ∧
    ∀ old ∈ (row.on side).clearedAt, old ≤ cut) ⟨fun h => ⟨h.1, h.2⟩, fun h => ⟨h.messages, h.cutoff⟩⟩

/-- the conversation that the request clears for its owner, alone or by hiding it -/
def Request.clears (r : Request) : Option String :=
  match r.action with
  | .clear convId => some convId
  | .hideConversation convId => some convId
  | _ => none

/-- the commit of a message or of a clear is in time -/
def inTime (r : Request) (t : Tables) : Work → Prop
  | .create .. => True
  | .recall .. => True
  | .change loaded c (some m) => ∀ row ∈ t.conversations, row.id = c.id → Current loaded row m
  | .change _ c none => r.clears = some c.id → ∀ row ∈ t.conversations, row.id = c.id →
      ∀ side, participant c r.owner = some side → ∀ cut ∈ (c.on side).clearedAt, Covering t row side cut

instance (r : Request) (t : Tables) (w : Work) : Decidable (inTime r t w) := by
  unfold inTime
  split <;> infer_instance

/-! ## What a commit does -/

/-- what stays of a block and of a recall -/
def Lasting (r : Request) (t : Tables) : Prop :=
  match r.action with
  | .block convId => ∃ c ∈ t.conversations, c.id = convId ∧ ∃ side, (c.on side).blocked = true
  | .recall _ messageId => ∃ m ∈ t.messages, m.id = messageId ∧ m.recalled = true
  | _ => True

theorem Lasting.onward (h : Lasting r s) (ho : s.Onward t) : Lasting r t := by
  unfold Lasting at h ⊢
  split
  · obtain ⟨c, hc, hid, side, hblocked⟩ := by simpa only [*] using h
    obtain ⟨c', hc', hon⟩ := ho.conversations c hc
    exact ⟨c', hc', hon.id.trans hid, side, hon.blocked side hblocked⟩
  · obtain ⟨m, hm, hid, hrecalled⟩ := by simpa only [*] using h
    obtain ⟨m', hm', hon⟩ := ho.messages m hm
    exact ⟨m', hm', hon.id.trans hid, hon.recalled hrecalled⟩
  · trivial

structure Does (r : Request) (s t : Tables) : Prop where
  onward : s.Onward t
  /-- a new message is shown to both sides -/
  shows : ∀ m ∈ t.messages, (∀ m' ∈ s.messages, m'.id ≠ m.id) → ∃ c ∈ t.conversations, c.id = m.conversationId ∧
    ∀ side, (c.on side).hidden = false ∧ ∀ cut ∈ (c.on side).clearedAt, cut < m.createdAt
  /-- a side is cleared and hidden by its own requests only -/
  keeps : ∀ c ∈ s.conversations, ∀ c' ∈ t.conversations, c'.id = c.id → ∀ side,
    ¬ (r.clears = some c.id ∧ participant c r.owner = some side) →
      ((c'.on side).hidden = true → (c.on side).hidden = true) ∧ (c'.on side).clearedAt = (c.on side).clearedAt
  covers : ∀ convId ∈ r.clears, ∃ c ∈ t.conversations, c.id = convId ∧ ∃ side, participant c r.owner = some side ∧
    ∃ cut, (c.on side).clearedAt = some cut ∧ ∀ m ∈ s.messages, m.conversationId = convId → m.createdAt ≤ cut
  others : ∀ c ∈ s.conversations, participant c r.owner = none →
    c ∈ t.conversations ∧ ∀ m, m.conversationId = c.id → (m ∈ t.messages ↔ m ∈ s.messages)
  lasting : Lasting r t

theorem has_of_append {l : List Message} (h : t.messages = s.messages ++ l) : ∀ m ∈ s.messages, t.Has m := by
  intro m hm
  exact ⟨m, h ▸ List.mem_append_left _ hm, .refl m⟩

/-- the commit of a message in a new conversation -/
theorem does_create (hclears : r.clears = none) (hlast : ∀ t, Lasting r t) (hconv : m.conversationId = c.id)
    (hopen : ∀ side, (c.on side) = {}) (h : (Work.create c m).flush s = .ok t) : Does r s t := by
  obtain ⟨hfree, hfree', hcs, hms⟩ := flush_create h
  refine ⟨⟨fun c' hc' => ⟨c', hcs ▸ List.mem_append_left _ hc', .refl c'⟩, has_of_append hms, fun m' hm' => ?_⟩,
    fun m' hm' hnew => ?_, fun c₁ hc₁ c₂ hc₂ hid side _ => ?_, fun convId hconvId => ?_, fun c' hc' _ => ?_, hlast t⟩
  · rw [hms, List.mem_append, List.mem_singleton] at hm'
    rcases hm' with hm' | rfl
    · exact .inl ⟨m', hm', rfl⟩
    · exact .inr fun c' hc' hid => absurd (hid.trans hconv) (hfree c' hc')
  · rw [hms, List.mem_append, List.mem_singleton] at hm'
    rcases hm' with hm' | rfl
    · exact absurd rfl (hnew m' hm')
    · refine ⟨c, hcs ▸ List.mem_append_right _ (List.mem_singleton_self c), hconv.symm, fun side => ?_⟩
      rw [hopen side]
      exact ⟨rfl, fun cut hcut => (nomatch hcut)⟩
  · obtain rfl : c₁ = c₂ := conversation_unique (t := t) (hcs ▸ List.mem_append_left _ hc₁) hc₂ hid.symm
    exact ⟨fun h => h, rfl⟩
  · rw [hclears] at hconvId
    cases hconvId
  · refine ⟨hcs ▸ List.mem_append_left _ hc', fun m' hm' => ?_⟩
    rw [hms, List.mem_append, List.mem_singleton]
    refine or_iff_left fun heq => hfree c' hc' ?_
    rw [← hm', heq, hconv]

/-- the rows after a flush that has written `new` over the row `row` of what was loaded -/
structure Flushed (s t : Tables) (loaded new row : Conversation) : Prop where
  written : loaded.written new row ∈ t.conversations
  cases : ∀ c ∈ t.conversations, (c ∈ s.conversations ∧ c.id ≠ loaded.id) ∨ c = loaded.written new row
  others : ∀ c ∈ s.conversations, c.id ≠ loaded.id → c ∈ t.conversations
  own : ∀ c ∈ s.conversations, c.id = loaded.id → c = row
  frame : loaded.Onward row

theorem flushed_of {loaded new : Conversation} (hrow : row ∈ s.conversations) (hon : loaded.Onward row) (hid : new.id = loaded.id)
    (hcs : t.conversations = (s.updateConversation loaded new).conversations) : Flushed s t loaded new row := by
  have hown : ∀ c ∈ s.conversations, c.id = loaded.id → c = row := fun c hc h => conversation_unique hc hrow (h.trans hon.id.symm)
  refine ⟨?_, fun c hc => ?_, fun c hc hne => ?_, hown, hon⟩
  · rw [hcs, mem_updateConversation]
    exact .inr ⟨row, hrow, hon.id.trans hid.symm, rfl⟩
  · rw [hcs, mem_updateConversation, hid] at hc
    rcases hc with h | ⟨row', hrow', hid', rfl⟩
    · exact .inl h
    · right
      rw [hown row' hrow' hid']
  · rw [hcs, mem_updateConversation, hid]
    exact .inl ⟨hc, hne⟩

theorem Flushed.onward {loaded new : Conversation} (h : Flushed s t loaded new row) (hw : row.Onward (loaded.written new row)) :
    ∀ c ∈ s.conversations, ∃ c' ∈ t.conversations, c.Onward c' := by
  intro c hc
  by_cases hid : c.id = loaded.id
  · obtain rfl := h.own c hc hid
    exact ⟨_, h.written, hw⟩
  · exact ⟨c, h.others c hc hid, .refl c⟩

/-- who is not of the conversation has not written it -/
theorem Flushed.ne {loaded new : Conversation} (h : Flushed s t loaded new row) (hpart : participant loaded owner ≠ none)
    (hc : c ∈ s.conversations) (hnone : participant c owner = none) : c.id ≠ loaded.id := by
  intro hid
  obtain rfl := h.own c hc hid
  exact hpart ((participant_congr h.frame).symm.trans hnone)

/-- a conversation that has been read as not blocked -/
theorem open_of_blocked (h : c.blocked = false) (side : Side) : (c.on side).blocked = false := by
  obtain ⟨ha, hr⟩ : c.author.blocked = false ∧ c.replier.blocked = false := by simpa [Conversation.blocked] using h
  cases side with
  | author => exact ha
  | replier => exact hr

/-- a side that has not been hidden since it was read is shown -/
theorem on_written_touched {loaded : Conversation} {now : ℤ} (h : Current loaded row m) (side : Side) :
    (loaded.written (loaded.touched now) row).on side = { row.on side with hidden := false } := by
  rw [Conversation.on_written, Conversation.on_touched]
  have hhidden : column (loaded.on side).hidden false (row.on side).hidden = false := by
    unfold column
    split_ifs with hsame
    · cases hrow : (row.on side).hidden with
      | false => rfl
      | true =>
        rw [h.hidden side hrow] at hsame
        cases hsame
    · rfl
  simp only [Standing.written, column_self, hhidden]

/-- the commit of a message in a conversation that has been read as `loaded` -/
theorem does_message {loaded : Conversation} {now : ℤ} (hclears : r.clears = none) (hlast : ∀ t, Lasting r t)
    (hconv : m.conversationId = loaded.id) (hpart : participant loaded r.owner ≠ none) (hopen : loaded.blocked = false)
    (hrow : row ∈ s.conversations) (hon : loaded.Onward row)
    (htime : inTime r s (.change loaded (loaded.touched now) (some m)))
    (h : (Work.change loaded (loaded.touched now) (some m)).flush s = .ok t) : Does r s t := by
  obtain ⟨hcs, hms, -, -⟩ := flush_change h
  have hcur : Current loaded row m := htime row hrow hon.id
  have hflush : Flushed s t loaded (loaded.touched now) row := flushed_of hrow hon rfl hcs
  have hstanding : ∀ side, (loaded.written (loaded.touched now) row).on side = { row.on side with hidden := false } :=
    on_written_touched hcur
  have hw : row.Onward (loaded.written (loaded.touched now) row) := by
    refine ⟨rfl, rfl, rfl, fun side hb => ?_, fun side cut hcut => ⟨cut, ?_, le_rfl⟩⟩
    · rw [hstanding side]
      exact hb
    · rw [hstanding side]
      exact hcut
  have hmem : ∀ m', m' ∈ t.messages ↔ m' ∈ s.messages ∨ m' = m := by
    intro m'
    rw [hms, Option.toList_some, List.mem_append, List.mem_singleton]
  refine ⟨⟨hflush.onward hw, has_of_append hms, fun m' hm' => ?_⟩, fun m' hm' hnew => ?_, fun c₁ hc₁ c₂ hc₂ hid side _ => ?_,
    fun convId hconvId => ?_, fun c' hc' hnone => ?_, hlast t⟩
  · rcases (hmem m').1 hm' with hm' | rfl
    · exact .inl ⟨m', hm', rfl⟩
    · refine .inr fun c' hc' hid side => ?_
      obtain rfl := hflush.own c' hc' (hid.trans hconv)
      by_contra hblocked
      have hb := hcur.blocked side (by simpa using hblocked)
      rw [open_of_blocked hopen side] at hb
      cases hb
  · rcases (hmem m').1 hm' with hm' | rfl
    · exact absurd rfl (hnew m' hm')
    · refine ⟨_, hflush.written, hon.id.trans hconv.symm, fun side => ?_⟩
      rw [hstanding side]
      exact ⟨rfl, hcur.late side⟩
  · rcases hflush.cases c₂ hc₂ with ⟨hc₂', -⟩ | rfl
    · obtain rfl := conversation_unique hc₁ hc₂' hid.symm
      exact ⟨fun h => h, rfl⟩
    · obtain rfl := conversation_unique hc₁ hrow hid.symm
      rw [hstanding side]
      exact ⟨fun h => (nomatch h), rfl⟩
  · rw [hclears] at hconvId
    cases hconvId
  · have hne := hflush.ne hpart hc' hnone
    refine ⟨hflush.others c' hc' hne, fun m' hm' => ?_⟩
    rw [hmem m']
    refine or_iff_left fun heq => hne ?_
    rw [← hm', heq, hconv]

/-- a cutoff that is written is not earlier than it should be: one that is not written has been overtaken -/
theorem column_cutoff {loaded : Conversation} {cut : ℤ} (hon : loaded.Onward row) (hcover : Covering s row side cut) :
    ∃ cut', column (loaded.on side).clearedAt (some cut) (row.on side).clearedAt = some cut' ∧ cut ≤ cut' ∧
      ∀ old ∈ (row.on side).clearedAt, old ≤ cut' := by
  unfold column
  split_ifs with hsame
  · obtain ⟨cut', hcut', hle⟩ := hon.cutoff side cut hsame.symm
    refine ⟨cut', hcut', hle, fun old hold => ?_⟩
    rw [hcut'] at hold
    exact le_of_eq (Option.some.inj hold).symm
  · exact ⟨cut, rfl, le_rfl, hcover.cutoff⟩

theorem column_blocked {x y : Bool} {f : Bool} (hf : x = true → f = true) (hy : y = true) : column x f y = true := by
  cases x <;> cases f <;> simp_all [column]

/-- the commit of a change on the owner's side: a block, or a clear that covers what is there -/
theorem does_mark {loaded : Conversation} {f : Standing → Standing} (hpart : participant loaded r.owner = some side)
    (hrow : row ∈ s.conversations) (hon : loaded.Onward row) (hblock : ∀ x, x.blocked = true → (f x).blocked = true)
    (hf : (r.clears = none ∧ ∀ x, (f x).hidden = x.hidden ∧ (f x).clearedAt = x.clearedAt) ∨
      (r.clears = some loaded.id ∧ ∃ cut, ∀ x, (f x).clearedAt = some cut))
    (hlast : (loaded.written (loaded.set side f) row) ∈ t.conversations → Lasting r t)
    (htime : inTime r s (.change loaded (loaded.set side f) none))
    (h : (Work.change loaded (loaded.set side f) none).flush s = .ok t) : Does r s t := by
  obtain ⟨hcs, hms, -, -⟩ := flush_change h
  have hflush := flushed_of hrow hon (Conversation.set_id side f loaded) hcs
  have hmem : t.messages = s.messages := hms.trans (List.append_nil _)
  have hpart' : participant row r.owner = some side := (participant_congr hon).trans hpart
  have hother : ∀ side', side' ≠ side → (loaded.written (loaded.set side f) row).on side' = row.on side' := by
    intro side' hne
    rw [Conversation.on_written, Conversation.on_set, if_neg hne]
    simp only [Standing.written, column_self]
  have hown : (loaded.written (loaded.set side f) row).on side = (loaded.on side).written (f (loaded.on side)) (row.on side) := by
    rw [Conversation.on_written, Conversation.on_set, if_pos rfl]
  have hcutoff : ∀ cut, (f (loaded.on side)).clearedAt = some cut → r.clears = some loaded.id → ∃ cut',
      ((loaded.written (loaded.set side f) row).on side).clearedAt = some cut' ∧ cut ≤ cut' ∧
        (∀ old ∈ (row.on side).clearedAt, old ≤ cut') ∧ ∀ m ∈ s.messages, m.conversationId = row.id → m.createdAt ≤ cut := by
    intro cut hcut hclears
    have hset : ((loaded.set side f).on side).clearedAt = some cut := by
      rw [Conversation.on_set, if_pos rfl]
      exact hcut
    have hpartSet : participant (loaded.set side f) r.owner = some side := by
      rw [← hpart]
      cases side <;> rfl
    have hcover : Covering s row side cut := by
      refine htime ?_ row hrow ?_ side hpartSet cut hset
      · rw [Conversation.set_id]
        exact hclears
      · rw [Conversation.set_id]
        exact hon.id
    obtain ⟨cut', hcut', hle, hold⟩ := column_cutoff hon hcover
    refine ⟨cut', ?_, hle, hold, hcover.messages⟩
    rw [hown]
    simp only [Standing.written, hcut]
    exact hcut'
  have hw : row.Onward (loaded.written (loaded.set side f) row) := by
    refine ⟨rfl, rfl, rfl, fun side' hb => ?_, fun side' old hold => ?_⟩
    · by_cases hside : side' = side
      · subst hside
        rw [hown]
        exact column_blocked (hblock _) hb
      · rw [hother side' hside]
        exact hb
    · by_cases hside : side' = side
      · subst hside
        rcases hf with ⟨-, hsame⟩ | ⟨hclears, cut, hcut⟩
        · refine ⟨old, ?_, le_rfl⟩
          rw [hown]
          simp only [Standing.written, (hsame _).2, column_self]
          exact hold
        · obtain ⟨cut', hcut', -, hle, -⟩ := hcutoff cut (hcut _) hclears
          exact ⟨cut', hcut', hle old hold⟩
      · rw [hother side' hside]
        exact ⟨old, hold, le_rfl⟩
  refine ⟨⟨hflush.onward hw, fun m hm => ⟨m, hmem ▸ hm, .refl m⟩, fun m hm => .inl ⟨m, hmem ▸ hm, rfl⟩⟩,
    fun m hm hnew => absurd rfl (hnew m (hmem ▸ hm)), fun c₁ hc₁ c₂ hc₂ hid side' hnot => ?_, fun convId hconvId => ?_,
    fun c' hc' hnone => ⟨hflush.others c' hc' (hflush.ne ?_ hc' hnone), fun m _ => by rw [hmem]⟩, hlast hflush.written⟩
  · rcases hflush.cases c₂ hc₂ with ⟨hc₂', -⟩ | rfl
    · obtain rfl := conversation_unique hc₁ hc₂' hid.symm
      exact ⟨fun h => h, rfl⟩
    · obtain rfl := conversation_unique hc₁ hrow hid.symm
      by_cases hside : side' = side
      · subst hside
        rcases hf with ⟨-, hsame⟩ | ⟨hclears, -⟩
        · rw [hown]
          simp only [Standing.written, (hsame _).1, (hsame _).2, column_self]
          exact ⟨fun h => h, trivial⟩
        · exact absurd ⟨hclears.trans (congrArg some hon.id.symm), hpart'⟩ hnot
      · rw [hother side' hside]
        exact ⟨fun h => h, rfl⟩
  · rcases hf with ⟨hclears, -⟩ | ⟨hclears, cut, hcut⟩
    · rw [hclears] at hconvId
      cases hconvId
    · obtain ⟨cut', hcut', hle, -, hall⟩ := hcutoff cut (hcut _) hclears
      obtain rfl : loaded.id = convId := Option.some.inj (hclears.symm.trans hconvId)
      refine ⟨_, hflush.written, hon.id, side, (participant_congr hw).trans hpart', cut', hcut', fun m hm hid => ?_⟩
      exact (hall m hm (hid.trans hon.id.symm)).trans hle
  · rw [hpart]
    exact Option.some_ne_none side

/-- the commit of a recall -/
theorem does_recall {loaded new : Message} (hclears : r.clears = none)
    (hlast : ∀ t : Tables, (∃ m ∈ t.messages, m.id = new.id ∧ m.recalled = true) → Lasting r t)
    (hnew : new = { loaded with recalled := true, text := [] }) (hloaded : ∃ row ∈ s.messages, loaded.Onward row)
    (hpart : ∃ c ∈ s.conversations, c.id = loaded.conversationId ∧ participant c r.owner ≠ none)
    (h : (Work.recall loaded new).flush s = .ok t) : Does r s t := by
  obtain ⟨hcs, hms, -⟩ := flush_recall h
  obtain ⟨row, hrow, hon⟩ := hloaded
  obtain ⟨c₀, hc₀, hid₀, hpart₀⟩ := hpart
  have hid : new.id = loaded.id := by rw [hnew]
  have hrecalled : (loaded.written new row).recalled = true := by
    rw [hnew]
    simp only [Message.written, column]
    split_ifs with hsame
    · exact hon.recalled hsame.symm
    · rfl
  have hw : row.Onward (loaded.written new row) := ⟨rfl, rfl, rfl, fun _ => hrecalled⟩
  have hmem : ∀ m, m ∈ t.messages ↔ (m ∈ s.messages ∧ m.id ≠ loaded.id) ∨ m = loaded.written new row := by
    intro m
    rw [hms, mem_updateMessage, hid]
    refine or_congr_right ⟨?_, ?_⟩
    · rintro ⟨row', hrow', hid', rfl⟩
      rw [message_unique hrow' hrow (hid'.trans hon.id.symm)]
    · rintro rfl
      exact ⟨row, hrow, hon.id, rfl⟩
  have hold : ∀ m ∈ t.messages, ∃ m' ∈ s.messages, m'.id = m.id := by
    intro m hm
    rcases (hmem m).1 hm with ⟨hm', -⟩ | rfl
    · exact ⟨m, hm', rfl⟩
    · exact ⟨row, hrow, rfl⟩
  refine ⟨⟨fun c hc => ⟨c, hcs ▸ hc, .refl c⟩, fun m hm => ?_, fun m hm => .inl (hold m hm)⟩, fun m hm hfresh => ?_,
    fun c₁ hc₁ c₂ hc₂ hid side _ => ?_, fun convId hconvId => ?_, fun c hc hnone => ⟨hcs ▸ hc, fun m hm => ?_⟩, hlast t ?_⟩
  · by_cases hid' : m.id = loaded.id
    · obtain rfl := message_unique hm hrow (hid'.trans hon.id.symm)
      exact ⟨_, (hmem _).2 (.inr rfl), hw⟩
    · exact ⟨m, (hmem m).2 (.inl ⟨hm, hid'⟩), .refl m⟩
  · obtain ⟨m', hm', heq⟩ := hold m hm
    exact absurd heq (hfresh m' hm')
  · obtain rfl := conversation_unique hc₁ (hcs ▸ hc₂) hid.symm
    exact ⟨fun h => h, rfl⟩
  · rw [hclears] at hconvId
    cases hconvId
  · have hne : m.conversationId ≠ loaded.conversationId := by
      intro heq
      obtain rfl := conversation_unique hc hc₀ (hm.symm.trans (heq.trans hid₀.symm))
      exact hpart₀ hnone
    rw [hmem]
    constructor
    · rintro (⟨hm', -⟩ | rfl)
      · exact hm'
      · exact absurd hon.conversationId hne
    · intro hm'
      refine .inl ⟨hm', fun hid' => hne ?_⟩
      rw [message_unique hm' hrow (hid'.trans hon.id.symm)]
      exact hon.conversationId
  · exact ⟨_, (hmem _).2 (.inr rfl), hon.id.trans hid.symm, hrecalled⟩

/-! ## The requests -/

def Stmt.work {β : Type} : Stmt β → Option Work
  | .commit w => some w
  | _ => none

/-- every step is silent or the commit of its request -/
def protocol (requests : ℕ → Request) : Protocol Stmt Store where
  inv s := ∀ i ∈ s.log, Lasting (requests i) s.tables
  rely _ s t := s.tables.Onward t.tables
  act i s t := s.tables.Onward t.tables ∧ ((t.tables = s.tables ∧ t.log = s.log) ∨
    (t.log = s.log ++ [i] ∧ Does (requests i) s.tables t.tables))
  ok i c s := ∀ w ∈ c.work, inTime (requests i) s.tables w
  rely_refl _ s := .refl s.tables
  rely_trans _ _ _ _ h h' := h.trans h'
  drop_inv _ _ h _ := h
  drop_act _ s _ _ := ⟨.refl s.tables, .inl ⟨rfl, rfl⟩⟩
  drop_rely _ s _ _ _ _ := .refl s.tables

variable {requests : ℕ → Request} {a b : Store} {α : Type}

theorem good_silent (h : (protocol requests).inv a) (ht : b.tables = a.tables) (hl : b.log = a.log) :
    (protocol requests).Good i a b := by
  have hon : a.tables.Onward b.tables := ht ▸ .refl a.tables
  refine ⟨fun j hj => ?_, ⟨hon, .inl ⟨ht, hl⟩⟩, fun _ _ => hon⟩
  rw [hl] at hj
  rw [ht]
  exact h j hj

theorem good_commit (h : (protocol requests).inv a) (hl : b.log = a.log ++ [i]) (hd : Does (requests i) a.tables b.tables) :
    (protocol requests).Good i a b := by
  refine ⟨fun j hj => ?_, ⟨hd.onward, .inr ⟨hl, hd⟩⟩, fun _ _ => hd.onward⟩
  rw [hl, List.mem_append, List.mem_singleton] at hj
  rcases hj with hj | rfl
  · exact (h j hj).onward hd.onward
  · exact hd.lasting

/-- the statements that write nothing -/
theorem wp_read {β : Type} {c : Stmt β} {Q : Except Err β → Store → Prop} (hc : c.work = none)
    (h : ∀ b, a.tables.Onward b.tables → Q (.ok (c.exec i b).1) (c.exec i b).2) :
    (protocol requests).wp i (.call c) Q a := by
  intro b hr hi _ x b' he
  obtain ⟨rfl, rfl⟩ : (c.exec i b).1 = x ∧ (c.exec i b).2 = b' := by
    have hex := Option.some.inj he
    rw [hex]
    exact ⟨rfl, rfl⟩
  refine ⟨?_, h _ hr⟩
  cases c with
  | commit w => cases hc
  | _ => exact good_silent hi rfl rfl

/-- a statement that writes nothing, then the rest -/
theorem wp_readThen {β : Type} {c : Stmt β} {f : β → Prg α} {Q : Except Err α → Store → Prop} (hc : c.work = none)
    (h : ∀ b, a.tables.Onward b.tables → (protocol requests).wp i (f (c.exec i b).1) Q (c.exec i b).2) :
    (protocol requests).wp i (Prog.call c >>= f) Q a := by
  rw [wp_bind]
  exact wp_read hc h

theorem wp_nowIso {f : ℤ → Prg α} {Q : Except Err α → Store → Prop}
    (h : ∀ now b, a.tables.Onward b.tables → (protocol requests).wp i (f now) Q b) :
    (protocol requests).wp i (nowIso >>= f) Q a :=
  wp_readThen rfl fun _ hb => h _ _ hb

theorem wp_orNotFound {β : Type} {o : Option β} {f : β → Prg α} {Q : Except Err α → Store → Prop}
    (hsome : ∀ v, o = some v → (protocol requests).wp i (f v) Q a) (hnone : Q (.error .notFound) a) :
    (protocol requests).wp i (orNotFound o >>= f) Q a := by
  cases o with
  | none => exact hnone
  | some v => exact hsome v rfl

/-- how a part of a program ends -/
def Ends (P : α → Tables → Prop) (E : Err → Prop) : Except Err α → Store → Prop
  | .ok v, b => P v b.tables
  | .error e, _ => E e

theorem wp_seq {γ : Type} {p : Prg α} {f : α → Prg γ} {P : α → Tables → Prop} {E : Err → Prop} {Q : Except Err γ → Store → Prop}
    (hp : (protocol requests).wp i p (Ends P E) a) (hf : ∀ v b, P v b.tables → (protocol requests).wp i (f v) Q b)
    (he : ∀ e b, E e → Q (.error e) b) : (protocol requests).wp i (p >>= f) Q a := by
  rw [wp_bind]
  refine wp_mono _ _ hp ?_
  intro x b hx
  cases x with
  | ok v => exact hf v b hx
  | error e => exact he e b hx

theorem wp_commitWork {w : Work} (h : ∀ s, a.tables.Onward s → inTime (requests i) s w → ∀ t, w.flush s = .ok t → Does (requests i) s t) :
    (protocol requests).wp i (commitWork w) (fun _ _ => True) a := by
  unfold commitWork
  rw [wp_bind]
  intro b hr hi hok x b' he
  have hex : (Stmt.commit w).exec i b = (x, b') := Option.some.inj he
  simp only [Stmt.exec] at hex
  cases hflush : w.flush b.tables with
  | ok t =>
    simp only [hflush, Prod.mk.injEq] at hex
    obtain ⟨rfl, rfl⟩ := hex
    exact ⟨good_commit hi rfl (h b.tables hr (hok w rfl) t hflush), trivial⟩
  | error e =>
    simp only [hflush, Prod.mk.injEq] at hex
    obtain ⟨rfl, rfl⟩ := hex
    exact ⟨good_silent hi rfl rfl, trivial⟩

/-- a row that has been read, and the side that its owner is on -/
structure Loaded (c : Conversation) (side : Side) (owner : String) (t : Tables) : Prop where
  side : participant c owner = some side
  row : ∃ row ∈ t.conversations, c.Onward row

theorem Loaded.onward (h : Loaded c side owner s) (ho : s.Onward t) : Loaded c side owner t := by
  obtain ⟨row, hrow, hon⟩ := h.row
  obtain ⟨row', hrow', hon'⟩ := ho.conversations row hrow
  exact ⟨h.side, row', hrow', hon.trans hon'⟩

/-- the owner is of the conversation -/
def Participates (convId owner : String) (t : Tables) : Prop :=
  ∃ c ∈ t.conversations, c.id = convId ∧ participant c owner ≠ none

theorem Participates.onward {convId : String} (h : Participates convId owner s) (ho : s.Onward t) : Participates convId owner t := by
  obtain ⟨c, hc, hid, hpart⟩ := h
  obtain ⟨c', hc', hon⟩ := ho.conversations c hc
  exact ⟨c', hc', hon.id.trans hid, by rwa [participant_congr hon]⟩

theorem Loaded.participates (h : Loaded c side owner t) : Participates c.id owner t := by
  obtain ⟨row, hrow, hon⟩ := h.row
  refine ⟨row, hrow, hon.id, ?_⟩
  rw [participant_congr hon, h.side]
  exact Option.some_ne_none side

theorem conversation_spec (convId owner : String) (a : Store) :
    (protocol requests).wp i (conversation convId owner)
      (Ends (fun v t => v.1.id = convId ∧ Loaded v.1 v.2 owner t) fun e => e = .notFound) a := by
  unfold conversation
  refine wp_readThen rfl fun b _ => ?_
  refine wp_orNotFound (fun c hc => ?_) rfl
  refine wp_orNotFound (fun side hside => ?_) rfl
  have hmem : c ∈ b.tables.conversations := List.mem_of_find?_eq_some hc
  have hfound : b.tables.conversations.find? (fun c => c.id = convId) = some c := hc
  have hid : c.id = convId := by simpa using List.find?_some hfound
  exact ⟨hid, hside, c, hmem, .refl c⟩

/-- a request on a conversation: nobody else gets past its reading -/
theorem wp_onConversation {convId : String} {f : Conversation × Side → Prg α} {g : α → Response}
    (hf : ∀ c side b, c.id = convId → Loaded c side owner b.tables → (protocol requests).wp i (f (c, side)) (fun _ _ => True) b) :
    (protocol requests).wp i (do let v ← conversation convId owner >>= f; pure (g v))
      (fun x b => x = .error .notFound ∨ Participates convId owner b.tables) a := by
  have hbody : (protocol requests).wp i (conversation convId owner >>= f)
      (fun x b => x = .error .notFound ∨ Participates convId owner b.tables) a := by
    refine wp_seq (conversation_spec convId owner a) ?_ ?_
    · intro v b hv
      have hpart : Participates convId owner b.tables := hv.1 ▸ hv.2.participates
      have hframe := wp_frame (protocol requests) i (Φ := fun b => Participates convId owner b.tables)
        (fun _ _ hr h => h.onward hr) (fun _ _ ha h => h.onward ha.1) (hf v.1 v.2 b hv.1 hv.2) hpart
      exact wp_mono _ _ hframe fun _ _ h => .inr h.2
    · rintro e b rfl
      exact .inl rfl
  rw [wp_bind]
  refine wp_mono _ _ hbody ?_
  intro x b hx
  cases x with
  | ok v =>
    rcases hx with hx | hx
    · cases hx
    · exact .inr hx
  | error e =>
    rcases hx with hx | hx
    · cases hx
      exact .inl rfl
    · exact .inr hx

/-- whatever a commit is followed by, it ends -/
theorem wp_committed {w : Work} {v : α} (h : ∀ s, a.tables.Onward s → inTime (requests i) s w → ∀ t, w.flush s = .ok t → Does (requests i) s t) :
    (protocol requests).wp i (do commitWork w; pure v) (fun _ _ => True) a :=
  wp_seq (P := fun _ _ => True) (E := fun _ => True)
    (wp_mono _ _ (wp_commitWork h) fun x _ _ => by cases x <;> trivial) (fun _ _ _ => trivial) fun _ _ _ => trivial

def Request.target (r : Request) : Option String :=
  match r.action with
  | .sendMessage convId _ _ => some convId
  | .recall convId _ => some convId
  | .block convId => some convId
  | .clear convId => some convId
  | .hideConversation convId => some convId
  | _ => none

theorem sendMessage_spec {convId : String} {text : Text} {drawn : Drawn} (hr : requests i = ⟨owner, .sendMessage convId text drawn⟩) :
    (protocol requests).wp i (Request.prog ⟨owner, .sendMessage convId text drawn⟩)
      (fun x b => x = .error .notFound ∨ Participates convId owner b.tables) a := by
  refine wp_onConversation (g := .id) ?_
  intro c side b hid hload
  dsimp only
  split
  next => trivial
  next hopen =>
    split
    next => trivial
    next =>
      refine wp_nowIso fun now b' hb => wp_committed fun s hs htime t hflush => ?_
      obtain ⟨row, hrow, hon⟩ := ((hload.onward hb).onward hs).row
      refine does_message ?_ ?_ ?_ ?_ ?_ hrow hon htime hflush
      · rw [hr]
        rfl
      · rw [hr]
        exact fun t => trivial
      · exact hid.symm
      · rw [hr, hload.side]
        exact Option.some_ne_none side
      · simpa using hopen

/-- a message that has been read in a conversation of its sender -/
theorem recall_spec {convId messageId : String} (hr : requests i = ⟨owner, .recall convId messageId⟩) :
    (protocol requests).wp i (Request.prog ⟨owner, .recall convId messageId⟩)
      (fun x b => x = .error .notFound ∨ Participates convId owner b.tables) a := by
  refine wp_onConversation (g := fun _ => .recalled) ?_
  intro c side b hid hload
  refine wp_readThen rfl fun b hb => wp_orNotFound (fun m hm => wp_nowIso fun now b' hb' => ?_) trivial
  obtain ⟨hm, hown⟩ := Option.filter_eq_some_iff.1 hm
  have hfound : b.tables.messages.find? (fun m => m.id = messageId) = some m := hm
  have hmem : m ∈ b.tables.messages := List.mem_of_find?_eq_some hfound
  have hmid : m.id = messageId := by simpa using List.find?_some hfound
  obtain ⟨hconv, -⟩ := of_decide_eq_true hown
  split
  next => trivial
  next =>
    refine wp_commitWork fun s hs _ t hflush => ?_
    have hlater : b.tables.Onward s := Tables.Onward.trans hb' hs
    obtain ⟨row, hrow, hrowid, hpart⟩ := (hload.onward (hb.trans hlater)).participates
    refine does_recall ?_ ?_ rfl (hlater.messages m hmem) ⟨row, hrow, ?_, ?_⟩ hflush
    · rw [hr]
      rfl
    · rintro t ⟨m', hm', hid', hrecalled⟩
      rw [hr]
      exact ⟨m', hm', hid'.trans hmid, hrecalled⟩
    · rw [hrowid, hid, hconv]
    · rw [hr]
      exact hpart

/-- a block, a clear or a hiding that has come to its commit -/
theorem mark_spec {convId : String} {f : Standing → Standing} (hid : c.id = convId) (hload : Loaded c side (requests i).owner a.tables)
    (hblock : ∀ x, x.blocked = true → (f x).blocked = true)
    (hf : ((requests i).clears = none ∧ ∀ x, (f x).hidden = x.hidden ∧ (f x).clearedAt = x.clearedAt) ∨
      ((requests i).clears = some convId ∧ ∃ cut, ∀ x, (f x).clearedAt = some cut))
    (hlast : ∀ t : Tables, (∃ c' ∈ t.conversations, c'.id = convId ∧
      ((∀ x, (f x).blocked = true) → ∃ side, (c'.on side).blocked = true)) → Lasting (requests i) t) :
    (protocol requests).wp i (commitWork (.change c (c.set side f) none)) (fun _ _ => True) a := by
  refine wp_commitWork fun s hs htime t hflush => ?_
  obtain ⟨row, hrow, hon⟩ := (hload.onward hs).row
  refine does_mark hload.side hrow hon hblock (hid ▸ hf) (fun hmem => hlast t ⟨_, hmem, hon.id.trans hid, fun hall => ⟨side, ?_⟩⟩)
    htime hflush
  rw [Conversation.on_written, Conversation.on_set, if_pos rfl]
  simp only [Standing.written, hall, column]
  split_ifs with hsame
  · exact hon.blocked side hsame.symm
  · rfl

theorem block_spec {convId : String} (hr : requests i = ⟨owner, .block convId⟩) :
    (protocol requests).wp i (Request.prog ⟨owner, .block convId⟩)
      (fun x b => x = .error .notFound ∨ Participates convId owner b.tables) a := by
  refine wp_onConversation (g := fun _ => .blocked) ?_
  intro c side b hid hload
  refine mark_spec hid ?_ (fun _ _ => rfl) (.inl ⟨?_, fun _ => ⟨rfl, rfl⟩⟩) ?_
  · rw [hr]
    exact hload
  · rw [hr]
    rfl
  · rintro t ⟨c', hc', hid', hblocked⟩
    rw [hr]
    exact ⟨c', hc', hid', hblocked fun _ => rfl⟩

theorem clear_spec {convId : String} (hr : requests i = ⟨owner, .clear convId⟩) :
    (protocol requests).wp i (Request.prog ⟨owner, .clear convId⟩)
      (fun x b => x = .error .notFound ∨ Participates convId owner b.tables) a := by
  refine wp_onConversation (g := fun _ => .cleared) ?_
  intro c side b hid hload
  refine wp_nowIso fun now b' hb => mark_spec hid ?_ (fun _ h => h) (.inr ⟨?_, now, fun _ => rfl⟩) fun t _ => ?_
  · rw [hr]
    exact hload.onward hb
  · rw [hr]
    rfl
  · rw [hr]
    trivial

theorem hideConversation_spec {convId : String} (hr : requests i = ⟨owner, .hideConversation convId⟩) :
    (protocol requests).wp i (Request.prog ⟨owner, .hideConversation convId⟩)
      (fun x b => x = .error .notFound ∨ Participates convId owner b.tables) a := by
  refine wp_onConversation (g := fun _ => .deleted) ?_
  intro c side b hid hload
  refine wp_nowIso fun now b' hb => mark_spec hid ?_ (fun _ h => h) (.inr ⟨?_, now, fun _ => rfl⟩) fun t _ => ?_
  · rw [hr]
    exact hload.onward hb
  · rw [hr]
    rfl
  · rw [hr]
    trivial

theorem startReply_spec {letterId : String} {text : Text} {drawn : Drawn} (hr : requests i = ⟨owner, .startReply letterId text drawn⟩) :
    (protocol requests).wp i (startReply letterId text drawn owner) (fun _ _ => True) a := by
  have hclears : (requests i).clears = none := by
    rw [hr]
    rfl
  have hlast : ∀ t, Lasting (requests i) t := by
    rw [hr]
    exact fun _ => trivial
  unfold startReply getLetter
  refine wp_seq (P := fun _ _ => True) (E := fun _ => True) ?_ (fun letter b _ => ?_) fun _ _ _ => trivial
  · refine wp_readThen rfl fun b _ => ?_
    cases (Stmt.exec i b (.getLetter letterId)).1 <;> trivial
  split
  next => trivial
  refine wp_nowIso fun now b _ => ?_
  split
  next => trivial
  split
  next => trivial
  refine wp_readThen rfl fun b _ => ?_
  split
  next =>
    refine wp_nowIso fun _ b _ => wp_nowIso fun _ b _ => wp_nowIso fun now b _ => wp_committed fun s _ _ t hflush => ?_
    exact does_create hclears hlast rfl (fun side => by cases side <;> rfl) hflush
  next c hc =>
    have hfound : b.tables.conversations.find? (fun c => c.letterId = letterId ∧ c.replierId = owner) = some c := hc
    have hmem : c ∈ b.tables.conversations := List.mem_of_find?_eq_some hfound
    have hkeys : c.letterId = letterId ∧ c.replierId = owner := by simpa using List.find?_some hfound
    have hpart : participant c (requests i).owner ≠ none := by
      rw [hr]
      unfold participant
      split_ifs
      · exact Option.some_ne_none _
      · exact Option.some_ne_none _
      · exact absurd hkeys.2 ‹_›
    split
    next => trivial
    next hopen =>
      refine wp_nowIso fun now b' hb => wp_committed fun s hs htime t hflush => ?_
      obtain ⟨row, hrow, hon⟩ := (hb.trans hs).conversations c hmem
      exact does_message hclears hlast rfl hpart (by simpa using hopen) hrow hon htime hflush

/-! ## The list -/

/-- an item of an answer: its row is read first, in `s₁`, then its messages, in `s₂` -/
def Listed (owner : String) (s t : Tables) (it : Item) : Prop :=
  ∃ s₁ s₂ c side letter, s.Onward s₁ ∧ s₁.Onward s₂ ∧ s₂.Onward t ∧ c ∈ s₁.conversations ∧ participant c owner = some side ∧
    it = item owner side c letter (s₂.listMessages c.id (c.on side).clearedAt).reverse

theorem Listed.onward {it : Item} (h : Listed owner s t it) (ho : t.Onward u) : Listed owner s u it := by
  obtain ⟨s₁, s₂, c, side, letter, h₁, h₂, h₃, h⟩ := h
  exact ⟨s₁, s₂, c, side, letter, h₁, h₂, h₃.trans ho, h⟩

/-- by induction on the rows that are left -/
theorem items_spec {s₁ : Tables} (h₁ : s.Onward s₁) (rows : List Conversation) (hrows : ∀ c ∈ rows, c ∈ s₁.conversations)
    (ha : s₁.Onward a.tables) : (protocol requests).wp i (items owner rows)
      (Ends (fun its t => ∀ it ∈ its, Listed owner s t it) fun _ => True) a := by
  induction rows generalizing a with
  | nil => exact fun it hit => (List.not_mem_nil hit).elim
  | cons c rest ih =>
    refine wp_orNotFound (fun side hside => wp_readThen rfl fun b hb => wp_readThen rfl fun b' hb' => ?_) trivial
    have hb'' : s₁.Onward b'.tables := (ha.trans hb).trans hb'
    have hhead : Listed owner s b'.tables (item owner side c (Stmt.exec i b' (.getLetter c.letterId)).1
        (Stmt.exec i b (.listMessages c.id (c.on side).clearedAt)).1.reverse) :=
      ⟨s₁, b.tables, c, side, _, h₁, ha.trans hb, hb', hrows c List.mem_cons_self, hside, rfl⟩
    have hframe := wp_frame (protocol requests) i (Φ := fun b => Listed owner s b.tables _)
      (fun _ _ hr h => h.onward hr) (fun _ _ ha h => h.onward ha.1)
      (ih (fun c hc => hrows c (List.mem_cons_of_mem _ hc)) hb'') hhead
    rw [wp_bind]
    refine wp_mono _ _ hframe ?_
    intro x t hx
    cases x with
    | error e => trivial
    | ok others =>
      intro it hit
      rcases List.mem_cons.1 hit with rfl | hit
      · exact hx.2
      · exact hx.1 it hit

theorem mem_sortDesc {β : Type} {key : β → ℤ} {l : List β} {x : β} : x ∈ sortDesc key l ↔ x ∈ l :=
  List.mem_insertionSort _

theorem mem_of_listConversations {page : ℕ} (h : c ∈ t.listConversations owner page) : c ∈ t.conversations :=
  (List.mem_filter.1 (mem_sortDesc.1 (Paging.mem_of_mem_slice h))).1

theorem mem_of_listMessages {convId : String} {cutoff : Option ℤ} (h : m ∈ t.listMessages convId cutoff) :
    m ∈ t.messages ∧ m.conversationId = convId ∧ afterCutoff cutoff m = true := by
  have hmem := List.mem_filter.1 (mem_sortDesc.1 (List.mem_of_mem_take h))
  rw [Bool.and_eq_true, decide_eq_true_eq] at hmem
  exact hmem

theorem conversations_spec {page : ℕ} (hs : s = a.tables) : (protocol requests).wp i (conversations page owner)
    (Ends (fun its t => ∀ it ∈ its, Listed owner s t it) fun _ => True) a := by
  subst hs
  refine wp_readThen rfl fun b hb => ?_
  exact items_spec hb _ (fun c hc => mem_of_listConversations hc) (.refl _)

theorem list_spec {page : ℕ} (hs : s = a.tables) : (protocol requests).wp i (Request.prog ⟨owner, .conversations page⟩)
    (fun x b => ∀ its, x = .ok (.conversations its) → ∀ it ∈ its, Listed owner s b.tables it) a := by
  refine wp_seq (conversations_spec hs) (fun its b h => ?_) fun e b _ its hx => (nomatch hx)
  intro its' hx
  cases hx
  exact h

/-! ## What an item shows -/

/-- nobody reads a conversation of others -/
theorem Listed.own {it : Item} (h : Listed owner s t it) : Participates it.id owner t ∧
    ∀ v ∈ it.messages, ∃ m ∈ t.messages, m.id = v.id ∧ m.conversationId = it.id := by
  obtain ⟨s₁, s₂, c, side, letter, -, h₂, h₃, hc, hside, rfl⟩ := h
  have hload : Loaded c side owner s₁ := ⟨hside, c, hc, .refl c⟩
  refine ⟨((hload.onward h₂).onward h₃).participates, fun v hv => ?_⟩
  obtain ⟨m, hm, rfl⟩ := List.mem_map.1 hv
  obtain ⟨hmem, hconv, -⟩ := mem_of_listMessages (List.mem_reverse.1 hm)
  obtain ⟨m', hm', hon⟩ := h₃.messages m hmem
  exact ⟨m', hm', hon.id, hon.conversationId.trans hconv⟩

/-- a recalled message comes without its text -/
theorem Listed.recalled {it : Item} (h : Listed owner s t it) (hm : m ∈ s.messages) (hr : m.recalled = true) :
    ∀ v ∈ it.messages, v.id = m.id → v.text = recalledText := by
  obtain ⟨s₁, s₂, c, side, letter, h₁, h₂, -, -, -, rfl⟩ := h
  intro v hv hid
  obtain ⟨m', hm', rfl⟩ := List.mem_map.1 hv
  obtain ⟨hmem, -, -⟩ := mem_of_listMessages (List.mem_reverse.1 hm')
  obtain ⟨m'', hm'', hon⟩ := (h₁.trans h₂).messages m hm
  obtain rfl := message_unique hmem hm'' (hid.trans hon.id.symm)
  exact if_pos (hon.recalled hr)

/-- a message that a cutoff covers is not shown -/
theorem Listed.cleared {it : Item} {cut : ℤ} (h : Listed owner s t it) (hm : m ∈ s.messages) (hc : c ∈ s.conversations)
    (hpart : participant c owner = some side) (hcut : (c.on side).clearedAt = some cut) (hle : m.createdAt ≤ cut) (hid : it.id = c.id) :
    ∀ v ∈ it.messages, v.id ≠ m.id := by
  obtain ⟨s₁, s₂, row, side', letter, h₁, h₂, -, hrow, hside', rfl⟩ := h
  intro v hv heq
  obtain ⟨m', hm', rfl⟩ := List.mem_map.1 hv
  obtain ⟨hmem, -, hafter⟩ := mem_of_listMessages (List.mem_reverse.1 hm')
  obtain ⟨m'', hm'', hon⟩ := (h₁.trans h₂).messages m hm
  obtain rfl := message_unique hmem hm'' (heq.trans hon.id.symm)
  obtain ⟨row', hrow', hon'⟩ := h₁.conversations c hc
  obtain rfl := conversation_unique hrow hrow' (hid.trans hon'.id.symm)
  obtain rfl : side = side' := Option.some.inj (hpart.symm.trans ((participant_congr hon').symm.trans hside'))
  obtain ⟨cut', hcut', hle'⟩ := hon'.cutoff side cut hcut
  simp only [afterCutoff, hcut', decide_eq_true_eq] at hafter
  have hcreated := hon.createdAt
  omega

/-- a row that is not among the first has so many before it -/
theorem mem_take_or {β : Type} [DecidableEq β] (key : β → ℤ) {l : List β} {x : β} (h : x ∈ l) (n : ℕ) :
    x ∈ (sortDesc key l).take n ∨ n ≤ (l.filter fun y => decide (key x ≤ key y ∧ y ≠ x)).length := by
  by_cases htake : x ∈ (sortDesc key l).take n
  · exact .inl htake
  right
  have : Std.Total fun a b : β => key b ≤ key a := ⟨fun a b => le_total (key b) (key a)⟩
  have : IsTrans β fun a b => key b ≤ key a := ⟨fun a b c hab hbc => hbc.trans hab⟩
  have hsorted : (sortDesc key l).Pairwise fun a b => key b ≤ key a := List.pairwise_insertionSort _ l
  have hdrop : x ∈ (sortDesc key l).drop n := by
    have hmem : x ∈ sortDesc key l := mem_sortDesc.2 h
    rw [← List.take_append_drop n (sortDesc key l), List.mem_append] at hmem
    exact hmem.resolve_left htake
  have hlength : n ≤ (sortDesc key l).length := by
    have hpos := List.length_pos_of_mem hdrop
    rw [List.length_drop] at hpos
    omega
  rw [← List.take_append_drop n (sortDesc key l), List.pairwise_append] at hsorted
  have hall : ∀ y ∈ (sortDesc key l).take n, decide (key x ≤ key y ∧ y ≠ x) = true := by
    intro y hy
    refine decide_eq_true ⟨hsorted.2.2 y hy x hdrop, ?_⟩
    rintro rfl
    exact htake hy
  calc n = ((sortDesc key l).take n).length := by rw [List.length_take, Nat.min_eq_left hlength]
    _ = (((sortDesc key l).take n).filter fun y => decide (key x ≤ key y ∧ y ≠ x)).length := by rw [List.filter_eq_self.2 hall]
    _ ≤ ((sortDesc key l).filter fun y => decide (key x ≤ key y ∧ y ≠ x)).length :=
      ((List.take_sublist n _).filter _).length_le
    _ = (l.filter fun y => decide (key x ≤ key y ∧ y ≠ x)).length :=
      ((List.perm_insertionSort (fun a b => key b ≤ key a) l).filter _).length_eq

/-- the rows of a page, alone -/
theorem items_alone (rows : List Conversation) (h : ∀ c ∈ rows, participant c owner ≠ none) :
    ∃ its, (items owner rows).alone i a = some (.ok its, a) ∧ ∀ c ∈ rows, ∃ side letter, participant c owner = some side ∧
      item owner side c letter (a.tables.listMessages c.id (c.on side).clearedAt).reverse ∈ its := by
  induction rows with
  | nil => exact ⟨[], rfl, fun c hc => (List.not_mem_nil hc).elim⟩
  | cons c rest ih =>
    obtain ⟨its, halone, hits⟩ := ih fun c hc => h c (List.mem_cons_of_mem _ hc)
    obtain ⟨side, hside⟩ := Option.ne_none_iff_exists'.1 (h c List.mem_cons_self)
    refine ⟨item owner side c (Stmt.exec i a (.getLetter c.letterId)).1
      (a.tables.listMessages c.id (c.on side).clearedAt).reverse :: its, ?_, fun c' hc' => ?_⟩
    · unfold items
      rw [hside]
      exact Prog.alone_ok halone
    · rcases List.mem_cons.1 hc' with rfl | hc'
      · exact ⟨side, _, hside, List.mem_cons_self⟩
      · obtain ⟨side', letter, hside', hmem⟩ := hits c' hc'
        exact ⟨side', letter, hside', List.mem_cons_of_mem _ hmem⟩

/-- the owner finds the message in the list, unless there are `messageLimit` others that are not earlier -/
def Appears (owner : String) (a : Store) (m : Message) : Prop :=
  ∃ page its, (conversations page owner).alone 0 a = some (.ok its, a) ∧ ∃ it ∈ its, it.id = m.conversationId ∧
    ((∃ v ∈ it.messages, v.id = m.id) ∨ messageLimit ≤ (a.tables.messages.filter fun m' =>
      decide (m'.conversationId = m.conversationId ∧ m.createdAt ≤ m'.createdAt ∧ m' ≠ m)).length)

theorem appears_of (hc : c ∈ a.tables.conversations) (hid : c.id = m.conversationId) (hm : m ∈ a.tables.messages)
    (hpart : participant c owner = some side) (hshown : (c.on side).hidden = false)
    (hlate : ∀ cut ∈ (c.on side).clearedAt, cut < m.createdAt) : Appears owner a m := by
  have hlisted : listedFor owner c = true := by
    unfold participant at hpart
    split_ifs at hpart with hauthor hreplier
    · obtain rfl := Option.some.inj hpart
      simp only [Conversation.on] at hshown
      simp [listedFor, hauthor, hshown]
    · obtain rfl := Option.some.inj hpart
      simp only [Conversation.on] at hshown
      simp [listedFor, hreplier, hshown]
  have hmem : c ∈ sortDesc Conversation.updatedAt (a.tables.conversations.filter (listedFor owner)) :=
    mem_sortDesc.2 (List.mem_filter.2 ⟨hc, hlisted⟩)
  obtain ⟨page, -, -, hpage⟩ := Paging.exists_slice (by decide : 0 < pageSize) hmem
  have hall : ∀ c' ∈ a.tables.listConversations owner page, participant c' owner ≠ none := by
    intro c' hc' hnone
    have hl := (List.mem_filter.1 (mem_sortDesc.1 (Paging.mem_of_mem_slice hc'))).2
    unfold participant at hnone
    split_ifs at hnone with ha hr
    simp [listedFor, ha, hr] at hl
  obtain ⟨its, halone, hits⟩ := items_alone (i := 0) (a := a) _ hall
  obtain ⟨side', letter, hside', hitem⟩ := hits c hpage
  obtain rfl : side = side' := Option.some.inj (hpart.symm.trans hside')
  refine ⟨page, its, halone, _, hitem, hid, ?_⟩
  have hafter : afterCutoff (c.on side).clearedAt m = true := by
    unfold afterCutoff
    split
    · rfl
    next cut hcut => exact decide_eq_true (hlate cut hcut)
  have hfilter : m ∈ a.tables.messages.filter fun m => decide (m.conversationId = c.id) && afterCutoff (c.on side).clearedAt m := by
    rw [List.mem_filter, hafter, Bool.and_true, decide_eq_true_eq]
    exact ⟨hm, hid.symm⟩
  rcases mem_take_or Message.createdAt hfilter messageLimit with htake | hmany
  · exact .inl ⟨_, List.mem_map_of_mem (List.mem_reverse.2 htake), rfl⟩
  · right
    refine hmany.trans ?_
    rw [List.filter_filter]
    refine (List.monotone_filter_right _ ?_).length_le
    intro m' hm'
    simp only [Bool.and_eq_true, decide_eq_true_eq] at hm' ⊢
    exact ⟨hm'.2.1.trans hid, hm'.1.1, hm'.1.2⟩

/-! ## Runs -/

theorem target_spec {convId : String} (h : (requests i).target = some convId) : (protocol requests).wp i (requests i).prog
    (fun x b => x = .error .notFound ∨ Participates convId (requests i).owner b.tables) a := by
  rcases hr : requests i with ⟨owner, action⟩
  rw [hr] at h
  cases action with
  | conversations page => cases h
  | startReply letterId text drawn => cases h
  | sendMessage _ text drawn =>
    cases h
    exact sendMessage_spec hr
  | «recall» _ messageId =>
    cases h
    exact recall_spec hr
  | block =>
    cases h
    exact block_spec hr
  | clear =>
    cases h
    exact clear_spec hr
  | hideConversation =>
    cases h
    exact hideConversation_spec hr

theorem prog_spec (requests : ℕ → Request) (i : ℕ) (a : Store) : (protocol requests).wp i (requests i).prog (fun _ _ => True) a := by
  cases htarget : (requests i).target with
  | some convId => exact wp_mono _ _ (target_spec htarget) fun _ _ _ => trivial
  | none =>
    rcases hr : requests i with ⟨owner, action⟩
    rw [hr] at htarget
    cases action with
    | conversations page => exact wp_mono _ _ (list_spec rfl) fun _ _ _ => trivial
    | startReply letterId text drawn =>
      refine wp_seq (P := fun _ _ => True) (E := fun _ => True) (wp_mono _ _ (startReply_spec hr) ?_) (fun _ _ _ => trivial)
        fun _ _ _ => trivial
      intro x b _
      cases x <;> trivial
    | sendMessage => cases htarget
    | «recall» => cases htarget
    | block => cases htarget
    | clear => cases htarget
    | hideConversation => cases htarget

/-- what the next statement of the session that moves commits -/
def pending (w : Run) : Move → Option Work
  | .run i =>
    match w.prog i with
    | some (.op c _) => c.work
    | _ => none
  | .crash _ => none

/-- every commit is in time -/
def careful (requests : ℕ → Request) (w : Run) (m : Move) : Prop :=
  ∀ work ∈ pending w m, inTime (requests (who m)) w.st.tables work

instance (requests : ℕ → Request) (w : Run) (m : Move) : Decidable (careful requests w m) := by
  unfold careful
  infer_instance

variable {d : Tables} {clock : ℕ → ℤ} {pre post ms : List Move} {mv : Move}

theorem safe_init (d : Tables) (clock : ℕ → ℤ) (requests : ℕ → Request) : (protocol requests).Safe (init d clock requests) :=
  safe_start _ (fun _ h => (List.not_mem_nil h).elim) fun i => prog_spec requests i _

theorem legal_of_careful {w : Run} (h : Along (careful requests) w ms) : (protocol requests).Legal w ms := by
  refine h.mono ?_
  intro w m hm
  refine stepOk_of _ (fun _ _ => trivial) ?_
  rintro β i c k rfl hp
  simp only [careful, pending, hp] at hm
  exact hm

/-- a run, and the conditions on it -/
structure Runs (requests : ℕ → Request) (w : Run) (ms : List Move) : Prop where
  safe : (protocol requests).Safe w
  legal : (protocol requests).Legal w ms

theorem Runs.later {w : Run} (h : Runs requests w (pre ++ post)) : Runs requests (run w pre) post :=
  have hl := (along_append pre post).1 h.legal
  ⟨run_safe _ h.safe hl.1, hl.2⟩

theorem Runs.before {w : Run} (h : Runs requests w (pre ++ post)) : Runs requests w pre :=
  ⟨h.safe, ((along_append pre post).1 h.legal).1⟩

theorem Runs.rest {w : Run} (h : Runs requests w (mv :: ms)) : Runs requests (step w mv) ms :=
  ⟨step_safe _ h.safe h.legal.1, h.legal.2⟩

theorem Runs.onward {w : Run} (h : Runs requests w ms) : w.st.tables.Onward (run w ms).st.tables :=
  run_induct _ (Φ := fun b => w.st.tables.Onward b.tables) h.safe h.legal (fun _ _ _ _ _ ha h => h.trans ha.1) (.refl _)

/-- one move: nothing, or the commit of its request -/
theorem Runs.move {w : Run} (h : Runs requests w (mv :: ms)) :
    ((step w mv).st.tables = w.st.tables ∧ (step w mv).st.log = w.st.log) ∨
      ((step w mv).st.log = w.st.log ++ [who mv] ∧ Does (requests (who mv)) w.st.tables (step w mv).st.tables) := by
  rcases step_act _ h.safe h.legal.1 with he | ha
  · rw [he]
    exact .inl ⟨rfl, rfl⟩
  · exact ha.2

/-- a list that is asked for after `pre` -/
theorem Runs.listed {w : Run} {page : ℕ} {its : List Item} (h : Runs requests w (pre ++ post)) (hw : w.prog j = some (requests j).prog)
    (hj : ∀ m ∈ pre, who m ≠ j) (hr : requests j = ⟨owner, .conversations page⟩)
    (ha : (run w (pre ++ post)).answer j = some (.ok (.conversations its))) :
    ∀ it ∈ its, Listed owner (run w pre).st.tables (run w (pre ++ post)).st.tables it := by
  obtain ⟨hprog, -⟩ := run_others _ h.safe h.before.legal hj
  rw [hw, hr] at hprog
  have hspec : (protocol requests).wp j (Request.prog ⟨owner, .conversations page⟩) (fun x b => ∀ its, x = .ok (.conversations its) →
      ∀ it ∈ its, Listed owner (run w pre).st.tables b.tables it) (run w pre).st := list_spec rfl
  rw [run_append] at ha ⊢
  exact run_result _ j (fun x s t hx hrely its hok it hit => (hx its hok it hit).onward hrely) h.later.safe h.later.legal hprog
    hspec ha its rfl

/-- the log only grows; by induction on the moves -/
theorem Runs.log {w : Run} (h : Runs requests w ms) : ∃ l, (run w ms).st.log = w.st.log ++ l := by
  induction ms generalizing w with
  | nil => exact ⟨[], (List.append_nil _).symm⟩
  | cons mv ms ih =>
    obtain ⟨l, hl⟩ := ih h.rest
    have hl' : (run w (mv :: ms)).st.log = (step w mv).st.log ++ l := hl
    rcases h.move with ⟨-, hlog⟩ | ⟨hlog, -⟩
    · exact ⟨l, by rw [hl', hlog]⟩
    · exact ⟨who mv :: l, by rw [hl', hlog, List.append_assoc, List.singleton_append]⟩

/-- while its owner clears nothing, a side stays as it is, but for its being shown again -/
theorem Runs.kept {w : Run} (h : Runs requests w ms) (hc : c ∈ w.st.tables.conversations) (hpart : participant c owner = some side)
    (hno : ∀ i ∈ (run w ms).st.log.drop w.st.log.length, ¬ ((requests i).clears = some c.id ∧ (requests i).owner = owner)) :
    ∃ c' ∈ (run w ms).st.tables.conversations, c.Onward c' ∧ ((c'.on side).hidden = true → (c.on side).hidden = true) ∧
      (c'.on side).clearedAt = (c.on side).clearedAt := by
  induction ms generalizing w c with
  | nil => exact ⟨c, hc, .refl c, fun h => h, rfl⟩
  | cons mv ms ih =>
    have hlater : Runs requests (step w mv) ms := h.rest
    obtain ⟨l, hl⟩ := hlater.log
    have hl' : (run w (mv :: ms)).st.log = (step w mv).st.log ++ l := hl
    rcases h.move with ⟨htab, hlog⟩ | ⟨hlog, hdoes⟩
    · refine ih hlater (htab ▸ hc) hpart ?_
      rw [hlog]
      exact hno
    · rw [hl', hlog, List.append_assoc, List.drop_left] at hno
      obtain ⟨c₁, hc₁, hon₁⟩ := hdoes.onward.conversations c hc
      obtain ⟨hhidden, hcut⟩ := hdoes.keeps c hc c₁ hc₁ hon₁.id side fun hclear =>
        hno (who mv) List.mem_cons_self ⟨hclear.1, participant_inj hclear.2 hpart⟩
      have hrest : ∀ i ∈ (run (step w mv) ms).st.log.drop (step w mv).st.log.length,
          ¬ ((requests i).clears = some c₁.id ∧ (requests i).owner = owner) := by
        rw [hl, List.drop_left, hon₁.id]
        exact fun i hi => hno i (List.mem_cons_of_mem _ hi)
      obtain ⟨c₂, hc₂, hon₂, hhidden₂, hcut₂⟩ := ih hlater hc₁ ((participant_congr hon₁).trans hpart) hrest
      exact ⟨c₂, hc₂, hon₁.trans hon₂, fun h => hhidden (hhidden₂ h), hcut₂.trans hcut⟩

/-- a move of a run, and the run after it -/
theorem Runs.split {w : Run} (h : Runs requests w (pre ++ mv :: post)) :
    Runs requests (run w pre) (mv :: post) ∧ Runs requests (run w (pre ++ [mv])) post ∧
      run w (pre ++ mv :: post) = run (run w (pre ++ [mv])) post := by
  have he : pre ++ mv :: post = (pre ++ [mv]) ++ post := by rw [List.append_assoc, List.singleton_append]
  refine ⟨h.later, (he ▸ h).later, ?_⟩
  rw [he, run_append]

/-! ## Both sides -/

/-- the law, of a whole run -/
structure Respected (requests : ℕ → Request) (w : Run) (ms : List Move) : Prop where
  /-- after a block no message is committed -/
  blocked : ∀ pre post, ms = pre ++ post → ∀ i ∈ (run w pre).st.log, ∀ owner convId, requests i = ⟨owner, .block convId⟩ →
    ∀ m ∈ (run w ms).st.tables.messages, m.conversationId = convId → ∃ m' ∈ (run w pre).st.tables.messages, m'.id = m.id
  /-- a message that is committed is in the list of both sides, until they clear it -/
  shown : ∀ pre mv post, ms = pre ++ mv :: post → ∀ m ∈ (run w (pre ++ [mv])).st.tables.messages,
    (∀ m' ∈ (run w pre).st.tables.messages, m'.id ≠ m.id) → ∃ c ∈ (run w ms).st.tables.conversations, c.id = m.conversationId ∧
      ∀ owner, participant c owner ≠ none →
        (∀ i ∈ (run w ms).st.log.drop (run w (pre ++ [mv])).st.log.length,
          ¬ ((requests i).clears = some c.id ∧ (requests i).owner = owner)) →
        ∃ m' ∈ (run w ms).st.tables.messages, m.Onward m' ∧ Appears owner (run w ms).st m'
  /-- what was there at the commit of a clear is not shown to its owner again -/
  cleared : ∀ pre mv post, ms = pre ++ mv :: post → (run w (pre ++ [mv])).st.log = (run w pre).st.log ++ [who mv] →
    ∀ convId ∈ (requests (who mv)).clears, ∀ m ∈ (run w pre).st.tables.messages, m.conversationId = convId →
      ∀ j page its, requests j = ⟨(requests (who mv)).owner, .conversations page⟩ → (∀ m ∈ pre ++ [mv], who m ≠ j) →
        (run w ms).answer j = some (.ok (.conversations its)) → ∀ it ∈ its, ∀ v ∈ it.messages, v.id ≠ m.id
  /-- nor is the text of a recalled message shown to anybody -/
  recalled : ∀ pre post, ms = pre ++ post → ∀ i ∈ (run w pre).st.log, ∀ owner convId messageId,
    requests i = ⟨owner, .recall convId messageId⟩ → ∀ j owner' page its, requests j = ⟨owner', .conversations page⟩ →
      (∀ m ∈ pre, who m ≠ j) → (run w ms).answer j = some (.ok (.conversations its)) →
      ∀ it ∈ its, ∀ v ∈ it.messages, v.id = messageId → v.text = recalledText
  /-- the others do not write a conversation -/
  writes : ∀ pre mv post, ms = pre ++ mv :: post → ∀ c ∈ (run w pre).st.tables.conversations,
    participant c (requests (who mv)).owner = none → c ∈ (run w (pre ++ [mv])).st.tables.conversations ∧
      ∀ m, m.conversationId = c.id → (m ∈ (run w (pre ++ [mv])).st.tables.messages ↔ m ∈ (run w pre).st.tables.messages)
  /-- nor is it in their lists -/
  reads : ∀ j owner page its, requests j = ⟨owner, .conversations page⟩ → (run w ms).answer j = some (.ok (.conversations its)) →
    ∀ it ∈ its, Participates it.id owner (run w ms).st.tables ∧
      ∀ v ∈ it.messages, ∃ m ∈ (run w ms).st.tables.messages, m.id = v.id ∧ m.conversationId = it.id
  /-- and all that they are told is that it is not found -/
  denied : ∀ j x, (run w ms).answer j = some x → ∀ c ∈ (run w ms).st.tables.conversations,
    (requests j).target = some c.id → participant c (requests j).owner = none → x = .error .notFound

theorem Runs.shown {w : Run} (h : Runs requests w (pre ++ mv :: post)) (hm : m ∈ (run w (pre ++ [mv])).st.tables.messages)
    (hnew : ∀ m' ∈ (run w pre).st.tables.messages, m'.id ≠ m.id) :
    ∃ c ∈ (run w (pre ++ mv :: post)).st.tables.conversations, c.id = m.conversationId ∧ ∀ owner, participant c owner ≠ none →
      (∀ i ∈ (run w (pre ++ mv :: post)).st.log.drop (run w (pre ++ [mv])).st.log.length,
        ¬ ((requests i).clears = some c.id ∧ (requests i).owner = owner)) →
      ∃ m' ∈ (run w (pre ++ mv :: post)).st.tables.messages, m.Onward m' ∧ Appears owner (run w (pre ++ mv :: post)).st m' := by
  obtain ⟨hmove, hpost, hend⟩ := h.split
  have hdoes : Does (requests (who mv)) (run w pre).st.tables (run w (pre ++ [mv])).st.tables := by
    rw [run_snoc] at hm ⊢
    rcases hmove.move with ⟨htab, -⟩ | ⟨-, hdoes⟩
    · rw [htab] at hm
      exact absurd rfl (hnew m hm)
    · exact hdoes
  obtain ⟨c, hc, hid, hshows⟩ := hdoes.shows m hm hnew
  obtain ⟨m', hm', hon⟩ := hpost.onward.messages m hm
  obtain ⟨c', hc', hon'⟩ := hpost.onward.conversations c hc
  rw [hend]
  refine ⟨c', hc', hon'.id.trans hid, fun owner howner hno => ⟨m', hm', hon, ?_⟩⟩
  obtain ⟨side, hside⟩ := Option.ne_none_iff_exists'.1 howner
  have hside' : participant c owner = some side := (participant_congr hon').symm.trans hside
  rw [hon'.id] at hno
  obtain ⟨c'', hc'', hon'', hhidden, hcut⟩ := hpost.kept hc hside' hno
  obtain rfl := conversation_unique hc' hc'' (hon'.id.trans hon''.id.symm)
  obtain ⟨hopen, hlate⟩ := hshows side
  refine appears_of hc' (hon'.id.trans (hid.trans hon.conversationId.symm)) hm' hside ?_ ?_
  · by_contra hne
    have hclosed := hhidden (by simpa using hne)
    rw [hopen] at hclosed
    cases hclosed
  · rw [hcut, hon.createdAt]
    exact hlate

theorem Runs.cleared {w : Run} {convId : String} {page : ℕ} {its : List Item} (h : Runs requests w (pre ++ mv :: post))
    (hlog : (run w (pre ++ [mv])).st.log = (run w pre).st.log ++ [who mv]) (hclears : (requests (who mv)).clears = some convId)
    (hm : m ∈ (run w pre).st.tables.messages) (hconv : m.conversationId = convId)
    (hr : requests j = ⟨(requests (who mv)).owner, .conversations page⟩) (hw : w.prog j = some (requests j).prog)
    (hj : ∀ m ∈ pre ++ [mv], who m ≠ j) (hans : (run w (pre ++ mv :: post)).answer j = some (.ok (.conversations its))) :
    ∀ it ∈ its, ∀ v ∈ it.messages, v.id ≠ m.id := by
  obtain ⟨hmove, hpost, hend⟩ := h.split
  have he : pre ++ mv :: post = (pre ++ [mv]) ++ post := by rw [List.append_assoc, List.singleton_append]
  have hdoes : Does (requests (who mv)) (run w pre).st.tables (run w (pre ++ [mv])).st.tables := by
    rw [run_snoc] at hlog ⊢
    rcases hmove.move with ⟨-, hsame⟩ | ⟨-, hdoes⟩
    · rw [hsame] at hlog
      exact absurd hlog (by simp)
    · exact hdoes
  obtain ⟨c, hc, hcid, side, hside, cut, hcut, hall⟩ := hdoes.covers convId hclears
  obtain ⟨m', hm', hon⟩ := hdoes.onward.messages m hm
  have hle : m'.createdAt ≤ cut := hon.createdAt ▸ hall m hm hconv
  intro it hit v hv hid
  rw [he] at h hans
  have hlisted := h.listed hw hj hr hans it hit
  by_cases hitem : it.id = c.id
  · exact hlisted.cleared hm' hc hside hcut hle hitem v hv (hid.trans hon.id.symm)
  · obtain ⟨m₁, hm₁, hid₁, hconv₁⟩ := hlisted.own.2 v hv
    rw [run_append] at hm₁
    obtain ⟨m₂, hm₂, hon₂⟩ := hpost.onward.messages m' hm'
    obtain rfl := message_unique hm₁ hm₂ (hid₁.trans (hid.trans (hon₂.id.trans hon.id).symm))
    refine hitem ?_
    rw [← hconv₁, hon₂.conversationId, hon.conversationId, hconv, hcid]

/-- the author's conversation with a visitor -/
def visited : Tables where
  letters := [{ id := "l", ownerId := "a", privacy := "public", codename := "x" }]
  conversations := [{ id := "c", letterId := "l", authorId := "a", replierId := "b", replierCodename := "y", updatedAt := 0 }]
  messages := []
  conversationIds := by decide
  pairs := by decide
  messageIds := by decide

def said (messageId : String) : Action := .sendMessage "c" ['h', 'i'] ⟨"", "", messageId⟩

/-- a message, the author's clear, another message, the author's block, and what the author sees -/
def inTurn : ℕ → Request
  | 0 => ⟨"b", said "m₀"⟩
  | 1 => ⟨"a", .clear "c"⟩
  | 2 => ⟨"b", said "m₁"⟩
  | 3 => ⟨"a", .block "c"⟩
  | _ => ⟨"a", .conversations 1⟩

def turns : List Move := moves 0 3 ++ moves 1 3 ++ moves 2 3 ++ moves 3 2 ++ moves 4 3

/-- a message, and the author's block of the visitor -/
def spoken : ℕ → Request
  | 0 => ⟨"b", said "m₀"⟩
  | _ => ⟨"a", .block "c"⟩

/-- the message has read the conversation, the block commits, then the message does -/
def overlap : List Move := moves 0 2 ++ moves 1 2 ++ moves 0 1

end LkmService.Treehole
