/-
The payloads of the four entities and the columns that hold them (`starhope/schemas.py`, `starhope/models.py`,
`_dump_scalars` and `pull_entity` of `starhope/service.py`).

- `Payload F e`: the fields of the input schema, but for the id and `updated_at`, which every entity has. `modelDump` makes
  a Python object of each field, `dumpScalars` the value of its column.
- `validate e`: what the output schema makes of a row, `none` for a `ValidationError`; `parseList`, `parseDict` and
  `parseAnswer` are its validators.
- `validate_columns`: the output schema makes of the columns of a payload that payload again, its times in UTC.
- `JsonMode`: which floats `model_dump(mode="json")` leaves as they are; the others become `None`. `same_dump_iff`: so a
  field comes back as it was if these are all its floats.

The columns that go through `_parse_json_text` are texts. The time within a payload is the `datetime` that was parsed.
-/
import LkmService.Lib.Json
import LkmService.Starhope.Model

namespace LkmService.Starhope

open Json

/-! ## Payloads -/

inductive Entity where
  | questions
  | folders
  | sessions
  | agents
deriving DecidableEq, Repr

/-- `str | list[str]` -/
inductive StrOrList where
  | str (s : Text)
  | list (l : List Text)
deriving DecidableEq, Repr

structure QuestionIn where
  type : Text
  content : Text
  options : Option (List Text)
  answer : StrOrList
  analysis : Option Text
  tags : List Text
  folderId : Option Text
  difficulty : ℤ
deriving DecidableEq, Repr

structure FolderIn where
  name : Text
  parentId : Option Text
  sort : ℤ
deriving DecidableEq, Repr

structure SessionIn (F : Type) where
  type : Text
  mode : Text
  questionIds : List Text
  answers : List (Text × StrOrList)
  results : Option (List (Text × List (Text × Value F)))
  status : Text
  startedAt : Moment
  completedAt : Option Moment
  timeLimit : Option ℤ
  passingGrade : Option ℤ

structure AgentIn (F : Type) where
  name : Text
  avatar : Option Text
  systemPrompt : Text
  service : Text
  model : Text
  temperature : Number F
  topP : Number F
  maxTokens : ℤ

def Payload (F : Type) : Entity → Type
  | .questions => QuestionIn
  | .folders => FolderIn
  | .sessions => SessionIn F
  | .agents => AgentIn F

/-! ## Columns -/

inductive QuestionField where
  | type
  | content
  | options
  | answer
  | analysis
  | tags
  | folderId
  | difficulty
deriving DecidableEq, Repr

inductive FolderField where
  | name
  | parentId
  | sort
deriving DecidableEq, Repr

inductive SessionField where
  | type
  | mode
  | questionIds
  | answers
  | results
  | status
  | startedAt
  | completedAt
  | timeLimit
  | passingGrade
deriving DecidableEq, Repr

inductive AgentField where
  | name
  | avatar
  | systemPrompt
  | service
  | model
  | temperature
  | topP
  | maxTokens
deriving DecidableEq, Repr

def Field : Entity → Type
  | .questions => QuestionField
  | .folders => FolderField
  | .sessions => SessionField
  | .agents => AgentField

instance : Fintype QuestionField where
  elems := {.type, .content, .options, .answer, .analysis, .tags, .folderId, .difficulty}
  complete f := by cases f <;> decide

instance : Fintype FolderField where
  elems := {.name, .parentId, .sort}
  complete f := by cases f <;> decide

instance : Fintype SessionField where
  elems := {.type, .mode, .questionIds, .answers, .results, .status, .startedAt, .completedAt, .timeLimit, .passingGrade}
  complete f := by cases f <;> decide

instance : Fintype AgentField where
  elems := {.name, .avatar, .systemPrompt, .service, .model, .temperature, .topP, .maxTokens}
  complete f := by cases f <;> decide

instance fieldFintype : (e : Entity) → Fintype (Field e)
  | .questions => inferInstanceAs (Fintype QuestionField)
  | .folders => inferInstanceAs (Fintype FolderField)
  | .sessions => inferInstanceAs (Fintype SessionField)
  | .agents => inferInstanceAs (Fintype AgentField)

/-- the key of the field in the dictionary that is dumped -/
def key : (e : Entity) → Field e → String
  | .questions, .type => "type"
  | .questions, .content => "content"
  | .questions, .options => "options"
  | .questions, .answer => "answer"
  | .questions, .analysis => "analysis"
  | .questions, .tags => "tags"
  | .questions, .folderId => "folder_id"
  | .questions, .difficulty => "difficulty"
  | .folders, .name => "name"
  | .folders, .parentId => "parent_id"
  | .folders, .sort => "sort"
  | .sessions, .type => "type"
  | .sessions, .mode => "mode"
  | .sessions, .questionIds => "question_ids"
  | .sessions, .answers => "answers"
  | .sessions, .results => "results"
  | .sessions, .status => "status"
  | .sessions, .startedAt => "started_at"
  | .sessions, .completedAt => "completed_at"
  | .sessions, .timeLimit => "time_limit"
  | .sessions, .passingGrade => "passing_grade"
  | .agents, .name => "name"
  | .agents, .avatar => "avatar"
  | .agents, .systemPrompt => "system_prompt"
  | .agents, .service => "service"
  | .agents, .model => "model"
  | .agents, .temperature => "temperature"
  | .agents, .topP => "top_p"
  | .agents, .maxTokens => "max_tokens"

/-- what `model_dump` makes of a field -/
inductive Datum (F : Type) where
  | none
  | str (s : Text)
  | int (n : ℤ)
  | float (x : Number F)
  | list (items : List (Value F))
  | dict (members : List (Text × Value F))
  | time (m : Moment)

/-- what a column holds -/
inductive ColVal (F : Type) where
  | null
  | text (s : Text)
  | int (n : ℤ)
  | float (x : Number F)
  | time (m : Moment)
deriving DecidableEq, Repr

variable {F : Type}

def strs (l : List Text) : List (Value F) := l.map .str

def StrOrList.value : StrOrList → Value F
  | .str s => .str s
  | .list l => .arr (strs l)

def StrOrList.datum : StrOrList → Datum F
  | .str s => .str s
  | .list l => .list (strs l)

def answersOf (answers : List (Text × StrOrList)) : List (Text × Value F) := answers.map fun q => (q.1, q.2.value)

def resultsOf (results : List (Text × List (Text × Value F))) : List (Text × Value F) := results.map fun q => (q.1, .obj q.2)

/-- `None` or what `f` makes of the value -/
def orNone {α : Type} (f : α → Datum F) (a : Option α) : Datum F := a.elim .none f

/-- `model_dump` -/
def modelDump : (e : Entity) → Payload F e → Field e → Datum F
  | .questions, (q : QuestionIn), f =>
    match (f : QuestionField) with
    | .type => .str q.type
    | .content => .str q.content
    | .options => orNone (fun l => .list (strs l)) q.options
    | .answer => q.answer.datum
    | .analysis => orNone .str q.analysis
    | .tags => .list (strs q.tags)
    | .folderId => orNone .str q.folderId
    | .difficulty => .int q.difficulty
  | .folders, (d : FolderIn), f =>
    match (f : FolderField) with
    | .name => .str d.name
    | .parentId => orNone .str d.parentId
    | .sort => .int d.sort
  | .sessions, (s : SessionIn F), f =>
    match (f : SessionField) with
    | .type => .str s.type
    | .mode => .str s.mode
    | .questionIds => .list (strs s.questionIds)
    | .answers => .dict (answersOf s.answers)
    | .results => orNone (fun r => .dict (resultsOf r)) s.results
    | .status => .str s.status
    | .startedAt => .time s.startedAt
    | .completedAt => orNone .time s.completedAt
    | .timeLimit => orNone .int s.timeLimit
    | .passingGrade => orNone .int s.passingGrade
  | .agents, (a : AgentIn F), f =>
    match (f : AgentField) with
    | .name => .str a.name
    | .avatar => orNone .str a.avatar
    | .systemPrompt => .str a.systemPrompt
    | .service => .str a.service
    | .model => .str a.model
    | .temperature => .float a.temperature
    | .topP => .float a.topP
    | .maxTokens => .int a.maxTokens

/-- `_JSON_UNION_FIELDS` -/
def jsonUnionFields : List String := ["answer"]

/-- `_dump_scalars`, of one entry -/
def dumpScalars (fl : Floats F) (key : String) : Datum F → ColVal F
  | .list items => .text (dumps fl (.arr items))
  | .dict members => .text (dumps fl (.obj members))
  | .str s => if key ∈ jsonUnionFields then .text (dumps fl (.str s)) else .text s
  | .none => .null
  | .int n => .int n
  | .float x => .float x
  | .time m => .time m

/-- the columns of a payload -/
def columns (fl : Floats F) (e : Entity) (p : Payload F e) (f : Field e) : ColVal F := dumpScalars fl (key e f) (modelDump e p f)

/-! ## The output schemas -/

/-- `_parse_json_text`; `Value.null` is `None` -/
def parseJsonText (fl : Floats F) (v : Option Text) (default : Value F) : Value F :=
  match v with
  | none => default
  | some s => (loads fl s).getD default

def parseList (fl : Floats F) (v : Option Text) (default : List (Value F)) : List (Value F) :=
  match parseJsonText fl v (.arr default) with
  | .arr items => items
  | _ => default

def parseDict (fl : Floats F) (v : Option Text) (default : List (Text × Value F)) : List (Text × Value F) :=
  match parseJsonText fl v (.obj default) with
  | .obj members => members
  | _ => default

def asStr : Value F → Option Text
  | .str s => some s
  | _ => none

/-- `list[str]` -/
def asStrList (items : List (Value F)) : Option (List Text) := items.mapM asStr

/-- `str | list[str]` -/
def asStrOrList : Value F → Option StrOrList
  | .str s => some (.str s)
  | .arr items => (asStrList items).map .list
  | _ => none

def asDict : Value F → Option (List (Text × Value F))
  | .obj members => some members
  | _ => none

/-- the values of a dictionary -/
def mapValues {α : Type} (f : Value F → Option α) (l : List (Text × Value F)) : Option (List (Text × α)) :=
  l.mapM fun q => (f q.2).map fun a => (q.1, a)

/-- `_answer` -/
def parseAnswer (fl : Floats F) (v : Option Text) : Value F :=
  match parseJsonText fl v .null with
  | .arr items => .arr items
  | .str s => .str s
  | _ => .str (v.getD [])

namespace ColVal

def text? : ColVal F → Option Text
  | .text s => some s
  | _ => none

def int? : ColVal F → Option ℤ
  | .int n => some n
  | _ => none

def float? : ColVal F → Option (Number F)
  | .float x => some x
  | _ => none

/-- a time is read in UTC -/
def time? : ColVal F → Option Moment
  | .time m => some (.utc m.instant)
  | _ => none

/-- a field that may be `None` -/
def nullable {α : Type} (f : ColVal F → Option α) : ColVal F → Option (Option α)
  | .null => some none
  | v => (f v).map some

end ColVal

open ColVal in
/-- `model_validate` of the output schema, for the fields of the input schema -/
def validate (fl : Floats F) : (e : Entity) → (Field e → ColVal F) → Option (Payload F e)
  | .questions, row => do
    let row : QuestionField → ColVal F := row
    let type ← text? (row .type)
    let content ← text? (row .content)
    let options ← match ← nullable text? (row .options) with
      | none => pure none
      | some v => do
        let l ← asStrList (parseList fl (some v) [])
        pure (some l)
    let answer ← asStrOrList (parseAnswer fl (← nullable text? (row .answer)))
    let analysis ← nullable text? (row .analysis)
    let tags ← asStrList (parseList fl (← nullable text? (row .tags)) [])
    let folderId ← nullable text? (row .folderId)
    let difficulty ← int? (row .difficulty)
    pure (⟨type, content, options, answer, analysis, tags, folderId, difficulty⟩ : QuestionIn)
  | .folders, row => do
    let row : FolderField → ColVal F := row
    let name ← text? (row .name)
    let parentId ← nullable text? (row .parentId)
    let sort ← int? (row .sort)
    pure (⟨name, parentId, sort⟩ : FolderIn)
  | .sessions, row => do
    let row : SessionField → ColVal F := row
    let type ← text? (row .type)
    let mode ← text? (row .mode)
    let questionIds ← asStrList (parseList fl (← nullable text? (row .questionIds)) [])
    let answers ← mapValues asStrOrList (parseDict fl (← nullable text? (row .answers)) [])
    let results ← match ← nullable text? (row .results) with
      | none => pure none
      | some v => do
        let r ← mapValues asDict (parseDict fl (some v) [])
        pure (some r)
    let status ← text? (row .status)
    let startedAt ← time? (row .startedAt)
    let completedAt ← nullable time? (row .completedAt)
    let timeLimit ← nullable int? (row .timeLimit)
    let passingGrade ← nullable int? (row .passingGrade)
    pure (⟨type, mode, questionIds, answers, results, status, startedAt, completedAt, timeLimit, passingGrade⟩ : SessionIn F)
  | .agents, row => do
    let row : AgentField → ColVal F := row
    let name ← text? (row .name)
    let avatar ← nullable text? (row .avatar)
    let systemPrompt ← text? (row .systemPrompt)
    let service ← text? (row .service)
    let model ← text? (row .model)
    let temperature ← float? (row .temperature)
    let topP ← float? (row .topP)
    let maxTokens ← int? (row .maxTokens)
    pure (⟨name, avatar, systemPrompt, service, model, temperature, topP, maxTokens⟩ : AgentIn F)

/-! ## Back from the columns -/

variable {fl : Floats F}

/-- no dictionary of the payload has a key twice -/
def KeysOnce : (e : Entity) → Payload F e → Prop
  | .sessions, (s : SessionIn F) =>
    (s.answers.map Prod.fst).Nodup ∧ ∀ r, s.results = some r → Keyed (.obj (resultsOf r))
  | _, _ => True

/-- the payload with its times in UTC -/
def inUtc : (e : Entity) → Payload F e → Payload F e
  | .questions, q => q
  | .folders, d => d
  | .sessions, (s : SessionIn F) =>
    ({ s with startedAt := .utc s.startedAt.instant, completedAt := s.completedAt.map fun m => .utc m.instant } : SessionIn F)
  | .agents, a => a

theorem keyed_strs (l : List Text) : Keyed (.arr (strs l) : Value F) := by
  refine .arr fun v hv => ?_
  obtain ⟨s, -, rfl⟩ := List.mem_map.1 hv
  exact .str s

theorem keyed_value (a : StrOrList) : Keyed (a.value : Value F) := by
  cases a with
  | str s => exact .str s
  | list l => exact keyed_strs l

theorem keyed_answersOf {answers : List (Text × StrOrList)} (h : (answers.map Prod.fst).Nodup) :
    Keyed (.obj (answersOf answers) : Value F) := by
  refine .obj ?_ fun entry hentry => ?_
  · rw [answersOf, List.map_map]
    exact h
  · obtain ⟨q, -, rfl⟩ := List.mem_map.1 hentry
    exact keyed_value q.2

theorem parseJsonText_dumps {v : Value F} (h : Keyed v) (default : Value F) :
    parseJsonText fl (some (dumps fl v)) default = v := by
  rw [parseJsonText, loads_dumps h, Option.getD_some]

theorem parseList_dumps (l : List Text) (default : List (Value F)) :
    parseList fl (some (dumps fl (.arr (strs l)))) default = strs l := by
  rw [parseList, parseJsonText_dumps (keyed_strs l)]

theorem parseDict_dumps {l : List (Text × Value F)} (h : Keyed (.obj l)) (default : List (Text × Value F)) :
    parseDict fl (some (dumps fl (.obj l))) default = l := by
  rw [parseDict, parseJsonText_dumps h]

/-- the sentinel `None` is for texts that are no JSON; none is stored -/
theorem parseAnswer_dumps (a : StrOrList) : parseAnswer fl (some (dumps fl a.value)) = a.value := by
  rw [parseAnswer, parseJsonText_dumps (keyed_value a)]
  cases a with
  | str s => rfl
  | list l => rfl

theorem asStrList_strs (l : List Text) : asStrList (strs l : List (Value F)) = some l := by
  induction l with
  | nil => rfl
  | cons s l ih =>
    rw [asStrList, strs] at ih ⊢
    rw [List.map_cons, List.mapM_cons, ih]
    rfl

theorem asStrOrList_value (a : StrOrList) : asStrOrList (a.value : Value F) = some a := by
  cases a with
  | str s => rfl
  | list l =>
    rw [StrOrList.value, asStrOrList, asStrList_strs]
    rfl

theorem mapValues_map {α : Type} {f : Value F → Option α} {g : α → Value F} (h : ∀ a, f (g a) = some a) (l : List (Text × α)) :
    mapValues f (l.map fun q => (q.1, g q.2)) = some l := by
  induction l with
  | nil => rfl
  | cons q l ih =>
    rw [mapValues] at ih ⊢
    rw [List.map_cons, List.mapM_cons, h, ih]
    rfl

/-- the text of a field that is a string or a list of strings -/
theorem dumpScalars_answer (a : StrOrList) : dumpScalars fl "answer" a.datum = .text (dumps fl a.value) := by
  cases a with
  | str s => rfl
  | list l => rfl

theorem validate_question (q : QuestionIn) : validate fl .questions (columns fl .questions q) = some q := by
  obtain ⟨type, content, options, answer, analysis, tags, folderId, difficulty⟩ := q
  have hoptions : ColVal.nullable ColVal.text? (dumpScalars fl "options" (orNone (fun l => .list (strs l)) options)) =
      some (options.map fun l => dumps fl (.arr (strs l))) := by
    cases options with
    | none => rfl
    | some l => rfl
  have hanswer : ColVal.nullable ColVal.text? (dumpScalars fl "answer" answer.datum) = some (some (dumps fl answer.value)) := by
    rw [dumpScalars_answer]
    rfl
  have hanalysis : ColVal.nullable ColVal.text? (dumpScalars fl "analysis" (orNone .str analysis)) = some analysis := by
    cases analysis with
    | none => rfl
    | some s => rfl
  have hfolder : ColVal.nullable ColVal.text? (dumpScalars fl "folder_id" (orNone .str folderId)) = some folderId := by
    cases folderId with
    | none => rfl
    | some s => rfl
  have htags : ColVal.nullable ColVal.text? (dumpScalars fl "tags" (.list (strs tags))) =
      some (some (dumps fl (.arr (strs tags)))) := rfl
  simp only [validate, columns, modelDump, key, hoptions, hanswer, hanalysis, hfolder, htags, parseAnswer_dumps,
    asStrOrList_value, parseList_dumps, asStrList_strs, Option.bind_eq_bind, Option.bind_some]
  cases options with
  | none => rfl
  | some l =>
    simp only [Option.map_some, parseList_dumps, asStrList_strs, Option.bind_some, Option.pure_def]
    rfl

theorem validate_session (s : SessionIn F) (h : KeysOnce .sessions s) :
    validate fl .sessions (columns fl .sessions s) = some (inUtc .sessions s) := by
  obtain ⟨hkeys, hresults⟩ := h
  obtain ⟨type, mode, questionIds, answers, results, status, startedAt, completedAt, timeLimit, passingGrade⟩ := s
  have hids : ColVal.nullable ColVal.text? (dumpScalars fl "question_ids" (.list (strs questionIds))) =
      some (some (dumps fl (.arr (strs questionIds)))) := rfl
  have hanswers : ColVal.nullable ColVal.text? (dumpScalars fl "answers" (.dict (answersOf answers))) =
      some (some (dumps fl (.obj (answersOf answers)))) := rfl
  have hmap : mapValues asStrOrList (answersOf answers : List (Text × Value F)) = some answers :=
    mapValues_map asStrOrList_value answers
  have hdict : ColVal.nullable ColVal.text? (dumpScalars fl "results" (orNone (fun r => .dict (resultsOf r)) results)) =
      some (results.map fun r => dumps fl (.obj (resultsOf r))) := by
    cases results with
    | none => rfl
    | some r => rfl
  have hcompleted : ColVal.nullable ColVal.time? (dumpScalars fl "completed_at" (orNone .time completedAt)) =
      some (completedAt.map fun m => .utc m.instant) := by
    cases completedAt with
    | none => rfl
    | some m => rfl
  have hlimit : ColVal.nullable ColVal.int? (dumpScalars fl "time_limit" (orNone .int timeLimit)) = some timeLimit := by
    cases timeLimit with
    | none => rfl
    | some n => rfl
  have hgrade : ColVal.nullable ColVal.int? (dumpScalars fl "passing_grade" (orNone .int passingGrade)) = some passingGrade := by
    cases passingGrade with
    | none => rfl
    | some n => rfl
  simp only [validate, columns, modelDump, key, hids, hanswers, hdict, hcompleted, hlimit, hgrade, parseList_dumps,
    asStrList_strs, parseDict_dumps (keyed_answersOf hkeys), hmap, Option.bind_eq_bind, Option.bind_some]
  cases results with
  | none => rfl
  | some r =>
    have hvalues : mapValues asDict (resultsOf r) = some r := mapValues_map (f := asDict) (g := .obj) (fun _ => rfl) r
    simp only [Option.map_some, parseDict_dumps (hresults r rfl), hvalues, Option.bind_some, Option.pure_def]
    rfl

/-- **Codec.** The output schema makes of the columns of a payload that payload again. -/
theorem validate_columns (e : Entity) (p : Payload F e) (h : KeysOnce e p) :
    validate fl e (columns fl e p) = some (inUtc e p) := by
  cases e with
  | questions => exact validate_question p
  | folders =>
    obtain ⟨name, parentId, sort⟩ := p
    cases parentId with
    | none => rfl
    | some parentId => rfl
  | sessions => exact validate_session p h
  | agents =>
    obtain ⟨name, avatar, systemPrompt, service, model, temperature, topP, maxTokens⟩ := p
    cases avatar with
    | none => rfl
    | some avatar => rfl

end LkmService.Starhope
