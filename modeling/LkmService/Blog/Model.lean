/-
Publishing a file of a blog series.

Modelled from `publish_series_file` in `blog/service.py`, `parse_frontmatter` in `blog/git_svc.py`, `publish_blog_item` and
`_excerpt_of` in `content/service.py`, `get_by_slug` and `ensure_by_slug` in `content/repository.py` and `get_session` in
`core/db/session.py`. A call reads and writes one store and has no effect when it raises. What YAML makes of a text is a
parameter, and a value that is neither text nor a collection is known by its truth and its `str`. Strings are sequences of
Unicode scalar values. A text column refuses NUL; one of `n` characters refuses what is longer, but cuts blanks at its end.
The columns of an item that publishing does not touch are left out, and so are the caches.
-/
import LkmService.Lib.Text

namespace LkmService.Blog

abbrev UserId := ℕ

/-! ## Errors -/

inductive Err where
  | seriesNotFound
  | forbidden
  | fileNotFound
  | internalError
  | conflict
deriving DecidableEq, Repr

/-- `biz` is a domain error; the others come from the driver and from the YAML reader -/
inductive Exn where
  | biz (e : Err)
  | uniqueViolation
  | dataError
  | valueError
deriving DecidableEq, Repr

def Exn.isDomain : Exn → Bool
  | .biz _ => true
  | _ => false

/-! ## Frontmatter -/

/-- a value of YAML or JSON; `str` is what `str` makes of it -/
inductive Value where
  | text (s : Text)
  | list (items : List Value) (str : Text)
  | dict (entries : List (Text × Value)) (str : Text)
  | other (truthy : Bool) (str : Text)

def Value.truthy : Value → Bool
  | .text s => decide (s ≠ [])
  | .list items _ => !items.isEmpty
  | .dict entries _ => !entries.isEmpty
  | .other b _ => b

def Value.str : Value → Text
  | .text s => s
  | .list _ s => s
  | .dict _ s => s
  | .other _ s => s

abbrev Dict := List (Text × Value)

def Dict.get (d : Dict) (key : String) : Option Value := d.lookup key.toList

inductive LoadExn where
  | yamlError
  | valueError
deriving DecidableEq, Repr

def fence : Text := ['-', '-', '-']

/-- the lines of the block, if there is one -/
def block (content : Text) : Option (List Text) :=
  match Text.splitLines content with
  | [] => none
  | first :: rest =>
    if Text.strip first ≠ fence then none
    else
      match rest.span fun line => decide (Text.strip line ≠ fence) with
      | (_, []) => none
      | (lines, _ :: _) => some lines

/-- `parse_frontmatter` -/
def parseFrontmatter (safeLoad : Text → Except LoadExn Value) (content : Text) : Except Exn Dict :=
  match block content with
  | none => .ok []
  | some lines =>
    match safeLoad (['\n'].intercalate lines) with
    | .ok (.dict entries _) => .ok entries
    | .ok _ => .ok []
    | .error .yamlError => .ok []
    | .error .valueError => .error .valueError

/-- `a.get(key) or b.get(key)` -/
def either (a b : Dict) (key : String) : Option Value :=
  match a.get key with
  | some v => if v.truthy then some v else b.get key
  | none => b.get key

/-- `… or default`, as text -/
def orText (v : Option Value) (default : Text) : Text :=
  match v with
  | some v => if v.truthy then v.str else default
  | none => default

/-- what is to be published -/
structure Draft where
  slug : Text
  title : Text
  category : Text
  tags : List Text
  description : Option Text
  content : Text

def normalizedTags : Option Value → List Text
  | some (.text s) => ((Text.splitOn ',' s).map Text.strip).filter fun t => decide (t ≠ [])
  | some (.list items _) => items.map Value.str
  | _ => []

def firstLine (content : Text) : Text := Text.strip (Text.dropHashes ((Text.splitOn '\n' content).headD []))

/-- the values of a call, with those of the caller before those of the file -/
def draftOf (filepath content : Text) (fm override : Dict) : Draft :=
  let rawSlug := orText (either override fm "slug") ((Text.splitOn '/' filepath).getLastD [])
  let slug := Text.removeSuffix ".md".toList (Text.removeSuffix ".mdx".toList rawSlug)
  let first := firstLine content
  { slug := slug
    title := orText (either override fm "title") (if first = [] then slug else first)
    category := orText (either override fm "category") "blog".toList
    tags := normalizedTags (either override fm "tags")
    description := (either override fm "description").map Value.str
    content := content }

/-! ## Rows -/

inductive ContentType where
  | discussion
  | article
  | columnPost
  | blogPost
  | qa
deriving DecidableEq, Repr

inductive ContentStatus where
  | draft
  | pending
  | published
  | rejected
deriving DecidableEq, Repr

structure ContentItem where
  contentType : ContentType
  boardId : ℕ
  authorId : Option UserId
  slug : Option Text
  title : Text
  excerpt : Text
  content : Text
  summary : Option Text := none
  cover : Option Text := none
  tags : List Text := []
  status : ContentStatus := .published
  createdAt : ℤ := 0
  updatedAt : ℤ := 0
  publishedAt : Option ℤ := none
  deletedAt : Option ℤ := none
deriving DecidableEq, Repr

/-- the table, with the unique index on the slug; `next` is the next id -/
structure Items where
  rows : ℕ → Option ContentItem
  next : ℕ
  fresh : ∀ n, next ≤ n → rows n = none
  unique : ∀ n m r r' s, rows n = some r → rows m = some r' → r.slug = some s → r'.slug = some s → n = m

variable {items : Items} {n : ℕ} {r : ContentItem} {slug : Text}

def Items.holds (items : Items) (p : ContentItem → Bool) (n : ℕ) : Bool := (items.rows n).any p

/-- the first row with the property -/
def Items.find (items : Items) (p : ContentItem → Bool) : Option (ℕ × ContentItem) :=
  (List.range items.next).findSome? fun n => (items.rows n).bind fun r => if p r then some (n, r) else none

/-- writes over a row and leaves its slug -/
def Items.update (items : Items) (n : ℕ) (f : ContentItem → ContentItem) (hslug : ∀ r, (f r).slug = r.slug) : Items where
  rows := Function.update items.rows n ((items.rows n).map f)
  next := items.next
  fresh := by
    intro k hk
    by_cases h : k = n
    · subst h
      rw [Function.update_self, items.fresh k hk]
      rfl
    · rw [Function.update_of_ne h]
      exact items.fresh k hk
  unique := by
    have hrow : ∀ k r s, Function.update items.rows n ((items.rows n).map f) k = some r → r.slug = some s →
        ∃ r', items.rows k = some r' ∧ r'.slug = some s := by
      intro k r s hr hs
      by_cases h : k = n
      · subst h
        rw [Function.update_self] at hr
        obtain ⟨r', hr', rfl⟩ := Option.map_eq_some_iff.1 hr
        exact ⟨r', hr', (hslug r').symm.trans hs⟩
      · rw [Function.update_of_ne h] at hr
        exact ⟨r, hr, hs⟩
    intro k m r r' s hr hr' hs hs'
    obtain ⟨q, hq, hqs⟩ := hrow k r s hr hs
    obtain ⟨q', hq', hqs'⟩ := hrow m r' s hr' hs'
    exact items.unique k m q q' s hq hq' hqs hqs'

/-- the slug is in the way of another row -/
def Items.clashes (items : Items) (slug : Option Text) : Bool :=
  slug.any fun s => (items.find fun r => decide (r.slug = some s)).isSome

theorem Items.find_eq_none {p : ContentItem → Bool} : items.find p = none ↔ ∀ n r, items.rows n = some r → p r = false := by
  rw [Items.find, List.findSome?_eq_none_iff]
  constructor
  · intro h n r hr
    by_contra hp
    have hlt : n < items.next := by
      by_contra hge
      rw [items.fresh n (by omega)] at hr
      cases hr
    have := h n (List.mem_range.2 hlt)
    simp [hr, hp] at this
  · intro h n _
    rcases hr : items.rows n with _ | r
    · rfl
    · simp [h n r hr]

theorem Items.find_eq_some {p : ContentItem → Bool} (h : items.find p = some (n, r)) : items.rows n = some r ∧ p r = true := by
  obtain ⟨k, -, hk⟩ := List.exists_of_findSome?_eq_some h
  obtain ⟨r', hr', hif⟩ := Option.bind_eq_some_iff.1 hk
  split_ifs at hif with hp
  obtain ⟨rfl, rfl⟩ := Prod.mk.inj (Option.some.inj hif)
  exact ⟨hr', hp⟩

theorem Items.not_clashes {s : Text} (h : items.clashes (some s) = false) : ∀ n r, items.rows n = some r → r.slug ≠ some s := by
  intro n r hr hs
  have hnone : (items.find fun r => decide (r.slug = some s)) = none := by simpa [Items.clashes] using h
  have := Items.find_eq_none.1 hnone n r hr
  simp [hs] at this

/-- a new row; the index refuses a slug that is taken, also by a deleted row -/
def Items.insert (items : Items) (r : ContentItem) : Except Exn (ℕ × Items) :=
  if h : items.clashes r.slug = true then .error .uniqueViolation
  else .ok (items.next,
    { rows := Function.update items.rows items.next (some r)
      next := items.next + 1
      fresh := by
        intro k hk
        rw [Function.update_of_ne (by omega)]
        exact items.fresh k (by omega)
      unique := by
        have hno : ∀ k r' s, items.rows k = some r' → r.slug = some s → r'.slug ≠ some s := by
          intro k r' s hr' hs
          rw [hs, Bool.not_eq_true] at h
          exact Items.not_clashes h k r' hr'
        intro k m q q' s hq hq' hs hs'
        by_cases hk : k = items.next
        · by_cases hm : m = items.next
          · exact hk.trans hm.symm
          · subst hk
            rw [Function.update_self, Option.some.injEq] at hq
            rw [Function.update_of_ne hm] at hq'
            exact absurd hs' (hno m q' s hq' (hq ▸ hs))
        · by_cases hm : m = items.next
          · subst hm
            rw [Function.update_self, Option.some.injEq] at hq'
            rw [Function.update_of_ne hk] at hq
            exact absurd hs (hno k q s hq (hq' ▸ hs'))
          · rw [Function.update_of_ne hk] at hq
            rw [Function.update_of_ne hm] at hq'
            exact items.unique k m q q' s hq hq' hs hs' })

/-- a row of the outbox -/
inductive Event where
  | content (n : ℕ)
  | points (user : UserId) (n : ℕ)
deriving DecidableEq, Repr

/-- `series` has the owners, `boards` the ids by slug; what is in a file has been stored in a text column -/
structure Store where
  series : ℕ → Option UserId
  files : ℕ → Text → Option Text
  stored : ∀ k path content, files k path = some content → '\x00' ∉ content
  boards : Text → Option ℕ
  nextBoard : ℕ
  items : Items
  outbox : List Event := []

/-! ## Columns -/

/-- a text as a parameter of a statement -/
def textColumn (t : Text) : Except Exn Text := if '\x00' ∈ t then .error .dataError else .ok t

/-- what is too long is blank -/
def fits (n : ℕ) (t : Text) : Bool := (t.drop n).all fun c => decide (c = ' ')

/-- `varchar(n)` -/
def varchar (n : ℕ) (t : Text) : Except Exn Text :=
  if '\x00' ∈ t then .error .dataError else if fits n t then .ok (t.take n) else .error .dataError

/-! ## Publishing -/

/-- the clock, the switches and the YAML reader -/
structure Env where
  now : ℤ
  contentEvents : Bool := true
  busConfigured : Bool := true
  safeLoad : Text → Except LoadExn Value

/-- `_excerpt_of` -/
def excerptOf (content : Text) : Text :=
  let text := Text.strip (Text.collapse false (Text.dropTags false content))
  if text.length ≤ 150 then text else Text.rstrip (text.take 150) ++ ['.', '.', '.']

/-- `ensure_by_slug` -/
def ensureBySlug (s : Store) (slug : Text) : Except Exn (ℕ × Store) := do
  let slug ← textColumn slug
  match s.boards slug with
  | some b => pure (b, s)
  | none => do
    let cut ← varchar 50 slug
    let s' : Store := if (s.boards cut).isSome then s
      else { s with boards := Function.update s.boards cut (some s.nextBoard), nextBoard := s.nextBoard + 1 }
    match s'.boards slug with
    | some b => pure (b, s')
    | none => .error (.biz .internalError)

/-- `get_by_slug` -/
def getBySlug (s : Store) (slug : Text) : Option (ℕ × ContentItem) :=
  s.items.find fun r => decide (r.slug = some slug) && r.deletedAt.isNone

/-- `enqueue_content_event`, of an item that is published -/
def enqueueContentEvent (env : Env) (s : Store) (n : ℕ) : Store :=
  if env.contentEvents && env.busConfigured then { s with outbox := s.outbox ++ [.content n] } else s

def enqueueEvent (env : Env) (s : Store) (user : UserId) (n : ℕ) : Store :=
  if env.busConfigured then { s with outbox := s.outbox ++ [.points user n] } else s

/-- a description that is not empty -/
def given (t : Option Text) : Option Text := t.filter fun s => decide (s ≠ [])

/-- what is set on an item -/
def assign (now : ℤ) (board : ℕ) (d : Draft) (r : ContentItem) : ContentItem :=
  { r with
    title := d.title
    content := d.content
    excerpt := excerptOf d.content
    summary := (given d.description).or r.summary
    tags := d.tags
    contentType := .blogPost
    boardId := board
    status := .published
    publishedAt := r.publishedAt.or (some now) }

/-- an UPDATE if anything has been set to another value, with the texts as their columns hold them -/
def revise (now : ℤ) (board : ℕ) (d : Draft) (title : Text) (summary : Option Text) (r : ContentItem) : ContentItem :=
  if assign now board d r = r then r
  else { assign now board d r with title := title, summary := summary.or r.summary, updatedAt := now }

theorem revise_slug (now : ℤ) (board : ℕ) (d : Draft) (title : Text) (summary : Option Text) (r : ContentItem) :
    (revise now board d title summary r).slug = r.slug := by
  unfold revise
  split_ifs
  · rfl
  · rfl

def reviseItem (now : ℤ) (s : Store) (n board : ℕ) (d : Draft) (title : Text) (summary : Option Text) : Store :=
  { s with items := s.items.update n (revise now board d title summary) (revise_slug now board d title summary) }

/-- the texts as their columns hold them -/
def columns (d : Draft) (summary : Option Text) : Except Exn (Text × Option Text) := do
  let title ← varchar 200 d.title
  let _ ← textColumn d.content
  let _ ← varchar 500 (excerptOf d.content)
  match summary with
  | none => pure (title, none)
  | some t => do
    let t ← varchar 300 t
    pure (title, some t)

def newItem (now : ℤ) (owner : UserId) (board : ℕ) (d : Draft) (slug : Option Text) (title : Text) (summary : Option Text) :
    ContentItem :=
  { contentType := .blogPost
    boardId := board
    authorId := some owner
    slug := slug
    title := title
    excerpt := excerptOf d.content
    content := d.content
    summary := summary
    tags := d.tags
    status := .published
    createdAt := now
    updatedAt := now
    publishedAt := some now }

/-- `publish_blog_item` -/
def publishBlogItem (env : Env) (s : Store) (owner : UserId) (board : ℕ) (d : Draft) : Except Exn (ℕ × Store) := do
  let slug ← textColumn d.slug
  match (if slug = [] then none else getBySlug s slug) with
  | some (n, _) => do
    let (title, summary) ← columns d (given d.description)
    pure (n, enqueueContentEvent env (reviseItem env.now s n board d title summary) n)
  | none => do
    let cut ← varchar 200 slug
    let (title, summary) ← columns d d.description
    let (n, items) ← s.items.insert (newItem env.now owner board d (if slug = [] then none else some cut) title summary)
    let s := enqueueContentEvent env { s with items := items } n
    pure (n, enqueueEvent env s owner n)

/-- the request: which file of which series, and what overrides its frontmatter -/
structure Call where
  series : ℕ
  user : UserId
  filepath : Text
  override : Dict := []

/-- `publish_series_file` -/
def publishSeriesFile (env : Env) (s : Store) (c : Call) : Except Exn (ℕ × Store) :=
  match s.series c.series with
  | none => .error (.biz .seriesNotFound)
  | some owner =>
    if owner ≠ c.user then .error (.biz .forbidden)
    else do
      let path ← textColumn (Text.lstripSlash c.filepath)
      match s.files c.series path with
      | none => .error (.biz .fileNotFound)
      | some content => do
        let fm ← parseFrontmatter env.safeLoad content
        let d := draftOf path content fm c.override
        let (board, s) ← ensureBySlug s d.category
        publishBlogItem env s c.user board d

/-- `get_session`: a conflict of the index is reported as one -/
def getSession {α : Type} : Except Exn α → Except Exn α
  | .error .uniqueViolation => .error (.biz .conflict)
  | x => x

def publish (env : Env) (s : Store) (c : Call) : Except Exn (ℕ × Store) := getSession (publishSeriesFile env s c)

end LkmService.Blog
