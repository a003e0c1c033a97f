/-
The files of a blog series, as rows of a table, and the tree of their paths.

Modelled from `write_series_file` and `_paths_to_file_tree` in `blog/service.py` and `backfill_series_from_git` in
`blog/backfill.py`. The rows of one series are a list without an order of its own, one row for each path. A call has no
effect when it raises. The clock is read once a call, and the times of the series itself are left out.

- `Preserved`: the tree has exactly the paths, sorted at every level, in whatever order they come.
- `Separate`: no path begins or ends with a slash, and none is a directory of another.
- `preserved_iff`: that is exactly when; `tree_loses_file`: two files that are stored, of which the tree has one.
-/
import LkmService.Blog.Model
import LkmService.Blog.Git
import LkmService.Lib.PathTree
import Mathlib.Data.Char
import Mathlib.Data.List.Lex

namespace LkmService.Blog

/-! ## Rows -/

structure BlogContent where
  path : Text
  content : Text
  sha3 : Text
  version : ℕ := 1
  updatedAt : ℤ
deriving DecidableEq, Repr

abbrev Rows := List BlogContent

/-- `get_row` -/
def Rows.getRow (rows : Rows) (path : Text) : Option BlogContent := rows.find? fun row => decide (row.path = path)

def Rows.replace (rows : Rows) (row : BlogContent) : Rows := rows.map fun r => if r.path = row.path then row else r

/-- an INSERT, under the unique index on the path -/
def Rows.insert (rows : Rows) (row : BlogContent) : Except Exn Rows := do
  let path ← varchar 500 row.path
  let content ← textColumn row.content
  if path ∈ rows.map BlogContent.path then .error .uniqueViolation
  else pure (rows ++ [{ row with path := path, content := content }])

/-- the row with other content -/
def BlogContent.revised (sha3 : Text → Text) (now : ℤ) (content : Text) (row : BlogContent) : BlogContent :=
  { row with content := content, sha3 := sha3 content, version := row.version + 1, updatedAt := now }

/-- the clock, and the fingerprint of a text -/
structure Desk where
  now : ℤ
  sha3 : Text → Text

/-- `write_series_file`; `owner` is that of the series, if it exists -/
def writeSeriesFile (desk : Desk) (owner : Option UserId) (user : UserId) (filepath content : Text) (rows : Rows) :
    Except Exn Rows :=
  match owner with
  | none => .error (.biz .seriesNotFound)
  | some o =>
    if o ≠ user then .error (.biz .forbidden)
    else do
      let filepath ← textColumn (Text.lstripSlash filepath)
      match rows.getRow filepath with
      | none => rows.insert { path := filepath, content := content, sha3 := desk.sha3 content, updatedAt := desk.now }
      | some row =>
        if row.sha3 = desk.sha3 content then pure rows
        else do
          let content ← textColumn content
          pure (rows.replace (row.revised desk.sha3 desk.now content))

/-! ## Backfill -/

structure BackfillResult where
  paths : List Text := []
  upserted : List Text := []
  skipped : List Text := []
deriving DecidableEq, Repr

/-- the loop as it goes: the rows that were read, as they have been assigned to, and the new ones -/
structure Batch where
  rows : Rows
  added : Rows := []
  upserted : List Text := []
  skipped : List Text := []

/-- one turn of the loop -/
def Batch.visit (desk : Desk) (pushAt : ℤ) (read : Text → Except Git.Err Text) (batch : Batch) (path : Text) : Batch :=
  match read path with
  | .error _ => { batch with skipped := batch.skipped ++ [path] }
  | .ok content =>
    match batch.rows.getRow path with
    | none =>
      { batch with
        added := batch.added ++ [{ path := path, content := content, sha3 := desk.sha3 content, updatedAt := desk.now }]
        upserted := batch.upserted ++ [path] }
    | some row =>
      if row.updatedAt < pushAt then
        { batch with
          rows := batch.rows.replace (row.revised desk.sha3 desk.now content)
          upserted := batch.upserted ++ [path] }
      else { batch with skipped := batch.skipped ++ [path] }

def backfillPaths (desk : Desk) (pushAt : ℤ) (read : Text → Except Git.Err Text) (paths : List Text) (rows : Rows) : Batch :=
  paths.foldl (Batch.visit desk pushAt read) { rows := rows }

/-- the statements of the flush -/
def Batch.flush (batch : Batch) : Except Exn Rows :=
  if batch.rows.any fun row => decide ('\x00' ∈ row.content) then .error .dataError
  else batch.added.foldlM Rows.insert batch.rows

/-- `backfill_series_from_git`; there is no repository as long as it has no commit -/
def backfillSeriesFromGit (desk : Desk) (series : Bool) (repo : Option Git.Repo) (old : Option Git.Tree) (pushAt : Option ℤ)
    (rows : Rows) : Except Exn (BackfillResult × Rows) :=
  if series then
    match repo with
    | none => pure ({}, rows)
    | some repo => do
      let changed := Git.diffTreeNames old repo.head
      let batch := backfillPaths desk (pushAt.getD desk.now) (Git.readFile repo) changed rows
      let rows ← batch.flush
      pure ({ paths := changed, upserted := batch.upserted, skipped := batch.skipped }, rows)
  else .error (.biz .seriesNotFound)

/-! ## The tree -/

open PathTree

/-- `p.strip("/")` -/
def stripSlash (p : Text) : Text := Uuid.stripBy (fun c => decide (c = '/')) p

def parts (p : Text) : List Text := Text.splitOn '/' (stripSlash p)

/-- `_paths_to_file_tree` -/
def pathsToFileTree (paths : List Text) : List (Item Text) := listing (ofPaths (paths.map parts))

/-- the names from the root to each file, joined by slashes -/
def flatten (tree : List (Item Text)) : List Text := (leavesOf tree).map ['/'].intercalate

structure Preserved (paths : List Text) : Prop where
  exact : ∀ p, p ∈ flatten (pathsToFileTree paths) ↔ p ∈ paths
  once : (flatten (pathsToFileTree paths)).Nodup
  sorted : Ordered (pathsToFileTree paths)
  anyOrder : ∀ paths', paths'.Perm paths → pathsToFileTree paths' = pathsToFileTree paths

structure Separate (paths : List Text) : Prop where
  slashes : ∀ p ∈ paths, p.head? ≠ some '/' ∧ p.getLast? ≠ some '/'
  files : ∀ p ∈ paths, ∀ q ∈ paths, ¬p ++ ['/'] <+: q

variable {p q : Text} {paths : List Text}

theorem parts_ne_nil : parts p ≠ [] := List.splitOn_ne_nil _ _

theorem intercalate_parts : ['/'].intercalate (parts p) = stripSlash p := List.intercalate_splitOn _

theorem map_parts_ne_nil : ∀ r ∈ paths.map parts, r ≠ [] := by
  intro r hr
  obtain ⟨p, _, rfl⟩ := List.mem_map.1 hr
  exact parts_ne_nil

theorem stripSlash_ends : (stripSlash p).head? ≠ some '/' ∧ (stripSlash p).getLast? ≠ some '/' := by
  refine ⟨fun h => ?_, fun h => ?_⟩
  · simpa using Text.head?_stripBy h
  · simpa using Text.getLast?_stripBy h

theorem stripSlash_eq_self (h : p.head? ≠ some '/' ∧ p.getLast? ≠ some '/') : stripSlash p = p := by
  refine Text.stripBy_eq_self (fun c hc => ?_) (fun c hc => ?_)
  · exact decide_eq_false fun hslash => h.1 (hslash ▸ hc)
  · exact decide_eq_false fun hslash => h.2 (hslash ▸ hc)

theorem Separate.intercalate (h : Separate paths) (hp : p ∈ paths) : ['/'].intercalate (parts p) = p := by
  rw [intercalate_parts, stripSlash_eq_self (h.slashes p hp)]

/-- if the parts of one path begin those of another, it is the same, or a directory of the other -/
theorem Separate.prefix_free (h : Separate paths) (hp : p ∈ paths) (hq : q ∈ paths) (hpq : parts p <+: parts q) :
    parts p = parts q := by
  obtain ⟨r, hr⟩ := hpq
  by_cases hnil : r = []
  · rw [← hr, hnil, List.append_nil]
  · have hlonger : p ++ '/' :: ['/'].intercalate r = q := by
      calc p ++ '/' :: ['/'].intercalate r = ['/'].intercalate (parts p) ++ '/' :: ['/'].intercalate r := by
            rw [h.intercalate hp]
        _ = ['/'].intercalate (parts p ++ r) := (Text.intercalate_append parts_ne_nil hnil).symm
        _ = q := by rw [hr, h.intercalate hq]
    exact absurd ⟨_, by rw [List.append_assoc, List.singleton_append, hlonger]⟩ (h.files p hp q hq)

theorem Separate.mem_leaves (h : Separate paths) {r : List Text} :
    r ∈ leavesOf (pathsToFileTree paths) ↔ r ∈ paths.map parts := by
  refine mem_leaves_ofPaths map_parts_ne_nil fun r hr s hs hrs => ?_
  obtain ⟨p, hp, rfl⟩ := List.mem_map.1 hr
  obtain ⟨q, hq, rfl⟩ := List.mem_map.1 hs
  exact h.prefix_free hp hq hrs

theorem Separate.perm {paths' : List Text} (h : Separate paths) (hperm : paths'.Perm paths) : Separate paths' :=
  ⟨fun p hp => h.slashes p (hperm.mem_iff.1 hp), fun p hp q hq => h.files p (hperm.mem_iff.1 hp) q (hperm.mem_iff.1 hq)⟩

theorem Separate.preserved (h : Separate paths) : Preserved paths := by
  have hordered : ∀ paths, Ordered (pathsToFileTree paths) := fun paths => ofPaths_ordered (paths.map parts)
  refine ⟨fun p => ?_, ?_, hordered paths, fun paths' hperm => ?_⟩
  · constructor
    · intro hp
      obtain ⟨r, hr, rfl⟩ := List.mem_map.1 hp
      obtain ⟨q, hq, rfl⟩ := List.mem_map.1 (h.mem_leaves.1 hr)
      rw [h.intercalate hq]
      exact hq
    · intro hp
      exact List.mem_map.2 ⟨parts p, h.mem_leaves.2 (List.mem_map_of_mem hp), h.intercalate hp⟩
  · refine (hordered paths).nodup_leaves.map_on fun r hr s hs heq => ?_
    obtain ⟨p, hp, rfl⟩ := List.mem_map.1 (h.mem_leaves.1 hr)
    obtain ⟨q, hq, rfl⟩ := List.mem_map.1 (h.mem_leaves.1 hs)
    rw [h.intercalate hp, h.intercalate hq] at heq
    rw [heq]
  · refine (hordered paths').eq_of_leaves (hordered paths) fun r => ?_
    rw [h.mem_leaves, (h.perm hperm).mem_leaves]
    exact (hperm.map parts).mem_iff

/-- a path that the tree has is one without slashes at its ends, and leads to a file -/
theorem leaf_of_mem_flatten (h : p ∈ flatten (pathsToFileTree paths)) :
    (p.head? ≠ some '/' ∧ p.getLast? ≠ some '/') ∧ Text.splitOn '/' p ∈ leavesOf (pathsToFileTree paths) := by
  obtain ⟨r, hr, rfl⟩ := List.mem_map.1 h
  obtain ⟨q, _, rfl⟩ := List.mem_map.1 (mem_of_leaf map_parts_ne_nil hr)
  rw [intercalate_parts]
  exact ⟨stripSlash_ends, hr⟩

theorem Preserved.separate (h : Preserved paths) : Separate paths := by
  refine ⟨fun p hp => (leaf_of_mem_flatten ((h.exact p).2 hp)).1, fun p hp q hq hpq => ?_⟩
  obtain ⟨r, rfl⟩ := hpq
  have hparts : Text.splitOn '/' (p ++ ['/'] ++ r) = Text.splitOn '/' p ++ Text.splitOn '/' r := by
    rw [List.append_assoc, List.singleton_append]
    exact List.splitOn_append_cons_self p r
  have hleaf := (leaf_of_mem_flatten ((h.exact _).2 hp)).2
  have hleaf' := (leaf_of_mem_flatten ((h.exact _).2 hq)).2
  have heq := h.sorted.prefix_free hleaf hleaf' (hparts ▸ List.prefix_append _ _)
  rw [hparts] at heq
  exact List.splitOn_ne_nil '/' r (List.self_eq_append_right.1 heq)

/-- **Paths.** The tree has exactly the paths of the rows, each once and sorted at every level, in whatever order the rows
come, if and only if no path begins or ends with a slash and none is a directory of another. -/
theorem preserved_iff (rows : Rows) : Preserved (rows.map BlogContent.path) ↔ Separate (rows.map BlogContent.path) :=
  ⟨Preserved.separate, Separate.preserved⟩

/-! ## A file that is lost -/

def lostDesk : Desk := { now := 0, sha3 := id }

/-- the owner writes a file `d`, and then one `d/a` -/
def lostRows : Except Exn Rows :=
  writeSeriesFile lostDesk (some 1) 1 ['d'] [] [] >>= writeSeriesFile lostDesk (some 1) 1 ['d', '/', 'a'] []

/-- both are stored, the tree has the second one, and neither order of the rows gives both -/
theorem tree_loses_file : ∃ rows : Rows, lostRows = .ok rows ∧ rows.map BlogContent.path = [['d'], ['d', '/', 'a']] ∧
    flatten (pathsToFileTree (rows.map BlogContent.path)) = [['d', '/', 'a']] ∧
    flatten (pathsToFileTree (rows.map BlogContent.path).reverse) = [['d']] ∧
    ¬Preserved (rows.map BlogContent.path) := by
  refine ⟨_, rfl, rfl, rfl, rfl, fun h => ?_⟩
  have hlost : ['d'] ∈ [['d', '/', 'a']] := (h.exact ['d']).2 List.mem_cons_self
  revert hlost
  decide

end LkmService.Blog
