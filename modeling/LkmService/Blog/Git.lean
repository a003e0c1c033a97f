/-
What git says of a push, and how its answers are read.

Modelled from `diff_tree_names` and `read_file` in `blog/git_svc.py`, over `git diff-tree`, `git ls-tree` and `git show`. The
repository is there and git runs. A commit is its tree, a tree the files in it (a submodule is not a file). Git prints a
name between quotes if it has bytes outside printable ASCII, a quote or a backslash, and one name a line, sorted. What
`git show` prints for a name that is not the one of a file is a parameter.
-/
import LkmService.Lib.Text
import LkmService.Lib.Utf8
import LkmService.Lib.OrderedDict
import Mathlib.Data.List.Sort
import Mathlib.Order.Fin.Basic

namespace LkmService.Blog.Git

/-! ## Trees -/

inductive Mode where
  | regular
  | executable
  | symlink
deriving DecidableEq, Repr

structure Blob where
  mode : Mode
  content : Bytes
deriving DecidableEq, Repr

def slash : UInt8 := 0x2f

/-- a path that an index takes -/
def IsPath (p : Bytes) : Prop := 0 ∉ p ∧ ∀ part ∈ p.splitOn slash, part ≠ [] ∧ part ≠ [0x2e] ∧ part ≠ [0x2e, 0x2e]

instance (p : Bytes) : Decidable (IsPath p) :=
  inferInstanceAs (Decidable (0 ∉ p ∧ ∀ part ∈ p.splitOn slash, part ≠ [] ∧ part ≠ [0x2e] ∧ part ≠ [0x2e, 0x2e]))

/-- the files of a commit; none is a directory of another -/
structure Tree where
  files : List (Bytes × Blob)
  keyed : OrderedDict.Keyed files
  paths : ∀ p ∈ files.map Prod.fst, IsPath p
  apart : ∀ p ∈ files.map Prod.fst, ∀ q ∈ files.map Prod.fst, ¬p ++ [slash] <+: q

def Tree.get? (t : Tree) (p : Bytes) : Option Blob := OrderedDict.get? t.files p

def Tree.names (t : Tree) : List Bytes := t.files.map Prod.fst

structure Repo where
  head : Tree
  /-- what `git show` prints for any other name, if it does not fail -/
  other : Bytes → Option Bytes

/-! ## Git -/

def mustQuote (b : UInt8) : Bool := decide (b < 0x20) || decide (0x7f ≤ b) || decide (b = 0x22) || decide (b = 0x5c)

def octal (b : UInt8) : Bytes := [0x5c, 0x30 + b / 64, 0x30 + b / 8 % 8, 0x30 + b % 8]

/-- a byte between quotes -/
def quoteByte (b : UInt8) : Bytes :=
  if b = 0x22 ∨ b = 0x5c then [0x5c, b]
  else if b = 0x07 then [0x5c, 0x61]
  else if b = 0x08 then [0x5c, 0x62]
  else if b = 0x09 then [0x5c, 0x74]
  else if b = 0x0a then [0x5c, 0x6e]
  else if b = 0x0b then [0x5c, 0x76]
  else if b = 0x0c then [0x5c, 0x66]
  else if b = 0x0d then [0x5c, 0x72]
  else if mustQuote b then octal b
  else [b]

def quote (name : Bytes) : Bytes := if name.any mustQuote then 0x22 :: name.flatMap quoteByte ++ [0x22] else name

/-- the paths at which the trees differ, or all of the new one -/
def changed (old : Option Tree) (new : Tree) : List Bytes :=
  match old with
  | some old => ((old.names ++ new.names).dedup.filter fun p => old.get? p ≠ new.get? p).insertionSort (· ≤ ·)
  | none => new.names.insertionSort (· ≤ ·)

/-- what `git diff-tree` or `git ls-tree` prints -/
def print (names : List Bytes) : Bytes := names.flatMap fun name => quote name ++ [0x0a]

def Repo.show (repo : Repo) (name : Bytes) : Option Bytes :=
  match repo.head.get? name with
  | some blob => some blob.content
  | none => repo.other name

/-! ## The service -/

/-- both are domain errors -/
inductive Err where
  | invalidInput
  | gitError
deriving DecidableEq, Repr

/-- `diff_tree_names` -/
def diffTreeNames (old : Option Tree) (new : Tree) : List Text :=
  ((Text.splitLines (Utf8.decode (print (changed old new)))).map Text.strip).filter fun line => decide (line ≠ [])

/-- `read_file` -/
def readFile (repo : Repo) (filepath : Text) : Except Err Text :=
  let filepath := filepath.dropWhile fun c => decide (c = '/')
  if ['.', '.'] ∈ Text.splitOn '/' filepath then .error .invalidInput
  else
    match repo.show (Utf8.encode filepath) with
    | some out => .ok (Utf8.decode out)
    | none => .error .gitError

end LkmService.Blog.Git
