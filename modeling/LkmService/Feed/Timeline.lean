/-
The follow timeline, read page by page from the materialized rows or from the sources.

Modelled from `app/modules/feed/service.py` (`get_timeline`, `_materialized_timeline`, `_realtime_timeline`,
`_collect_page`, `_finish_page`), `feed/repository.py` (`list_page`), `app/contracts/feed.py` (`cursor_order`) and the
`select_source` of the domains that own the five sources.

The data stand still. A source holds the rows that its status condition lets through. The cached lists (the followed
users and boards, the authors above the fan-out cap) hold what the tables say. The scores and the names of the authors
are left out: they neither choose nor order the items. `shouldHide` is what the rules of the moderation say of a text.
-/
import LkmService.Lib.Keyset
import Mathlib.Data.Prod.Lex
import Mathlib.Data.Finset.Basic

namespace LkmService.Feed

open Keyset

/-! ## Items and sources -/

/-- the sources of a follow timeline -/
inductive Source where
  | discussion
  | column
  | qa
  | project
  | blog
deriving DecidableEq, Repr

def followSources : List Source := [.discussion, .column, .qa, .project, .blog]

structure FeedItem where
  itemType : Source
  id : ℕ
  authorId : Option ℕ := none
  boardId : Option ℕ := none
  title : String := ""
  contentPreview : String := ""
  createdAt : ℕ
deriving DecidableEq, Repr

/-- the place of an item in the order of a timeline, which a cursor holds -/
abbrev Key := ℕ ×ₗ ℕ

def FeedItem.key (it : FeedItem) : Key := toLex (it.createdAt, it.id)

/-- what a viewer's timeline is read from: `stored` are the viewer's rows of `feed_items`, and `bigv` the authors with
more followers than `feed_fanout_max_followers` -/
structure Site where
  rows : Source → List FeedItem
  stored : List FeedItem
  followingIds : Finset ℕ
  boardIds : Finset ℕ
  bigv : Finset ℕ
  shouldHide : String → Bool
  typed : ∀ s, ∀ it ∈ rows s, it.itemType = s
  nodup : ∀ s, (rows s).Nodup
  /-- an id is a UUID -/
  ids : ∀ s t, ∀ a ∈ rows s, ∀ b ∈ rows t, a.id = b.id → a = b
  copies : ∀ it ∈ stored, it ∈ rows it.itemType

def FeedItem.byOneOf (it : FeedItem) (authorIds : Finset ℕ) : Bool := it.authorId.any (· ∈ authorIds)

def FeedItem.inOneOf (it : FeedItem) (boardIds : Finset ℕ) : Bool := it.boardId.any (· ∈ boardIds)

/-- the condition of a source on authors and boards; only discussions have one on boards -/
def conditions (s : Source) (authorIds : Finset ℕ) (boardIds : Option (Finset ℕ)) (it : FeedItem) : Bool :=
  match s, boardIds with
  | .discussion, some boards => it.byOneOf authorIds || it.inOneOf boards
  | _, _ => it.byOneOf authorIds

namespace Site

variable (site : Site)

def candidates (s : Source) (authorIds : Finset ℕ) (boardIds : Option (Finset ℕ)) : List FeedItem :=
  (site.rows s).filter (conditions s authorIds boardIds)

/-- the rows of a source's query: `ORDER BY created_at DESC, id DESC LIMIT size` after the cursor -/
def fetchSource (s : Source) (authorIds : Finset ℕ) (boardIds : Option (Finset ℕ)) (at_ : Option Key) (size : ℕ) :
    List FeedItem :=
  page FeedItem.key at_ size (site.candidates s authorIds boardIds)

/-- the boards go to the query of the discussions only -/
def boardsFor (boards : Finset ℕ) (s : Source) : Option (Finset ℕ) := if s = .discussion then some boards else none

/-! ## One page -/

def filterHidden (items : List FeedItem) : List FeedItem :=
  items.filter fun it => !site.shouldHide s!"{it.title} {it.contentPreview}"

end Site

/-- take over the items that are not there yet, up to one more than the limit -/
def absorb (limit : ℕ) : List FeedItem → List FeedItem → List (Source × ℕ) → List FeedItem × List (Source × ℕ)
  | [], visible, seen => (visible, seen)
  | it :: kept, visible, seen =>
    if (it.itemType, it.id) ∈ seen then absorb limit kept visible seen
    else if limit < (visible ++ [it]).length then (visible ++ [it], (it.itemType, it.id) :: seen)
    else absorb limit kept (visible ++ [it]) ((it.itemType, it.id) :: seen)

/-- the local variables of `_collect_page` -/
structure Scan where
  batchSize : ℕ
  scanAt : Option Key
  scanned : ℕ := 0
  visible : List FeedItem := []
  seen : List (Source × ℕ) := []
  hasCandidates : Bool := false
  lastScanned : Option FeedItem := none

abbrev Fetch := Option Key → ℕ → List FeedItem

namespace Site

variable (site : Site)

/-- one round of the loop on a batch that is not empty -/
def scanBatch (limit : ℕ) (batch : List FeedItem) (sc : Scan) : Scan :=
  let taken := absorb limit (site.filterHidden batch) sc.visible sc.seen
  { sc with
    hasCandidates := true
    scanned := sc.scanned + batch.length
    visible := taken.1
    seen := taken.2
    lastScanned := batch.getLast?
    scanAt := batch.getLast?.map FeedItem.key }

def collectLoop (fetch : Fetch) (limit maxScanned : ℕ) : ℕ → Scan → Scan
  | 0, sc => sc
  | fuel + 1, sc =>
    if sc.visible.length ≤ limit ∧ sc.scanned < maxScanned then
      let size := min sc.batchSize (maxScanned - sc.scanned)
      let found := fetch sc.scanAt size
      if found = [] then sc
      else
        let next := site.scanBatch limit ((desc FeedItem.key found).take size) sc
        if found.length < size then next
        else collectLoop fetch limit maxScanned fuel { next with batchSize := min (next.batchSize * 2) 100 }
    else sc

def maxScanned (limit : ℕ) : ℕ := max 200 (limit * 10)

/-- every round scans an item, so there are no more rounds than items to scan -/
def collect (fetch : Fetch) (before : Option Key) (limit : ℕ) : Scan :=
  site.collectLoop fetch limit (maxScanned limit) (maxScanned limit + 1) { batchSize := limit + 1, scanAt := before }

/-- where a page that ran into the scan limit goes on -/
def continuation (limit : ℕ) (sc : Scan) : Option Key :=
  if maxScanned limit ≤ sc.scanned ∧ sc.visible.length ≤ limit then sc.lastScanned.map FeedItem.key else none

end Site

structure FeedResponse (γ : Type) where
  items : List FeedItem
  nextCursor : Option γ
deriving DecidableEq, Repr

variable {γ : Type}

def finishPage (K : Codec γ Key) (limit : ℕ) (visible : List FeedItem) (continuation : Option Key) : FeedResponse γ :=
  let shown := visible.take limit
  if shown = [] then ⟨[], continuation.map K.encode⟩
  else if limit < visible.length then ⟨shown, (shown.getLast?.map FeedItem.key).map K.encode⟩
  else ⟨shown, continuation.map K.encode⟩

/-! ## The two read models -/

namespace Site

variable (site : Site)

def bigvFollowed : Finset ℕ := site.bigv ∩ site.followingIds

/-- `_realtime_supplement` leaves a source out which no author or board can select from -/
def supplementSources (authorIds boards : Finset ℕ) : List Source :=
  followSources.filter fun s =>
    !(decide (s ≠ .discussion) && decide (authorIds = ∅)) &&
      !(decide (s = .discussion) && decide (authorIds = ∅) && decide (boards = ∅))

def realtimeSupplement (authorIds boards : Finset ℕ) : Fetch := fun scanAt size =>
  (supplementSources authorIds boards).flatMap fun s => site.fetchSource s authorIds (boardsFor boards s) scanAt size

def fetchMaterialized : Fetch := fun scanAt size =>
  let items := page FeedItem.key scanAt size site.stored
  if site.bigvFollowed = ∅ ∧ site.boardIds = ∅ then items
  else items ++ site.realtimeSupplement site.bigvFollowed site.boardIds scanAt size

def fetchRealtime : Fetch := fun scanAt size =>
  followSources.flatMap fun s =>
    site.fetchSource s site.followingIds (boardsFor site.boardIds s) scanAt size

def followsNothing : Bool := decide (site.followingIds = ∅) && decide (site.boardIds = ∅)

/-- `none` falls back to the sources: only on a first page for which there was no candidate at all -/
def materializedTimeline (K : Codec γ Key) (limit : ℕ) (cursor : Option γ) : Option (FeedResponse γ) :=
  let before := cursor.bind K.decode
  if site.followsNothing then some ⟨[], none⟩
  else
    let sc := site.collect site.fetchMaterialized before limit
    if sc.hasCandidates = false ∧ before = none then none
    else some (finishPage K limit sc.visible (continuation limit sc))

def realtimeTimeline (K : Codec γ Key) (limit : ℕ) (cursor : Option γ) : FeedResponse γ :=
  if site.followsNothing then ⟨[], none⟩
  else
    let sc := site.collect site.fetchRealtime (cursor.bind K.decode) limit
    finishPage K limit sc.visible (continuation limit sc)

/-- `get_timeline` in the mode `follow`, for a user that is signed in -/
def getTimeline (K : Codec γ Key) (limit : ℕ) (cursor : Option γ) : FeedResponse γ :=
  (site.materializedTimeline K limit cursor).getD (site.realtimeTimeline K limit cursor)

end Site

end LkmService.Feed
