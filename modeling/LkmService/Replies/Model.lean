/-
Likes of an article and its comments with their replies, with the two counters that are stored beside them.

Modelled from `articles/service.py` (`toggle_article_like`, `create_article_comment`, `delete_article_comment`),
`articles/repository.py` (`bump_count`, `soft_delete_subtree`, `get_one_like`, `claim_like`, `release_like`,
`count_for`), `repository.py` (`soft_delete_where`, `update_where`) and `repo.py` (`get_or_raise`), statement by
statement over the row store of `Lib.Sql`.

The number of a row is its id. Times and the cache are left out: nothing here reads them. A statement that the store
refuses (a foreign key, a text, a number out of range) ends its transaction as a lost connection does. The check of a
foreign key only makes a session wait longer. The message bus is configured, so a like leaves an event in the outbox.
-/
import LkmService.Lib.Discipline
import LkmService.Lib.Recursion

namespace LkmService.Replies

open Session Sql Recursion

/-! ## Tables -/

structure Article where
  slug : String
  likes : ℤ := 0
  comments : ℤ := 0
deriving DecidableEq, Repr

structure ArticleLike where
  articleId : ℕ
  userId : ℕ
deriving DecidableEq, Repr

/-- `deleted` is `deleted_at is not None` -/
structure ArticleComment where
  articleId : ℕ
  userId : ℕ
  content : String
  parentId : Option ℕ := none
  deleted : Bool := false
deriving DecidableEq, Repr

/-- what goes to the outbox for the points worker; `refId` is the number in f"article:{article.id}" -/
structure PointsEvent where
  userId : ℕ
  event : String
  refId : ℕ
deriving DecidableEq, Repr

inductive Tbl where
  | articles | articleLikes | articleComments | outbox
deriving DecidableEq, Repr

open Tbl

abbrev Row : Tbl → Type
  | .articles => Article
  | .articleLikes => ArticleLike
  | .articleComments => ArticleComment
  | .outbox => PointsEvent

/-- the entries of the primary key of `article_likes` -/
structure Index where
  articleId : ℕ
  userId : ℕ
deriving DecidableEq, Repr

inductive Exn where
  | notFound
  | commentNotFound
  | commentParentMismatch
  | forbidden
  /-- a recursive query of the model has come to its bound; the store's goes on -/
  | unfinished
deriving DecidableEq, Repr

abbrev Fx := Discipline.NoFx Unit

abbrev Store := Db Row Index Unit

abbrev State := Snap Row Unit

abbrev Held := Own Row Index

abbrev Op (α : Type) := Prog (Stmt Row Index Fx) Exn α

/-! ## The repositories -/

/-- `get_or_raise` -/
def getOrRaise (t : Tbl) (errcode : Exn) (p : ℕ → Row t → Bool) : Op (ℕ × Row t) := do
  match (← select t p).head? with
  | none => Prog.raise errcode
  | some q => pure q

/-- `CounterColumn`, as far as it is used here -/
inductive CounterColumn where
  | likes | comments
deriving DecidableEq, Repr

def Article.bump (r : Article) (delta : ℤ) : CounterColumn → Article
  | .likes => { r with likes := r.likes + delta }
  | .comments => { r with comments := r.comments + delta }

/-- an article that is gone is not missed -/
def bumpCount (articleId : ℕ) (column : CounterColumn) (delta : ℤ) : Op Unit := do
  let _ ← updateRow articles articleId (fun _ => true) fun r => r.bump delta column
  pure ()

/-- the primary key of `article_likes` -/
def ArticleLike.is (articleId userId : ℕ) (r : ArticleLike) : Bool := r.articleId == articleId && r.userId == userId

def getOneLike (articleId userId : ℕ) : Op (Option (ℕ × ArticleLike)) := do
  let rows ← select articleLikes fun _ r => r.is articleId userId
  pure rows.head?

/-- INSERT … ON CONFLICT DO NOTHING RETURNING -/
def claimLike (articleId userId : ℕ) : Op Bool := do
  let row ← insertUnique articleLikes ⟨articleId, userId⟩ (·.is articleId userId)
    { articleId := articleId, userId := userId }
  pure row.isSome

/-- DELETE … RETURNING; the primary key leaves one candidate -/
def releaseLike (articleId userId : ℕ) : Op Bool := do
  match (← select articleLikes fun _ r => r.is articleId userId).head? with
  | none => pure false
  | some q => deleteIf articleLikes q.1 (·.is articleId userId)

def countFor (articleId : ℕ) : Op ℕ := do
  let rows ← select articleLikes fun _ r => r.articleId == articleId
  pure rows.length

def enqueueEvent (userId : ℕ) (event : String) (refId : ℕ) : Op Unit := do
  let _ ← insert outbox { userId := userId, event := event, refId := refId }
  pure ()

/-! ## Subtrees -/

/-- the recursive term: the replies to the comments in the working table, deleted ones too -/
def replies (rows : List (ℕ × ArticleComment)) (tree : List ℕ) : List ℕ :=
  (rows.filter fun q => q.2.parentId.any tree.contains).map Prod.fst

/-- the query `article_comment_tree` over the rows that a statement sees; it has no more rounds than there are rows -/
def articleCommentTree (rows : List (ℕ × ArticleComment)) (rootId : ℕ) : Option (List ℕ) :=
  recursive (replies rows) (rows.length + 1) ((rows.filter fun q => q.1 == rootId).map Prod.fst)

/-- the rows that the UPDATE of `soft_delete_where` finds in its snapshot -/
def toDelete (rows : List (ℕ × ArticleComment)) (rootId : ℕ) : Option (List ℕ) :=
  (articleCommentTree rows rootId).map fun tree =>
    (rows.filter fun q => tree.contains q.1 && !q.2.deleted).map Prod.fst

/-- a row that had to be waited for is checked again for `deleted_at`; the answer is the number of rows changed -/
def softDeleteSubtree (rootId : ℕ) : Op ℕ := do
  match ← query fun l => toDelete (l articleComments) rootId with
  | none => Prog.raise .unfinished
  | some ids => updateAll articleComments (fun c => !c.deleted) (fun c => { c with deleted := true }) ids

/-! ## The service -/

/-- the branch of a like that has been found; the answer is `liked` -/
def unlike (articleId userId : ℕ) : Op Bool := do
  let released ← releaseLike articleId userId
  if released then do
    bumpCount articleId .likes (-1)
    pure false
  else pure false

/-- the branch of a like that has not been found -/
def like (articleId userId : ℕ) : Op Bool := do
  let claimed ← claimLike articleId userId
  if claimed then do
    bumpCount articleId .likes 1
    enqueueEvent userId "like" articleId
    pure true
  else pure true

/-- the answer is `liked` and `like_count` -/
def toggleArticleLike (slug : String) (userId : ℕ) : Op (Bool × ℕ) := do
  let article ← getOrRaise articles .notFound fun _ a => a.slug == slug
  let existing ← getOneLike article.1 userId
  let liked ← (if existing.isSome then unlike article.1 userId else like article.1 userId)
  let likeCount ← countFor article.1
  pure (liked, likeCount)

/-- the check of `parent_id` -/
def checkParent (articleId : ℕ) : Option ℕ → Op Unit
  | none => pure ()
  | some parentId => do
    let parent ← getOrRaise articleComments .commentNotFound fun m _ => m == parentId
    if parent.2.articleId ≠ articleId then Prog.raise .commentParentMismatch

/-- the answer is the new comment's number -/
def createArticleComment (slug : String) (userId : ℕ) (content : String) (parentId : Option ℕ) : Op ℕ := do
  let article ← getOrRaise articles .notFound fun _ a => a.slug == slug
  checkParent article.1 parentId
  let comment ← insert articleComments
    { articleId := article.1, userId := userId, content := content, parentId := parentId }
  bumpCount article.1 .comments 1
  pure comment

/-- the answer is the author -/
def deleteArticleComment (commentId userId : ℕ) (asAdmin : Bool) : Op ℕ := do
  let comment ← getOrRaise articleComments .commentNotFound fun m _ => m == commentId
  if !asAdmin && comment.2.userId != userId then Prog.raise .forbidden
  else do
    let removed ← softDeleteSubtree comment.1
    bumpCount comment.2.articleId .comments (-removed)
    pure comment.2.userId

/-! ## Requests -/

inductive Request where
  | toggleArticleLike (slug : String) (userId : ℕ)
  | createArticleComment (slug : String) (userId : ℕ) (content : String) (parentId : Option ℕ)
  | deleteArticleComment (commentId userId : ℕ) (asAdmin : Bool)
deriving DecidableEq, Repr

inductive Answer where
  | like (liked : Bool) (likeCount : ℕ)
  | comment (id : ℕ)
  | author (id : ℕ)
deriving DecidableEq, Repr

def Request.body : Request → Op Answer
  | .toggleArticleLike slug userId => do
    let (liked, likeCount) ← Replies.toggleArticleLike slug userId
    pure (.like liked likeCount)
  | .createArticleComment slug userId content parentId => do
    let comment ← Replies.createArticleComment slug userId content parentId
    pure (.comment comment)
  | .deleteArticleComment commentId userId asAdmin => do
    let author ← Replies.deleteArticleComment commentId userId asAdmin
    pure (.author author)

def Request.prog (r : Request) : Op Answer := transaction r.body

/-- every session serves one request, over the tables `d` -/
def init (d : Store) (requests : ℕ → Request) : World (Stmt Row Index Fx) Store Exn Answer :=
  start d fun i => (requests i).prog

end LkmService.Replies
