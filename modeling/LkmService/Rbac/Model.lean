/-
Roles and their permissions.

Modelled from `app/modules/rbac` (`permissions.py`, `repository.py`, `service.py`, `seed.py`) over the row store of
`Lib.Sql`, with the closure of `Auth.Roles`. The number of a row is its id; `created_at` is read by nobody. Whoever calls
`set_role_permission` commits it with what it writes itself, or its session is lost.

An upsert gives way to a row with the same pair, after waiting for a session that is about to add one; it locks that row,
also where the condition of its update does not hold, and looks at what is committed then. No row is ever removed.
-/
import LkmService.Auth.Roles
import LkmService.Lib.Atomic
import LkmService.Lib.Unique

namespace LkmService.Rbac

open Session Sql Sql.Discipline Auth

/-! ## Permissions -/

inductive Permission where
  | commentCreate
  | avatarUpdate
  | contentCreate
  | contentCommentCreate
  | contentLike
  | contentForward
  | interactionFavorite
  | interactionHistory
  | notificationRead
  | notificationManage
  | boardsCreateApplication
  | boardsReviewApplication
  | boardsManage
  | articlesPublish
  | articlesReview
  | articlesCategoryManage
  | columnsApplicationCreate
  | columnsApplicationReview
  | columnsPublish
  | filesUpload
  | filesDownload
  | filesReview
  | projectsApplicationCreate
  | projectsApplicationReview
  | projectsCreate
  | projectsReview
  | adminDashboard
  | adminReportsView
  | adminUsersManage
  | adminUsersReview
  | adminContentReview
  | adminModerationManage
  | adminAnalyticsView
  | adminEventsManage
  | adminBotPanel
  | articleOwnerPublish
  | articleOwnerCommentDelete
  | columnOwnerPublish
  | boardOwnerManage
  | contentOwnerDelete
  | fileOwnerDelete
  | fileOwnerUpdate
  | projectOwnerUpdate
deriving DecidableEq, Repr

def Permission.value : Permission → String
  | .commentCreate => "member.comment_create"
  | .avatarUpdate => "member.avatar_update"
  | .contentCreate => "content.create"
  | .contentCommentCreate => "content.comment_create"
  | .contentLike => "content.like"
  | .contentForward => "content.forward"
  | .interactionFavorite => "interaction.favorite"
  | .interactionHistory => "interaction.history"
  | .notificationRead => "notification.read"
  | .notificationManage => "notification.manage"
  | .boardsCreateApplication => "boards.create_application"
  | .boardsReviewApplication => "boards.review_application"
  | .boardsManage => "boards.manage"
  | .articlesPublish => "articles.publish"
  | .articlesReview => "articles.review"
  | .articlesCategoryManage => "articles.category_manage"
  | .columnsApplicationCreate => "columns.application_create"
  | .columnsApplicationReview => "columns.application_review"
  | .columnsPublish => "columns.publish"
  | .filesUpload => "files.upload"
  | .filesDownload => "files.download"
  | .filesReview => "files.review"
  | .projectsApplicationCreate => "projects.application_create"
  | .projectsApplicationReview => "projects.application_review"
  | .projectsCreate => "projects.create"
  | .projectsReview => "projects.review"
  | .adminDashboard => "admin.dashboard"
  | .adminReportsView => "admin.reports_view"
  | .adminUsersManage => "admin.users_manage"
  | .adminUsersReview => "admin.users_review"
  | .adminContentReview => "admin.content_review"
  | .adminModerationManage => "admin.moderation_manage"
  | .adminAnalyticsView => "admin.analytics_view"
  | .adminEventsManage => "admin.events_manage"
  | .adminBotPanel => "admin.bot_panel"
  | .articleOwnerPublish => "article.owner_publish"
  | .articleOwnerCommentDelete => "article.owner_comment_delete"
  | .columnOwnerPublish => "column.owner_publish"
  | .boardOwnerManage => "board.owner_manage"
  | .contentOwnerDelete => "content.owner_delete"
  | .fileOwnerDelete => "file.owner_delete"
  | .fileOwnerUpdate => "file.owner_update"
  | .projectOwnerUpdate => "project.owner_update"

/-- `DEFAULT_GRANTS` -/
def defaultGrants : List (String × List Permission) :=
  [
    ("local:member", [.avatarUpdate]),
    ("normal:member", [.commentCreate, .avatarUpdate, .contentCreate, .contentCommentCreate, .contentLike,
      .contentForward, .boardsCreateApplication, .columnsApplicationCreate, .filesUpload, .filesDownload,
      .interactionFavorite, .interactionHistory, .notificationRead, .notificationManage, .projectsApplicationCreate]),
    ("normal:columnist", [.commentCreate, .avatarUpdate, .contentCreate, .contentCommentCreate, .contentLike,
      .contentForward, .boardsCreateApplication, .columnsApplicationCreate, .columnsPublish, .filesUpload,
      .filesDownload, .interactionFavorite, .interactionHistory, .notificationRead, .notificationManage,
      .projectsApplicationCreate]),
    ("normal:author", [.commentCreate, .avatarUpdate, .contentCreate, .contentCommentCreate, .contentLike,
      .contentForward, .boardsCreateApplication, .columnsApplicationCreate, .columnsPublish, .filesUpload,
      .filesDownload, .projectsApplicationCreate, .projectsCreate, .interactionFavorite, .interactionHistory,
      .notificationRead, .notificationManage]),
    ("admin:incubated_member", [.commentCreate, .avatarUpdate, .contentCreate, .contentCommentCreate, .contentLike,
      .contentForward, .boardsCreateApplication, .columnsApplicationCreate, .filesUpload, .filesDownload,
      .interactionFavorite, .interactionHistory, .notificationRead, .notificationManage, .projectsApplicationCreate]),
    ("admin:org_member", [.commentCreate, .avatarUpdate, .contentCreate, .contentCommentCreate, .contentLike,
      .contentForward, .boardsCreateApplication, .columnsApplicationCreate, .filesUpload, .filesDownload,
      .projectsApplicationCreate, .interactionFavorite, .interactionHistory, .notificationRead, .notificationManage,
      .adminDashboard, .adminReportsView]),
    ("admin:content_reviewer", [.articlesReview]),
    ("admin:content_publisher", [.articlesPublish]),
    ("admin:super_admin", [.commentCreate, .avatarUpdate, .contentCreate, .contentCommentCreate, .contentLike,
      .contentForward, .filesUpload, .filesDownload, .interactionFavorite, .interactionHistory, .notificationRead,
      .notificationManage, .boardsCreateApplication, .columnsApplicationCreate, .columnsPublish,
      .projectsApplicationCreate, .projectsCreate, .articlesPublish, .articlesReview, .articlesCategoryManage,
      .columnsApplicationReview, .boardsReviewApplication, .boardsManage, .filesReview, .projectsApplicationReview,
      .projectsReview, .adminDashboard, .adminReportsView, .adminUsersManage, .adminUsersReview, .adminContentReview,
      .adminModerationManage, .adminAnalyticsView, .adminEventsManage, .adminBotPanel, .boardOwnerManage,
      .articleOwnerPublish, .articleOwnerCommentDelete, .columnOwnerPublish, .contentOwnerDelete, .fileOwnerDelete,
      .fileOwnerUpdate, .projectOwnerUpdate])
  ]

/-! ## Rows -/

structure RolePermission where
  roleName : String
  permission : String
  enabled : Bool := true
deriving DecidableEq, Repr

inductive Tbl where
  | rolePermissions
deriving DecidableEq, Repr

open Tbl

abbrev Row : Tbl → Type
  | .rolePermissions => RolePermission

/-- an entry of the unique index on the role and the permission -/
abbrev Pair := String × String

def RolePermission.pair (r : RolePermission) : Pair := (r.roleName, r.permission)

inductive Exn where
  | dataError
deriving DecidableEq, Repr

abbrev Store := Db Row Pair Unit

abbrev Op (α : Type) := Prog (Stmt Row Pair (NoFx Unit)) Exn α

/-! ## Writing -/

/-- `INSERT … ON CONFLICT`, as far as the row itself -/
def insertRow (r : RolePermission) : Op (Option ℕ) :=
  insertUnique rolePermissions r.pair (fun r' => decide (r'.pair = r.pair)) r

/-- `… DO UPDATE SET enabled WHERE enabled IS DISTINCT FROM`, on the row that is in the way -/
def updateConflict (n : ℕ) (enabled : Bool) : Op Bool := do
  match ← lockRow rolePermissions n fun _ => true with
  | none => .raise .dataError
  | some r =>
    if r.enabled = enabled then pure false
    else do
      let _ ← updateRow rolePermissions n (fun _ => true) fun r => { r with enabled := enabled }
      pure true

/-- `RolePermissionRepository.set_permission` -/
def setPermission (roleName permission : String) (enabled : Bool) : Op Bool :=
  if 40 < roleName.length ∨ 80 < permission.length then .raise .dataError
  else do
    match ← insertRow ⟨roleName, permission, enabled⟩ with
    | some _ => pure true
    | none => do
      let rows ← select rolePermissions fun _ r => decide (r.pair = (roleName, permission))
      match rows.head? with
      | none => .raise .dataError
      | some (n, _) => updateConflict n enabled

def setRolePermission (roleName : String) (permission : Permission) (enabled : Bool) : Op Bool :=
  setPermission roleName permission.value enabled

/-- `_rows` -/
def seedRows : List Pair := defaultGrants.flatMap fun g => g.2.map fun p => (g.1, p.value)

/-- `INSERT … ON CONFLICT DO NOTHING` of many rows: how many were added -/
def insertRows : List Pair → Op ℕ
  | [] => pure 0
  | q :: rest => do
    let added ← insertRow ⟨q.1, q.2, true⟩
    let others ← insertRows rest
    pure (if added.isSome then others + 1 else others)

def seedRbac : Op ℕ := insertRows seedRows

inductive Response where
  | changed (b : Bool)
  | inserted (count : ℕ)
deriving DecidableEq, Repr

inductive Request where
  | set (roleName : String) (permission : Permission) (enabled : Bool)
  | seed
deriving DecidableEq, Repr

def Request.body : Request → Op Response
  | .set roleName permission enabled => do
    let changed ← setRolePermission roleName permission enabled
    pure (.changed changed)
  | .seed => do
    let count ← seedRbac
    pure (.inserted count)

def Request.prog (r : Request) : Op Response := transaction r.body

/-! ## Deciding -/

section Decisions

variable (rows : List RolePermission)

/-- `has_permission` -/
def hasPermission (roleName permission : String) : Bool :=
  rows.any fun r => decide (r.roleName = roleName) && decide (r.permission = permission) && r.enabled

/-- `has_any_permission` -/
def hasAnyPermission (roleNames : List String) (permission : String) : Bool :=
  if roleNames = [] then false
  else rows.any fun r => decide (r.roleName ∈ roleNames) && decide (r.permission = permission) && r.enabled

/-- `permissions_of` -/
def permissionsOf (roleNames : List String) : List String :=
  if roleNames = [] then []
  else sorted ((rows.filter fun r => decide (r.roleName ∈ roleNames) && r.enabled).map RolePermission.permission).dedup

structure CurrentUser where
  accountLevel : String
  role : String
  activeRoles : Option (List String) := none

/-- `role.startswith(f"{level}:")` -/
def ofLevel (level role : String) : Bool := (level.toList ++ [':']).isPrefixOf role.toList

def validRoles (cur : CurrentUser) : List String :=
  (roleClosure (cur.activeRoles.getD [compositeRole cur.accountLevel cur.role])).filter (ofLevel cur.accountLevel)

def userHasPermission (cur : CurrentUser) (permission : Permission) : Bool :=
  match validRoles cur with
  | [role] => hasPermission rows role permission.value
  | roles => hasAnyPermission rows roles permission.value

def userPermissions (cur : CurrentUser) : List String := permissionsOf rows (validRoles cur)

end Decisions

end LkmService.Rbac
