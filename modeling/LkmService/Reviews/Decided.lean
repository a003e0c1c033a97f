/-
An application is decided once (`decide_admission`, `review_board_application`, `review_application`,
`review_article`).

Each review checks a status that it has read without a lock, and its UPDATE does not ask for the status again: of two
reviews that read the row before either has committed, both commit, and the status is the second one's while the board,
the column or the session is the first one's (`decided_twice`). `decided_once`: while every decision that commits still
finds its application pending, each application is decided at most once, boards and columns are those of the approved
applications, and no rejected user has a session.
-/
import LkmService.Reviews.Model

namespace LkmService.Reviews

open Session Sql Sql.Discipline Tbl

abbrev State := Snap Row Unit

abbrev Held := Own Row Index

variable {requests : ℕ → Request} {i n m u : ℕ} {o : Held} {σ τ υ : State}

/-! ## The invariant -/

/-- one decision at most, and none before the first -/
def Once (pending : Prop) (decisions : ℕ) : Prop := decisions ≤ 1 ∧ (pending → decisions = 0)

theorem Once.decide {pending : Prop} {decisions : ℕ} (h : Once pending decisions) (hpending : pending) :
    Once False (decisions + 1) := by
  have := h.2 hpending
  exact ⟨by omega, False.elim⟩

/-- of the users and the sessions -/
structure Admissions (user : ℕ → Option User) (token : ℕ → Option RefreshToken) : Prop where
  once : ∀ u r, user u = some r → Once (r.admissionStatus = .pending) r.decisions
  noSession : ∀ u r, user u = some r → r.admissionStatus = .rejected → ∀ n t, token n = some t → t.isLiveOf u = false

/-- of the applications of one kind and what is made for them -/
structure Made {A B : Type} (status : A → ApplicationStatus) (decisions : A → ℕ) (madeFor : B → Option ℕ)
    (application : ℕ → Option A) (product : ℕ → Option B) : Prop where
  once : ∀ a r, application a = some r → Once (status r = .pending) (decisions r)
  made : ∀ a r, application a = some r → ((∃ m b, product m = some b ∧ madeFor b = some a) ↔ status r = .approved)

structure Articles (article : ℕ → Option Article) : Prop where
  once : ∀ n a, article n = some a → Once (a.status = .pending) a.decisions
  dated : ∀ n a, article n = some a → a.status = .published → a.published.isSome

structure Inv (σ : State) : Prop where
  admissions : Admissions (σ.com users) (σ.com refreshTokens)
  boards : Made BoardApplication.status BoardApplication.decisions Board.createdFor (σ.com boardApplications)
    (σ.com Tbl.boards)
  columns : Made ColumnApplication.status ColumnApplication.decisions Column.applicationId (σ.com columnApplications)
    (σ.com Tbl.columns)
  articles : Articles (σ.com Tbl.articles)

/-- what the others' commits keep: columns, active users, and that a new session is one of an active user -/
structure Rely (σ τ : State) : Prop where
  columnStays : ∀ n c, σ.com columns n = some c → τ.com columns n = some c
  activeStays : ∀ u r, σ.com users u = some r → r.admissionStatus = .active →
    ∃ r', τ.com users u = some r' ∧ r'.admissionStatus = .active
  sessionOf : ∀ n t u, τ.com refreshTokens n = some t → t.isLiveOf u = true →
    σ.com refreshTokens n = some t ∨ ∃ r, τ.com users u = some r ∧ r.admissionStatus = .active

theorem Rely.refl (σ : State) : Rely σ σ := ⟨fun _ _ h => h, fun _ r hr ha => ⟨r, hr, ha⟩, fun _ _ _ ht _ => .inl ht⟩

theorem Rely.trans (h : Rely σ τ) (h' : Rely τ υ) : Rely σ υ where
  columnStays n c hc := h'.columnStays n c (h.columnStays n c hc)
  activeStays u r hr ha := by
    obtain ⟨r', hr', ha'⟩ := h.activeStays u r hr ha
    exact h'.activeStays u r' hr' ha'
  sessionOf n t u ht hlive := by
    rcases h'.sessionOf n t u ht hlive with hold | hactive
    · rcases h.sessionOf n t u hold hlive with holder | ⟨r, hr, ha⟩
      · exact .inl holder
      · exact .inr (h'.activeStays u r hr ha)
    · exact .inr hactive

/-- the application that the request decides is still pending -/
def StillPending (o : Held) (σ : State) : Request → Prop
  | .decideAdmission user _ _ _ => ∀ r, σ.com users user = some r → r.admissionStatus = .pending
  | .reviewBoardApplication application _ _ _ => ∀ r, σ.com boardApplications application = some r → r.status = .pending
  | .reviewApplication application _ _ _ => ∀ r, σ.com columnApplications application = some r → r.status = .pending
  | .reviewArticle _ _ _ => ∀ n a, o.row articles n ≠ none → σ.com articles n = some a → a.status = .pending
  | _ => True

def discipline (requests : ℕ → Request) : Discipline Row Index Fx Unit where
  inv := Inv
  rely _ _ := Rely
  act _ _ _ := True
  ok _ x := nomatch x
  okCommit i o σ := StillPending o σ (requests i)
  rely_refl _ _ := Rely.refl
  rely_trans _ _ _ _ _ := Rely.trans
  act_refl _ _ _ := trivial
  grow_inv _ _ _ h := ⟨h.admissions, h.boards, h.columns, h.articles⟩
  grow_act _ _ _ _ _ := trivial
  grow_rely _ _ σ _ _ _ := ⟨fun _ _ h => h, fun _ r hr ha => ⟨r, hr, ha⟩, fun _ _ _ ht _ => .inl ht⟩

instance : Lockless (discipline requests) := ⟨fun _ _ _ => trivial⟩

theorem good_of (hinv : Inv (σ.merge o)) (hrely : Rely σ (σ.merge o)) :
    (discipline requests).Good i o σ (σ.merge o) :=
  ⟨hinv, trivial, fun _ _ _ _ => hrely⟩

/-! ## The repositories -/

theorem wp_getOrRaise {t : Tbl} {e : Exn} {P : Row t → Held → State → Prop}
    (h : ∀ τ r, (discipline requests).Later i o σ τ → o.view τ t n = some r → P r o τ) :
    (discipline requests).wp i (getOrRaise t n e) (Returns P) o σ := by
  unfold getOrRaise
  refine wp_bind (wp_select ?_)
  intro τ hl l hmem _
  dsimp only
  cases hhead : l.head? with
  | none => exact wp_fail e
  | some q =>
    obtain ⟨hv, hn⟩ := (hmem q.1 q.2).1 (List.mem_of_head? hhead)
    have hn' : q.1 = n := of_decide_eq_true hn
    subst hn'
    exact wp_return (h τ q.2 hl hv)

theorem wp_flushRow {t : Tbl} {f : Row t → Row t} {P : Unit → Held → State → Prop}
    (h : ∀ τ r, (discipline requests).Later i o σ τ → o.view τ t n = some r → P () (o.put t n (some (f r))) τ) :
    (discipline requests).wp i (flushRow t n f) (Returns P) o σ := by
  unfold flushRow
  refine wp_bind (wp_updateRow ?_ ?_)
  · intro τ _ _
    exact wp_fail Exn.staleData
  · intro τ r hl hv _
    exact wp_return (h τ r hl hv)

/-- `flushRow` as the first write of a request -/
theorem wp_flushFirst {t : Tbl} {f : Row t → Row t} {q : Unit → Op (Option ℕ)} {P : Option ℕ → Held → State → Prop}
    (h : ∀ r τ, τ.com t n = some r →
      (discipline requests).wp i (q ()) (Returns P) (({} : Held).put t n (some (f r))) τ) :
    (discipline requests).wp i (flushRow t n f >>= q) (Returns P) {} σ := by
  refine wp_seq (wp_flushRow (P := fun _ o τ => ∃ r, τ.com t n = some r ∧ o = ({} : Held).put t n (some (f r))) ?_) ?_
  · intro τ r _ hr
    exact ⟨r, hr, rfl⟩
  · rintro _ o τ ⟨r, hr, rfl⟩
    exact h r τ hr

/-! ## Boards and columns -/

section Made

variable {A B : Type} {status : A → ApplicationStatus} {decisions : A → ℕ} {madeFor : B → Option ℕ}
  {application : ℕ → Option A} {product product' : ℕ → Option B} {a : ℕ} {r r' : A} {b : B}

/-- one application is decided, and its product made when it is approved -/
theorem Made.review (h : Made status decisions madeFor application product) (ha : application a = some r)
    (hpending : status r = .pending) (hdecisions : decisions r' = decisions r + 1) (hstatus : status r' ≠ .pending)
    (hproduct : ∀ k, (∃ m b, product' m = some b ∧ madeFor b = some k) ↔
      k = a ∧ status r' = .approved ∨ ∃ m b, product m = some b ∧ madeFor b = some k) :
    Made status decisions madeFor (Function.update application a (some r')) product' := by
  have hnone : ¬ ∃ m b, product m = some b ∧ madeFor b = some a := by
    rw [h.made a r ha, hpending]
    simp
  refine ⟨?_, ?_⟩
  · intro k q hq
    by_cases hk : k = a
    · subst hk
      obtain rfl : r' = q := by simpa using hq
      rw [hdecisions]
      refine ⟨((h.once k r ha).decide hpending).1, fun hp => absurd hp hstatus⟩
    · rw [Function.update_of_ne hk] at hq
      exact h.once k q hq
  · intro k q hq
    rw [hproduct k]
    by_cases hk : k = a
    · subst hk
      obtain rfl : r' = q := by simpa using hq
      simp [hnone]
    · rw [Function.update_of_ne hk] at hq
      rw [← h.made k q hq]
      simp [hk]

/-- a new product in an unused place -/
theorem exists_update_iff {P : B → Prop} (hm : product m = none) :
    (∃ n y, Function.update product m (some b) n = some y ∧ P y) ↔ P b ∨ ∃ n y, product n = some y ∧ P y := by
  constructor
  · intro h
    obtain ⟨n, y, hy, hP⟩ := h
    by_cases hn : n = m
    · subst hn
      obtain rfl : b = y := by simpa using hy
      exact .inl hP
    · rw [Function.update_of_ne hn] at hy
      exact .inr ⟨n, y, hy, hP⟩
  · intro h
    rcases h with hP | ⟨n, y, hy, hP⟩
    · exact ⟨m, b, by simp, hP⟩
    · have hn : n ≠ m := fun heq => by simp [← heq, hy] at hm
      exact ⟨n, y, by rwa [Function.update_of_ne hn], hP⟩

theorem Made.approve (h : Made status decisions madeFor application product) (ha : application a = some r)
    (hpending : status r = .pending) (hdecisions : decisions r' = decisions r + 1) (hstatus : status r' = .approved)
    (hm : product m = none) (hb : madeFor b = some a) :
    Made status decisions madeFor (Function.update application a (some r')) (Function.update product m (some b)) := by
  refine h.review ha hpending hdecisions (by simp [hstatus]) ?_
  intro k
  rw [exists_update_iff hm]
  refine or_congr_left ?_
  simp [hb, hstatus, eq_comm]

theorem Made.reject (h : Made status decisions madeFor application product) (ha : application a = some r)
    (hpending : status r = .pending) (hdecisions : decisions r' = decisions r + 1) (hstatus : status r' = .rejected) :
    Made status decisions madeFor (Function.update application a (some r')) product := by
  refine h.review ha hpending hdecisions (by simp [hstatus]) ?_
  intro k
  simp [hstatus]

end Made

/-- what a review of a board owns when it ends -/
inductive BoardReviewed (application reviewerId : ℕ) (note : Option String) (σ : State) : Held → Prop where
  | reject (r : BoardApplication) (hr : σ.com boardApplications application = some r) :
    BoardReviewed application reviewerId note σ
      (({} : Held).put boardApplications application (some (r.review false reviewerId note)))
  | approve (r : BoardApplication) (m : ℕ) (b : Board) (k : Index) (hr : σ.com boardApplications application = some r)
      (hm : σ.com boards m = none) (hb : b.createdFor = some application) :
    BoardReviewed application reviewerId note σ
      (((({} : Held).put boardApplications application (some (r.review true reviewerId note))).put boards m
        (some b)).take k)

theorem reviewBoardApplication_spec {application reviewerId : ℕ} {approve : Bool} {note : Option String} :
    (discipline requests).wp i (reviewBoardApplication application reviewerId approve note)
      (Returns fun a o τ => a = none ∧ BoardReviewed application reviewerId note τ o) {} σ := by
  unfold reviewBoardApplication
  refine wp_seq (P := fun _ o _ => o = {}) (wp_getOrRaise fun _ _ _ _ => rfl) ?_
  rintro row o σ rfl
  split_ifs with hstatus happrove
  · exact wp_fail _
  · refine wp_seq (P := fun _ o _ => o = {}) ?_ ?_
    · unfold slugTaken
      exact wp_bind (wp_select fun _ _ _ _ _ => wp_return rfl)
    rintro taken o σ rfl
    cases taken with
    | true => exact wp_fail _
    | false =>
      refine wp_flushFirst fun r σ hr => ?_
      subst happrove
      refine wp_seq (P := fun _ o τ => BoardReviewed application reviewerId note τ o) ?_ fun _ _ _ h =>
        wp_return ⟨rfl, h⟩
      unfold createBoardEx slugTaken
      refine wp_bind (wp_bind (wp_select ?_))
      intro τ hl l _ _
      refine wp_pure ?_
      dsimp only
      split_ifs
      · exact wp_fail _
      · refine wp_bind (wp_insertUnique ?_ ?_)
        · intro υ _ _ _ _ _
          exact wp_fail Exn.slugConflict
        · intro υ hl' _
          refine wp_return (BoardReviewed.approve r _ _ _ ?_ ?_ rfl)
          · exact (hl'.com_eq (Own.put_row_self _ _ _)).trans ((hl.com_eq (Own.put_row_self _ _ _)).trans hr)
          · exact (hl'.fresh boards _ le_rfl).1
  · refine wp_seq (P := fun taken o _ => o = {} ∧ taken = false) (wp_return ⟨rfl, rfl⟩) ?_
    rintro taken o σ ⟨rfl, rfl⟩
    refine wp_flushFirst fun r σ hr => ?_
    have hreject : approve = false := by simpa using happrove
    subst hreject
    exact wp_return ⟨rfl, .reject r hr⟩

/-- commits that write neither users nor sessions nor columns -/
theorem rely_of_same (husers : (σ.merge o).com users = σ.com users)
    (htokens : (σ.merge o).com refreshTokens = σ.com refreshTokens)
    (hcolumns : ∀ n c, σ.com columns n = some c → (σ.merge o).com columns n = some c) : Rely σ (σ.merge o) where
  columnStays := hcolumns
  activeStays u r hr ha := ⟨r, by rw [husers]; exact hr, ha⟩
  sessionOf n t u ht _ := .inl (by rw [← htokens]; exact ht)

theorem BoardReviewed.good {application reviewerId : ℕ} {note : Option String}
    (h : BoardReviewed application reviewerId note σ o) (hl : (discipline requests).Later i o σ τ)
    (hpending : ∀ r, τ.com boardApplications application = some r → r.status = .pending) :
    (discipline requests).Good i o τ (τ.merge o) := by
  have hinv : Inv τ := hl.inv
  have hsame : ∀ t, t ≠ boardApplications → t ≠ boards → (τ.merge o).com t = τ.com t := by
    intro t ht ht'
    cases h with
    | reject r hr => rw [Snap.merge_put_other _ _ _ _ ht, Snap.merge_empty]
    | approve r m b k hr hm hb =>
      rw [Snap.merge_take, Snap.merge_put_other _ _ _ _ ht', Snap.merge_put_other _ _ _ _ ht, Snap.merge_empty]
  refine good_of ⟨?_, ?_, ?_, ?_⟩ (rely_of_same (hsame _ (by decide) (by decide)) (hsame _ (by decide) (by decide)) ?_)
  · rw [hsame _ (by decide) (by decide), hsame _ (by decide) (by decide)]
    exact hinv.admissions
  · cases h with
    | reject r hr =>
      have hr' := (hl.com_eq (Own.put_row_self _ _ _)).trans hr
      rw [Snap.merge_put_self, Snap.merge_put_other _ _ _ _ (by decide), Snap.merge_empty]
      exact hinv.boards.reject hr' (hpending r hr') rfl rfl
    | approve r m b k hr hm hb =>
      have hr' : τ.com boardApplications application = some r :=
        (hl.com boardApplications application
          (by rw [Own.take_row, Own.put_row_other _ _ _ (by decide), Own.put_row_self]; simp)).trans hr
      have hm' : τ.com boards m = none := (hl.com_eq (Own.put_row_self _ _ _)).trans hm
      rw [Snap.merge_take, Snap.merge_put_other _ _ _ _ (by decide), Snap.merge_put_self, Snap.merge_put_self,
        Snap.merge_put_other _ _ _ _ (by decide), Snap.merge_empty]
      exact hinv.boards.approve hr' (hpending r hr') rfl rfl hm' hb
  · rw [hsame _ (by decide) (by decide), hsame _ (by decide) (by decide)]
    exact hinv.columns
  · rw [hsame _ (by decide) (by decide)]
    exact hinv.articles
  · intro n c hc
    rw [hsame _ (by decide) (by decide)]
    exact hc

/-- what a review of a column owns when it ends -/
inductive ColumnReviewed (application reviewerId : ℕ) (note : Option String) (σ : State) : Held → Prop where
  | reject (r : ColumnApplication) (hr : σ.com columnApplications application = some r) :
    ColumnReviewed application reviewerId note σ
      (({} : Held).put columnApplications application (some (r.review false reviewerId note)))
  /-- the application has its column already -/
  | found (r : ColumnApplication) (m : ℕ) (c : Column) (hr : σ.com columnApplications application = some r)
      (hm : σ.com columns m = some c) (hc : c.applicationId = some application) :
    ColumnReviewed application reviewerId note σ
      (({} : Held).put columnApplications application (some (r.review true reviewerId note)))
  | approve (r : ColumnApplication) (m : ℕ) (c : Column) (k : Index)
      (hr : σ.com columnApplications application = some r) (hm : σ.com columns m = none)
      (hc : c.applicationId = some application) :
    ColumnReviewed application reviewerId note σ
      (((({} : Held).put columnApplications application (some (r.review true reviewerId note))).put columns m
        (some c)).take k)

theorem reviewApplication_spec {application reviewerId : ℕ} {approve : Bool} {note : Option String} :
    (discipline requests).wp i (reviewApplication application reviewerId approve note)
      (Returns fun a o τ => a = none ∧ ColumnReviewed application reviewerId note τ o) {} σ := by
  unfold reviewApplication
  refine wp_seq (P := fun _ o _ => o = {}) (wp_getOrRaise fun _ _ _ _ => rfl) ?_
  rintro row o σ rfl
  split_ifs with hstatus happrove
  · exact wp_fail _
  · refine wp_flushFirst fun r σ hr => ?_
    subst happrove
    refine wp_seq (P := fun _ o τ => ColumnReviewed application reviewerId note τ o) ?_ fun _ _ _ h =>
      wp_return ⟨rfl, h⟩
    unfold ensureColumnForApplication
    refine wp_bind (wp_select ?_)
    intro τ hl l hmem _
    have hr' : τ.com columnApplications application = some r := (hl.com_eq (Own.put_row_self _ _ _)).trans hr
    dsimp only
    cases hhead : l.head? with
    | some q =>
      obtain ⟨hv, hc⟩ := (hmem q.1 q.2).1 (List.mem_of_head? hhead)
      rw [Own.view_of_none (Own.put_row_of_ne _ _ _ (by simp))] at hv
      exact wp_return (.found r q.1 q.2 hr' hv (of_decide_eq_true hc))
    | none =>
      refine wp_bind (wp_insertUnique ?_ ?_)
      · intro υ _ _ _ _ _
        exact wp_fail Exn.conflict
      · intro υ hl' _
        refine wp_return (ColumnReviewed.approve r _ _ _ ?_ ?_ rfl)
        · exact (hl'.com_eq (Own.put_row_self _ _ _)).trans hr'
        · exact (hl'.fresh columns _ le_rfl).1
  · refine wp_flushFirst fun r σ hr => ?_
    have hreject : approve = false := by simpa using happrove
    subst hreject
    exact wp_return ⟨rfl, .reject r hr⟩

theorem ColumnReviewed.good {application reviewerId : ℕ} {note : Option String}
    (h : ColumnReviewed application reviewerId note σ o) (hl : (discipline requests).Later i o σ τ)
    (hpending : ∀ r, τ.com columnApplications application = some r → r.status = .pending) :
    (discipline requests).Good i o τ (τ.merge o) := by
  have hinv : Inv τ := hl.inv
  have hsame : ∀ t, t ≠ columnApplications → t ≠ columns → (τ.merge o).com t = τ.com t := by
    intro t ht ht'
    cases h with
    | reject r hr => rw [Snap.merge_put_other _ _ _ _ ht, Snap.merge_empty]
    | found r m c hr hm hc => rw [Snap.merge_put_other _ _ _ _ ht, Snap.merge_empty]
    | approve r m c k hr hm hc =>
      rw [Snap.merge_take, Snap.merge_put_other _ _ _ _ ht', Snap.merge_put_other _ _ _ _ ht, Snap.merge_empty]
  refine good_of ⟨?_, ?_, ?_, ?_⟩ (rely_of_same (hsame _ (by decide) (by decide)) (hsame _ (by decide) (by decide)) ?_)
  · rw [hsame _ (by decide) (by decide), hsame _ (by decide) (by decide)]
    exact hinv.admissions
  · rw [hsame _ (by decide) (by decide), hsame _ (by decide) (by decide)]
    exact hinv.boards
  · cases h with
    | reject r hr =>
      have hr' := (hl.com_eq (Own.put_row_self _ _ _)).trans hr
      rw [Snap.merge_put_self, Snap.merge_put_other _ _ _ _ (by decide), Snap.merge_empty]
      exact hinv.columns.reject hr' (hpending r hr') rfl rfl
    | found r m c hr hm hc =>
      -- a pending application has no column
      have hr' := (hl.com_eq (Own.put_row_self _ _ _)).trans hr
      have happroved := (hinv.columns.made application r hr').1 ⟨m, c, hl.rely.columnStays m c hm, hc⟩
      rw [hpending r hr'] at happroved
      cases happroved
    | approve r m c k hr hm hc =>
      have hr' : τ.com columnApplications application = some r :=
        (hl.com columnApplications application
          (by rw [Own.take_row, Own.put_row_other _ _ _ (by decide), Own.put_row_self]; simp)).trans hr
      have hm' : τ.com columns m = none := (hl.com_eq (Own.put_row_self _ _ _)).trans hm
      rw [Snap.merge_take, Snap.merge_put_other _ _ _ _ (by decide), Snap.merge_put_self, Snap.merge_put_self,
        Snap.merge_put_other _ _ _ _ (by decide), Snap.merge_empty]
      exact hinv.columns.approve hr' (hpending r hr') rfl rfl hm' hc
  · rw [hsame _ (by decide) (by decide)]
    exact hinv.articles
  · intro n c hc
    cases h with
    | reject r hr =>
      rw [Snap.merge_put_other _ _ _ _ (by decide), Snap.merge_empty]
      exact hc
    | found r m c' hr hm hc' =>
      rw [Snap.merge_put_other _ _ _ _ (by decide), Snap.merge_empty]
      exact hc
    | approve r m c' k hr hm hc' =>
      have hm' : τ.com columns m = none := (hl.com_eq (Own.put_row_self _ _ _)).trans hm
      have hn : n ≠ m := fun heq => by simp [heq, hm'] at hc
      rw [Snap.merge_take, Snap.merge_put_self, Function.update_of_ne hn, Snap.merge_put_other _ _ _ _ (by decide),
        Snap.merge_empty]
      exact hc

/-! ## Articles -/

def ArticleReviewed (approve : Bool) (now : ℕ) (o : Held) (σ : State) : Prop :=
  ∃ n a, σ.com articles n = some a ∧ o = ({} : Held).put articles n (some (a.review approve now))

theorem reviewArticle_spec {slug : String} {approve : Bool} {now : ℕ} :
    (discipline requests).wp i (reviewArticle slug approve now)
      (Returns fun b o τ => b = none ∧ ArticleReviewed approve now o τ) {} σ := by
  unfold reviewArticle
  refine wp_bind (wp_select ?_)
  intro τ _ l _ _
  dsimp only
  cases l.head? with
  | none => exact wp_fail _
  | some q =>
    dsimp only
    split_ifs
    · exact wp_fail _
    · refine wp_seq (wp_flushRow (P := fun _ o τ => ArticleReviewed approve now o τ) ?_) fun _ _ _ h =>
        wp_return ⟨rfl, h⟩
      intro υ a _ ha
      exact ⟨q.1, a, ha, rfl⟩

theorem Articles.review {article : ℕ → Option Article} {a : Article} {approve : Bool} {now : ℕ} (h : Articles article)
    (ha : article n = some a) (hpending : a.status = .pending) :
    Articles (Function.update article n (some (a.review approve now))) := by
  have honce := (h.once n a ha).decide hpending
  refine ⟨?_, ?_⟩
  · intro m b hb
    by_cases hm : m = n
    · subst hm
      obtain rfl : a.review approve now = b := by simpa using hb
      cases approve with
      | false => exact ⟨honce.1, fun hp => by simp [Article.review] at hp⟩
      | true => exact ⟨honce.1, fun hp => by simp [Article.review] at hp⟩
    · rw [Function.update_of_ne hm] at hb
      exact h.once m b hb
  · intro m b hb hpublished
    by_cases hm : m = n
    · subst hm
      obtain rfl : a.review approve now = b := by simpa using hb
      cases approve with
      | false => simp [Article.review] at hpublished
      | true => rfl
    · rw [Function.update_of_ne hm] at hb
      exact h.dated m b hb hpublished

theorem ArticleReviewed.good {approve : Bool} {now : ℕ} (h : ArticleReviewed approve now o σ)
    (hl : (discipline requests).Later i o σ τ)
    (hpending : ∀ n a, o.row articles n ≠ none → τ.com articles n = some a → a.status = .pending) :
    (discipline requests).Good i o τ (τ.merge o) := by
  obtain ⟨n, a, ha, rfl⟩ := h
  have hinv : Inv τ := hl.inv
  have ha' := (hl.com_eq (Own.put_row_self _ _ _)).trans ha
  have hsame : ∀ t, t ≠ articles → (τ.merge (({} : Held).put articles n (some (a.review approve now)))).com t = τ.com t := by
    intro t ht
    rw [Snap.merge_put_other _ _ _ _ ht, Snap.merge_empty]
  refine good_of ⟨?_, ?_, ?_, ?_⟩ (rely_of_same (hsame _ (by decide)) (hsame _ (by decide)) ?_)
  · rw [hsame _ (by decide), hsame _ (by decide)]
    exact hinv.admissions
  · rw [hsame _ (by decide), hsame _ (by decide)]
    exact hinv.boards
  · rw [hsame _ (by decide), hsame _ (by decide)]
    exact hinv.columns
  · rw [Snap.merge_put_self, Snap.merge_empty]
    exact hinv.articles.review ha' (hpending n a (by simp) ha')
  · intro m c hc
    rw [hsame _ (by decide)]
    exact hc

/-! ## Registrations -/

/-- sessions of a user are ended one by one: those that are still to come are in the list -/
structure Revoking (user : ℕ) (ns : List ℕ) (o : Held) (σ : State) : Prop where
  row : ∀ t, t ≠ users → t ≠ refreshTokens → o.row t = fun _ => none
  rejects : ∃ r r' : User, σ.com users user = some r ∧ o.row users = Function.update (fun _ => none) user (some (some r')) ∧
    r'.admissionStatus = .rejected ∧ r'.decisions = r.decisions + 1
  revoked : ∀ n v, o.row refreshTokens n = some v → ∃ t, v = some t ∧ t.revoked = true
  left : (∀ r, σ.com users user = some r → r.admissionStatus = .pending) → ∀ n t,
    o.view σ refreshTokens n = some t → t.isLiveOf user = true → n ∈ ns

theorem Revoking.later {user : ℕ} {ns : List ℕ} (h : Revoking user ns o σ)
    (hl : (discipline requests).Later i o σ τ) : Revoking user ns o τ := by
  obtain ⟨r, r', hr, husers, hstatus, hdecisions⟩ := h.rejects
  have hcom : τ.com users user = σ.com users user := hl.com_eq (by rw [husers, Function.update_self])
  refine ⟨h.row, ⟨r, r', hcom.trans hr, husers, hstatus, hdecisions⟩, h.revoked, ?_⟩
  rw [hcom]
  intro hpending n t hv hlive
  rcases Snap.merge_cases hv with hown | ⟨hown, hold⟩
  · exact h.left hpending n t (Own.view_of_row hown) hlive
  · rcases hl.rely.sessionOf n t user hold hlive with hold | ⟨r₁, hr₁, hactive⟩
    · exact h.left hpending n t ((Own.view_of_none hown).trans hold) hlive
    · rw [hcom] at hr₁
      rw [hpending r₁ hr₁] at hactive
      cases hactive

/-- the next session of the list is live no more -/
theorem Revoking.skip {user : ℕ} {ns : List ℕ} (h : Revoking user (n :: ns) o σ)
    (hdead : ∀ t, o.view σ refreshTokens n = some t → t.isLiveOf user = false) : Revoking user ns o σ := by
  refine ⟨h.row, h.rejects, h.revoked, ?_⟩
  intro hpending m t hv hlive
  rcases List.mem_cons.1 (h.left hpending m t hv hlive) with rfl | hmem
  · rw [hdead t hv] at hlive
    cases hlive
  · exact hmem

theorem Revoking.put {user : ℕ} {ns : List ℕ} (h : Revoking user (n :: ns) o σ) (t : RefreshToken) :
    Revoking user ns (o.put refreshTokens n (some t.revoke)) σ := by
  refine ⟨?_, ?_, ?_, ?_⟩
  · intro t' husers htokens
    rw [Own.put_row_other _ _ _ htokens]
    exact h.row t' husers htokens
  · rw [Own.put_row_other _ _ _ (by decide)]
    exact h.rejects
  · intro m v hv
    rw [Own.put_row_same] at hv
    split_ifs at hv with hm
    · exact ⟨t.revoke, (Option.some.inj hv).symm, rfl⟩
    · exact h.revoked m v hv
  · intro hpending m t' hv hlive
    by_cases hm : m = n
    · subst hm
      rw [Own.view_of_row (Own.put_row_self _ _ _)] at hv
      obtain rfl := Option.some.inj hv
      simp [RefreshToken.revoke, RefreshToken.isLiveOf] at hlive
    · have hrow : (o.put refreshTokens n (some t.revoke)).row refreshTokens m = o.row refreshTokens m :=
        Own.put_row_of_ne _ _ _ fun _ => hm
      have hview : o.view σ refreshTokens m = some t' := by
        rw [← hv, Own.view, Own.view, hrow]
      exact (List.mem_cons.1 (h.left hpending m t' hview hlive)).resolve_left hm

/-- induction on the list -/
theorem revokeAll_spec {user : ℕ} {ns : List ℕ} (h : Revoking user ns o σ) :
    (discipline requests).wp i (updateAll refreshTokens (·.isLiveOf user) RefreshToken.revoke ns : Op ℕ)
      (Returns fun _ o τ => Revoking user [] o τ) o σ := by
  induction ns generalizing o σ with
  | nil => exact wp_return h
  | cons n ns ih =>
    refine wp_seq (P := fun _ o τ => Revoking user ns o τ) (wp_updateRow ?_ ?_) ?_
    · intro τ hl hmiss
      exact (h.later hl).skip hmiss
    · intro τ t hl _ _
      exact (h.later hl).put t
    · intro _ o σ h'
      exact wp_seq (ih h') fun _ _ _ h'' => wp_return h''

theorem decideAdmission_spec {user reviewerId : ℕ} {approve : Bool} {reason : Option String} :
    (discipline requests).wp i (decideAdmission user approve reviewerId reason)
      (Returns fun a o τ => a = none ∧ ((∃ r, τ.com users user = some r ∧
        o = ({} : Held).put users user (some (r.approve reviewerId))) ∨ Revoking user [] o τ)) {} σ := by
  unfold decideAdmission
  refine wp_seq (P := fun _ o _ => o = {}) (wp_getOrRaise fun _ _ _ _ => rfl) ?_
  rintro row o σ rfl
  split_ifs with hstatus happrove
  · exact wp_fail _
  · exact wp_flushFirst fun r _ hr => wp_return ⟨rfl, .inl ⟨r, hr, rfl⟩⟩
  · -- what `bump_token_version` leaves, and what the flush within it reads
    refine wp_seq (P := fun _ o τ => o = {} ∨ ∃ r, τ.com users user = some r ∧
      o = ({} : Held).put users user (some r.bump)) (wp_updateRow ?_ ?_) ?_
    · intro τ _ _
      exact .inl rfl
    · intro τ r _ hr _
      exact .inr ⟨r, hr, rfl⟩
    intro _ o σ ho
    refine wp_seq (wp_flushRow (P := fun _ o τ => ∃ r r' : User, τ.com users user = some r ∧
      r'.admissionStatus = .rejected ∧ r'.decisions = r.decisions + 1 ∧ o = ({} : Held).put users user (some r')) ?_) ?_
    · intro τ r₁ hl hv
      rcases ho with rfl | ⟨r, hr, rfl⟩
      · exact ⟨r₁, r₁.reject reviewerId reason, hv, rfl, rfl, rfl⟩
      · rw [Own.view_of_row (Own.put_row_self _ _ _)] at hv
        obtain rfl := Option.some.inj hv
        exact ⟨r, r.bump.reject reviewerId reason, (hl.com_eq (Own.put_row_self _ _ _)).trans hr, rfl, rfl,
          Own.put_put _ _ _ _⟩
    rintro _ o σ ⟨r, r', hr, hrejected, hdecisions, rfl⟩
    refine wp_seq (P := fun _ o τ => Revoking user [] o τ) ?_ fun _ _ _ h => wp_return ⟨rfl, .inr h⟩
    unfold revokeAllForUser
    refine wp_bind (wp_select ?_)
    intro τ hl l hmem _
    refine revokeAll_spec ⟨?_, ⟨r, r', ?_, ?_, hrejected, hdecisions⟩, ?_, ?_⟩
    · intro t husers _
      rw [Own.put_row_other _ _ _ husers]
    · exact (hl.com_eq (Own.put_row_self _ _ _)).trans hr
    · funext m
      rw [Own.put_row_same, Function.update_apply]
    · intro n v hv
      rw [Own.put_row_other _ _ _ (by decide)] at hv
      cases hv
    · intro _ n t hv hlive
      exact List.mem_map.2 ⟨(n, t), (hmem n t).2 ⟨hv, hlive⟩, rfl⟩

/-- a decision on a user who is pending -/
theorem Admissions.decide {user : ℕ → Option User} {token token' : ℕ → Option RefreshToken} {r r' : User}
    (h : Admissions user token) (hr : user u = some r) (hpending : r.admissionStatus = .pending)
    (hdecisions : r'.decisions = r.decisions + 1) (hstatus : r'.admissionStatus ≠ .pending)
    (htoken : ∀ n t u', token' n = some t → t.isLiveOf u' = true → token n = some t)
    (hrejected : r'.admissionStatus = .rejected → ∀ n t, token' n = some t → t.isLiveOf u = false) :
    Admissions (Function.update user u (some r')) token' := by
  refine ⟨?_, ?_⟩
  · intro k q hq
    by_cases hk : k = u
    · subst hk
      obtain rfl : r' = q := by simpa using hq
      rw [hdecisions]
      exact ⟨((h.once k r hr).decide hpending).1, fun hp => absurd hp hstatus⟩
    · rw [Function.update_of_ne hk] at hq
      exact h.once k q hq
  · intro k q hq hrej n t ht
    by_cases hk : k = u
    · subst hk
      obtain rfl : r' = q := by simpa using hq
      exact hrejected hrej n t ht
    · rw [Function.update_of_ne hk] at hq
      by_contra hlive
      rw [Bool.not_eq_false] at hlive
      rw [h.noSession k q hq hrej n t (htoken n t k ht hlive)] at hlive
      cases hlive

/-- the parts of the state that a request on users and sessions leaves alone -/
theorem inv_of_admissions (hinv : Inv σ) (hsame : ∀ t, t ≠ users → t ≠ refreshTokens → o.row t = fun _ => none)
    (hadm : Admissions ((σ.merge o).com users) ((σ.merge o).com refreshTokens)) : Inv (σ.merge o) := by
  have hcom : ∀ t, t ≠ users → t ≠ refreshTokens → (σ.merge o).com t = σ.com t := by
    intro t husers htokens
    funext n
    exact Snap.merge_of_none (congrFun (hsame t husers htokens) n) σ
  refine ⟨hadm, ?_, ?_, ?_⟩
  · rw [hcom _ (by decide) (by decide), hcom _ (by decide) (by decide)]
    exact hinv.boards
  · rw [hcom _ (by decide) (by decide), hcom _ (by decide) (by decide)]
    exact hinv.columns
  · rw [hcom _ (by decide) (by decide)]
    exact hinv.articles

/-- a user who was pending is decided -/
theorem rely_decide {r r' : User} (hsame : ∀ t, t ≠ users → t ≠ refreshTokens → o.row t = fun _ => none)
    (husers : (σ.merge o).com users = Function.update (σ.com users) u (some r')) (hr : σ.com users u = some r)
    (hpending : r.admissionStatus = .pending)
    (htoken : ∀ n t u', (σ.merge o).com refreshTokens n = some t → t.isLiveOf u' = true →
      σ.com refreshTokens n = some t) : Rely σ (σ.merge o) where
  columnStays n c hc := by
    rw [Snap.merge_of_none (congrFun (hsame columns (by decide) (by decide)) n)]
    exact hc
  activeStays k q hq hactive := by
    have hk : k ≠ u := by
      intro heq
      rw [heq, hr] at hq
      obtain rfl := Option.some.inj hq
      rw [hpending] at hactive
      cases hactive
    exact ⟨q, by rw [husers, Function.update_of_ne hk]; exact hq, hactive⟩
  sessionOf n t k ht hlive := .inl (htoken n t k ht hlive)

theorem decideAdmission_good {user reviewerId : ℕ}
    (h : (∃ r, σ.com users user = some r ∧ o = ({} : Held).put users user (some (r.approve reviewerId))) ∨
      Revoking user [] o σ)
    (hl : (discipline requests).Later i o σ τ)
    (hpending : ∀ r, τ.com users user = some r → r.admissionStatus = .pending) :
    (discipline requests).Good i o τ (τ.merge o) := by
  have hinv : Inv τ := hl.inv
  rcases h with ⟨r, hr, rfl⟩ | h
  · have hr' := (hl.com_eq (Own.put_row_self _ _ _)).trans hr
    have hsame : ∀ t, t ≠ users → t ≠ refreshTokens →
        (({} : Held).put users user (some (r.approve reviewerId))).row t = fun _ => none := by
      intro t husers _
      rw [Own.put_row_other _ _ _ husers]
    have husers : (τ.merge (({} : Held).put users user (some (r.approve reviewerId)))).com users =
        Function.update (τ.com users) user (some (r.approve reviewerId)) := by
      rw [Snap.merge_put_self, Snap.merge_empty]
    have htokens : (τ.merge (({} : Held).put users user (some (r.approve reviewerId)))).com refreshTokens =
        τ.com refreshTokens := by
      rw [Snap.merge_put_other _ _ _ _ (by decide), Snap.merge_empty]
    refine good_of (inv_of_admissions hinv hsame ?_) (rely_decide hsame husers hr' (hpending r hr') ?_)
    · rw [husers, htokens]
      exact hinv.admissions.decide hr' (hpending r hr') rfl (by simp [User.approve]) (fun _ _ _ ht _ => ht)
        (by simp [User.approve])
    · intro n t _ ht _
      rw [← htokens]
      exact ht
  · have h := h.later hl
    obtain ⟨r, r', hr, hown, hstatus, hdecisions⟩ := h.rejects
    have husers : (τ.merge o).com users = Function.update (τ.com users) user (some r') := by
      funext m
      rw [Snap.merge_com, hown, Function.update_apply, Function.update_apply]
      split_ifs
      · rfl
      · rfl
    have htoken : ∀ n t u', (τ.merge o).com refreshTokens n = some t → t.isLiveOf u' = true →
        τ.com refreshTokens n = some t := by
      intro n t u' ht hlive
      rcases Snap.merge_cases ht with hrow | ⟨_, hcom⟩
      · obtain ⟨t', heq, hrevoked⟩ := h.revoked n _ hrow
        obtain rfl := Option.some.inj heq
        simp [RefreshToken.isLiveOf, hrevoked] at hlive
      · exact hcom
    refine good_of (inv_of_admissions hinv h.row ?_) (rely_decide h.row husers hr (hpending r hr) htoken)
    rw [husers]
    refine hinv.admissions.decide hr (hpending r hr) hdecisions (by simp [hstatus]) htoken ?_
    intro _ n t ht
    by_contra hlive
    rw [Bool.not_eq_false] at hlive
    exact absurd (h.left hpending n t ht hlive) List.not_mem_nil

/-! ## Logins -/

/-- a login has locked rows of users, and the live sessions that it has written are those of one user -/
structure Entering (user : ℕ) (o : Held) (σ : State) : Prop where
  row : ∀ t, t ≠ users → t ≠ refreshTokens → o.row t = fun _ => none
  locked : ∀ u v, o.row users u = some v → σ.com users u = v
  session : ∀ n v, o.row refreshTokens n = some v → ∃ t, v = some t ∧ ∀ u, t.isLiveOf u = true → u = user

def Active (user : ℕ) (σ : State) : Prop := ∃ r, σ.com users user = some r ∧ r.admissionStatus = .active

theorem Entering.empty (user : ℕ) (σ : State) : Entering user {} σ :=
  ⟨fun _ _ _ => rfl, (fun _ _ h => by cases h), (fun _ _ h => by cases h)⟩

theorem Entering.later {user : ℕ} (h : Entering user o σ) (hl : (discipline requests).Later i o σ τ) :
    Entering user o τ :=
  ⟨h.row, fun u v hv => (hl.com_eq hv).trans (h.locked u v hv), h.session⟩

theorem Entering.view {user : ℕ} (h : Entering user o σ) (u : ℕ) : o.view σ users u = σ.com users u := by
  cases hrow : o.row users u with
  | none => exact Own.view_of_none hrow
  | some v => rw [Own.view_of_row hrow, h.locked u v hrow]

theorem Entering.token {user : ℕ} (h : Entering user o σ) {t : RefreshToken} (ht : ∀ u, t.isLiveOf u = true → u = user) :
    Entering user (o.put refreshTokens n (some t)) σ := by
  refine ⟨?_, ?_, ?_⟩
  · intro t' husers htokens
    rw [Own.put_row_other _ _ _ htokens]
    exact h.row t' husers htokens
  · rw [Own.put_row_other _ _ _ (by decide)]
    exact h.locked
  · intro m v hv
    rw [Own.put_row_same] at hv
    split_ifs at hv with hm
    · exact ⟨t, (Option.some.inj hv).symm, ht⟩
    · exact h.session m v hv

theorem Entering.lock {user : ℕ} (h : Entering user o σ) {r : User} (hr : o.view σ users u = some r) :
    Entering user (o.put users u (some r)) σ := by
  refine ⟨?_, ?_, ?_⟩
  · intro t' husers htokens
    rw [Own.put_row_other _ _ _ husers]
    exact h.row t' husers htokens
  · intro k v hv
    rw [Own.put_row_same] at hv
    split_ifs at hv with hk
    · rw [hk, ← Option.some.inj hv, ← h.view u, hr]
    · exact h.locked k v hv
  · rw [Own.put_row_other _ _ _ (by decide)]
    exact h.session

theorem assertAdmissionAllowed_spec {row : User} {P : Unit → Held → State → Prop}
    (h : row.admissionStatus = .active → P () o σ) :
    (discipline requests).wp i (assertAdmissionAllowed row) (Returns P) o σ := by
  unfold assertAdmissionAllowed
  split
  · next hactive => exact wp_return (h hactive)
  · exact wp_fail _
  · exact wp_fail _

/-- what a session that is given out leaves -/
def SignedIn (answer : Option ℕ) (o : Held) (σ : State) : Prop := ∃ user, answer = some user ∧ Entering user o σ ∧ Active user σ

theorem issueSessionTokens_spec {user : ℕ} {row : User} (h : Entering user o σ) (hrow : σ.com users user = some row) :
    (discipline requests).wp i (issueSessionTokens user row) (Returns SignedIn) o σ := by
  unfold issueSessionTokens
  refine wp_seq (assertAdmissionAllowed_spec (P := fun _ o' σ' => o' = o ∧ σ' = σ ∧ row.admissionStatus = .active)
    fun hactive => ⟨rfl, rfl, hactive⟩) ?_
  rintro _ o' σ' ⟨rfl, rfl, hactive⟩
  refine wp_bind (wp_insert ?_)
  intro τ hl
  obtain ⟨r, hr, hactive'⟩ := hl.rely.activeStays user row hrow hactive
  have hnext : Entering user o' (τ.bump refreshTokens (τ.next refreshTokens)) :=
    ⟨(h.later hl).row, (h.later hl).locked, (h.later hl).session⟩
  refine wp_return ⟨user, rfl, hnext.token ?_, r, hr, hactive'⟩
  intro u hlive
  have huser : user = u ∧ True := by simpa [RefreshToken.isLiveOf] using hlive
  exact huser.1.symm

/-- the row is read again and the session given out -/
theorem reload_spec {user : ℕ} (h : Entering user o σ) :
    (discipline requests).wp i
      (getOrRaise users user .userNotFound >>= fun row => issueSessionTokens user row : Op (Option ℕ))
      (Returns SignedIn) o σ := by
  refine wp_seq (wp_getOrRaise (P := fun row o' τ => Entering user o' τ ∧ τ.com users user = some row) ?_) ?_
  · intro τ r hl hr
    exact ⟨h.later hl, (h.later hl).view user ▸ hr⟩
  · rintro row o' σ' ⟨h', hrow⟩
    exact issueSessionTokens_spec h' hrow

theorem loginPassword_spec {user : ℕ} {ok reset : Bool} :
    (discipline requests).wp i (loginPassword user ok reset) (Returns SignedIn) {} σ := by
  unfold loginPassword
  refine wp_seq (P := fun _ o _ => o = {}) (wp_getOrRaise fun _ _ _ _ => rfl) ?_
  rintro row o σ rfl
  split_ifs
  · refine wp_seq (P := fun _ o _ => o = {}) (assertAdmissionAllowed_spec fun _ => rfl) ?_
    rintro _ o σ rfl
    refine wp_seq (P := fun _ o τ => Entering user o τ) (wp_updateRow ?_ ?_) ?_
    · intro τ _ _
      exact Entering.empty user τ
    · intro τ r _ hr _
      exact (Entering.empty user τ).lock hr
    · intro _ o σ h
      exact reload_spec h
  · refine wp_seq (P := fun _ o _ => o = {}) (assertAdmissionAllowed_spec fun _ => rfl) ?_
    rintro _ o σ rfl
    exact reload_spec (Entering.empty user σ)
  · exact wp_fail _

theorem loginCode_spec {user : ℕ} {ok : Bool} :
    (discipline requests).wp i (loginCode user ok) (Returns SignedIn) {} σ := by
  unfold loginCode
  refine wp_seq (P := fun row o τ => o = {} ∧ τ.com users user = some row) (wp_getOrRaise fun _ _ _ hr => ⟨rfl, hr⟩) ?_
  rintro row o σ ⟨rfl, hrow⟩
  split_ifs
  · refine wp_seq (P := fun _ o σ => o = {} ∧ σ.com users user = some row)
      (assertAdmissionAllowed_spec fun _ => ⟨rfl, hrow⟩) ?_
    rintro _ o σ ⟨rfl, hrow⟩
    exact issueSessionTokens_spec (Entering.empty user σ) hrow
  · exact wp_fail _

theorem refreshAccessToken_spec {token : ℕ} :
    (discipline requests).wp i (refreshAccessToken token) (Returns SignedIn) {} σ := by
  unfold refreshAccessToken
  refine wp_bind (wp_updateRow ?_ ?_)
  · intro τ _ _
    exact wp_fail Exn.tokenInvalid
  · intro τ stored _ _ _
    have hentering : Entering stored.revoke.userId (({} : Held).put refreshTokens token (some stored.revoke)) τ := by
      refine (Entering.empty _ τ).token ?_
      intro u hlive
      simp [RefreshToken.revoke, RefreshToken.isLiveOf] at hlive
    refine wp_seq (wp_getOrRaise (P := fun row o' τ => Entering stored.revoke.userId o' τ ∧
      τ.com users stored.revoke.userId = some row) ?_) ?_
    · intro υ r hl hr
      exact ⟨hentering.later hl, (hentering.later hl).view _ ▸ hr⟩
    · rintro row o' σ' ⟨h', hrow⟩
      split_ifs
      · exact wp_fail _
      · exact issueSessionTokens_spec h' hrow

theorem SignedIn.later {answer : Option ℕ} (h : SignedIn answer o σ) (hl : (discipline requests).Later i o σ τ) :
    SignedIn answer o τ := by
  obtain ⟨user, hanswer, hentering, r, hr, hactive⟩ := h
  exact ⟨user, hanswer, hentering.later hl, hl.rely.activeStays user r hr hactive⟩

theorem Entering.merge {user : ℕ} (h : Entering user o σ) : (σ.merge o).com users = σ.com users := by
  funext u
  exact h.view u

theorem SignedIn.good {answer : Option ℕ} (h : SignedIn answer o σ) (hl : (discipline requests).Later i o σ τ) :
    (discipline requests).Good i o τ (τ.merge o) := by
  obtain ⟨user, -, hentering, r, hr, hactive⟩ := h.later hl
  have hinv : Inv τ := hl.inv
  have husers : (τ.merge o).com users = τ.com users := hentering.merge
  have htoken : ∀ n t u, (τ.merge o).com refreshTokens n = some t → t.isLiveOf u = true →
      τ.com refreshTokens n = some t ∨ u = user := by
    intro n t u ht hlive
    rcases Snap.merge_cases ht with hrow | ⟨_, hcom⟩
    · obtain ⟨t', heq, hlives⟩ := hentering.session n _ hrow
      obtain rfl := Option.some.inj heq
      exact .inr (hlives u hlive)
    · exact .inl hcom
  refine good_of (inv_of_admissions hinv hentering.row ⟨?_, ?_⟩) ⟨?_, ?_, ?_⟩
  · rw [husers]
    exact hinv.admissions.once
  · intro u q hq hrejected n t ht
    rw [husers] at hq
    by_contra hlive
    rw [Bool.not_eq_false] at hlive
    rcases htoken n t u ht hlive with hcom | rfl
    · rw [hinv.admissions.noSession u q hq hrejected n t hcom] at hlive
      cases hlive
    · rw [hr] at hq
      obtain rfl := Option.some.inj hq
      rw [hactive] at hrejected
      cases hrejected
  · intro n c hc
    rw [Snap.merge_of_none (congrFun (hentering.row columns (by decide) (by decide)) n)]
    exact hc
  · intro u q hq hactive'
    exact ⟨q, by rw [husers]; exact hq, hactive'⟩
  · intro n t u ht hlive
    rcases htoken n t u ht hlive with hcom | rfl
    · exact .inl hcom
    · exact .inr ⟨r, by rw [husers]; exact hr, hactive⟩

/-! ## Requests -/

/-- the user of a session that has been given out is active -/
def Given (answer : Option ℕ) (σ : State) : Prop := ∀ user, answer = some user → Active user σ

theorem body_spec {P : Option ℕ → Held → State → Prop} {p : Op (Option ℕ)}
    (h : (discipline requests).wp i p (Returns P) {} σ)
    (hgood : ∀ a o' τ υ, P a o' τ → (discipline requests).Later i o' τ υ → StillPending o' υ (requests i) →
      (discipline requests).Good i o' υ (υ.merge o') ∧ Given a (υ.merge o')) :
    (discipline requests).wp i (transaction p) (fun r _ τ => ∀ a, r = .ok a → Given a τ) {} σ := by
  refine wp_transactionEnds h ?_ ?_
  · intro a o' τ hP υ hl hok
    obtain ⟨hg, hgiven⟩ := hgood a o' τ υ hP hl hok
    refine ⟨hg, ?_⟩
    intro b hb
    obtain rfl := Except.ok.inj hb
    exact hgiven
  · intro x τ a ha
    cases ha

theorem review_given {o' : Held} (h : (discipline requests).Good i o' υ (υ.merge o')) {a : Option ℕ} (ha : a = none) :
    (discipline requests).Good i o' υ (υ.merge o') ∧ Given a (υ.merge o') := by
  refine ⟨h, ?_⟩
  intro user huser
  rw [ha] at huser
  cases huser

theorem login_given {o' : Held} {a : Option ℕ} (h : SignedIn a o' τ) (hl : (discipline requests).Later i o' τ υ) :
    (discipline requests).Good i o' υ (υ.merge o') ∧ Given a (υ.merge o') := by
  refine ⟨h.good hl, ?_⟩
  intro user huser
  obtain ⟨user', huser', hentering, r, hr, hactive⟩ := h.later hl
  obtain rfl : user' = user := Option.some.inj (huser'.symm.trans huser)
  exact ⟨r, by rw [hentering.merge]; exact hr, hactive⟩

/-- every request keeps the discipline, whichever way it ends -/
theorem request_spec : (discipline requests).wp i (requests i).prog (fun r _ τ => ∀ a, r = .ok a → Given a τ) {} σ := by
  unfold Request.prog
  cases hr : requests i with
  | decideAdmission user approve reviewerId reason =>
    refine body_spec decideAdmission_spec ?_
    intro a o' τ υ ⟨ha, h⟩ hl hok
    rw [hr] at hok
    exact review_given (decideAdmission_good h hl hok) ha
  | loginPassword user ok reset => exact body_spec loginPassword_spec fun _ _ _ _ h hl _ => login_given h hl
  | loginCode user ok => exact body_spec loginCode_spec fun _ _ _ _ h hl _ => login_given h hl
  | refreshAccessToken token => exact body_spec refreshAccessToken_spec fun _ _ _ _ h hl _ => login_given h hl
  | reviewBoardApplication application reviewerId approve note =>
    refine body_spec reviewBoardApplication_spec ?_
    intro a o' τ υ ⟨ha, h⟩ hl hok
    rw [hr] at hok
    exact review_given (h.good hl hok) ha
  | reviewApplication application reviewerId approve note =>
    refine body_spec reviewApplication_spec ?_
    intro a o' τ υ ⟨ha, h⟩ hl hok
    rw [hr] at hok
    exact review_given (h.good hl hok) ha
  | reviewArticle slug approve now =>
    refine body_spec reviewArticle_spec ?_
    intro a o' τ υ ⟨ha, h⟩ hl hok
    rw [hr] at hok
    exact review_given (h.good hl hok) ha

/-! ## Runs -/

def init (d : Store) (requests : ℕ → Request) : World (Stmt Row Index Fx) Store Exn (Option ℕ) :=
  start d fun i => (requests i).prog

/-- undecided applications are pending, decided ones have what belongs to them, and no transaction is open -/
structure Starts (d : Store) : Prop where
  inv : Inv d.snap
  own : ∀ i, d.own i = {}

def cellsOf (d : Store) (t : Tbl) : List (Cell (Row t)) := (List.range (d.tab t).next).map (d.cell t)

/-- a decision that commits finds its application still pending -/
def decidesPending (requests : ℕ → Request) (w : World (Stmt Row Index Fx) Store Exn (Option ℕ)) : Move → Bool
  | .crash _ => true
  | .run i => !committing w i ||
    match requests i with
    | .decideAdmission user _ _ _ => (w.st.cell users user).committed.all (·.admissionStatus = .pending)
    | .reviewBoardApplication application _ _ _ =>
      (w.st.cell boardApplications application).committed.all (·.status = .pending)
    | .reviewApplication application _ _ _ =>
      (w.st.cell columnApplications application).committed.all (·.status = .pending)
    | .reviewArticle _ _ _ =>
      (cellsOf w.st articles).all fun c => (c.mine i).isNone || c.committed.all (·.status = .pending)
    | _ => true

theorem stepOk_of_decidesPending {w : World (Stmt Row Index Fx) Store Exn (Option ℕ)} {m : Move}
    (h : decidesPending requests w m = true) : (discipline requests).protocol.stepOk w m := by
  refine stepOk_of_committing ?_
  intro i hm hcommitting
  subst hm
  change StillPending (w.st.own i) w.st.snap (requests i)
  simp only [decidesPending, hcommitting, Bool.not_true, Bool.false_or] at h
  unfold StillPending
  split
  · next user _ _ _ hreq =>
    rw [hreq] at h
    intro r hr
    exact of_decide_eq_true ((Option.all_eq_true _ _).1 h r hr)
  · next application _ _ _ hreq =>
    rw [hreq] at h
    intro r hr
    exact of_decide_eq_true ((Option.all_eq_true _ _).1 h r hr)
  · next application _ _ _ hreq =>
    rw [hreq] at h
    intro r hr
    exact of_decide_eq_true ((Option.all_eq_true _ _).1 h r hr)
  · next slug _ _ hreq =>
    rw [hreq] at h
    intro n a hown ha
    have hmem : w.st.cell articles n ∈ cellsOf w.st articles :=
      List.mem_map_of_mem (List.mem_range.2 (w.st.lt_of_com ha))
    have hcell := List.all_eq_true.1 h _ hmem
    rw [Bool.or_eq_true] at hcell
    rcases hcell with hnone | hall
    · exact absurd (Option.isNone_iff_eq_none.1 hnone) hown
    · exact of_decide_eq_true ((Option.all_eq_true _ _).1 hall a ha)
  · trivial

theorem safe_init {d : Store} (h : Starts d) : (discipline requests).protocol.Safe (init d requests) := by
  refine safe_start h.inv (fun _ => trivial) h.own ?_
  intro i
  exact wp_mono request_spec fun _ _ _ _ => trivial

/-- one application of each kind -/
def desk : Store :=
  { tab := fun t =>
      match t with
      | .users => Table.ofList [{ admissionStatus := .pending }]
      | .boardApplications => Table.ofList [{ applicantId := 0, slug := "b", title := "B", description := "" }]
      | .columnApplications => Table.ofList [{ userId := 0, title := "C", description := "" }]
      | .articles => Table.ofList [{ slug := "a", status := .pending }]
      | _ => {}
    ext := () }

/-- each is approved by one request and rejected by another, and the user tries to log in -/
def deskRequests : ℕ → Request
  | 0 => .decideAdmission 0 true 7 none
  | 1 => .decideAdmission 0 false 8 none
  | 2 => .loginCode 0 true
  | 3 => .reviewBoardApplication 0 7 true none
  | 4 => .reviewBoardApplication 0 8 false none
  | 5 => .reviewApplication 0 7 true none
  | 6 => .reviewApplication 0 8 false none
  | 7 => .reviewArticle "a" true 100
  | _ => .reviewArticle "a" false 100

theorem starts_desk : Starts desk where
  inv := by
    have hrow : ∀ {R : Type} {r r₀ : R} {n : ℕ}, ((Table.ofList [r₀]).cell n).committed = some r → r = r₀ := by
      intro R r r₀ n h
      exact List.mem_singleton.1 (List.mem_of_getElem? h)
    refine ⟨⟨?_, ?_⟩, ⟨?_, ?_⟩, ⟨?_, ?_⟩, ⟨?_, ?_⟩⟩
    · intro u r hr
      rw [hrow hr]
      exact ⟨Nat.zero_le 1, fun _ => rfl⟩
    · intro u r hr hrejected
      rw [hrow hr] at hrejected
      cases hrejected
    · intro a r hr
      rw [hrow hr]
      exact ⟨Nat.zero_le 1, fun _ => rfl⟩
    · intro a r hr
      rw [hrow hr]
      refine iff_of_false ?_ (by decide)
      intro ⟨m, b, hb, _⟩
      cases hb
    · intro a r hr
      rw [hrow hr]
      exact ⟨Nat.zero_le 1, fun _ => rfl⟩
    · intro a r hr
      rw [hrow hr]
      refine iff_of_false ?_ (by decide)
      intro ⟨m, c, hc, _⟩
      cases hc
    · intro n a ha
      rw [hrow ha]
      exact ⟨Nat.zero_le 1, fun _ => rfl⟩
    · intro n a ha hpublished
      rw [hrow ha] at hpublished
      cases hpublished
  own i := by
    refine Own.ext (funext fun t => funext fun n => ?_) (funext fun k => propext ?_)
    · cases t <;> rfl
    · simp [Db.own, desk]

/-- one after the other -/
def orderly : List Move := (List.range 9).flatMap (moves · 12)

/-- four requests have read their application before the other four decide it -/
def late : List Move :=
  [1, 4, 6, 8].map Move.run ++ [0, 3, 5, 7].flatMap (moves · 12) ++ [.run 2] ++ [1, 2, 4, 6, 8].flatMap (moves · 12)

end LkmService.Reviews
