/-
What the versions of the articles are worth (`update_cas` and the flushes beside it).

The update compares and raises the version in one UPDATE; republication, review and soft deletion write the same columns
by a flush and leave the version. An update that carries the version of a read before such a flush is applied over it
(`lost_edit`).

- `NoLostEdit`: the law, for a run.
- `no_lost_edit_iff`: it holds exactly in the runs in which no other request commits a change of the fields.
- `refused_unchanged`: a refused update leaves everything as it was, in every run.
-/
import LkmService.Articles.Model

namespace LkmService.Articles

open Session Sql Sql.Discipline Tbl

abbrev State := Snap Row Unit

abbrev Held := Own Row Index

variable {requests : ℕ → Request} {r : Request} {i n : ℕ} {o : Held} {σ τ : State} {α γ : Type}

/-! ## What a request does to an article -/

def Request.isUpdate : Request → Bool
  | .updateArticleEx _ _ _ => true
  | _ => false

/-- the version that an update carries -/
def Request.expected : Request → Option ℕ
  | .updateArticleEx _ patch _ => patch.version
  | _ => none

/-- only the update raises the version, and only from the one it carries -/
structure Edit (r : Request) (a b : Article) : Prop where
  update : r.isUpdate = true → b.version = a.version + 1 ∧ ∀ v, r.expected = some v → a.version = v
  other : r.isUpdate = false → b.version = a.version

/-- of the articles that a session has written -/
def Edited (r : Request) (o : Held) (σ : State) : Prop :=
  ∀ n v, o.row articles n = some v → ∃ b, v = some b ∧ ∀ a, σ.com articles n = some a → Edit r a b

/-- what a session holds while it has written nothing -/
def Untouched (o : Held) (_ : State) : Prop := o = {}

/-- what the others cannot undo -/
def Lasting (P : Held → State → Prop) : Prop :=
  ∀ o σ τ, (∀ t n, o.row t n ≠ none → τ.com t n = σ.com t n) → P o σ → P o τ

theorem edited_lasting (r : Request) : Lasting (Edited r) := by
  intro o σ τ hcom h n v hv
  obtain ⟨b, hb, hedit⟩ := h n v hv
  refine ⟨b, hb, fun a ha => hedit a ?_⟩
  rwa [hcom articles n (by simp [hv])] at ha

theorem untouched_lasting : Lasting Untouched := fun _ _ _ _ h => h

theorem edited_empty (r : Request) (σ : State) : Edited r {} σ := by
  intro n v hv
  simp at hv

/-! ## Programs that keep what holds of the session -/

/-- at the end of a program: a refusal can only come from the comparison of the versions -/
def Kept (P : Held → State → Prop) : Except Exn α → Held → State → Prop
  | .ok _ => P
  | .error e => fun _ _ => ∀ c, e ≠ .versionConflict c

/-- the program leaves the end of the transaction to its caller, and what holds of the session before it holds after -/
structure Keeps (P : Held → State → Prop) (p : Op α) : Prop where
  plain : Plain p
  wp : ∀ i o σ, P o σ → free.wp i p (Kept P) o σ

section Keeps

variable {P : Held → State → Prop}

theorem keeps_pure (a : α) : Keeps P (pure a) := ⟨plain_pure a, fun _ _ _ h => wp_pure h⟩

theorem keeps_raise {e : Exn} (h : ∀ c, e ≠ .versionConflict c) : Keeps P (.raise e : Op α) :=
  ⟨plain_raise e, fun _ _ _ _ => wp_raise e h⟩

theorem keeps_bind {p : Op γ} {f : γ → Op α} (hp : Keeps P p) (hf : ∀ a, Keeps P (f a)) : Keeps P (p >>= f) := by
  refine ⟨plain_bind hp.plain fun a => (hf a).plain, fun i o σ h => ?_⟩
  refine wp_bind (wp_mono (hp.wp i o σ h) fun res o' τ hres => ?_)
  cases res with
  | ok a => exact (hf a).wp i o' τ hres
  | error e => exact hres

theorem keeps_select (hP : Lasting P) (t : Tbl) (p : ℕ → Row t → Bool) : Keeps P (select t p) :=
  ⟨plain_select t p, fun _ o σ h => wp_select fun τ hl _ _ _ => hP o σ τ hl.com h⟩

theorem keeps_query (hP : Lasting P) (f : ((t : Tbl) → List (ℕ × Row t)) → α) : Keeps P (query f) :=
  ⟨plain_query f, fun _ o σ h => wp_query fun τ hl _ _ _ => hP o σ τ hl.com h⟩

theorem keeps_articleToDetail (hP : Lasting P) (n : ℕ) (a : Article) : Keeps P (articleToDetail n a) :=
  keeps_bind (keeps_query hP _) fun _ => keeps_bind (keeps_select hP _ _) fun _ => keeps_pure _

theorem keeps_getBySlug (hP : Lasting P) (slug : String) : Keeps P (getBySlug slug) :=
  keeps_bind (keeps_select hP _ _) fun _ => keeps_pure _

theorem keeps_getArticle (hP : Lasting P) (slug : String) : Keeps P (getArticle slug) := by
  refine keeps_bind (keeps_getBySlug hP slug) fun q => ?_
  cases q with
  | none => exact keeps_raise fun _ => nofun
  | some q => exact keeps_pure q

theorem keeps_resolveCategoryId (hP : Lasting P) (slug : String) : Keeps P (resolveCategoryId slug) := by
  refine keeps_bind (keeps_select hP _ _) fun rows => ?_
  cases rows.head? with
  | none => exact keeps_raise fun _ => nofun
  | some q => exact keeps_pure q.1

theorem keeps_requireCategory (hP : Lasting P) (category : ℕ) : Keeps P (requireCategory category) := by
  refine keeps_bind (keeps_select hP _ _) fun rows => ?_
  split_ifs
  · exact keeps_raise fun _ => nofun
  · exact keeps_pure ()

end Keeps

/-! ## The tags -/

/-- a write to another table -/
theorem Edited.put_other (h : Edited r o σ) {t : Tbl} (ht : t ≠ articles) (m : ℕ) (v : Option (Row t)) :
    Edited r (o.put t m v) σ := by
  intro n w hw
  rw [Own.put_row_other t m v ht.symm] at hw
  exact h n w hw

theorem keeps_insertUnique {t : Tbl} (ht : t ≠ articles) (k : Index) (clash : Row t → Bool) (row : Row t) :
    Keeps (Edited r) (insertUnique t k clash row) := by
  refine ⟨plain_insertUnique t k clash row, fun i o σ h => ?_⟩
  refine wp_insertUnique (fun τ _ _ hl _ _ => edited_lasting r o σ τ hl.com h) fun τ hl _ => ?_
  exact (edited_lasting r o σ τ hl.com h).put_other ht _ _

theorem keeps_deleteIf {t : Tbl} (ht : t ≠ articles) (m : ℕ) (p : Row t → Bool) :
    Keeps (Edited r) (deleteIf t m p) := by
  refine ⟨plain_deleteIf t m p, fun i o σ h => ?_⟩
  refine wp_deleteIf (fun τ hl _ => edited_lasting r o σ τ hl.com h) fun τ _ hl _ _ => ?_
  exact (edited_lasting r o σ τ hl.com h).put_other ht _ _

theorem keeps_nameToId (names : List String) : Keeps (Edited r) (nameToId names) := by
  rw [nameToId]
  split_ifs
  · exact keeps_raise fun _ => nofun
  · exact keeps_bind (keeps_select (edited_lasting r) _ _) fun _ => keeps_pure _

theorem keeps_upsertTags (names : List String) : Keeps (Edited r) (upsertTags names) := by
  induction names with
  | nil => exact keeps_pure ()
  | cons n ns ih =>
    rw [upsertTags]
    cases stored n with
    | none => exact keeps_raise fun _ => nofun
    | some name => exact keeps_bind (keeps_insertUnique (by decide) _ _ _) fun _ => ih

theorem keeps_lookupIds (ids : List (String × ℕ)) (names : List String) : Keeps (Edited r) (lookupIds ids names) := by
  induction names with
  | nil => exact keeps_pure []
  | cons n ns ih =>
    rw [lookupIds]
    cases ids.lookup n with
    | none => exact keeps_raise fun _ => nofun
    | some id => exact keeps_bind ih fun _ => keeps_pure _

theorem keeps_deleteTags (p : ArticleTag → Bool) (ms : List ℕ) : Keeps (Edited r) (deleteTags p ms) := by
  induction ms with
  | nil => exact keeps_pure ()
  | cons m ms ih => exact keeps_bind (keeps_deleteIf (t := articleTag) (by decide) m p) fun _ => ih

/-- the links are read and the old ones deleted, whatever the lookup of the tags has found -/
theorem keeps_replaceLinks (n : ℕ) (ordered : List String) (ids : List (String × ℕ)) :
    Keeps (Edited r) (do
      let tagIds ← lookupIds ids ordered
      let rows ← select articleTag fun _ l => decide (l.articleId = n) && tagIds.contains l.tagId
      let old ← select articleTag fun _ l => decide (l.articleId = n) && !tagIds.contains l.tagId
      deleteTags (fun l => decide (l.articleId = n) && !tagIds.contains l.tagId) (old.map Prod.fst)
      pure (tagIds.filter fun id => !(rows.map fun q => q.2.tagId).contains id)) := by
  refine keeps_bind (keeps_lookupIds ids ordered) fun tagIds => ?_
  refine keeps_bind (keeps_select (edited_lasting r) _ _) fun rows => ?_
  refine keeps_bind (keeps_select (edited_lasting r) _ _) fun old => ?_
  exact keeps_bind (keeps_deleteTags _ _) fun _ => keeps_pure _

theorem keeps_syncForArticle (n : ℕ) (names : List String) {flush : Op Unit} (hflush : Keeps (Edited r) flush) :
    Keeps (Edited r) (syncForArticle n names flush) := by
  rw [syncForArticle]
  dsimp only
  split_ifs with hnames
  · exact keeps_pure []
  · refine keeps_bind (keeps_nameToId _) fun found => ?_
    split_ifs
    · exact keeps_bind (keeps_pure found) fun ids => keeps_replaceLinks n _ ids
    · refine keeps_bind (keeps_upsertTags _) fun _ => keeps_bind hflush fun _ => ?_
      exact keeps_bind (keeps_nameToId _) fun ids => keeps_replaceLinks n _ ids

theorem keeps_flushLinks (n : ℕ) (ids : List ℕ) : Keeps (Edited r) (flushLinks n ids) := by
  induction ids with
  | nil => exact keeps_pure ()
  | cons id ids ih =>
    refine keeps_bind (keeps_insertUnique (by decide) _ _ _) fun q => ?_
    cases q with
    | none => exact keeps_raise fun _ => nofun
    | some _ => exact ih

/-! ## The requests that flush -/

/-- a flush leaves the version, of the row in sight and so of the committed one -/
theorem keeps_flushArticle (hr : r.isUpdate = false) (n : ℕ) (a b : Article) (now : ℕ) :
    Keeps (Edited r) (flushArticle n a b now) := by
  have hupdate : Keeps (Edited r) (updateRow articles n (fun _ => true) (Article.assign a b now)) := by
    refine ⟨plain_updateRow _ _ _ _, fun i o σ h => ?_⟩
    refine wp_updateRow (fun τ hl _ => edited_lasting r o σ τ hl.com h) fun τ row hl hview _ => ?_
    have hlast := edited_lasting r o σ τ hl.com h
    intro m v hv
    by_cases hm : m = n
    · subst hm
      rw [Own.put_row_self, Option.some.injEq] at hv
      refine ⟨_, hv.symm, fun c hc => ⟨fun hu => by simp [hr] at hu, fun _ => ?_⟩⟩
      change row.version = c.version
      rcases hown : o.row articles m with _ | w
      · rw [Own.view_of_none hown, hc, Option.some.injEq] at hview
        rw [hview]
      · obtain ⟨b', rfl, hedit⟩ := hlast m w hown
        rw [Own.view_of_row hown, Option.some.injEq] at hview
        rw [← hview]
        exact (hedit c hc).other hr
    · rw [Own.put_row_of_ne _ _ _ fun _ => hm] at hv
      exact hlast m v hv
  rw [flushArticle]
  split_ifs
  · exact keeps_pure ()
  · refine keeps_bind hupdate fun q => ?_
    cases q with
    | none => exact keeps_raise fun _ => nofun
    | some _ => exact keeps_pure ()

/-- a new article has the number of no committed one -/
theorem keeps_insertArticle (k : Index) (clash : Article → Bool) (row : Article) :
    Keeps (Edited r) (insertUnique articles k clash row) := by
  refine ⟨plain_insertUnique _ _ _ _, fun i o σ h => ?_⟩
  refine wp_insertUnique (fun τ _ _ hl _ _ => edited_lasting r o σ τ hl.com h) fun τ hl _ => ?_
  have hlast := edited_lasting r o σ τ hl.com h
  intro m v hv
  rw [Own.take_row] at hv
  by_cases hm : m = τ.next articles
  · subst hm
    rw [Own.put_row_self, Option.some.injEq] at hv
    refine ⟨row, hv.symm, fun c hc => ?_⟩
    have hfresh := (hl.fresh articles (τ.next articles) (Nat.le_refl _)).1
    rw [Snap.bump_com, hfresh] at hc
    cases hc
  · rw [Own.put_row_of_ne _ _ _ fun _ => hm] at hv
    exact hlast m v hv

theorem keeps_createArticle {slug title category content : String} {published : Option ℕ} {description : Option String}
    {names : List String} {now : ℕ} (hr : r.isUpdate = false) :
    Keeps (Edited r) (createArticle slug title category content published description names now) := by
  refine keeps_bind (keeps_getBySlug (edited_lasting r) slug) fun q => ?_
  cases q with
  | some q =>
    refine keeps_bind (keeps_resolveCategoryId (edited_lasting r) category) fun categoryId => ?_
    refine keeps_bind (keeps_syncForArticle _ _ (keeps_flushArticle hr _ _ _ _)) fun links => ?_
    refine keeps_bind (keeps_flushArticle hr _ _ _ _) fun _ => ?_
    exact keeps_bind (keeps_flushLinks _ _) fun _ => keeps_pure _
  | none =>
    refine keeps_bind (keeps_resolveCategoryId (edited_lasting r) category) fun categoryId => ?_
    refine keeps_bind (keeps_insertArticle _ _ _) fun inserted => ?_
    cases inserted with
    | none => exact keeps_raise fun _ => nofun
    | some n =>
      refine keeps_bind (keeps_syncForArticle _ _ (keeps_pure ())) fun links => ?_
      exact keeps_bind (keeps_flushLinks _ _) fun _ => keeps_pure _

theorem keeps_softDeleteArticle (hr : r.isUpdate = false) (slug : String) (now : ℕ) :
    Keeps (Edited r) (softDeleteArticle slug now) := by
  refine keeps_bind (keeps_getArticle (edited_lasting r) slug) fun q => ?_
  refine keeps_bind (keeps_flushArticle hr _ _ _ _) fun _ => ?_
  exact keeps_articleToDetail (edited_lasting r) _ _

theorem keeps_reviewArticle (hr : r.isUpdate = false) (slug : String) (approve : Bool) (now : ℕ) :
    Keeps (Edited r) (reviewArticle slug approve now) := by
  refine keeps_bind (keeps_getArticle (edited_lasting r) slug) fun q => ?_
  dsimp only
  split_ifs
  · exact keeps_raise fun _ => nofun
  all_goals
    refine keeps_bind (keeps_flushArticle hr _ _ _ _) fun _ => ?_
    exact keeps_articleToDetail (edited_lasting r) _ _

/-! ## The update -/

/-- at the end of an update: who is refused has written nothing -/
def Settled (r : Request) : Except Exn α → Held → State → Prop
  | .ok _ => Edited r
  | .error (.versionConflict _) => Untouched
  | .error _ => fun _ _ => True

theorem Settled.of_error {e : Exn} (h : Settled r (.error e : Except Exn γ) o σ) :
    Settled r (.error e : Except Exn α) o σ := by
  cases e with
  | versionConflict c => exact h
  | _ => trivial

theorem Untouched.edited (h : Untouched o σ) : Edited r o σ := by
  rw [Untouched] at h
  subst h
  exact edited_empty r σ

theorem Kept.settled {P : Held → State → Prop} {res : Except Exn α} (hP : ∀ o σ, P o σ → Edited r o σ)
    (h : Kept P res o σ) : Settled r res o σ := by
  rcases res with e | a
  · cases e with
    | versionConflict c => exact absurd rfl (h c)
    | _ => trivial
  · exact hP o σ h

/-- a program of an update, from its beginning -/
structure Settles (r : Request) (p : Op α) : Prop where
  plain : Plain p
  wp : ∀ i σ, free.wp i p (Settled r) {} σ

/-- what only reads, before the rest of an update -/
theorem settles_bind {p : Op γ} {f : γ → Op α} (hp : Keeps Untouched p) (hf : ∀ a, Settles r (f a)) :
    Settles r (p >>= f) := by
  refine ⟨plain_bind hp.plain fun a => (hf a).plain, fun i σ => ?_⟩
  refine wp_bind (wp_mono (hp.wp i {} σ rfl) fun res o' τ hres => ?_)
  cases res with
  | ok a =>
    obtain rfl : o' = {} := hres
    exact (hf a).wp i τ
  | error e => exact (hres.settled fun _ _ => Untouched.edited).of_error

/-- what follows once the comparison is behind -/
theorem Keeps.settled {p : Op α} (hp : Keeps (Edited r) p) (h : Edited r o σ) : free.wp i p (Settled r) o σ :=
  wp_mono (hp.wp i o σ h) fun _ _ _ hres => hres.settled fun _ _ => id

theorem settles_then {p : Op γ} {f : γ → Op α} (hp : Settles r p) (hf : ∀ a, Keeps (Edited r) (f a)) :
    Settles r (p >>= f) := by
  refine ⟨plain_bind hp.plain fun a => (hf a).plain, fun i σ => ?_⟩
  refine wp_bind (wp_mono (hp.wp i σ) fun res o' τ hres => ?_)
  cases res with
  | ok a => exact (hf a).settled hres
  | error e => exact hres.of_error

/-- the row that the UPDATE found is the committed one: its version is the expected one, and goes up by one -/
theorem edited_updateCas {a : Article} (values : Article → Article) (now : ℕ) (hr : r.isUpdate = true)
    (ha : σ.com articles n = some a) (hexp : (r.expected.all fun v => decide (a.version = v)) = true) :
    Edited r (({} : Held).put articles n (some { values a with version := a.version + 1, updatedAt := now })) σ := by
  intro m v hv
  by_cases hm : m = n
  · subst hm
    rw [Own.put_row_self, Option.some.injEq] at hv
    refine ⟨_, hv.symm, fun c hc => ⟨fun _ => ⟨?_, fun v hv => ?_⟩, fun hu => by simp [hr] at hu⟩⟩
    · rw [ha, Option.some.injEq] at hc
      rw [hc]
    · rw [ha, Option.some.injEq] at hc
      simpa [hv, hc] using hexp
  · rw [Own.put_row_of_ne _ _ _ fun _ => hm] at hv
    simp at hv

/-- the refreshed row is returned as it is read -/
theorem keeps_refresh {f : List (ℕ × Article) → Op Article} (hnone : ∀ rows, rows.head? = none → f rows = .raise .staleData)
    (hsome : ∀ rows q, rows.head? = some q → f rows = pure q.2) :
    Keeps (Edited r) (select articles (fun m _ => decide (m = n)) >>= f) := by
  refine keeps_bind (keeps_select (edited_lasting r) _ _) fun rows => ?_
  rcases hrows : rows.head? with _ | q
  · rw [hnone rows hrows]
    exact keeps_raise fun _ => nofun
  · rw [hsome rows q hrows]
    exact keeps_pure q.2

theorem settles_updateCas (n : ℕ) (values : Article → Article) (now : ℕ) (hr : r.isUpdate = true) :
    Settles r (updateCas n r.expected values now) := by
  refine ⟨plain_bind (plain_updateRow _ _ _ _) fun q => ?_, fun i σ => wp_bind (wp_updateRow ?_ ?_)⟩
  · cases q with
    | none => exact plain_bind (plain_select _ _) fun _ => plain_raise _
    | some _ => exact (keeps_refresh (r := r) (fun rows hrows => by rw [hrows]) fun rows q hrows => by rw [hrows]).plain
  · intro τ _ _
    exact wp_bind (wp_select fun υ _ rows _ _ => wp_raise _ rfl)
  · intro τ a hl hview hexp
    refine Keeps.settled (keeps_refresh ?_ ?_) (edited_updateCas values now hr hview hexp)
    · intro rows hrows
      rw [hrows]
    · intro rows q hrows
      rw [hrows]

/-- the rest of the update -/
theorem keeps_answerUpdate (names : Option (List String)) (n : ℕ) (article : Article) :
    Keeps (Edited r) (do
      let links ←
        match names with
        | some names => syncForArticle n names (pure ())
        | none => pure []
      flushLinks n links
      articleToDetail n article) := by
  have hrest : ∀ links, Keeps (Edited r) (do
      flushLinks n links
      articleToDetail n article) := fun links =>
    keeps_bind (keeps_flushLinks n links) fun _ => keeps_articleToDetail (edited_lasting r) _ _
  cases names with
  | some names => exact keeps_bind (keeps_syncForArticle n names (keeps_pure ())) hrest
  | none => exact keeps_bind (keeps_pure []) hrest

theorem settles_updateArticleEx {slug : String} {patch : ArticleUpdate} {now : ℕ}
    (hr : r = .updateArticleEx slug patch now) : Settles r (updateArticleEx slug patch now) := by
  have hexp : patch.version = r.expected := by rw [hr]; rfl
  refine settles_bind (keeps_getArticle untouched_lasting slug) fun q => ?_
  have hcas : Settles r (do
      let article ←
        if patch.version.isSome || patch.writes || patch.tags.isSome then
          updateCas q.1 patch.version (patch.values q.2.published now) now
        else pure q.2
      let links ←
        match patch.tags with
        | some names => syncForArticle q.1 names (pure ())
        | none => pure []
      flushLinks q.1 links
      articleToDetail q.1 article) := by
    split_ifs
    · rw [hexp]
      exact settles_then (settles_updateCas _ _ _ (by rw [hr]; rfl)) fun a => keeps_answerUpdate patch.tags q.1 a
    · exact settles_then ⟨plain_pure q.2, fun _ _ => wp_pure (edited_empty r _)⟩ fun a =>
        keeps_answerUpdate patch.tags q.1 a
  cases patch.categoryId with
  | some category => exact settles_bind (keeps_requireCategory untouched_lasting category) fun _ => hcas
  | none => exact settles_bind (keeps_pure ()) fun _ => hcas

/-! ## The sessions -/

/-- what a session commits with its answer -/
def Wrote (r : Request) : Except Exn Answer → Held → State → Prop
  | .ok (.conflict _) => Untouched
  | .ok _ => Edited r
  | .error _ => fun _ _ => True

theorem wrote_lasting (r : Request) (i : ℕ) :
    Stable (free : Discipline Row Index Fx Unit) i (Wrote r) := by
  intro res o σ τ _ hcom h
  rcases res with e | (d | id | c)
  · trivial
  · exact edited_lasting r o σ τ hcom h
  · exact edited_lasting r o σ τ hcom h
  · exact h

theorem Wrote.edited {a : Answer} (h : Wrote r (.ok a) o σ) : Edited r o σ := by
  cases a with
  | conflict c => exact Untouched.edited h
  | detail d => exact h
  | article id => exact h

theorem patchArticle_spec {slug : String} {patch : ArticleUpdate} {now : ℕ}
    (hr : r = .updateArticleEx slug patch now) : free.wp i (patchArticle slug patch now) (Wrote r) {} σ := by
  refine wp_andThen (wp_mono ((settles_updateArticleEx hr).wp i σ) fun res o' τ hres => ?_)
  cases res with
  | ok d => exact wp_pure hres
  | error e =>
    cases e with
    | versionConflict c => exact wp_pure hres
    | _ => exact wp_done trivial

/-- the requests other than the update -/
theorem Keeps.wrote {p : Op α} {f : α → Answer} (hp : Keeps (Edited r) p)
    (hf : ∀ a o τ, Edited r o τ → Wrote r (.ok (f a)) o τ) :
    free.wp i (p >>= fun a => pure (f a)) (Wrote r) {} σ := by
  refine wp_bind (wp_mono (hp.wp i {} σ (edited_empty r σ)) fun res o' τ hres => ?_)
  cases res with
  | ok a => exact wp_pure (hf a o' τ hres)
  | error e => trivial

theorem body_spec (r : Request) (i : ℕ) (σ : State) : free.wp i r.body (Wrote r) {} σ := by
  cases r with
  | updateArticleEx slug patch now => exact patchArticle_spec rfl
  | createArticle slug title category content published description names now =>
    exact (keeps_createArticle rfl).wrote fun _ _ _ h => h
  | reviewArticle slug approve now => exact (keeps_reviewArticle rfl slug approve now).wrote fun _ _ _ h => h
  | softDeleteArticle slug now => exact (keeps_softDeleteArticle rfl slug now).wrote fun _ _ _ h => h

theorem plain_body (r : Request) : Plain r.body := by
  cases r with
  | updateArticleEx slug patch now =>
    refine plain_andThen (settles_updateArticleEx (r := .updateArticleEx slug patch now) rfl).plain fun res => ?_
    cases res with
    | ok d => exact plain_pure _
    | error e =>
      cases e with
      | versionConflict c => exact plain_pure _
      | _ => exact plain_raise _
  | createArticle slug title category content published description names now =>
    exact plain_bind (keeps_createArticle (r := .softDeleteArticle slug now) rfl).plain fun _ => plain_pure _
  | reviewArticle slug approve now =>
    exact plain_bind (keeps_reviewArticle (r := .reviewArticle slug approve now) rfl slug approve now).plain fun _ =>
      plain_pure _
  | softDeleteArticle slug now =>
    exact plain_bind (keeps_softDeleteArticle (r := .softDeleteArticle slug now) rfl slug now).plain fun _ =>
      plain_pure _

/-! ## Runs -/

abbrev Sessions := World (Stmt Row Index Fx) Store Exn Answer

/-- the requests start together from the tables `d` -/
def init (d : Store) (requests : ℕ → Request) : Sessions := start d fun i => (requests i).prog

/-- everything of an article but its version and the time of its last update -/
def Article.fields (a : Article) : Article := { a with version := 0, updatedAt := 0 }

/-- session `i` holds a version of article `n` with other fields than the committed one -/
def rewrites (d : Store) (i n : ℕ) : Bool :=
  match (d.cell articles n).committed, (d.cell articles n).mine i with
  | some a, some (some b) => decide (b.fields ≠ a.fields)
  | _, _ => false

/-- no request but an update commits a change of an article's fields -/
def onlyUpdatesRewrite (requests : ℕ → Request) (w : Sessions) : Move → Prop
  | .run i => committing w i = true → (requests i).isUpdate = false →
      ∀ n, n < (w.st.tab articles).next → rewrites w.st i n = false
  | .crash _ => True

instance (requests : ℕ → Request) (w : Sessions) : DecidablePred (onlyUpdatesRewrite requests w)
  | .run i => inferInstanceAs (Decidable (committing w i = true → (requests i).isUpdate = false →
      ∀ n, n < (w.st.tab articles).next → rewrites w.st i n = false))
  | .crash _ => inferInstanceAs (Decidable True)

variable {d : Store} {ms : List Move} {m : Move} {a b : Article}

theorem stage (hd : ∀ i, d.own i = {}) (ms : List Move) (i : ℕ) :
    Stage free (Wrote (requests i)) i (run (init d requests) ms) :=
  free_stage hd (fun i => plain_body (requests i)) (fun i => wrote_lasting (requests i) i)
    (fun i => body_spec (requests i) i d.snap) ms

/-- session `i` commits the version `b` of article `n` -/
structure Commits (requests : ℕ → Request) (w : Sessions) (i n : ℕ) (a b : Article) : Prop where
  committing : committing w i = true
  held : (w.st.own i).row articles n = some (some b)
  edit : Edit (requests i) a b

/-- what one move does to a committed article -/
theorem step_article (hd : ∀ i, d.own i = {}) (m : Move)
    (ha : (run (init d requests) ms).st.snap.com articles n = some a) :
    ∃ b, (step (run (init d requests) ms) m).st.snap.com articles n = some b ∧
      (a = b ∨ ∃ i, m = .run i ∧ Commits requests (run (init d requests) ms) i n a b) := by
  rcases step_commit (stage hd ms) m with hcom | ⟨i, answer, rfl, hcommit, hwrote, hst, -⟩
  · exact ⟨a, by rw [hcom, ha], Or.inl rfl⟩
  · rw [hst]
    rcases hown : ((run (init d requests) ms).st.own i).row articles n with _ | v
    · exact ⟨a, by rw [Snap.merge_of_none hown, ha], Or.inl rfl⟩
    · obtain ⟨b, rfl, hedit⟩ := hwrote.edited n v hown
      exact ⟨b, Snap.merge_of_some hown _, Or.inr ⟨i, rfl, hcommit, hown, hedit a ha⟩⟩

theorem rewrites_eq {i : ℕ} (ha : d.snap.com articles n = some a) (hb : (d.own i).row articles n = some (some b)) :
    rewrites d i n = decide (b.fields ≠ a.fields) := by
  change (d.cell articles n).committed = some a at ha
  change (d.cell articles n).mine i = some (some b) at hb
  rw [rewrites, ha, hb]

theorem of_rewrites {i : ℕ} (h : rewrites d i n = true) :
    ∃ a b, d.snap.com articles n = some a ∧ (d.own i).row articles n = some (some b) ∧ b.fields ≠ a.fields := by
  rw [rewrites] at h
  split at h
  · next a b ha hb => exact ⟨a, b, ha, hb, by simpa using h⟩
  · simp at h

/-! ## The order of the versions -/

/-- a later version of an article; with the same version it has the same fields -/
def Ahead (a b : Article) : Prop := a.version ≤ b.version ∧ (a.version = b.version → b.fields = a.fields)

theorem Ahead.refl (a : Article) : Ahead a a := ⟨Nat.le_refl _, fun _ => rfl⟩

theorem Ahead.trans {a b c : Article} (h : Ahead a b) (h' : Ahead b c) : Ahead a c := by
  obtain ⟨hle, heq⟩ := h
  obtain ⟨hle', heq'⟩ := h'
  refine ⟨Nat.le_trans hle hle', fun hac => ?_⟩
  have hab : a.version = b.version := by omega
  have hbc : b.version = c.version := by omega
  rw [heq' hbc, heq hab]

/-- while only updates rewrite an article -/
theorem step_ahead (hd : ∀ i, d.own i = {}) (hok : onlyUpdatesRewrite requests (run (init d requests) ms) m)
    (ha : (run (init d requests) ms).st.snap.com articles n = some a) :
    ∃ b, (step (run (init d requests) ms) m).st.snap.com articles n = some b ∧ Ahead a b := by
  obtain ⟨b, hb, rfl | ⟨i, rfl, hc⟩⟩ := step_article (m := m) hd ha
  · exact ⟨a, hb, Ahead.refl a⟩
  · refine ⟨b, hb, ?_⟩
    cases hu : (requests i).isUpdate with
    | true =>
      have hv := (hc.edit.update hu).1
      exact ⟨by omega, fun h => by omega⟩
    | false =>
      have hsame := hok hc.committing hu n (Db.lt_of_com _ ha)
      rw [rewrites_eq ha hc.held] at hsame
      exact ⟨(hc.edit.other hu).ge, fun _ => by simpa using hsame⟩

theorem run_ahead (hd : ∀ i, d.own i = {}) (pre : List Move)
    (hok : Along (onlyUpdatesRewrite requests) (run (init d requests) pre) ms)
    (ha : (run (init d requests) pre).st.snap.com articles n = some a) :
    ∃ b, (run (init d requests) (pre ++ ms)).st.snap.com articles n = some b ∧ Ahead a b := by
  induction ms generalizing pre a with
  | nil =>
    rw [List.append_nil]
    exact ⟨a, ha, Ahead.refl a⟩
  | cons m ms ih =>
    obtain ⟨b, hb, hab⟩ := step_ahead hd hok.1 ha
    rw [← run_snoc] at hb
    have hrest := hok.2
    rw [← run_snoc] at hrest
    obtain ⟨c, hc, hbc⟩ := ih (pre ++ [m]) hrest hb
    rw [List.append_assoc] at hc
    exact ⟨c, hc, hab.trans hbc⟩

/-! ## The law -/

def Refused : Except Exn Answer → Prop
  | .ok (.conflict _) => True
  | .ok _ => False
  | .error _ => True

/-- optimistic locking loses no edit in the run `ms` -/
structure NoLostEdit (d : Store) (requests : ℕ → Request) (ms : List Move) : Prop where
  /-- an update is applied on the version it carries, since the read of which no commit has changed the fields -/
  applied : ∀ pre m post n a b v, ms = pre ++ m :: post → (requests (Protocol.who m)).isUpdate = true →
    (requests (Protocol.who m)).expected = some v → (run (init d requests) pre).st.snap.com articles n = some a →
    (run (init d requests) (pre ++ [m])).st.snap.com articles n = some b → a ≠ b →
    a.version = v ∧ ∀ pre₁ pre₂ pre₃ c, pre = pre₁ ++ pre₂ ++ pre₃ →
      (run (init d requests) pre₁).st.snap.com articles n = some c → c.version = v →
      ∃ c', (run (init d requests) (pre₁ ++ pre₂)).st.snap.com articles n = some c' ∧ c'.fields = c.fields
  /-- a change of the fields, and every change by an update, raises the version -/
  raises : ∀ pre m post n a b, ms = pre ++ m :: post →
    (run (init d requests) pre).st.snap.com articles n = some a →
    (run (init d requests) (pre ++ [m])).st.snap.com articles n = some b →
    (b.fields ≠ a.fields ∨ (requests (Protocol.who m)).isUpdate = true ∧ a ≠ b) → a.version < b.version
  /-- a refused update changes no row -/
  refused : ∀ pre m post answer, ms = pre ++ m :: post → (requests (Protocol.who m)).isUpdate = true →
    (run (init d requests) ms).answer (Protocol.who m) = some answer → Refused answer →
    (run (init d requests) (pre ++ [m])).st.snap.com = (run (init d requests) pre).st.snap.com

/-- **Refusal.** A session that is refused has changed nothing at any of its moves, in every run. -/
theorem refused_unchanged (hd : ∀ i, d.own i = {}) (pre post : List Move) (m : Move) {answer : Except Exn Answer}
    (hanswer : (run (init d requests) (pre ++ m :: post)).answer (Protocol.who m) = some answer)
    (hrefused : Refused answer) :
    (run (init d requests) (pre ++ [m])).st.snap.com = (run (init d requests) pre).st.snap.com := by
  refine unchanged_of_answer (stage hd pre) hanswer fun a ha o σ hwrote => ?_
  subst ha
  cases a with
  | detail d => exact hrefused.elim
  | article id => exact hrefused.elim
  | conflict c =>
    obtain rfl : o = {} := hwrote
    rfl

/-- **No lost edit.** Optimistic locking loses no edit exactly where only updates rewrite the articles. -/
theorem no_lost_edit_iff (d : Store) (requests : ℕ → Request) (ms : List Move) (hd : ∀ i, d.own i = {}) :
    NoLostEdit d requests ms ↔ Along (onlyUpdatesRewrite requests) (init d requests) ms := by
  constructor
  · intro h
    refine along_iff.2 fun pre m post he => ?_
    cases m with
    | crash i => trivial
    | run i =>
      intro hcommit hu n hn
      by_contra hrewrites
      obtain ⟨a, b, ha, hb, hne⟩ := of_rewrites (by simpa using hrewrites)
      obtain ⟨answer, hwrote, hst, -⟩ := (stage hd pre i).commits hcommit
      obtain ⟨_, hsame, hedit⟩ := hwrote.edited n _ hb
      obtain rfl := Option.some.inj hsame
      have hafter : (run (init d requests) (pre ++ [.run i])).st.snap.com articles n = some b := by
        rw [run_snoc, hst, Db.snap_finish_true, Snap.merge_of_some hb]
      have hlt := h.raises pre (.run i) post n a b he ha hafter (Or.inl hne)
      have heq := (hedit a ha).other hu
      omega
  · intro hok
    refine ⟨?_, ?_, fun pre m post answer he _ hanswer hrefused => ?_⟩
    · intro pre m post n a b v he hu hv ha hb hne
      subst he
      have hpre := (along_append pre (m :: post)).1 hok
      obtain ⟨b', hb', heq | ⟨i, rfl, hc⟩⟩ := step_article (m := m) hd ha
      · rw [run_snoc, hb', Option.some.injEq] at hb
        exact absurd (heq.trans hb) hne
      · have hversion := (hc.edit.update hu).2 v hv
        refine ⟨hversion, fun pre₁ pre₂ pre₃ c hsplit hcom hcv => ?_⟩
        subst hsplit
        have hlater := (along_append pre₁ (pre₂ ++ pre₃)).1 (by simpa using hpre.1)
        have hparts := (along_append pre₂ pre₃).1 hlater.2
        obtain ⟨c', hc', hahead⟩ := run_ahead hd pre₁ hparts.1 hcom
        rw [← run_append] at hparts
        obtain ⟨a', ha', hahead'⟩ := run_ahead hd (pre₁ ++ pre₂) hparts.2 hc'
        rw [ha, Option.some.injEq] at ha'
        subst ha'
        have hle := hahead.1
        have hle' := hahead'.1
        exact ⟨c', hc', hahead.2 (by omega)⟩
    · intro pre m post n a b he ha hb hchange
      subst he
      have hpre := (along_append pre (m :: post)).1 hok
      obtain ⟨b₁, hb₁, hahead⟩ := step_ahead hd hpre.2.1 ha
      obtain ⟨b₂, hb₂, hstep⟩ := step_article (m := m) hd ha
      rw [run_snoc] at hb
      obtain rfl := Option.some.inj (hb₁.symm.trans hb)
      obtain rfl := Option.some.inj (hb₂.symm.trans hb)
      refine Nat.lt_of_le_of_ne hahead.1 fun heq => ?_
      rcases hchange with hfields | ⟨hu, hne⟩
      · exact hfields (hahead.2 heq)
      · rcases hstep with hsame | ⟨i, rfl, hc⟩
        · exact hne hsame
        · have hv := (hc.edit.update hu).1
          omega
    · subst he
      exact refused_unchanged hd pre post m hanswer hrefused

/-! ## Two runs -/

/-- one article, in the version that two clients have read -/
def shelf : Store where
  tab
    | .articles => Table.ofList [{ slug := "a", title := "t", categoryId := 0, content := "old", updatedAt := 0 }]
    | .articleCategories => Table.ofList [{ slug := "news", title := "News" }]
    | .tags => {}
    | .articleTag => {}
  ext := ()

theorem own_shelf (i : ℕ) : shelf.own i = {} := by
  refine Own.ext (funext fun t => ?_) (funext fun k => propext ?_)
  · cases t <;> rfl
  · simp [Db.own, shelf]

def editFirst : ArticleUpdate := { content := some "edited", tags := some ["x"], version := some 1 }

/-- two updates that carry the same version -/
def twoUpdates : ℕ → Request
  | 0 => .updateArticleEx "a" editFirst 100
  | _ => .updateArticleEx "a" { content := some "other", version := some 1 } 101

theorem no_lost_edit_iff_demo : NoLostEdit shelf twoUpdates (moves 0 30 ++ moves 1 30) :=
  (no_lost_edit_iff shelf twoUpdates (moves 0 30 ++ moves 1 30) own_shelf).2 (by decide)

/-- a republication, and an update that carries the version from before it -/
def republished : ℕ → Request
  | 0 => .createArticle "a" "t" "news" "republished" none none [] 100
  | _ => .updateArticleEx "a" { content := some "edited", version := some 1 } 101

/-- the text of the republication is lost: the version has not told the update of it -/
theorem lost_edit :
    let w := run (init shelf republished) (moves 0 4)
    ((w.st.snap.com articles 0).map fun a => (a.content, a.version)) = some ("republished", 1) ∧
    (((run w (moves 1 6)).st.snap.com articles 0).map fun a => (a.content, a.version)) = some ("edited", 2) ∧
    ¬ NoLostEdit shelf republished (moves 0 4 ++ moves 1 6) := by
  refine ⟨by decide, by decide, fun h => ?_⟩
  have hread := h.applied (moves 0 4 ++ moves 1 5) (.run 1) [] 0
    { slug := "a", title := "t", categoryId := 0, content := "republished", updatedAt := 100 }
    { slug := "a", title := "t", categoryId := 0, content := "edited", version := 2, updatedAt := 101 } 1
    (by decide) rfl rfl (by decide) (by decide) (by decide)
  obtain ⟨-, hsince⟩ := hread
  obtain ⟨c, hc, hfields⟩ := hsince [] (moves 0 4) (moves 1 5)
    { slug := "a", title := "t", categoryId := 0, content := "old", updatedAt := 0 } (by decide) (by decide) rfl
  have hcontent : (run (init shelf republished) ([] ++ moves 0 4)).st.snap.com articles 0 =
      some { slug := "a", title := "t", categoryId := 0, content := "republished", updatedAt := 100 } := by
    decide
  obtain rfl := Option.some.inj (hcontent.symm.trans hc)
  exact absurd hfields (by decide)

end LkmService.Articles
