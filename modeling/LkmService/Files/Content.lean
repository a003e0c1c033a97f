/-
What the library keeps in its storage.

- `content_kept`: the bytes of a live file are in the hot store or in the archive, while no session that has removed the
  last bytes of a hash fails before its commit.
- `uploads_kept`: an upload is registered once, and the session row of an upload goes with a registration or with the
  cleanup; its object is there while the row is, with the same condition.
- `content_lost`, `upload_lost`: a removal whose commit fails.
-/
import LkmService.Files.Numbering

namespace LkmService.Files

open Session Sql Sql.Discipline Tbl

variable {settings : Settings} {d : Store} {requests : ℕ → Request} {ms : List Move} {σ τ : State} {i : ℕ} {hash : String}

/-! ## Requests are transactions -/

theorem plain_getOrRaise {t : Tbl} {n : ℕ} {e : Exn} : Plain (getOrRaise t n e) := by
  refine plain_bind (plain_select _ _) ?_
  intro rows
  split
  · trivial
  · trivial

theorem plain_orRaise {x : Fx Bool} {e : Exn} : Plain (orRaise x e) :=
  plain_bind (plain_perform _) fun _ => plain_ite (plain_pure _) (plain_raise _)

theorem plain_nextDocumentCode {year : ℕ} : Plain (nextDocumentCode settings year) := by
  refine plain_bind (plain_lockKey _) fun _ => plain_bind (plain_select _ _) ?_
  intro rows
  split
  · trivial
  · trivial

theorem plain_nextVersion {code : Text} : Plain (nextVersion settings code) :=
  plain_bind (plain_lockKey _) fun _ => plain_bind (plain_select _ _) fun _ => plain_pure _

theorem plain_canUploadToProject {project : ℕ} {user : UserId} : Plain (canUploadToProject project user) := by
  refine plain_bind (plain_select _ _) ?_
  intro rows
  split
  · trivial
  · exact plain_ite (plain_pure _) (plain_bind (plain_select _ _) fun _ => plain_pure _)

theorem plain_identityForUpload {uploader : UserId} {info : FileCreate} {year : ℕ} :
    Plain (identityForUpload settings uploader info year) := by
  unfold identityForUpload
  split
  · refine plain_bind plain_getOrRaise fun parent => plain_ite (plain_raise _) (plain_ite (plain_raise _) ?_)
    split
    · trivial
    · exact plain_bind plain_nextVersion fun _ => plain_pure _
  · have hnew : ∀ allowed, Plain (if !allowed then (.raise .invalidProject : Op (FileCreate × Identity)) else do
        let code ← nextDocumentCode settings year
        pure (info, ⟨code, 1, none, info.classification, info.projectId⟩)) := by
      intro allowed
      exact plain_ite (plain_raise _) (plain_bind plain_nextDocumentCode fun _ => plain_pure _)
    split
    · exact plain_bind (plain_pure _) hnew
    · exact plain_bind plain_canUploadToProject hnew

theorem plain_syncRefCount : Plain (syncRefCount hash) :=
  plain_bind (plain_bind (plain_select _ _) fun _ => plain_pure _) fun _ =>
    plain_bind (plain_select _ _) fun _ => plain_bind (plain_updateAll _) fun _ => plain_pure _

theorem plain_addFile {f : LibraryFile} : Plain (addFile f) := by
  refine plain_bind (plain_insertUnique _ _ _ _) ?_
  intro r
  split
  · trivial
  · trivial

theorem plain_fileInfo {n : ℕ} {f : LibraryFile} {calls : Calls} : Plain (fileInfo n f calls) := by
  refine plain_bind (plain_perform _) ?_
  intro r
  split
  · trivial
  · trivial

theorem plain_flushFile {n : ℕ} {f : LibraryFile → LibraryFile} : Plain (flushFile n f) := by
  refine plain_bind (plain_updateRow _ _ _ _) ?_
  intro r
  split
  · trivial
  · trivial

theorem plain_flushRoot {n : ℕ} {root : Option ℕ} : Plain (flushRoot n root) := by
  unfold flushRoot
  split
  · trivial
  · exact plain_flushFile

theorem plain_savePreview {preview works : Bool} : Plain (savePreview hash preview works) :=
  plain_ite (plain_bind (plain_perform _) fun _ => plain_pure _) (plain_pure _)

theorem plain_storeContent {content : Object} {calls : Calls} : Plain (storeContent content calls) := by
  refine plain_bind (plain_perform _) ?_
  intro r
  split
  · trivial
  · trivial
  · exact plain_orRaise

theorem plain_copyContent {key : String} {calls : Calls} : Plain (copyContent key hash calls) := by
  refine plain_bind (plain_perform _) ?_
  intro r
  split
  · trivial
  · trivial
  · exact plain_orRaise

theorem plain_createFile {uploader : UserId} {info : FileCreate} {content : Object} {year : ℕ} {now : ℤ} {calls : Calls} :
    Plain (createFile settings uploader info content year now calls) := by
  refine plain_ite (plain_raise _) ?_
  split
  · trivial
  refine plain_bind plain_identityForUpload fun x => plain_bind (plain_lockKey _) fun _ => plain_bind plain_storeContent fun _ => ?_
  refine plain_bind plain_savePreview fun _ => plain_bind plain_addFile fun n => plain_bind plain_syncRefCount fun _ => ?_
  exact plain_bind plain_fileInfo fun answer => plain_bind plain_flushRoot fun _ => plain_pure _

theorem plain_hashFromStorage {key : String} {calls : Calls} : Plain (hashFromStorage settings key calls) := by
  refine plain_bind (plain_perform _) ?_
  intro r
  split
  · trivial
  · exact plain_ite (plain_bind (plain_perform _) fun _ => plain_raise _) (plain_pure _)

theorem plain_processStorageUpload {key : String} {calls : Calls} : Plain (processStorageUpload key calls) := by
  refine plain_bind (plain_perform _) ?_
  intro r
  split
  · trivial
  · split
    · trivial
    · trivial

theorem plain_registerFromUpload {content : Meta} {uploader : UserId} {upload year : ℕ} {now : ℤ} {calls : Calls} :
    Plain (registerFromUpload settings content uploader upload year now calls) := by
  refine plain_bind (plain_perform _) ?_
  intro r
  split
  · trivial
  · trivial
  refine plain_bind plain_hashFromStorage fun object => plain_bind plain_processStorageUpload fun x => ?_
  refine plain_bind plain_identityForUpload fun y => plain_bind (plain_lockKey _) fun _ => plain_bind plain_copyContent fun _ => ?_
  refine plain_bind plain_savePreview fun _ => plain_bind plain_addFile fun n => plain_bind plain_syncRefCount fun _ => ?_
  refine plain_bind plain_fileInfo fun answer => plain_bind (plain_perform _) fun _ => ?_
  exact plain_bind plain_flushRoot fun _ => plain_pure _

theorem plain_claim {uploadId : String} {uploader : Option UserId} : Plain (claim uploadId uploader) := by
  refine plain_bind (plain_select _ _) ?_
  intro rows
  split
  · trivial
  · exact plain_bind (plain_deleteIf _ _ _) fun _ => plain_ite (plain_pure _) (plain_pure _)

/-- `confirm_upload` and `notify_upload` -/
theorem plain_claimed {uploadId : String} {user : Option UserId} {year : ℕ} {now : ℤ} {calls : Calls} {gone corrupt : Op Response}
    (hgone : Plain gone) (hcorrupt : Plain corrupt) :
    Plain (do
      match ← claim uploadId user with
      | none => gone
      | some (n, session) =>
        match session.content with
        | none => corrupt
        | some content => do
          let answer ← registerFromUpload settings content session.uploaderId n year now calls
          pure (.file answer)) := by
  refine plain_bind plain_claim ?_
  intro r
  split
  · exact hgone
  · split
    · exact hcorrupt
    · exact plain_bind plain_registerFromUpload fun _ => plain_pure _

theorem plain_deleteContentVariants {calls : Calls} : Plain (deleteContentVariants settings hash calls) :=
  plain_bind plain_orRaise fun _ => plain_bind plain_orRaise fun _ => plain_bind plain_orRaise fun _ =>
    plain_bind plain_orRaise fun _ => plain_ite plain_orRaise (plain_pure _)

theorem plain_release {hash : Option String} {calls : Calls} : Plain (release settings hash calls) := by
  unfold release
  split
  · trivial
  · refine plain_bind plain_syncRefCount fun _ => plain_bind (plain_bind (plain_select _ _) fun _ => plain_pure _) fun n => ?_
    exact plain_ite plain_deleteContentVariants (plain_pure _)

theorem plain_enqueueFileChange {n : ℕ} : Plain (enqueueFileChange settings n) :=
  plain_ite (plain_bind (plain_insert _ _) fun _ => plain_pure _) (plain_pure _)

theorem plain_enqueueFileChanges (ns : List ℕ) : Plain (enqueueFileChanges settings ns) := by
  induction ns with
  | nil => trivial
  | cons n ns ih => exact plain_bind plain_enqueueFileChange fun _ => ih

theorem plain_enqueueDocumentChange {n : ℕ} {code : Option Text} : Plain (enqueueDocumentChange settings n code) := by
  refine plain_bind plain_enqueueFileChange ?_
  intro _
  split
  · trivial
  · exact plain_bind (plain_select _ _) fun _ => plain_enqueueFileChanges _

theorem plain_backUp {n : ℕ} {hash : Option String} {now : ℤ} {calls : Calls} : Plain (backUp settings n hash now calls) := by
  unfold backUp
  split
  · trivial
  · exact plain_ite (plain_bind plain_orRaise fun _ => plain_flushFile) (plain_pure _)

theorem plain_lockFileHash {f : LibraryFile} : Plain (lockFileHash settings f) := by
  unfold lockFileHash
  split
  · trivial
  · exact plain_lockKey _

theorem plain_getLocked {n : ℕ} : Plain (getLocked n) := by
  refine plain_bind (plain_lockRow _ _ _) ?_
  intro r
  split
  · trivial
  · trivial

theorem plain_reviewFile {n : ℕ} {target : FileStatus} {comment : Option String} {isAdmin : Bool} {now : ℤ} {calls : Calls} :
    Plain (reviewFile settings n target comment isAdmin now calls) := by
  refine plain_ite (plain_raise _) (plain_ite (plain_raise _) (plain_bind plain_getOrRaise fun f => ?_))
  refine plain_bind plain_lockFileHash fun _ => plain_bind plain_getLocked fun g => plain_ite (plain_raise _) ?_
  refine plain_bind plain_flushFile fun _ => ?_
  have hrest : Plain (do
      orRaise (.audit calls.audit) .unavailable
      let answer ← fileInfo n { g with status := target, reviewComment := comment } calls
      pure (Response.file answer)) :=
    plain_bind plain_orRaise fun _ => plain_bind plain_fileInfo fun _ => plain_pure _
  refine plain_ite (plain_bind plain_release fun _ => hrest) ?_
  exact plain_bind plain_backUp fun _ => plain_bind (plain_insert _ _) fun _ =>
    plain_bind plain_enqueueDocumentChange fun _ => hrest

theorem plain_deleteFile {n : ℕ} {actor : UserId} {isAdmin : Bool} {calls : Calls} :
    Plain (deleteFile settings n actor isAdmin calls) := by
  refine plain_bind plain_getOrRaise fun f => plain_bind plain_lockFileHash fun _ => plain_bind plain_getLocked fun g => ?_
  refine plain_ite (plain_raise _) (plain_ite (plain_bind plain_fileInfo fun _ => plain_pure _) ?_)
  refine plain_bind plain_flushFile fun _ => plain_bind plain_enqueueDocumentChange fun _ => ?_
  exact plain_bind plain_release fun _ => plain_bind plain_fileInfo fun _ => plain_pure _

/-- a request that is no task commits at its end -/
theorem plain_body {r : Request} (h : r.isTask = false) : Plain (r.body settings) := by
  cases r with
  | create uploader info content year now calls => exact plain_bind plain_createFile fun _ => plain_pure _
  | confirm uploadId user year now calls => exact plain_claimed (plain_raise _) (plain_raise _)
  | notify uploadId year now calls => exact plain_claimed (plain_pure _) (plain_raise _)
  | review n target comment isAdmin now calls => exact plain_reviewFile
  | delete n actor isAdmin calls => exact plain_deleteFile
  | archive now calls => cases h
  | cleanup now fuel calls => cases h

/-- what a session that is no task has come to when it commits -/
def Ends (settings : Settings) (i : ℕ) : Except Exn Response → Held → State → Prop
  | .ok _, o, σ => Clean settings i o σ
  | .error _, _, _ => True

theorem ends_stable (i : ℕ) : Stable (discipline settings (tasksOf requests)) i (Ends settings i) := by
  intro r o σ τ hr _ h
  cases r with
  | ok a => exact Clean.stable h hr
  | error e => trivial

theorem stage_init (h : Starts d) {i : ℕ} (hi : tasksOf requests i = false) :
    Stage (discipline settings (tasksOf requests)) (Ends settings i) i (init settings d requests) := by
  refine stage_start rfl (plain_body hi) ?_
  rw [h.own i]
  refine wp_mono (body_spec rfl (h.on i)) ?_
  intro r o τ hr
  cases r with
  | ok a => exact hr.clean
  | error e => trivial

/-! ## Moves that lose nothing -/

/-- no session fails after it has removed the last bytes of a hash that has a live row still -/
def contentStays (w : Run) (m : Move) : Bool :=
  !undoes w m || (w.st.committed files).all fun q => q.2.sha3Hash.all fun hash =>
    !isLive q.2.status || w.st.ext.has hash || decide (w.st.ext.removedBy hash ≠ some (Protocol.who m))

/-- the move does not remove the last bytes of a hash that has a live row -/
def contentRests (w : Run) (m : Move) : Bool :=
  (w.st.committed files).all fun q => q.2.sha3Hash.all fun hash =>
    !isLive q.2.status || !w.st.ext.has hash || (step w m).st.ext.has hash

/-- no session fails after it has removed an upload that has its session row still -/
def uploadsStay (w : Run) (m : Move) : Bool :=
  !undoes w m || (w.st.committed sessions).all fun q => (w.st.ext.object (.upload q.2.storageKey)).isSome ||
    w.st.ext.cleaned q.2.storageKey || decide (w.st.ext.takenBy q.2.storageKey ≠ some (Protocol.who m))

/-- the move does not register an upload: it does not remove one that has its session row still -/
def uploadsRest (w : Run) (m : Move) : Bool :=
  (w.st.committed sessions).all fun q => (w.st.ext.object (.upload q.2.storageKey)).isNone ||
    ((step w m).st.ext.object (.upload q.2.storageKey)).isSome || (step w m).st.ext.cleaned q.2.storageKey

/-! ## Contents -/

/-- there is a live row of the hash, and its bytes are gone -/
def Lost (hash : String) (σ : State) : Prop := Live σ hash ∧ σ.ext.has hash = false

theorem lost_of_act {isTask : Bool} (h : Act i isTask σ τ) (hlost : Lost hash τ) :
    τ.ext.removedBy hash = some i ∨ (Lost hash σ ∧ τ.ext.removedBy hash = σ.ext.removedBy hash) := by
  obtain ⟨hlive, hnot⟩ := hlost
  obtain ⟨touched, hsteps⟩ := h.storage
  rcases h.live hash hlive with hhas | hbefore
  · rw [hhas] at hnot
    cases hnot
  · rcases hσ : σ.ext.has hash with _ | _
    · rcases hsteps.removed hash with hsame | ⟨hmine, -⟩
      · exact .inr ⟨⟨hbefore, hσ⟩, hsame⟩
      · exact .inl hmine
    · rcases hsteps.lost hash hσ with hhas | hmine
      · rw [hhas] at hnot
        cases hnot
      · exact .inl hmine

theorem not_lost_of_stays {w : Run} {m : Move} (h : contentStays w m = true) (hundoes : undoes w m = true)
    (hwho : w.st.snap.ext.removedBy hash = some (Protocol.who m)) : ¬ Lost hash w.st.snap := by
  rintro ⟨⟨n, f, hf, hlive⟩, hnot⟩
  simp only [LibraryFile.isLiveOf, Bool.and_eq_true, decide_eq_true_eq] at hlive
  simp only [contentStays, hundoes, Bool.not_true, Bool.false_or] at h
  have hall := List.all_eq_true.1 h (n, f) (w.st.mem_committed.2 hf)
  rw [hlive.1] at hall
  have hhas : w.st.ext.has hash = false := hnot
  have hby : w.st.ext.removedBy hash = some (Protocol.who m) := hwho
  simp [hlive.2, hhas, hby] at hall

/-- what the commits of the moves that meet `C` keep holds after a run of such moves -/
theorem run_keeping {C : Run → Move → Prop} {Φ : State → Prop} (h : Starts d) (hC : Along C (init settings d requests) ms)
    (hstep : ∀ (w : Run) m, C w m → Act (Protocol.who m) (tasksOf requests (Protocol.who m)) w.st.snap (step w m).st.snap →
      Φ w.st.snap → Φ (step w m).st.snap) (hstart : Φ d.snap) : Φ (run (init settings d requests) ms).st.snap := by
  suffices hrun : ∀ w : Run, (discipline settings (tasksOf requests)).protocol.Safe w → Along C w ms → Φ w.st.snap →
      Φ (run w ms).st.snap from hrun _ (safe_init h) hC hstart
  clear hC
  induction ms with
  | nil => exact fun w _ _ hΦ => hΦ
  | cons m ms ih =>
    intro w hw hC hΦ
    have hm : (discipline settings (tasksOf requests)).protocol.stepOk w m := (legal_run w [m]).1
    refine ih (step w m) ((discipline settings (tasksOf requests)).protocol.step_safe hw hm) hC.2 ?_
    rcases (discipline settings (tasksOf requests)).protocol.step_act hw hm with hsame | ha
    · rw [hsame]
      exact hΦ
    · exact hstep w m hC.1 ha hΦ

/-- by induction over the run: nothing is removed before its row -/
theorem kept_of_rests (h : Starts d) (hstart : ∀ hash, Live d.snap hash → d.snap.ext.has hash = true)
    (hrests : Along (fun w m => contentRests w m = true) (init settings d requests) ms) :
    ∀ hash, Live (run (init settings d requests) ms).st.snap hash →
      (run (init settings d requests) ms).st.snap.ext.has hash = true := by
  refine run_keeping (Φ := fun σ => ∀ hash, Live σ hash → σ.ext.has hash = true) h hrests ?_ hstart
  intro w m hrests ha hkept hash hlive
  rcases ha.live hash hlive with hhas | ⟨n, f, hf, hlive⟩
  · exact hhas
  · have hhas := hkept hash ⟨n, f, hf, hlive⟩
    simp only [LibraryFile.isLiveOf, Bool.and_eq_true, decide_eq_true_eq] at hlive
    have hall := List.all_eq_true.1 hrests (n, f) (w.st.mem_committed.2 hf)
    rw [hlive.1] at hall
    have hbefore : w.st.ext.has hash = true := hhas
    change (step w m).st.ext.has hash = true
    simpa [hlive.2, hbefore] using hall

/-- **Contents.** In every run in which no session fails after it has removed the last bytes of a hash that has a live row
still, the bytes of every committed live row are in the hot store or in the archive, unless the session that has removed
them is in its transaction still. If the move that removes them finds no live row either, they are there at all times. -/
theorem content_kept (settings : Settings) (d : Store) (requests : ℕ → Request) (ms : List Move) (h : Starts d)
    (hstart : ∀ n f hash, d.snap.com files n = some f → f.isLiveOf hash = true → d.snap.ext.has hash = true) :
    let w := run (init settings d requests) ms
    (Along (fun w m => contentStays w m = true) (init settings d requests) ms →
      ∀ n f hash, w.st.snap.com files n = some f → f.isLiveOf hash = true →
        (∀ i, w.st.snap.ext.removedBy hash = some i → ended w i = true) → w.st.snap.ext.has hash = true) ∧
    (Along (fun w m => contentRests w m = true) (init settings d requests) ms →
      ∀ n f hash, w.st.snap.com files n = some f → f.isLiveOf hash = true → w.st.snap.ext.has hash = true) := by
  have hlive : ∀ hash, Live d.snap hash → d.snap.ext.has hash = true := by
    rintro hash ⟨n, f, hf, hf'⟩
    exact hstart n f hash hf hf'
  refine ⟨fun hok n f hash hf hf' hended => ?_, fun hok n f hash hf hf' => ?_⟩
  · have hexcused : Excused (Lost hash) (fun x : Storage => x.removedBy hash) (run (init settings d requests) ms) := by
      have hplain : ∀ i σ τ, Act i (tasksOf requests i) σ τ → τ.ext.removedBy hash = σ.ext.removedBy hash ∨
          (τ.ext.removedBy hash = some i ∧ tasksOf requests i = false) := by
        intro i σ τ ha
        obtain ⟨touched, hsteps⟩ := ha.storage
        exact hsteps.removed hash
      refine excused_run (D := discipline settings (tasksOf requests)) (P := Ends settings) (safe_init h) (legal_run _ ms)
        (fun i σ τ ha => lost_of_act ha) hplain ends_stable ?_ ?_ (fun i hi => stage_init h hi) ?_ ?_
      · intro i a o σ hclean hmine hlost
        exact (hclean.removed hash hmine).2 hlost.1
      · exact hok.mono fun w m hm hundoes hwho => not_lost_of_stays hm hundoes hwho
      · intro i hi
        change d.snap.ext.removedBy hash = some i at hi
        rw [h.removed hash] at hi
        cases hi
      · intro hlost
        have hhas := hlive hash hlost.1
        have hnot : d.snap.ext.has hash = false := hlost.2
        rw [hhas] at hnot
        cases hnot
    by_contra hnot
    obtain ⟨i, hi, hopen⟩ := hexcused ⟨⟨n, f, hf, hf'⟩, by simpa using hnot⟩
    rw [hended i hi] at hopen
    cases hopen
  · exact kept_of_rests h hlive hok hash ⟨n, f, hf, hf'⟩

/-! ## Uploads -/

/-- the session row of an upload is there, and its object is gone, but not by the cleanup -/
def Stranded (k : ℕ) (s : UploadSession) (σ : State) : Prop :=
  σ.com sessions k = some s ∧ σ.ext.object (.upload s.storageKey) = none ∧ σ.ext.cleaned s.storageKey = false

theorem stranded_of_act {isTask : Bool} {k : ℕ} {s : UploadSession} (h : Act i isTask σ τ) (hs : Stranded k s τ) :
    τ.ext.takenBy s.storageKey = some i ∨ (Stranded k s σ ∧ τ.ext.takenBy s.storageKey = σ.ext.takenBy s.storageKey) := by
  obtain ⟨hcom, hnone, hcleaned⟩ := hs
  obtain ⟨touched, hsteps⟩ := h.storage
  have hbefore : σ.ext.cleaned s.storageKey = false := by
    by_contra hc
    rw [hsteps.cleaned _ (by simpa using hc)] at hcleaned
    cases hcleaned
  rcases hσ : σ.ext.object (.upload s.storageKey) with _ | c
  · rcases hsteps.taken s.storageKey with hsame | ⟨hmine, -⟩
    · exact .inr ⟨⟨h.shrinking k s hcom, hσ, hbefore⟩, hsame⟩
    · exact .inl hmine
  · rcases hsteps.gone _ c hσ with hsome | hc | hmine
    · rw [hnone] at hsome
      cases hsome
    · rw [hc] at hcleaned
      cases hcleaned
    · exact .inl hmine

theorem not_stranded_of_stays {k : ℕ} {s : UploadSession} {w : Run} {m : Move} (h : uploadsStay w m = true)
    (hundoes : undoes w m = true) (hwho : w.st.snap.ext.takenBy s.storageKey = some (Protocol.who m)) :
    ¬ Stranded k s w.st.snap := by
  rintro ⟨hcom, hnone, hcleaned⟩
  simp only [uploadsStay, hundoes, Bool.not_true, Bool.false_or] at h
  have hall := List.all_eq_true.1 h (k, s) (w.st.mem_committed.2 hcom)
  have hobject : w.st.ext.object (.upload s.storageKey) = none := hnone
  have hc : w.st.ext.cleaned s.storageKey = false := hcleaned
  have hby : w.st.ext.takenBy s.storageKey = some (Protocol.who m) := hwho
  simp [hobject, hc, hby] at hall

/-- by induction over the run: an upload that is there stays with its session row -/
theorem upload_of_rests {k : ℕ} {s : UploadSession} (h : Starts d)
    (hstart : d.snap.ext.object (.upload s.storageKey) ≠ none)
    (hrests : Along (fun w m => uploadsRest w m = true) (init settings d requests) ms) :
    ¬ Stranded k s (run (init settings d requests) ms).st.snap := by
  refine run_keeping (Φ := fun σ => ¬ Stranded k s σ) h hrests ?_ fun hs => hstart hs.2.1
  rintro w m hrests ha hkept ⟨hcom, hnone, hcleaned⟩
  have hbefore := ha.shrinking k s hcom
  obtain ⟨touched, hsteps⟩ := ha.storage
  have hobject : w.st.ext.object (.upload s.storageKey) ≠ none := by
    intro hobject
    refine hkept ⟨hbefore, hobject, ?_⟩
    by_contra hc
    rw [hsteps.cleaned _ (by simpa using hc)] at hcleaned
    cases hcleaned
  have hall := List.all_eq_true.1 hrests (k, s) (w.st.mem_committed.2 hbefore)
  have hafter : (step w m).st.ext.object (.upload s.storageKey) = none := hnone
  have hc : (step w m).st.ext.cleaned s.storageKey = false := hcleaned
  simp [hafter, hc, hobject] at hall

/-- a session row goes with its registration or with the cleanup -/
theorem claimed_run {k : ℕ} {s : UploadSession} (h : Starts d) (hs : d.snap.com sessions k = some s) :
    let σ := (run (init settings d requests) ms).st.snap
    σ.com sessions k = some s ∨ (σ.com sessions k = none ∧
      ((∃ n f, σ.com files n = some f ∧ f.upload = some k) ∨ σ.ext.cleaned s.storageKey = true)) := by
  refine (discipline settings (tasksOf requests)).protocol.run_induct (Φ := fun e => e.snap.com sessions k = some s ∨
    (e.snap.com sessions k = none ∧ ((∃ n f, e.snap.com files n = some f ∧ f.upload = some k) ∨
      e.snap.ext.cleaned s.storageKey = true))) (safe_init h) (legal_run _ ms) ?_ (.inl hs)
  rintro i e e' - - ha (hsome | ⟨hnone, hreason⟩)
  · exact ha.claimed k s hsome
  · obtain ⟨touched, hsteps⟩ := ha.storage
    refine .inr ⟨?_, ?_⟩
    · by_contra hne
      obtain ⟨s', hs'⟩ := Option.ne_none_iff_exists'.1 hne
      rw [ha.shrinking k s' hs'] at hnone
      cases hnone
    · rcases hreason with ⟨n, f, hf, hk⟩ | hcleaned
      · obtain ⟨f', hf', hsame⟩ := ha.kept n f hf
        exact .inl ⟨n, f', hf', hsame.upload.trans hk⟩
      · exact .inr (hsteps.cleaned _ hcleaned)

/-- **Uploads.** In every run an upload is registered once at most, and its session row goes with a registration that is
committed or with the cleanup of its object. While the session row is there and no cleanup has taken it, its object is
there too, if no session fails after it has removed it, and if the session that has removed it has ended; or at all times,
if the move that removes an upload finds no session row. -/
theorem uploads_kept (settings : Settings) (d : Store) (requests : ℕ → Request) (ms : List Move) (h : Starts d) :
    let w := run (init settings d requests) ms
    (∀ n m f g k, w.st.snap.com files n = some f → w.st.snap.com files m = some g → f.upload = some k → g.upload = some k →
      n = m) ∧
    (∀ k s, d.snap.com sessions k = some s → w.st.snap.com sessions k = none →
      (∃ n f, w.st.snap.com files n = some f ∧ f.upload = some k) ∨ w.st.snap.ext.cleaned s.storageKey = true) ∧
    (Along (fun w m => uploadsStay w m = true) (init settings d requests) ms →
      ∀ k s, w.st.snap.com sessions k = some s → d.snap.ext.object (.upload s.storageKey) ≠ none →
        w.st.snap.ext.cleaned s.storageKey = false →
        (∀ i, w.st.snap.ext.takenBy s.storageKey = some i → ended w i = true) →
        w.st.snap.ext.object (.upload s.storageKey) ≠ none) ∧
    (Along (fun w m => uploadsRest w m = true) (init settings d requests) ms →
      ∀ k s, w.st.snap.com sessions k = some s → d.snap.ext.object (.upload s.storageKey) ≠ none →
        w.st.snap.ext.cleaned s.storageKey = false → w.st.snap.ext.object (.upload s.storageKey) ≠ none) := by
  have hinv : Inv (run (init settings d requests) ms).st.snap := inv_run h ms
  refine ⟨hinv.once, fun k s hs hnone => ?_, fun hok k s hs hobject hcleaned hended => ?_,
    fun hok k s hs hobject hcleaned hnone => upload_of_rests h hobject hok ⟨hs, hnone, hcleaned⟩⟩
  · rcases (claimed_run h hs : (run (init settings d requests) ms).st.snap.com sessions k = some s ∨ _) with hsome | ⟨-, hreason⟩
    · rw [hsome] at hnone
      cases hnone
    · exact hreason
  · have hplain : ∀ i σ τ, Act i (tasksOf requests i) σ τ → τ.ext.takenBy s.storageKey = σ.ext.takenBy s.storageKey ∨
        (τ.ext.takenBy s.storageKey = some i ∧ tasksOf requests i = false) := by
      intro i σ τ ha
      obtain ⟨touched, hsteps⟩ := ha.storage
      exact hsteps.taken s.storageKey
    have hexcused : Excused (Stranded k s) (fun x : Storage => x.takenBy s.storageKey) (run (init settings d requests) ms) := by
      refine excused_run (D := discipline settings (tasksOf requests)) (P := Ends settings) (safe_init h) (legal_run _ ms)
        (fun i σ τ ha => stranded_of_act ha) hplain ends_stable ?_ ?_ (fun i hi => stage_init h hi) ?_ ?_
      · intro i a o σ hclean hmine hstranded
        exact hclean.taken k s hstranded.1 hmine
      · exact hok.mono fun w m hm hundoes hwho => not_stranded_of_stays hm hundoes hwho
      · intro i hi
        change d.snap.ext.takenBy s.storageKey = some i at hi
        rw [h.taken] at hi
        cases hi
      · intro hstranded
        exact absurd hstranded.2.1 hobject
    intro hnone
    obtain ⟨i, hi, hopen⟩ := hexcused ⟨hs, hnone, hcleaned⟩
    rw [hended i hi] at hopen
    cases hopen

/-! ## Runs that lose something -/

/-- the only file of its content is removed; an upload of the same content is confirmed -/
def lossRequests : ℕ → Request
  | 0 => .create 7 { originalName := "a.pdf", projectId := some 0 } ⟨"aa", 3⟩ 2024 0 {}
  | 1 => .delete 0 7 false {}
  | _ => .confirm "u1" 7 2025 0 {}

def calm : List Move := moves 0 40 ++ moves 2 40 ++ moves 1 40

theorem content_kept_demo :
    let w := run (init shelfSettings shelf lossRequests) calm
    (∀ n f hash, w.st.snap.com files n = some f → f.isLiveOf hash = true →
      (∀ i, w.st.snap.ext.removedBy hash = some i → ended w i = true) → w.st.snap.ext.has hash = true) ∧
    (∀ n f hash, w.st.snap.com files n = some f → f.isLiveOf hash = true → w.st.snap.ext.has hash = true) :=
  have hstart : ∀ n f hash, shelf.snap.com files n = some f → f.isLiveOf hash = true → shelf.snap.ext.has hash = true :=
    fun _ _ _ h => (nomatch h)
  have h := content_kept shelfSettings shelf lossRequests calm starts_shelf hstart
  ⟨h.1 (by decide +kernel), h.2 (by decide +kernel)⟩

theorem uploads_kept_demo :
    let w := run (init shelfSettings shelf lossRequests) (moves 0 40)
    (∀ k s, w.st.snap.com sessions k = some s → shelf.snap.ext.object (.upload s.storageKey) ≠ none →
      w.st.snap.ext.cleaned s.storageKey = false → (∀ i, w.st.snap.ext.takenBy s.storageKey = some i → ended w i = true) →
      w.st.snap.ext.object (.upload s.storageKey) ≠ none) ∧
    (∀ k s, w.st.snap.com sessions k = some s → shelf.snap.ext.object (.upload s.storageKey) ≠ none →
      w.st.snap.ext.cleaned s.storageKey = false → w.st.snap.ext.object (.upload s.storageKey) ≠ none) :=
  have h := uploads_kept shelfSettings shelf lossRequests (moves 0 40) starts_shelf
  ⟨h.2.2.1 (by decide), h.2.2.2 (by decide)⟩

/-- The connection is lost after the objects have gone and before the commit: the row is live still. -/
theorem content_lost :
    let w := run (init shelfSettings shelf lossRequests) (moves 0 40 ++ moves 1 14 ++ [.crash 1])
    ((w.st.snap.com files 0).map fun f => (f.sha3Hash, f.status)) = some (some "aa", .pending) ∧
    (w.st.snap.com files 1).isNone = true ∧ w.st.snap.ext.has "aa" = false ∧ ended w 0 = true ∧ ended w 1 = true := by
  decide

/-- The connection is lost after the upload has gone and before the commit: its session row is there still. -/
theorem upload_lost :
    let w := run (init shelfSettings shelf lossRequests) (moves 0 40 ++ moves 2 17 ++ [.crash 2])
    ((w.st.snap.com sessions 0).map fun s => s.storageKey) = some "uploads/u1" ∧
    (w.st.snap.com files 1).isNone = true ∧ w.st.snap.ext.object (.upload "uploads/u1") = none ∧
    w.st.snap.ext.cleaned "uploads/u1" = false ∧ ended w 2 = true := by
  decide

end LkmService.Files
