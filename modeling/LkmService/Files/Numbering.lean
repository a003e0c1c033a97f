/-
Document numbers and reference counts.

`numbering`: between any two moves of any run, the rows of a document code are the versions 1 to k of one document, each
once, all with the first version as their root and with its uploader, classification and project; and the count in each row
of a hash is how many rows of that hash are live. `versions_follow`: over a run, documents are only continued.
-/
import Mathlib.Data.Set.Finite.Lemmas
import LkmService.Files.Requests

namespace LkmService.Files

open Session Sql Sql.Discipline Tbl

variable {settings : Settings} {σ : State} {c : Text}

/-! ## Documents -/

/-- the rows with the code are the versions 1 to `k` of the document that begins with row `r` -/
structure Document (σ : State) (c : Text) (k r : ℕ) : Prop where
  versions : ∀ v, (∃ n f, σ.com files n = some f ∧ f.documentCode = some c ∧ f.version = v) ↔ 1 ≤ v ∧ v ≤ k
  once : ∀ n m f g, σ.com files n = some f → σ.com files m = some g → f.documentCode = some c → g.documentCode = some c →
    f.version = g.version → n = m
  root : ∃ g, σ.com files r = some g ∧ g.documentCode = some c ∧ g.version = 1 ∧
    ∀ n f, σ.com files n = some f → f.documentCode = some c → f.rootFileId = some r ∧ f.uploaderId = g.uploaderId ∧
      f.classification = g.classification ∧ f.projectId = g.projectId

/-- there are finitely many rows of the code, so one of them has the largest version -/
theorem exists_last (hfresh : σ.Fresh ({} : Held)) {n : ℕ} {f : LibraryFile} (hf : σ.com files n = some f)
    (hc : f.documentCode = some c) : ∃ m g, σ.com files m = some g ∧ g.documentCode = some c ∧
      ∀ n f, σ.com files n = some f → f.documentCode = some c → f.version ≤ g.version := by
  have hmem : ∀ m, m ∈ σ.matching files (fun f => decide (f.documentCode = some c)) ↔
      ∃ g, σ.com files m = some g ∧ g.documentCode = some c := by
    intro m
    simp only [Snap.matching, Set.mem_ofPred_eq, Option.any_eq_true, decide_eq_true_eq]
  have hne : (σ.matching files fun f => decide (f.documentCode = some c)).Nonempty := ⟨n, (hmem n).2 ⟨f, hf, hc⟩⟩
  obtain ⟨m, hm, hmax⟩ := Set.exists_max_image _ (fun m => ((σ.com files m).map LibraryFile.version).getD 0)
    (Snap.matching_finite hfresh _) hne
  obtain ⟨g, hg, hgc⟩ := (hmem m).1 hm
  refine ⟨m, g, hg, hgc, ?_⟩
  intro n' f' hf' hc'
  have hle := hmax n' ((hmem n').2 ⟨f', hf', hc'⟩)
  simpa [hf', hg] using hle

theorem Numbered.document (h : Numbered (σ.com files)) (hfresh : σ.Fresh ({} : Held)) {n : ℕ} {f : LibraryFile}
    (hf : σ.com files n = some f) (hc : f.documentCode = some c) : ∃ k r, Document σ c k r := by
  obtain ⟨m, last, hlast, hlastc, hmax⟩ := exists_last hfresh hf hc
  obtain ⟨r, g, hroot⟩ := h.root n f c hf hc
  refine ⟨last.version, r, fun v => ⟨?_, ?_⟩, fun n m f g hf hg hcf hcg hv => h.unique n m f g c hf hg hcf hcg hv,
    g, hroot.row, hroot.code, hroot.version, ?_⟩
  · rintro ⟨n', f', hf', hc', rfl⟩
    exact ⟨h.positive n' f' hf', hmax n' f' hf' hc'⟩
  · intro ⟨hpos, hle⟩
    exact h.lower m last c v hlast hlastc hpos hle
  · intro n' f' hf' hc'
    obtain ⟨r', g', hroot'⟩ := h.root n' f' c hf' hc'
    -- there is one first version
    obtain rfl : r' = r := h.unique r' r g' g c hroot'.row hroot.row hroot'.code hroot.code (hroot'.version.trans hroot.version.symm)
    obtain rfl : g' = g := Option.some.inj (hroot'.row.symm.trans hroot.row)
    exact ⟨hroot'.root, hroot'.uploader, hroot'.classification, hroot'.project⟩

/-! ## Runs -/

abbrev Run := World (Stmt Row Lock Fx) Store Exn Response

def init (settings : Settings) (d : Store) (requests : ℕ → Request) : Run := start d fun i => (requests i).prog settings

/-- a library at rest, in which no session of the run has removed anything -/
structure Starts (d : Store) : Prop where
  inv : Inv d.snap
  own : ∀ i, d.own i = {}
  removed : ∀ h, d.snap.ext.removedBy h = none
  taken : ∀ k, d.snap.ext.takenBy k = none

/-- the sessions that are tasks -/
def tasksOf (requests : ℕ → Request) (i : ℕ) : Bool := (requests i).isTask

theorem Starts.on {d : Store} (h : Starts d) (i : ℕ) : On settings i {} {} d.snap :=
  on_start (fun hash => by simp [h.removed hash]) fun k => by simp [h.taken k]

theorem safe_init {d : Store} {requests : ℕ → Request} (h : Starts d) :
    (discipline settings (tasksOf requests)).protocol.Safe (init settings d requests) := by
  refine safe_start h.inv (fun _ => trivial) h.own ?_
  intro i
  exact wp_mono (prog_spec rfl (h.on i)) fun _ _ _ _ => trivial

theorem legal_run {requests : ℕ → Request} (w : Run) (ms : List Move) :
    (discipline settings (tasksOf requests)).protocol.Legal w ms :=
  legal_of_ok (fun _ _ _ _ => trivial) (fun _ _ _ => trivial) w ms

theorem inv_run {d : Store} {requests : ℕ → Request} (h : Starts d) (ms : List Move) :
    Inv (run (init settings d requests) ms).st.snap :=
  ((discipline settings (tasksOf requests)).protocol.run_inv (safe_init h) (legal_run _ ms)).1

theorem fresh_db (d : Store) : d.snap.Fresh ({} : Held) := by
  intro t n hn
  have hcell := d.fresh t n hn
  exact ⟨by simp [Db.snap, hcell], rfl⟩

/-- **Numbering.** In every run, whoever fails, the versions of every document code are numbered from 1 without a gap or a
repetition and agree with the first one, and every row counts the live rows of its hash. -/
theorem numbering (settings : Settings) (d : Store) (requests : ℕ → Request) (ms : List Move) (h : Starts d) :
    let σ := (run (init settings d requests) ms).st.snap
    (∀ n f c, σ.com files n = some f → f.documentCode = some c → ∃ k r, Document σ c k r) ∧
    (∀ n f hash, σ.com files n = some f → f.sha3Hash = some hash →
      f.refCount = (σ.matching files (LibraryFile.isLiveOf hash)).ncard) := by
  have hinv : Inv (run (init settings d requests) ms).st.snap := inv_run h ms
  refine ⟨fun n f c hf hc => ?_, fun n f hash hf hhash => ?_⟩
  · exact hinv.numbered.document (fresh_db _) hf hc
  · exact hinv.counted hash n f hf hhash

/-! ## The history of a document -/

/-- what becomes of the rows between two moments -/
structure VersionsFollow (file file' : ℕ → Option LibraryFile) : Prop where
  kept : Extends file file'
  /-- a new row of a document has a number beyond those before -/
  follow : ∀ n m f g c, file n = some f → file m = none → file' m = some g → f.documentCode = some c →
    g.documentCode = some c → f.version < g.version

theorem Extends.versionsFollow {file file' : ℕ → Option LibraryFile} (he : Extends file file') (h : Numbered file)
    (h' : Numbered file') : VersionsFollow file file' := by
  refine ⟨he, fun n m f g c hf hm hg hfc hgc => ?_⟩
  by_contra hle
  -- the number has been given already
  obtain ⟨k, x, hx, hxc, hxv⟩ := h.lower n f c g.version hf hfc (h'.positive m g hg) (Nat.le_of_not_lt hle)
  obtain ⟨x', hx', hsame⟩ := he k x hx
  obtain rfl := h'.unique k m x' g c hx' hg (hsame.documentCode.trans hxc) hgc (hsame.version.trans hxv)
  rw [hx] at hm
  cases hm

/-- **The history of a document.** From any moment of a run to any later one, whoever fails: no row is removed or loses the
columns that identify it, and the new versions of a document have numbers beyond all those before. -/
theorem versions_follow (settings : Settings) (d : Store) (requests : ℕ → Request) (pre post : List Move) (h : Starts d) :
    VersionsFollow ((run (init settings d requests) pre).st.snap.com files)
      ((run (init settings d requests) (pre ++ post)).st.snap.com files) := by
  obtain ⟨i, -, -, hrely⟩ := (discipline settings (tasksOf requests)).protocol.run_later pre post (safe_init h) (legal_run _ _)
  have hkept : Extends ((run (init settings d requests) pre).st.snap.com files)
    ((run (init settings d requests) (pre ++ post)).st.snap.com files) := hrely.kept
  exact hkept.versionsFollow (inv_run h pre).numbered (inv_run h (pre ++ post)).numbered

/-! ## A run -/

/-- an empty library with a project -/
def shelf : Store :=
  { tab := fun t =>
      match t with
      | .projects => Table.ofList [⟨7⟩]
      | .sessions => Table.ofList [⟨"u1", 7, "uploads/u1", some ⟨"uploads/u1", { originalName := "b.pdf", versionOf := some 0 }⟩, 0⟩]
      | _ => {}
    ext := { object := fun k => if k = .upload "uploads/u1" then some ⟨"aa", 3⟩ else none } }

def shelfSettings : Settings where
  digest := String.length
  maxUploadBytes := 100
  archiveDir := true
  backupDir := false
  archiveAfter := 10
  searchSync := true
  cleanupBatch := 10
  uploadTtl := 10

/-- a document of two versions with the same content, a second document that waits for the number of the first, a review and
a removal -/
def shelfRequests : ℕ → Request
  | 0 => .create 7 { originalName := "a.pdf", projectId := some 0 } ⟨"aa", 3⟩ 2024 0 {}
  | 1 => .create 8 { originalName := "c.pdf" } ⟨"cc", 4⟩ 2024 0 {}
  | 2 => .confirm "u1" 7 2025 0 {}
  | 3 => .review 0 .approved none true 0 {}
  | _ => .delete 1 8 false {}

theorem starts_shelf : Starts shelf where
  inv := by
    have hfiles : shelf.snap.com files = fun _ => none := rfl
    have hsession : ∀ k s, shelf.snap.com sessions k = some s → k = 0 := by
      intro k s hs
      by_contra hk
      have hnone : shelf.snap.com sessions k = none := by
        obtain ⟨k, rfl⟩ := Nat.exists_eq_succ_of_ne_zero hk
        rfl
      rw [hnone] at hs
      cases hs
    refine ⟨?_, fun h n f hf => ?_, fun h c hc => ?_, fun n m f g k hf => ?_, fun n f k hf => ?_,
      fun k k' s s' hs hs' _ => ?_, fun k s c hs hc => ?_⟩
    · rw [hfiles]
      exact ⟨fun _ _ _ _ _ h => (nomatch h), fun _ _ h => (nomatch h), fun _ _ h => (nomatch h),
        fun _ _ _ _ h => (nomatch h), fun _ _ _ h => (nomatch h)⟩
    · rw [hfiles] at hf
      cases hf
    · have hnone : shelf.snap.ext.object (.content h .main) = none := rfl
      rw [hnone] at hc
      cases hc
    · rw [hfiles] at hf
      cases hf
    · rw [hfiles] at hf
      cases hf
    · rw [hsession k s hs, hsession k' s' hs']
    · obtain rfl := hsession k s hs
      obtain rfl : _ = s := Option.some.inj hs
      obtain rfl : _ = c := Option.some.inj hc
      rfl
  own i := by
    refine Own.ext (funext fun t => funext fun n => ?_) (funext fun k => ?_)
    · cases t with
      | projects =>
        cases n with
        | zero => rfl
        | succ n => rfl
      | sessions =>
        cases n with
        | zero => rfl
        | succ n => rfl
      | _ => rfl
    · simp [Db.own, shelf]
  removed _ := rfl
  taken _ := rfl

def shelfRun : List Move :=
  [0, 1].flatMap (moves · 2) ++ moves 0 40 ++ moves 1 40 ++ [2, 3].flatMap (moves · 40) ++ moves 4 40

theorem numbering_demo :
    let σ := (run (init shelfSettings shelf shelfRequests) shelfRun).st.snap
    (∀ n f c, σ.com files n = some f → f.documentCode = some c → ∃ k r, Document σ c k r) ∧
    (∀ n f hash, σ.com files n = some f → f.sha3Hash = some hash →
      f.refCount = (σ.matching files (LibraryFile.isLiveOf hash)).ncard) :=
  numbering shelfSettings shelf shelfRequests shelfRun starts_shelf

theorem versions_follow_demo :
    VersionsFollow ((run (init shelfSettings shelf shelfRequests) (moves 0 40)).st.snap.com files)
      ((run (init shelfSettings shelf shelfRequests) (moves 0 40 ++ moves 2 40)).st.snap.com files) :=
  versions_follow shelfSettings shelf shelfRequests (moves 0 40) (moves 2 40) starts_shelf

end LkmService.Files
