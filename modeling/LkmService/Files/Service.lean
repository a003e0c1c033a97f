/-
The requests keep the discipline of the library.

`Course` is what has come about in a transaction so far, and `On` says what that means for what the session owns and for
the storage; one lemma for each function of the service. `Ready` is what a request has to come to before it commits.
-/
import LkmService.Files.Invariant

namespace LkmService.Files

open Session Sql Sql.Discipline Tbl

variable {settings : Settings} {task : ℕ → Bool} {i n : ℕ} {o o' : Held} {σ τ υ : State} {hash : String}

/-! ## What has come about -/

/-- the number that an upload has got is free, and nobody else can take it -/
structure Reserved (settings : Settings) (o : Held) (σ : State) (uploader : UserId) (d : Identity) : Prop where
  positive : 1 ≤ d.version
  above : ∀ m g, σ.com files m = some g → g.documentCode = some d.code → g.version < d.version
  lower : ∀ v, 1 ≤ v → v < d.version → ∃ m g, σ.com files m = some g ∧ g.documentCode = some d.code ∧ g.version = v
  root : (d.version = 1 ∧ d.root = none ∧ ∃ y, codePrefix y <+: d.code ∧ o.key (docLock settings (codePrefix y))) ∨
    (1 < d.version ∧ o.key (docLock settings d.code) ∧ ∃ r g, σ.com files r = some g ∧ g.documentCode = some d.code ∧
      g.version = 1 ∧ d.root = some r ∧ g.uploaderId = uploader ∧ g.classification = d.classification ∧ g.projectId = d.project)

theorem Reserved.later {uploader : UserId} {d : Identity} (h : Reserved settings o σ uploader d)
    (hl : (discipline settings task).Later i o σ τ) : Reserved settings o τ uploader d where
  positive := h.positive
  above m g hg hc := by
    have hback : ∀ k f, τ.com files k = some f → f.documentCode = some d.code → (∃ f', σ.com files k = some f') →
        f.version < d.version := by
      rintro k f hf hfc ⟨f', hf'⟩
      obtain ⟨f'', hf'', hs⟩ := hl.rely.kept k f' hf'
      obtain rfl : f'' = f := Option.some.inj (hf''.symm.trans hf)
      rw [hs.version]
      exact h.above k f' hf' (hs.documentCode.symm.trans hfc)
    rcases h.root with ⟨hone, -, y, hy, hk⟩ | ⟨hlt, hk, -⟩
    · -- a document that was begun meanwhile would have begun with a first version
      obtain ⟨r, g', hroot⟩ := hl.inv.numbered.root m g d.code hg hc
      have hfirst := hback r g' hroot.row hroot.code (hl.rely.begun y hk r g' d.code hroot.row hroot.code hy hroot.version)
      have := hroot.version
      omega
    · by_cases hv : 1 < g.version
      · exact hback m g hg hc (hl.rely.continued d.code hk m g hg hc hv)
      · omega
  lower v hpos hlt := by
    obtain ⟨m, g, hg, hgc, hgv⟩ := h.lower v hpos hlt
    obtain ⟨g', hg', hs⟩ := hl.rely.kept m g hg
    exact ⟨m, g', hg', hs.documentCode.trans hgc, hs.version.trans hgv⟩
  root := by
    rcases h.root with hfirst | ⟨hlt, hk, r, g, hg, hgc, hgv, hroot, hu, hcl, hp⟩
    · exact .inl hfirst
    · obtain ⟨g', hg', hs⟩ := hl.rely.kept r g hg
      exact .inr ⟨hlt, hk, r, g', hg', hs.documentCode.trans hgc, hs.version.trans hgv, hroot, hs.uploaderId.trans hu,
        hs.classification.trans hcl, hs.projectId.trans hp⟩

theorem Reserved.own {uploader : UserId} {d : Identity} (h : Reserved settings o σ uploader d)
    (hkey : ∀ k, o.key k → o'.key k) : Reserved settings o' σ uploader d where
  positive := h.positive
  above := h.above
  lower := h.lower
  root := by
    rcases h.root with ⟨hone, hroot, y, hy, hk⟩ | ⟨hlt, hk, hrest⟩
    · exact .inl ⟨hone, hroot, y, hy, hkey _ hk⟩
    · exact .inr ⟨hlt, hkey _ hk, hrest⟩

/-- the upload session that is claimed, the hash that its object was read to have, the number that is reserved and for
whom, the hash that is locked and whether its bytes are known to be there, and what has been removed: the last bytes of a
hash, an upload -/
structure Course where
  claimed : Option (ℕ × UploadSession) := none
  source : Option (String × String) := none
  reserved : Option (UserId × Identity) := none
  locked : Option String := none
  stored : Bool := false
  removed : Option String := none
  taken : Option String := none

structure On (settings : Settings) (i : ℕ) (p : Course) (o : Held) (σ : State) : Prop where
  claims : ∀ k v, o.row sessions k = some v → v = none ∧ ∃ s, p.claimed = some (k, s)
  claimed : ∀ k s, p.claimed = some (k, s) → o.row sessions k = some none ∧ σ.com sessions k = some s
  source : ∀ k h, p.source = some (k, h) → ∀ c, σ.ext.object (.upload k) = some c → c.hash = h
  reserved : ∀ u d, p.reserved = some (u, d) → Reserved settings o σ u d
  locked : ∀ h, p.locked = some h → o.key (hashLock settings h)
  stored : p.stored = true → ∀ h, p.locked = some h → σ.ext.has h = true
  removed : ∀ h, σ.ext.removedBy h = some i → p.removed = some h
  taken : ∀ k, σ.ext.takenBy k = some i → p.taken = some k

variable {p : Course}

namespace On

theorem later (h : On settings i p o σ) (hl : (discipline settings task).Later i o σ τ) : On settings i p o τ where
  claims := h.claims
  claimed k s hk := by
    obtain ⟨hrow, hcom⟩ := h.claimed k s hk
    exact ⟨hrow, (hl.com_eq hrow).trans hcom⟩
  source k hash hk c hc := h.source k hash hk c (hl.rely.uploads k c hc)
  reserved u d hd := (h.reserved u d hd).later hl
  locked := h.locked
  stored hs hash hk := by
    rw [Storage.has_of_bytes (hl.rely.bytes hash (h.locked hash hk))]
    exact h.stored hs hash hk
  removed hash hr := h.removed hash (hl.rely.removed hash hr)
  taken k ht := h.taken k (hl.rely.taken k ht)

/-- the session owns more, but no more upload sessions -/
theorem own (h : On settings i p o σ) (hrow : o'.row sessions = o.row sessions) (hkey : ∀ k, o.key k → o'.key k) :
    On settings i p o' σ where
  claims k v hv := h.claims k v (hrow ▸ hv)
  claimed k s hk := by
    rw [hrow]
    exact h.claimed k s hk
  source := h.source
  reserved u d hd := (h.reserved u d hd).own hkey
  locked hash hk := hkey _ (h.locked hash hk)
  stored := h.stored
  removed := h.removed
  taken := h.taken

theorem put (h : On settings i p o σ) {t : Tbl} (ht : sessions ≠ t) (m : ℕ) (v : Option (Row t)) :
    On settings i p (o.put t m v) σ := h.own (Own.put_row_other t m v ht) fun _ hk => hk

theorem take (h : On settings i p o σ) (k : Lock) : On settings i p (o.take k) σ := h.own rfl fun _ => .inr

theorem bump (h : On settings i p o σ) (t : Tbl) (m : ℕ) : On settings i p o (σ.bump t m) := by
  refine ⟨h.claims, h.claimed, h.source, fun u d hd => ?_, h.locked, h.stored, h.removed, h.taken⟩
  have hr := h.reserved u d hd
  exact ⟨hr.positive, hr.above, hr.lower, hr.root⟩

/-- the storage changes where nothing of the course is concerned -/
theorem ext {s : Storage} (h : On settings i p o σ) (hstored : ∀ hash, σ.ext.has hash = true → s.has hash = true)
    (huploads : ∀ k, s.object (.upload k) = σ.ext.object (.upload k)) (hremoved : s.removedBy = σ.ext.removedBy)
    (htaken : s.takenBy = σ.ext.takenBy) : On settings i p o { σ with ext := s } where
  claims := h.claims
  claimed := h.claimed
  source k hash hk c hc := h.source k hash hk c (huploads k ▸ hc)
  reserved u d hd := by
    have hr := h.reserved u d hd
    exact ⟨hr.positive, hr.above, hr.lower, hr.root⟩
  locked := h.locked
  stored hs hash hk := hstored hash (h.stored hs hash hk)
  removed hash hr := h.removed hash (congrFun hremoved hash ▸ hr)
  taken k ht := h.taken k (congrFun htaken k ▸ ht)

end On

/-! ## Statements -/

section Statements

variable {D : Discipline Row Lock Fx Storage}

theorem wp_getOrRaise {t : Tbl} {e : Exn} {P : Row t → Held → State → Prop}
    (h : ∀ τ r, D.Later i o σ τ → o.view τ t n = some r → P r o τ) :
    D.wp i (getOrRaise t n e) (Returns P) o σ := by
  unfold getOrRaise
  refine wp_bind (wp_select ?_)
  intro τ hl l hmem _
  dsimp only
  cases hhead : l.head? with
  | none => exact wp_fail e
  | some q =>
    obtain ⟨hv, hn⟩ := (hmem q.1 q.2).1 (List.mem_of_head? hhead)
    obtain rfl : q.1 = n := of_decide_eq_true hn
    exact wp_return (h τ q.2 hl hv)

theorem wp_orRaise {x : Fx Bool} {e : Exn} {P : Unit → Held → State → Prop}
    (h : D.wp i (perform x : Op Bool) (Returns fun b o τ => b = true → P () o τ) o σ) :
    D.wp i (orRaise x e) (Returns P) o σ := by
  unfold orRaise
  refine wp_seq h ?_
  intro b o τ hb
  cases b with
  | true => exact wp_return (hb rfl)
  | false => exact wp_fail e

theorem wp_flushFile {f : LibraryFile → LibraryFile} {r : LibraryFile} {P : Unit → Held → State → Prop}
    (hrow : o.row files n = some (some r)) (h : ∀ τ, D.Later i o σ τ → P () (o.put files n (some (f r))) τ) :
    D.wp i (flushFile n f) (Returns P) o σ := by
  unfold flushFile
  refine wp_bind (wp_updateOwned rfl hrow ?_)
  intro τ hl
  exact wp_return (h τ hl)

/-- a read of rows of which nothing but the answer is used -/
theorem wp_lookup {t : Tbl} {q : ℕ → Row t → Bool} {P : List (ℕ × Row t) → Held → State → Prop}
    (h : ∀ τ l, D.Later i o σ τ → P l o τ) : D.wp i (select t q : Op _) (Returns P) o σ :=
  wp_select fun τ hl l _ _ => h τ l hl

end Statements

/-- a statement on the storage -/
theorem wp_steps {β : Type} {x : Fx β} (touched : Option String) {P : β → Held → State → Prop}
    (hkey : ∀ h, touched = some h → o.key (hashLock settings h))
    (h : ∀ τ, (discipline settings task).Later i o σ τ →
      Steps i (task i) touched τ.ext (Effects.exec i x τ.ext).2 ∧
        P (Effects.exec i x τ.ext).1 o { τ with ext := (Effects.exec i x τ.ext).2 }) :
    (discipline settings task).wp i (perform x : Op β) (Returns P) o σ := by
  refine wp_perform ?_
  intro τ hl _
  obtain ⟨hsteps, hP⟩ := h τ hl
  exact ⟨good_steps hl.inv hsteps hkey, hP⟩

/-- a call that leaves the storage as it is -/
theorem wp_call {β : Type} {x : Fx β} {P : β → Held → State → Prop} (hx : ∀ s, (Effects.exec i x s).2 = s)
    (h : ∀ τ, (discipline settings task).Later i o σ τ → P (Effects.exec i x τ.ext).1 o τ) :
    (discipline settings task).wp i (perform x : Op β) (Returns P) o σ := by
  refine wp_steps none (fun _ h => nomatch h) ?_
  intro τ hl
  rw [hx]
  exact ⟨Steps.refl _ _, h τ hl⟩

theorem wp_fileInfo {f : LibraryFile} {calls : Calls} {P : FileInfo → Held → State → Prop}
    (h : ∀ τ info, (discipline settings task).Later i o σ τ → P info o τ) :
    (discipline settings task).wp i (fileInfo n f calls) (Returns P) o σ := by
  unfold fileInfo
  refine wp_seq (P := fun _ o τ => ∀ info, P info o τ) ?_ ?_
  · exact wp_call (fun _ => rfl) fun τ hl info => h τ info hl
  intro answer o τ hP
  cases answer with
  | none => exact wp_fail Exn.unavailable
  | some name => exact wp_return (hP _)

/-! ## Numbers for uploads -/

theorem On.lock (h : On settings i p o σ) (hash : String) :
    On settings i { p with locked := some hash, stored := false } (o.take (hashLock settings hash)) σ where
  claims := h.claims
  claimed := h.claimed
  source := h.source
  reserved u d hd := (h.reserved u d hd).own fun _ => .inr
  locked hash' hk := by
    obtain rfl : hash = hash' := Option.some.inj hk
    exact .inl rfl
  stored hs := nomatch hs
  removed := h.removed
  taken := h.taken

theorem On.reserve (h : On settings i p o σ) {u : UserId} {d : Identity} (hd : Reserved settings o σ u d) :
    On settings i { p with reserved := some (u, d) } o σ where
  claims := h.claims
  claimed := h.claimed
  source := h.source
  reserved u' d' heq := by
    obtain ⟨rfl, rfl⟩ : u = u' ∧ d = d' := by simpa using heq
    exact hd
  locked := h.locked
  stored := h.stored
  removed := h.removed
  taken := h.taken

theorem nextDocumentCode_spec {year : ℕ} (hp : On settings i p o σ) (hn : o.Nothing files) :
    (discipline settings task).wp i (nextDocumentCode settings year) (Returns fun code o τ =>
      On settings i p o τ ∧ o.Nothing files ∧ ∀ u cl pr, Reserved settings o τ u ⟨code, 1, none, cl, pr⟩) o σ := by
  unfold nextDocumentCode lockDocument
  refine wp_bind (wp_lockKey ?_)
  intro τ hl _
  refine wp_bind (wp_select ?_)
  intro υ hl' l hmem _
  dsimp only
  split
  · exact wp_fail Exn.dataError
  next numbers hnumbers =>
  have hon := ((hp.later hl).take (docLock settings (codePrefix year))).later hl'
  have hfresh := next_code_fresh hnumbers
  refine wp_return ⟨hon, hn, fun u cl pr => ⟨le_rfl, fun m g hg hc => ?_, fun v hpos hlt => ?_, .inl ⟨rfl, rfl, year, ?_, .inl rfl⟩⟩⟩
  · -- a row with the new code would have been read
    have hread := (hmem m g).2 ⟨(Own.view_of_none (hn m)).trans hg, by simp [hc]⟩
    exact absurd (by rw [hc, Option.getD_some]) (hfresh (m, g) hread)
  · change v < 1 at hlt
    omega
  · exact List.prefix_append _ _

theorem nextVersion_spec {code : Text} {parent : LibraryFile} (hp : On settings i p o σ) (hn : o.Nothing files)
    (hparent : σ.com files n = some parent) (hcode : parent.documentCode = some code) :
    (discipline settings task).wp i (nextVersion settings code) (Returns fun version o τ =>
      On settings i p o τ ∧ o.Nothing files ∧ Reserved settings o τ parent.uploaderId
        ⟨code, version, some (parent.rootFileId.getD n), parent.classification, parent.projectId⟩) o σ := by
  unfold nextVersion lockDocument
  refine wp_bind (wp_lockKey ?_)
  intro τ hl _
  refine wp_bind (wp_select ?_)
  intro υ hl' l hmem _
  have hon := ((hp.later hl).take (docLock settings code)).later hl'
  have hread : ∀ m g, υ.com files m = some g → g.documentCode = some code → (m, g) ∈ l := by
    intro m g hg hc
    exact (hmem m g).2 ⟨(Own.view_of_none (hn m)).trans hg, by simp [hc]⟩
  obtain ⟨g, hg, hs⟩ := hl.rely.kept n parent hparent
  obtain ⟨g', hg', hs'⟩ := hl'.rely.kept n g hg
  have hsame := hs.trans hs'
  have hle : ∀ m f, υ.com files m = some f → f.documentCode = some code → f.version ≤ largest (l.map fun q => q.2.version) :=
    fun m f hf hc => le_largest (List.mem_map.2 ⟨(m, f), hread m f hf hc, rfl⟩)
  have hfirst : 1 ≤ g'.version := hl'.inv.numbered.positive n g' hg'
  have hown := hle n g' hg' (hsame.documentCode.trans hcode)
  refine wp_return ⟨hon, hn, ⟨?_, fun m f hf hc => ?_, fun v hpos hlt => ?_, .inr ⟨?_, .inl rfl, ?_⟩⟩⟩
  · change 1 ≤ _ + 1
    omega
  · exact Nat.lt_succ_of_le (hle m f hf hc)
  · -- some version is not below `v`, and those below it are all there
    change v < _ + 1 at hlt
    by_contra hnone
    have hbelow : largest (l.map fun q => q.2.version) ≤ v - 1 := by
      refine largest_le fun a ha => ?_
      obtain ⟨⟨m, f⟩, hmf, rfl⟩ := List.mem_map.1 ha
      obtain ⟨hv, hc⟩ := (hmem m f).1 hmf
      have hf := (Own.view_of_none (hn m)).symm.trans hv
      by_contra hge
      exact hnone (hl'.inv.numbered.lower m f code v hf (by simpa using hc) hpos (by dsimp only at hge ⊢; omega))
    omega
  · change 1 < _ + 1
    omega
  · obtain ⟨r, root, hroot⟩ := hl'.inv.numbered.root n g' code hg' (hsame.documentCode.trans hcode)
    refine ⟨r, root, hroot.row, hroot.code, hroot.version, ?_, ?_, ?_, ?_⟩
    · rw [← hsame.rootFileId, hroot.root]
      rfl
    · exact hroot.uploader.symm.trans hsame.uploaderId
    · exact hroot.classification.symm.trans hsame.classification
    · exact hroot.project.symm.trans hsame.projectId

theorem canUploadToProject_spec {project : ℕ} {user : UserId} (hp : On settings i p o σ) :
    (discipline settings task).wp i (canUploadToProject project user) (Returns fun _ o' τ => o' = o ∧ On settings i p o τ) o σ := by
  unfold canUploadToProject
  refine wp_seq (P := fun _ o' τ => o' = o ∧ On settings i p o τ) ?_ ?_
  · exact wp_lookup fun τ l hl => ⟨rfl, hp.later hl⟩
  rintro rows o τ ⟨rfl, hon⟩
  split
  · exact wp_return ⟨rfl, hon⟩
  split_ifs
  · exact wp_return ⟨rfl, hon⟩
  refine wp_seq (P := fun _ o' τ => o' = o ∧ On settings i p o τ) ?_ ?_
  · exact wp_lookup fun υ l hl => ⟨rfl, hon.later hl⟩
  rintro _ o υ ⟨rfl, hon'⟩
  exact wp_return ⟨rfl, hon'⟩

theorem identityForUpload_spec {uploader : UserId} {info : FileCreate} {year : ℕ} (hp : On settings i p o σ)
    (hn : o.Nothing files) :
    (discipline settings task).wp i (identityForUpload settings uploader info year) (Returns fun a o τ =>
      On settings i { p with reserved := some (uploader, a.2) } o τ ∧ o.Nothing files) o σ := by
  unfold identityForUpload
  split
  next parent _ =>
    refine wp_seq (P := fun f o' τ => o' = o ∧ On settings i p o τ ∧ τ.com files parent = some f) ?_ ?_
    · exact wp_getOrRaise fun τ f hl hv => ⟨rfl, hp.later hl, (Own.view_of_none (hn parent)).symm.trans hv⟩
    rintro f o τ ⟨rfl, hon, hf⟩
    split
    · exact wp_fail _
    next howner =>
    split
    · exact wp_fail _
    split
    · exact wp_fail _
    next code hcode =>
    refine wp_seq (nextVersion_spec hon hn hf hcode) ?_
    rintro version o' υ ⟨hon', hn', hreserved⟩
    obtain rfl : f.uploaderId = uploader := not_not.1 howner
    exact wp_return ⟨hon'.reserve hreserved, hn'⟩
  · have hrest : ∀ (allowed : Bool) (o' : Held) (τ : State), o' = o ∧ On settings i p o τ →
        (discipline settings task).wp i (if (!allowed) = true then Prog.raise Exn.invalidProject else do
            let code ← nextDocumentCode settings year
            pure (info, Identity.mk code 1 none info.classification info.projectId))
          (Returns fun a o τ => On settings i { p with reserved := some (uploader, a.2) } o τ ∧ o.Nothing files) o' τ := by
      rintro allowed o τ ⟨rfl, hon⟩
      split
      · exact wp_fail _
      refine wp_seq (nextDocumentCode_spec hon hn) ?_
      rintro code o' υ ⟨hon', hn', hreserved⟩
      exact wp_return ⟨hon'.reserve (hreserved _ _ _), hn'⟩
    dsimp only
    split
    · exact hrest true o σ ⟨rfl, hp⟩
    · exact wp_seq (canUploadToProject_spec hp) hrest

/-! ## The storage of a request -/

theorem On.store (h : On settings i { p with locked := some hash } o σ) (hhas : σ.ext.has hash = true) :
    On settings i { p with locked := some hash, stored := true } o σ where
  claims := h.claims
  claimed := h.claimed
  source := h.source
  reserved := h.reserved
  locked := h.locked
  stored _ hash' hk := by
    obtain rfl : hash = hash' := Option.some.inj hk
    exact hhas
  removed := h.removed
  taken := h.taken

/-- what `exists` says of the object at the key of a hash -/
theorem has_of_present {s : Storage} {works : Bool}
    (h : (Effects.exec i (Fx.present (.content hash .main) works) s).1 = some true) : s.has hash = true := by
  cases works with
  | false => cases h
  | true =>
    have hsome : (s.object (.content hash .main)).isSome = true := Option.some.inj h
    simp [Storage.has, hsome]

theorem has_put {s : Storage} {k : Key} {c : Object} {h : String} (hhas : s.has h = true) : (s.put k c).has h = true := by
  simp only [Storage.has, Bool.or_eq_true] at hhas ⊢
  rcases hhas with hhas | hhas
  · left
    simp only [Storage.put, Function.update_apply]
    split_ifs
    · rfl
    · exact hhas
  · exact .inr hhas

theorem object_put {s : Storage} {v : Variant} {c : Object} (k : String) :
    (s.put (.content hash v) c).object (.upload k) = s.object (.upload k) := by
  have hne : Key.upload k ≠ .content hash v := by simp
  exact Function.update_of_ne hne (some c) s.object

theorem has_put_self (s : Storage) (c : Object) : (s.put (.content hash .main) c).has hash = true := by
  simp [Storage.has, Storage.put]

theorem storeContent_spec {content : Object} {calls : Calls}
    (hp : On settings i { p with locked := some content.hash } o σ) :
    (discipline settings task).wp i (storeContent content calls) (Returns fun _ o' τ => o' = o ∧
      On settings i { p with locked := some content.hash, stored := true } o τ) o σ := by
  unfold storeContent
  refine wp_seq (P := fun b o' τ => o' = o ∧ On settings i { p with locked := some content.hash } o τ ∧
    (b = some true → τ.ext.has content.hash = true)) ?_ ?_
  · exact wp_call (fun _ => rfl) fun τ hl => ⟨rfl, hp.later hl, has_of_present⟩
  rintro b o τ ⟨rfl, hon, hhas⟩
  split
  · exact wp_fail _
  · exact wp_return ⟨rfl, hon.store (hhas rfl)⟩
  refine wp_orRaise (wp_steps (some content.hash) ?_ ?_)
  · intro h heq
    exact Option.some.inj heq ▸ hon.locked _ rfl
  intro υ hl
  cases calls.save with
  | false => exact ⟨Steps.refl _ _, nofun⟩
  | true =>
    refine ⟨steps_put fun _ => rfl, fun _ => ⟨rfl, ?_⟩⟩
    have hext := (hon.later hl).ext (s := υ.ext.put (.content content.hash .main) content) (fun _ => has_put) object_put rfl rfl
    exact hext.store (has_put_self _ _)

theorem savePreview_spec {preview works : Bool} (hp : On settings i p o σ) (hlocked : p.locked = some hash) :
    (discipline settings task).wp i (savePreview hash preview works) (Returns fun _ o' τ => o' = o ∧ On settings i p o τ) o σ := by
  unfold savePreview
  split_ifs
  · refine wp_seq (P := fun _ o' τ => o' = o ∧ On settings i p o τ) (wp_steps (some hash) ?_ ?_) ?_
    · intro h heq
      exact hp.locked _ (hlocked.trans heq)
    · intro τ hl
      cases works with
      | false => exact ⟨Steps.refl _ _, rfl, hp.later hl⟩
      | true => exact ⟨steps_put nofun, rfl, (hp.later hl).ext (fun _ => has_put) object_put rfl rfl⟩
    rintro _ o τ ⟨rfl, hon⟩
    exact wp_return ⟨rfl, hon⟩
  · exact wp_return ⟨rfl, hp⟩

theorem copyContent_spec {key : String} {calls : Calls} (hp : On settings i { p with locked := some hash } o σ)
    (hsource : p.source = some (key, hash)) :
    (discipline settings task).wp i (copyContent key hash calls) (Returns fun _ o' τ => o' = o ∧
      On settings i { p with locked := some hash, stored := true } o τ) o σ := by
  unfold copyContent
  refine wp_seq (P := fun b o' τ => o' = o ∧ On settings i { p with locked := some hash } o τ ∧
    (b = some true → τ.ext.has hash = true)) ?_ ?_
  · exact wp_call (fun _ => rfl) fun τ hl => ⟨rfl, hp.later hl, has_of_present⟩
  rintro b o τ ⟨rfl, hon, hhas⟩
  split
  · exact wp_fail _
  · exact wp_return ⟨rfl, hon.store (hhas rfl)⟩
  refine wp_orRaise (wp_steps (some hash) ?_ ?_)
  · intro h heq
    exact Option.some.inj heq ▸ hon.locked _ rfl
  intro υ hl
  simp only [Effects.exec]
  cases hobject : υ.ext.object (.upload key) with
  | none => exact ⟨Steps.refl _ _, nofun⟩
  | some c =>
    cases calls.copy with
    | false => exact ⟨Steps.refl _ _, nofun⟩
    | true =>
      refine ⟨steps_put fun _ => (hon.later hl).source key hash hsource c hobject, fun _ => ⟨trivial, ?_⟩⟩
      have hext := (hon.later hl).ext (s := υ.ext.put (.content hash .main) c) (fun _ => has_put) object_put rfl rfl
      exact hext.store (has_put_self _ _)

theorem addFile_spec {f : LibraryFile} (hp : On settings i p o σ) (hn : o.Nothing files) :
    (discipline settings task).wp i (addFile f) (Returns fun n o' τ =>
      On settings i p o' τ ∧ o'.Just files n (some f) ∧ τ.com files n = none) o σ := by
  unfold addFile
  refine wp_bind (wp_insertUnique ?_ ?_)
  · intro τ m r _ _ _
    exact wp_fail Exn.dataError
  intro τ hl _
  refine wp_return ⟨?_, (hn.just _ _).take _, (hl.fresh files _ le_rfl).1⟩
  exact (((hp.later hl).put (by decide) _ _).take _).bump _ _

/-! ## Reference counts -/

def ofHash (hash : String) (v : Option LibraryFile) : Option LibraryFile := v.filter fun f => decide (f.sha3Hash = some hash)

theorem ofHash_eq_some {v : Option LibraryFile} {f : LibraryFile} :
    ofHash hash v = some f ↔ v = some f ∧ f.sha3Hash = some hash := by
  simp [ofHash, Option.filter_eq_some_iff]

/-- the row `m` of the hash with the count `c`, if it is one -/
def recount (hash : String) (c : ℕ) (o : Held) (σ : State) (m : ℕ) : Option (Option LibraryFile) :=
  (ofHash hash (o.view σ files m)).map fun f => some { f with refCount := c }

/-- all rows of the hash that the session sees have the count `c`, and it is right -/
structure Recounted (hash : String) (c : ℕ) (o o' : Held) (σ : State) : Prop where
  other : ∀ t, t ≠ files → o'.row t = o.row t
  key : o'.key = o.key
  rows : ∀ m, o'.row files m = (recount hash c o σ m).or (o.row files m)
  count : c = ((σ.merge o).matching files (LibraryFile.isLiveOf hash)).ncard

/-- under the lock of the hash its rows stay -/
theorem ofHash_later (hkey : o'.key (hashLock settings hash)) (hl : (discipline settings task).Later i o' σ τ) (o : Held)
    (m : ℕ) : ofHash hash (o.view τ files m) = ofHash hash (o.view σ files m) := by
  refine Option.ext fun f => ?_
  rw [ofHash_eq_some, ofHash_eq_some]
  refine and_congr_left fun hf => ?_
  rcases hrow : o.row files m with _ | v
  · rw [Own.view_of_none hrow, Own.view_of_none hrow]
    exact hl.rely.rows hash hkey m f hf
  · rw [Own.view_of_row hrow, Own.view_of_row hrow]

theorem matching_eq {σ τ : State} (h : ∀ m, ofHash hash (τ.com files m) = ofHash hash (σ.com files m)) :
    τ.matching files (LibraryFile.isLiveOf hash) = σ.matching files (LibraryFile.isLiveOf hash) := by
  have hany : ∀ v : Option LibraryFile, v.any (LibraryFile.isLiveOf hash) = (ofHash hash v).any fun f => isLive f.status := by
    intro v
    cases v with
    | none => rfl
    | some f => by_cases hf : f.sha3Hash = some hash <;> simp [ofHash, LibraryFile.isLiveOf, Option.filter, hf]
  refine Set.ext fun m => ?_
  simp only [Snap.matching, Set.mem_ofPred_eq, hany, h]

theorem recount_later (hkey : o'.key (hashLock settings hash)) (hl : (discipline settings task).Later i o' σ τ) (c : ℕ)
    (o : Held) (m : ℕ) : recount hash c o τ m = recount hash c o σ m := by
  rw [recount, recount, ofHash_later hkey hl]

theorem Recounted.later {c : ℕ} (h : Recounted hash c o o' σ) (hkey : o.key (hashLock settings hash))
    (hl : (discipline settings task).Later i o' σ τ) : Recounted hash c o o' τ := by
  have hkey' : o'.key (hashLock settings hash) := h.key ▸ hkey
  refine ⟨h.other, h.key, fun m => ?_, ?_⟩
  · rw [recount_later hkey' hl]
    exact h.rows m
  · rw [matching_eq (σ := σ.merge o) fun m => ofHash_later hkey' hl o m]
    exact h.count

/-- the UPDATE, row by row; by induction on the rows that are left -/
theorem updateRows_spec {c : ℕ} {ns : List ℕ} (base : Held) (hkey : o.key (hashLock settings hash))
    (hrows : ∀ m, o.row files m = base.row files m ∨ (o.row files m = recount hash c base σ m ∧ recount hash c base σ m ≠ none))
    (hns : ∀ m ∈ ns, recount hash c base σ m ≠ none) (hp : On settings i p o σ) :
    (discipline settings task).wp i (updateAll files (fun f => decide (f.sha3Hash = some hash))
      (fun f => { f with refCount := c }) ns : Op ℕ) (Returns fun _ o' τ => On settings i p o' τ ∧ o'.key = o.key ∧
        (∀ t, t ≠ files → o'.row t = o.row t) ∧
        (∀ m, o'.row files m = if m ∈ ns then recount hash c base τ m else o.row files m) ∧
        (∀ m, ofHash hash (base.view τ files m) = ofHash hash (base.view σ files m)) ∧
        ∀ t m, o.row t m ≠ none → τ.com t m = σ.com t m) o σ := by
  induction ns generalizing o σ with
  | nil => exact wp_return ⟨hp, rfl, fun _ _ => rfl, fun m => by simp, fun m => rfl, fun _ _ _ => rfl⟩
  | cons n ns ih =>
    -- what the session sees of the next row is of the hash
    have hview : ∀ τ, (discipline settings task).Later i o σ τ → ∃ f, ofHash hash (base.view τ files n) = some f ∧
        (o.view τ files n = some f ∨ o.view τ files n = some { f with refCount := c }) := by
      intro τ hl
      have hsome := hns n List.mem_cons_self
      rw [← recount_later hkey hl] at hsome
      obtain ⟨v, hv⟩ := Option.ne_none_iff_exists'.1 hsome
      obtain ⟨f, hf, rfl⟩ := Option.map_eq_some_iff.1 hv
      refine ⟨f, hf, ?_⟩
      rcases hrows n with hrow | ⟨hrow, -⟩
      · left
        rw [Own.view, hrow]
        exact (ofHash_eq_some.1 hf).1
      · right
        rw [← recount_later hkey hl, hv] at hrow
        exact Own.view_of_row hrow
    refine wp_bind (wp_updateRow ?_ ?_)
    · intro τ hl hmiss
      obtain ⟨f, hf, hv | hv⟩ := hview τ hl
      · have hfalse := hmiss _ hv
        simp [(ofHash_eq_some.1 hf).2] at hfalse
      · have hfalse := hmiss _ hv
        simp [(ofHash_eq_some.1 hf).2] at hfalse
    intro τ r hl hv _
    obtain ⟨f, hf, hcase⟩ := hview τ hl
    have hnew : recount hash c base τ n = some (some { r with refCount := c }) := by
      rw [recount, hf]
      rcases hcase with hcase | hcase
      · rw [hcase] at hv
        rw [← Option.some.inj hv, Option.map_some]
      · rw [hcase] at hv
        rw [← Option.some.inj hv, Option.map_some]
    have hrest := ih (o := o.put files n (some { r with refCount := c })) (σ := τ) hkey (fun m => ?_) (fun m hm => ?_)
      ((hp.later hl).put (by decide) _ _)
    · refine wp_seq hrest ?_
      rintro _ o' υ ⟨hon, hkeys, hother, hafter, hbase, hcom⟩
      refine wp_return ⟨hon, hkeys, fun t ht => ?_, fun m => ?_, fun m => ?_, fun t m hm => ?_⟩
      · rw [hother t ht, Own.put_row_other _ _ _ ht]
      · rw [hafter m, Own.put_row_same]
        by_cases hm : m ∈ ns
        · simp [hm]
        · by_cases hmn : m = n
          · subst hmn
            have hsame : recount hash c base υ m = recount hash c base τ m := by rw [recount, recount, hbase]
            simp [hm, hsame, hnew]
          · simp [hm, hmn]
      · rw [hbase, ofHash_later hkey hl]
      · exact (hcom t m ((Own.sub_put _ _ _ _).row t m hm)).trans (hl.com t m hm)
    · by_cases hmn : m = n
      · subst hmn
        right
        rw [hnew]
        exact ⟨Own.put_row_self _ _ _, Option.some_ne_none _⟩
      · rw [Own.put_row_same, if_neg hmn, recount_later hkey hl]
        exact hrows m
    · rw [recount_later hkey hl]
      exact hns m (List.mem_cons_of_mem _ hm)

/-- what is counted is what the session sees -/
theorem countLive_spec {P : ℕ → Held → State → Prop} (h : ∀ τ, (discipline settings task).Later i o σ τ →
    P ((τ.merge o).matching files (LibraryFile.isLiveOf hash)).ncard o τ) :
    (discipline settings task).wp i (countLiveByHash hash) (Returns P) o σ := by
  unfold countLiveByHash
  refine wp_bind (wp_select ?_)
  intro τ hl l hmem hsorted
  refine wp_return ?_
  rw [length_eq_ncard hsorted (s := (τ.merge o).matching files (LibraryFile.isLiveOf hash))]
  · exact h τ hl
  · intro m
    simp only [Snap.matching, Set.mem_ofPred_eq, Option.any_eq_true]
    constructor
    · rintro ⟨f, hf, hlive⟩
      exact ⟨f, (hmem m f).2 ⟨hf, hlive⟩⟩
    · rintro ⟨f, hf⟩
      exact ⟨f, (hmem m f).1 hf⟩

theorem syncRefCount_spec (hp : On settings i p o σ) (hlocked : p.locked = some hash) :
    (discipline settings task).wp i (syncRefCount hash) (Returns fun _ o' τ =>
      On settings i p o' τ ∧ (∃ c, Recounted hash c o o' τ) ∧ ∀ t m, o.row t m ≠ none → τ.com t m = σ.com t m) o σ := by
  unfold syncRefCount
  have hkey := hp.locked hash hlocked
  refine wp_seq (P := fun c o' τ => o' = o ∧ On settings i p o τ ∧
    c = ((τ.merge o).matching files (LibraryFile.isLiveOf hash)).ncard ∧ ∀ t m, o.row t m ≠ none → τ.com t m = σ.com t m) ?_ ?_
  · exact countLive_spec fun τ hl => ⟨rfl, hp.later hl, rfl, hl.com⟩
  rintro c o τ ⟨rfl, hon, hc, hbefore⟩
  refine wp_bind (wp_select ?_)
  intro υ hl l hmem _
  have hcount : c = ((υ.merge o).matching files (LibraryFile.isLiveOf hash)).ncard := by
    rw [matching_eq (σ := τ.merge o) fun m => ofHash_later hkey hl o m]
    exact hc
  have hread : ∀ m, m ∈ l.map Prod.fst ↔ recount hash c o υ m ≠ none := by
    intro m
    simp only [recount, ne_eq, Option.map_eq_none_iff, ← Option.isSome_iff_ne_none, Option.isSome_iff_exists, ofHash_eq_some,
      List.mem_map, Prod.exists]
    constructor
    · rintro ⟨_, f, hf, rfl⟩
      exact ⟨f, ((hmem _ f).1 hf).1, of_decide_eq_true ((hmem _ f).1 hf).2⟩
    · rintro ⟨f, hf, hhash⟩
      exact ⟨m, f, (hmem m f).2 ⟨hf, decide_eq_true hhash⟩, rfl⟩
  refine wp_seq (updateRows_spec o hkey (fun m => .inl rfl) (fun m hm => (hread m).1 hm) (hon.later hl)) ?_
  rintro _ o' ρ ⟨hon', hkeys, hother, hafter, hbase, hcom⟩
  refine wp_return ⟨hon', ⟨c, hother, hkeys, fun m => ?_, ?_⟩, fun t m hm => ?_⟩
  · have hsame : recount hash c o ρ m = recount hash c o υ m := by rw [recount, recount, hbase]
    rw [hafter m, hsame]
    by_cases hm : m ∈ l.map Prod.fst
    · obtain ⟨v, hv⟩ := Option.ne_none_iff_exists'.1 ((hread m).1 hm)
      simp [hm, hv]
    · have hnone : recount hash c o υ m = none := by
        by_contra hne
        exact hm ((hread m).2 hne)
      simp [hm, hnone]
  · rw [matching_eq (σ := υ.merge o) fun m => hbase m]
    exact hcount
  · exact (hcom t m hm).trans ((hl.com t m hm).trans (hbefore t m hm))

namespace Recounted

variable {c : ℕ} {base : Held} {f f' : LibraryFile}

theorem view (h : Recounted hash c base o σ) (m : ℕ) :
    o.view σ files m = (base.view σ files m).map fun f => if f.sha3Hash = some hash then { f with refCount := c } else f := by
  rw [Own.view, h.rows m]
  cases hrow : recount hash c base σ m with
  | some v =>
    obtain ⟨f, hf, rfl⟩ := Option.map_eq_some_iff.1 hrow
    obtain ⟨hv, hhash⟩ := ofHash_eq_some.1 hf
    simp [hv, hhash]
  | none =>
    have hnone := Option.map_eq_none_iff.1 hrow
    change base.view σ files m = _
    cases hv : base.view σ files m with
    | none => rfl
    | some f =>
      have hhash : ¬ f.sha3Hash = some hash := by
        intro hhash
        rw [ofHash_eq_some.2 ⟨hv, hhash⟩] at hnone
        cases hnone
      simp [hhash]

theorem counted (h : Recounted hash c base o σ) : Counted (σ.merge o) hash := by
  have hmatching : (σ.merge o).matching files (LibraryFile.isLiveOf hash) =
      (σ.merge base).matching files (LibraryFile.isLiveOf hash) := by
    refine Set.ext fun m => ?_
    change (o.view σ files m).any _ = true ↔ (base.view σ files m).any _ = true
    rw [h.view]
    cases base.view σ files m with
    | none => rfl
    | some f => by_cases hhash : f.sha3Hash = some hash <;> simp [LibraryFile.isLiveOf, hhash]
  intro n f hf hhash
  rw [hmatching, ← h.count]
  change o.view σ files n = some f at hf
  rw [h.view] at hf
  obtain ⟨g, -, rfl⟩ := Option.map_eq_some_iff.1 hf
  by_cases hg : g.sha3Hash = some hash
  · rw [if_pos hg]
  · rw [if_neg hg] at hhash
    exact absurd hhash hg

theorem row (h : Recounted hash c base o σ) (hrow : base.row files n = some (some f)) (hhash : f.sha3Hash = some hash) :
    o.row files n = some (some { f with refCount := c }) := by
  rw [h.rows n, recount, ofHash_eq_some.2 ⟨Own.view_of_row hrow, hhash⟩]
  rfl

/-- the session writes its own row once more -/
theorem put (h : Recounted hash c base o σ) (hrow : base.row files n = some (some f)) (hhash : f.sha3Hash = some hash)
    (hhash' : f'.sha3Hash = some hash) (hlive : isLive f'.status = isLive f.status) :
    Recounted hash c (base.put files n (some f')) (o.put files n (some { f' with refCount := c })) σ := by
  have hview : ∀ m, (base.put files n (some f')).view σ files m = if m = n then some f' else base.view σ files m := by
    intro m
    rw [Own.view, Own.put_row_same]
    split_ifs
    · rfl
    · rfl
  refine ⟨fun t ht => ?_, h.key, fun m => ?_, ?_⟩
  · rw [Own.put_row_other _ _ _ ht, Own.put_row_other _ _ _ ht]
    exact h.other t ht
  · rw [Own.put_row_same, Own.put_row_same, recount, hview]
    by_cases hm : m = n
    · subst hm
      rw [if_pos rfl, if_pos rfl, ofHash_eq_some.2 ⟨rfl, hhash'⟩]
      rfl
    · rw [if_neg hm, if_neg hm, if_neg hm]
      exact h.rows m
  · rw [h.count]
    congr 1
    refine Set.ext fun m => ?_
    change (base.view σ files m).any _ = true ↔ ((base.put files n (some f')).view σ files m).any _ = true
    rw [hview]
    by_cases hm : m = n
    · subst hm
      rw [if_pos rfl, Own.view_of_row hrow]
      simp [LibraryFile.isLiveOf, hhash, hhash', hlive]
    · rw [if_neg hm]

theorem written (h : Recounted hash c base o σ) (new : Option (ℕ × LibraryFile)) (hjust : base.Just files n (some f)) (hhash : f.sha3Hash = some hash)
    (hkey : o.key (hashLock settings hash))
    (hcase : (∃ g, σ.com files n = some g ∧ Same g f ∧ (isLive f.status = true → isLive g.status = true)) ∨
      new = some (n, { f with refCount := c }))
    (hadded : ∀ m g, new = some (m, g) → Added settings o σ m g)
    (hclaims : ∀ k v, o.row sessions k = some v → v = none ∧ ∃ s, σ.com sessions k = some s ∧
      ∃ m g, new = some (m, g) ∧ g.upload = some k) : Written settings o σ (some hash) new where
  rows m v hv := by
    by_cases hm : m = n
    · subst hm
      rw [h.row hjust.row hhash, Option.some.injEq] at hv
      refine ⟨_, hv.symm, hhash, ?_⟩
      rcases hcase with ⟨g, hg, hs, hlive⟩ | hnew
      · exact .inl ⟨g, hg, ⟨hs.uploaderId, hs.sha3Hash, hs.documentCode, hs.classification, hs.projectId, hs.version,
          hs.rootFileId, hs.upload⟩, hlive⟩
      · exact .inr hnew
    · have hnone : base.row files m = none := by rw [hjust, if_neg hm]
      rw [h.rows m, hnone, Option.or_none, recount, Own.view_of_none hnone] at hv
      obtain ⟨g, hg, rfl⟩ := Option.map_eq_some_iff.1 hv
      obtain ⟨hcom, hg⟩ := ofHash_eq_some.1 hg
      exact ⟨_, rfl, hg, .inl ⟨g, hcom, ⟨rfl, rfl, rfl, rfl, rfl, rfl, rfl, rfl⟩, id⟩⟩
  lock hash' heq := Option.some.inj heq ▸ hkey
  added := hadded
  claims k v hv := by
    obtain ⟨rfl, s, hs, hnew⟩ := hclaims k v hv
    exact .inr ⟨rfl, s, hs, .inl hnew⟩

end Recounted

/-! ## What a request comes to -/

/-- if the session commits, nothing of what it has removed is missing: the hash has no live row, the upload no session -/
structure Clean (settings : Settings) (i : ℕ) (o : Held) (σ : State) : Prop where
  removed : ∀ h, σ.ext.removedBy h = some i → o.key (hashLock settings h) ∧ ¬ Live (σ.merge o) h
  taken : ∀ k s, (σ.merge o).com sessions k = some s → σ.ext.takenBy s.storageKey ≠ some i

theorem Clean.stable (h : Clean settings i o σ) (hr : Rely settings i o σ τ) : Clean settings i o τ where
  removed hash hremoved := by
    obtain ⟨hkey, hnone⟩ := h.removed hash (hr.removed hash hremoved)
    refine ⟨hkey, ?_⟩
    rintro ⟨n, f, hf, hlive⟩
    refine hnone ⟨n, f, ?_, hlive⟩
    rcases Snap.merge_cases hf with hrow | ⟨hrow, hcom⟩
    · exact Snap.merge_of_some hrow σ
    · rw [Snap.merge_of_none hrow]
      simp only [LibraryFile.isLiveOf, Bool.and_eq_true, decide_eq_true_eq] at hlive
      exact (hr.rows hash hkey n f hlive.1).1 hcom
  taken k s hs htaken := by
    refine h.taken k s ?_ (hr.taken _ htaken)
    rcases Snap.merge_cases hs with hrow | ⟨hrow, hcom⟩
    · exact Snap.merge_of_some hrow σ
    · rw [Snap.merge_of_none hrow]
      exact hr.shrinking k s hcom

/-- the session may commit, whatever the others do before -/
structure Ready (settings : Settings) (task : ℕ → Bool) (i : ℕ) (o : Held) (σ : State) : Prop where
  good : ∀ υ, (discipline settings task).Later i o σ υ → (discipline settings task).Good i o υ (υ.merge o)
  clean : Clean settings i o σ

end LkmService.Files
