/-
Every request of the library keeps its discipline: uploads, reviews, removals and the two tasks.

- `createFile_spec`, `registerFromUpload_spec`: a new row with the number that is reserved and the bytes that are stored.
- `release_spec`: a row that is no longer live, and the content that goes with the last one.
- `archiveHash_spec`, `cleanupPages_spec`: the tasks, which commit on the way.
- `prog_spec`: all of them.
-/
import LkmService.Files.Service

namespace LkmService.Files

open Session Sql Sql.Discipline Tbl

variable {settings : Settings} {task : ℕ → Bool} {i n : ℕ} {o o' : Held} {σ τ υ : State} {hash : String} {p : Course}

/-! ## Uploads -/

/-- the row that an upload comes to, with its root -/
def rooted (uploader : UserId) (info : FileCreate) (d : Identity) (content : Object) (text : String) (now : ℤ)
    (upload : Option ℕ) (n : ℕ) : LibraryFile :=
  { newFile uploader info d content text now upload with rootFileId := some (d.root.getD n) }

section Uploads

variable {uploader : UserId} {info : FileCreate} {d : Identity} {content : Object} {text : String} {now : ℤ}
  {upload : Option ℕ} {c : ℕ} {base : Held}

theorem added_of (hr : Reserved settings o σ uploader d)
    (hrow : o.row files n = some (some { rooted uploader info d content text now upload n with refCount := c }))
    (hnone : σ.com files n = none) (hbytes : σ.ext.has content.hash = true)
    (hupload : ∀ k, upload = some k → o.row sessions k = some none ∧ ∃ s, σ.com sessions k = some s) :
    Added settings o σ n { rooted uploader info d content text now upload n with refCount := c } where
  own := hrow
  unused := hnone
  fits := by
    refine ⟨d.code, ⟨rfl, hr.positive, hr.above, hr.lower, ?_⟩, ?_⟩
    · rcases hr.root with ⟨hone, hroot, -⟩ | ⟨-, -, r, g, hg, hgc, hgv, hroot, hu, hcl, hp⟩
      · left
        exact ⟨hone, by simp [rooted, hroot]⟩
      · right
        exact ⟨r, g, hg, hgc, hgv, by simp [rooted, hroot], hu.symm, hcl.symm, hp.symm⟩
    · rcases hr.root with ⟨hone, -, y, hy, hk⟩ | ⟨hlt, hk, -⟩
      · exact .inl ⟨hone, y, hy, hk⟩
      · exact .inr ⟨hlt, hk⟩
  bytes h hh := by
    obtain rfl : content.hash = h := Option.some.inj hh
    exact hbytes
  upload := hupload

/-- what an upload comes to -/
structure Registered (settings : Settings) (i : ℕ) (p : Course) (content : Object) (upload : Option ℕ) (o : Held) (σ : State) :
    Prop where
  on : On settings i p o σ
  inv : Inv σ
  row : ∃ n uploader info d text now base c, p.reserved = some (uploader, d) ∧ Recounted content.hash c base o σ ∧
    base.Just files n (some (rooted uploader info d content text now upload n)) ∧ σ.com files n = none

/-- **Uploads.** A registered upload may be committed. -/
theorem Registered.ready (h : Registered settings i p content upload o σ) (hlocked : p.locked = some content.hash)
    (hstored : p.stored = true) (hremoved : p.removed = none)
    (hclaimed : ∀ k, upload = some k ↔ ∃ s, p.claimed = some (k, s))
    (htaken : ∀ key, p.taken = some key → ∃ k s, p.claimed = some (k, s) ∧ s.storageKey = key) :
    Ready settings task i o σ := by
  obtain ⟨hon, hinv, n, uploader, info, d, text, now, base, c, hreserved, hrec, hjust, hnone⟩ := h
  have hkey := hon.locked _ hlocked
  have hrow := hrec.row hjust.row rfl
  refine ⟨fun υ hl => ?_, ⟨fun hash hr => ?_, fun k s hs ht => ?_⟩⟩
  · have hon' := hon.later hl
    have hrec' := hrec.later (hrec.key ▸ hkey) hl
    have hupload : ∀ k, upload = some k → o.row sessions k = some none ∧ ∃ s, υ.com sessions k = some s := by
      intro k hk
      obtain ⟨s, hs⟩ := (hclaimed k).1 hk
      exact ⟨(hon'.claimed k s hs).1, s, (hon'.claimed k s hs).2⟩
    have hadded := added_of (hon'.reserved _ _ hreserved) hrow ((hl.com_eq hrow).trans hnone)
      (hon'.stored hstored _ hlocked) hupload
    refine commit_good hl.inv (hrec'.written (some (n, _)) hjust rfl hkey (.inr rfl) ?_ ?_) ?_
    · intro m g heq
      obtain ⟨rfl, rfl⟩ : n = m ∧ _ = g := by simpa using heq
      exact hadded
    · intro k v hv
      obtain ⟨rfl, s, hs⟩ := hon'.claims k v hv
      exact ⟨rfl, s, (hon'.claimed k s hs).2, n, _, rfl, (hclaimed k).2 ⟨s, hs⟩⟩
    · intro hash heq
      obtain rfl : content.hash = hash := Option.some.inj heq
      exact hrec'.counted
  · rw [hon.removed hash hr] at hremoved
    cases hremoved
  · obtain ⟨k', s', hk', hkeys⟩ := htaken _ (hon.taken _ ht)
    obtain ⟨hrow', hcom'⟩ := hon.claimed k' s' hk'
    rcases Snap.merge_cases hs with hown | ⟨hown, hcom⟩
    · cases (hon.claims k _ hown).1
    · -- storage keys are those of one session
      obtain rfl := hinv.keys k' k s' s hcom' hcom hkeys
      rw [hown] at hrow'
      cases hrow'

/-- the root is set at the end -/
theorem flushRoot_spec {f : LibraryFile} {r : Option ℕ} (hf : f = newFile uploader info d content text now upload)
    (hroot : d.root = r) (hp : On settings i p o σ) (hlocked : p.locked = some content.hash) (hinv : Inv σ)
    (hreserved : p.reserved = some (uploader, d)) (hrec : Recounted content.hash c base o σ)
    (hjust : base.Just files n (some f)) (hnone : σ.com files n = none) :
    (discipline settings task).wp i (flushRoot n r) (Returns fun _ o' τ => Registered settings i p content upload o' τ) o σ := by
  subst hf hroot
  unfold flushRoot
  split
  next r hr =>
    have hsame : newFile uploader info d content text now upload = rooted uploader info d content text now upload n := by
      simp [newFile, rooted, hr]
    rw [hsame] at hjust
    exact wp_return ⟨hp, hinv, n, uploader, info, d, text, now, base, c, hreserved, hrec, hjust, hnone⟩
  next hr =>
    have hrow := hrec.row hjust.row rfl
    have hkey : base.key (hashLock settings content.hash) := hrec.key ▸ hp.locked _ hlocked
    have hput : { newFile uploader info d content text now upload with refCount := c, rootFileId := some n } =
        { rooted uploader info d content text now upload n with refCount := c } := by simp [rooted, hr]
    refine wp_bind (wp_updateOwned rfl hrow ?_)
    intro τ hl
    refine wp_return ?_
    change Registered settings i p content upload (o.put files n (some
      { newFile uploader info d content text now upload with refCount := c, rootFileId := some n })) τ
    rw [hput]
    exact ⟨(hp.later hl).put (by decide) _ _, hl.inv, n, uploader, info, d, text, now, _, c, hreserved,
      (hrec.later hkey hl).put hjust.row rfl rfl rfl, hjust.again _, (hl.com_eq hrow).trans hnone⟩

/-- the row is in the table, and its hash counted -/
structure Entered (settings : Settings) (i : ℕ) (p : Course) (content : Object) (f : LibraryFile) (n : ℕ) (o : Held) (σ : State) :
    Prop where
  on : On settings i p o σ
  inv : Inv σ
  row : ∃ base c, Recounted content.hash c base o σ ∧ base.Just files n (some f) ∧ σ.com files n = none

theorem Entered.later {f : LibraryFile} (h : Entered settings i p content f n o σ)
    (hl : (discipline settings task).Later i o σ τ) (hlocked : p.locked = some content.hash) :
    Entered settings i p content f n o τ := by
  obtain ⟨hon, -, base, c, hrec, hjust, hnone⟩ := h
  have hkey : base.key (hashLock settings content.hash) := hrec.key ▸ hon.locked _ hlocked
  have hrow : o.row files n ≠ none := by
    rw [hrec.rows n, hjust.row]
    simp
  exact ⟨hon.later hl, hl.inv, base, c, hrec.later hkey hl, hjust, (hl.com files n hrow).trans hnone⟩

/-- the part that both ways of an upload share -/
theorem enter_spec {α : Type} {f : LibraryFile} {g : ℕ → LibraryFile} {calls : Calls} {k : ℕ → FileInfo → Op α}
    {P : α → Held → State → Prop} (hp : On settings i p o σ) (hn : o.Nothing files) (hlocked : p.locked = some content.hash)
    (h : ∀ n info o τ, Entered settings i p content f n o τ → (discipline settings task).wp i (k n info) (Returns P) o τ) :
    (discipline settings task).wp i (do
      let n ← addFile f
      syncRefCount content.hash
      let answer ← fileInfo n (g n) calls
      k n answer) (Returns P) o σ := by
  refine wp_seq (addFile_spec hp hn) ?_
  rintro n o τ ⟨hon, hjust, hnone⟩
  refine wp_seq (syncRefCount_spec hon hlocked) ?_
  rintro _ o' υ ⟨hon', ⟨c, hrec⟩, hcom⟩
  have hnone' : υ.com files n = none := (hcom files n (by simp [hjust.row])).trans hnone
  have hrow : o'.row files n ≠ none := by
    rw [hrec.rows n, hjust.row]
    simp
  refine wp_seq (P := fun info o'' ρ => Entered settings i p content f n o'' ρ) ?_ ?_
  · refine wp_fileInfo ?_
    intro ρ info hl
    have hkey : o.key (hashLock settings content.hash) := hrec.key ▸ hon'.locked _ hlocked
    exact ⟨hon'.later hl, hl.inv, o, c, hrec.later hkey hl, hjust, (hl.com files n hrow).trans hnone'⟩
  exact fun info o'' ρ hentered => h n info o'' ρ hentered

theorem createFile_spec {year : ℕ} {calls : Calls} (hp : On settings i {} o σ) (hn : o.Nothing files) :
    (discipline settings task).wp i (createFile settings uploader info content year now calls)
      (Returns fun _ o' τ => Ready settings task i o' τ) o σ := by
  unfold createFile
  split
  · exact wp_fail _
  split
  · exact wp_fail _
  next text preview _ =>
  refine wp_seq (identityForUpload_spec hp hn) ?_
  rintro ⟨info', d⟩ o τ ⟨hon, hn⟩
  refine wp_seq (P := fun _ o' υ => On settings i { reserved := some (uploader, d), locked := some content.hash } o' υ ∧
    o'.Nothing files) (wp_lockKey fun υ hl _ => ⟨(hon.later hl).lock _, hn⟩) ?_
  rintro _ o τ ⟨hon, hn⟩
  refine wp_seq (storeContent_spec (p := { reserved := some (uploader, d) }) hon) ?_
  rintro _ o τ ⟨rfl, hon⟩
  refine wp_seq (savePreview_spec hon rfl) ?_
  rintro _ o τ ⟨rfl, hon⟩
  refine enter_spec hon hn rfl ?_
  intro n answer o τ ⟨hon, hinv, base, c, hrec, hjust, hnone⟩
  refine wp_seq (flushRoot_spec rfl rfl hon rfl hinv rfl hrec hjust hnone) ?_
  intro _ o τ h
  exact wp_return (h.ready rfl rfl rfl (fun k => by simp) (fun key hkey => nomatch hkey))

theorem Recounted.withExt {s : Storage} (h : Recounted hash c base o σ) : Recounted hash c base o { σ with ext := s } :=
  ⟨h.other, h.key, h.rows, h.count⟩

theorem On.read {k h : String} (hon : On settings i p o σ) (hread : ∀ c, σ.ext.object (.upload k) = some c → c.hash = h) :
    On settings i { p with source := some (k, h) } o σ where
  claims := hon.claims
  claimed := hon.claimed
  source k' h' heq := by
    obtain ⟨rfl, rfl⟩ : k = k' ∧ h = h' := by simpa using heq
    exact hread
  reserved := hon.reserved
  locked := hon.locked
  stored := hon.stored
  removed := hon.removed
  taken := hon.taken

/-- the registration takes the upload, or fails to -/
theorem On.take_upload {key : String} {works : Bool} (hon : On settings i p o σ) (hnone : p.taken = none) :
    On settings i { p with taken := some key } o
      { σ with ext := (Effects.exec i (Fx.delete (.upload key) works .registration) σ.ext).2 } := by
  have htaken : ∀ k, σ.ext.takenBy k ≠ some i := by
    intro k hk
    rw [hon.taken k hk] at hnone
    cases hnone
  cases works with
  | false =>
    exact ⟨hon.claims, hon.claimed, hon.source, hon.reserved, hon.locked, hon.stored, hon.removed,
      fun k hk => absurd hk (htaken k)⟩
  | true =>
    refine ⟨hon.claims, hon.claimed, fun k h hk c hc => ?_, fun u d hd => ?_, hon.locked, fun hs h hk => ?_, hon.removed,
      fun k hk => ?_⟩
    · by_cases heq : k = key
      · subst heq
        simp [Effects.exec, Storage.delete, Storage.drop] at hc
      · have hne : Key.upload k ≠ .upload key := by simp [heq]
        simp only [Effects.exec, if_true, Storage.delete, Storage.drop, Function.update_of_ne hne] at hc
        exact hon.source k h hk c hc
    · have hr := hon.reserved u d hd
      exact ⟨hr.positive, hr.above, hr.lower, hr.root⟩
    · have hhas := hon.stored hs h hk
      simp only [Storage.has, Bool.or_eq_true] at hhas ⊢
      have hne : Key.content h .main ≠ .upload key := by simp
      simpa only [Effects.exec, if_true, Storage.delete, Storage.drop, Function.update_of_ne hne] using hhas
    · by_cases heq : k = key
      · rw [heq]
      · simp only [Effects.exec, if_true, Storage.delete, Function.update_of_ne heq] at hk
        exact absurd hk (htaken k)

theorem steps_delete_upload {s : Storage} {b : Bool} (key : String) (works : Bool) (htask : b = false)
    (touched : Option String) :
    Steps i b touched s (Effects.exec i (Fx.delete (.upload key) works .registration) s).2 := by
  cases works with
  | false => exact Steps.refl _ _
  | true =>
    change Steps i b touched s (s.delete i (.upload key) .registration)
    exact steps_dropUpload (fun _ => htask) touched

theorem hashFromStorage_spec {key : String} {calls : Calls} (htask : task i = false) (hp : On settings i p o σ) :
    (discipline settings task).wp i (hashFromStorage settings key calls) (Returns fun content o' τ => o' = o ∧
      On settings i { p with source := some (key, content.hash) } o τ) o σ := by
  unfold hashFromStorage
  refine wp_seq (P := fun a o' τ => o' = o ∧ On settings i p o τ ∧
    ∀ content, a = some content → τ.ext.object (.upload key) = some content) ?_ ?_
  · refine wp_call (fun _ => rfl) ?_
    intro τ hl
    refine ⟨rfl, hp.later hl, fun content ha => ?_⟩
    cases hworks : calls.read with
    | false => simp [Effects.exec, hworks] at ha
    | true => simpa [Effects.exec, hworks] using ha
  rintro a o τ ⟨rfl, hon, hread⟩
  split
  · exact wp_fail _
  next content =>
  split
  · refine wp_seq (P := fun _ _ _ => True) (wp_steps none (fun _ h => nomatch h) ?_) fun _ _ _ _ => wp_fail _
    exact fun υ _ => ⟨steps_delete_upload _ _ htask _, trivial⟩
  · refine wp_return ⟨rfl, hon.read fun c hc => ?_⟩
    rw [hread content rfl, Option.some.injEq] at hc
    rw [hc]

theorem processStorageUpload_spec {key : String} {calls : Calls} (hp : On settings i p o σ) :
    (discipline settings task).wp i (processStorageUpload key calls) (Returns fun _ o' τ => o' = o ∧ On settings i p o τ) o σ := by
  unfold processStorageUpload
  refine wp_seq (P := fun _ o' τ => o' = o ∧ On settings i p o τ) ?_ ?_
  · exact wp_call (fun _ => rfl) fun τ hl => ⟨rfl, hp.later hl⟩
  rintro a o τ ⟨rfl, hon⟩
  split
  · exact wp_fail _
  split
  · exact wp_fail _
  · exact wp_return ⟨rfl, hon⟩

theorem registerFromUpload_spec {k : ℕ} {s : UploadSession} {source : Meta} {year : ℕ} {calls : Calls} (htask : task i = false)
    (hp : On settings i { claimed := some (k, s) } o σ) (hn : o.Nothing files) (hkey : source.key = s.storageKey) :
    (discipline settings task).wp i (registerFromUpload settings source uploader k year now calls)
      (Returns fun _ o' τ => Ready settings task i o' τ) o σ := by
  unfold registerFromUpload
  refine wp_seq (P := fun _ o' τ => o' = o ∧ On settings i { claimed := some (k, s) } o τ) ?_ ?_
  · exact wp_call (fun _ => rfl) fun τ hl => ⟨rfl, hp.later hl⟩
  rintro a o τ ⟨rfl, hon⟩
  split
  · exact wp_fail _
  · exact wp_fail _
  refine wp_seq (hashFromStorage_spec htask hon) ?_
  rintro content o τ ⟨rfl, hon⟩
  refine wp_seq (processStorageUpload_spec hon) ?_
  rintro ⟨text, preview⟩ o τ ⟨rfl, hon⟩
  refine wp_seq (identityForUpload_spec hon hn) ?_
  rintro ⟨info', d⟩ o τ ⟨hon, hn⟩
  let course : Course :=
    { claimed := some (k, s), source := some (source.key, content.hash), reserved := some (uploader, d) }
  refine wp_seq (P := fun _ o' υ => On settings i { course with locked := some content.hash } o' υ ∧ o'.Nothing files)
    (wp_lockKey fun υ hl _ => ⟨(hon.later hl).lock _, hn⟩) ?_
  rintro _ o τ ⟨hon, hn⟩
  refine wp_seq (copyContent_spec (p := course) hon rfl) ?_
  rintro _ o τ ⟨rfl, hon⟩
  refine wp_seq (savePreview_spec hon rfl) ?_
  rintro _ o τ ⟨rfl, hon⟩
  refine enter_spec hon hn rfl ?_
  intro n answer o τ hentered
  let final : Course := { course with locked := some content.hash, stored := true, taken := some source.key }
  refine wp_seq (P := fun _ o' υ => Entered settings i final content
    (newFile uploader info' d content text now (some k)) n o' υ) ?_ ?_
  · refine wp_steps none (fun _ h => nomatch h) ?_
    intro υ hl
    obtain ⟨hon', hinv', base, c, hrec, hjust, hnone⟩ := hentered.later hl rfl
    have hsteps := steps_delete_upload (i := i) (s := υ.ext) source.key calls.deleteUpload htask none
    have hgood : (discipline settings task).Good i o υ _ := good_steps hinv' hsteps fun _ h => nomatch h
    exact ⟨hsteps, hon'.take_upload rfl, hgood.inv, base, c, hrec.withExt, hjust, hnone⟩
  intro _ o υ ⟨hon, hinv, base, c, hrec, hjust, hnone⟩
  refine wp_seq (flushRoot_spec rfl rfl hon rfl hinv rfl hrec hjust hnone) ?_
  intro _ o τ h
  refine wp_return (h.ready rfl rfl rfl (fun k' => ?_) (fun key heq => ?_))
  · simp [final, course]
  · obtain rfl : source.key = key := Option.some.inj heq
    exact ⟨k, s, rfl, hkey.symm⟩

end Uploads

/-- the row of an upload session that is claimed is the one that was read: the sessions are never changed -/
theorem claim_spec {uploadId : String} {uploader : Option UserId} (hp : On settings i {} o σ) (hn : o.Nothing files) :
    (discipline settings task).wp i (claim uploadId uploader) (Returns fun a o' τ => o'.Nothing files ∧
      (a = none → On settings i {} o' τ) ∧ ∀ k s, a = some (k, s) → On settings i { claimed := some (k, s) } o' τ ∧
        ∀ c, s.content = some c → c.key = s.storageKey) o σ := by
  have hnothing : o.Nothing sessions := by
    intro k
    by_contra hk
    obtain ⟨v, hv⟩ := Option.ne_none_iff_exists'.1 hk
    obtain ⟨-, s, hs⟩ := hp.claims k v hv
    cases hs
  unfold claim
  refine wp_bind (wp_select ?_)
  intro τ hl l hmem _
  dsimp only
  cases hhead : l.head? with
  | none => exact wp_return ⟨hn, fun _ => hp.later hl, nofun⟩
  | some q =>
    obtain ⟨k, s⟩ := q
    have hs := (Own.view_of_none (hnothing k)).symm.trans ((hmem k s).1 (List.mem_of_head? hhead)).1
    refine wp_bind (wp_deleteIf ?_ ?_)
    · intro υ hl' _
      exact wp_return ⟨hn, fun _ => (hp.later hl).later hl', nofun⟩
    intro υ r hl' hv _
    have hr : υ.com sessions k = some r := (Own.view_of_none (hnothing k)).symm.trans hv
    obtain rfl : s = r := Option.some.inj (hs.symm.trans (hl'.rely.shrinking k r hr))
    have hon := (hp.later hl).later hl'
    refine wp_return ⟨hn.put (by decide) _ _, nofun, fun k' s' heq => ?_⟩
    obtain ⟨rfl, rfl⟩ : k = k' ∧ s = s' := by simpa using heq
    refine ⟨⟨fun m v hm => ?_, fun m s' hm => ?_, hon.source, fun u d hd => (hon.reserved u d hd).own fun _ => id, hon.locked, hon.stored,
      hon.removed, hon.taken⟩, fun c hc => hl'.inv.contents k s c hr hc⟩
    · rw [Own.put_row_same, hnothing m] at hm
      by_cases hmk : m = k
      · subst hmk
        rw [if_pos rfl, Option.some.injEq] at hm
        exact ⟨hm.symm, s, rfl⟩
      · rw [if_neg hmk] at hm
        cases hm
    · obtain ⟨rfl, rfl⟩ : k = m ∧ s = s' := by simpa using hm
      exact ⟨Own.put_row_self _ _ _, hr⟩

theorem confirmUpload_spec {uploadId : String} {user : UserId} {year : ℕ} {now : ℤ} {calls : Calls} (htask : task i = false)
    (hp : On settings i {} o σ) (hn : o.Nothing files) :
    (discipline settings task).wp i (confirmUpload settings uploadId user year now calls)
      (Returns fun _ o' τ => Ready settings task i o' τ) o σ := by
  unfold confirmUpload
  refine wp_seq (claim_spec hp hn) ?_
  rintro a o τ ⟨hn, -, hsome⟩
  split
  · exact wp_fail _
  split
  · exact wp_fail _
  next source hsource =>
  obtain ⟨hon, hkey⟩ := hsome _ _ rfl
  refine wp_seq (registerFromUpload_spec htask hon hn (hkey _ hsource)) ?_
  intro _ o τ h
  exact wp_return h

/-- nothing is written -/
theorem ready_of_idle (hp : On settings i {} o σ) (hn : o.Nothing files) : Ready settings task i o σ := by
  have hwritten : ∀ τ, Written settings o τ none none := by
    intro τ
    refine ⟨fun m v hv => ?_, fun h hh => ?_, fun m f hf => ?_, fun k v hv => ?_⟩
    · rw [hn m] at hv
      cases hv
    · cases hh
    · cases hf
    · obtain ⟨-, s, hs⟩ := hp.claims k v hv
      cases hs
  refine ⟨fun υ hl => ?_, fun h hr => ?_, fun k s _ ht => ?_⟩
  · exact commit_good hl.inv (hwritten υ) fun _ h => nomatch h
  · cases hp.removed h hr
  · cases hp.taken _ ht

theorem notifyUpload_spec {uploadId : String} {year : ℕ} {now : ℤ} {calls : Calls} (htask : task i = false)
    (hp : On settings i {} o σ) (hn : o.Nothing files) :
    (discipline settings task).wp i (notifyUpload settings uploadId year now calls)
      (Returns fun _ o' τ => Ready settings task i o' τ) o σ := by
  unfold notifyUpload
  refine wp_seq (claim_spec hp hn) ?_
  rintro a o τ ⟨hn, hnone, hsome⟩
  split
  · exact wp_return (ready_of_idle (hnone rfl) hn)
  split
  · exact wp_fail _
  next source hsource =>
  obtain ⟨hon, hkey⟩ := hsome _ _ rfl
  refine wp_seq (registerFromUpload_spec htask hon hn (hkey _ hsource)) ?_
  intro _ o τ h
  exact wp_return h

/-! ## Reviews and removals -/

/-- the session holds one row of the files, which it has changed -/
structure Editing (settings : Settings) (i : ℕ) (p : Course) (n : ℕ) (g f : LibraryFile) (o : Held) (σ : State) : Prop where
  on : On settings i p o σ
  just : o.Just files n (some f)
  com : σ.com files n = some g
  same : Same g f

namespace Editing

variable {f g : LibraryFile}

theorem later (h : Editing settings i p n g f o σ) (hl : (discipline settings task).Later i o σ τ) :
    Editing settings i p n g f o τ := ⟨h.on.later hl, h.just, (hl.com_eq h.just.row).trans h.com, h.same⟩

theorem insert (h : Editing settings i p n g f o σ) (m : ℕ) (e : Event) :
    Editing settings i p n g f (o.put outbox m (some e)) (σ.bump outbox m) :=
  ⟨(h.on.put (by decide) _ _).bump _ _, h.just.put (by decide) _ _, h.com, h.same⟩

theorem written (h : Editing settings i p n g f o σ) (hclaimed : p.claimed = none) (hlocked : p.locked = f.sha3Hash)
    (hlive : isLive f.status = true → isLive g.status = true) : Written settings o σ f.sha3Hash none := by
  refine ⟨fun m v hv => ?_, fun hash heq => h.on.locked hash (hlocked.trans heq), fun m f' hf' => ?_, fun k v hv => ?_⟩
  · rw [h.just m] at hv
    split_ifs at hv with hm
    subst hm
    exact ⟨f, (Option.some.inj hv).symm, rfl, .inl ⟨g, h.com, h.same, hlive⟩⟩
  · cases hf'
  · obtain ⟨-, s, hs⟩ := h.on.claims k v hv
    rw [hclaimed] at hs
    cases hs

end Editing

/-- the count of a hash is that of before if every row that the session has written counts as before -/
theorem counted_flat (hinv : Inv σ) (h : ∀ m v, o.row files m = some v → ∃ f f', v = some f' ∧ σ.com files m = some f ∧
    f'.sha3Hash = f.sha3Hash ∧ f'.refCount = f.refCount ∧ isLive f'.status = isLive f.status) : Counted (σ.merge o) hash := by
  have hmatching : (σ.merge o).matching files (LibraryFile.isLiveOf hash) = σ.matching files (LibraryFile.isLiveOf hash) := by
    refine Set.ext fun m => ?_
    simp only [Snap.matching, Set.mem_ofPred_eq]
    rcases hrow : o.row files m with _ | v
    · rw [Snap.merge_of_none hrow]
    · obtain ⟨f, f', rfl, hcom, hhash, -, hlive⟩ := h m v hrow
      rw [Snap.merge_of_some hrow, hcom]
      simp [LibraryFile.isLiveOf, hhash, hlive]
  intro n f' hf' hhash'
  rw [hmatching]
  rcases Snap.merge_cases hf' with hrow | ⟨-, hcom⟩
  · obtain ⟨f, f'', heq, hcom, hhash, hcount, -⟩ := h n _ hrow
    obtain rfl : f' = f'' := Option.some.inj heq
    rw [hcount]
    exact hinv.counted hash n f hcom (hhash.symm.trans hhash')
  · exact hinv.counted hash n f' hcom hhash'

theorem Editing.ready {f g : LibraryFile} (h : Editing settings i p n g f o σ) (hclaimed : p.claimed = none)
    (hlocked : p.locked = f.sha3Hash) (hremoved : p.removed = none) (htaken : p.taken = none)
    (hcount : f.refCount = g.refCount) (hlive : isLive f.status = isLive g.status) : Ready settings task i o σ := by
  refine ⟨fun υ hl => ?_, fun hash hr => ?_, fun k s _ ht => ?_⟩
  · have h' := h.later hl
    have hwritten := h'.written hclaimed hlocked fun hf => hlive ▸ hf
    refine commit_good hl.inv hwritten ?_
    intro hash _
    refine counted_flat hl.inv ?_
    intro m v hv
    rw [h'.just m] at hv
    split_ifs at hv with hm
    subst hm
    exact ⟨g, f, (Option.some.inj hv).symm, h'.com, h'.same.sha3Hash, hcount, hlive⟩
  · rw [h.on.removed hash hr] at hremoved
    cases hremoved
  · rw [h.on.taken _ ht] at htaken
    cases htaken

theorem Ready.later (h : Ready settings task i o σ) (hl : (discipline settings task).Later i o σ τ) :
    Ready settings task i o τ := ⟨fun υ hl' => h.good υ (hl.trans hl'), h.clean.stable hl.rely⟩

section Reviews

variable {f g : LibraryFile}

/-- an event is written, or none -/
theorem enqueueFileChange_spec {m : ℕ} (h : Editing settings i p n g f o σ) :
    (discipline settings task).wp i (enqueueFileChange settings m) (Returns fun _ o' τ => Editing settings i p n g f o' τ) o σ := by
  unfold enqueueFileChange
  split_ifs
  · refine wp_bind (wp_insert ?_)
    intro τ hl
    exact wp_return ((h.later hl).insert _ _)
  · exact wp_return h

theorem enqueueFileChanges_spec {ns : List ℕ} (h : Editing settings i p n g f o σ) :
    (discipline settings task).wp i (enqueueFileChanges settings ns) (Returns fun _ o' τ => Editing settings i p n g f o' τ) o σ := by
  induction ns generalizing o σ with
  | nil => exact wp_return h
  | cons m ns ih => exact wp_seq (enqueueFileChange_spec h) fun _ o τ h' => ih h'

theorem enqueueDocumentChange_spec {m : ℕ} {code : Option Text} (h : Editing settings i p n g f o σ) :
    (discipline settings task).wp i (enqueueDocumentChange settings m code)
      (Returns fun _ o' τ => Editing settings i p n g f o' τ) o σ := by
  unfold enqueueDocumentChange
  refine wp_seq (enqueueFileChange_spec h) ?_
  intro _ o τ h
  split
  · exact wp_return h
  refine wp_seq (P := fun _ o' υ => Editing settings i p n g f o' υ) ?_ fun _ o υ h' => enqueueFileChanges_spec h'
  exact wp_lookup fun υ l hl => h.later hl

theorem Editing.ext {s : Storage} (h : Editing settings i p n g f o σ) (hstored : ∀ hash, σ.ext.has hash = true → s.has hash = true)
    (huploads : ∀ k, s.object (.upload k) = σ.ext.object (.upload k)) (hremoved : s.removedBy = σ.ext.removedBy)
    (htaken : s.takenBy = σ.ext.takenBy) : Editing settings i p n g f o { σ with ext := s } :=
  ⟨h.on.ext hstored huploads hremoved htaken, h.just, h.com, h.same⟩

/-- the copy in the backup is nobody else's concern -/
theorem steps_backup {s : Storage} {b : Bool} (hash : String) (works : Bool) (touched : Option String) :
    Steps i b touched s (Effects.exec i (Fx.backup hash works) s).2 := by
  simp only [Effects.exec]
  split_ifs
  · exact ⟨fun _ _ => rfl, id, fun _ h => .inl h, fun _ => .inl rfl, fun _ _ h => h, fun _ _ h => .inl h, fun _ => .inl rfl, fun _ h => h⟩
  · exact Steps.refl _ _

theorem backUp_spec {now : ℤ} {calls : Calls} (h : Editing settings i p n g f o σ) :
    (discipline settings task).wp i (backUp settings n f.sha3Hash now calls) (Returns fun _ o' τ => ∃ f', Editing settings i p n g f' o' τ ∧
      f'.sha3Hash = f.sha3Hash ∧ f'.status = f.status ∧ f'.refCount = f.refCount) o σ := by
  unfold backUp
  split
  · exact wp_return ⟨f, h, rfl, rfl, rfl⟩
  split_ifs
  · refine wp_seq (P := fun _ o' τ => Editing settings i p n g f o' τ) (wp_orRaise (wp_steps none (fun _ h => nomatch h) ?_)) ?_
    · intro τ hl
      refine ⟨steps_backup _ _ _, fun _ => ?_⟩
      simp only [Effects.exec]
      split_ifs
      · exact (h.later hl).ext (fun _ => id) (fun _ => rfl) rfl rfl
      · exact h.later hl
    intro _ o τ h
    refine wp_returns_mono (wp_flushFile (P := fun _ o' υ => Editing settings i p n g { f with backedUpAt := some now } o' υ) h.just.row ?_) ?_
    · intro υ hl
      have h' := h.later hl
      exact ⟨h'.on.put (by decide) _ _, h'.just.again _, h'.com, ⟨h'.same.uploaderId, h'.same.sha3Hash, h'.same.documentCode,
        h'.same.classification, h'.same.projectId, h'.same.version, h'.same.rootFileId, h'.same.upload⟩⟩
    · exact fun _ o υ h' => ⟨_, h', rfl, rfl, rfl⟩
  · exact wp_return ⟨f, h, rfl, rfl, rfl⟩

/-- the content of a hash that no live row would have -/
structure Releasing (settings : Settings) (i : ℕ) (hash : String) (o : Held) (σ : State) : Prop where
  on : On settings i { locked := some hash, removed := some hash } o σ
  written : Written settings o σ (some hash) none
  counted : Counted (σ.merge o) hash
  dead : ¬ Live (σ.merge o) hash

/-- rows of a hash that a session would commit stay what they are, under the lock of the hash -/
theorem merge_later {f : LibraryFile} {m : ℕ} (hkey : o.key (hashLock settings hash)) (hl : (discipline settings task).Later i o σ τ)
    (hf : f.sha3Hash = some hash) : (τ.merge o).com files m = some f ↔ (σ.merge o).com files m = some f := by
  rcases hrow : o.row files m with _ | v
  · rw [Snap.merge_of_none hrow, Snap.merge_of_none hrow]
    exact hl.rely.rows hash hkey m f hf
  · rw [Snap.merge_of_some hrow, Snap.merge_of_some hrow]

theorem Live.later (hkey : o.key (hashLock settings hash)) (hl : (discipline settings task).Later i o σ τ) :
    Live (τ.merge o) hash ↔ Live (σ.merge o) hash := by
  refine exists_congr fun m => exists_congr fun f => and_congr_left fun hlive => ?_
  simp only [LibraryFile.isLiveOf, Bool.and_eq_true, decide_eq_true_eq] at hlive
  exact merge_later hkey hl hlive.1

theorem Counted.later (h : Counted (σ.merge o) hash) (hkey : o.key (hashLock settings hash))
    (hl : (discipline settings task).Later i o σ τ) : Counted (τ.merge o) hash := by
  intro n f hf hhash
  have hmatching : (τ.merge o).matching files (LibraryFile.isLiveOf hash) = (σ.merge o).matching files (LibraryFile.isLiveOf hash) :=
    matching_eq (σ := σ.merge o) fun m => ofHash_later hkey hl o m
  rw [hmatching]
  exact h n f ((merge_later hkey hl hhash).1 hf) hhash

/-- what a session has written may be committed later as well, if no row of it is new -/
theorem Written.later {touched : Option String} (h : Written settings o σ touched none) (hl : (discipline settings task).Later i o σ τ) :
    Written settings o τ touched none := by
  refine ⟨fun m v hv => ?_, h.lock, fun m f hf => ?_, fun k v hv => ?_⟩
  · obtain ⟨f', rfl, hhash, ⟨f, hf, hs, hlive⟩ | hnew⟩ := h.rows m v hv
    · exact ⟨f', rfl, hhash, .inl ⟨f, (hl.com_eq hv).trans hf, hs, hlive⟩⟩
    · cases hnew
  · cases hf
  · rw [hl.com_eq hv]
    rcases h.claims k v hv with hsame | ⟨rfl, s, hs, ⟨_, _, hnew, -⟩ | hcleaned⟩
    · exact .inl hsame
    · cases hnew
    · exact .inr ⟨rfl, s, hs, .inr (hl.rely.cleaned _ hcleaned)⟩

theorem Releasing.later (h : Releasing settings i hash o σ) (hl : (discipline settings task).Later i o σ τ) :
    Releasing settings i hash o τ := by
  have hkey := h.on.locked hash rfl
  exact ⟨h.on.later hl, h.written.later hl, h.counted.later hkey hl, fun hlive => h.dead ((Live.later hkey hl).1 hlive)⟩

/-- one of the objects goes -/
theorem Releasing.blame {t : Storage} (h : Releasing settings i hash o σ)
    (hmarks : t.removedBy = σ.ext.removedBy ∧ t.takenBy = σ.ext.takenBy ∧ t.cleaned = σ.ext.cleaned) :
    Releasing settings i hash o { σ with ext := σ.ext.blame t i hash } := by
  obtain ⟨hremoved, htaken, hcleaned⟩ := hmarks
  have hsame : (σ.ext.blame t i hash).object = t.object ∧ (σ.ext.blame t i hash).takenBy = t.takenBy ∧
      (σ.ext.blame t i hash).cleaned = t.cleaned := by
    unfold Storage.blame
    split_ifs
    · exact ⟨rfl, rfl, rfl⟩
    · exact ⟨rfl, rfl, rfl⟩
  obtain ⟨hobject', htaken', hcleaned'⟩ := hsame
  have hon := h.on
  refine ⟨⟨hon.claims, hon.claimed, fun _ _ heq => (nomatch heq), fun _ _ heq => (nomatch heq), hon.locked, fun heq => (nomatch heq), fun h' hr => ?_,
    fun k hk => ?_⟩, ⟨h.written.rows, h.written.lock, fun _ _ heq => (nomatch heq), fun k v hv => ?_⟩, h.counted, h.dead⟩
  · by_cases heq : h' = hash
    · rw [heq]
    · refine hon.removed h' ?_
      rw [← hr, ← hremoved]
      unfold Storage.blame
      split_ifs
      · simp only [Function.update_of_ne heq]
      · rfl
  · refine hon.taken k ?_
    rw [← hk, ← htaken, ← htaken']
  · obtain ⟨-, s, hs⟩ := hon.claims k v hv
    cases hs

theorem Releasing.ready (h : Releasing settings i hash o σ) : Ready settings task i o σ := by
  refine ⟨fun υ hl => ?_, fun h' hr => ?_, fun k s _ ht => ?_⟩
  · have h' := h.later hl
    refine commit_good hl.inv h'.written ?_
    intro h'' heq
    obtain rfl : hash = h'' := Option.some.inj heq
    exact h'.counted
  · obtain rfl : hash = h' := Option.some.inj (h.on.removed h' hr)
    exact ⟨h.on.locked hash rfl, h.dead⟩
  · cases h.on.taken _ ht

/-- one object of the content is removed, or the call raises -/
theorem deleteVariant_spec {v : Variant} {works : Bool} (htask : task i = false) (h : Releasing settings i hash o σ) :
    (discipline settings task).wp i (orRaise (.delete (.content hash v) works .cleanup) .storeError)
      (Returns fun _ o' τ => Releasing settings i hash o' τ) o σ := by
  refine wp_orRaise (wp_steps (some hash) ?_ ?_)
  · intro h' heq
    exact Option.some.inj heq ▸ h.on.locked hash rfl
  intro τ hl
  cases works with
  | false => exact ⟨Steps.refl _ _, nofun⟩
  | true =>
    change Steps i (task i) (some hash) τ.ext (τ.ext.blame (τ.ext.drop (.content hash v)) i hash) ∧
      (true = true → Releasing settings i hash o { τ with ext := τ.ext.blame (τ.ext.drop (.content hash v)) i hash })
    refine ⟨steps_blame (fun k hk => ?_) ?_ (fun _ _ => rfl) ⟨rfl, rfl, rfl⟩ (.inl htask), fun _ =>
      (h.later hl).blame ⟨rfl, rfl, rfl⟩⟩
    · exact Function.update_of_ne (hk v) none τ.ext.object
    · by_cases hv : v = .main
      · subst hv
        right
        exact Function.update_self _ _ _
      · left
        have hne : Key.content hash .main ≠ .content hash v := by simp [eq_comm, hv]
        exact Function.update_of_ne hne none τ.ext.object

theorem deleteContentVariants_spec {calls : Calls} (htask : task i = false) (h : Releasing settings i hash o σ) :
    (discipline settings task).wp i (deleteContentVariants settings hash calls)
      (Returns fun _ o' τ => Releasing settings i hash o' τ) o σ := by
  unfold deleteContentVariants
  refine wp_seq (deleteVariant_spec htask h) fun _ o τ h => ?_
  refine wp_seq (deleteVariant_spec htask h) fun _ o τ h => ?_
  refine wp_seq (deleteVariant_spec htask h) fun _ o τ h => ?_
  refine wp_seq (deleteVariant_spec htask h) fun _ o τ h => ?_
  split_ifs
  · refine wp_orRaise (wp_steps (some hash) ?_ ?_)
    · intro h' heq
      exact Option.some.inj heq ▸ h.on.locked hash rfl
    intro υ hl
    cases calls.deleteArchive with
    | false => exact ⟨Steps.refl _ _, nofun⟩
    | true =>
      refine ⟨steps_blame (fun _ _ => rfl) (.inl rfl) (fun h' hne => ?_) ⟨rfl, rfl, rfl⟩ (.inl htask), fun _ =>
        (h.later hl).blame ⟨rfl, rfl, rfl⟩⟩
      exact Function.update_of_ne hne false υ.ext.archive
  · exact wp_return h

/-- a row without content is written -/
theorem Editing.ready_of_none (h : Editing settings i { locked := f.sha3Hash } n g f o σ) (hhash : f.sha3Hash = none)
    (hlive : isLive f.status = true → isLive g.status = true) : Ready settings task i o σ := by
  refine ⟨fun υ hl => ?_, fun h' hr => ?_, fun k s _ ht => ?_⟩
  · refine commit_good hl.inv ((h.later hl).written rfl rfl hlive) ?_
    intro hash heq
    rw [hhash] at heq
    cases heq
  · cases h.on.removed h' hr
  · cases h.on.taken _ ht

/-- no live row of the hash is in sight -/
theorem dead_of_count (hf : σ.Fresh o) (h : ((σ.merge o).matching files (LibraryFile.isLiveOf hash)).ncard = 0) :
    ¬ Live (σ.merge o) hash := by
  rintro ⟨m, f, hm, hlive⟩
  have hfresh : (σ.merge o).Fresh o := by
    intro t k hk
    obtain ⟨hcom, hrow⟩ := hf t k hk
    exact ⟨(Snap.merge_of_none hrow σ).trans hcom, hrow⟩
  rw [Set.ncard_eq_zero (Snap.matching_finite hfresh _)] at h
  have hmem : m ∈ (σ.merge o).matching files (LibraryFile.isLiveOf hash) := by
    change ((σ.merge o).com files m).any _ = true
    rw [hm]
    exact hlive
  rw [h] at hmem
  exact hmem

/-- **Releases.** The content of a row that is no longer live goes if it was the last one. -/
theorem release_spec {calls : Calls} (htask : task i = false) (h : Editing settings i { locked := f.sha3Hash } n g f o σ)
    (hdead : isLive f.status = false) :
    (discipline settings task).wp i (release settings f.sha3Hash calls) (Returns fun _ o' τ => Ready settings task i o' τ) o σ := by
  have hlive : isLive f.status = true → isLive g.status = true := by simp [hdead]
  unfold release
  cases hhash : f.sha3Hash with
  | none => exact wp_return (h.ready_of_none hhash hlive)
  | some hash =>
    have hon := h.on
    rw [hhash] at hon
    refine wp_seq (syncRefCount_spec hon rfl) ?_
    rintro _ o' τ ⟨hon', ⟨c, hrec⟩, hcom⟩
    have hkey : o.key (hashLock settings hash) := hrec.key ▸ hon'.locked hash rfl
    have hwritten : ∀ υ, (discipline settings task).Later i o' τ υ → Written settings o' υ (some hash) none := by
      intro υ hl
      have hrow := (hrec.row h.just.row hhash)
      have hg : υ.com files n = some g := (hl.com_eq hrow).trans ((hcom files n (by simp [h.just.row])).trans h.com)
      refine (hrec.later hkey hl).written none h.just hhash (hon'.locked hash rfl) (.inl ⟨g, hg, h.same, hlive⟩) (fun m f' heq => ?_)
        fun k v hv => ?_
      · cases heq
      · obtain ⟨-, s, hs⟩ := hon'.claims k v hv
        cases hs
    refine wp_seq (P := fun a o'' υ => o'' = o' ∧ On settings i { locked := some hash } o' υ ∧ Written settings o' υ (some hash) none ∧
      Counted (υ.merge o') hash ∧ (a = 0 → ¬ Live (υ.merge o') hash)) ?_ ?_
    · refine countLive_spec ?_
      intro υ hl
      exact ⟨rfl, hon'.later hl, hwritten υ hl, (hrec.later hkey hl).counted, dead_of_count hl.fresh⟩
    rintro a o υ ⟨rfl, hon, hwritten, hcounted, hzero⟩
    split_ifs with ha
    · have hreleasing : Releasing settings i hash o υ := by
        refine ⟨⟨hon.claims, hon.claimed, hon.source, hon.reserved, hon.locked, hon.stored, fun h' hr => ?_, hon.taken⟩, hwritten,
          hcounted, hzero ha⟩
        cases hon.removed h' hr
      exact wp_returns_mono (deleteContentVariants_spec htask hreleasing) fun _ _ _ h' => h'.ready
    · refine wp_return ⟨fun ρ hl => ?_, fun h' hr => ?_, fun k s _ ht => ?_⟩
      · refine commit_good hl.inv (hwritten.later hl) ?_
        intro h' heq
        obtain rfl : hash = h' := Option.some.inj heq
        exact hcounted.later (hon.locked hash rfl) hl
      · cases hon.removed h' hr
      · cases hon.taken _ ht

/-- the row is read, its hash locked, and the row locked and read again -/
theorem lockFile_spec {α : Type} {k : LibraryFile → Op α} {P : α → Held → State → Prop} (hp : On settings i {} o σ)
    (hn : o.Nothing files)
    (h : ∀ f o τ, Editing settings i { locked := f.sha3Hash } n f f o τ → (discipline settings task).wp i (k f) (Returns P) o τ) :
    (discipline settings task).wp i (do
      let f ← getOrRaise files n .notFound
      lockFileHash settings f
      let f ← getLocked n
      k f) (Returns P) o σ := by
  refine wp_seq (P := fun f o' τ => o' = o ∧ On settings i {} o τ ∧ τ.com files n = some f) ?_ ?_
  · exact wp_getOrRaise fun τ f hl hv => ⟨rfl, hp.later hl, (Own.view_of_none (hn n)).symm.trans hv⟩
  rintro f o τ ⟨rfl, hon, hf⟩
  refine wp_seq (P := fun _ o' υ => On settings i { locked := f.sha3Hash } o' υ ∧ o'.Nothing files ∧
    ∃ f', υ.com files n = some f' ∧ Same f f') ?_ ?_
  · unfold lockFileHash
    split
    next hhash =>
      rw [hhash]
      exact wp_return ⟨hon, hn, f, hf, Same.refl f⟩
    next hash hhash =>
      rw [hhash]
      exact wp_lockKey fun υ hl _ => ⟨(hon.later hl).lock hash, hn, hl.rely.kept n f hf⟩
  rintro _ o υ ⟨hon, hn, f', hf', hs⟩
  refine wp_seq (P := fun f'' o' ρ => Editing settings i { locked := f''.sha3Hash } n f'' f'' o' ρ) ?_ fun f'' o ρ h' => h f'' o ρ h'
  unfold getLocked
  refine wp_bind (wp_lockRow ?_ ?_)
  · intro ρ _ _
    exact wp_fail Exn.notFound
  intro ρ f'' hl hv _
  have hf'' : ρ.com files n = some f'' := (Own.view_of_none (hn n)).symm.trans hv
  obtain ⟨f₃, hf₃, hs'⟩ := hl.rely.kept n f' hf'
  obtain rfl : f'' = f₃ := Option.some.inj (hf''.symm.trans hf₃)
  refine wp_return ⟨?_, hn.just _ _, hf'', Same.refl _⟩
  rw [(hs.trans hs').sha3Hash]
  exact (hon.later hl).put (by decide) _ _

/-- the row gets its new version -/
theorem Editing.flush_spec {u : LibraryFile → LibraryFile} (h : Editing settings i p n g f o σ) (hs : Same f (u f)) :
    (discipline settings task).wp i (flushFile n u) (Returns fun _ o' τ => Editing settings i p n g (u f) o' τ) o σ := by
  refine wp_flushFile h.just.row ?_
  intro τ hl
  have h' := h.later hl
  exact ⟨h'.on.put (by decide) _ _, h'.just.again _, h'.com, h'.same.trans hs⟩

/-- the calls at the end change nothing -/
theorem closing_spec {f : LibraryFile} {calls : Calls} (h : Ready settings task i o σ) :
    (discipline settings task).wp i (do
      let answer ← fileInfo n f calls
      pure (Response.file answer)) (Returns fun _ o' τ => Ready settings task i o' τ) o σ := by
  refine wp_seq (P := fun _ o' τ => Ready settings task i o' τ) ?_ fun _ o τ h' => wp_return h'
  exact wp_fileInfo fun τ _ hl => h.later hl

theorem deleteFile_spec {actor : UserId} {isAdmin : Bool} {calls : Calls} (htask : task i = false) (hp : On settings i {} o σ)
    (hn : o.Nothing files) :
    (discipline settings task).wp i (deleteFile settings n actor isAdmin calls)
      (Returns fun _ o' τ => Ready settings task i o' τ) o σ := by
  unfold deleteFile
  refine lockFile_spec hp hn ?_
  intro f o τ h
  split
  · exact wp_fail _
  split
  · exact closing_spec (h.ready rfl rfl rfl rfl rfl rfl)
  refine wp_seq (h.flush_spec ⟨rfl, rfl, rfl, rfl, rfl, rfl, rfl, rfl⟩) fun _ o υ h => ?_
  refine wp_seq (enqueueDocumentChange_spec h) fun _ o ρ h => ?_
  exact wp_seq (release_spec (f := { f with status := .deleted }) htask h rfl) fun _ o π h => closing_spec h

theorem reviewFile_spec {target : FileStatus} {comment : Option String} {isAdmin : Bool} {now : ℤ} {calls : Calls}
    (htask : task i = false) (hp : On settings i {} o σ) (hn : o.Nothing files) :
    (discipline settings task).wp i (reviewFile settings n target comment isAdmin now calls)
      (Returns fun _ o' τ => Ready settings task i o' τ) o σ := by
  unfold reviewFile
  split
  · exact wp_fail _
  split
  · exact wp_fail _
  next htarget =>
  refine lockFile_spec hp hn ?_
  intro f o τ h
  split
  · exact wp_fail _
  next hpending =>
  have hpending : f.status = .pending := not_not.1 hpending
  refine wp_seq (h.flush_spec ⟨rfl, rfl, rfl, rfl, rfl, rfl, rfl, rfl⟩) fun _ o υ h => ?_
  have haudit : ∀ o ρ, Ready settings task i o ρ → (discipline settings task).wp i (do
      orRaise (.audit calls.audit) .unavailable
      let answer ← fileInfo n { f with status := target, reviewComment := comment } calls
      pure (Response.file answer)) (Returns fun _ o' τ => Ready settings task i o' τ) o ρ := by
    intro o ρ h
    refine wp_seq (P := fun _ o' π => Ready settings task i o' π) (wp_orRaise ?_) fun _ o π h => closing_spec h
    exact wp_call (fun _ => rfl) fun π hl _ => h.later hl
  split
  next hrejected =>
    refine wp_seq (release_spec (f := { f with status := target, reviewComment := comment }) htask h ?_) fun _ o ρ h => haudit o ρ h
    rw [hrejected]
    rfl
  next hrejected =>
    have happroved : target = .approved := by
      by_contra hne
      exact htarget ⟨hne, hrejected⟩
    refine wp_seq (backUp_spec (f := { f with status := target, reviewComment := comment }) h) ?_
    rintro _ o ρ ⟨f', h, hhash, hstatus, hcount⟩
    refine wp_seq (P := fun _ o' π => Editing settings i { locked := f.sha3Hash } n f f' o' π) ?_ fun _ o π h => ?_
    · exact wp_insert fun π hl => (h.later hl).insert _ _
    refine wp_seq (enqueueDocumentChange_spec h) fun _ o χ h => haudit o χ ?_
    refine h.ready rfl hhash.symm rfl rfl hcount ?_
    rw [hstatus, hpending, happroved]
    rfl

end Reviews

/-! ## Tasks -/

/-- the session is between two transactions, and has removed nothing in its name -/
structure Idle (settings : Settings) (i : ℕ) (o : Held) (σ : State) : Prop where
  empty : o = {}
  on : On settings i {} {} σ

theorem On.idle (h : On settings i p o σ) (hremoved : p.removed = none) (htaken : p.taken = none) (hext : τ.ext = σ.ext) :
    Idle settings i {} τ := by
  refine ⟨rfl, fun _ _ h => (nomatch h), fun _ _ h => (nomatch h), fun _ _ h => (nomatch h), fun _ _ h => (nomatch h),
    fun _ h => (nomatch h), fun h => (nomatch h), fun hash hr => ?_, fun k hk => ?_⟩
  · rw [hext] at hr
    rw [← hremoved]
    exact h.removed hash hr
  · rw [hext] at hk
    rw [← htaken]
    exact h.taken k hk

/-- rows of the hash have been marked as archived, and no others -/
structure Marking (settings : Settings) (i : ℕ) (hash : String) (o : Held) (σ : State) : Prop where
  on : On settings i { locked := some hash } o σ
  archived : σ.ext.archive hash = true
  rows : ∀ m v, o.row files m = some v → ∃ f, σ.com files m = some f ∧ f.sha3Hash = some hash ∧ v = some { f with archived := true }

theorem Marking.later (h : Marking settings i hash o σ) (hl : (discipline settings task).Later i o σ τ) :
    Marking settings i hash o τ := by
  refine ⟨h.on.later hl, ?_, fun m v hv => ?_⟩
  · have hbytes := hl.rely.bytes hash (h.on.locked hash rfl)
    simp only [Storage.bytes, Prod.mk.injEq] at hbytes
    rw [hbytes.2.1]
    exact h.archived
  · rw [hl.com_eq hv]
    exact h.rows m v hv

theorem Marking.good (h : Marking settings i hash o σ) (hinv : Inv σ) :
    (discipline settings task).Good i o σ (σ.merge o) := by
  have hwritten : Written settings o σ (some hash) none := by
    refine ⟨fun m v hv => ?_, fun h' heq => Option.some.inj heq ▸ h.on.locked hash rfl, fun _ _ heq => (nomatch heq), fun k v hv => ?_⟩
    · obtain ⟨f, hf, hhash, rfl⟩ := h.rows m v hv
      exact ⟨_, rfl, hhash, .inl ⟨f, hf, ⟨rfl, rfl, rfl, rfl, rfl, rfl, rfl, rfl⟩, id⟩⟩
    · obtain ⟨-, s, hs⟩ := h.on.claims k v hv
      cases hs
  refine commit_good hinv hwritten ?_
  intro h' heq
  obtain rfl : hash = h' := Option.some.inj heq
  refine counted_flat hinv ?_
  intro m v hv
  obtain ⟨f, hf, -, rfl⟩ := h.rows m v hv
  exact ⟨f, _, rfl, hf, rfl, rfl, rfl⟩

/-- by induction on the rows that are left, which are of the hash -/
theorem markArchived_spec {ns : List ℕ} (h : Marking settings i hash o σ)
    (hns : ∀ m ∈ ns, ∃ f, σ.com files m = some f ∧ f.sha3Hash = some hash) :
    (discipline settings task).wp i (markArchived ns) (Returns fun _ o' τ => Marking settings i hash o' τ) o σ := by
  induction ns generalizing o σ with
  | nil => exact wp_return h
  | cons n ns ih =>
    have hkey := h.on.locked hash rfl
    have hcom : ∀ τ, (discipline settings task).Later i o σ τ → ∀ m ∈ n :: ns, ∃ f, τ.com files m = some f ∧ f.sha3Hash = some hash := by
      intro τ hl m hm
      obtain ⟨f, hf, hhash⟩ := hns m hm
      exact ⟨f, (hl.rely.rows hash hkey m f hhash).2 hf, hhash⟩
    unfold markArchived flushFile
    refine wp_seq (P := fun _ o' τ => Marking settings i hash o' τ ∧
      ∀ m ∈ n :: ns, ∃ f, τ.com files m = some f ∧ f.sha3Hash = some hash) (wp_bind (wp_updateRow ?_ ?_)) ?_
    · intro τ _ _
      exact wp_fail (D := discipline settings task) Exn.dataError
    · intro τ r hl hv _
      have h' := h.later hl
      obtain ⟨f, hf, hhash⟩ := hcom τ hl n List.mem_cons_self
      have hr : ({ r with archived := true } : LibraryFile) = { f with archived := true } := by
        rcases hrow : o.row files n with _ | v
        · rw [Own.view_of_none hrow, hf, Option.some.injEq] at hv
          rw [hv]
        · obtain ⟨f₀, hf₀, -, rfl⟩ := h'.rows n v hrow
          rw [Own.view_of_row hrow, Option.some.injEq] at hv
          rw [← hv, Option.some.inj (hf₀.symm.trans hf)]
      have hne : sessions ≠ files := by decide
      refine wp_return ⟨⟨h'.on.put hne _ _, h'.archived, fun m v hm => ?_⟩, hcom τ hl⟩
      rw [Own.put_row_same] at hm
      by_cases hmn : m = n
      · subst hmn
        rw [if_pos rfl, Option.some.injEq] at hm
        exact ⟨f, hf, hhash, by rw [← hm, ← hr]⟩
      · rw [if_neg hmn] at hm
        exact h'.rows m v hm
    rintro _ o τ ⟨h', hcom'⟩
    exact ih h' fun m hm => hcom' m (List.mem_cons_of_mem _ hm)

theorem archiveHash_spec {cutoff : ℤ} {calls : Calls} (hdir : settings.archiveDir = true) (h : Idle settings i o σ) :
    (discipline settings task).wp i (archiveHash settings cutoff hash calls) (Returns fun _ o' τ => Idle settings i o' τ) o σ := by
  obtain ⟨rfl, hon⟩ := h
  have hrollback : ∀ o τ, On settings i { locked := some hash } o τ →
      (discipline settings task).wp i (rollback : Op Unit) (Returns fun _ o' τ => Idle settings i o' τ) o τ := by
    intro o τ h
    refine wp_rollback (D := discipline settings task) ?_
    intro υ hl
    exact (h.later hl).idle rfl rfl rfl
  unfold archiveHash
  refine wp_seq (P := fun _ o' τ => On settings i { locked := some hash } o' τ ∧ o'.Nothing files) ?_ ?_
  · exact wp_lockKey fun τ hl _ => ⟨(hon.later hl).lock hash, fun _ => rfl⟩
  rintro _ o τ ⟨hon, hn⟩
  refine wp_bind (wp_select ?_)
  intro υ hl l hmem _
  dsimp only
  split
  · exact hrollback o υ (hon.later hl)
  have hrows : ∀ q ∈ l, υ.com files q.1 = some q.2 ∧ q.2.sha3Hash = some hash := by
    rintro ⟨m, f⟩ hq
    obtain ⟨hv, hf⟩ := (hmem m f).1 hq
    exact ⟨(Own.view_of_none (hn m)).symm.trans hv, of_decide_eq_true hf⟩
  -- the rows that have been read stay while the lock is held
  have hstay : ∀ ρ, (discipline settings task).Later i o υ ρ → ∀ q ∈ l, ρ.com files q.1 = some q.2 := by
    intro ρ hl' q hq
    exact (hl'.rely.rows hash (hon.locked hash rfl) q.1 q.2 (hrows q hq).2).2 (hrows q hq).1
  refine wp_seq (P := fun _ o' ρ => o' = o ∧ On settings i { locked := some hash } o ρ ∧ (discipline settings task).Later i o υ ρ) ?_ ?_
  · exact wp_call (fun _ => rfl) fun ρ hl' => ⟨rfl, (hon.later hl).later hl', hl'⟩
  rintro present o ρ ⟨rfl, hon, hlater⟩
  split
  · exact wp_fail _
  · exact hrollback o ρ hon
  refine wp_seq (P := fun _ o' π => o' = o ∧ Marking settings i hash o π ∧ ∀ q ∈ l, π.com files q.1 = some q.2) ?_ ?_
  · refine wp_orRaise (wp_steps (some hash) ?_ ?_)
    · intro h' heq
      exact Option.some.inj heq ▸ hon.locked hash rfl
    intro π hl'
    have hon' := hon.later hl'
    simp only [Effects.exec]
    split_ifs with hcopies
    · refine ⟨⟨fun h' hne => ?_, id, fun h' hhas => .inl ?_, fun _ => .inl rfl, fun _ _ h => h, fun _ _ h => .inl h, fun _ => .inl rfl,
        fun _ h => h⟩, fun _ => ⟨trivial, ⟨?_, ?_, fun m v hv => ?_⟩, hstay π (hlater.trans hl')⟩⟩
      · have hne' : h' ≠ hash := by simpa [eq_comm] using hne
        simp only [Storage.bytes, Function.update_of_ne hne']
      · simp only [Storage.has, Bool.or_eq_true, Function.update_apply] at hhas ⊢
        split_ifs
        · exact .inr rfl
        · exact hhas
      · refine hon'.ext (fun h' hhas => ?_) (fun _ => rfl) rfl rfl
        simp only [Storage.has, Bool.or_eq_true, Function.update_apply] at hhas ⊢
        split_ifs
        · exact .inr rfl
        · exact hhas
      · exact Function.update_self _ _ _
      · rw [hn m] at hv
        cases hv
    · exact ⟨Steps.refl _ _, fun hc => absurd hc hcopies⟩
  rintro _ o π ⟨rfl, hmarking, hread⟩
  refine wp_seq (markArchived_spec hmarking ?_) ?_
  · intro m hm
    obtain ⟨q, hq, rfl⟩ := List.mem_map.1 hm
    have hql : q ∈ l := (List.mem_filter.1 (List.mem_filter.1 hq).1).1
    exact ⟨q.2, hread q hql, (hrows q hql).2⟩
  intro _ o χ hmarking
  refine wp_seq (P := fun _ o' ψ => Marking settings i hash o' ψ) (wp_orRaise (wp_steps (some hash) ?_ ?_)) ?_
  · intro h' heq
    exact Option.some.inj heq ▸ hmarking.on.locked hash rfl
  · intro ψ hl'
    have hm := hmarking.later hl'
    cases calls.delete .main with
    | false => exact ⟨Steps.refl _ _, fun h => absurd h Bool.false_ne_true⟩
    | true =>
      -- the bytes are in the archive, so the last ones stay
      have hhas : (ψ.ext.drop (.content hash .main)).has hash = true := by
        simp only [Storage.has, Bool.or_eq_true]
        exact .inr hm.archived
      have hblame : ψ.ext.blame (ψ.ext.drop (.content hash .main)) i hash = ψ.ext.drop (.content hash .main) := by
        simp [Storage.blame, hhas]
      have hobject : ∀ k, k ≠ Key.content hash .main → (ψ.ext.drop (.content hash .main)).object k = ψ.ext.object k :=
        fun k hk => by exact Function.update_of_ne hk none ψ.ext.object
      change Steps i (task i) (some hash) ψ.ext (ψ.ext.blame (ψ.ext.drop (.content hash .main)) i hash) ∧
        (true = true → Marking settings i hash o { ψ with ext := ψ.ext.blame (ψ.ext.drop (.content hash .main)) i hash })
      refine ⟨steps_blame (fun k hk => hobject k (hk _)) (.inr (Function.update_self _ _ _)) (fun _ _ => rfl) ⟨rfl, rfl, rfl⟩
        (.inr hhas), fun _ => ?_⟩
      rw [hblame]
      refine ⟨hm.on.ext (fun h' hbefore => ?_) (fun k => hobject _ (by simp)) rfl rfl, hm.archived, hm.rows⟩
      by_cases heq : h' = hash
      · exact heq ▸ hhas
      · simp only [Storage.has, hobject (.content h' .main) (by simp [heq])]
        exact hbefore
  intro _ o ψ hmarking
  refine wp_commit ?_
  intro ω hl'
  have hm := hmarking.later hl'
  exact ⟨hm.good hl'.inv, hm.on.idle rfl rfl rfl⟩

theorem archiveHashes_spec {cutoff : ℤ} {calls : String → Calls} {hashes : List String} (hdir : settings.archiveDir = true)
    (h : Idle settings i o σ) :
    (discipline settings task).wp i (archiveHashes settings cutoff calls hashes) (Returns fun _ o' τ => Idle settings i o' τ) o σ := by
  induction hashes generalizing o σ with
  | nil => exact wp_return h
  | cons hash hashes ih => exact wp_seq (archiveHash_spec hdir h) fun _ o τ h' => ih h'

theorem Idle.later (h : Idle settings i o σ) (hl : (discipline settings task).Later i o σ τ) : Idle settings i o τ := by
  obtain ⟨rfl, hon⟩ := h
  exact ⟨rfl, hon.later hl⟩

theorem archiveColdFiles_spec {now : ℤ} {calls : String → Calls} (h : Idle settings i o σ) :
    (discipline settings task).wp i (archiveColdFiles settings now calls) (Returns fun _ o' τ => Idle settings i o' τ) o σ := by
  unfold archiveColdFiles
  split
  · exact wp_return h
  next hdir =>
  refine wp_seq (P := fun _ o' τ => Idle settings i o' τ) (wp_lookup fun τ l hl => h.later hl) fun rows o τ h => ?_
  exact wp_seq (archiveHashes_spec (by simpa using hdir) h) fun _ o υ h' => wp_return h'

/-- upload sessions are locked, and those whose object is gone are deleted -/
structure Sweeping (settings : Settings) (i : ℕ) (o : Held) (σ : State) : Prop where
  on : On settings i {} {} σ
  nothing : o.Nothing files
  claims : ∀ k v, o.row sessions k = some v → v = σ.com sessions k ∨
    (v = none ∧ ∃ s, σ.com sessions k = some s ∧ σ.ext.cleaned s.storageKey = true)

theorem Sweeping.later (h : Sweeping settings i o σ) (hl : (discipline settings task).Later i o σ τ) : Sweeping settings i o τ := by
  have hmine : (discipline settings task).Later i {} σ τ := by
    refine hl.sub (Own.empty_sub o) ⟨hl.rely.kept, fun _ hk => hk.elim, fun _ hk => hk.elim, fun _ hk => hk.elim,
      fun _ hk => hk.elim, hl.rely.shrinking, hl.rely.removed, hl.rely.taken, hl.rely.uploads, hl.rely.cleaned⟩
  refine ⟨h.on.later hmine, h.nothing, fun k v hv => ?_⟩
  rw [hl.com_eq hv]
  rcases h.claims k v hv with hsame | ⟨rfl, s, hs, hcleaned⟩
  · exact .inl hsame
  · exact .inr ⟨rfl, s, hs, hl.rely.cleaned _ hcleaned⟩

theorem Sweeping.good (h : Sweeping settings i o σ) (hinv : Inv σ) :
    (discipline settings task).Good i o σ (σ.merge o) := by
  have hwritten : Written settings o σ none none := by
    refine ⟨fun m v hv => ?_, fun _ heq => (nomatch heq), fun _ _ heq => (nomatch heq), fun k v hv => ?_⟩
    · rw [h.nothing m] at hv
      cases hv
    · rcases h.claims k v hv with hsame | ⟨rfl, s, hs, hcleaned⟩
      · exact .inl hsame
      · exact .inr ⟨rfl, s, hs, .inr hcleaned⟩
  exact commit_good hinv hwritten fun _ heq => (nomatch heq)

/-- a row of the upload sessions is locked, or deleted when its object is gone -/
theorem Sweeping.put {k : ℕ} {v : Option UploadSession} (h : Sweeping settings i o σ)
    (hv : v = σ.com sessions k ∨ (v = none ∧ ∃ s, σ.com sessions k = some s ∧ σ.ext.cleaned s.storageKey = true)) :
    Sweeping settings i (o.put sessions k v) σ := by
  refine ⟨h.on, h.nothing.put (by decide) _ _, fun m w hw => ?_⟩
  rw [Own.put_row_same] at hw
  by_cases hmk : m = k
  · subst hmk
    rw [if_pos rfl, Option.some.injEq] at hw
    exact hw ▸ hv
  · rw [if_neg hmk] at hw
    exact h.claims m w hw

/-- what the session sees of an upload session that it has not deleted is what is committed -/
theorem Sweeping.com_of_view {k : ℕ} {s : UploadSession} (h : Sweeping settings i o σ) (hv : o.view σ sessions k = some s) :
    σ.com sessions k = some s := by
  rcases hrow : o.row sessions k with _ | v
  · rwa [Own.view_of_none hrow] at hv
  · rw [Own.view_of_row hrow] at hv
    rcases h.claims k v hrow with hsame | ⟨rfl, -⟩
    · rw [← hsame, hv]
    · cases hv

/-- the rows that are held stay held, as they are committed -/
def Holds (rows : List (ℕ × UploadSession)) (o : Held) (σ : State) : Prop :=
  ∀ r ∈ rows, o.row sessions r.1 ≠ none ∧ σ.com sessions r.1 = some r.2

theorem Holds.later {rows : List (ℕ × UploadSession)} (h : Holds rows o σ) (hl : (discipline settings task).Later i o σ τ) :
    Holds rows o τ := by
  intro r hr
  obtain ⟨hown, hcom⟩ := h r hr
  obtain ⟨v, hv⟩ := Option.ne_none_iff_exists'.1 hown
  exact ⟨hown, (hl.com_eq hv).trans hcom⟩

theorem Holds.put {rows : List (ℕ × UploadSession)} (h : Holds rows o σ) (k : ℕ) (v : Option UploadSession) :
    Holds rows (o.put sessions k v) σ := by
  intro r hr
  obtain ⟨hown, hcom⟩ := h r hr
  refine ⟨?_, hcom⟩
  rw [Own.put_row_same]
  split_ifs
  · simp
  · exact hown

/-- by induction on the candidates; what was held before stays held -/
theorem lockUpTo_spec {q : UploadSession → Bool} {ns : List ℕ} {limit : ℕ} {rows : List (ℕ × UploadSession)}
    (h : Sweeping settings i o σ) (hrows : Holds rows o σ) :
    (discipline settings task).wp i (lockUpTo q ns limit) (Returns fun page o' τ => Sweeping settings i o' τ ∧
      Holds (rows ++ page) o' τ) o σ := by
  induction ns generalizing o σ limit rows with
  | nil => exact wp_return ⟨h, by simpa using hrows⟩
  | cons n ns ih =>
    unfold lockUpTo
    split_ifs
    · exact wp_return ⟨h, by simpa using hrows⟩
    refine wp_bind (wp_tryLockRow ?_ ?_)
    · intro τ hl
      exact ih (h.later hl) (hrows.later hl)
    intro τ s hl hv _
    have h' := h.later hl
    have hcom := h'.com_of_view hv
    have hput := h'.put (k := n) (v := some s) (.inl hcom.symm)
    have hheld : Holds (rows ++ [(n, s)]) (o.put sessions n (some s)) τ := by
      intro r hr
      rcases List.mem_append.1 hr with hr | hr
      · exact (hrows.later hl).put n (some s) r hr
      · obtain rfl : r = (n, s) := List.mem_singleton.1 hr
        exact ⟨by simp, hcom⟩
    refine wp_seq (ih hput hheld) ?_
    rintro page o υ ⟨hsweep, hpage⟩
    exact wp_return ⟨hsweep, by simpa using hpage⟩

/-- the object of an upload session is removed -/
theorem Sweeping.clean {key : String} (h : Sweeping settings i o σ) :
    Sweeping settings i o { σ with ext := σ.ext.delete i (.upload key) .cleanup } := by
  refine ⟨⟨fun _ _ h => (nomatch h), fun _ _ h => (nomatch h), fun _ _ h => (nomatch h), fun _ _ h => (nomatch h),
    fun _ h => (nomatch h), fun h => (nomatch h), h.on.removed, h.on.taken⟩, h.nothing, fun k v hv => ?_⟩
  rcases h.claims k v hv with hsame | ⟨rfl, s, hs, hcleaned⟩
  · exact .inl hsame
  · refine .inr ⟨rfl, s, hs, ?_⟩
    change Function.update σ.ext.cleaned key true s.storageKey = true
    by_cases hkey : s.storageKey = key
    · rw [hkey, Function.update_self]
    · rw [Function.update_of_ne hkey]
      exact hcleaned

/-- by induction on the page, whose rows are held -/
theorem removeExpired_spec {calls : String → Calls} {page : List (ℕ × UploadSession)} (h : Sweeping settings i o σ)
    (hpage : Holds page o σ) :
    (discipline settings task).wp i (removeExpired calls page) (Returns fun _ o' τ => Sweeping settings i o' τ) o σ := by
  induction page generalizing o σ with
  | nil => exact wp_return h
  | cons r rest ih =>
    obtain ⟨n, s⟩ := r
    unfold removeExpired
    refine wp_seq (P := fun b o' τ => Sweeping settings i o' τ ∧ Holds ((n, s) :: rest) o' τ ∧
      (b = true → τ.ext.cleaned s.storageKey = true)) (wp_steps none (fun _ h => nomatch h) ?_) ?_
    · intro τ hl
      have h' := h.later hl
      have hpage' := hpage.later hl
      cases (calls s.storageKey).deleteUpload with
      | false => exact ⟨Steps.refl _ _, h', hpage', fun hb => nomatch hb⟩
      | true =>
        have hpurpose : Purpose.cleanup = .registration → task i = false := fun hp => (nomatch hp)
        have hsteps : Steps i (task i) none τ.ext (τ.ext.delete i (.upload s.storageKey) .cleanup) :=
          steps_dropUpload hpurpose none
        exact ⟨hsteps, h'.clean, hpage', fun _ => Function.update_self _ _ _⟩
    rintro b o τ ⟨h', hpage', hcleaned⟩
    have hrest : Holds rest o τ := fun r hr => hpage' r (List.mem_cons_of_mem _ hr)
    cases b with
    | false => exact ih h' hrest
    | true =>
      refine wp_bind (wp_deleteIf ?_ ?_)
      · intro υ hl _
        exact ih (h'.later hl) (hrest.later hl)
      · intro υ r hl _ _
        have hcom := ((hpage'.later hl) (n, s) List.mem_cons_self).2
        have hc : υ.ext.cleaned s.storageKey = true := hl.rely.cleaned _ (hcleaned rfl)
        exact ih ((h'.later hl).put (.inr ⟨rfl, s, hcom, hc⟩)) ((hrest.later hl).put n none)

theorem Idle.sweeping (h : Idle settings i o σ) : Sweeping settings i o σ := by
  obtain ⟨rfl, hon⟩ := h
  exact ⟨hon, fun _ => rfl, fun _ _ h => (nomatch h)⟩

theorem listExpired_spec {cutoff : ℤ} {after : Option (ℤ × String)} {limit : ℕ} (h : Sweeping settings i o σ) :
    (discipline settings task).wp i (listExpired cutoff after limit) (Returns fun page o' τ => Sweeping settings i o' τ ∧
      Holds page o' τ) o σ := by
  unfold listExpired
  refine wp_seq (P := fun _ o' τ => Sweeping settings i o' τ) (wp_lookup fun τ l hl => h.later hl) ?_
  intro rows o τ h'
  have hnone : Holds [] o τ := fun r hr => (List.not_mem_nil hr).elim
  exact lockUpTo_spec h' hnone

/-- by induction on the number of pages -/
theorem cleanupPages_spec {cutoff : ℤ} {calls : String → Calls} {fuel : ℕ} {after : Option (ℤ × String)}
    (h : Idle settings i o σ) :
    (discipline settings task).wp i (cleanupPages settings cutoff calls fuel after)
      (Returns fun _ o' τ => Sweeping settings i o' τ) o σ := by
  induction fuel generalizing o σ after with
  | zero => exact wp_return h.sweeping
  | succ fuel ih =>
    unfold cleanupPages
    refine wp_seq (listExpired_spec h.sweeping) ?_
    rintro page o τ ⟨h', hpage⟩
    split
    · exact wp_return h'
    refine wp_seq (removeExpired_spec h' hpage) ?_
    intro _ o υ h''
    refine wp_seq (P := fun _ o' ρ => Idle settings i o' ρ) (wp_commit ?_) fun _ o ρ hidle => ih hidle
    intro ρ hl
    have hs := h''.later hl
    exact ⟨hs.good hl.inv, hs.on.idle rfl rfl rfl⟩

theorem Sweeping.ready (h : Sweeping settings i o σ) : Ready settings task i o σ := by
  refine ⟨fun υ hl => (h.later hl).good hl.inv, fun hash hr => ?_, fun k s _ ht => ?_⟩
  · cases h.on.removed hash hr
  · cases h.on.taken _ ht

/-! ## All requests -/

/-- what works without a user, and commits on the way -/
def Request.isTask : Request → Bool
  | .archive .. => true
  | .cleanup .. => true
  | _ => false

/-- a session that has not begun -/
theorem on_start (hremoved : ∀ h, σ.ext.removedBy h ≠ some i) (htaken : ∀ k, σ.ext.takenBy k ≠ some i) :
    On settings i {} {} σ :=
  ⟨fun _ _ h => (nomatch h), fun _ _ h => (nomatch h), fun _ _ h => (nomatch h), fun _ _ h => (nomatch h),
    fun _ h => (nomatch h), fun h => (nomatch h), fun h hr => absurd hr (hremoved h), fun k hk => absurd hk (htaken k)⟩

theorem body_spec {r : Request} (htask : task i = r.isTask) (hp : On settings i {} {} σ) :
    (discipline settings task).wp i (r.body settings) (Returns fun _ o' τ => Ready settings task i o' τ) {} σ := by
  have hn : ({} : Held).Nothing files := fun _ => rfl
  have hidle : Idle settings i {} σ := ⟨rfl, hp⟩
  cases r with
  | create uploader info content year now calls =>
    exact wp_seq (createFile_spec hp hn) fun _ o τ h => wp_return h
  | confirm uploadId user year now calls => exact confirmUpload_spec htask hp hn
  | notify uploadId year now calls => exact notifyUpload_spec htask hp hn
  | review n target comment isAdmin now calls => exact reviewFile_spec htask hp hn
  | delete n actor isAdmin calls => exact deleteFile_spec htask hp hn
  | archive now calls => exact wp_returns_mono (archiveColdFiles_spec hidle) fun _ o τ h => h.sweeping.ready
  | cleanup now fuel calls =>
    exact wp_seq (cleanupPages_spec hidle) fun _ o τ h => wp_return h.ready

/-- **Requests.** Every request keeps the discipline, and owns nothing when it has ended. -/
theorem prog_spec {r : Request} (htask : task i = r.isTask) (hp : On settings i {} {} σ) :
    (discipline settings task).wp i (r.prog settings) (fun _ o _ => o = {}) {} σ :=
  wp_transaction (body_spec htask hp) fun _ _ _ h υ hl _ => h.good υ hl

end LkmService.Files
