/-
The discipline of the library of files: what holds of every committed state, and what a session may rely on while the
others move.

- `Steps`: what a statement does to the storage. A session touches the bytes of a hash under its lock only.
- `Inv`: documents are numbered, references are counted, every object has the hash of its key, and an upload is registered
  once.
- `Rely`: what a session that holds locks need not fear.
- `commit_good`: what a session may commit.
-/
import LkmService.Files.Documents
import LkmService.Lib.Count

namespace LkmService.Files

open Session Sql Sql.Discipline Tbl

abbrev State := Snap Row Storage

abbrev Held := Own Row Lock

variable {settings : Settings} {task : ℕ → Bool} {i j : ℕ} {o o' : Held} {σ τ υ : State} {s s' : Storage}
  {isTask : Bool} {hash : String}

/-! ## Steps of the storage -/

/-- what the lock of a hash protects -/
def Storage.bytes (s : Storage) (hash : String) : Option Object × Bool × Option ℕ :=
  (s.object (.content hash .main), s.archive hash, s.removedBy hash)

theorem Storage.has_of_bytes (h : s'.bytes hash = s.bytes hash) : s'.has hash = s.has hash := by
  simp only [bytes, Prod.mk.injEq] at h
  simp only [has, h.1, h.2.1]

/-- every object has the hash of its key -/
def Storage.Hashed (s : Storage) : Prop := ∀ h c, s.object (.content h .main) = some c → c.hash = h

/-- what a statement of session `i` may do, and to the bytes of no other hash than `touched` -/
structure Steps (i : ℕ) (isTask : Bool) (touched : Option String) (s s' : Storage) : Prop where
  others : ∀ h, touched ≠ some h → s'.bytes h = s.bytes h
  hashed : s.Hashed → s'.Hashed
  lost : ∀ h, s.has h = true → s'.has h = true ∨ s'.removedBy h = some i
  removed : ∀ h, s'.removedBy h = s.removedBy h ∨ (s'.removedBy h = some i ∧ isTask = false)
  uploads : ∀ k c, s'.object (.upload k) = some c → s.object (.upload k) = some c
  gone : ∀ k c, s.object (.upload k) = some c →
    s'.object (.upload k) = some c ∨ s'.cleaned k = true ∨ s'.takenBy k = some i
  taken : ∀ k, s'.takenBy k = s.takenBy k ∨ (s'.takenBy k = some i ∧ isTask = false)
  cleaned : ∀ k, s.cleaned k = true → s'.cleaned k = true

theorem Steps.refl (touched : Option String) (s : Storage) : Steps i isTask touched s s :=
  ⟨fun _ _ => rfl, id, fun _ h => .inl h, fun _ => .inl rfl, fun _ _ h => h, fun _ _ h => .inl h, fun _ => .inl rfl,
    fun _ h => h⟩

/-- an object is written at a key of the hash -/
theorem steps_put {v : Variant} {c : Object} (hc : v = .main → c.hash = hash) :
    Steps i isTask (some hash) s (s.put (.content hash v) c) := by
  have hother : ∀ h, h ≠ hash → (s.put (.content hash v) c).object (.content h .main) = s.object (.content h .main) := by
    intro h hne
    have hkey : Key.content h .main ≠ .content hash v := by simp [hne]
    exact Function.update_of_ne hkey (some c) s.object
  have hupload : ∀ k, (s.put (.content hash v) c).object (.upload k) = s.object (.upload k) := by
    intro k
    have hne : Key.upload k ≠ .content hash v := by simp
    exact Function.update_of_ne hne (some c) s.object
  refine ⟨fun h hne => ?_, fun hhashed h c' hc' => ?_, fun h hhas => .inl ?_, fun _ => .inl rfl, fun k c' h => hupload k ▸ h,
    fun k c' h => .inl ((hupload k).trans h), fun _ => .inl rfl, fun _ h => h⟩
  · have hobject := hother h (by simpa [eq_comm] using hne)
    simp only [Storage.bytes, hobject]
    rfl
  · by_cases hkey : Key.content h .main = Key.content hash v
    · simp only [Key.content.injEq] at hkey
      obtain ⟨rfl, rfl⟩ := hkey
      simp only [Storage.put, Function.update_self, Option.some.injEq] at hc'
      rw [← hc']
      exact hc rfl
    · simp only [Storage.put, Function.update_of_ne hkey] at hc'
      exact hhashed h c' hc'
  · simp only [Storage.has, Bool.or_eq_true] at hhas ⊢
    by_cases hkey : Key.content h .main = Key.content hash v
    · left
      simp [Storage.put, hkey]
    · simpa only [Storage.put, Function.update_of_ne hkey] using hhas

/-- something of the hash is removed, and the storage remembers whether that were the last bytes -/
theorem steps_blame {t : Storage} (hobject : ∀ k, (∀ v, k ≠ .content hash v) → t.object k = s.object k)
    (hmain : t.object (.content hash .main) = s.object (.content hash .main) ∨ t.object (.content hash .main) = none)
    (harchive : ∀ h, h ≠ hash → t.archive h = s.archive h)
    (hmarks : t.removedBy = s.removedBy ∧ t.takenBy = s.takenBy ∧ t.cleaned = s.cleaned)
    (htask : isTask = false ∨ t.has hash = true) : Steps i isTask (some hash) s (s.blame t i hash) := by
  obtain ⟨hremoved, htaken, hcleaned⟩ := hmarks
  have hsame : (s.blame t i hash).object = t.object ∧ (s.blame t i hash).archive = t.archive ∧
      (s.blame t i hash).takenBy = t.takenBy ∧ (s.blame t i hash).cleaned = t.cleaned := by
    unfold Storage.blame
    split_ifs
    · exact ⟨rfl, rfl, rfl, rfl⟩
    · exact ⟨rfl, rfl, rfl, rfl⟩
  obtain ⟨hobject', harchive', htaken', hcleaned'⟩ := hsame
  have hhas : ∀ h, (s.blame t i hash).has h = t.has h := fun h => by simp only [Storage.has, hobject', harchive']
  have hother : ∀ h, h ≠ hash → (s.blame t i hash).removedBy h = s.removedBy h := by
    intro h hne
    unfold Storage.blame
    split_ifs
    · simp only [Function.update_of_ne hne, hremoved]
    · rw [hremoved]
  have hcontent : ∀ h, h ≠ hash → t.object (.content h .main) = s.object (.content h .main) := by
    intro h hne
    exact hobject _ (by simp [hne])
  have hupload : ∀ k, (s.blame t i hash).object (.upload k) = s.object (.upload k) := by
    intro k
    rw [hobject']
    exact hobject _ (by simp)
  refine ⟨fun h hne => ?_, fun hhashed h c hc => ?_, fun h hbefore => ?_, fun h => ?_, fun k c h => hupload k ▸ h,
    fun k c h => .inl ((hupload k).trans h), fun k => .inl ?_, fun k h => ?_⟩
  · have hne' : h ≠ hash := by simpa [eq_comm] using hne
    simp only [Storage.bytes, hobject', harchive', hcontent h hne', harchive h hne', hother h hne']
  · rw [hobject'] at hc
    by_cases heq : h = hash
    · subst heq
      rcases hmain with hmain | hmain
      · exact hhashed h c (hmain ▸ hc)
      · rw [hmain] at hc
        cases hc
    · exact hhashed h c (hcontent h heq ▸ hc)
  · rw [hhas]
    by_cases heq : h = hash
    · subst heq
      rcases hafter : t.has h with _ | _
      · right
        simp [Storage.blame, hbefore, hafter]
      · exact .inl rfl
    · left
      simp only [Storage.has, hcontent h heq, harchive h heq]
      exact hbefore
  · by_cases heq : h = hash
    · subst heq
      rcases htask with htask | hafter
      · unfold Storage.blame
        split_ifs
        · right
          simp [htask]
        · left
          rw [hremoved]
      · left
        simp [Storage.blame, hafter, hremoved]
    · exact .inl (hother h heq)
  · rw [htaken', htaken]
  · rw [hcleaned', hcleaned]
    exact h

/-- an upload is removed -/
theorem steps_dropUpload {k : String} {purpose : Purpose} (htask : purpose = .registration → isTask = false)
    (touched : Option String) : Steps i isTask touched s (s.delete i (.upload k) purpose) := by
  have hobject : ∀ key, key ≠ .upload k → (s.delete i (.upload k) purpose).object key = s.object key := by
    intro key hne
    cases purpose with
    | registration => exact Function.update_of_ne hne none s.object
    | cleanup => exact Function.update_of_ne hne none s.object
  have hself : (s.delete i (.upload k) purpose).object (.upload k) = none := by
    cases purpose with
    | registration => exact Function.update_self _ _ _
    | cleanup => exact Function.update_self _ _ _
  have hsame : (s.delete i (.upload k) purpose).archive = s.archive ∧
      (s.delete i (.upload k) purpose).removedBy = s.removedBy := by
    cases purpose with
    | registration => exact ⟨rfl, rfl⟩
    | cleanup => exact ⟨rfl, rfl⟩
  have hbytes : ∀ h, (s.delete i (.upload k) purpose).bytes h = s.bytes h := by
    intro h
    simp only [Storage.bytes, hobject _ (by simp : Key.content h .main ≠ .upload k), hsame.1, hsame.2]
  refine ⟨fun h _ => hbytes h, fun hhashed h c hc => ?_, fun h hhas => .inl ?_, fun h => .inl ?_, fun k' c hc => ?_,
    fun k' c hc => ?_, fun k' => ?_, fun k' hk' => ?_⟩
  · rw [hobject (.content h .main) (by simp)] at hc
    exact hhashed h c hc
  · rw [Storage.has_of_bytes (hbytes h)]
    exact hhas
  · rw [hsame.2]
  · by_cases heq : k' = k
    · subst heq
      rw [hself] at hc
      cases hc
    · rwa [hobject _ (by simp [heq])] at hc
  · by_cases heq : k' = k
    · subst heq
      right
      cases purpose with
      | registration => exact .inr (Function.update_self _ _ _)
      | cleanup => exact .inl (Function.update_self _ _ _)
    · left
      rw [hobject _ (by simp [heq])]
      exact hc
  · cases purpose with
    | cleanup => exact .inl rfl
    | registration =>
      by_cases heq : k' = k
      · subst heq
        exact .inr ⟨Function.update_self _ _ _, htask rfl⟩
      · exact .inl (Function.update_of_ne heq _ _)
  · cases purpose with
    | registration => exact hk'
    | cleanup =>
      by_cases heq : k' = k
      · subst heq
        exact Function.update_self _ _ _
      · exact (Function.update_of_ne heq _ _).trans hk'

/-! ## The invariant -/

def docLock (settings : Settings) (key : Text) : Lock := .advisory (settings.digest ("file-doc:" ++ String.ofList key))

def hashLock (settings : Settings) (hash : String) : Lock := .advisory (settings.digest ("files:" ++ hash))

/-- the reference counts of the rows of a hash -/
def Counted (σ : State) (hash : String) : Prop := ∀ n f, σ.com files n = some f → f.sha3Hash = some hash →
  f.refCount = (σ.matching files (LibraryFile.isLiveOf hash)).ncard

/-- there is a live row of the hash -/
def Live (σ : State) (hash : String) : Prop := ∃ n f, σ.com files n = some f ∧ f.isLiveOf hash = true

structure Inv (σ : State) : Prop where
  numbered : Numbered (σ.com files)
  counted : ∀ h, Counted σ h
  hashed : σ.ext.Hashed
  once : ∀ n m f g k, σ.com files n = some f → σ.com files m = some g → f.upload = some k → g.upload = some k → n = m
  used : ∀ n f k, σ.com files n = some f → f.upload = some k → σ.com sessions k = none
  keys : ∀ k k' s s', σ.com sessions k = some s → σ.com sessions k' = some s' → s.storageKey = s'.storageKey → k = k'
  contents : ∀ k s c, σ.com sessions k = some s → s.content = some c → c.key = s.storageKey

/-- what session `i`, which owns `o`, may rely on: under its lock the rows and the bytes of a hash stay, no document is
begun or continued under its locks, and nobody else removes in its name -/
structure Rely (settings : Settings) (i : ℕ) (o : Held) (σ τ : State) : Prop where
  kept : Extends (σ.com files) (τ.com files)
  rows : ∀ h, o.key (hashLock settings h) → ∀ n f, f.sha3Hash = some h → (τ.com files n = some f ↔ σ.com files n = some f)
  bytes : ∀ h, o.key (hashLock settings h) → τ.ext.bytes h = σ.ext.bytes h
  begun : ∀ y, o.key (docLock settings (codePrefix y)) → ∀ n f c, τ.com files n = some f → f.documentCode = some c →
    codePrefix y <+: c → f.version = 1 → ∃ f', σ.com files n = some f'
  continued : ∀ c, o.key (docLock settings c) → ∀ n f, τ.com files n = some f → f.documentCode = some c → 1 < f.version →
    ∃ f', σ.com files n = some f'
  shrinking : ∀ k s, τ.com sessions k = some s → σ.com sessions k = some s
  removed : ∀ h, τ.ext.removedBy h = some i → σ.ext.removedBy h = some i
  taken : ∀ k, τ.ext.takenBy k = some i → σ.ext.takenBy k = some i
  uploads : ∀ k c, τ.ext.object (.upload k) = some c → σ.ext.object (.upload k) = some c
  cleaned : ∀ k, σ.ext.cleaned k = true → τ.ext.cleaned k = true

theorem Rely.refl (settings : Settings) (i : ℕ) (o : Held) (σ : State) : Rely settings i o σ σ :=
  ⟨Extends.refl _, fun _ _ _ _ _ => Iff.rfl, fun _ _ => rfl, fun _ _ _ f _ h _ _ _ => ⟨f, h⟩, fun _ _ _ f h _ _ => ⟨f, h⟩,
    fun _ _ h => h, fun _ h => h, fun _ h => h, fun _ _ h => h, fun _ h => h⟩

theorem Rely.trans (h : Rely settings i o σ τ) (h' : Rely settings i o τ υ) : Rely settings i o σ υ where
  kept := h.kept.trans h'.kept
  rows hash hk n f hf := (h'.rows hash hk n f hf).trans (h.rows hash hk n f hf)
  bytes hash hk := (h'.bytes hash hk).trans (h.bytes hash hk)
  begun y hk n f c hf hc hy hv := by
    obtain ⟨f', hf'⟩ := h'.begun y hk n f c hf hc hy hv
    obtain ⟨f'', hf'', hs⟩ := h'.kept n f' hf'
    obtain rfl : f'' = f := Option.some.inj (hf''.symm.trans hf)
    exact h.begun y hk n f' c hf' (hs.documentCode.symm.trans hc) hy (hs.version.symm.trans hv)
  continued c hk n f hf hc hv := by
    obtain ⟨f', hf'⟩ := h'.continued c hk n f hf hc hv
    obtain ⟨f'', hf'', hs⟩ := h'.kept n f' hf'
    obtain rfl : f'' = f := Option.some.inj (hf''.symm.trans hf)
    exact h.continued c hk n f' hf' (hs.documentCode.symm.trans hc) (hs.version ▸ hv)
  shrinking k s hs := h.shrinking k s (h'.shrinking k s hs)
  removed hash hr := h.removed hash (h'.removed hash hr)
  taken k ht := h.taken k (h'.taken k ht)
  uploads k c hc := h.uploads k c (h'.uploads k c hc)
  cleaned k hk := h'.cleaned k (h.cleaned k hk)

/-- what a step of session `i` does -/
structure Act (i : ℕ) (isTask : Bool) (σ τ : State) : Prop where
  storage : ∃ touched, Steps i isTask touched σ.ext τ.ext
  live : ∀ h, Live τ h → τ.ext.has h = true ∨ Live σ h
  kept : Extends (σ.com files) (τ.com files)
  shrinking : ∀ k s, τ.com sessions k = some s → σ.com sessions k = some s
  claimed : ∀ k s, σ.com sessions k = some s → τ.com sessions k = some s ∨ (τ.com sessions k = none ∧
    ((∃ n f, τ.com files n = some f ∧ f.upload = some k) ∨ τ.ext.cleaned s.storageKey = true))

theorem act_of_com (hext : ∃ touched, Steps i isTask touched σ.ext τ.ext) (hcom : τ.com = σ.com) :
    Act i isTask σ τ where
  storage := hext
  live h hlive := .inr (by simpa only [Live, hcom] using hlive)
  kept := by
    rw [hcom]
    exact Extends.refl _
  shrinking k s hs := by rwa [hcom] at hs
  claimed k s hs := .inl (by rwa [hcom])

def discipline (settings : Settings) (task : ℕ → Bool) : Discipline Row Lock Fx Storage where
  inv := Inv
  rely := Rely settings
  act i := Act i (task i)
  ok _ _ _ _ := True
  rely_refl := Rely.refl settings
  rely_trans _ _ _ _ _ := Rely.trans
  act_refl _ σ _ := act_of_com ⟨none, Steps.refl _ _⟩ rfl
  grow_inv _ _ _ h := ⟨h.numbered, h.counted, h.hashed, h.once, h.used, h.keys, h.contents⟩
  grow_act _ σ _ _ _ := act_of_com ⟨none, Steps.refl _ _⟩ rfl
  grow_rely i o σ _ _ _ := by
    have h := Rely.refl settings i o σ
    exact ⟨h.kept, h.rows, h.bytes, h.begun, h.continued, h.shrinking, h.removed, h.taken, h.uploads, h.cleaned⟩

instance : Lockless (discipline settings task) := ⟨fun _ _ _ => trivial⟩

/-! ## What a step owes -/

/-- a statement on the storage, under the lock of what it touches -/
theorem good_steps {touched : Option String} (hinv : Inv σ) (h : Steps i (task i) touched σ.ext s')
    (hkey : ∀ hash, touched = some hash → o.key (hashLock settings hash)) :
    (discipline settings task).Good i o σ { σ with ext := s' } where
  inv := ⟨hinv.numbered, hinv.counted, h.hashed hinv.hashed, hinv.once, hinv.used, hinv.keys, hinv.contents⟩
  act := act_of_com ⟨touched, h⟩ rfl
  rely j hj o' ho := by
    have hother : some i ≠ some j := fun heq => hj (Option.some.inj heq).symm
    refine ⟨Extends.refl _, fun _ _ _ _ _ => Iff.rfl, fun hash hk => h.others hash fun htouched => ?_,
      fun _ _ _ f _ h _ _ _ => ⟨f, h⟩, fun _ _ _ f h _ _ => ⟨f, h⟩, fun _ _ h => h, fun hash hr => ?_, fun k ht => ?_, h.uploads,
      h.cleaned⟩
    · exact ho.key _ hk (hkey hash htouched)
    · rcases h.removed hash with hsame | ⟨hmine, -⟩
      · exact hsame ▸ hr
      · exact absurd (hmine.symm.trans hr) hother
    · rcases h.taken k with hsame | ⟨hmine, -⟩
      · exact hsame ▸ ht
      · exact absurd (hmine.symm.trans ht) hother

/-- a row that the session adds -/
structure Added (settings : Settings) (o : Held) (σ : State) (n : ℕ) (f : LibraryFile) : Prop where
  own : o.row files n = some (some f)
  unused : σ.com files n = none
  fits : ∃ c, Fits (σ.com files) n f c ∧
    ((f.version = 1 ∧ ∃ y, codePrefix y <+: c ∧ o.key (docLock settings (codePrefix y))) ∨
      (1 < f.version ∧ o.key (docLock settings c)))
  bytes : ∀ h, f.sha3Hash = some h → σ.ext.has h = true
  upload : ∀ k, f.upload = some k → o.row sessions k = some none ∧ ∃ s, σ.com sessions k = some s

/-- the rows that a session has written: they are of one hash, whose lock it holds, and one of them may be new -/
structure Written (settings : Settings) (o : Held) (σ : State) (hash : Option String) (new : Option (ℕ × LibraryFile)) :
    Prop where
  rows : ∀ m v, o.row files m = some v → ∃ f', v = some f' ∧ f'.sha3Hash = hash ∧
    ((∃ f, σ.com files m = some f ∧ Same f f' ∧ (isLive f'.status = true → isLive f.status = true)) ∨ new = some (m, f'))
  lock : ∀ h, hash = some h → o.key (hashLock settings h)
  added : ∀ n f, new = some (n, f) → Added settings o σ n f
  claims : ∀ k v, o.row sessions k = some v → v = σ.com sessions k ∨ (v = none ∧ ∃ s, σ.com sessions k = some s ∧
    ((∃ n f, new = some (n, f) ∧ f.upload = some k) ∨ σ.ext.cleaned s.storageKey = true))

namespace Written

variable {touched : Option String} {new : Option (ℕ × LibraryFile)} {m n : ℕ} {f f' : LibraryFile}

theorem kept (h : Written settings o σ touched new) : Extends (σ.com files) ((σ.merge o).com files) := by
  intro m f hf
  rcases hrow : o.row files m with _ | v
  · exact ⟨f, by rwa [Snap.merge_of_none hrow], Same.refl f⟩
  · obtain ⟨f', rfl, -, ⟨f₀, hf₀, hs, -⟩ | hnew⟩ := h.rows m v hrow
    · obtain rfl : f₀ = f := Option.some.inj (hf₀.symm.trans hf)
      exact ⟨f', Snap.merge_of_some hrow σ, hs⟩
    · rw [(h.added m f' hnew).unused] at hf
      cases hf

/-- a row that would be committed is committed already, as far as the columns that stay, or new -/
theorem cases (h : Written settings o σ touched new) (hf : (σ.merge o).com files m = some f') :
    (∃ f, σ.com files m = some f ∧ Same f f' ∧ (isLive f'.status = true → isLive f.status = true)) ∨ new = some (m, f') := by
  rcases Snap.merge_cases hf with hrow | ⟨-, hcom⟩
  · obtain ⟨f'', heq, -, hcase⟩ := h.rows m _ hrow
    obtain rfl : f' = f'' := Option.some.inj heq
    exact hcase
  · exact .inl ⟨f', hcom, Same.refl f', id⟩

/-- the rows of other hashes stay as they are -/
theorem other (h : Written settings o σ touched new) (hne : f.sha3Hash ≠ touched) :
    (σ.merge o).com files m = some f ↔ σ.com files m = some f := by
  rcases hrow : o.row files m with _ | v
  · rw [Snap.merge_of_none hrow]
  · obtain ⟨f', rfl, hhash, hcase⟩ := h.rows m v hrow
    rw [Snap.merge_of_some hrow]
    constructor
    · intro heq
      obtain rfl : f' = f := Option.some.inj heq
      exact absurd hhash hne
    · intro hf
      rcases hcase with ⟨f₀, hf₀, hs, -⟩ | hnew
      · obtain rfl : f₀ = f := Option.some.inj (hf₀.symm.trans hf)
        exact absurd (hs.sha3Hash.symm.trans hhash) hne
      · rw [(h.added m f' hnew).unused] at hf
        cases hf

theorem matching_other (h : Written settings o σ touched new) (hne : touched ≠ some hash) :
    (σ.merge o).matching files (LibraryFile.isLiveOf hash) = σ.matching files (LibraryFile.isLiveOf hash) := by
  have hiff : ∀ m f, f.isLiveOf hash = true → ((σ.merge o).com files m = some f ↔ σ.com files m = some f) := by
    intro m f hf
    simp only [LibraryFile.isLiveOf, Bool.and_eq_true, decide_eq_true_eq] at hf
    exact h.other (hf.1 ▸ hne.symm)
  refine Set.ext fun m => ?_
  simp only [Snap.matching, Set.mem_ofPred_eq, Option.any_eq_true]
  constructor
  · rintro ⟨f, hf, hlive⟩
    exact ⟨f, (hiff m f hlive).1 hf, hlive⟩
  · rintro ⟨f, hf, hlive⟩
    exact ⟨f, (hiff m f hlive).2 hf, hlive⟩

theorem counted_other (h : Written settings o σ touched new) (hne : touched ≠ some hash) (hc : Counted σ hash) :
    Counted (σ.merge o) hash := by
  intro n f hf hhash
  rw [h.matching_other hne]
  exact hc n f ((h.other (hhash ▸ hne.symm)).1 hf) hhash

theorem numbered (h : Written settings o σ touched new) (hn : Numbered (σ.com files)) :
    Numbered ((σ.merge o).com files) := by
  rcases new with _ | ⟨n, f⟩
  · refine hn.keep h.kept fun m f' hf' => ?_
    rcases h.cases hf' with ⟨f, hf, hs, -⟩ | hnew
    · exact ⟨f, hf, hs⟩
    · cases hnew
  · -- without the new row the table has only been updated
    have hadded := h.added n f rfl
    obtain ⟨c, hfits, -⟩ := hadded.fits
    let before : ℕ → Option LibraryFile := Function.update ((σ.merge o).com files) n none
    have hbefore : ∀ m, m ≠ n → before m = (σ.merge o).com files m := fun m hm => Function.update_of_ne hm _ _
    have hext : Extends (σ.com files) before := by
      intro m g hg
      have hm : m ≠ n := by
        rintro rfl
        rw [hadded.unused] at hg
        cases hg
      obtain ⟨g', hg', hs⟩ := h.kept m g hg
      exact ⟨g', (hbefore m hm).trans hg', hs⟩
    have hold : Old (σ.com files) before := by
      intro m g' hg'
      have hm : m ≠ n := by
        rintro rfl
        simp [before] at hg'
      rw [hbefore m hm] at hg'
      rcases h.cases hg' with ⟨g, hg, hs, -⟩ | hnew
      · exact ⟨g, hg, hs⟩
      · exact absurd (congrArg Prod.fst (Option.some.inj hnew)).symm hm
    have hwhole : (σ.merge o).com files = Function.update before n (some f) := by
      rw [Function.update_idem, ← Snap.merge_of_some hadded.own σ, Function.update_eq_self]
    rw [hwhole]
    exact (hn.keep hext hold).insert (Function.update_self ..) (hfits.keep hext hold)

end Written

/-- **Commit.** Rows of one hash under its lock, of which one may be new, and the references to the hash counted. -/
theorem commit_good {touched : Option String} {new : Option (ℕ × LibraryFile)} (hinv : Inv σ)
    (h : Written settings o σ touched new) (hcounted : ∀ hash, touched = some hash → Counted (σ.merge o) hash) :
    (discipline settings task).Good i o σ (σ.merge o) := by
  have hsessions : ∀ k s, (σ.merge o).com sessions k = some s → σ.com sessions k = some s := by
    intro k s hs
    rcases Snap.merge_cases hs with hrow | ⟨-, hcom⟩
    · rcases h.claims k _ hrow with hsame | ⟨hnone, -⟩
      · exact hsame.symm
      · cases hnone
    · exact hcom
  have hused : ∀ n f k, (σ.merge o).com files n = some f → f.upload = some k → new = some (n, f) ∨
      ∃ f₀, σ.com files n = some f₀ ∧ f₀.upload = some k := by
    intro n f k hf hk
    rcases h.cases hf with ⟨f₀, hf₀, hs, -⟩ | hnew
    · exact .inr ⟨f₀, hf₀, hs.upload.symm.trans hk⟩
    · exact .inl hnew
  -- the upload of the new row has a session still, so no row is registered for it
  have hfresh : ∀ n f m g k, new = some (n, f) → f.upload = some k → σ.com files m = some g → g.upload ≠ some k := by
    intro n f m g k hnew hk hg hgk
    obtain ⟨-, s, hs⟩ := (h.added n f hnew).upload k hk
    rw [hinv.used m g k hg hgk] at hs
    cases hs
  refine ⟨⟨h.numbered hinv.numbered, fun hash => ?_, hinv.hashed, fun n m f g k hf hg hk hk' => ?_, fun n f k hf hk => ?_,
    fun k k' s s' hs hs' => hinv.keys k k' s s' (hsessions k s hs) (hsessions k' s' hs'),
    fun k s c hs => hinv.contents k s c (hsessions k s hs)⟩, ⟨⟨none, Steps.refl _ _⟩, fun hash hlive => ?_, h.kept, hsessions,
    fun k s hs => ?_⟩, fun j hj o' ho => ⟨h.kept, fun hash hk n f hf => h.other ?_, fun _ _ => rfl, fun y hk n f c hf hc hy hv => ?_,
    fun c hk n f hf hc hv => ?_, hsessions, fun _ h => h, fun _ h => h, fun _ _ h => h, fun _ h => h⟩⟩
  · by_cases htouched : touched = some hash
    · exact hcounted hash htouched
    · exact h.counted_other htouched (hinv.counted hash)
  · rcases hused n f k hf hk with hnew | ⟨f₀, hf₀, hk₀⟩
    · rcases hused m g k hg hk' with hnew' | ⟨g₀, hg₀, hk₀'⟩
      · exact congrArg Prod.fst (Option.some.inj (hnew.symm.trans hnew'))
      · exact absurd hk₀' (hfresh n f m g₀ k hnew hk hg₀)
    · rcases hused m g k hg hk' with hnew' | ⟨g₀, hg₀, hk₀'⟩
      · exact absurd hk₀ (hfresh m g n f₀ k hnew' hk' hf₀)
      · exact hinv.once n m f₀ g₀ k hf₀ hg₀ hk₀ hk₀'
  · rcases hused n f k hf hk with hnew | ⟨f₀, hf₀, hk₀⟩
    · exact Snap.merge_of_some ((h.added n f hnew).upload k hk).1 σ
    · have hnone := hinv.used n f₀ k hf₀ hk₀
      by_contra hsome
      obtain ⟨s, hs⟩ := Option.ne_none_iff_exists'.1 hsome
      rw [hsessions k s hs] at hnone
      cases hnone
  · obtain ⟨n, f, hf, hlive⟩ := hlive
    have hparts := hlive
    simp only [LibraryFile.isLiveOf, Bool.and_eq_true, decide_eq_true_eq] at hparts
    rcases h.cases hf with ⟨f₀, hf₀, hs, hkeeps⟩ | hnew
    · right
      refine ⟨n, f₀, hf₀, ?_⟩
      simp only [LibraryFile.isLiveOf, Bool.and_eq_true, decide_eq_true_eq]
      exact ⟨hs.sha3Hash.symm.trans hparts.1, hkeeps hparts.2⟩
    · exact .inl ((h.added n f hnew).bytes hash hparts.1)
  · rcases hrow : o.row sessions k with _ | v
    · left
      rwa [Snap.merge_of_none hrow]
    · rcases h.claims k v hrow with rfl | ⟨rfl, s', hs', hreason⟩
      · left
        rwa [Snap.merge_of_some hrow]
      · right
        obtain rfl : s' = s := Option.some.inj (hs'.symm.trans hs)
        refine ⟨Snap.merge_of_some hrow σ, ?_⟩
        rcases hreason with ⟨n, f, hnew, hk⟩ | hcleaned
        · exact .inl ⟨n, f, Snap.merge_of_some (h.added n f hnew).own σ, hk⟩
        · exact .inr hcleaned
  · intro htouched
    exact ho.key _ hk (h.lock hash (htouched.symm.trans hf))
  · rcases h.cases hf with ⟨f₀, hf₀, -, -⟩ | hnew
    · exact ⟨f₀, hf₀⟩
    · obtain ⟨c', hfits, ⟨-, y', hy', hk'⟩ | ⟨hlt, -⟩⟩ := (h.added n f hnew).fits
      · obtain rfl : c = c' := Option.some.inj (hc.symm.trans hfits.code)
        obtain ⟨rest, rfl⟩ := hy'
        rw [codePrefix_unique hy] at hk
        exact absurd hk' (ho.key _ hk)
      · omega
  · rcases h.cases hf with ⟨f₀, hf₀, -, -⟩ | hnew
    · exact ⟨f₀, hf₀⟩
    · obtain ⟨c', hfits, ⟨hone, -⟩ | ⟨-, hk'⟩⟩ := (h.added n f hnew).fits
      · omega
      · obtain rfl : c = c' := Option.some.inj (hc.symm.trans hfits.code)
        exact absurd hk' (ho.key _ hk)

end LkmService.Files
