/-
The notifications of the bucket about objects that were created (`files/notify.py`), and the keys of all objects that the
service writes.

The storage service puts the URL-encoded key of the object into its event; whether it encodes the slash too is a parameter.

- `Creates`: a record of an event that says that an object was created.
- `Names`: of every batch of events, exactly the uploads are taken out, each with the id of its session.
- `names_iff`: this is so if and only if the prefix of the storage and the slash stay as they are when they are encoded, and the
  prefix does not begin with a slash.
-/
import LkmService.Lib.Json
import LkmService.Lib.Text
import LkmService.Lib.Url
import Mathlib.Data.List.Infix

namespace LkmService.Files.Notify

open Json Url OrderedDict

variable {F : Type} {pre : Text} {keepSlash : Bool}

/-! ## Keys -/

/-- the objects that the service writes; a hash is 64 digits -/
inductive Stored where
  | upload (id : Uuid)
  | file (hash : ℕ)
  | variant (hash : ℕ) (medium : Bool)
  | preview (hash : ℕ)
  | botMedia (hash : ℕ)
  | questionImage (question image : Uuid)

def hexdigest (hash : ℕ) : Text := Uuid.hexDigits 64 hash

/-- `_build_bucket_key` -/
def buildBucketKey (hash : ℕ) : Text := (hexdigest hash).take 2 ++ '/' :: hexdigest hash

/-- `up/<uuid>` of `upload_init` -/
def uploadKey (id : Uuid) : Text := 'u' :: 'p' :: '/' :: Uuid.hexDigits 32 id

/-- the key without the prefix of the storage -/
def Stored.key : Stored → Text
  | .upload id => uploadKey id
  | .file hash => buildBucketKey hash
  | .variant hash medium => buildBucketKey hash ++ (if medium then ".medium.webp".toList else ".thumb.webp".toList)
  | .preview hash => buildBucketKey hash ++ ".preview.pdf".toList
  | .botMedia hash => "bot-media/".toList ++ buildBucketKey hash
  | .questionImage question image => "qa/".toList ++ (Uuid.str question ++ '/' :: (Uuid.str image ++ ".webp".toList))

/-- `key.lstrip("/")` -/
def stripSlashes (key : Text) : Text := key.dropWhile fun c => c = '/'

/-- `S3Storage._key` -/
def s3Key (pre key : Text) : Text := if pre = [] then key else pre ++ '/' :: stripSlashes key

/-! ## Events -/

def upPrefix : Text := ['u', 'p', '/']

/-- `_normalize_upload_key` -/
def normalizeUploadKey (pre key : Text) : Option Text :=
  let bare := stripSlashes key
  let key := if pre ≠ [] ∧ (pre ++ ['/']).isPrefixOf bare then bare.drop (pre.length + 1) else key
  if upPrefix.isPrefixOf key then some key else none

def isStr (s : Text) : Value F → Bool
  | .str t => decide (s = t)
  | _ => false

/-- `s in value`; `none` is the `TypeError` -/
def isIn (s : Text) : Value F → Option Bool
  | .str t => some (decide (s <:+: t))
  | .arr items => some (items.any (isStr s))
  | .obj members => some ((get? members s).isSome)
  | _ => none

/-- the key of the object, when the record has one -/
def objectKey (members : List (Text × Value F)) : Option Text :=
  match get? members "s3".toList with
  | some (.obj s3) =>
    match get? s3 "object".toList with
    | some (.obj object) =>
      match get? object "key".toList with
      | some (.str key) => some key
      | _ => none
    | _ => none
  | _ => none

/-- one turn of the loop of `_extract_uploads`: what it appends -/
def extractUpload (pre : Text) : Value F → Option (List Text)
  | .obj members => do
    let created ← isIn "ObjectCreated".toList ((get? members "eventName".toList).getD (.str []))
    if created then pure ((objectKey members).bind (normalizeUploadKey pre)).toList else pure []
  | _ => pure []

/-- what the loop goes over; the characters of a text and the keys of a dictionary are no records -/
def recordsOf : Value F → Option (List (Value F))
  | .obj members =>
    match get? members "Records".toList with
    | none => some []
    | some (.arr items) => some items
    | some (.str _) => some []
    | some (.obj _) => some []
    | some _ => none
  | _ => some []

/-- `_extract_uploads`; `none` is a `TypeError` -/
def extractUploads (pre : Text) (payload : Value F) : Option (List Text) := do
  let records ← recordsOf payload
  let appended ← records.mapM (extractUpload pre)
  pure appended.flatten

/-- the ids for which `notify_object` enqueues `notify_upload` -/
def notifiedIds (pre : Text) (payload : Value F) : Option (List Text) :=
  (extractUploads pre payload).map fun uploads => uploads.map fun key => key.drop upPrefix.length

/-! ## What is to be notified -/

/-- the record of the creation of the object with this key -/
structure Creates (key : Text) (record : Value F) : Prop where
  event : ∃ members name, record = .obj members ∧ get? members "eventName".toList = some (.str name) ∧
    "ObjectCreated".toList <:+: name ∧ objectKey members = some key

/-- the id of the session that an upload claims -/
def Stored.uploadId : Stored → Option Text
  | .upload id => some (Uuid.hexDigits 32 id)
  | _ => none

/-- exactly the uploads among the objects are taken out, and each is notified with the id of its session -/
structure Names (F : Type) (keepSlash : Bool) (pre : Text) : Prop where
  names : ∀ (events : List (Stored × Value F)) (members : List (Text × Value F)),
    (∀ event ∈ events, Creates (encode keepSlash (s3Key pre event.1.key)) event.2) →
    get? members "Records".toList = some (.arr (events.map Prod.snd)) →
    extractUploads pre (.obj members) = some (events.filterMap fun event => event.1.uploadId.map (upPrefix ++ ·)) ∧
      notifiedIds pre (.obj members) = some (events.filterMap fun event => event.1.uploadId)

/-! ## Keys stay as they are -/

theorem plain_hexDigit : ∀ n < 16, plain true (Uuid.hexDigit n) = true := by decide

theorem plain_hexDigits (k n : ℕ) : ∀ c ∈ Uuid.hexDigits k n, plain true c = true := by
  induction k with
  | zero =>
    intro c hc
    cases hc
  | succ k ih =>
    intro c hc
    rcases List.mem_cons.1 hc with rfl | hc
    · exact plain_hexDigit _ (Nat.mod_lt _ (by decide))
    · exact ih c hc

theorem plain_append {s t : Text} (hs : ∀ c ∈ s, plain true c = true) (ht : ∀ c ∈ t, plain true c = true) :
    ∀ c ∈ s ++ t, plain true c = true := by
  intro c hc
  rcases List.mem_append.1 hc with hc | hc
  · exact hs c hc
  · exact ht c hc

theorem plain_cons {d : Char} {t : Text} (hd : plain true d = true) (ht : ∀ c ∈ t, plain true c = true) :
    ∀ c ∈ d :: t, plain true c = true := by
  intro c hc
  rcases List.mem_cons.1 hc with rfl | hc
  · exact hd
  · exact ht c hc

/-- of a text that is written out -/
theorem plain_of_all {t : Text} (h : t.all (plain true) = true) : ∀ c ∈ t, plain true c = true := List.all_eq_true.1 h

theorem plain_buildBucketKey (hash : ℕ) : ∀ c ∈ buildBucketKey hash, plain true c = true :=
  plain_append (fun c hc => plain_hexDigits 64 hash c (List.mem_of_mem_take hc)) (plain_cons (by decide) (plain_hexDigits 64 hash))

theorem plain_str (u : Uuid) : ∀ c ∈ Uuid.str u, plain true c = true := by
  have hpart : ∀ t : Text, t ⊆ Uuid.hexDigits 32 u → ∀ c ∈ t, plain true c = true :=
    fun t ht c hc => plain_hexDigits 32 u c (ht hc)
  refine plain_append (hpart _ (List.take_subset _ _)) (plain_cons (by decide) ?_)
  refine plain_append (hpart _ (List.Subset.trans (List.take_subset _ _) (List.drop_subset _ _))) (plain_cons (by decide) ?_)
  refine plain_append (hpart _ (List.Subset.trans (List.take_subset _ _) (List.drop_subset _ _))) (plain_cons (by decide) ?_)
  refine plain_append (hpart _ (List.Subset.trans (List.take_subset _ _) (List.drop_subset _ _))) (plain_cons (by decide) ?_)
  exact hpart _ (List.drop_subset _ _)

/-- no key has a character that is encoded -/
theorem Stored.plain_key (object : Stored) : ∀ c ∈ object.key, plain true c = true := by
  cases object with
  | upload id => exact plain_cons (by decide) (plain_cons (by decide) (plain_cons (by decide) (plain_hexDigits 32 id)))
  | file hash => exact plain_buildBucketKey hash
  | variant hash medium =>
    refine plain_append (plain_buildBucketKey hash) ?_
    cases medium
    · exact plain_of_all (by decide)
    · exact plain_of_all (by decide)
  | preview hash => exact plain_append (plain_buildBucketKey hash) (plain_of_all (by decide))
  | botMedia hash => exact plain_append (plain_of_all (by decide)) (plain_buildBucketKey hash)
  | questionImage question image =>
    have himage := plain_append (plain_str image) (plain_of_all (t := ".webp".toList) (by decide))
    exact plain_append (plain_of_all (by decide)) (plain_append (plain_str question) (plain_cons (by decide) himage))

theorem hexDigits_succ (k n : ℕ) : Uuid.hexDigits (k + 1) n = Uuid.hexDigit (n / 16 ^ k % 16) :: Uuid.hexDigits k n := rfl

theorem hexDigit_ne : ∀ n < 16, Uuid.hexDigit n ≠ '/' ∧ Uuid.hexDigit n ≠ 'u' := by decide

/-- a hash begins with a digit, which is neither a slash nor a letter of the prefix of uploads -/
theorem buildBucketKey_eq (hash : ℕ) : ∃ d rest, buildBucketKey hash = d :: rest ∧ d ≠ '/' ∧ d ≠ 'u' := by
  have hdigits : hexdigest hash = Uuid.hexDigit (hash / 16 ^ 63 % 16) :: Uuid.hexDigits 63 hash := hexDigits_succ 63 hash
  obtain ⟨hslash, hu⟩ := hexDigit_ne (hash / 16 ^ 63 % 16) (Nat.mod_lt _ (by decide))
  refine ⟨Uuid.hexDigit (hash / 16 ^ 63 % 16), (Uuid.hexDigits 63 hash).take 1 ++ '/' :: hexdigest hash, ?_, hslash, hu⟩
  rw [buildBucketKey, hdigits, List.take_succ_cons, List.cons_append]

/-- no key begins with a slash, and only that of an upload with a `u` -/
theorem Stored.key_eq (object : Stored) :
    ∃ d rest, object.key = d :: rest ∧ d ≠ '/' ∧ (d = 'u' → ∃ id, object = .upload id) := by
  cases object with
  | upload id =>
    have hkey : (Stored.upload id).key = 'u' :: 'p' :: '/' :: Uuid.hexDigits 32 id := rfl
    exact ⟨_, _, hkey, by decide, fun _ => ⟨id, rfl⟩⟩
  | file hash =>
    obtain ⟨d, rest, heq, hslash, hu⟩ := buildBucketKey_eq hash
    exact ⟨d, rest, heq, hslash, fun h => absurd h hu⟩
  | variant hash medium =>
    obtain ⟨d, rest, heq, hslash, hu⟩ := buildBucketKey_eq hash
    have hkey : (Stored.variant hash medium).key =
        buildBucketKey hash ++ (if medium then ".medium.webp".toList else ".thumb.webp".toList) := rfl
    exact ⟨d, _, by rw [hkey, heq, List.cons_append], hslash, fun h => absurd h hu⟩
  | preview hash =>
    obtain ⟨d, rest, heq, hslash, hu⟩ := buildBucketKey_eq hash
    have hkey : (Stored.preview hash).key = buildBucketKey hash ++ ".preview.pdf".toList := rfl
    exact ⟨d, _, by rw [hkey, heq, List.cons_append], hslash, fun h => absurd h hu⟩
  | botMedia hash => exact ⟨'b', "ot-media/".toList ++ buildBucketKey hash, rfl, by decide, fun h => absurd h (by decide)⟩
  | questionImage question image =>
    exact ⟨'q', "a/".toList ++ (Uuid.str question ++ '/' :: (Uuid.str image ++ ".webp".toList)), rfl, by decide,
      fun h => absurd h (by decide)⟩

theorem Stored.stripSlashes_key (object : Stored) : stripSlashes object.key = object.key := by
  obtain ⟨d, rest, heq, hslash, -⟩ := object.key_eq
  rw [heq, stripSlashes, List.dropWhile_cons_of_neg (by simpa using hslash)]

/-- what is left of a key is recognised as an upload exactly if it is one -/
theorem Stored.recognised (object : Stored) :
    (if upPrefix.isPrefixOf object.key then some object.key else none) = object.uploadId.map (upPrefix ++ ·) := by
  by_cases hup : upPrefix.isPrefixOf object.key = true
  · obtain ⟨d, rest, heq, -, hupload⟩ := object.key_eq
    have hd : 'u' = d := by
      have hprefix := List.isPrefixOf_iff_prefix.1 hup
      rw [heq] at hprefix
      exact (List.cons_prefix_cons.1 hprefix).1
    obtain ⟨id, rfl⟩ := hupload hd.symm
    rw [if_pos hup]
    rfl
  · rw [if_neg hup]
    cases object with
    | upload id => exact absurd (List.isPrefixOf_iff_prefix.2 ⟨_, rfl⟩) hup
    | file hash => rfl
    | variant hash medium => rfl
    | preview hash => rfl
    | botMedia hash => rfl
    | questionImage question image => rfl

/-! ## Prefixes that are recognised -/

/-- the prefix stays as it is when it is encoded, and is not stripped -/
structure Recognised (keepSlash : Bool) (pre : Text) : Prop where
  slash : keepSlash = true
  plain : ∀ c ∈ pre, plain true c = true
  head : pre.head? ≠ some '/'

theorem Stored.plain_s3Key (h : Recognised keepSlash pre) (object : Stored) :
    ∀ c ∈ s3Key pre object.key, Url.plain true c = true := by
  unfold s3Key
  split_ifs
  · exact object.plain_key
  · rw [object.stripSlashes_key]
    exact plain_append h.plain (plain_cons (by decide) object.plain_key)

theorem normalize_s3Key (h : Recognised keepSlash pre) (object : Stored) :
    normalizeUploadKey pre (encode keepSlash (s3Key pre object.key)) = object.uploadId.map (upPrefix ++ ·) := by
  rw [h.slash, encode_eq_self (object.plain_s3Key h), ← object.recognised, normalizeUploadKey]
  rcases hpre : pre with _ | ⟨c, rest⟩
  · simp [s3Key]
  · have hc : c ≠ '/' := fun heq => h.head (by simp [hpre, heq])
    have hbare : stripSlashes (s3Key (c :: rest) object.key) = c :: rest ++ '/' :: object.key := by
      rw [s3Key, if_neg (by simp), object.stripSlashes_key, stripSlashes, List.cons_append,
        List.dropWhile_cons_of_neg (by simpa using hc)]
    have hprefix : (c :: rest ++ ['/']).isPrefixOf (c :: rest ++ '/' :: object.key) = true :=
      List.isPrefixOf_iff_prefix.2 ⟨object.key, by simp⟩
    have hdrop : (c :: rest ++ '/' :: object.key).drop ((c :: rest).length + 1) = object.key := by simp
    simp only [hbare, hprefix, hdrop, ne_eq, reduceCtorEq, not_false_eq_true, and_self, ↓reduceIte]

/-- what is recognised stood behind the prefix, or is the whole key -/
theorem normalize_eq_some {key found : Text} (h : normalizeUploadKey pre key = some found) :
    pre ≠ [] ∧ pre ++ ['/'] <+: stripSlashes key ∨ found = key ∧ upPrefix <+: key := by
  simp only [normalizeUploadKey] at h
  split_ifs at h with hpre hup hup
  · exact Or.inl ⟨hpre.1, List.isPrefixOf_iff_prefix.1 hpre.2⟩
  · exact Or.inr ⟨(Option.some.inj h).symm, List.isPrefixOf_iff_prefix.1 hup⟩

/-- an upload whose key is recognised gives all that is asked of the prefix -/
theorem recognised_of_normalize {id : Uuid}
    (h : normalizeUploadKey pre (encode keepSlash (s3Key pre (uploadKey id))) = some (uploadKey id)) :
    Recognised keepSlash pre := by
  have hstrip : stripSlashes (uploadKey id) = uploadKey id := Stored.stripSlashes_key (.upload id)
  have hslash : keepSlash = true := by
    by_contra hencoded
    -- then there is no slash in the event at all
    have hnone : '/' ∉ encode keepSlash (s3Key pre (uploadKey id)) :=
      slash_not_mem_encode fun _ => Bool.not_eq_true _ ▸ hencoded
    rcases normalize_eq_some h with ⟨-, hpre⟩ | ⟨-, hup⟩
    · exact hnone ((List.dropWhile_sublist _).subset (hpre.subset (by simp)))
    · exact hnone (hup.subset (by simp [upPrefix]))
  subst hslash
  rcases pre with _ | ⟨c, rest⟩
  · exact ⟨rfl, fun c hc => (List.not_mem_nil hc).elim, by simp⟩
  · have hkey : encode true (s3Key (c :: rest) (uploadKey id)) = encode true (c :: rest) ++ encode true ('/' :: uploadKey id) := by
      rw [s3Key, if_neg (by simp), hstrip, encode_append]
    rcases normalize_eq_some h with ⟨-, hpre⟩ | ⟨hwhole, -⟩
    · have hc : c ≠ '/' := by
        -- what is left after stripping begins with no slash
        rintro rfl
        obtain ⟨t, ht⟩ := hpre
        have hhead : ∀ d, (stripSlashes (encode true (s3Key ('/' :: rest) (uploadKey id)))).head? = some d → d ≠ '/' := by
          intro d hd
          simpa using Text.head?_dropWhile hd
        exact hhead '/' (by rw [← ht]; rfl) rfl
      have hbare : stripSlashes (encode true (s3Key (c :: rest) (uploadKey id))) =
          encode true (s3Key (c :: rest) (uploadKey id)) := by
        have hne : escape true c ≠ [] := escape_ne_nil c
        obtain ⟨d, w, hescape⟩ := List.exists_cons_of_ne_nil hne
        have hd : d ≠ '/' := by
          have hnone : '/' ∉ escape true c := slash_not_mem_escape fun heq => absurd heq hc
          rintro rfl
          exact hnone (hescape ▸ List.mem_cons_self)
        rw [hkey, encode, List.flatMap_cons, hescape, List.cons_append, List.cons_append, stripSlashes,
          List.dropWhile_cons_of_neg (by simpa using hd)]
      rw [hbare, hkey] at hpre
      exact ⟨rfl, plain_of_prefix hpre, by simpa using hc⟩
    · -- the whole key is too long
      have hplain : encode true ('/' :: uploadKey id) = '/' :: uploadKey id :=
        encode_eq_self (plain_cons (by decide) (Stored.plain_key (.upload id)))
      rw [hkey, hplain] at hwhole
      have hlength := congrArg List.length hwhole
      simp only [List.length_append, List.length_cons] at hlength
      omega

/-! ## What is notified -/

section Extract

variable {record : Value F} {object : Stored} {events : List (Stored × Value F)} {members : List (Text × Value F)}

theorem extractUpload_creates {key : Text} (h : Creates key record) :
    extractUpload pre record = some (normalizeUploadKey pre key).toList := by
  obtain ⟨members, name, rfl, hname, hcreated, hkey⟩ := h.event
  have hin : isIn "ObjectCreated".toList (.str name : Value F) = some true := congrArg some (decide_eq_true hcreated)
  simp only [extractUpload, hname, Option.getD_some, hin, hkey, Option.bind_some]
  rfl

theorem extractUploads_creates (h : Recognised keepSlash pre)
    (hevents : ∀ event ∈ events, Creates (encode keepSlash (s3Key pre event.1.key)) event.2)
    (hrecords : get? members "Records".toList = some (.arr (events.map Prod.snd))) :
    extractUploads pre (.obj members) = some (events.filterMap fun event => event.1.uploadId.map (upPrefix ++ ·)) := by
  have hloop : ∀ l : List (Stored × Value F),
      (∀ event ∈ l, Creates (encode keepSlash (s3Key pre event.1.key)) event.2) →
      (l.map Prod.snd).mapM (extractUpload pre) =
        some (l.map fun event => (event.1.uploadId.map (upPrefix ++ ·)).toList) := by
    intro l hl
    induction l with
    | nil => rfl
    | cons event l ih =>
      have hhead : extractUpload pre event.2 = some (event.1.uploadId.map (upPrefix ++ ·)).toList := by
        rw [extractUpload_creates (hl event List.mem_cons_self), normalize_s3Key h]
      rw [List.map_cons, List.mapM_cons, hhead, ih fun e he => hl e (List.mem_cons_of_mem _ he)]
      rfl
  have hflatten : (events.map fun event => (event.1.uploadId.map (upPrefix ++ ·)).toList).flatten =
      events.filterMap fun event => event.1.uploadId.map (upPrefix ++ ·) := by
    rw [← List.flatMap_def, List.filterMap_eq_flatMap_toList]
  simp only [extractUploads, recordsOf, hrecords, Option.bind_eq_bind, Option.bind_some, hloop events hevents, hflatten]
  rfl

theorem names_of_recognised (h : Recognised keepSlash pre) : Names F keepSlash pre := by
  refine ⟨fun events members hevents hrecords => ?_⟩
  have hextract := extractUploads_creates h hevents hrecords
  refine ⟨hextract, ?_⟩
  rw [notifiedIds, hextract, Option.map_some, List.map_filterMap]
  congr 2
  funext event
  rcases event.1.uploadId with _ | id
  · rfl
  · simp

/-- the smallest event of a creation -/
def createdRecord (key : Text) : Value F :=
  .obj [("eventName".toList, .str "s3:ObjectCreated:Put".toList),
    ("s3".toList, .obj [("object".toList, .obj [("key".toList, .str key)])])]

theorem creates_createdRecord (key : Text) : Creates key (createdRecord key : Value F) := by
  refine ⟨⟨_, "s3:ObjectCreated:Put".toList, rfl, get?_cons_self, ⟨"s3:".toList, ":Put".toList, by simp⟩, ?_⟩⟩
  rw [objectKey, get?_cons_of_ne (by decide), get?_cons_self]
  simp only [get?_cons_self]

theorem extractUploads_single {key : Text} (h : Creates key record) :
    extractUploads pre (.obj [("Records".toList, .arr [record])]) = some (normalizeUploadKey pre key).toList := by
  have hrecords : recordsOf (.obj [("Records".toList, .arr [record])]) = some [record] := by simp [recordsOf, get?]
  simp only [extractUploads, hrecords, Option.bind_eq_bind, Option.bind_some, List.mapM_cons, List.mapM_nil,
    extractUpload_creates h, Option.pure_def, List.flatten_cons, List.flatten_nil, List.append_nil]

/-- the event of a single upload is enough -/
theorem recognised_of_names (id : Uuid) (h : Names F keepSlash pre) : Recognised keepSlash pre := by
  obtain ⟨record, hrecord⟩ : ∃ record : Value F, Creates (encode keepSlash (s3Key pre (uploadKey id))) record :=
    ⟨_, creates_createdRecord _⟩
  have hevents : ∀ event ∈ [(Stored.upload id, record)], Creates (encode keepSlash (s3Key pre event.1.key)) event.2 := by
    intro event hevent
    rw [List.mem_singleton.1 hevent]
    exact hrecord
  obtain ⟨hextract, -⟩ := h.names [(.upload id, record)] [("Records".toList, .arr [record])] hevents (by simp [get?])
  have hfound : (normalizeUploadKey pre (encode keepSlash (s3Key pre (uploadKey id)))).toList = [uploadKey id] :=
    Option.some.inj ((extractUploads_single hrecord).symm.trans hextract)
  have hkey : normalizeUploadKey pre (encode keepSlash (s3Key pre (uploadKey id))) = some (uploadKey id) := by
    rcases hnormal : normalizeUploadKey pre (encode keepSlash (s3Key pre (uploadKey id))) with _ | key
    · rw [hnormal] at hfound
      cases hfound
    · rw [hnormal] at hfound
      rw [List.singleton_inj.1 hfound]
  exact recognised_of_normalize hkey

end Extract

end LkmService.Files.Notify
