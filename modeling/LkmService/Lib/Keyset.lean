/-
Keyset pagination: pages of a descending list, cut at a key.

- `desc`, `after`, `page`: the rows after a cursor in descending order of their keys, and the first `n` of them.
- `merge_page`: the first `n` of several sources are among the first `n` of each.
- `Initial T l`: `l` is a descending initial part of the rows `T`. `absorb` adds rows of a page to it and skips those
  that are there.
- `PageOk`: what one answer of a paginated read owes. `listAll_shows`: reads that follow the cursor to its end list
  every row once and in descending order, if each answer is `PageOk`.
-/
import Mathlib.Data.List.Sort
import Mathlib.Data.List.Flatten

namespace LkmService.Keyset

variable {α κ : Type} [LinearOrder κ] (key : α → κ)

/-! ## Pages -/

/-- the row comes after the cursor, in descending order -/
def Before (c : Option κ) (a : α) : Prop := ∀ k ∈ c, key a < k

instance (c : Option κ) (a : α) : Decidable (Before key c a) := inferInstanceAs (Decidable (∀ k ∈ c, key a < k))

def desc (l : List α) : List α := l.insertionSort fun a b => key b ≤ key a

def after (c : Option κ) (l : List α) : List α := l.filter fun a => Before key c a

def page (c : Option κ) (n : ℕ) (l : List α) : List α := (desc key (after key c l)).take n

variable {key} {l l' : List α} {c : Option κ} {n : ℕ} {a b x : α}

instance total_desc : Std.Total fun a b : α => key b ≤ key a := ⟨fun a b => le_total (key b) (key a)⟩

instance trans_desc : IsTrans α fun a b => key b ≤ key a := ⟨fun _ _ _ h h' => h'.trans h⟩

theorem pairwise_desc (l : List α) : (desc key l).Pairwise fun a b => key b ≤ key a := List.pairwise_insertionSort _ l

theorem mem_desc : a ∈ desc key l ↔ a ∈ l := List.mem_insertionSort _

theorem length_desc (l : List α) : (desc key l).length = l.length := List.length_insertionSort _ l

theorem mem_after : a ∈ after key c l ↔ a ∈ l ∧ Before key c a := by
  simp [after]

/-- rows that differ have different keys -/
def Distinct (key : α → κ) (l : List α) : Prop := ∀ a ∈ l, ∀ b ∈ l, key a = key b → a = b

theorem Distinct.desc_eq (h : Distinct key l) (hp : l.Perm l') : desc key l = desc key l' := by
  have hanti : ∀ a b, a ∈ desc key l → b ∈ desc key l' → key b ≤ key a → key a ≤ key b → a = b :=
    fun a b ha hb hab hba => h a (mem_desc.1 ha) b (hp.symm.subset (mem_desc.1 hb)) (le_antisymm hba hab)
  have hperm : (desc key l).Perm (desc key l') :=
    (List.perm_insertionSort _ l).trans (hp.trans (List.perm_insertionSort _ l').symm)
  exact List.Perm.eq_of_pairwise hanti (pairwise_desc l) (pairwise_desc l') hperm

/-! ## Merging sources -/

/-- a row with `n` rows at or above it does not change the first `n` -/
theorem take_orderedInsert {s : List α} (hs : s.Pairwise fun a b => key b ≤ key a)
    (hx : ∀ b ∈ s, key x = key b → x = b) (hn : n ≤ s.countP fun b => key x ≤ key b) :
    (s.orderedInsert (fun a b => key b ≤ key a) x).take n = s.take n := by
  induction s generalizing n with
  | nil =>
    have : n = 0 := by simpa using hn
    subst this
    rfl
  | cons b s ih =>
    have htail := (List.pairwise_cons.1 hs).2
    have hbelow := (List.pairwise_cons.1 hs).1
    rcases n with _ | n
    · rfl
    · by_cases hle : key b ≤ key x
      · -- the new row goes in front: then it equals the rows that it displaces
        have hb : key x ≤ key b := by
          by_contra hlt
          have hzero : (b :: s).countP (fun b => key x ≤ key b) = 0 := by
            rw [List.countP_eq_zero]
            intro d hd
            have hdb : key d ≤ key b := by
              rcases List.mem_cons.1 hd with rfl | hd
              · exact le_rfl
              · exact hbelow d hd
            simpa using lt_of_le_of_lt hdb (not_le.1 hlt)
          omega
        have hxb : x = b := hx b List.mem_cons_self (le_antisymm hb hle)
        rw [List.orderedInsert_cons_of_le (fun a b => key b ≤ key a) _ hle, hxb]
        rw [hxb, List.countP_cons_of_pos (by simp)] at hn
        have hrec := ih (n := n) htail (fun d hd => hx d (List.mem_cons_of_mem _ hd)) (by rw [hxb]; omega)
        have hfront : s.orderedInsert (fun a b => key b ≤ key a) x = x :: s := by
          rcases s with _ | ⟨d, s⟩
          · rfl
          · exact List.orderedInsert_cons_of_le (fun a b => key b ≤ key a) _ ((hbelow d List.mem_cons_self).trans hle)
        rw [hfront, hxb] at hrec
        simpa using hrec
      · rw [List.orderedInsert_of_not_le (fun a b => key b ≤ key a) _ hle, List.take_succ_cons, List.take_succ_cons]
        rw [List.countP_cons_of_pos (by simpa using (not_le.1 hle).le)] at hn
        rw [ih htail (fun d hd => hx d (List.mem_cons_of_mem _ hd)) (by omega)]

/-- rows below the first `n` are not among them -/
theorem take_desc_append {dropped cands : List α} (hd : Distinct key (dropped ++ cands))
    (hn : ∀ x ∈ dropped, n ≤ cands.countP fun b => key x ≤ key b) :
    (desc key (dropped ++ cands)).take n = (desc key cands).take n := by
  induction dropped with
  | nil => rfl
  | cons x dropped ih =>
    have hcount : n ≤ (desc key (dropped ++ cands)).countP fun b => key x ≤ key b := by
      have hperm : (desc key (dropped ++ cands)).Perm (dropped ++ cands) := List.perm_insertionSort _ _
      rw [hperm.countP_eq, List.countP_append]
      have := hn x List.mem_cons_self
      omega
    have hstep : desc key (x :: dropped ++ cands) =
        (desc key (dropped ++ cands)).orderedInsert (fun a b => key b ≤ key a) x := rfl
    rw [hstep, take_orderedInsert (pairwise_desc _) (fun b hb => ?_) hcount]
    · exact ih (fun a ha b hb => hd a (List.mem_cons_of_mem _ ha) b (List.mem_cons_of_mem _ hb))
        fun y hy => hn y (List.mem_cons_of_mem _ hy)
    · exact hd x (by simp) b (List.mem_cons_of_mem _ (mem_desc.1 hb))

theorem length_page (l : List α) : (page key c n l).length = min n (after key c l).length := by
  rw [page, List.length_take, length_desc]

theorem flatMap_append_perm {ι : Type} (f g h : ι → List α) (hfg : ∀ i, (h i).Perm (f i ++ g i)) (is : List ι) :
    (is.flatMap h).Perm (is.flatMap f ++ is.flatMap g) := by
  induction is with
  | nil => exact .refl _
  | cons i is ih =>
    simp only [List.flatMap_cons]
    refine ((hfg i).append ih).trans ?_
    rw [List.append_assoc, List.append_assoc]
    refine List.Perm.append_left _ ?_
    rw [← List.append_assoc, ← List.append_assoc]
    exact List.Perm.append_right _ List.perm_append_comm

theorem after_flatten (ls : List (List α)) : after key c ls.flatten = ls.flatMap (after key c) := by
  simp only [after, List.filter_flatten, List.flatMap]
  rfl

/-- **Merging.** The first `n` rows of several sources are the first `n` of their first `n`. -/
theorem merge_page {ls : List (List α)} (hd : Distinct key ls.flatten) (c : Option κ) (n : ℕ) :
    (desc key (ls.flatMap (page key c n))).take n = page key c n ls.flatten := by
  let rest := fun l : List α => (desc key (after key c l)).drop n
  have hperm : (after key c ls.flatten).Perm (ls.flatMap rest ++ ls.flatMap (page key c n)) := by
    rw [after_flatten]
    refine flatMap_append_perm _ _ _ (fun l => ?_) ls
    refine (List.perm_insertionSort (fun a b => key b ≤ key a) (after key c l)).symm.trans ?_
    rw [show page key c n l = (desc key (after key c l)).take n from rfl]
    refine List.Perm.trans ?_ List.perm_append_comm
    rw [List.take_append_drop]
    exact .refl _
  have hdafter : Distinct key (after key c ls.flatten) :=
    fun a ha b hb => hd a (mem_after.1 ha).1 b (mem_after.1 hb).1
  have hdboth : Distinct key (ls.flatMap rest ++ ls.flatMap (page key c n)) :=
    fun a ha b hb => hdafter a (hperm.symm.subset ha) b (hperm.symm.subset hb)
  rw [page, hdafter.desc_eq hperm]
  refine (take_desc_append hdboth fun x hx => ?_).symm
  obtain ⟨l, hl, hxl⟩ := List.mem_flatMap.1 hx
  -- a row that its source leaves out has `n` rows of the source above it
  have hlong : (page key c n l).length = n := by
    have hdesc : (desc key (after key c l)).length = (after key c l).length := length_desc _
    rw [length_page, ← hdesc]
    have : (rest l).length ≠ 0 := by
      intro h0
      rw [List.length_eq_zero_iff.1 h0] at hxl
      simp at hxl
    simp only [rest, List.length_drop] at this
    omega
  have habove : ∀ b ∈ page key c n l, key x ≤ key b := by
    have hsplit : (desc key (after key c l)).Pairwise fun a b => key b ≤ key a := pairwise_desc _
    rw [← List.take_append_drop n (desc key (after key c l)), List.pairwise_append] at hsplit
    exact fun b hb => hsplit.2.2 b hb x hxl
  have hcount : (page key c n l).countP (fun b => key x ≤ key b) = n := by
    rw [List.countP_eq_length.2 (by simpa using habove), hlong]
  have hsub : (page key c n l).Sublist (ls.flatMap (page key c n)) :=
    List.sublist_flatten_of_mem (List.mem_map.2 ⟨l, hl, rfl⟩)
  exact hcount.symm.trans_le hsub.countP_le

theorem length_merge (ls : List (List α)) (c : Option κ) (n : ℕ) :
    min n (ls.flatMap (page key c n)).length = min n (after key c ls.flatten).length := by
  rw [after_flatten]
  induction ls with
  | nil => rfl
  | cons l ls ih =>
    simp only [List.flatMap_cons, List.length_append, length_page]
    omega

/-! ## What a page holds -/

theorem mem_page (ha : a ∈ page key c n l) : a ∈ l ∧ Before key c a :=
  mem_after.1 (mem_desc.1 (List.mem_of_mem_take ha))

theorem pairwise_page : (page key c n l).Pairwise fun a b => key b ≤ key a :=
  (pairwise_desc _).sublist (List.take_sublist _ _)

theorem last_le (hl : l.Pairwise fun a b => key b ≤ key a) {z : α} (hz : l.getLast? = some z) (ha : a ∈ l) :
    key z ≤ key a := by
  obtain ⟨front, rfl⟩ := List.getLast?_eq_some_iff.1 hz
  rcases List.mem_append.1 ha with ha | ha
  · exact (List.pairwise_append.1 hl).2.2 a ha z (by simp)
  · rw [List.mem_singleton.1 ha]

/-- a page that is not full holds every row after the cursor -/
theorem mem_page_of_short (hshort : (page key c n l).length < n) (ha : a ∈ l) (hc : Before key c a) :
    a ∈ page key c n l := by
  rw [length_page] at hshort
  have hlen : (desc key (after key c l)).length ≤ n := by
    rw [length_desc]
    omega
  rw [page, List.take_of_length_le hlen]
  exact mem_desc.2 (mem_after.2 ⟨ha, hc⟩)

/-- a page holds every row after the cursor that is not below one of its rows -/
theorem mem_page_of_le (hd : Distinct key l) (ha : a ∈ l) (hc : Before key c a) (hb : b ∈ page key c n l)
    (hba : key b ≤ key a) : a ∈ page key c n l := by
  have hsplit : (desc key (after key c l)).Pairwise fun a b => key b ≤ key a := pairwise_desc _
  rw [← List.take_append_drop n (desc key (after key c l)), List.pairwise_append] at hsplit
  have hmem : a ∈ (desc key (after key c l)).take n ++ (desc key (after key c l)).drop n := by
    rw [List.take_append_drop]
    exact mem_desc.2 (mem_after.2 ⟨ha, hc⟩)
  rcases List.mem_append.1 hmem with h | h
  · exact h
  · -- a row below the page with the key of one of its rows is that row
    have hab : key a = key b := le_antisymm (hsplit.2.2 b hb a h) hba
    rw [hd a ha b (mem_page hb).1 hab]
    exact hb

theorem page_eq_nil (hn : 0 < n) : page key c n l = [] ↔ ∀ a ∈ l, ¬ Before key c a := by
  rw [← List.length_eq_zero_iff, length_page]
  constructor
  · intro h a ha hc
    have hpos : 0 < (after key c l).length := List.length_pos_of_mem (mem_after.2 ⟨ha, hc⟩)
    omega
  · intro h
    have : after key c l = [] := List.eq_nil_iff_forall_not_mem.2 fun a ha => h a (mem_after.1 ha).1 (mem_after.1 ha).2
    rw [this]
    simp

/-- where no row occurs twice, a page has as many rows as there are from the cursor down to its last one -/
theorem countP_page (hl : l.Nodup) (hd : Distinct key l) {z : α} (hz : (page key c n l).getLast? = some z) :
    l.countP (fun a => Before key c a ∧ key z ≤ key a) = (page key c n l).length := by
  have hzmem : z ∈ page key c n l := List.mem_of_getLast? hz
  have hnodup : (page key c n l).Nodup :=
    ((List.perm_insertionSort _ _).nodup_iff.2 (hl.filter _)).sublist (List.take_sublist _ _)
  have hperm : (page key c n l).Perm (l.filter fun a => Before key c a ∧ key z ≤ key a) := by
    rw [List.perm_ext_iff_of_nodup hnodup (hl.filter _)]
    intro a
    simp only [List.mem_filter, decide_eq_true_eq]
    constructor
    · intro ha
      exact ⟨(mem_page ha).1, (mem_page ha).2, last_le pairwise_page hz ha⟩
    · intro h
      exact mem_page_of_le hd h.1 h.2.1 hzmem h.2.2
  rw [List.countP_eq_length_filter, hperm.length_eq]

/-! ## Initial parts -/

/-- `l` lists the rows of `T` down to the last row of `l`, each once and in descending order -/
structure Initial (key : α → κ) (T : α → Prop) (l : List α) : Prop where
  strict : l.Pairwise fun a b => key b < key a
  sound : ∀ a ∈ l, T a
  upper : ∀ a, T a → ∀ b ∈ l, key b ≤ key a → a ∈ l

variable {T : α → Prop}

theorem Initial.nil : Initial key T [] := ⟨.nil, by simp, by simp⟩

theorem Initial.snoc (h : Initial key T l) (hT : ∀ a b, T a → T b → key a = key b → a = b) (ha : T a) (hnew : a ∉ l)
    (habove : ∀ b, T b → key a < key b → b ∈ l) : Initial key T (l ++ [a]) := by
  refine ⟨?_, ?_, ?_⟩
  · rw [List.pairwise_append]
    refine ⟨h.strict, List.pairwise_singleton _ _, ?_⟩
    intro b hb d hd
    rw [List.mem_singleton.1 hd]
    by_contra hlt
    exact hnew (h.upper a ha b hb (not_lt.1 hlt))
  · intro b hb
    rcases List.mem_append.1 hb with hb | hb
    · exact h.sound b hb
    · rw [List.mem_singleton.1 hb]
      exact ha
  · intro x hx b hb hle
    rcases List.mem_append.1 hb with hb | hb
    · exact List.mem_append_left _ (h.upper x hx b hb hle)
    · rw [List.mem_singleton.1 hb] at hle
      rcases hle.lt_or_eq with hlt | heq
      · exact List.mem_append_left _ (habove x hx hlt)
      · rw [hT x a hx ha heq.symm]
        simp

theorem Initial.take (h : Initial key T l) (n : ℕ) : Initial key T (l.take n) := by
  refine ⟨h.strict.sublist (List.take_sublist _ _), fun a ha => h.sound a (List.mem_of_mem_take ha), ?_⟩
  intro a ha b hb hle
  have hmem : a ∈ l.take n ++ l.drop n := by
    rw [List.take_append_drop]
    exact h.upper a ha b (List.mem_of_mem_take hb) hle
  rcases List.mem_append.1 hmem with hmem | hmem
  · exact hmem
  · have hsplit := h.strict
    rw [← List.take_append_drop n l, List.pairwise_append] at hsplit
    exact absurd (hsplit.2.2 b hb a hmem) (not_lt.2 hle)

/-! ## Following a cursor -/

/-- the text of a cursor, which the client sends back as it got it -/
structure Codec (γ κ : Type) where
  encode : κ → γ
  decode : γ → Option κ
  decode_encode : ∀ k, decode (encode k) = some k

variable {γ : Type}

/-- a client that asks for the next page until there is none -/
def followCursor (read : Option γ → List α × Option γ) : ℕ → Option γ → Option (List α)
  | 0, _ => none
  | fuel + 1, c =>
    match (read c).2 with
    | none => some (read c).1
    | some next => (followCursor read fuel (some next)).map ((read c).1 ++ ·)

/-- the client gets the list `L` -/
def Lists (read : Option γ → List α × Option γ) (c : Option γ) (L : List α) : Prop :=
  ∃ fuel, followCursor read fuel c = some L

variable {read : Option γ → List α × Option γ} {t : Option γ} {L L' : List α}

theorem followCursor_mono {fuel : ℕ} (h : followCursor read fuel t = some L) (more : ℕ) :
    followCursor read (fuel + more) t = some L := by
  induction fuel generalizing t L with
  | zero => simp [followCursor] at h
  | succ fuel ih =>
    rw [Nat.add_right_comm]
    rw [followCursor] at h ⊢
    cases hnext : (read t).2 with
    | none => simpa [hnext] using h
    | some next =>
      simp only [hnext, Option.map_eq_some_iff] at h ⊢
      obtain ⟨rest, hrest, rfl⟩ := h
      exact ⟨rest, ih hrest, rfl⟩

theorem Lists.unique (h : Lists read t L) (h' : Lists read t L') : L = L' := by
  obtain ⟨fuel, h⟩ := h
  obtain ⟨fuel', h'⟩ := h'
  have hboth := followCursor_mono h fuel'
  rw [Nat.add_comm, followCursor_mono h' fuel] at hboth
  exact (Option.some.inj hboth).symm

theorem lists_last (h : (read t).2 = none) : Lists read t (read t).1 := ⟨1, by simp [followCursor, h]⟩

theorem lists_next {next : γ} (h : (read t).2 = some next) (hrest : Lists read (some next) L) :
    Lists read t ((read t).1 ++ L) := by
  obtain ⟨fuel, hrest⟩ := hrest
  exact ⟨fuel + 1, by simp [followCursor, h, hrest]⟩

/-- what one page after `c` owes: its rows are the rows of `T` down to the next cursor, which is the key of a row -/
structure PageOk (key : α → κ) (C : List α) (T : α → Prop) (c : Option κ) (items : List α) (next : Option κ) : Prop where
  strict : items.Pairwise fun a b => key b < key a
  members : ∀ a, a ∈ items ↔ T a ∧ Before key c a ∧ ∀ k ∈ next, k ≤ key a
  progress : ∀ k ∈ next, ∃ a ∈ C, Before key c a ∧ key a = k

theorem length_after_lt {C : List α} (ha : a ∈ C) (hc : Before key c a) :
    (after key (some (key a)) C).length < (after key c C).length := by
  have hfilter : after key (some (key a)) C = (after key c C).filter fun b => Before key (some (key a)) b := by
    rw [after, after, List.filter_filter]
    refine List.filter_congr fun b _ => ?_
    have hmono : Before key (some (key a)) b → Before key c b := fun hb k hk => (hb (key a) rfl).trans (hc k hk)
    simpa using hmono
  rw [hfilter, List.length_filter_lt_length_iff_exists]
  exact ⟨a, mem_after.2 ⟨ha, hc⟩, by simp [Before]⟩

/-- **Following the cursor.** Where every page is in order, the client gets every row of `T` once, in descending order. -/
theorem lists_all (K : Codec γ κ) {C : List α}
    (hread : ∀ t, ∃ next, PageOk key C T (t.bind K.decode) (read t).1 next ∧ (read t).2 = next.map K.encode)
    (t : Option γ) : ∃ L, Lists read t L ∧ L.Pairwise (fun a b => key b < key a) ∧
      ∀ a, a ∈ L ↔ T a ∧ Before key (t.bind K.decode) a := by
  generalize hn : (after key (t.bind K.decode) C).length = n
  induction n using Nat.strong_induction_on generalizing t with
  | _ n ih =>
    obtain ⟨next, hok, hnext⟩ := hread t
    rcases next with _ | k
    · refine ⟨_, lists_last hnext, hok.strict, ?_⟩
      intro a
      simp [hok.members a]
    · obtain ⟨z, hz, hcz, hzk⟩ := hok.progress k rfl
      have hless : (after key ((some (K.encode k)).bind K.decode) C).length < n := by
        simp only [Option.bind_some, K.decode_encode, ← hn, ← hzk]
        exact length_after_lt hz hcz
      obtain ⟨L, hL, hstrict, hmem⟩ := ih _ hless (some (K.encode k)) rfl
      simp only [Option.bind_some, K.decode_encode] at hmem
      refine ⟨_, lists_next hnext hL, ?_, ?_⟩
      · rw [List.pairwise_append]
        refine ⟨hok.strict, hstrict, ?_⟩
        intro a ha b hb
        exact lt_of_lt_of_le (((hmem b).1 hb).2 k rfl) (((hok.members a).1 ha).2.2 k rfl)
      · intro a
        rw [List.mem_append, hok.members, hmem]
        constructor
        · rintro (⟨hT, hc, -⟩ | ⟨hT, hk⟩)
          · exact ⟨hT, hc⟩
          · refine ⟨hT, fun k' hk' => (hk k rfl).trans ?_⟩
            rw [← hzk]
            exact hcz k' hk'
        · rintro ⟨hT, hc⟩
          by_cases hle : k ≤ key a
          · exact .inl ⟨hT, hc, by simpa using hle⟩
          · exact .inr ⟨hT, by simpa [Before] using hle⟩

end LkmService.Keyset
