/-
A relational store with row locks at READ COMMITTED, as a machine for concurrent sessions.

- A table is a family of cells; the number of a cell is the row's identity and its insertion order. A cell holds the
  row's last committed version and, while a session has written or locked the row, that session's own version. The
  second is the row lock: another session that wants to write or lock the row waits until the first has ended its
  transaction (`Cell.busy`).
- A statement sees the last committed version of every row, or the session's own version (`Cell.view`). After a wait it
  is run again on what has been committed meanwhile.
- `insertUnique` is INSERT … ON CONFLICT DO NOTHING: it waits while another session's open transaction leaves the
  conflict undecided, and holds its entry in the unique index to the end of the transaction. `tryLockRow` is FOR UPDATE
  SKIP LOCKED. `lockKey` is a transaction-level advisory lock.
- A statement over many rows takes its list of rows first and then works row by row, checking each row again
  (`lockFirst`, `lockAll`, `updateAll`).
- `Effects`: statements on a part of the state outside the tables, which no transaction undoes.
-/
import Mathlib.Data.List.Range
import LkmService.Lib.Session

namespace LkmService.Sql

open Session

/-! ## Cells and tables -/

/-- one row: its committed version, and the session that holds its lock with that session's version -/
structure Cell (R : Type) where
  committed : Option R := none
  pending : Option (ℕ × Option R) := none
deriving DecidableEq, Repr

namespace Cell

variable {R : Type}

/-- session `i`'s own version, when it holds the lock -/
def mine (i : ℕ) (c : Cell R) : Option (Option R) :=
  match c.pending with
  | some (j, v) => if j = i then some v else none
  | none => none

/-- the version that a statement of session `i` sees -/
def view (i : ℕ) (c : Cell R) : Option R := (c.mine i).getD c.committed

/-- another session holds the lock -/
def busy (i : ℕ) (c : Cell R) : Bool :=
  match c.pending with
  | some (j, _) => j != i
  | none => false

def put (i : ℕ) (v : Option R) (c : Cell R) : Cell R := { c with pending := some (i, v) }

/-- the end of a transaction of session `i`: its version becomes the committed one or is dropped -/
def finish (i : ℕ) (keep : Bool) (c : Cell R) : Cell R :=
  match c.mine i with
  | some v => { committed := if keep then v else c.committed }
  | none => c

/-- the row is in the way of an insert by session `i`: also when the other session's transaction is rolled back -/
def conflict (i : ℕ) (clash : R → Bool) (c : Cell R) : Bool :=
  match c.pending with
  | some (j, v) => v.any clash && (j == i || c.committed.any clash)
  | none => c.committed.any clash

/-- whether the row is in the way depends on how another session's transaction ends -/
def undecided (i : ℕ) (clash : R → Bool) (c : Cell R) : Bool :=
  match c.pending with
  | some (j, v) => j != i && (v.any clash != c.committed.any clash)
  | none => false

@[simp] theorem mine_empty (i : ℕ) : ({} : Cell R).mine i = none := rfl

@[simp] theorem view_empty (i : ℕ) : ({} : Cell R).view i = none := rfl

@[simp] theorem mine_put (i : ℕ) (v : Option R) (c : Cell R) : (c.put i v).mine i = some v := by simp [mine, put]

theorem mine_put_of_ne {i j : ℕ} (h : j ≠ i) (v : Option R) (c : Cell R) : (c.put i v).mine j = none := by
  simp [mine, put, h.symm]

@[simp] theorem committed_put (i : ℕ) (v : Option R) (c : Cell R) : (c.put i v).committed = c.committed := rfl

/-- a row that is not busy is held by no other session -/
theorem mine_of_not_busy {i j : ℕ} {c : Cell R} (h : c.busy i = false) (hj : j ≠ i) : c.mine j = none := by
  rcases hp : c.pending with _ | ⟨k, v⟩
  · simp [mine, hp]
  · simp only [busy, hp, bne_eq_false_iff_eq] at h
    simp [mine, hp, h, hj.symm]

theorem mine_exclusive {i j : ℕ} {c : Cell R} (h : c.mine i ≠ none) (hj : j ≠ i) : c.mine j = none := by
  rcases hp : c.pending with _ | ⟨k, v⟩
  · simp [mine, hp]
  · simp only [mine, hp, ne_eq, ite_eq_right_iff, reduceCtorEq, imp_false, not_not] at h
    simp [mine, hp, h, hj.symm]

theorem mine_finish (i j : ℕ) (b : Bool) (c : Cell R) :
    (c.finish i b).mine j = if j = i then none else c.mine j := by
  rcases h : c.mine i with _ | v
  · simp only [finish, h]
    split_ifs with hj
    · rw [hj, h]
    · rfl
  · have hn : j ≠ i → c.mine j = none := fun hj => mine_exclusive (by simp [h]) hj
    simp only [finish, h]
    by_cases hj : j = i
    · rw [if_pos hj]; rfl
    · rw [if_neg hj, hn hj]; rfl

theorem committed_finish (i : ℕ) (b : Bool) (c : Cell R) :
    (c.finish i b).committed = if b then (c.mine i).getD c.committed else c.committed := by
  rcases h : c.mine i with _ | v <;> cases b <;> simp [finish, h]

theorem view_of_conflict {i : ℕ} {clash : R → Bool} {c : Cell R} (h : c.conflict i clash = true) :
    ∃ r, c.view i = some r ∧ clash r = true := by
  rcases hp : c.pending with _ | ⟨j, v⟩
  · simp only [conflict, hp, Option.any_eq_true] at h
    simpa [view, mine, hp] using h
  · simp only [conflict, hp, Bool.and_eq_true, Bool.or_eq_true, beq_iff_eq, Option.any_eq_true] at h
    by_cases hj : j = i
    · simpa [view, mine, hp, hj] using h.1
    · simpa [view, mine, hp, hj] using h.2

theorem clash_of_view {i : ℕ} {clash : R → Bool} {c : Cell R} (hc : ¬ c.conflict i clash = true)
    (hu : ¬ c.undecided i clash = true) {r : R} (h : c.view i = some r) : clash r = false := by
  rcases hp : c.pending with _ | ⟨j, v⟩
  · simp only [view, mine, hp, Option.getD_none] at h
    simpa [conflict, hp, h] using hc
  · by_cases hj : j = i
    · simp only [view, mine, hp, hj, if_true, Option.getD_some] at h
      simpa [conflict, hp, hj, h] using hc
    · simp only [view, mine, hp, hj, if_false, Option.getD_none] at h
      cases hr : clash r <;> cases hv : v.any clash <;> simp_all [conflict, undecided]

end Cell

/-- a table: its cells, of which only those below `next` have ever been used -/
structure Table (R : Type) where
  cell : ℕ → Cell R := fun _ => {}
  next : ℕ := 0
  fresh : ∀ n, next ≤ n → cell n = {} := by intros; rfl

/-- rows in the order of their numbers are apart -/
theorem nodup_numbers {α : Type} {l : List (ℕ × α)} (h : l.Pairwise fun a b => a.1 < b.1) : (l.map Prod.fst).Nodup :=
  List.pairwise_map.2 (h.imp Nat.ne_of_lt)

namespace Table

variable {R : Type}

/-- session `i` writes the version `v` of row `n` -/
def put (i n : ℕ) (v : Option R) (t : Table R) : Table R where
  cell := Function.update t.cell n ((t.cell n).put i v)
  next := max t.next (n + 1)
  fresh m hm := by
    rw [Function.update_of_ne (by omega)]
    exact t.fresh m (by omega)

def finish (i : ℕ) (keep : Bool) (t : Table R) : Table R where
  cell n := (t.cell n).finish i keep
  next := t.next
  fresh m hm := by rw [t.fresh m hm]; rfl

/-- a table in which the rows of the list are committed -/
def ofList (l : List R) : Table R where
  cell n := { committed := l[n]? }
  next := l.length
  fresh n hn := by rw [List.getElem?_eq_none hn]

/-- the rows that session `i` sees, in insertion order -/
def rows (i : ℕ) (t : Table R) : List (ℕ × R) :=
  (List.range t.next).filterMap fun n => ((t.cell n).view i).map fun r => (n, r)

theorem mem_rows {i n : ℕ} {r : R} {t : Table R} : (n, r) ∈ t.rows i ↔ (t.cell n).view i = some r := by
  simp only [rows, List.mem_filterMap, List.mem_range, Option.map_eq_some_iff, Prod.mk.injEq]
  refine ⟨?_, fun h => ⟨n, ?_, r, h, rfl, rfl⟩⟩
  · rintro ⟨m, -, r', hr, rfl, rfl⟩; exact hr
  · by_contra hn
    rw [t.fresh n (by omega)] at h
    simp at h

theorem rows_pairwise (i : ℕ) (t : Table R) : (t.rows i).Pairwise fun a b => a.1 < b.1 := by
  refine List.Pairwise.filterMap _ (fun a a' haa b hb b' hb' => ?_) List.pairwise_lt_range
  simp only [Option.map_eq_some_iff] at hb hb'
  obtain ⟨_, -, rfl⟩ := hb
  obtain ⟨_, -, rfl⟩ := hb'
  exact haa

end Table

/-! ## The store -/

set_option linter.unusedSectionVars false

variable {T : Type} [DecidableEq T] {Row : T → Type} {K : Type} [DecidableEq K] {X : Type}

/-- the tables, the holders of advisory locks and of new index entries, and the part of the state outside the tables -/
structure Db (Row : T → Type) (K X : Type) where
  tab (t : T) : Table (Row t) := {}
  key : K → Option ℕ := fun _ => none
  ext : X

namespace Db

def cell (d : Db Row K X) (t : T) (n : ℕ) : Cell (Row t) := (d.tab t).cell n

def put (i : ℕ) (t : T) (n : ℕ) (v : Option (Row t)) (d : Db Row K X) : Db Row K X :=
  { d with tab := Function.update d.tab t ((d.tab t).put i n v) }

/-- another session holds the key -/
def keyBusy (i : ℕ) (k : K) (d : Db Row K X) : Bool := (d.key k).any (· != i)

def takeKey (i : ℕ) (k : K) (d : Db Row K X) : Db Row K X := { d with key := Function.update d.key k (some i) }

/-- the end of a transaction: all locks of session `i` are released -/
def finish (i : ℕ) (keep : Bool) (d : Db Row K X) : Db Row K X where
  tab t := (d.tab t).finish i keep
  key k := if d.key k = some i then none else d.key k
  ext := d.ext

theorem cell_put_self (i : ℕ) (t : T) (n : ℕ) (v : Option (Row t)) (d : Db Row K X) :
    (d.put i t n v).cell t n = (d.cell t n).put i v := by
  simp [cell, put, Table.put]

theorem cell_put_of_ne (i : ℕ) (t : T) (n : ℕ) (v : Option (Row t)) (d : Db Row K X) {t' : T} {m : ℕ}
    (h : t' = t → m ≠ n) : (d.put i t n v).cell t' m = d.cell t' m := by
  by_cases ht : t' = t
  · subst ht
    simp [cell, put, Table.put, Function.update_of_ne (h rfl)]
  · simp [cell, put, Function.update_of_ne ht]

@[simp] theorem cell_finish (i : ℕ) (keep : Bool) (d : Db Row K X) (t : T) (n : ℕ) :
    (d.finish i keep).cell t n = (d.cell t n).finish i keep := rfl

end Db

/-! ## Statements -/

inductive Cmd (Row : T → Type) (K : Type) : Type → Type where
  /-- SELECT … WHERE p, in insertion order -/
  | select (t : T) (p : ℕ → Row t → Bool) : Cmd Row K (List (ℕ × Row t))
  /-- SELECT … WHERE id = n AND p FOR UPDATE -/
  | lockRow (t : T) (n : ℕ) (p : Row t → Bool) : Cmd Row K (Option (Row t))
  /-- SELECT … WHERE id = n AND p FOR UPDATE SKIP LOCKED -/
  | tryLockRow (t : T) (n : ℕ) (p : Row t → Bool) : Cmd Row K (Option (Row t))
  /-- UPDATE … SET f WHERE id = n AND p; the answer is the new version -/
  | updateRow (t : T) (n : ℕ) (p : Row t → Bool) (f : Row t → Row t) : Cmd Row K (Option (Row t))
  /-- DELETE … WHERE id = n; the answer is whether there was such a row -/
  | deleteRow (t : T) (n : ℕ) : Cmd Row K Bool
  /-- DELETE … WHERE id = n AND p; the answer is whether there was such a row -/
  | deleteIf (t : T) (n : ℕ) (p : Row t → Bool) : Cmd Row K Bool
  | insert (t : T) (r : Row t) : Cmd Row K ℕ
  /-- INSERT … ON CONFLICT DO NOTHING RETURNING id; `k` names the entry of the unique index -/
  | insertUnique (t : T) (k : K) (clash : Row t → Bool) (r : Row t) : Cmd Row K (Option ℕ)
  /-- the snapshot of a SELECT that joins tables or aggregates them: one statement, all rows that it sees -/
  | snapshot : Cmd Row K ((t : T) → List (ℕ × Row t))
  /-- SELECT pg_advisory_xact_lock(k) -/
  | lockKey (k : K) : Cmd Row K Unit
  | commit : Cmd Row K Unit
  | rollback : Cmd Row K Unit

def Cmd.isCommit {β : Type} : Cmd Row K β → Bool
  | .commit => true
  | _ => false

def Cmd.isRollback {β : Type} : Cmd Row K β → Bool
  | .rollback => true
  | _ => false

/-- a statement on the tables, or one on the rest of the state -/
inductive Stmt (Row : T → Type) (K : Type) (Fx : Type → Type) (β : Type) where
  | sql (c : Cmd Row K β)
  | fx (x : Fx β)

/-- the statements on the rest of the state always go through -/
class Effects (Fx : Type → Type) (X : outParam Type) where
  exec {β : Type} (i : ℕ) (x : Fx β) (e : X) : β × X

namespace Cmd

/-- what session `i` does to a row that it sees and that meets `p`; `busy` is the answer when the row is locked -/
def onRow {β : Type} (i : ℕ) (t : T) (n : ℕ) (p : Row t → Bool) (new : Row t → Option (Row t)) (hit : Row t → β)
    (miss : β) (busy : Option β) (d : Db Row K X) : Option (β × Db Row K X) :=
  match (d.cell t n).view i with
  | none => some (miss, d)
  | some r =>
    if p r then
      if (d.cell t n).busy i then busy.map fun b => (b, d) else some (hit r, d.put i t n (new r))
    else some (miss, d)

def exec {β : Type} (i : ℕ) (c : Cmd Row K β) (d : Db Row K X) : Option (β × Db Row K X) :=
  match c with
  | .select t p => some (((d.tab t).rows i).filter fun q => p q.1 q.2, d)
  | .lockRow t n p => onRow i t n p some some none none d
  | .tryLockRow t n p => onRow i t n p some some none (some none) d
  | .updateRow t n p f => onRow i t n p (fun r => some (f r)) (fun r => some (f r)) none none d
  | .deleteRow t n => onRow i t n (fun _ => true) (fun _ => none) (fun _ => true) false none d
  | .deleteIf t n p => onRow i t n p (fun _ => none) (fun _ => true) false none d
  | .insert t r => some ((d.tab t).next, d.put i t (d.tab t).next (some r))
  | .insertUnique t k clash r =>
    let cells := (List.range (d.tab t).next).map (d.cell t)
    if cells.any (Cell.conflict i clash) then some (none, d)
    else if cells.any (Cell.undecided i clash) || d.keyBusy i k then none
    else some (some (d.tab t).next, (d.put i t (d.tab t).next (some r)).takeKey i k)
  | .snapshot => some (fun t => (d.tab t).rows i, d)
  | .lockKey k => if d.keyBusy i k then none else some ((), d.takeKey i k)
  | .commit => some ((), d.finish i true)
  | .rollback => some ((), d.finish i false)

end Cmd

variable {Fx : Type → Type} [Effects Fx X]

instance : Machine (Stmt Row K Fx) (Db Row K X) where
  exec i c d :=
    match c with
    | .sql c => c.exec i d
    | .fx x => let q := Effects.exec i x d.ext; some (q.1, { d with ext := q.2 })
  drop i d := d.finish i false

/-! ## Programs over the store -/

variable {ε : Type}

def select (t : T) (p : ℕ → Row t → Bool) : Prog (Stmt Row K Fx) ε (List (ℕ × Row t)) := .call (.sql (.select t p))

def lockRow (t : T) (n : ℕ) (p : Row t → Bool) : Prog (Stmt Row K Fx) ε (Option (Row t)) :=
  .call (.sql (.lockRow t n p))

def tryLockRow (t : T) (n : ℕ) (p : Row t → Bool) : Prog (Stmt Row K Fx) ε (Option (Row t)) :=
  .call (.sql (.tryLockRow t n p))

def updateRow (t : T) (n : ℕ) (p : Row t → Bool) (f : Row t → Row t) : Prog (Stmt Row K Fx) ε (Option (Row t)) :=
  .call (.sql (.updateRow t n p f))

def deleteRow (t : T) (n : ℕ) : Prog (Stmt Row K Fx) ε Bool := .call (.sql (.deleteRow t n))

def deleteIf (t : T) (n : ℕ) (p : Row t → Bool) : Prog (Stmt Row K Fx) ε Bool := .call (.sql (.deleteIf t n p))

/-- a SELECT whose answer is `f` of the rows of several tables -/
def query {β : Type} (f : ((t : T) → List (ℕ × Row t)) → β) : Prog (Stmt Row K Fx) ε β := do
  let l ← .call (.sql .snapshot)
  pure (f l)

def insert (t : T) (r : Row t) : Prog (Stmt Row K Fx) ε ℕ := .call (.sql (.insert t r))

def insertUnique (t : T) (k : K) (clash : Row t → Bool) (r : Row t) : Prog (Stmt Row K Fx) ε (Option ℕ) :=
  .call (.sql (.insertUnique t k clash r))

def lockKey (k : K) : Prog (Stmt Row K Fx) ε Unit := .call (.sql (.lockKey k))

def commit : Prog (Stmt Row K Fx) ε Unit := .call (.sql .commit)

def rollback : Prog (Stmt Row K Fx) ε Unit := .call (.sql .rollback)

def perform {β : Type} (x : Fx β) : Prog (Stmt Row K Fx) ε β := .call (.fx x)

/-- SELECT … FOR UPDATE SKIP LOCKED LIMIT 1 over the candidate rows `ns` -/
def lockFirst (t : T) (p : Row t → Bool) : List ℕ → Prog (Stmt Row K Fx) ε (Option (ℕ × Row t))
  | [] => pure none
  | n :: ns => do
    match ← tryLockRow t n p with
    | some r => pure (some (n, r))
    | none => lockFirst t p ns

/-- UPDATE … SET f WHERE p over the candidate rows `ns`; the answer is the number of rows changed -/
def updateAll (t : T) (p : Row t → Bool) (f : Row t → Row t) : List ℕ → Prog (Stmt Row K Fx) ε ℕ
  | [] => pure 0
  | n :: ns => do
    let r ← updateRow t n p f
    let k ← updateAll t p f ns
    pure (k + if r.isSome then 1 else 0)

/-- a request's transaction: committed when the program ends normally, rolled back when it raises -/
def transaction {α : Type} (p : Prog (Stmt Row K Fx) ε α) : Prog (Stmt Row K Fx) ε α :=
  p.andThen fun
    | .ok a => do commit; pure a
    | .error e => do rollback; Prog.raise e

end LkmService.Sql
