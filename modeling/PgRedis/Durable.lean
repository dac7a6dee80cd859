import Mathlib.Algebra.Group.Int.Defs
import Mathlib.Algebra.Group.Nat.Defs
import Mathlib.Data.Int.Notation
import Mathlib.Tactic.Simps.Basic
import PgRedis.Lib.LastWrite

/-!
# The durable tables

The three tables `pgredis.store`, `pgredis.hash_fields` and `pgredis.list_items`,
and the six prepared statements of `persistence.c` that write them. Both the
pre-commit flush and the asynchronous drain fill one array per statement and run
the statements in one fixed order (`executePlans`).

A table is a partial function of its primary key. The foreign keys, which
cascade on delete, are fields of `Tables`: a child row without a parent row
cannot be built. The column `updated_at` is left out.
-/

namespace PgRedis

open Lib

abbrev Bytes := List UInt8

abbrev Key := Bytes

abbrev Field := Bytes

/-- The equality by which lists of keys are searched. -/
instance : LawfulBEq Bytes := inferInstance

/-- `PgRedisValueType`. -/
inductive ValueType
  | string
  | int
  | hash
  | list
  deriving DecidableEq, Repr

/-- The text of the column `type`: the name of a value type, or any other text. -/
inductive RowType
  | known (t : ValueType)
  | other (name : String)
  deriving DecidableEq, Repr

/-- A row of `pgredis.store` under its key. -/
structure StoreRow where
  type : RowType
  value : Option Bytes
  expireAt : Option ℤ
  version : ℤ
  deriving DecidableEq, Repr

/-- The three tables. A child row holds a `value` that may be `NULL`. -/
@[ext]
structure Tables where
  store : Key → Option StoreRow
  hashFields : Key → Field → Option (Option Bytes)
  listItems : Key → ℤ → Option (Option Bytes)
  hashFields_parent : ∀ k f, (hashFields k f).isSome → (store k).isSome
  listItems_parent : ∀ k o, (listItems k o).isSome → (store k).isSome

/-- The columns of a row of `pgredis.store` but for its version. -/
def StoreRow.data (r : StoreRow) : RowType × Option Bytes × Option ℤ :=
  (r.type, r.value, r.expireAt)

/-- The same rows up to versions. -/
structure Tables.SameRows (D D' : Tables) : Prop where
  store : ∀ k, (D.store k).map StoreRow.data = (D'.store k).map StoreRow.data
  hashFields : ∀ k f, D.hashFields k f = D'.hashFields k f
  listItems : ∀ k o, D.listItems k o = D'.listItems k o

/-- The errors a statement can raise. -/
inductive SqlError
  | uniqueViolation
  | foreignKeyViolation
  deriving DecidableEq, Repr

/-- The value a row gives to the key `k`. -/
def valueAt {κ V : Type*} [DecidableEq κ] (k : κ) (row : κ × V) : Option V :=
  if row.1 = k then some row.2 else none

theorem valueAt_eq_some {κ V : Type*} [DecidableEq κ] {k : κ} {row : κ × V} {v : V} :
    valueAt k row = some v ↔ row = (k, v) := by
  rw [valueAt]
  split_ifs with h
  · rw [Option.some.injEq]
    exact ⟨fun hv => Prod.ext h hv, fun hr => hr ▸ rfl⟩
  · exact iff_of_false (by simp) fun hr => h (hr ▸ rfl)

theorem last_valueAt_eq_none {κ V : Type*} [DecidableEq κ] {rows : List (κ × V)} {k : κ}
    (h : ∀ v, (k, v) ∉ rows) : last (valueAt k) rows = none := by
  rw [last_eq_none_iff]
  intro row hrow
  refine Option.eq_none_iff_forall_ne_some.2 fun v hv => h v ?_
  rw [← valueAt_eq_some.1 hv]
  exact hrow

/-- The only value the rows give to a key is the last one. -/
theorem last_valueAt_eq {κ V : Type*} [DecidableEq κ] {rows : List (κ × V)} {k : κ} {v : V}
    (h : (k, v) ∈ rows) (huniq : ∀ v', (k, v') ∈ rows → v' = v) :
    last (valueAt k) rows = some v := by
  obtain ⟨v', hv'⟩ := Option.isSome_iff_exists.1 (isSome_last h (valueAt_eq_some.2 rfl))
  obtain ⟨row, hrow, hv⟩ := exists_mem_of_last hv'
  rw [valueAt_eq_some.1 hv] at hrow
  rw [hv', huniq v' hrow]

/-- Two arrays that give a key the same values, at most one each. -/
theorem last_valueAt_congr {κ V : Type*} [DecidableEq κ] {rows rows' : List (κ × V)} {k : κ}
    (h : ∀ v, (k, v) ∈ rows ↔ (k, v) ∈ rows')
    (huniq : ∀ v v', (k, v) ∈ rows → (k, v') ∈ rows → v = v') :
    last (valueAt k) rows = last (valueAt k) rows' := by
  by_cases hv : ∃ v, (k, v) ∈ rows
  · obtain ⟨v, hv⟩ := hv
    rw [last_valueAt_eq hv fun v' hv' => huniq v' v hv' hv,
      last_valueAt_eq ((h v).1 hv) fun v' hv' => huniq v' v ((h v').2 hv') hv]
  · rw [not_exists] at hv
    rw [last_valueAt_eq_none hv, last_valueAt_eq_none fun v hv' => hv v ((h v).2 hv')]

/-- A value found among rows whose keys all satisfy `P`, or beside them. -/
theorem of_isSome_last_or {κ V : Type*} [DecidableEq κ] {rows : List (κ × V)} {P : κ → Prop}
    (hrows : ∀ row ∈ rows, P row.1) {k : κ} {o : Option V}
    (h : ((last (valueAt k) rows).or o).isSome) : P k ∨ o.isSome := by
  rcases hl : last (valueAt k) rows with _ | v
  · rw [hl, Option.none_or] at h
    exact .inr h
  · obtain ⟨row, hrow, hv⟩ := exists_mem_of_last hl
    obtain rfl := valueAt_eq_some.1 hv
    exact .inl (hrows _ hrow)

theorem bind_eq_ok_iff {ε : Type*} {α β : Type} {x : Except ε α} {f : α → Except ε β} {b : β} :
    x >>= f = .ok b ↔ ∃ a, x = .ok a ∧ f a = .ok b := by
  cases x with
  | error e => exact iff_of_false (by simp [bind, Except.bind]) (by simp)
  | ok a => simp [bind, Except.bind]

namespace Tables

/-- The empty tables. -/
def empty : Tables where
  store _ := none
  hashFields _ _ := none
  listItems _ _ := none
  hashFields_parent _ _ h := absurd h (by simp)
  listItems_parent _ _ h := absurd h (by simp)

/-- `SQL_STORE_UPSERT`: of several rows for a key the last one is kept. -/
@[simps]
def storeUpsert (rows : List (Key × StoreRow)) (D : Tables) : Tables where
  store k := (last (valueAt k) rows).or (D.store k)
  hashFields := D.hashFields
  listItems := D.listItems
  hashFields_parent k f h := by simp [D.hashFields_parent k f h]
  listItems_parent k o h := by simp [D.listItems_parent k o h]

/-- `SQL_HASH_FIELD_DELETE`. -/
@[simps]
def hashFieldDelete (rows : List (Key × Field)) (D : Tables) : Tables where
  store := D.store
  hashFields k f := if (k, f) ∈ rows then none else D.hashFields k f
  listItems := D.listItems
  hashFields_parent k f h := by
    split_ifs at h
    · exact absurd h (by simp)
    · exact D.hashFields_parent k f h
  listItems_parent := D.listItems_parent

/-- `SQL_HASH_FIELD_UPSERT`: of several rows for a field the last one is kept. -/
def hashFieldUpsert (rows : List ((Key × Field) × Option Bytes)) (D : Tables) :
    Except SqlError Tables :=
  if hfk : ∀ row ∈ rows, (D.store row.1.1).isSome then .ok
    { D with
      hashFields := fun k f => (last (valueAt (k, f)) rows).or (D.hashFields k f)
      hashFields_parent := fun k f h =>
        (of_isSome_last_or (P := fun r => (D.store r.1).isSome) hfk h).elim id
          (D.hashFields_parent k f) }
  else .error .foreignKeyViolation

/-- `SQL_LIST_ITEM_DELETE`. -/
@[simps]
def listItemDelete (rows : List (Key × ℤ)) (D : Tables) : Tables where
  store := D.store
  hashFields := D.hashFields
  listItems k o := if (k, o) ∈ rows then none else D.listItems k o
  hashFields_parent := D.hashFields_parent
  listItems_parent k o h := by
    split_ifs at h
    · exact absurd h (by simp)
    · exact D.listItems_parent k o h

/-- `SQL_LIST_ITEM_INSERT`: a plain insert, so an ordinal met twice, or present
    already, violates the primary key. -/
def listItemInsert (rows : List ((Key × ℤ) × Option Bytes)) (D : Tables) :
    Except SqlError Tables :=
  if (rows.map Prod.fst).Nodup ∧ ∀ row ∈ rows, D.listItems row.1.1 row.1.2 = none then
    if hfk : ∀ row ∈ rows, (D.store row.1.1).isSome then .ok
      { D with
        listItems := fun k o => (last (valueAt (k, o)) rows).or (D.listItems k o)
        listItems_parent := fun k o h =>
          (of_isSome_last_or (P := fun r => (D.store r.1).isSome) hfk h).elim id
            (D.listItems_parent k o) }
    else .error .foreignKeyViolation
  else .error .uniqueViolation

/-- `SQL_STORE_DELETE`, cascading to the child tables. -/
@[simps]
def storeDelete (keys : List Key) (D : Tables) : Tables where
  store k := if k ∈ keys then none else D.store k
  hashFields k f := if k ∈ keys then none else D.hashFields k f
  listItems k o := if k ∈ keys then none else D.listItems k o
  hashFields_parent k f h := by
    split_ifs at h ⊢
    · exact absurd h (by simp)
    · exact D.hashFields_parent k f h
  listItems_parent k o h := by
    split_ifs at h ⊢
    · exact absurd h (by simp)
    · exact D.listItems_parent k o h

theorem hashFieldUpsert_eq_ok_iff {rows : List ((Key × Field) × Option Bytes)} {D D' : Tables} :
    D.hashFieldUpsert rows = .ok D' ↔ (∀ row ∈ rows, (D.store row.1.1).isSome) ∧
      D'.store = D.store ∧ D'.listItems = D.listItems ∧
        D'.hashFields = fun k f => (last (valueAt (k, f)) rows).or (D.hashFields k f) := by
  rw [hashFieldUpsert]
  split_ifs with hfk
  · rw [Except.ok.injEq, Tables.ext_iff]
    exact ⟨fun ⟨hs, hh, hl⟩ => ⟨hfk, hs.symm, hl.symm, hh.symm⟩,
      fun ⟨_, hs, hl, hh⟩ => ⟨hs.symm, hh.symm, hl.symm⟩⟩
  · exact iff_of_false (by simp) fun h => hfk h.1

theorem listItemInsert_eq_ok_iff {rows : List ((Key × ℤ) × Option Bytes)} {D D' : Tables} :
    D.listItemInsert rows = .ok D' ↔ (∀ row ∈ rows, (D.store row.1.1).isSome) ∧
      ((rows.map Prod.fst).Nodup ∧ ∀ row ∈ rows, D.listItems row.1.1 row.1.2 = none) ∧
        D'.store = D.store ∧ D'.hashFields = D.hashFields ∧
          D'.listItems = fun k o => (last (valueAt (k, o)) rows).or (D.listItems k o) := by
  rw [listItemInsert]
  split_ifs with hpk hfk
  · rw [Except.ok.injEq, Tables.ext_iff]
    exact ⟨fun ⟨hs, hh, hl⟩ => ⟨hfk, hpk, hs.symm, hh.symm, hl.symm⟩,
      fun ⟨_, _, hs, hh, hl⟩ => ⟨hs.symm, hh.symm, hl.symm⟩⟩
  · exact iff_of_false (by simp) fun h => hfk h.1
  · exact iff_of_false (by simp) fun h => hpk h.2.1

end Tables

/-- The arrays a flush or a drain fills for its statements. -/
structure PlanArgs where
  storeUpserts : List (Key × StoreRow)
  hashFieldDeletes : List (Key × Field)
  hashFieldUpserts : List ((Key × Field) × Option Bytes)
  listItemDeletes : List (Key × ℤ)
  listItemInserts : List ((Key × ℤ) × Option Bytes)
  storeDeletes : List Key

/-- The statements in their order. The code skips a statement whose arrays are
    empty; it would do nothing. -/
def executePlans (a : PlanArgs) (D : Tables) : Except SqlError Tables := do
  let D := (D.storeUpsert a.storeUpserts).hashFieldDelete a.hashFieldDeletes
  let D ← D.hashFieldUpsert a.hashFieldUpserts
  let D ← (D.listItemDelete a.listItemDeletes).listItemInsert a.listItemInserts
  return D.storeDelete a.storeDeletes

namespace PlanArgs

/-- The parent row of `k` once the upserts have run. -/
def storeAfter (a : PlanArgs) (D : Tables) (k : Key) : Option StoreRow :=
  (last (valueAt k) a.storeUpserts).or (D.store k)

/-- The arrays meet the constraints: the child rows have parents, the new list
    rows are distinct, and none is there once the list deletes have run. -/
structure Admissible (a : PlanArgs) (D : Tables) : Prop where
  hashParent : ∀ row ∈ a.hashFieldUpserts, (a.storeAfter D row.1.1).isSome
  listParent : ∀ row ∈ a.listItemInserts, (a.storeAfter D row.1.1).isSome
  nodup : (a.listItemInserts.map Prod.fst).Nodup
  absent : ∀ row ∈ a.listItemInserts, row.1 ∉ a.listItemDeletes →
    D.listItems row.1.1 row.1.2 = none

/-- The tables after the statements, cell by cell. -/
structure Result (a : PlanArgs) (D D' : Tables) : Prop where
  store : ∀ k, D'.store k = if k ∈ a.storeDeletes then none else a.storeAfter D k
  hashFields : ∀ k f, D'.hashFields k f = if k ∈ a.storeDeletes then none else
    (last (valueAt (k, f)) a.hashFieldUpserts).or
      (if (k, f) ∈ a.hashFieldDeletes then none else D.hashFields k f)
  listItems : ∀ k o, D'.listItems k o = if k ∈ a.storeDeletes then none else
    (last (valueAt (k, o)) a.listItemInserts).or
      (if (k, o) ∈ a.listItemDeletes then none else D.listItems k o)

end PlanArgs

variable {a : PlanArgs} {D D' : Tables}

theorem PlanArgs.Result.eq {D'' : Tables} (h : a.Result D D') (h' : a.Result D D'') : D' = D'' := by
  apply Tables.ext
  · funext k
    rw [h.store, h'.store]
  · funext k f
    rw [h.hashFields, h'.hashFields]
  · funext k o
    rw [h.listItems, h'.listItems]

/-- What the statements do when they succeed. -/
theorem executePlans_ok (h : executePlans a D = .ok D') : a.Admissible D ∧ a.Result D D' := by
  simp only [executePlans, bind_eq_ok_iff, Tables.hashFieldUpsert_eq_ok_iff,
    Tables.listItemInsert_eq_ok_iff, pure, Except.pure, Except.ok.injEq] at h
  obtain ⟨D₁, ⟨hhp, hs₁, hl₁, hh₁⟩, D₂, ⟨hlp, ⟨hnd, habs⟩, hs₂, hh₂, hl₂⟩, rfl⟩ := h
  simp only [Tables.listItemDelete_store, Tables.listItemDelete_listItems, hs₁, hl₁,
    Tables.hashFieldDelete_store, Tables.hashFieldDelete_listItems, Tables.storeUpsert_store,
    Tables.storeUpsert_listItems] at hhp hlp habs
  refine ⟨⟨hhp, hlp, hnd, fun row hrow hdel => ?_⟩, fun k => ?_, fun k f => ?_, fun k o => ?_⟩
  · simpa [hdel] using habs row hrow
  · simp [hs₂, hs₁, PlanArgs.storeAfter]
  · simp [hh₂, hh₁]
  · simp [hl₂, hl₁]

/-- Admissible arrays raise no error. -/
theorem exists_executePlans (h : a.Admissible D) : ∃ D', executePlans a D = .ok D' := by
  obtain ⟨D₁, hD₁⟩ : ∃ D₁, ((D.storeUpsert a.storeUpserts).hashFieldDelete
      a.hashFieldDeletes).hashFieldUpsert a.hashFieldUpserts = .ok D₁ := ⟨_, dif_pos h.hashParent⟩
  obtain ⟨-, hs₁, hl₁, -⟩ := Tables.hashFieldUpsert_eq_ok_iff.1 hD₁
  have hpk : (a.listItemInserts.map Prod.fst).Nodup ∧ ∀ row ∈ a.listItemInserts,
      (D₁.listItemDelete a.listItemDeletes).listItems row.1.1 row.1.2 = none := by
    refine ⟨h.nodup, fun row hrow => ?_⟩
    rw [Tables.listItemDelete_listItems, hl₁]
    split_ifs with hdel
    · rfl
    · exact h.absent row hrow hdel
  have hfk : ∀ row ∈ a.listItemInserts,
      ((D₁.listItemDelete a.listItemDeletes).store row.1.1).isSome := fun row hrow => by
    rw [Tables.listItemDelete_store, hs₁]
    exact h.listParent row hrow
  obtain ⟨D₂, hD₂⟩ : ∃ D₂, (D₁.listItemDelete a.listItemDeletes).listItemInsert
      a.listItemInserts = .ok D₂ := ⟨_, (if_pos hpk).trans (dif_pos hfk)⟩
  exact ⟨D₂.storeDelete a.storeDeletes,
    bind_eq_ok_iff.2 ⟨D₁, hD₁, bind_eq_ok_iff.2 ⟨D₂, hD₂, rfl⟩⟩⟩

/-- The statements succeed exactly on admissible arrays, with the result given
    cell by cell. -/
theorem executePlans_eq_ok_iff :
    executePlans a D = .ok D' ↔ a.Admissible D ∧ a.Result D D' := by
  refine ⟨executePlans_ok, fun ⟨hadm, hres⟩ => ?_⟩
  obtain ⟨D'', hD''⟩ := exists_executePlans hadm
  rw [hD'', (executePlans_ok hD'').2.eq hres]

/-! ## Lists in order -/

/-- The values of rows in the order of their ordinals. -/
def InOrder (rows : ℤ → Option (Option Bytes)) (vs : List Bytes) : Prop :=
  ∃ ords : List ℤ, ords.Pairwise (· < ·) ∧ (∀ o, o ∈ ords ↔ (rows o).isSome) ∧
    vs = ords.map fun o => (rows o).join.getD []

theorem InOrder.unique {rows : ℤ → Option (Option Bytes)} {vs vs' : List Bytes}
    (h : InOrder rows vs) (h' : InOrder rows vs') : vs = vs' := by
  obtain ⟨ords, hs, hmem, rfl⟩ := h
  obtain ⟨ords', hs', hmem', rfl⟩ := h'
  have hnd : ∀ {l : List ℤ}, l.Pairwise (· < ·) → l.Nodup := fun h => h.imp Int.ne_of_lt
  have hperm : ords.Perm ords' := (List.perm_ext_iff_of_nodup (hnd hs) (hnd hs')).2 fun o =>
    (hmem o).trans (hmem' o).symm
  have hanti : ∀ a b : ℤ, a < b → b < a → a = b := fun a b h h' =>
    absurd h' (Int.not_lt.2 (Int.le_of_lt h))
  rw [hperm.eq_of_pairwise (fun a b _ _ => hanti a b) hs hs']

end PgRedis
