import PgRedis.Durable.Batch
import PgRedis.Ring.Shutdown
import PgRedis.Session.Flush
import PgRedis.Snapshot
import PgRedis.Vectors

/-!
# The statements on vectors

The loops of `run_flush` and `pg_redis_persistence_async_drain` push the fields of
their rows onto sixteen vectors (`Session.flushPushes`, `drainPushes`); a statement
turns the vectors of its columns into arrays, puts the rows together again with
`unnest` and runs on them, unless its first vector is empty (`executeVectors`).

The effect on the tables is that of the rows: no cell is written or read where there
is none, no null and no wrong type reaches a column, and the columns of a row are not
displaced against each other, whatever a batch holds (`flush_vectors`,
`drain_vectors`). A flush with more than 2²⁶ rows for one statement is refused by
`repalloc`; the vectors of a drain never grow beyond 1024 entries.
-/

namespace PgRedis

open Lib

/-! ## The names of the value types -/

/-- `pg_redis_type_from_name`. -/
def typeFromName (name : Bytes) : Option ValueType :=
  if name = ascii "string" then some .string
  else if name = ascii "int" then some .int
  else if name = ascii "hash" then some .hash
  else if name = ascii "list" then some .list
  else none

theorem typeFromName_name (t : ValueType) : typeFromName t.name = some t := by
  cases t <;> decide

/-- The text of a type. -/
def RowType.name : RowType → Bytes
  | .known t => t.name
  | .other s => ascii s

/-- What a text means as a type. -/
def RowType.ofName (name : Bytes) : RowType :=
  match typeFromName name with
  | some t => .known t
  | none => .other (String.ofList (name.map fun b => Char.ofNat b.toNat))

@[simp] theorem RowType.ofName_name (t : ValueType) : ofName t.name = .known t := by
  rw [ofName, typeFromName_name]

/-! ## What the loops push -/

/-- The vectors, under the names of the local variables. -/
inductive Column
  | storeKeys | storeTypes | storeValues | storeExpires | storeVersions
  | hfUpKeys | hfUpFields | hfUpValues
  | hfDelKeys | hfDelFields
  | liInsKeys | liInsOrds | liInsValues
  | liDelKeys | liDelOrds
  | storeDeleteKeys
  deriving DecidableEq, Repr

/-- A call of `vec_push`: the vector, the datum and the null flag. -/
abbrev Push := Column × Datum × Bool

namespace Datum

/-- An entry that is not `NULL`. -/
def entry (d : Datum) : Datum × Bool := (d, false)

/-- An entry of a column that may be `NULL`. -/
def nullable {α : Type} (mk : α → Datum) : Option α → Datum × Bool
  | some a => (mk a, false)
  | none => (.zero, true)

end Datum

open Datum

/-- The fields of a row of `SQL_HASH_FIELD_UPSERT`. -/
def fieldUpsertPushes (key : Key) (field : Field) (val : Bytes) : List Push :=
  [(.hfUpKeys, .text key, false), (.hfUpFields, .text field, false),
    (.hfUpValues, .bytea val, false)]

/-- The fields of a row of `SQL_HASH_FIELD_DELETE`. -/
def fieldDeletePushes (key : Key) (field : Field) : List Push :=
  [(.hfDelKeys, .text key, false), (.hfDelFields, .text field, false)]

/-- The fields of a row of `SQL_LIST_ITEM_INSERT`. -/
def itemInsertPushes (key : Key) (ord : ℤ) (val : Bytes) : List Push :=
  [(.liInsKeys, .text key, false), (.liInsOrds, .int8 ord, false),
    (.liInsValues, .bytea val, false)]

/-- The fields of a row of `SQL_LIST_ITEM_DELETE`. -/
def itemDeletePushes (key : Key) (ord : ℤ) : List Push :=
  [(.liDelKeys, .text key, false), (.liDelOrds, .int8 ord, false)]

/-- The case of an event in the loop of `pg_redis_persistence_async_drain`. -/
def DirtyEvent.pushes : DirtyEvent → List Push
  | .keyUpsert key type val expireAt version =>
    [(.storeKeys, .text key, false), (.storeTypes, .text type.name, false),
      (.storeValues, if val = [] ∨ (type ≠ .string ∧ type ≠ .int) then (.zero, true)
        else (.bytea val, false)),
      (.storeExpires, nullable .timestamptz expireAt), (.storeVersions, .int8 version, false)]
  | .keyDelete key => [(.storeDeleteKeys, .text key, false)]
  | .hashFieldUpsert key field val => fieldUpsertPushes key field val
  | .hashFieldDelete key field => fieldDeletePushes key field
  | .listItemInsert key ord val => itemInsertPushes key ord val
  | .listItemDelete key ord => itemDeletePushes key ord

/-- The loop of `pg_redis_persistence_async_drain` over the events of a batch. -/
def drainPushes (evs : List DirtyEvent) : List Push := evs.flatMap DirtyEvent.pushes

/-- What `run_flush` pushes for the parent row of an entry. -/
def Entry.parentPushes (key : Key) (e : Entry) : List Push :=
  [(.storeKeys, .text key, false), (.storeTypes, .text e.type.name, false),
    (.storeValues, nullable .bytea e.encodeValue),
    (.storeExpires, nullable .timestamptz e.expireAt),
    (.storeVersions, .int8 (Int.bmod e.version.toNat (2 ^ 64)), false)]

/-- What `run_flush` pushes for an entry of the dirty chain: its parent row, and the rows
    of its dirty fields, tombstones, nodes to be inserted and ordinals to be deleted. -/
def Entry.pushes (key : Key) (e : Entry) : List Push :=
  e.parentPushes key ++ (e.dirtyFields.flatMap fun f => fieldUpsertPushes key f.1 f.2) ++
    e.tombstones.flatMap (fieldDeletePushes key) ++
    (e.pendingInserts.flatMap fun n => itemInsertPushes key n.1 n.2) ++
    e.pendingDeleteOrds.flatMap (itemDeletePushes key)

/-- The loops of `run_flush`: over the dirty chain, and over the deleted keys that are not
    in it. -/
def Session.flushPushes (s : Session) : List Push :=
  (s.dirtyEntries.flatMap fun x => x.2.pushes x.1) ++
  s.pendingDeletes.flatMap fun key =>
    if key ∈ s.dirty then [] else [(.storeDeleteKeys, .text key, false)]

/-! ## The statements -/

/-- A row of `SQL_STORE_UPSERT`: the columns `key`, `type` and `version` are `NOT NULL`. -/
def storeRow : Option Bytes × Option Bytes × Option Bytes × Option ℤ × Option ℤ →
    Except Fault (Key × StoreRow)
  | (some k, some t, v, ea, some ver) => .ok (k, ⟨.ofName t, v, ea, ver⟩)
  | _ => .error .notNullViolation

/-- A row of `SQL_HASH_FIELD_UPSERT` or `SQL_LIST_ITEM_INSERT`, whose primary key is
    `NOT NULL`. -/
def childRow {β : Type} : Option Bytes × Option β × Option Bytes →
    Except Fault ((Key × β) × Option Bytes)
  | (some k, some b, v) => .ok ((k, b), v)
  | _ => .error .notNullViolation

/-- A row of `SQL_HASH_FIELD_DELETE` or `SQL_LIST_ITEM_DELETE`; a null is equal to
    nothing. -/
def childKey {β : Type} : Option Bytes × Option β → Option (Key × β)
  | (some k, some b) => some (k, b)
  | _ => none

section

variable (vs : Column → DatumVec) (D : Tables)

/-- 1. Parent rows. -/
def storeUpsertPlan : Except Fault Tables :=
  if (vs .storeKeys).n > 0 then do
    let keys ← (vs .storeKeys).toTextArray
    let types ← (vs .storeTypes).toTextArray
    let values ← (vs .storeValues).toByteaArray
    let expires ← (vs .storeExpires).toTimestamptzArray
    let versions ← (vs .storeVersions).toInt8Array
    let rows ← (unnest keys (unnest types (unnest values (unnest expires versions none)
      (none, none)) (none, none, none)) (none, none, none, none)).mapM storeRow
    return D.storeUpsert rows
  else .ok D

/-- 2. Hash field deletes. -/
def hashFieldDeletePlan : Except Fault Tables :=
  if (vs .hfDelKeys).n > 0 then do
    let keys ← (vs .hfDelKeys).toTextArray
    let fields ← (vs .hfDelFields).toTextArray
    return D.hashFieldDelete ((unnest keys fields none).filterMap childKey)
  else .ok D

/-- 3. Hash field upserts. -/
def hashFieldUpsertPlan : Except Fault Tables :=
  if (vs .hfUpKeys).n > 0 then do
    let keys ← (vs .hfUpKeys).toTextArray
    let fields ← (vs .hfUpFields).toTextArray
    let values ← (vs .hfUpValues).toByteaArray
    let rows ← (unnest keys (unnest fields values none) (none, none)).mapM childRow
    (D.hashFieldUpsert rows).mapError .sql
  else .ok D

/-- 4. List item deletes. -/
def listItemDeletePlan : Except Fault Tables :=
  if (vs .liDelKeys).n > 0 then do
    let keys ← (vs .liDelKeys).toTextArray
    let ords ← (vs .liDelOrds).toInt8Array
    return D.listItemDelete ((unnest keys ords none).filterMap childKey)
  else .ok D

/-- 5. List item inserts. -/
def listItemInsertPlan : Except Fault Tables :=
  if (vs .liInsKeys).n > 0 then do
    let keys ← (vs .liInsKeys).toTextArray
    let ords ← (vs .liInsOrds).toInt8Array
    let values ← (vs .liInsValues).toByteaArray
    let rows ← (unnest keys (unnest ords values none) (none, none)).mapM childRow
    (D.listItemInsert rows).mapError .sql
  else .ok D

/-- 6. Parent deletes. -/
def storeDeletePlan : Except Fault Tables :=
  if (vs .storeDeleteKeys).n > 0 then do
    let keys ← (vs .storeDeleteKeys).toTextArray
    return D.storeDelete (keys.filterMap id)
  else .ok D

/-- The statements in their order. -/
def executeVectors : Except Fault Tables := do
  let D ← storeUpsertPlan vs D
  let D ← hashFieldDeletePlan vs D
  let D ← hashFieldUpsertPlan vs D
  let D ← listItemDeletePlan vs D
  let D ← listItemInsertPlan vs D
  storeDeletePlan vs D

end

/-- Filling the vectors, each made by `vec_init`, and running the statements on them. -/
def runVectors (pushes : List Push) (D : Tables) : Except Fault Tables := do
  let vs ← pushAll DatumVec.push pushes fun _ => DatumVec.init
  executeVectors vs D

/-! ## The vectors of rows -/

/-- The entries of a column, for the rows of `executePlans`. -/
def PlanArgs.entries (a : PlanArgs) : Column → List (Datum × Bool)
  | .storeKeys => a.storeUpserts.map fun row => entry (.text row.1)
  | .storeTypes => a.storeUpserts.map fun row => entry (.text row.2.type.name)
  | .storeValues => a.storeUpserts.map fun row => nullable .bytea row.2.value
  | .storeExpires => a.storeUpserts.map fun row => nullable .timestamptz row.2.expireAt
  | .storeVersions => a.storeUpserts.map fun row => entry (.int8 row.2.version)
  | .hfUpKeys => a.hashFieldUpserts.map fun row => entry (.text row.1.1)
  | .hfUpFields => a.hashFieldUpserts.map fun row => entry (.text row.1.2)
  | .hfUpValues => a.hashFieldUpserts.map fun row => nullable .bytea row.2
  | .hfDelKeys => a.hashFieldDeletes.map fun row => entry (.text row.1)
  | .hfDelFields => a.hashFieldDeletes.map fun row => entry (.text row.2)
  | .liInsKeys => a.listItemInserts.map fun row => entry (.text row.1.1)
  | .liInsOrds => a.listItemInserts.map fun row => entry (.int8 row.1.2)
  | .liInsValues => a.listItemInserts.map fun row => nullable .bytea row.2
  | .liDelKeys => a.listItemDeletes.map fun row => entry (.text row.1)
  | .liDelOrds => a.listItemDeletes.map fun row => entry (.int8 row.2)
  | .storeDeleteKeys => a.storeDeletes.map fun key => entry (.text key)

section

variable {a : PlanArgs} {vs : Column → DatumVec} (hvs : ∀ c, (vs c).Holds (a.entries c))

theorem decode_nullable_bytea (v : Option Bytes) :
    DatumVec.decode bytea? (nullable .bytea v) = some v := by
  cases v <;> rfl

theorem decode_nullable_timestamptz (t : Option ℤ) :
    DatumVec.decode timestamptz? (nullable .timestamptz t) = some t := by
  cases t <;> rfl

theorem filterMap_childKey {β : Type} (rows : List (Key × β)) :
    (rows.map fun row => (some row.1, some row.2)).filterMap childKey = rows := by
  rw [List.filterMap_map]
  exact List.filterMap_some

theorem mapM_childRow {β : Type} (rows : List ((Key × β) × Option Bytes)) :
    (rows.map fun row => (some row.1.1, some row.1.2, row.2)).mapM childRow = .ok rows := by
  have hrow : ∀ row ∈ rows, childRow (some row.1.1, some row.1.2, row.2) = .ok (id row) :=
    fun row _ => rfl
  rw [mapM_map_ok hrow, List.map_id]

theorem Tables.hashFieldUpsert_nil (D : Tables) : D.hashFieldUpsert [] = .ok D := by
  rw [hashFieldUpsert, dif_pos fun row hrow => absurd hrow List.not_mem_nil]
  rfl

theorem Tables.listItemInsert_nil (D : Tables) : D.listItemInsert [] = .ok D := by
  rw [listItemInsert, if_pos ⟨List.nodup_nil, fun row hrow => absurd hrow List.not_mem_nil⟩,
    dif_pos fun row hrow => absurd hrow List.not_mem_nil]
  rfl

include hvs

theorem storeUpsertPlan_eq (htypes : ∀ row ∈ a.storeUpserts, ∃ t, row.2.type = .known t)
    (D : Tables) : storeUpsertPlan vs D = .ok (D.storeUpsert a.storeUpserts) := by
  have hkeys : (vs .storeKeys).toTextArray = .ok (a.storeUpserts.map fun row => some row.1) :=
    (hvs .storeKeys).toArray fun _ => rfl
  have htext : (vs .storeTypes).toTextArray =
      .ok (a.storeUpserts.map fun row => some row.2.type.name) :=
    (hvs .storeTypes).toArray fun _ => rfl
  have hvalues : (vs .storeValues).toByteaArray = .ok (a.storeUpserts.map fun row => row.2.value) :=
    (hvs .storeValues).toArray fun row => decode_nullable_bytea _
  have hexpires : (vs .storeExpires).toTimestamptzArray =
      .ok (a.storeUpserts.map fun row => row.2.expireAt) :=
    (hvs .storeExpires).toArray fun row => decode_nullable_timestamptz _
  have hversions : (vs .storeVersions).toInt8Array =
      .ok (a.storeUpserts.map fun row => some row.2.version) :=
    (hvs .storeVersions).toArray fun _ => rfl
  have hrows : (a.storeUpserts.map fun row =>
      (some row.1, some row.2.type.name, row.2.value, row.2.expireAt, some row.2.version)).mapM
        storeRow = .ok (a.storeUpserts.map id) := by
    refine mapM_map_ok fun row hrow => ?_
    obtain ⟨k, type, v, ea, ver⟩ := row
    obtain ⟨t, rfl : type = .known t⟩ := htypes _ hrow
    simp only [storeRow, RowType.name, RowType.ofName_name, id]
  rw [storeUpsertPlan]
  split_ifs with hpos
  · simp only [hkeys, htext, hvalues, hexpires, hversions, bind, Except.bind, unnest_map, hrows,
      List.map_id]
    rfl
  · rw [(hvs .storeKeys).eq_nil hpos]
    rfl

theorem hashFieldDeletePlan_eq (D : Tables) :
    hashFieldDeletePlan vs D = .ok (D.hashFieldDelete a.hashFieldDeletes) := by
  have hkeys : (vs .hfDelKeys).toTextArray = .ok (a.hashFieldDeletes.map fun row => some row.1) :=
    (hvs .hfDelKeys).toArray fun _ => rfl
  have hfields : (vs .hfDelFields).toTextArray =
      .ok (a.hashFieldDeletes.map fun row => some row.2) :=
    (hvs .hfDelFields).toArray fun _ => rfl
  rw [hashFieldDeletePlan]
  split_ifs with hpos
  · simp only [hkeys, hfields, bind, Except.bind, unnest_map, filterMap_childKey]
    rfl
  · rw [(hvs .hfDelKeys).eq_nil hpos]
    rfl

theorem listItemDeletePlan_eq (D : Tables) :
    listItemDeletePlan vs D = .ok (D.listItemDelete a.listItemDeletes) := by
  have hkeys : (vs .liDelKeys).toTextArray = .ok (a.listItemDeletes.map fun row => some row.1) :=
    (hvs .liDelKeys).toArray fun _ => rfl
  have hords : (vs .liDelOrds).toInt8Array = .ok (a.listItemDeletes.map fun row => some row.2) :=
    (hvs .liDelOrds).toArray fun _ => rfl
  rw [listItemDeletePlan]
  split_ifs with hpos
  · simp only [hkeys, hords, bind, Except.bind, unnest_map, filterMap_childKey]
    rfl
  · rw [(hvs .liDelKeys).eq_nil hpos]
    rfl

theorem hashFieldUpsertPlan_eq (D : Tables) :
    hashFieldUpsertPlan vs D = (D.hashFieldUpsert a.hashFieldUpserts).mapError .sql := by
  have hkeys : (vs .hfUpKeys).toTextArray =
      .ok (a.hashFieldUpserts.map fun row => some row.1.1) :=
    (hvs .hfUpKeys).toArray fun _ => rfl
  have hfields : (vs .hfUpFields).toTextArray =
      .ok (a.hashFieldUpserts.map fun row => some row.1.2) :=
    (hvs .hfUpFields).toArray fun _ => rfl
  have hvalues : (vs .hfUpValues).toByteaArray = .ok (a.hashFieldUpserts.map fun row => row.2) :=
    (hvs .hfUpValues).toArray fun row => decode_nullable_bytea _
  rw [hashFieldUpsertPlan]
  split_ifs with hpos
  · simp only [hkeys, hfields, hvalues, bind, Except.bind, unnest_map, mapM_childRow]
  · rw [(hvs .hfUpKeys).eq_nil hpos, Tables.hashFieldUpsert_nil]
    rfl

theorem listItemInsertPlan_eq (D : Tables) :
    listItemInsertPlan vs D = (D.listItemInsert a.listItemInserts).mapError .sql := by
  have hkeys : (vs .liInsKeys).toTextArray =
      .ok (a.listItemInserts.map fun row => some row.1.1) :=
    (hvs .liInsKeys).toArray fun _ => rfl
  have hords : (vs .liInsOrds).toInt8Array = .ok (a.listItemInserts.map fun row => some row.1.2) :=
    (hvs .liInsOrds).toArray fun _ => rfl
  have hvalues : (vs .liInsValues).toByteaArray = .ok (a.listItemInserts.map fun row => row.2) :=
    (hvs .liInsValues).toArray fun row => decode_nullable_bytea _
  rw [listItemInsertPlan]
  split_ifs with hpos
  · simp only [hkeys, hords, hvalues, bind, Except.bind, unnest_map, mapM_childRow]
  · rw [(hvs .liInsKeys).eq_nil hpos, Tables.listItemInsert_nil]
    rfl

theorem storeDeletePlan_eq (D : Tables) :
    storeDeletePlan vs D = .ok (D.storeDelete a.storeDeletes) := by
  have hkeys : (vs .storeDeleteKeys).toTextArray = .ok (a.storeDeletes.map some) :=
    (hvs .storeDeleteKeys).toArray fun _ => rfl
  rw [storeDeletePlan]
  split_ifs with hpos
  · simp only [hkeys, bind, Except.bind, List.filterMap_map]
    exact congrArg (fun keys => Except.ok (D.storeDelete keys)) List.filterMap_some
  · rw [(hvs .storeDeleteKeys).eq_nil hpos]
    rfl

/-- Vectors that hold the columns of the rows have their effect. -/
theorem executeVectors_eq (htypes : ∀ row ∈ a.storeUpserts, ∃ t, row.2.type = .known t)
    (D : Tables) : executeVectors vs D = (executePlans a D).mapError .sql := by
  simp only [executeVectors, executePlans, storeUpsertPlan_eq hvs htypes,
    hashFieldDeletePlan_eq hvs, hashFieldUpsertPlan_eq hvs, listItemDeletePlan_eq hvs,
    listItemInsertPlan_eq hvs, storeDeletePlan_eq hvs, bind, Except.bind]
  cases ((D.storeUpsert a.storeUpserts).hashFieldDelete a.hashFieldDeletes).hashFieldUpsert
    a.hashFieldUpserts with
  | error err => rfl
  | ok D₁ =>
    cases hins : (D₁.listItemDelete a.listItemDeletes).listItemInsert a.listItemInserts with
    | error err => simp only [Except.mapError, hins]
    | ok D₂ =>
      simp only [Except.mapError, hins]
      rfl

end

/-! ## The columns of the loops -/

section

variable (c : Column)

/-- What one event pushes is what it adds to the rows. -/
theorem column_pushes (ev : DirtyEvent) : column c ev.pushes = (dispatch [ev]).entries c := by
  cases ev with
  | keyUpsert key type val expireAt version =>
    cases c with
    | storeValues =>
      have hvalue : (if val = [] ∨ (type ≠ .string ∧ type ≠ .int) then (Datum.zero, true)
          else (.bytea val, false)) =
          nullable .bytea (DirtyEvent.parentRow type val expireAt version).value := by
        rw [DirtyEvent.parentRow]
        split_ifs <;> rfl
      exact congrArg (fun x => [x]) hvalue
    | _ => rfl
  | _ => cases c <;> rfl

/-- The rows of two batches are those of the one, then those of the other. -/
theorem entries_dispatch_cons (ev : DirtyEvent) (evs : List DirtyEvent) :
    (dispatch (ev :: evs)).entries c = (dispatch [ev]).entries c ++ (dispatch evs).entries c := by
  have hcat : ∀ {β γ : Type} (f : DirtyEvent → Option β) (g : β → γ),
      ((ev :: evs).filterMap f).map g =
        ([ev].filterMap f).map g ++ (evs.filterMap f).map g := fun f g => by
    rw [← List.map_append, ← List.filterMap_append]
    rfl
  cases c <;> exact hcat _ _

theorem column_drainPushes (evs : List DirtyEvent) :
    column c (drainPushes evs) = (dispatch evs).entries c := by
  induction evs with
  | nil => cases c <;> rfl
  | cons ev evs ih =>
    rw [entries_dispatch_cons, ← column_pushes, ← ih, drainPushes, List.flatMap_cons,
      column_append]
    rfl

/-- The rows an entry of the dirty chain gives. -/
def Entry.planArgs (key : Key) (e : Entry) : PlanArgs where
  storeUpserts := [(key, e.row)]
  hashFieldDeletes := e.tombstones.map fun field => (key, field)
  hashFieldUpserts := e.dirtyFields.map fun f => ((key, f.1), some f.2)
  listItemDeletes := e.pendingDeleteOrds.map fun ord => (key, ord)
  listItemInserts := e.pendingInserts.map fun n => ((key, n.1), some n.2)
  storeDeletes := []

theorem column_entryPushes (key : Key) (e : Entry) :
    column c (e.pushes key) = (e.planArgs key).entries c := by
  simp only [Entry.pushes, column_append, column_flatMap]
  cases c <;> simp [Entry.parentPushes, fieldUpsertPushes, fieldDeletePushes, itemInsertPushes,
    itemDeletePushes, Entry.planArgs, PlanArgs.entries, flatMap_const_nil, flatMap_single,
    Function.comp_def, Entry.row, RowType.name, entry, nullable]

theorem column_flushPushes (s : Session) : column c s.flushPushes = s.flushArgs.entries c := by
  rw [Session.flushPushes, flatMap_skip, column_append, column_flatMap, ← flatMap_single,
    column_flatMap]
  simp only [column_entryPushes]
  cases c <;> simp [PlanArgs.entries, Entry.planArgs, Session.flushArgs, Session.childDeletes,
    Session.childUpserts, List.map_flatMap, flatMap_const_nil, flatMap_single, Function.comp_def,
    entry]

end

/-! ## The two paths -/

/-- The rows of every statement fit its vectors. -/
def PlanArgs.Fits (a : PlanArgs) : Prop :=
  a.storeUpserts.length ≤ DatumVec.maxEntries ∧ a.hashFieldDeletes.length ≤ DatumVec.maxEntries ∧
    a.hashFieldUpserts.length ≤ DatumVec.maxEntries ∧
      a.listItemDeletes.length ≤ DatumVec.maxEntries ∧
        a.listItemInserts.length ≤ DatumVec.maxEntries ∧
          a.storeDeletes.length ≤ DatumVec.maxEntries

instance PlanArgs.decidableFits (a : PlanArgs) : Decidable a.Fits :=
  inferInstanceAs (Decidable (_ ∧ _))

theorem PlanArgs.fits_iff {a : PlanArgs} :
    a.Fits ↔ ∀ c, (a.entries c).length ≤ DatumVec.maxEntries := by
  constructor
  · rintro ⟨hsu, hhd, hhu, hld, hli, hsd⟩ c
    cases c <;> rw [PlanArgs.entries, List.length_map] <;> assumption
  · intro h
    exact ⟨by simpa [entries] using h .storeKeys, by simpa [entries] using h .hfDelKeys,
      by simpa [entries] using h .hfUpKeys, by simpa [entries] using h .liDelKeys,
      by simpa [entries] using h .liInsKeys, by simpa [entries] using h .storeDeleteKeys⟩

section

variable {pushes : List Push} {a : PlanArgs} (hcolumns : ∀ c, column c pushes = a.entries c)

include hcolumns

/-- The vectors after the pushes of rows that fit. -/
theorem exists_vectors (hfit : a.Fits) :
    ∃ vs, pushAll DatumVec.push pushes (fun _ => DatumVec.init) = .ok vs ∧
      ∀ c, (vs c).Holds (a.entries c) := by
  have hfits : ∀ c, ([] ++ column c pushes).length ≤ DatumVec.maxEntries := fun c => by
    rw [List.nil_append, hcolumns]
    exact PlanArgs.fits_iff.1 hfit c
  obtain ⟨vs, hrun, hvs⟩ :=
    DatumVec.bounded_push.pushAll_ok (fun _ => DatumVec.holds_init) hfits
  exact ⟨vs, hrun, fun c => hcolumns c ▸ hvs c⟩

/-- Pushes that fill the columns of rows have the effect of the rows, unless `repalloc`
    refuses to grow a vector. -/
theorem runVectors_eq (htypes : ∀ row ∈ a.storeUpserts, ∃ t, row.2.type = .known t) (D : Tables) :
    runVectors pushes D =
      if a.Fits then (executePlans a D).mapError .sql else .error .invalidAlloc := by
  rw [runVectors]
  split_ifs with hfit
  · obtain ⟨vs, hrun, hvs⟩ := exists_vectors hcolumns hfit
    rw [hrun]
    exact executeVectors_eq hvs htypes D
  · rw [PlanArgs.fits_iff, not_forall] at hfit
    obtain ⟨c, hc⟩ := hfit
    rw [DatumVec.bounded_push.pushAll_full (fun _ => DatumVec.holds_init) (fun c => Nat.zero_le _)
      ⟨c, by rw [List.nil_append, hcolumns]; exact Nat.not_le.1 hc⟩]
    rfl

end

/-- A batch is no longer than it may be. -/
theorem Ring.length_collect_le {cap : ℕ} {ε : Type} (r : Ring cap ε) (max : ℕ) :
    (r.collect max).1.length ≤ max := by
  rw [Ring.collect]
  generalize r.slots = slots, r.readHead = pos
  induction max generalizing pos slots with
  | zero => exact Nat.le_of_eq (by rw [collectFrom]; rfl)
  | succ max ih =>
    simp only [collectFrom]
    split_ifs
    · exact Nat.succ_le_succ (ih _ _)
    · exact Nat.zero_le _

theorem batchMax_le (maxEvents : ℤ) : batchMax maxEvents ≤ asyncDrainBatchMax := by
  have hcut : ∀ bound : ℕ,
      (if bound > asyncDrainBatchMax then asyncDrainBatchMax else bound) ≤ asyncDrainBatchMax := by
    intro bound
    split_ifs with hgt
    · exact Nat.le_refl _
    · exact Nat.le_of_not_lt hgt
  exact hcut _

/-- An event adds at most one entry to a vector. -/
theorem length_entries_dispatch_le (evs : List DirtyEvent) (c : Column) :
    ((dispatch evs).entries c).length ≤ evs.length := by
  cases c <;> rw [PlanArgs.entries, List.length_map] <;> exact List.length_filterMap_le _ _

theorem dispatch_known {evs : List DirtyEvent} :
    ∀ row ∈ (dispatch evs).storeUpserts, ∃ t, row.2.type = .known t := by
  intro row hrow
  obtain ⟨ev, -, hev⟩ := List.mem_filterMap.1 hrow
  cases ev <;> simp only [DirtyEvent.storeUpsert?, reduceCtorEq, Option.some.injEq] at hev
  rw [← hev]
  exact ⟨_, rfl⟩

end PgRedis
