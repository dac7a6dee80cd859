import PgRedis.Lib.Probe
import PgRedis.HashValue

/-!
# Hashes in shared memory

The open-addressing field table of `shared_hash.c`, an instance of
`PgRedis.Lib.Probe`: bucket counts are powers of two, the home of a field is
`hash_bytes` masked by the bucket count, the table doubles when full cells and
tombstones would exceed seven tenths of it, and halves after a delete that leaves
less than an eighth of it occupied.

Chunks of shared memory are numbered as they are allocated; a bucket owns the
chunk of its field and, unless the value is empty, one for its value, and carries
the bytes written there. Every allocation may fail, as an oracle says for each
call (`AllocSite → Bool`).
-/

namespace PgRedis

open Lib Lib.Probe

/-- The allocated chunks of the shared memory area, and the next chunk to be
    handed out. -/
structure Dsa where
  next : ℕ
  live : List ℕ
  deriving DecidableEq, Repr

namespace Dsa

/-- `pg_redis_shared_palloc`. -/
def palloc (d : Dsa) : ℕ × Dsa := (d.next, ⟨d.next + 1, d.next :: d.live⟩)

/-- `pg_redis_shared_pfree`: nothing to do for `InvalidDsaPointer`. -/
def pfree (p : Option ℕ) (d : Dsa) : Dsa :=
  match p with
  | none => d
  | some p => { d with live := d.live.erase p }

end Dsa

/-- The allocations of `pg_redis_shared_hash_set` and `_del`. -/
inductive AllocSite
  | newTable
  | grow
  | overwriteValue
  | newField
  | newValue
  | shrink
  deriving DecidableEq, Repr

/-- What an occupied bucket owns: the chunks of the field and of the value, and
    the bytes of the value. -/
structure Owned where
  fieldDsa : ℕ
  valueDsa : Option ℕ
  value : Bytes
  deriving DecidableEq, Repr

/-- A `PgRedisSharedHashTable` with the chunk it lives in. -/
structure SharedTable where
  dsa : ℕ
  table : Table Field Owned
  deriving DecidableEq, Repr

/-- The shared memory area and the table pointer of the entry, `none` for
    `InvalidDsaPointer`. -/
structure SharedHash where
  dsa : Dsa
  table : Option SharedTable
  deriving DecidableEq, Repr

/-- The errors raised by the field table. -/
inductive SharedHashError
  | valueTooLong (len : ℕ)
  | outOfMemory (site : AllocSite)
  | saturated (probes : ℕ)
  deriving DecidableEq, Repr

/-- `PG_REDIS_SHARED_HASH_INIT_BUCKETS`. -/
def initBuckets : ℕ := 16

/-- `UINT16_MAX`. -/
def uint16Max : ℕ := 65535

namespace SharedHash

/-- `should_grow`. -/
def shouldGrow (occupied tombstones size : ℕ) : Bool := (occupied + tombstones + 1) * 10 > size * 7

/-- `should_shrink`. -/
def shouldShrink (occupied size : ℕ) : Bool := size > initBuckets && occupied * 8 < size * 1

section

variable (hashBytes : Bytes → UInt32)

/-- `bucket_index` and the step `(idx + 1) & mask` of the probe loop. -/
def geometry : Geometry Field where
  home n field := (hashBytes field).toNat &&& ((n - 1) % 2 ^ 32)
  next n idx := (idx + 1) &&& (n - 1)

/-- `rehash_table`: the new table and the memory once the old table is freed. The
    inner `none` is a failed allocation. -/
def rehashTable (ok : Bool) (t : SharedTable) (n : ℕ) (d : Dsa) :
    Except SharedHashError (Option (SharedTable × Dsa)) :=
  if ok then
    match t.table.rehash (geometry hashBytes) n with
    | none => .error (.saturated n)
    | some t' => .ok (some (⟨d.palloc.1, t'⟩, d.palloc.2.pfree (some t.dsa)))
  else .ok none

/-- The lazy allocation of `pg_redis_shared_hash_set`. -/
def ensureTable (ok : AllocSite → Bool) (s : SharedHash) :
    SharedHash × Except SharedHashError SharedTable :=
  match s.table with
  | some t => (s, .ok t)
  | none =>
    if ok .newTable then
      (⟨s.dsa.palloc.2, some ⟨s.dsa.palloc.1, .blank initBuckets⟩⟩,
        .ok ⟨s.dsa.palloc.1, .blank initBuckets⟩)
    else (s, .error (.outOfMemory .newTable))

/-- The growth step of `pg_redis_shared_hash_set`. -/
def growIfNeeded (ok : AllocSite → Bool) (t : SharedTable) (s : SharedHash) :
    SharedHash × Except SharedHashError SharedTable :=
  if shouldGrow t.table.occupied t.table.tombs t.table.size then
    match rehashTable hashBytes (ok .grow) t (t.table.size * 2) s.dsa with
    | .error e => (⟨s.dsa.palloc.2, s.table⟩, .error e)
    | .ok none => (s, .error (.outOfMemory .grow))
    | .ok (some (t', d)) => (⟨d, some t'⟩, .ok t')
  else (s, .ok t)

/-- A chunk for a value, none for an empty one. -/
def allocValue (value : Bytes) (d : Dsa) : Option ℕ × Dsa :=
  if value.length > 0 then (some d.palloc.1, d.palloc.2) else (none, d)

/-- The overwrite of `pg_redis_shared_hash_set`, in bucket `i` owning `o`. -/
def overwrite (ok : AllocSite → Bool) (i : ℕ) (field : Field) (o : Owned) (value : Bytes)
    (t : SharedTable) (s : SharedHash) : SharedHash × Except SharedHashError Bool :=
  if value.length > 0 ∧ ok .overwriteValue = false then (s, .error (.outOfMemory .overwriteValue))
  else
    let chunk := allocValue value s.dsa
    (⟨chunk.2.pfree o.valueDsa,
      some ⟨t.dsa, t.table.replace i field ⟨o.fieldDsa, chunk.1, value⟩⟩⟩, .ok false)

/-- The insertion of `pg_redis_shared_hash_set` into bucket `i`. -/
def insertAt (ok : AllocSite → Bool) (i : ℕ) (field : Field) (value : Bytes)
    (t : SharedTable) (s : SharedHash) : SharedHash × Except SharedHashError Bool :=
  if ok .newField = false then (s, .error (.outOfMemory .newField))
  else
    let fieldChunk := s.dsa.palloc
    if value.length > 0 ∧ ok .newValue = false then
      (⟨fieldChunk.2.pfree (some fieldChunk.1), s.table⟩, .error (.outOfMemory .newValue))
    else
      let chunk := allocValue value fieldChunk.2
      (⟨chunk.2, some ⟨t.dsa, t.table.fill i field ⟨fieldChunk.1, chunk.1, value⟩⟩⟩, .ok true)

/-- `pg_redis_shared_hash_set`: the memory and table pointer after the call, and
    an error or whether the field is new. -/
def set (ok : AllocSite → Bool) (field : Field) (value : Bytes) (s : SharedHash) :
    SharedHash × Except SharedHashError Bool :=
  if value.length > uint16Max then (s, .error (.valueTooLong value.length))
  else match ensureTable ok s with
    | (s, .error e) => (s, .error e)
    | (s, .ok t) => match growIfNeeded hashBytes ok t s with
      | (s, .error e) => (s, .error e)
      | (s, .ok t) => match t.table.find (geometry hashBytes) field with
        | none => (s, .error (.saturated t.table.size))
        | some (i, false) => insertAt ok i field value t s
        | some (i, true) => match t.table.cells[i]?.bind Cell.item? with
          | none => (s, .ok false)
          | some (_, o) => overwrite ok i field o value t s

/-- `pg_redis_shared_hash_get`. -/
def get (field : Field) (s : SharedHash) : Except SharedHashError (Option Bytes) :=
  match s.table with
  | none => .ok none
  | some t =>
    if t.table.occupied = 0 then .ok none
    else match t.table.find (geometry hashBytes) field with
      | none => .error (.saturated t.table.size)
      | some (_, false) => .ok none
      | some (i, true) => .ok ((t.table.cells[i]?.bind Cell.item?).map fun e => e.2.value)

/-- `pg_redis_shared_hash_exists`. -/
def exists? (field : Field) (s : SharedHash) : Except SharedHashError Bool :=
  match s.table with
  | none => .ok false
  | some t =>
    if t.table.occupied = 0 then .ok false
    else match t.table.find (geometry hashBytes) field with
      | none => .error (.saturated t.table.size)
      | some (_, found) => .ok found

/-- The lazy shrink of `pg_redis_shared_hash_del`: a failed allocation leaves the
    table as it is. -/
def shrinkIfNeeded (ok : AllocSite → Bool) (t : SharedTable) (s : SharedHash) :
    SharedHash × Except SharedHashError Bool :=
  if shouldShrink t.table.occupied t.table.size then
    match rehashTable hashBytes (ok .shrink) t (t.table.size / 2) s.dsa with
    | .error e => (⟨s.dsa.palloc.2, s.table⟩, .error e)
    | .ok none => (s, .ok true)
    | .ok (some (t', d)) => (⟨d, some t'⟩, .ok true)
  else (s, .ok true)

/-- `pg_redis_shared_hash_del`. -/
def del (ok : AllocSite → Bool) (field : Field) (s : SharedHash) :
    SharedHash × Except SharedHashError Bool :=
  match s.table with
  | none => (s, .ok false)
  | some t =>
    if t.table.occupied = 0 then (s, .ok false)
    else match t.table.find (geometry hashBytes) field with
      | none => (s, .error (.saturated t.table.size))
      | some (_, false) => (s, .ok false)
      | some (i, true) => match t.table.cells[i]?.bind Cell.item? with
        | none => (s, .ok false)
        | some (_, o) =>
          let t' : SharedTable := ⟨t.dsa, t.table.bury i⟩
          shrinkIfNeeded hashBytes ok t'
            ⟨(s.dsa.pfree (some o.fieldDsa)).pfree o.valueDsa, some t'⟩

end

/-- `pg_redis_shared_hash_count`. -/
def count (s : SharedHash) : ℕ :=
  match s.table with
  | none => 0
  | some t => t.table.occupied

/-- The body of the loop of `pg_redis_shared_hash_materialize`, at an occupied
    bucket. -/
def materializeStep (h : Hash) (e : Field × Owned) : Hash :=
  if e.1.length > maxFieldSize then h else (h.set (cstr e.1) e.2.value).1

/-- `pg_redis_shared_hash_materialize` of a table pointer: `none` for `NULL`. -/
def materializeTable : Option SharedTable → Option Hash
  | none => none
  | some t => if t.table.occupied = 0 then none
    else some (t.table.entries.foldl materializeStep Hash.create)

/-- `pg_redis_shared_hash_materialize`. -/
def materialize (s : SharedHash) : Option Hash := materializeTable s.table

end SharedHash

end PgRedis
