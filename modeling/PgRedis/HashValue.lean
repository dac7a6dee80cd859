import PgRedis.Lib.Htab
import PgRedis.Durable

/-!
# Hashes of the backend

The in-memory hash of `hash_value.c`: a table of fields, each with its value and
whether it changed since the last flush, and the tombstones of the fields deleted
since. The callers have checked the length of a field, so that the error of
`pg_redis_hash_set` for an oversize field is never met.
-/

namespace PgRedis

open Lib

/-- `PG_REDIS_MAX_FIELD_SIZE`. -/
def maxFieldSize : ℕ := 1024

/-- The length of a byte string as a `Size`. -/
def byteSize (b : Bytes) : UInt64 := UInt64.ofNat b.length

/-- The bytes of a C string: up to the first NUL. -/
def cstr (b : Bytes) : Bytes := b.takeWhile (· ≠ 0)

/-- The size of a `PgRedisHashField`. -/
def sizeofHashField : UInt64 := 1056

/-- `PgRedisHashField` under its field name. -/
structure HashField where
  value : Bytes
  dirty : Bool
  deriving DecidableEq, Repr

/-- `PgRedisHash`. -/
structure Hash where
  fields : Htab Field HashField
  fieldCount : ℤ
  memoryUsage : UInt64
  tombstones : List Field

namespace Hash

/-- `pg_redis_hash_create`. -/
def create : Hash := ⟨∅, 0, 0, []⟩

/-- `pg_redis_hash_set`: the hash, and whether the field is new. -/
def set (h : Hash) (field : Field) (value : Bytes) : Hash × Bool :=
  match h.fields.lookup field with
  | some f =>
    ({ h with
      fields := h.fields.insert field ⟨value, true⟩
      memoryUsage := h.memoryUsage - byteSize f.value + byteSize value }, false)
  | none =>
    ({ h with
      fields := h.fields.insert field ⟨value, true⟩
      fieldCount := h.fieldCount + 1
      memoryUsage := h.memoryUsage + sizeofHashField + byteSize value }, true)

/-- `pg_redis_hash_get`. -/
def get (h : Hash) (field : Field) : Option Bytes :=
  if maxFieldSize < field.length then none else (h.fields.lookup field).map HashField.value

/-- `pg_redis_hash_exists`. -/
def exists? (h : Hash) (field : Field) : Bool := (h.get field).isSome

/-- `pg_redis_hash_del`: the hash, and whether the field was there. -/
def del (h : Hash) (field : Field) : Hash × Bool :=
  if maxFieldSize < field.length then (h, false)
  else match h.fields.lookup field with
    | none => (h, false)
    | some f =>
      let usage := if h.memoryUsage ≥ byteSize f.value then h.memoryUsage - byteSize f.value
        else h.memoryUsage
      ({ fields := h.fields.erase field
         fieldCount := if 0 < h.fieldCount then h.fieldCount - 1 else h.fieldCount
         memoryUsage := if usage ≥ sizeofHashField then usage - sizeofHashField else usage
         tombstones := field :: h.tombstones }, true)

@[simp] theorem fields_create : create.fields = ∅ := rfl

theorem fields_set (h : Hash) (field : Field) (value : Bytes) :
    (h.set field value).1.fields = h.fields.insert field ⟨value, true⟩ := by
  rw [set]
  split <;> rfl

theorem tombstones_set (h : Hash) (field : Field) (value : Bytes) :
    (h.set field value).1.tombstones = h.tombstones := by
  rw [set]
  split <;> rfl

theorem del_snd (h : Hash) (field : Field) : (h.del field).2 =
    (decide (field.length ≤ maxFieldSize) && (h.fields.lookup field).isSome) := by
  rw [del]
  by_cases hlen : maxFieldSize < field.length
  · simp [hlen, Nat.not_le.2 hlen]
  · rw [if_neg hlen]
    cases hl : h.fields.lookup field with
    | none => simp
    | some f => simp [Nat.not_lt.1 hlen]

theorem del_eq_self {h : Hash} {field : Field} (hdel : (h.del field).2 = false) :
    (h.del field).1 = h := by
  rw [del] at hdel ⊢
  by_cases hlen : maxFieldSize < field.length
  · rw [if_pos hlen]
  · rw [if_neg hlen] at hdel ⊢
    cases hl : h.fields.lookup field with
    | none => rfl
    | some f => simp [hl] at hdel

theorem fields_tombstones_del {h : Hash} {field : Field} (hdel : (h.del field).2 = true) :
    (h.del field).1.fields = h.fields.erase field ∧
      (h.del field).1.tombstones = field :: h.tombstones := by
  rw [del] at hdel ⊢
  by_cases hlen : maxFieldSize < field.length
  · simp [hlen] at hdel
  · rw [if_neg hlen] at hdel ⊢
    cases hl : h.fields.lookup field with
    | none => simp [hl] at hdel
    | some f => exact ⟨rfl, rfl⟩

end Hash

end PgRedis
