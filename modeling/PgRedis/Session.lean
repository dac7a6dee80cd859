import PgRedis.Tlv
import PgRedis.ListValue

/-!
# The keyspace of a backend

The session-mode keyspace of `kv_store.c`: a table of entries, the chain of
entries changed since the last flush, and the keys deleted since. A key whose
expiry has passed is evicted by the next lookup, and treated as new by the next
upsert.

The value of an entry is a C union: `Payload` is its content, with the null
pointer and the integer zero both the zero word. `string_len` is the length of
the string.
-/

namespace PgRedis

open Lib

/-- The content of the union `value` of a `PgRedisEntry`. -/
inductive Payload
  | word (i : ℤ)
  | str (s : Bytes)
  | hash (h : Hash)
  | list (l : ListValue)

/-- The null pointer. -/
def Payload.null : Payload := .word 0

/-- `PgRedisEntry` under its key. -/
structure Entry where
  type : ValueType
  value : Payload
  expireAt : Option ℤ
  version : UInt64
  inDirtySet : Bool

/-- The backend's keyspace: `PgRedisStore`, the chain from `dirty_head` (by key),
    `pending_deletes_head`, `persistence_loaded`, and whether the backend has crashed. -/
structure Session where
  store : Htab Key Entry
  dirty : List Key
  pendingDeletes : List Key
  loaded : Bool
  crashed : Bool

/-- `pg_redis_entry_is_expired`. -/
def Entry.isExpired (e : Entry) (now : ℤ) : Bool :=
  match e.expireAt with
  | none => false
  | some t => now ≥ t

/-- `pg_redis_entry_release_value`, keeping the other fields. -/
def Entry.releaseValue (e : Entry) : Entry := { e with type := .string, value := .null }

/-- The type says that the union holds a string, but it holds an integer other than the
    null pointer: `pg_redis_entry_release_value` calls `pfree` on it. -/
def Entry.wild (e : Entry) : Bool :=
  match e.type, e.value with
  | .string, .word i => i != 0
  | _, _ => false

/-- A value, as the type of its entry and the union together give it. -/
inductive Value
  | str (s : Option Bytes)
  | int (i : ℤ)
  | hash (h : Hash)
  | list (l : ListValue)

/-- The value of an entry; `none` if the union does not fit the type. -/
def Entry.content (e : Entry) : Option Value :=
  match e.type, e.value with
  | .string, .str s => some (.str (some s))
  | .string, .word 0 => some (.str none)
  | .int, .word i => some (.int i)
  | .hash, .hash h => some (.hash h)
  | .list, .list l => some (.list l)
  | _, _ => none

/-- No pointer is freed that is none, where the union fits the type. -/
theorem Entry.wild_of_content {e : Entry} (h : e.content.isSome) : e.wild = false := by
  rw [wild]
  split
  · rename_i i ht hv
    rw [content, ht, hv] at h
    by_cases hi : i = 0
    · simp [hi]
    · simp [hi] at h
  · rfl

/-- A fresh entry, as `pg_redis_store_upsert` makes it. -/
def Entry.fresh : Entry := ⟨.string, .null, none, 1, false⟩

namespace Session

/-- The empty keyspace of a new backend. -/
def init : Session := ⟨∅, [], [], false, false⟩

/-- Writing through the pointer to the entry of `key`. -/
def put (key : Key) (e : Entry) (s : Session) : Session :=
  { s with store := s.store.insert key e }

/-- `pg_redis_mark_dirty`. -/
def markDirty (key : Key) (s : Session) : Session :=
  match s.store.lookup key with
  | none => s
  | some e => if e.inDirtySet then s
    else { s.put key { e with inDirtySet := true } with dirty := key :: s.dirty }

/-- `pg_redis_mark_deleted`. -/
def markDeleted (key : Key) (s : Session) : Session :=
  if key = [] then s else { s with pendingDeletes := key :: s.pendingDeletes }

/-- `pg_redis_store_remove`: the keyspace, and whether the key was there. It frees the
    value of the entry. -/
def remove (key : Key) (s : Session) : Session × Bool :=
  match s.store.lookup key with
  | none => (s, false)
  | some e =>
    let s := if e.inDirtySet then { s with dirty := s.dirty.erase key } else s
    let s := s.markDeleted key
    ({ s with store := s.store.erase key, crashed := s.crashed || e.wild }, true)

/-- `pg_redis_store_lookup`, evicting an expired entry. -/
def lookup (now : ℤ) (key : Key) (s : Session) : Session × Option Entry :=
  match s.store.lookup key with
  | none => (s, none)
  | some e => if e.isExpired now then ((s.remove key).1, none) else (s, some e)

/-- `pg_redis_store_upsert`: the keyspace, the entry, and whether it is new. An
    expired entry is reset in place. -/
def upsert (now : ℤ) (key : Key) (s : Session) : Session × Entry × Bool :=
  match s.store.lookup key with
  | none => (s.put key .fresh, .fresh, true)
  | some e =>
    if e.isExpired now then
      let e' := { Entry.fresh with inDirtySet := e.inDirtySet }
      (s.put key e', e', true)
    else (s, e, false)

/-- Writing the entry of `key` back and marking it dirty. -/
def write (key : Key) (e : Entry) (s : Session) : Session := (s.put key e).markDirty key

/-- Every entry holds a value of its type. -/
def WellTyped (s : Session) : Prop :=
  ∀ k e, s.store.lookup k = some e → e.content.isSome

theorem wellTyped_init : init.WellTyped := fun _ _ h => absurd h (by simp [init])

section

variable (key : Key) (e : Entry) (s : Session)

@[simp] theorem lookup_put (k : Key) : (s.put key e).store.lookup k =
    if k = key then some e else s.store.lookup k :=
  Htab.lookup_insert_eq _ _ _ _

theorem lookup_put_self : (s.put key e).store.lookup key = some e :=
  (lookup_put key e s key).trans (if_pos rfl)

@[simp] theorem dirty_put : (s.put key e).dirty = s.dirty := rfl

@[simp] theorem pendingDeletes_put : (s.put key e).pendingDeletes = s.pendingDeletes := rfl

@[simp] theorem crashed_put : (s.put key e).crashed = s.crashed := rfl

@[simp] theorem lookup_write (k : Key) : (s.write key e).store.lookup k =
    if k = key then some { e with inDirtySet := true } else s.store.lookup k := by
  rw [write, markDirty]
  simp only [put, AList.lookup_insert]
  split_ifs with hd hk hk
  · rw [hk, AList.lookup_insert, ← hd]
  · exact AList.lookup_insert_ne hk
  · rw [hk, AList.lookup_insert]
  · rw [AList.lookup_insert_ne hk, AList.lookup_insert_ne hk]

@[simp] theorem dirty_write :
    (s.write key e).dirty = if e.inDirtySet then s.dirty else key :: s.dirty := by
  rw [write, markDirty]
  simp only [put, AList.lookup_insert]
  split_ifs <;> rfl

@[simp] theorem pendingDeletes_write : (s.write key e).pendingDeletes = s.pendingDeletes := by
  rw [write, markDirty]
  simp only [put, AList.lookup_insert]
  split_ifs <;> rfl

@[simp] theorem crashed_write : (s.write key e).crashed = s.crashed := by
  rw [write, markDirty]
  simp only [put, AList.lookup_insert]
  split_ifs <;> rfl

@[simp] theorem put_put (e' : Entry) : (s.put key e').put key e = s.put key e := by
  rw [put, put, put, AList.insert_insert]

/-- Writing an entry twice is writing it once. -/
theorem write_put (e' : Entry) : (s.put key e').write key e = s.write key e := by
  rw [write, write, put_put]

end

variable {key : Key} {e : Entry} {s : Session}

theorem remove_of_lookup (h : s.store.lookup key = some e) : (s.remove key).1 =
    { s with
      store := s.store.erase key
      dirty := if e.inDirtySet then s.dirty.erase key else s.dirty
      pendingDeletes := if key = [] then s.pendingDeletes else key :: s.pendingDeletes
      crashed := s.crashed || e.wild } := by
  rw [remove, h]
  by_cases hd : e.inDirtySet <;> by_cases hk : key = [] <;> simp [markDeleted, hd, hk]

theorem lookup_remove (key k : Key) (s : Session) : (s.remove key).1.store.lookup k =
    if k = key then none else s.store.lookup k := by
  cases h : s.store.lookup key with
  | none =>
    rw [remove, h]
    split_ifs with hk
    · rw [hk, h]
    · rfl
  | some e =>
    rw [remove_of_lookup h]
    exact Htab.lookup_erase_eq _ _ _

/-- What an upsert finds in the place of an entry, and whether it is new. -/
def upserted (now : ℤ) : Option Entry → Entry × Bool
  | none => (.fresh, true)
  | some e => if e.isExpired now then ({ Entry.fresh with inDirtySet := e.inDirtySet }, true)
    else (e, false)

theorem upsert_snd (now : ℤ) (key : Key) (s : Session) :
    (s.upsert now key).2 = upserted now (s.store.lookup key) := by
  rw [upsert]
  cases s.store.lookup key with
  | none => rfl
  | some e =>
    simp only [upserted]
    split_ifs <;> rfl

theorem lookup_upsert_self (now : ℤ) (key : Key) (s : Session) :
    (s.upsert now key).1.store.lookup key = some (upserted now (s.store.lookup key)).1 := by
  rw [upsert]
  cases hl : s.store.lookup key with
  | none =>
    rw [lookup_put, if_pos rfl]
    rfl
  | some e =>
    simp only [upserted]
    split_ifs
    · rw [lookup_put, if_pos rfl]
    · exact hl

/-- An upsert writes at most the entry of its key. -/
theorem put_upsert (now : ℤ) (key : Key) (e : Entry) (s : Session) :
    (s.upsert now key).1.put key e = s.put key e := by
  rw [upsert]
  cases s.store.lookup key with
  | none => exact put_put _ _ _ _
  | some e' =>
    simp only
    split_ifs
    · exact put_put _ _ _ _
    · rfl

theorem lookup_upsert_ne (now : ℤ) {key k : Key} (hk : k ≠ key) (s : Session) :
    (s.upsert now key).1.store.lookup k = s.store.lookup k := by
  have h := lookup_put key .fresh (s.upsert now key).1 k
  rwa [put_upsert, lookup_put, if_neg hk, if_neg hk, eq_comm] at h

@[simp] theorem crashed_upsert (now : ℤ) (key : Key) (s : Session) :
    (s.upsert now key).1.crashed = s.crashed := by
  rw [upsert]
  split
  · rfl
  · split_ifs <;> rfl

theorem crashed_remove_put (key : Key) (e : Entry) (s : Session) :
    ((s.put key e).remove key).1.crashed = (s.crashed || e.wild) := by
  rw [remove_of_lookup (lookup_put_self key e s), crashed_put]

theorem remove_of_lookup_none (h : s.store.lookup key = none) : s.remove key = (s, false) := by
  rw [remove, h]

end Session

end PgRedis
