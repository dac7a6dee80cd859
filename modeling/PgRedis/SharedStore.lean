import PgRedis.SharedHash.Map
import PgRedis.SharedList
import PgRedis.Session.Flush

/-!
# The shared keyspace

The keyspace of `shared_store.c`, a table of entries in shared memory. A command does
not work on an entry in place: under the lock of the key it copies the entry into a
scratch entry of the backend (`SharedEntry.materialize`), changes the copy, and under
the lock again writes the copy back (`SharedStore.writeback`). Writing back rebuilds
the value in shared memory, but for a hash that was a hash before: there only the
fields marked dirty and the tombstones of the copy are applied.

Each function on an entry is given as what it does to the place of the entry while the
lock is held (`SharedStore.locked`). An oracle says of every allocation whether it
succeeds.
-/

namespace PgRedis

open Lib

/-- The value of a `PgRedisSharedEntry`: the union as its type says it is to be read. -/
inductive SharedValue
  | str (valueDsa : Option ℕ) (value : Bytes)
  | int (i : ℤ)
  | hash (table : Option SharedTable) (fieldCount : ℤ)
  | list (l : SharedList)

/-- `PgRedisSharedEntry` under its key. -/
structure SharedEntry where
  value : SharedValue
  expireAt : Option ℤ
  version : UInt64

/-- The shared memory area and the shared HTAB. -/
structure SharedStore where
  dsa : Dsa
  entries : Htab Key SharedEntry

/-- The allocations of a writeback: the string, those of the calls of
    `pg_redis_shared_hash_set` and `_del` in turn, and those of the nodes in turn. -/
inductive StoreSite
  | string
  | set (call : ℕ) (site : AllocSite)
  | del (call : ℕ) (site : AllocSite)
  | push (call : ℕ) (site : NodeSite)
  deriving DecidableEq, Repr

/-- No allocation fails. -/
def enough : StoreSite → Bool := fun _ => true

theorem enough_eq (site : StoreSite) : enough site = true := rfl

/-- The errors a writeback raises. -/
inductive SharedError
  | outOfMemorySet
  | outOfMemoryRpush
  | hash (err : SharedHashError)
  deriving DecidableEq, Repr

namespace SharedValue

/-- The type of the entry. -/
def type : SharedValue → ValueType
  | .str _ _ => .string
  | .int _ => .int
  | .hash _ _ => .hash
  | .list _ => .list

/-- A type over a union without payloads. -/
def empty : ValueType → SharedValue
  | .string => .str none []
  | .int => .int 0
  | .hash => .hash none 0
  | .list => .list .empty

/-- `pg_redis_shared_hash_free`. -/
def freeTable (table : Option SharedTable) (d : Dsa) : Dsa :=
  match table with
  | none => d
  | some t => (t.table.entries.foldl
      (fun d e => (d.pfree (some e.2.fieldDsa)).pfree e.2.valueDsa) d).pfree (some t.dsa)

/-- `pg_redis_shared_entry_release_payloads`: the memory; the value is then empty. -/
def release (d : Dsa) : SharedValue → Dsa
  | .str p _ => d.pfree p
  | .int _ => d
  | .hash table _ => freeTable table d
  | .list l => l.free d

/-- What `materialize_scratch` puts into the union of the copy. -/
def payload : SharedValue → Payload
  | .str _ s => if s = [] then .null else .str s
  | .int i => .word i
  | .hash table _ => match SharedHash.materializeTable table with
    | none => .null
    | some h => .hash h
  | .list l => match l.materialize with
    | none => .null
    | some a => .list a

section

variable (hashBytes : Bytes → UInt32)

/-- The loop that sets fields of a shared hash, counting those that are new. -/
def setAll (ok : ℕ → AllocSite → Bool) : List (Field × Bytes) → SharedHash → ℤ →
    SharedHash × ℤ × Except SharedHashError Unit
  | [], s, count => (s, count, .ok ())
  | (f, v) :: fs, s, count => match SharedHash.set hashBytes (ok 0) f v s with
    | (s, .error err) => (s, count, .error err)
    | (s, .ok isNew) => setAll (fun i => ok (i + 1)) fs s (if isNew then count + 1 else count)

/-- The loop that deletes fields of a shared hash. -/
def delAll (ok : ℕ → AllocSite → Bool) : List Field → SharedHash → ℤ →
    SharedHash × ℤ × Except SharedHashError Unit
  | [], s, count => (s, count, .ok ())
  | f :: fs, s, count => match SharedHash.del hashBytes (ok 0) f s with
    | (s, .error err) => (s, count, .error err)
    | (s, .ok found) => delAll (fun i => ok (i + 1)) fs s (if found then count - 1 else count)

/-- The hash case of `populate_shared_from_scratch`. -/
def populateHash (ok : StoreSite → Bool) (h : Hash) (d : Dsa) :
    Dsa × SharedValue × Except SharedError Unit :=
  match setAll hashBytes (fun i site => ok (.set i site))
      (h.fields.toList.map fun f => (f.1, f.2.value)) ⟨d, none⟩ 0 with
  | (s, count, .ok ()) => (s.dsa, .hash s.table count, .ok ())
  | (s, _, .error err) => (freeTable s.table s.dsa, .empty .hash, .error (.hash err))

/-- `populate_shared_from_scratch` on an entry without payloads: what it holds then. -/
def populate (ok : StoreSite → Bool) (e : Entry) (d : Dsa) :
    Dsa × SharedValue × Except SharedError Unit :=
  match e.type, e.value with
  | .string, .str s =>
    if s.length > 0 ∧ ok .string = false then (d, .empty .string, .error .outOfMemorySet)
    else ((SharedHash.allocValue s d).2, .str (SharedHash.allocValue s d).1 s, .ok ())
  | .int, .word i => (d, .int i, .ok ())
  | .hash, .hash h => populateHash hashBytes ok h d
  | .list, .list l =>
    match SharedList.pushAll (fun i site => ok (.push i site)) (l.nodes.map ListNode.value)
        .empty d with
    | (d, none) => (d, .empty .list, .error .outOfMemoryRpush)
    | (d, some l) => (d, .list l, .ok ())
  -- A null pointer.
  | t, _ => (d, .empty t, .ok ())

/-- The table an entry points to when an error leaves `surgical_apply_hash`: it keeps its
    pointer `old`, to a chunk whose content may have become that of `new`. -/
def keepPointer (old new : Option SharedTable) : Option SharedTable :=
  match old, new with
  | some t, some t' => if t.dsa = t'.dsa then some t' else some t
  | old, _ => old

/-- `surgical_apply_hash`. -/
def surgicalApplyHash (ok : StoreSite → Bool) (table : Option SharedTable) (count : ℤ) (e : Entry)
    (d : Dsa) : Dsa × SharedValue × Except SharedError Unit :=
  match setAll hashBytes (fun i site => ok (.set i site)) e.dirtyFields ⟨d, table⟩ count with
  | (s, _, .error err) => (s.dsa, .hash (keepPointer table s.table) count, .error (.hash err))
  | (s, count', .ok ()) =>
    match delAll hashBytes (fun i site => ok (.del i site)) e.tombstones s count' with
    | (s, _, .error err) => (s.dsa, .hash (keepPointer table s.table) count, .error (.hash err))
    | (s, count', .ok ()) => (s.dsa, .hash s.table count', .ok ())

end

end SharedValue

namespace SharedEntry

/-- The entry `pg_redis_shared_store_upsert` makes. -/
def fresh : SharedEntry := ⟨.empty .string, none, 1⟩

/-- Whether the expiry of the entry has passed. -/
def isExpired (se : SharedEntry) (now : ℤ) : Bool :=
  match se.expireAt with
  | none => false
  | some t => now ≥ t

/-- `materialize_scratch`. -/
def materialize (se : SharedEntry) : Entry :=
  ⟨se.value.type, se.value.payload, se.expireAt, se.version, false⟩

/-- The entry `pg_redis_shared_store_upsert` leaves, and whether it is new. -/
def upserted (now : ℤ) : Option SharedEntry → SharedEntry × Bool
  | none => (fresh, true)
  | some se => if se.isExpired now then (fresh, true) else (se, false)

/-- The section of `pg_redis_shared_store_upsert` under the lock: the copy, and whether
    the entry is new. -/
def upsert (now : ℤ) (d : Dsa) (o : Option SharedEntry) :
    Dsa × Option SharedEntry × Entry × Bool :=
  let d := match o with
    | none => d
    | some se => if se.isExpired now then se.value.release d else d
  let x := upserted now o
  (d, some x.1, x.1.materialize, x.2)

/-- An entry given a value, with the expiry and the version of the copy. -/
def overwrite (e : Entry) (x : Dsa × SharedValue × Except SharedError Unit) :
    Dsa × Option SharedEntry × Except SharedError Unit :=
  (x.1, some ⟨x.2.1, e.expireAt, e.version⟩, x.2.2)

/-- The section of `pg_redis_shared_store_writeback` under the lock. -/
def writeback (hashBytes : Bytes → UInt32) (ok : StoreSite → Bool) (e : Entry) (d : Dsa) :
    Option SharedEntry → Dsa × Option SharedEntry × Except SharedError Unit
  | none => overwrite e (SharedValue.populate hashBytes ok e d)
  | some se =>
    if se.value.type ≠ e.type then
      overwrite e (SharedValue.populate hashBytes ok e (se.value.release d))
    else match se.value with
      | .hash table count =>
        overwrite e (SharedValue.surgicalApplyHash hashBytes ok table count e d)
      | v => overwrite e (SharedValue.populate hashBytes ok e (v.release d))

/-- The section of `pg_redis_shared_store_remove` under the lock. -/
def remove (d : Dsa) : Option SharedEntry → Dsa × Option SharedEntry × Bool
  | none => (d, none, false)
  | some se => (se.value.release d, none, true)

end SharedEntry

namespace SharedStore

/-- A section under the partition lock of `key`, given by what it does to the memory and
    to the entry of the key. -/
def locked {α : Type} (key : Key) (f : Dsa → Option SharedEntry → Dsa × Option SharedEntry × α)
    (S : SharedStore) : SharedStore × α :=
  match f S.dsa (S.entries.lookup key) with
  | (d, none, a) => (⟨d, S.entries.erase key⟩, a)
  | (d, some se, a) => (⟨d, S.entries.insert key se⟩, a)

/-- `pg_redis_shared_store_lookup_raw`. -/
def lookupRaw (key : Key) (S : SharedStore) : Option Entry :=
  (S.entries.lookup key).map SharedEntry.materialize

/-- `pg_redis_shared_store_upsert`: the keyspace, the copy of the entry, and whether the
    entry is new. -/
def upsert (now : ℤ) (key : Key) (S : SharedStore) : SharedStore × Entry × Bool :=
  S.locked key (SharedEntry.upsert now)

/-- `pg_redis_shared_store_remove`: the keyspace, and whether the key was there. -/
def remove (key : Key) (S : SharedStore) : SharedStore × Bool := S.locked key SharedEntry.remove

/-- `pg_redis_store_lookup` in shared mode: an expired entry is removed. -/
def lookup (now : ℤ) (key : Key) (S : SharedStore) : SharedStore × Option Entry :=
  match S.lookupRaw key with
  | none => (S, none)
  | some e => if e.isExpired now then ((S.remove key).1, none) else (S, some e)

/-- `pg_redis_shared_store_writeback` of the copy of the entry of `key`. -/
def writeback (hashBytes : Bytes → UInt32) (ok : StoreSite → Bool) (key : Key) (e : Entry)
    (S : SharedStore) : SharedStore × Except SharedError Unit :=
  S.locked key (SharedEntry.writeback hashBytes ok e)

/-! ## The place of an entry -/

variable {S : SharedStore} {key k : Key} {now : ℤ} {hashBytes : Bytes → UInt32}
  {ok : StoreSite → Bool}

theorem lookup_locked {α : Type} (f : Dsa → Option SharedEntry → Dsa × Option SharedEntry × α) :
    (S.locked key f).1.entries.lookup k =
      if k = key then (f S.dsa (S.entries.lookup key)).2.1 else S.entries.lookup k := by
  rw [locked]
  obtain ⟨d, _ | se, a⟩ := f S.dsa (S.entries.lookup key)
  · exact Htab.lookup_erase_eq _ _ _
  · exact Htab.lookup_insert_eq _ _ _ _

theorem locked_snd {α : Type} (f : Dsa → Option SharedEntry → Dsa × Option SharedEntry × α) :
    (S.locked key f).2 = (f S.dsa (S.entries.lookup key)).2.2 := by
  rw [locked]
  obtain ⟨d, _ | se, a⟩ := f S.dsa (S.entries.lookup key) <;> rfl

/-- A new entry is fresh. -/
theorem upserted_new {o : Option SharedEntry} (h : (SharedEntry.upserted now o).2 = true) :
    (SharedEntry.upserted now o).1 = .fresh := by
  cases o with
  | none => rfl
  | some se =>
    rw [SharedEntry.upserted] at h ⊢
    split_ifs at h ⊢
    rfl

theorem lookup_upsert : (S.upsert now key).1.entries.lookup k =
    if k = key then some (SharedEntry.upserted now (S.entries.lookup key)).1
    else S.entries.lookup k :=
  lookup_locked _

theorem upsert_snd : (S.upsert now key).2 =
    ((SharedEntry.upserted now (S.entries.lookup key)).1.materialize,
      (SharedEntry.upserted now (S.entries.lookup key)).2) :=
  locked_snd _

theorem lookup_remove : (S.remove key).1.entries.lookup k =
    if k = key then none else S.entries.lookup k := by
  rw [remove, lookup_locked]
  cases S.entries.lookup key <;> rfl

theorem lookup_writeback (e : Entry) : (S.writeback hashBytes ok key e).1.entries.lookup k =
    if k = key then (SharedEntry.writeback hashBytes ok e S.dsa (S.entries.lookup key)).2.1
    else S.entries.lookup k :=
  lookup_locked _

theorem writeback_snd (e : Entry) : (S.writeback hashBytes ok key e).2 =
    (SharedEntry.writeback hashBytes ok e S.dsa (S.entries.lookup key)).2.2 :=
  locked_snd _

end SharedStore

/-! ## What is written back -/

section

variable {hashBytes : Bytes → UInt32} {ok : StoreSite → Bool} {e : Entry} {d : Dsa}
  {o : Option SharedEntry}

/-- Fields set one after the other. -/
def setFields (fs : List (Field × Bytes)) (m : Finmap fun _ : Field => Bytes) :
    Finmap fun _ : Field => Bytes :=
  fs.foldl (fun m f => m.insert f.1 f.2) m

/-- The loop sets the fields in turn, up to one whose value is too long or for which there is
    no memory, and counts those that are new. -/
theorem SharedValue.setAll_prefix (ok : ℕ → AllocSite → Bool) (fs : List (Field × Bytes))
    {s : SharedHash} {m : Finmap fun _ : Field => Bytes} (count : ℤ)
    (h : SharedHash.Holds hashBytes s m) :
    ∃ pre suf s' count' r, fs = pre ++ suf ∧ setAll hashBytes ok fs s count = (s', count', r) ∧
      SharedHash.Holds hashBytes s' (setFields pre m) ∧ (∀ f ∈ pre, f.2.length ≤ uint16Max) ∧
      count' - (setFields pre m).keys.card = count - m.keys.card ∧
      (suf = [] ∧ r = .ok () ∨ ∃ f rest err, suf = f :: rest ∧ r = .error err ∧
        (uint16Max < f.2.length ∨ ∃ site, ok pre.length site = false)) := by
  induction fs generalizing ok s m count with
  | nil => exact ⟨[], [], s, count, .ok (), rfl, rfl, h, by simp, rfl, .inl ⟨rfl, rfl⟩⟩
  | cons f fs ih =>
    obtain ⟨f, v⟩ := f
    rcases SharedHash.set_cases h (ok 0) f v with ⟨s₁, hx, h₁⟩ | ⟨s₁, err, hx, h₁, hwhy⟩
    · have hlen : v.length ≤ uint16Max := SharedHash.length_of_set (by rw [hx])
      obtain ⟨pre, suf, s', count', r, rfl, heq, h', hpre, hcount, hend⟩ :=
        ih (fun i => ok (i + 1)) (if decide (f ∉ m) = true then count + 1 else count) h₁
      refine ⟨(f, v) :: pre, suf, s', count', r, rfl, ?_, h', ?_, hcount.trans ?_, hend⟩
      · rw [setAll, hx]
        exact heq
      · exact List.forall_mem_cons.2 ⟨hlen, hpre⟩
      · rw [SharedHash.keys_insert]
        by_cases hmem : f ∈ m
        · rw [Finset.insert_eq_of_mem (Finmap.mem_keys.2 hmem)]
          simp [hmem]
        · rw [Finset.card_insert_of_notMem (mt Finmap.mem_keys.1 hmem)]
          simp [hmem]
    · refine ⟨[], (f, v) :: fs, s₁, count, .error err, rfl, ?_, h₁, by simp, rfl,
        .inr ⟨_, _, _, rfl, rfl, hwhy.imp_left And.right⟩⟩
      rw [setAll, hx]

/-- With enough memory, the loop sets all fields, unless one has too long a value. -/
theorem SharedValue.setAll_spec {ok : ℕ → AllocSite → Bool} (hok : ∀ i site, ok i site = true)
    {fs : List (Field × Bytes)} {s : SharedHash} {m : Finmap fun _ : Field => Bytes} (count : ℤ)
    (h : SharedHash.Holds hashBytes s m) :
    (∃ s' count', setAll hashBytes ok fs s count = (s', count', .ok ()) ∧
      SharedHash.Holds hashBytes s' (setFields fs m) ∧ ∀ f ∈ fs, f.2.length ≤ uint16Max) ∨
    ∃ s' count' err, setAll hashBytes ok fs s count = (s', count', .error err) ∧
      ∃ f ∈ fs, uint16Max < f.2.length := by
  obtain ⟨pre, suf, s', count', r, rfl, heq, h', hpre, -, ⟨rfl, rfl⟩ |
    ⟨f, rest, err, rfl, rfl, hlong | ⟨site, hfail⟩⟩⟩ := setAll_prefix ok fs count h
  · rw [List.append_nil] at heq ⊢
    exact .inl ⟨s', count', heq, h', hpre⟩
  · exact .inr ⟨s', count', err, heq, f, by simp, hlong⟩
  · rw [hok] at hfail
    exact absurd hfail (by decide)

/-- But for a hash that was one before, the value is built anew. -/
theorem SharedEntry.writeback_eq_populate
    (h : ∀ se, o = some se → se.value.type ≠ e.type ∨ e.type ≠ .hash) :
    ∃ d', writeback hashBytes ok e d o = overwrite e (SharedValue.populate hashBytes ok e d') := by
  cases o with
  | none => exact ⟨d, rfl⟩
  | some se =>
    refine ⟨se.value.release d, ?_⟩
    rw [writeback]
    split_ifs with hne
    · rfl
    · rw [not_not] at hne
      have hhash := (h se rfl).resolve_left (not_not.2 hne)
      rw [← hne] at hhash
      cases hv : se.value with
      | hash table count => simp [hv, SharedValue.type] at hhash
      | _ => rfl

/-- A hash written back over one, with nothing marked: only the expiry and the version
    are taken from the copy. -/
theorem SharedEntry.writeback_of_clean {se : SharedEntry} {table : Option SharedTable} {count : ℤ}
    (hse : se.value = .hash table count) (he : e.type = .hash) (hdirty : e.dirtyFields = [])
    (htomb : e.tombstones = []) : writeback hashBytes ok e d (some se) =
      (d, some ⟨.hash table count, e.expireAt, e.version⟩, .ok ()) := by
  rw [writeback, hse, he, if_neg (by simp [SharedValue.type])]
  simp [SharedValue.surgicalApplyHash, hdirty, htomb, SharedValue.setAll, SharedValue.delAll,
    overwrite]

variable (hok : ∀ site, ok site = true)

include hok

/-- A list written back. -/
theorem SharedEntry.writeback_list {a : ListValue} (ht : e.type = .list) (hv : e.value = .list a)
    (hashBytes : Bytes → UInt32) (d : Dsa) (o : Option SharedEntry) :
    ∃ d' l, writeback hashBytes ok e d o = (d', some ⟨.list l, e.expireAt, e.version⟩, .ok ()) ∧
      l.Numbered ∧ l.values = a.nodes.map fun n => clip n.value := by
  obtain ⟨d', h⟩ : ∃ d', writeback hashBytes ok e d o = _ :=
    writeback_eq_populate fun se _ => .inr (by simp [ht])
  obtain ⟨d'', l, hl, hnum, hvals⟩ := SharedList.numbered_empty.pushAll
    (fun i site => hok (.push i site)) (a.nodes.map ListNode.value) (d := d')
  refine ⟨d'', l, ?_, hnum, ?_⟩
  · rw [h, SharedValue.populate, ht, hv]
    simp only [hl, overwrite]
  · rw [hvals, List.map_map]
    rfl

/-- A hash written back over no hash. -/
theorem SharedEntry.writeback_hash {h : Hash} (ht : e.type = .hash) (hv : e.value = .hash h)
    (ho : ∀ se, o = some se → se.value.type ≠ .hash) (hashBytes : Bytes → UInt32) (d : Dsa) :
    (∃ d' table count, writeback hashBytes ok e d o =
        (d', some ⟨.hash table count, e.expireAt, e.version⟩, .ok ()) ∧
      (∀ d, SharedHash.Holds hashBytes ⟨d, table⟩
        (setFields (h.fields.toList.map fun f => (f.1, f.2.value)) ∅)) ∧
      ∀ f ∈ h.fields.toList, f.2.value.length ≤ uint16Max) ∨
    (∃ err, (writeback hashBytes ok e d o).2.2 = .error err) ∧
      ∃ f ∈ h.fields.toList, uint16Max < f.2.value.length := by
  obtain ⟨d', hw⟩ : ∃ d', writeback hashBytes ok e d o = _ :=
    writeback_eq_populate fun se hse => .inl (ht ▸ ho se hse)
  have hpop : SharedValue.populate hashBytes ok e d' =
      SharedValue.populateHash hashBytes ok h d' := by
    rw [SharedValue.populate, ht, hv]
  have hstart : SharedHash.Holds hashBytes ⟨d', none⟩ ∅ := rfl
  rw [hw, hpop, SharedValue.populateHash]
  rcases SharedValue.setAll_spec (fun i site => hok (.set i site)) 0 hstart with
    ⟨s, count, heq, hs, hall⟩ | ⟨s, count, err, heq, f, hf, hlong⟩ <;> rw [heq]
  · refine .inl ⟨_, _, _, rfl, fun _ => hs, fun f hf => hall (f.1, f.2.value) ?_⟩
    exact List.mem_map.2 ⟨f, hf, rfl⟩
  · obtain ⟨g, hg, rfl⟩ := List.mem_map.1 hf
    exact .inr ⟨⟨_, rfl⟩, g, hg, hlong⟩

/-- The value is a copy of the string or the integer of the entry. -/
def SharedValue.IsCopy (e : Entry) (v : SharedValue) : Prop :=
  match e.type, e.value with
  | .string, .str s => ∃ p, v = .str p s
  | .int, .word i => v = .int i
  | t, _ => v = .empty t

/-- A string or an integer written back. -/
theorem SharedEntry.writeback_scalar (ht : e.type = .string ∨ e.type = .int)
    (hashBytes : Bytes → UInt32) (d : Dsa) (o : Option SharedEntry) :
    ∃ d' v, writeback hashBytes ok e d o = (d', some ⟨v, e.expireAt, e.version⟩, .ok ()) ∧
      v.IsCopy e := by
  obtain ⟨d', hw⟩ : ∃ d', writeback hashBytes ok e d o = _ :=
    writeback_eq_populate fun se _ => .inr (by rcases ht with h | h <;> simp [h])
  rw [hw, SharedValue.populate]
  obtain ⟨t, v, x, n, b⟩ := e
  rcases ht with rfl | rfl <;> cases v <;> simp [hok, overwrite, SharedValue.IsCopy]

/-- With enough memory, only the fields of a hash can fail to be written. -/
theorem SharedEntry.writeback_ok (ht : e.type ≠ .hash) (hashBytes : Bytes → UInt32) (d : Dsa)
    (o : Option SharedEntry) : (writeback hashBytes ok e d o).2.2 = .ok () := by
  cases htype : e.type with
  | hash => exact absurd htype ht
  | string =>
    obtain ⟨d', v, heq, -⟩ := writeback_scalar hok (.inl htype) hashBytes d o
    rw [heq]
  | int =>
    obtain ⟨d', v, heq, -⟩ := writeback_scalar hok (.inr htype) hashBytes d o
    rw [heq]
  | list =>
    cases hvalue : e.value with
    | list a =>
      obtain ⟨d', l, heq, -⟩ := writeback_list hok htype hvalue hashBytes d o
      rw [heq]
    | _ =>
      obtain ⟨d', heq⟩ : ∃ d', writeback hashBytes ok e d o = _ :=
        writeback_eq_populate fun _ _ => .inr ht
      rw [heq, SharedValue.populate, htype, hvalue]
      rfl

end

end PgRedis
