import PgRedis.SharedStore.Command

/-!
# All commands in shared mode

The commands of `pg_redis.c` and `ttl.c` when `storage_mode` is `shared`. Those on strings,
integers and lists run as in `PgRedis.SharedStore.Command`, through a copy that is written
back. `HSET` and `HDEL` change the hash in shared memory in one locked section and publish
their events in it; `HGET` and `HEXISTS` read the field there, and go through a copy only if
the entry has expired. A removal publishes nothing.

`EXPIRE` with a positive number of seconds sets the expiry of one copy and writes back
another: it changes nothing but what a writeback changes.
-/

namespace PgRedis

open Lib

namespace SharedEntry

/-- The entry `pg_redis_shared_hash_set_atomic` makes for a missing key or in the place of
    an expired entry. -/
def freshHash : SharedEntry := ⟨.empty .hash, none, 0⟩

/-- `fill_event_entry`. -/
def stub (se : SharedEntry) : Entry := ⟨se.value.type, .null, se.expireAt, se.version, false⟩

/-- The entry `pg_redis_shared_hash_set_atomic` works on. -/
def opened (now : ℤ) : Option SharedEntry → SharedEntry
  | none => freshHash
  | some se => if se.isExpired now then freshHash else se

/-- The memory once the payloads of an expired entry are released. -/
def releaseExpired (now : ℤ) (d : Dsa) : Option SharedEntry → Dsa
  | none => d
  | some se => if se.isExpired now then se.value.release d else d

/-- The error `pg_redis_wrongtype` for a command on hashes. -/
def notHash (key : Key) (t : ValueType) : Except SharedCommandError Reply :=
  .error (.command (.entry key (.wrongType t .hash)))

section

variable (hashBytes : Bytes → UInt32) (ok : AllocSite → Bool)

/-- The locked section of `pg_redis_shared_hash_set_atomic`, with room in the ring: the
    events, and whether the field is new. An error leaves the entry it made. -/
def setAtomic (now : ℤ) (key : Key) (field : Field) (value : Bytes) (d : Dsa)
    (o : Option SharedEntry) :
    Dsa × Option SharedEntry × List DirtyEvent × Except SharedCommandError Reply :=
  let se := opened now o
  match se.value with
  | .hash table count =>
    match SharedHash.set hashBytes ok field value ⟨releaseExpired now d o, table⟩ with
    | (s, .error err) => (s.dsa, some { se with value := .hash s.table count }, [],
        .error (.writeback (.hash err)))
    | (s, .ok isNew) =>
      let se' : SharedEntry := ⟨.hash s.table (if isNew then count + 1 else count), se.expireAt,
        se.version + 1⟩
      (s.dsa, some se', [se'.stub.upsertEvent key, .hashFieldUpsert key field (clip value)],
        .ok (.bool isNew))
  | v => (d, o, [], notHash key v.type)

/-- The locked section of `pg_redis_shared_hash_del_atomic`, with room in the ring. -/
def delAtomic (now : ℤ) (key : Key) (field : Field) (d : Dsa) :
    Option SharedEntry →
      Dsa × Option SharedEntry × List DirtyEvent × Except SharedCommandError Reply
  | none => (d, none, [], .ok (.bool false))
  | some se =>
    if se.isExpired now then (se.value.release d, none, [], .ok (.bool false))
    else match se.value with
      | .hash table count =>
        match SharedHash.del hashBytes ok field ⟨d, table⟩ with
        | (s, .error err) => (s.dsa, some { se with value := .hash s.table count }, [],
            .error (.writeback (.hash err)))
        | (s, .ok false) => (s.dsa, some { se with value := .hash s.table count }, [],
            .ok (.bool false))
        | (s, .ok true) => (s.dsa, some ⟨.hash s.table (count - 1), se.expireAt, se.version + 1⟩,
            [.hashFieldDelete key field], .ok (.bool true))
      | v => (d, some se, [], notHash key v.type)

end

/-- `PgRedisFastHashOutcome`. -/
inductive FastHash (α : Type)
  | keyMiss
  | keyExpired
  | wrongType (actual : ValueType)
  | field (a : Option α)

/-- `pg_redis_shared_hash_lookup_field`, given what is read of the table. -/
def lookupField {α : Type} (read : SharedHash → Except SharedHashError (Option α)) (now : ℤ)
    (d : Dsa) : Option SharedEntry → Except SharedHashError (FastHash α)
  | none => .ok .keyMiss
  | some se =>
    if se.isExpired now then .ok .keyExpired
    else match se.value with
      | .hash table _ => (read ⟨d, table⟩).map .field
      | v => .ok (.wrongType v.type)

end SharedEntry

/-- A reading of the hash of the entry found, with its reply for a null pointer. -/
def Entry.readHash (null : Reply) (f : Hash → Reply) (e : Entry) :
    Except EntryError (Option Entry × Reply) :=
  if e.type ≠ .hash then .error (.wrongType e.type .hash)
  else match e.value with
    | .hash h => .ok (none, f h)
    | _ => .ok (none, null)

namespace SharedStore

variable (hashBytes : Bytes → UInt32) (ok : StoreSite → Bool)

/-- `pg_redis_hset` in shared mode. -/
def hset (now : ℤ) (key : Key) (field : Field) (value : Bytes) (S : SharedStore) :
    SharedStore × List DirtyEvent × Except SharedCommandError Reply :=
  S.locked key (SharedEntry.setAtomic hashBytes (fun site => ok (.set 0 site)) now key field value)

/-- `pg_redis_hdel` in shared mode. -/
def hdel (now : ℤ) (key : Key) (field : Field) (S : SharedStore) :
    SharedStore × List DirtyEvent × Except SharedCommandError Reply :=
  S.locked key (SharedEntry.delAtomic hashBytes (fun site => ok (.del 0 site)) now key field)

/-- `pg_redis_hget` and `pg_redis_hexists` in shared mode, given what they read of the
    table, of a copy of the hash, and their replies. -/
def queryField {α : Type} (now now' : ℤ) (key : Key)
    (read : SharedHash → Except SharedHashError (Option α)) (reply : Option α → Reply)
    (slow : Hash → Reply) (S : SharedStore) :
    SharedStore × List DirtyEvent × Except SharedCommandError Reply :=
  match SharedEntry.lookupField read now S.dsa (S.entries.lookup key) with
  | .error err => (S, [], .error (.writeback (.hash err)))
  | .ok .keyMiss => (S, [], .ok (reply none))
  | .ok (.field a) => (S, [], .ok (reply a))
  | .ok (.wrongType t) => (S, [], SharedEntry.notHash key t)
  | .ok .keyExpired => S.query hashBytes ok now' key (reply none)
      (Entry.readHash (reply none) slow)

/-- `pg_redis_hget` in shared mode. -/
def hget (now now' : ℤ) (key : Key) (field : Field) :
    SharedStore → SharedStore × List DirtyEvent × Except SharedCommandError Reply :=
  queryField hashBytes ok now now' key (SharedHash.get hashBytes field) .text
    fun h => .text (h.get field)

/-- `pg_redis_hexists` in shared mode. -/
def hexists (now now' : ℤ) (key : Key) (field : Field) :
    SharedStore → SharedStore × List DirtyEvent × Except SharedCommandError Reply :=
  queryField hashBytes ok now now' key
    (fun s => (SharedHash.exists? hashBytes field s).map fun b => if b then some () else none)
    (fun a => .bool a.isSome) fun h => .bool (h.exists? field)

/-- `pg_redis_expire` in shared mode. The expiry is set on a copy that is dropped; the copy
    written back is read anew. -/
def expire (now : ℤ) (key : Key) (seconds : ℤ) (S : SharedStore) :
    SharedStore × List DirtyEvent × Except SharedCommandError Reply :=
  match S.lookup now key with
  | (S, none) => (S, [], .ok (.bool false))
  | (S, some _) =>
    if seconds ≤ 0 then ((S.remove key).1, [], .ok (.bool true))
    else match S.lookupRaw key with
      | none => (S, [], .ok (.bool true))
      | some e => S.markDirty hashBytes ok key e (.bool true)

/-- `pg_redis_ttl` in shared mode. -/
def ttl (now now' : ℤ) (key : Key) (S : SharedStore) :
    SharedStore × List DirtyEvent × Except SharedCommandError Reply :=
  match S.lookup now key with
  | (S, none) => (S, [], .ok (.int (-2)))
  | (S, some e) => match e.expireAt with
    | none => (S, [], .ok (.int (-1)))
    | some t =>
      if now' ≥ t then ((S.remove key).1, [], .ok (.int (-2)))
      else (S, [], .ok (.int (Int.bmod ((t - now' + 999999) / 1000000) (2 ^ 32))))

/-- A command whose arguments have been checked. -/
def perform (now now' : ℤ) (S : SharedStore) :
    Command → SharedStore × List DirtyEvent × Except SharedCommandError Reply
  | .set key value => S.update hashBytes ok now key (Entry.set value)
  | .get key => S.query hashBytes ok now key (.text none) Entry.get
  | .del key => ((S.remove key).1, [], .ok (.bool (S.remove key).2))
  | .exists? key => S.query hashBytes ok now key (.bool false) fun _ => .ok (none, .bool true)
  | .expire key seconds => S.expire hashBytes ok now key seconds
  | .ttl key => S.ttl now now' key
  | .incr key => S.update hashBytes ok now key (Entry.incrdecr 1)
  | .decr key => S.update hashBytes ok now key (Entry.incrdecr (-1))
  | .hset key field value => S.hset hashBytes ok now key field value
  | .hget key field => S.hget hashBytes ok now now' key field
  | .hdel key field => S.hdel hashBytes ok now key field
  | .hexists key field => S.hexists hashBytes ok now now' key field
  | .push side key value => S.update hashBytes ok now key (Entry.listPush side value)
  | .pop side key => S.query hashBytes ok now key (.text none) (Entry.listPop side)
  | .llen key => S.query hashBytes ok now key (.int 0) Entry.llen

/-- A command at the clock readings `now` and `now'`: the keyspace, the events it publishes
    under `async_table`, and the reply. -/
def exec (lim : Limits) (now now' : ℤ) (c : Command) (S : SharedStore) :
    SharedStore × List DirtyEvent × Except SharedCommandError Reply :=
  match c.check lim with
  | .error err => (S, [], .error (.command err))
  | .ok () => S.perform hashBytes ok now now' c

end SharedStore

end PgRedis
