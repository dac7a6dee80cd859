import PgRedis.Session

/-!
# The commands of a session

The SQL functions of `pg_redis.c` and `ttl.c` on the keyspace of a backend that
has loaded the tables. A command checks the lengths of its arguments, then either
upserts the entry of its key and edits it (`Session.update`), or looks the entry
up and reads or edits it (`Session.query`), or removes it. An edited entry is
marked dirty.

`Entry.set`, `Entry.hset` and so on are the parts of the commands that work on
the entry itself. `outcome_perform` says once what a command can do to the keyspace.
-/

namespace PgRedis

open Lib

/-- The reply of a command. -/
inductive Reply
  | bool (b : Bool)
  | int (i : ℤ)
  | text (t : Option Bytes)
  deriving DecidableEq, Repr

/-- The errors the entry of a key can give rise to. -/
inductive EntryError
  | wrongType (actual expected : ValueType)
  | notInteger
  deriving DecidableEq, Repr

/-- The errors a command can raise. -/
inductive CommandError
  | keyEmpty
  | keyTooLong (len max : ℕ)
  | fieldEmpty
  | fieldTooLong (len : ℕ)
  | valueTooLong (len max : ℕ)
  | entry (key : Key) (err : EntryError)
  deriving DecidableEq, Repr

/-! ## Checks of arguments -/

/-- `PG_REDIS_MAX_KEY_SIZE`. -/
def maxKeySize : ℕ := 1024

/-- The settings `pg_redis.max_key_size` and `pg_redis.max_value_size`. -/
structure Limits where
  maxKey : ℤ
  maxValue : ℤ

/-- `pg_redis_check_key_len`. -/
def checkKeyLen (lim : Limits) (key : Key) : Except CommandError Unit :=
  let max := if lim.maxKey ≤ 0 ∨ lim.maxKey > maxKeySize then maxKeySize else lim.maxKey.toNat
  if key.length = 0 then .error .keyEmpty
  else if key.length > max then .error (.keyTooLong key.length max)
  else .ok ()

/-- `pg_redis_check_field_len`. -/
def checkFieldLen (field : Field) : Except CommandError Unit :=
  if field.length = 0 then .error .fieldEmpty
  else if field.length > maxFieldSize then .error (.fieldTooLong field.length)
  else .ok ()

/-- `pg_redis_check_value_len`. -/
def checkValueLen (lim : Limits) (value : Bytes) : Except CommandError Unit :=
  if lim.maxValue ≤ 0 then .ok ()
  else if value.length > lim.maxValue.toNat then
    .error (.valueTooLong value.length lim.maxValue.toNat)
  else .ok ()

/-! ## Integers as text -/

/-- `isspace`. -/
def isSpace (c : UInt8) : Bool := c = 32 ∨ 9 ≤ c ∧ c ≤ 13

/-- `isdigit`. -/
def isDigit (c : UInt8) : Bool := 48 ≤ c ∧ c ≤ 57

/-- `pg_redis_parse_int64`: blanks, a sign and digits, and nothing else up to the
    end of the C string. -/
def parseInt64 (s : Bytes) : Option ℤ :=
  if s.length = 0 ∨ 32 ≤ s.length then none
  else
    let (neg, digits) := match (cstr s).dropWhile isSpace with
      | 45 :: r => (true, r)
      | 43 :: r => (false, r)
      | r => (false, r)
    if digits = [] ∨ ¬digits.all isDigit then none
    else
      let n : ℤ := digits.foldl (fun n d => 10 * n + (d.toNat - 48)) 0
      let v := if neg then -n else n
      if v < -2 ^ 63 ∨ 2 ^ 63 ≤ v then none else some v

/-- `pg_redis_format_int64`. -/
def formatInt64 (i : ℤ) : Bytes := (toString i).toList.map fun c => UInt8.ofNat c.toNat

/-! ## Commands on an entry -/

namespace Entry

/-- `pg_redis_set` on the upserted entry. -/
def set (value : Bytes) (isNew : Bool) (e : Entry) : Except EntryError (Entry × Reply) :=
  let e := if !isNew && e.type ≠ .string then e.releaseValue else e
  .ok ({ e with type := .string, value := .str value, version := e.version + 1 }, .bool true)

/-- The integer an entry holds when `incrdecr` reads it. -/
def counter (isNew : Bool) (e : Entry) : Except EntryError ℤ :=
  if isNew then .ok 0
  else match e.type, e.value with
    | .string, .str s => match parseInt64 s with
      | none => .error .notInteger
      | some i => .ok i
    | .string, _ => .error .notInteger
    | .int, .word i => .ok i
    -- A union that holds a pointer under the type int, which no command makes.
    | .int, _ => .ok 0
    | t, _ => .error (.wrongType t .int)

/-- `incrdecr` on the upserted entry. The sum wraps. -/
def incrdecr (delta : ℤ) (isNew : Bool) (e : Entry) : Except EntryError (Entry × Reply) :=
  match e.counter isNew with
  | .error err => .error err
  | .ok i =>
    let newval := Int.bmod (i + delta) (2 ^ 64)
    .ok ({ e with type := .int, value := .word newval, version := e.version + 1 }, .int newval)

/-- The hash `pg_redis_hset` writes: that of the entry, or an empty one. -/
def hashOrCreate (isNew : Bool) (e : Entry) : Hash :=
  match isNew, e.value with
  | false, .hash h => h
  | _, _ => .create

/-- `pg_redis_hset` on the upserted entry. -/
def hset (field : Field) (value : Bytes) (isNew : Bool) (e : Entry) :
    Except EntryError (Entry × Reply) :=
  if !isNew && e.type ≠ .hash then .error (.wrongType e.type .hash)
  else
    let (h, isNewField) := (e.hashOrCreate isNew).set field value
    .ok ({ e with type := .hash, value := .hash h, version := e.version + 1 }, .bool isNewField)

/-- The list `list_push` writes: that of the entry, or an empty one. -/
def listOrCreate (isNew : Bool) (e : Entry) : ListValue :=
  match isNew, e.value with
  | false, .list l => l
  | _, _ => .create

/-- `list_push` on the upserted entry. -/
def listPush (side : Side) (value : Bytes) (isNew : Bool) (e : Entry) :
    Except EntryError (Entry × Reply) :=
  if !isNew && e.type ≠ .list then .error (.wrongType e.type .list)
  else
    let l := (e.listOrCreate isNew).push side value
    .ok ({ e with type := .list, value := .list l, version := e.version + 1 }, .int l.length)

/-- `pg_redis_get` on the entry found. -/
def get (e : Entry) : Except EntryError (Option Entry × Reply) :=
  match e.type, e.value with
  | .string, .str s => .ok (none, .text (some s))
  | .string, _ => .ok (none, .text none)
  | .int, .word i => .ok (none, .text (some (formatInt64 i)))
  | .int, _ => .ok (none, .text none)
  | t, _ => .error (.wrongType t .string)

/-- `pg_redis_expire` with a positive number of seconds, on the entry found: the
    expiry counts from the second reading of the clock. -/
def expire (now' : ℤ) (seconds : ℤ) (e : Entry) : Except EntryError (Option Entry × Reply) :=
  .ok (some { e with expireAt := some (now' + seconds * 10 ^ 6), version := e.version + 1 },
    .bool true)

/-- A command on the hash of the entry found. An entry of type hash always has one. -/
def withHash (f : Hash → Option Hash × Reply) (e : Entry) :
    Except EntryError (Option Entry × Reply) :=
  if e.type ≠ .hash then .error (.wrongType e.type .hash)
  else match e.value with
    | .hash h =>
      let (h', r) := f h
      .ok (h'.map fun h' => { e with value := .hash h', version := e.version + 1 }, r)
    | _ => .ok (none, .bool false)

/-- `pg_redis_hget` on the entry found. -/
def hget (field : Field) : Entry → Except EntryError (Option Entry × Reply) :=
  withHash fun h => (none, .text (h.get field))

/-- `pg_redis_hexists` on the entry found. -/
def hexists (field : Field) : Entry → Except EntryError (Option Entry × Reply) :=
  withHash fun h => (none, .bool (h.exists? field))

/-- `pg_redis_hdel` on the entry found. -/
def hdel (field : Field) : Entry → Except EntryError (Option Entry × Reply) :=
  withHash fun h =>
    let (h', removed) := h.del field
    (if removed then some h' else none, .bool removed)

/-- A command on the list of the entry found, with its reply for a null pointer. -/
def withList (null : Reply) (f : ListValue → Option ListValue × Reply) (e : Entry) :
    Except EntryError (Option Entry × Reply) :=
  if e.type ≠ .list then .error (.wrongType e.type .list)
  else match e.value with
    | .list l =>
      let (l', r) := f l
      .ok (l'.map fun l' => { e with value := .list l', version := e.version + 1 }, r)
    | _ => .ok (none, null)

/-- `list_pop` on the entry found. -/
def listPop (side : Side) : Entry → Except EntryError (Option Entry × Reply) :=
  withList (.text none) fun l => match l.pop side with
    | none => (none, .text none)
    | some (v, l') => (some l', .text (some v))

/-- `pg_redis_llen` on the entry found. -/
def llen : Entry → Except EntryError (Option Entry × Reply) :=
  withList (.int 0) fun l => (none, .int l.length)

end Entry

/-! ## Commands on the keyspace -/

/-- The commands, with their arguments. -/
inductive Command
  | set (key : Key) (value : Bytes)
  | get (key : Key)
  | del (key : Key)
  | exists? (key : Key)
  | expire (key : Key) (seconds : ℤ)
  | ttl (key : Key)
  | incr (key : Key)
  | decr (key : Key)
  | hset (key : Key) (field : Field) (value : Bytes)
  | hget (key : Key) (field : Field)
  | hdel (key : Key) (field : Field)
  | hexists (key : Key) (field : Field)
  | push (side : Side) (key : Key) (value : Bytes)
  | pop (side : Side) (key : Key)
  | llen (key : Key)
  deriving DecidableEq, Repr

namespace Command

/-- The key a command is about. -/
def key : Command → Key
  | set key _ | get key | del key | exists? key | expire key _ | ttl key | incr key | decr key
  | hset key _ _ | hget key _ | hdel key _ | hexists key _ | push _ key _ | pop _ key | llen key =>
    key

/-- The checks of the lengths of the arguments, in the order the command makes them. -/
def check (lim : Limits) : Command → Except CommandError Unit
  | set key value | push _ key value => do
    checkKeyLen lim key
    checkValueLen lim value
  | hset key field value => do
    checkKeyLen lim key
    checkFieldLen field
    checkValueLen lim value
  | hget key field | hdel key field | hexists key field => do
    checkKeyLen lim key
    checkFieldLen field
  | c => checkKeyLen lim c.key

theorem key_ne_nil {lim : Limits} {c : Command} (h : c.check lim = .ok ()) : c.key ≠ [] := by
  have hkey : ∀ {key : Key} {u : Unit}, checkKeyLen lim key = .ok u → key ≠ [] := by
    rintro key u hk rfl
    simp [checkKeyLen] at hk
  cases c <;> simp only [check, bind_eq_ok_iff] at h
  all_goals first
    | exact hkey h
    | exact hkey h.choose_spec.1

end Command

namespace Session

/-- A command that upserts the entry of `key` and edits it with `f`, which is told
    whether the entry is new. -/
def update (now : ℤ) (key : Key) (f : Bool → Entry → Except EntryError (Entry × Reply))
    (s : Session) : Session × Except CommandError Reply :=
  match s.upsert now key with
  | (s', e, isNew) => match f isNew e with
    | .error err => (s', .error (.entry key err))
    | .ok (e', r) => ((s'.put key e').markDirty key, .ok r)

/-- A command that looks the entry of `key` up, replying `missing` if there is
    none, and otherwise reads or edits it with `f`. -/
def query (now : ℤ) (key : Key) (missing : Reply)
    (f : Entry → Except EntryError (Option Entry × Reply)) (s : Session) :
    Session × Except CommandError Reply :=
  match s.lookup now key with
  | (s', none) => (s', .ok missing)
  | (s', some e) => match f e with
    | .error err => (s', .error (.entry key err))
    | .ok (none, r) => (s', .ok r)
    | .ok (some e', r) => ((s'.put key e').markDirty key, .ok r)

/-- `pg_redis_expire`, with the two readings of the clock. -/
def expire (now now' : ℤ) (key : Key) (seconds : ℤ) (s : Session) :
    Session × Except CommandError Reply :=
  if 0 < seconds then s.query now key (.bool false) (Entry.expire now' seconds)
  else match s.lookup now key with
    | (s', none) => (s', .ok (.bool false))
    | (s', some _) => ((s'.remove key).1, .ok (.bool true))

/-- `pg_redis_ttl`, with the two readings of the clock. The result is an `int32`. -/
def ttl (now now' : ℤ) (key : Key) (s : Session) : Session × Except CommandError Reply :=
  match s.lookup now key with
  | (s', none) => (s', .ok (.int (-2)))
  | (s', some e) => match e.expireAt with
    | none => (s', .ok (.int (-1)))
    | some t =>
      if now' ≥ t then ((s'.remove key).1, .ok (.int (-2)))
      else (s', .ok (.int (Int.bmod ((t - now' + 999999) / 1000000) (2 ^ 32))))

/-- A command whose arguments have been checked. -/
def perform (now now' : ℤ) (s : Session) : Command → Session × Except CommandError Reply
  | .set key value => s.update now key (Entry.set value)
  | .get key => s.query now key (.text none) Entry.get
  | .del key => ((s.remove key).1, .ok (.bool (s.remove key).2))
  | .exists? key => s.query now key (.bool false) fun _ => .ok (none, .bool true)
  | .expire key seconds => s.expire now now' key seconds
  | .ttl key => s.ttl now now' key
  | .incr key => s.update now key (Entry.incrdecr 1)
  | .decr key => s.update now key (Entry.incrdecr (-1))
  | .hset key field value => s.update now key (Entry.hset field value)
  | .hget key field => s.query now key (.text none) (Entry.hget field)
  | .hdel key field => s.query now key (.bool false) (Entry.hdel field)
  | .hexists key field => s.query now key (.bool false) (Entry.hexists field)
  | .push side key value => s.update now key (Entry.listPush side value)
  | .pop side key => s.query now key (.text none) (Entry.listPop side)
  | .llen key => s.query now key (.int 0) Entry.llen

/-- A command at the clock readings `now` and `now'` (those of them it makes). -/
def exec (lim : Limits) (now now' : ℤ) (c : Command) (s : Session) :
    Session × Except CommandError Reply :=
  match c.check lim with
  | .error err => (s, .error err)
  | .ok () => s.perform now now' c

end Session

/-- A command with the settings and the readings of the clock it is run with. -/
structure Call where
  lim : Limits
  now : ℤ
  now' : ℤ
  cmd : Command

namespace Session

/-- A call on the keyspace; its reply is left out. -/
def call (s : Session) (c : Call) : Session := (s.exec c.lim c.now c.now' c.cmd).1

/-- Calls one after the other. -/
def calls (s : Session) (cs : List Call) : Session := cs.foldl call s

end Session

/-! ## What a command can do -/

namespace Value

/-- The values kept in a table of their own. -/
def isCollection : Value → Bool
  | hash _ | list _ => true
  | _ => false

/-- The values a command gives to a key it starts afresh. -/
inductive Made : Value → Prop
  | str (s : Bytes) : Made (.str (some s))
  | int (i : ℤ) : Made (.int i)
  | hash (f : Field) (v : Bytes) : Made (.hash (Hash.create.set f v).1)
  | list (side : Side) (v : Bytes) : Made (.list (ListValue.create.push side v))

/-- The changes a command makes to a value in place. -/
inductive Edit : Value → Value → Prop
  | keep (v : Value) : Edit v v
  | scalar {v v' : Value} : v.isCollection = false → v'.isCollection = false → Edit v v'
  | hset (h : Hash) (f : Field) (v : Bytes) : Edit (.hash h) (.hash (h.set f v).1)
  | hdel (h : Hash) (f : Field) : (h.del f).2 = true → Edit (.hash h) (.hash (h.del f).1)
  | push (side : Side) (l : ListValue) (v : Bytes) : Edit (.list l) (.list (l.push side v))
  | pop {side : Side} {l l' : ListValue} {v : Bytes} : l.pop side = some (v, l') →
      Edit (.list l) (.list l')

end Value

namespace Command

/-- The commands that create a missing key. -/
def creates : Command → Bool
  | set .. | incr _ | decr _ | hset .. | push .. => true
  | _ => false

/-- `SET`, which replaces a value of any type. -/
def overwrites : Command → Bool
  | set .. => true
  | _ => false

/-- The command gives its key a value that has nothing to do with the one before:
    the key is missing, or its entry has expired, or a collection is overwritten. -/
def startsAfresh (now : ℤ) (c : Command) (s : Session) : Bool :=
  c.creates && match s.store.lookup c.key with
    | none => true
    | some e => e.isExpired now || c.overwrites && (e.content.any Value.isCollection)

end Command

/-- What a command may leave behind: the keyspace as it was, or without the key, or
    with the entry of the key written anew or edited. -/
inductive Outcome (now : ℤ) (c : Command) (s : Session) : Session → Prop
  | same : Outcome now c s s
  | removed {e : Entry} : s.store.lookup c.key = some e → Outcome now c s (s.remove c.key).1
  | started {e : Entry} {v : Value} : c.startsAfresh now s = true → e.content = some v → v.Made →
      (e.inDirtySet = (s.store.lookup c.key).any Entry.inDirtySet) →
      Outcome now c s (s.write c.key e)
  | edited {e e' : Entry} {v v' : Value} : s.store.lookup c.key = some e →
      e.content = some v → e'.content = some v' → v.Edit v' → e'.inDirtySet = e.inDirtySet →
      Outcome now c s (s.write c.key e')

/-- The body of an upserting command: on a new entry it cannot fail and makes a
    value; on another it edits the value, or overwrites a collection. -/
structure Updates (overwrites : Bool) (f : Bool → Entry → Except EntryError (Entry × Reply)) :
    Prop where
  new : ∀ e, ∃ e' v r, f true e = .ok (e', r) ∧ e'.inDirtySet = e.inDirtySet ∧
    e'.content = some v ∧ v.Made
  old : ∀ {e v e' r}, e.content = some v → f false e = .ok (e', r) →
    e'.inDirtySet = e.inDirtySet ∧ ∃ v', e'.content = some v' ∧
      (v.Edit v' ∨ (overwrites = true ∧ v.isCollection = true ∧ v'.Made))

/-- The body of a command on an entry found: it edits the value, if anything. -/
def Queries (f : Entry → Except EntryError (Option Entry × Reply)) : Prop :=
  ∀ ⦃e v e' r⦄, e.content = some v → f e = .ok (some e', r) →
    e'.inDirtySet = e.inDirtySet ∧ ∃ v', e'.content = some v' ∧ v.Edit v'

namespace Entry

theorem content_eq_hash {e : Entry} {h : Hash} : e.content = some (.hash h) ↔
    e.type = .hash ∧ e.value = .hash h := by
  rw [content]
  split <;> simp_all

theorem content_eq_list {e : Entry} {l : ListValue} : e.content = some (.list l) ↔
    e.type = .list ∧ e.value = .list l := by
  rw [content]
  split <;> simp_all

theorem content_hash {e : Entry} (ht : e.type = .hash) {v : Value} (hv : e.content = some v) :
    ∃ h, e.value = .hash h ∧ v = .hash h := by
  rw [content, ht] at hv
  split at hv <;> simp_all

theorem content_list {e : Entry} (ht : e.type = .list) {v : Value} (hv : e.content = some v) :
    ∃ l, e.value = .list l ∧ v = .list l := by
  rw [content, ht] at hv
  split at hv <;> simp_all

theorem content_scalar {e : Entry} (ht : e.type = .string ∨ e.type = .int) {v : Value}
    (hv : e.content = some v) : v.isCollection = false := by
  rw [content] at hv
  split at hv <;> simp_all [Value.isCollection]
  all_goals subst hv; rfl

theorem updates_set (value : Bytes) : Updates true (set value) where
  new e := ⟨_, _, _, rfl, rfl, rfl, .str value⟩
  old {e v e' r} hv h := by
    rw [set, Except.ok.injEq] at h
    obtain ⟨rfl, -⟩ := Prod.mk.inj h
    refine ⟨by split <;> rfl, _, rfl, ?_⟩
    cases hc : v.isCollection with
    | false => exact .inl (.scalar hc rfl)
    | true => exact .inr ⟨rfl, rfl, .str value⟩

theorem type_of_counter {e : Entry} {i : ℤ} (h : e.counter false = .ok i) :
    e.type = .string ∨ e.type = .int := by
  rw [counter] at h
  cases ht : e.type with
  | string => exact .inl rfl
  | int => exact .inr rfl
  | hash | list => simp [ht] at h

theorem updates_incrdecr (delta : ℤ) : Updates false (incrdecr delta) where
  new e := ⟨_, _, _, rfl, rfl, rfl, .int _⟩
  old {e v e' r} hv h := by
    rw [incrdecr] at h
    split at h
    · exact absurd h (by simp)
    · rename_i i hi
      obtain ⟨rfl, -⟩ := Prod.mk.inj (Except.ok.inj h)
      exact ⟨rfl, _, rfl, .inl (.scalar (content_scalar (type_of_counter hi) hv) rfl)⟩

theorem updates_hset (field : Field) (value : Bytes) : Updates false (hset field value) where
  new e := ⟨_, _, _, rfl, rfl, rfl, .hash field value⟩
  old {e v e' r} hv h := by
    rw [hset] at h
    split_ifs at h with ht
    obtain ⟨h', he, rfl⟩ := content_hash (by simpa using ht) hv
    have hh : e.hashOrCreate false = h' := by simp only [hashOrCreate, he]
    rw [hh] at h
    obtain ⟨rfl, -⟩ := Prod.mk.inj (Except.ok.inj h)
    exact ⟨rfl, .hash (h'.set field value).1, rfl, .inl (.hset h' field value)⟩

theorem updates_listPush (side : Side) (value : Bytes) : Updates false (listPush side value) where
  new e := ⟨_, _, _, rfl, rfl, rfl, .list side value⟩
  old {e v e' r} hv h := by
    rw [listPush] at h
    split_ifs at h with ht
    obtain ⟨l, he, rfl⟩ := content_list (by simpa using ht) hv
    have hl : e.listOrCreate false = l := by simp only [listOrCreate, he]
    rw [hl] at h
    obtain ⟨rfl, -⟩ := Prod.mk.inj (Except.ok.inj h)
    exact ⟨rfl, .list (l.push side value), rfl, .inl (.push side l value)⟩

theorem queries_expire (now' seconds : ℤ) : Queries (expire now' seconds) := by
  intro e v e' r hv h
  rw [expire, Except.ok.injEq, Prod.mk.injEq, Option.some.injEq] at h
  obtain ⟨rfl, -⟩ := h
  exact ⟨rfl, v, hv, .keep v⟩

/-- A body that leaves every entry alone. -/
theorem queries_of_none {f : Entry → Except EntryError (Option Entry × Reply)}
    (hf : ∀ e x r, f e = .ok (x, r) → x = none) : Queries f :=
  fun _ _ _ _ _ h => absurd (hf _ _ _ h) (by simp)

theorem queries_withHash {f : Hash → Option Hash × Reply}
    (hf : ∀ h h', (f h).1 = some h' → Value.Edit (.hash h) (.hash h')) : Queries (withHash f) := by
  intro e v e' r hv h
  rw [withHash] at h
  split_ifs at h with ht
  obtain ⟨h₀, he, rfl⟩ := content_hash (by simpa using ht) hv
  rw [he] at h
  obtain ⟨hmap, -⟩ := Prod.mk.inj (Except.ok.inj h)
  obtain ⟨h', hh', rfl⟩ := Option.map_eq_some_iff.1 hmap
  refine ⟨rfl, .hash h', ?_, hf h₀ h' hh'⟩
  simp only [content, of_not_not ht]

theorem queries_withList {null : Reply} {f : ListValue → Option ListValue × Reply}
    (hf : ∀ l l', (f l).1 = some l' → Value.Edit (.list l) (.list l')) :
    Queries (withList null f) := by
  intro e v e' r hv h
  rw [withList] at h
  split_ifs at h with ht
  obtain ⟨l₀, he, rfl⟩ := content_list (by simpa using ht) hv
  rw [he] at h
  obtain ⟨hmap, -⟩ := Prod.mk.inj (Except.ok.inj h)
  obtain ⟨l', hl', rfl⟩ := Option.map_eq_some_iff.1 hmap
  refine ⟨rfl, .list l', ?_, hf l₀ l' hl'⟩
  simp only [content, of_not_not ht]

theorem queries_hdel (field : Field) : Queries (hdel field) :=
  queries_withHash fun h h' hh' => by
    simp only at hh'
    split_ifs at hh' with hrem
    obtain rfl := Option.some.inj hh'
    exact .hdel h field hrem

theorem queries_listPop (side : Side) : Queries (listPop side) :=
  queries_withList fun l l' hl' => by
    split at hl'
    · exact absurd hl' (by simp)
    · rename_i hp
      obtain rfl := Option.some.inj hl'
      exact .pop hp

theorem queries_get : Queries get := queries_of_none fun e x r h => by
  rw [get] at h
  split at h <;> simp_all

end Entry

namespace Session

variable {now now' : ℤ} {c : Command} {s : Session}

/-- Looking a key up leaves the keyspace alone and gives the entry, unexpired, or
    finds none and removes what has expired. -/
theorem lookup_cases (now : ℤ) (key : Key) (s : Session) :
    (∃ e, s.store.lookup key = some e ∧ e.isExpired now = false ∧
      s.lookup now key = (s, some e)) ∨
    ((s.lookup now key).2 = none ∧
      ((s.lookup now key).1 = s ∨ ∃ e, s.store.lookup key = some e ∧
        (s.lookup now key).1 = (s.remove key).1)) := by
  rw [lookup]
  cases hl : s.store.lookup key with
  | none => exact .inr ⟨rfl, .inl rfl⟩
  | some e =>
    cases he : e.isExpired now with
    | true => exact .inr ⟨by simp [he], .inr ⟨e, rfl, by simp [he]⟩⟩
    | false => exact .inl ⟨e, rfl, he, by simp [he]⟩

theorem outcome_query {missing : Reply} {f : Entry → Except EntryError (Option Entry × Reply)}
    (hs : s.WellTyped) (hf : Queries f) : Outcome now c s (s.query now c.key missing f).1 := by
  -- An entry that is found may be edited; an expired one is removed by the lookup.
  rcases lookup_cases now c.key s with ⟨e, he, -, hl⟩ | ⟨hnone, hl⟩
  · obtain ⟨v, hv⟩ := Option.isSome_iff_exists.1 (hs _ _ he)
    rw [query, hl]
    split
    · exact absurd ‹_› (by simp)
    · rename_i heq
      obtain ⟨rfl, rfl⟩ : s = _ ∧ e = _ := by simpa using heq
      split
      · exact .same
      · exact .same
      · rename_i e' r hfe
        obtain ⟨hd, v', hv', hedit⟩ := hf hv hfe
        exact .edited he hv hv' hedit hd
  · have hq : (s.query now c.key missing f).1 = (s.lookup now c.key).1 := by
      rw [query]
      split
      · rw [‹s.lookup now c.key = _›]
      · rename_i heq
        rw [heq] at hnone
        exact absurd hnone (by simp)
    rw [hq]
    rcases hl with hl | ⟨e, he, hl⟩ <;> rw [hl]
    · exact .same
    · exact .removed he

theorem outcome_update {f : Bool → Entry → Except EntryError (Entry × Reply)}
    (hs : s.WellTyped) (hc : c.creates = true) (hf : Updates c.overwrites f) :
    Outcome now c s (s.update now c.key f).1 := by
  -- A key started afresh: the body makes a value, which is then written.
  have hnew : ∀ e₀ : Entry, s.upsert now c.key = (s.put c.key e₀, e₀, true) →
      c.startsAfresh now s = true → e₀.inDirtySet = (s.store.lookup c.key).any Entry.inDirtySet →
      Outcome now c s (s.update now c.key f).1 := by
    intro e₀ hup hstart hd
    obtain ⟨e', v, r, hok, hd', hv, hmade⟩ := hf.new e₀
    have hst : (s.update now c.key f).1 = s.write c.key e' := by
      rw [update, hup, ← write_put c.key e' s e₀]
      simp only [hok]
      rfl
    rw [hst]
    exact .started hstart hv hmade (hd'.trans hd)
  cases hl : s.store.lookup c.key with
  | none =>
    exact hnew .fresh (by rw [upsert, hl]) (by simp [Command.startsAfresh, hc, hl])
      (by rw [hl]; rfl)
  | some e =>
    cases he : e.isExpired now with
    | true =>
      exact hnew { Entry.fresh with inDirtySet := e.inDirtySet } (by simp [upsert, hl, he])
        (by simp [Command.startsAfresh, hc, hl, he]) (by rw [hl]; rfl)
    | false =>
      have hup : s.upsert now c.key = (s, e, false) := by simp [upsert, hl, he]
      obtain ⟨v, hv⟩ := Option.isSome_iff_exists.1 (hs _ _ hl)
      rw [update, hup]
      simp only
      split
      · exact .same
      · rename_i e' r hfe
        obtain ⟨hd, v', hv', hedit | ⟨how, hcol, hmade⟩⟩ := hf.old hv hfe
        · exact .edited hl hv hv' hedit hd
        · refine .started ?_ hv' hmade (by rw [hd, hl]; rfl)
          simp [Command.startsAfresh, hc, hl, how, hv, hcol]

theorem outcome_removed_lookup (hs : (s.lookup now c.key).2.isSome) :
    Outcome now c s ((s.lookup now c.key).1.remove c.key).1 := by
  rcases lookup_cases now c.key s with ⟨e, he, -, hl⟩ | ⟨hnone, -⟩
  · rw [hl]
    exact .removed he
  · rw [hnone] at hs
    exact absurd hs (by simp)

theorem outcome_lookup : Outcome now c s (s.lookup now c.key).1 := by
  rcases lookup_cases now c.key s with ⟨e, he, -, hl⟩ | ⟨-, hl | ⟨e, he, hl⟩⟩ <;> rw [hl]
  · exact .same
  · exact .same
  · exact .removed he

theorem outcome_expire {seconds : ℤ} (hs : s.WellTyped) :
    Outcome now c s (s.expire now now' c.key seconds).1 := by
  rw [expire]
  split_ifs
  · exact outcome_query hs (Entry.queries_expire now' seconds)
  · split <;> rename_i heq
    · have h : Outcome now c s (s.lookup now c.key).1 := outcome_lookup
      rwa [heq] at h
    · have h : Outcome now c s ((s.lookup now c.key).1.remove c.key).1 :=
        outcome_removed_lookup (by rw [heq]; rfl)
      rwa [heq] at h

theorem outcome_ttl : Outcome now c s (s.ttl now now' c.key).1 := by
  have h : Outcome now c s (s.lookup now c.key).1 := outcome_lookup
  rw [ttl]
  split <;> rename_i heq <;> rw [heq] at h
  · exact h
  · split
    · exact h
    · split_ifs
      · have h' : Outcome now c s ((s.lookup now c.key).1.remove c.key).1 :=
          outcome_removed_lookup (by rw [heq]; rfl)
        rwa [heq] at h'
      · exact h

/-- The step lemma of the commands. -/
theorem outcome_perform (hs : s.WellTyped) : Outcome now c s (s.perform now now' c).1 := by
  -- An update goes through the upsert and is dirty after it, a query through the lookup, which
  -- may evict.
  cases c with
  | set key value =>
    exact outcome_update (c := .set key value) hs rfl (Entry.updates_set value)
  | get key => exact outcome_query (c := .get key) hs Entry.queries_get
  | del key =>
    rw [perform]
    cases hl : s.store.lookup key with
    | none =>
      rw [remove_of_lookup_none hl]
      exact .same
    | some e => exact Outcome.removed (c := .del key) hl
  | exists? key =>
    refine outcome_query (c := .exists? key) hs (Entry.queries_of_none fun _ x r h => ?_)
    exact (congrArg Prod.fst (Except.ok.inj h)).symm
  | expire key seconds => exact outcome_expire (c := .expire key seconds) hs
  | ttl key => exact outcome_ttl (c := .ttl key)
  | incr key => exact outcome_update (c := .incr key) hs rfl (Entry.updates_incrdecr 1)
  | decr key => exact outcome_update (c := .decr key) hs rfl (Entry.updates_incrdecr (-1))
  | hset key field value =>
    exact outcome_update (c := .hset key field value) hs rfl (Entry.updates_hset field value)
  | hget key field =>
    exact outcome_query (c := .hget key field) hs (Entry.queries_withHash fun _ _ h => by
      exact absurd h (by simp))
  | hdel key field => exact outcome_query (c := .hdel key field) hs (Entry.queries_hdel field)
  | hexists key field =>
    exact outcome_query (c := .hexists key field) hs (Entry.queries_withHash fun _ _ h => by
      exact absurd h (by simp))
  | push side key value =>
    exact outcome_update (c := .push side key value) hs rfl (Entry.updates_listPush side value)
  | pop side key => exact outcome_query (c := .pop side key) hs (Entry.queries_listPop side)
  | llen key =>
    exact outcome_query (c := .llen key) hs (Entry.queries_withList fun _ _ h => by
      exact absurd h (by simp))

/-- A call either leaves the keyspace alone or has passed its checks. -/
theorem call_cases (hs : s.WellTyped) (a : Call) : s.call a = s ∨
    a.cmd.check a.lim = .ok () ∧ Outcome a.now a.cmd s (s.call a) := by
  rw [call, exec]
  split
  · exact .inl rfl
  · exact .inr ⟨‹_›, outcome_perform hs⟩

/-- A command leaves values that fit the types of their entries. -/
theorem wellTyped_of_outcome {s' : Session} (h : Outcome now c s s') (hs : s.WellTyped) :
    s'.WellTyped := by
  have hwrite : ∀ (e : Entry) (v : Value), e.content = some v → (s.write c.key e).WellTyped := by
    intro e v hv k e' he'
    rw [lookup_write] at he'
    split_ifs at he'
    · obtain rfl := Option.some.inj he'
      exact Option.isSome_iff_exists.2 ⟨v, hv⟩
    · exact hs k e' he'
  cases h with
  | same => exact hs
  | removed he =>
    rw [remove_of_lookup he]
    intro k e' he'
    rw [Htab.lookup_erase_eq] at he'
    split_ifs at he'
    exact hs k e' he'
  | started _ hv _ _ => exact hwrite _ _ hv
  | edited _ _ hv' _ _ => exact hwrite _ _ hv'

theorem WellTyped.call (hs : s.WellTyped) (a : Call) : (s.call a).WellTyped := by
  rcases call_cases hs a with h | ⟨-, h⟩
  · rwa [h]
  · exact wellTyped_of_outcome h hs

/-- A command frees no pointer that is none. -/
theorem crashed_of_outcome {s' : Session} (h : Outcome now c s s') (hs : s.WellTyped) :
    s'.crashed = s.crashed := by
  cases h with
  | same => rfl
  | removed he =>
    rw [remove_of_lookup he, Entry.wild_of_content (hs _ _ he)]
    exact Bool.or_false _
  | started | edited => exact crashed_write _ _ _

theorem WellTyped.crashed_call (hs : s.WellTyped) (a : Call) :
    (s.call a).crashed = s.crashed := by
  rcases call_cases hs a with h | ⟨-, h⟩
  · rw [h]
  · exact crashed_of_outcome h hs

theorem WellTyped.calls (hs : s.WellTyped) (cs : List Call) : (s.calls cs).WellTyped := by
  induction cs generalizing s with
  | nil => exact hs
  | cons a cs ih => exact ih (hs.call a)

theorem WellTyped.crashed_calls (hs : s.WellTyped) (cs : List Call) :
    (s.calls cs).crashed = s.crashed := by
  induction cs generalizing s with
  | nil => rfl
  | cons a cs ih => exact (ih (hs.call a)).trans (hs.crashed_call a)

end Session

end PgRedis
