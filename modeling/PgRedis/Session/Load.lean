import PgRedis.Session.Command

/-!
# Loading the tables

The three loaders of `persistence.c`, which write the result of a query into the
keyspace row by row, over whatever is there; and what an abort does, which is to
forget the deltas and have the next command load again.

A query returns a list of rows (`Query.Selects` says which): in any order, but for
the list items of a key, which come by ordinal. The load happens at one reading of
the clock, at which the queries too compare the expiries.
-/

namespace PgRedis

open Lib

/-! ## Queries -/

/-- A row of one of the three queries: the key and its expiry, what tells the row
    from others of the key, and the value. -/
structure LoadRow (α : Type) where
  key : Key
  item : α
  value : Option Bytes
  expireAt : Option ℤ

/-- The results of the three queries. -/
structure Query where
  scalars : List (LoadRow ValueType)
  hashes : List (LoadRow Field)
  lists : List (LoadRow ℤ)

/-- `expire_at IS NULL OR expire_at > now()`. -/
def Alive (now : ℤ) (expireAt : Option ℤ) : Prop := ∀ t, expireAt = some t → now < t

/-- A row of `pgredis.store` that a query selects, with its type and expiry. -/
structure Parent (D : Tables) (now : ℤ) (k : Key) (type : ValueType) (p : StoreRow) : Prop where
  row : D.store k = some p
  known : p.type = .known type
  alive : Alive now p.expireAt

/-- `q` is a result of the queries on the tables. -/
structure Query.Selects (q : Query) (D : Tables) (now : ℤ) : Prop where
  mem_scalars : ∀ r, r ∈ q.scalars ↔ (r.item = .string ∨ r.item = .int) ∧
    ∃ p, Parent D now r.key r.item p ∧ p.expireAt = r.expireAt ∧ p.value = r.value
  mem_hashes : ∀ r, r ∈ q.hashes ↔ ∃ p, Parent D now r.key .hash p ∧ p.expireAt = r.expireAt ∧
    D.hashFields r.key r.item = some r.value
  mem_lists : ∀ r, r ∈ q.lists ↔ ∃ p, Parent D now r.key .list p ∧ p.expireAt = r.expireAt ∧
    D.listItems r.key r.item = some r.value
  scalars_nodup : (q.scalars.map LoadRow.key).Nodup
  hashes_nodup : (q.hashes.map fun r => (r.key, r.item)).Nodup
  lists_sorted : q.lists.Pairwise fun r r' => r.key = r'.key → r.item < r'.item

/-! ## A row on its entry -/

/-- `rpush` of a loaded value, with the ordinal of its row. -/
def ListValue.load (l : ListValue) (ord : ℤ) (value : Bytes) : ListValue :=
  { l.rpush value with
    nodes := l.nodes ++ [⟨value, ord, false⟩]
    minOrd := if l.nodes = [] then ord else (l.rpush value).minOrd
    maxOrd := ord
    ordInitialized := true }

/-- `pg_redis_hash_set` of a loaded field, after which no field is dirty. -/
def Hash.load (h : Hash) (field : Field) (value : Bytes) : Hash :=
  let h := (h.set field value).1
  { h with fields := h.fields.mapValues fun _ f => { f with dirty := false } }

/-- A type of values loaded from a table of their own: how the union holds one, and
    how a row, given by what tells it from others, is added to one. -/
structure Collection (α C : Type) where
  type : ValueType
  wrap : C → Payload
  unwrap : Payload → Option C
  create : C
  load : C → α → Bytes → C
  unwrap_wrap : ∀ a, unwrap (wrap a) = some a
  typed : ∀ e : Entry, e.type = type → e.content.isSome → ∃ a, e.value = wrap a

namespace Collection

/-- Hashes, loaded field by field. -/
def hashes : Collection Field Hash where
  type := .hash
  wrap := .hash
  unwrap := fun
    | .hash h => some h
    | _ => none
  create := .create
  load := Hash.load
  unwrap_wrap _ := rfl
  typed e ht he := by
    obtain ⟨v, hv⟩ := Option.isSome_iff_exists.1 he
    obtain ⟨h, hh, -⟩ := Entry.content_hash ht hv
    exact ⟨h, hh⟩

/-- Lists, loaded item by item. -/
def lists : Collection ℤ ListValue where
  type := .list
  wrap := .list
  unwrap := fun
    | .list l => some l
    | _ => none
  create := .create
  load := ListValue.load
  unwrap_wrap _ := rfl
  typed e ht he := by
    obtain ⟨v, hv⟩ := Option.isSome_iff_exists.1 he
    obtain ⟨l, hl, -⟩ := Entry.content_list ht hv
    exact ⟨l, hl⟩

end Collection

namespace Entry

/-- The body of `load_strings_and_ints` on the upserted entry; `none` when the
    encoded value does not fit the type. The entry then has the type of the row, and
    is removed. -/
def loadScalar (r : LoadRow ValueType) (e : Entry) : Option Entry :=
  match r.item, r.value with
  | .string, none => some { e with type := .string, expireAt := r.expireAt }
  | .string, some raw => (decodeString raw).map fun s =>
      { e with type := .string, value := .str s, expireAt := r.expireAt }
  | .int, none => some { e with type := .int, expireAt := r.expireAt }
  | .int, some raw => (decodeInt raw).map fun i =>
      { e with type := .int, value := .word i, expireAt := r.expireAt }
  | _, _ => some e

/-- A row is undecodable whatever the entry. -/
theorem loadScalar_eq_none_iff {r : LoadRow ValueType} {e e' : Entry} :
    e.loadScalar r = none ↔ e'.loadScalar r = none := by
  obtain ⟨key, item, value, x⟩ := r
  cases item <;> cases value <;> simp [loadScalar]

/-- The common body of `load_hashes` and `load_lists` on the upserted entry: an
    entry of another type is released and gets an empty collection, which then loads
    the row. A missing expiry leaves that of the entry. -/
def loadInto {α C : Type} (c : Collection α C) (r : LoadRow α) (isNew : Bool) (e : Entry) : Entry :=
  let e := if isNew || e.type ≠ c.type then
    { e.releaseValue with type := c.type, value := c.wrap c.create } else e
  { e with
    value := match c.unwrap e.value with
      | some a => c.wrap (c.load a r.item (r.value.getD []))
      | none => e.value
    expireAt := r.expireAt.or e.expireAt }

/-- The body of `load_hashes`. -/
def loadField : LoadRow Field → Bool → Entry → Entry := loadInto .hashes

/-- The body of `load_lists`. -/
def loadItem : LoadRow ℤ → Bool → Entry → Entry := loadInto .lists

end Entry

/-! ## The loaders -/

namespace Session

/-- `load_strings_and_ints`, one row. -/
def loadScalar (now : ℤ) (s : Session) (r : LoadRow ValueType) : Session :=
  if r.key.length > maxKeySize then s
  else match s.upsert now r.key with
    | (s', e, _) => match e.loadScalar r with
      | none => ((s'.put r.key { e with type := r.item }).remove r.key).1
      | some e' => s'.put r.key e'

/-- `load_hashes`, one row. -/
def loadField (now : ℤ) (s : Session) (r : LoadRow Field) : Session :=
  if r.key.length > maxKeySize then s
  else if r.item.length > maxFieldSize then s
  else match s.upsert now r.key with
    | (s', e, isNew) => s'.put r.key (e.loadField r isNew)

/-- `load_lists`, one row. -/
def loadItem (now : ℤ) (s : Session) (r : LoadRow ℤ) : Session :=
  if r.key.length > maxKeySize then s
  else match s.upsert now r.key with
    | (s', e, isNew) => s'.put r.key (e.loadItem r isNew)

/-- `pg_redis_persistence_do_load` in session mode. -/
def load (now : ℤ) (q : Query) (s : Session) : Session :=
  q.lists.foldl (loadItem now) (q.hashes.foldl (loadField now) (q.scalars.foldl (loadScalar now) s))

/-- `pg_redis_persistence_load_if_needed` in session mode. -/
def loadIfNeeded (now : ℤ) (q : Query) (s : Session) : Session :=
  if s.loaded then s else { s.load now q with loaded := true }

/-- The abort callback: `pg_redis_dirty_clear`, `pg_redis_pending_deletes_clear`,
    and the load flag. -/
def abort (s : Session) : Session :=
  { s with
    store := s.store.mapValues fun k e => if k ∈ s.dirty then { e with inDirtySet := false } else e
    dirty := []
    pendingDeletes := []
    loaded := false }

/-! ## One key at a time -/

/-- `load_strings_and_ints` in the place of an entry. -/
def scalarCell (now : ℤ) (o : Option Entry) (r : LoadRow ValueType) : Option Entry :=
  if r.key.length > maxKeySize then o else (upserted now o).1.loadScalar r

/-- `load_hashes` in the place of an entry. -/
def fieldCell (now : ℤ) (o : Option Entry) (r : LoadRow Field) : Option Entry :=
  if r.key.length > maxKeySize ∨ r.item.length > maxFieldSize then o
  else some ((upserted now o).1.loadField r (upserted now o).2)

/-- `load_lists` in the place of an entry. -/
def itemCell (now : ℤ) (o : Option Entry) (r : LoadRow ℤ) : Option Entry :=
  if r.key.length > maxKeySize then o
  else some ((upserted now o).1.loadItem r (upserted now o).2)

variable {now : ℤ} {k : Key} {s : Session}

theorem loadScalar_of_some {r : LoadRow ValueType} {e : Entry} (hlen : r.key.length ≤ maxKeySize)
    (h : (upserted now (s.store.lookup r.key)).1.loadScalar r = some e) :
    s.loadScalar now r = s.put r.key e := by
  rw [← upsert_snd] at h
  rw [loadScalar, if_neg (Nat.not_lt.2 hlen)]
  simp only [h]
  exact put_upsert now r.key e s

/-- A row that does not decode takes its key out, after its entry got the type of the
    row. -/
theorem loadScalar_of_none {r : LoadRow ValueType} (hlen : r.key.length ≤ maxKeySize)
    (h : Entry.fresh.loadScalar r = none) : s.loadScalar now r =
      ((s.put r.key { (upserted now (s.store.lookup r.key)).1 with type := r.item }).remove
        r.key).1 := by
  rw [loadScalar, if_neg (Nat.not_lt.2 hlen)]
  simp only [Entry.loadScalar_eq_none_iff.1 h]
  rw [put_upsert, ← upsert_snd]

theorem lookup_loadScalar (r : LoadRow ValueType) : (s.loadScalar now r).store.lookup k =
    if k = r.key then scalarCell now (s.store.lookup k) r else s.store.lookup k := by
  rw [loadScalar, scalarCell]
  split_ifs with hlen hk hk
  · rfl
  · rfl
  · rw [hk, ← upsert_snd]
    cases h : (s.upsert now r.key).2.1.loadScalar r with
    | none => simp [h, lookup_remove]
    | some e' => simp [h]
  · cases h : (s.upsert now r.key).2.1.loadScalar r with
    | none => simp [h, lookup_remove, hk, lookup_upsert_ne]
    | some e' => simp [h, hk, lookup_upsert_ne]

theorem lookup_loadField (r : LoadRow Field) : (s.loadField now r).store.lookup k =
    if k = r.key then fieldCell now (s.store.lookup k) r else s.store.lookup k := by
  rw [loadField, fieldCell]
  by_cases hlen : r.key.length > maxKeySize
  · simp [hlen]
  · by_cases hfield : r.item.length > maxFieldSize
    · simp [hfield]
    · rw [if_neg hlen, if_neg hfield, if_neg (not_or.2 ⟨hlen, hfield⟩)]
      simp only [lookup_put]
      split_ifs with hk
      · rw [hk, ← upsert_snd]
      · rw [lookup_upsert_ne now hk]

theorem lookup_loadItem (r : LoadRow ℤ) : (s.loadItem now r).store.lookup k =
    if k = r.key then itemCell now (s.store.lookup k) r else s.store.lookup k := by
  rw [loadItem, itemCell]
  by_cases hlen : r.key.length > maxKeySize
  · simp [hlen]
  · rw [if_neg hlen, if_neg hlen]
    simp only [lookup_put]
    split_ifs with hk
    · rw [hk, ← upsert_snd]
    · rw [lookup_upsert_ne now hk]

/-- Rows that each touch the entry of their key only: an entry sees the rows of its
    key. -/
theorem lookup_foldl {α : Type} {f : Session → LoadRow α → Session}
    {cell : Option Entry → LoadRow α → Option Entry}
    (hf : ∀ s r, (f s r).store.lookup k =
      if k = r.key then cell (s.store.lookup k) r else s.store.lookup k) :
    ∀ (rows : List (LoadRow α)) (s : Session), (rows.foldl f s).store.lookup k =
      (rows.filter fun r => k = r.key).foldl cell (s.store.lookup k)
  | [], _ => rfl
  | r :: rows, s => by
    rw [List.foldl_cons, lookup_foldl hf rows, hf, List.filter_cons]
    by_cases hk : k = r.key <;> simp [hk]

/-- What the load leaves in the place of an entry. -/
theorem lookup_load (q : Query) : (s.load now q).store.lookup k =
    (q.lists.filter fun r => k = r.key).foldl (itemCell now)
      ((q.hashes.filter fun r => k = r.key).foldl (fieldCell now)
        ((q.scalars.filter fun r => k = r.key).foldl (scalarCell now) (s.store.lookup k))) := by
  rw [load, lookup_foldl fun _ => lookup_loadItem, lookup_foldl fun _ => lookup_loadField,
    lookup_foldl fun _ => lookup_loadScalar]

/-- What no row changes, the load of the rows does not change. -/
theorem foldl_keeps {α β : Type} {f : Session → LoadRow α → Session} {g : Session → β}
    (hf : ∀ s r, g (f s r) = g s) : ∀ (rows : List (LoadRow α)) (s : Session),
      g (rows.foldl f s) = g s
  | [], _ => rfl
  | r :: rows, s => (foldl_keeps hf rows (f s r)).trans (hf s r)

/-- An upserted entry that is not new was there. -/
theorem upserted_old {o : Option Entry} {e : Entry} (h : upserted now o = (e, false)) :
    o = some e ∧ e.isExpired now = false := by
  cases o with
  | none => exact absurd h (by simp [upserted])
  | some e' =>
    rw [upserted] at h
    split_ifs at h with he
    · exact absurd h (by simp)
    · obtain ⟨rfl, -⟩ := Prod.mk.inj h
      exact ⟨rfl, by simpa using he⟩

theorem upserted_some {e : Entry} (he : e.isExpired now = false) :
    upserted now (some e) = (e, false) := by
  rw [upserted, he]
  rfl

theorem isExpired_upserted (o : Option Entry) : (upserted now o).1.isExpired now = false := by
  cases o with
  | none => rfl
  | some e =>
    rw [upserted]
    split_ifs with he
    · rfl
    · simpa using he

end Session

/-! ## The rows of a collection -/

namespace Collection

open Session

variable {α C : Type} (c : Collection α C)

/-- What the first row of a collection is loaded into: the collection of the entry
    or, where there is none to keep, an empty one. -/
def base (now : ℤ) (o : Option Entry) : Entry × C :=
  let x := upserted now o
  if x.2 || x.1.type ≠ c.type then
    ({ x.1.releaseValue with type := c.type, value := c.wrap c.create }, c.create)
  else (x.1, (c.unwrap x.1.value).getD c.create)

/-- The rows added to a collection. -/
def loadAll (rows : List (LoadRow α)) (a : C) : C :=
  rows.foldl (fun a r => c.load a r.item (r.value.getD [])) a

/-- One row in the place of an entry. -/
def cell (now : ℤ) (o : Option Entry) (r : LoadRow α) : Option Entry :=
  some ((upserted now o).1.loadInto c r (upserted now o).2)

/-- An entry of the type of the collection holds one. -/
def Holds (o : Option Entry) : Prop := ∀ e, o = some e → e.type = c.type → ∃ a, e.value = c.wrap a

variable {c} {now : ℤ} {o : Option Entry}

theorem cell_eq (ho : c.Holds o) (r : LoadRow α) :
    c.cell now o r = some { (c.base now o).1 with
      value := c.wrap (c.load (c.base now o).2 r.item (r.value.getD []))
      expireAt := r.expireAt.or (c.base now o).1.expireAt } := by
  obtain ⟨e, isNew, hx⟩ : ∃ e isNew, upserted now o = (e, isNew) := ⟨_, _, rfl⟩
  by_cases hreset : isNew || e.type ≠ c.type
  · simp only [cell, base, Entry.loadInto, hx, if_pos hreset, c.unwrap_wrap]
  · rw [Bool.not_eq_true, Bool.or_eq_false_iff, decide_eq_false_iff_not, not_not] at hreset
    obtain ⟨rfl, htype⟩ := hreset
    obtain ⟨a, ha⟩ := ho e (upserted_old hx).1 htype
    simp [cell, base, Entry.loadInto, hx, htype, ha, c.unwrap_wrap]

theorem type_base : (c.base now o).1.type = c.type := by
  simp only [base]
  split_ifs with h
  · rfl
  · rw [Bool.not_eq_true, Bool.or_eq_false_iff, decide_eq_false_iff_not, not_not] at h
    exact h.2

theorem isExpired_base : (c.base now o).1.isExpired now = false := by
  simp only [base]
  split_ifs
  · exact isExpired_upserted o
  · exact isExpired_upserted o

theorem base_some (now : ℤ) {e : Entry} {a : C} (hexp : e.isExpired now = false)
    (ht : e.type = c.type) (hv : e.value = c.wrap a) : c.base now (some e) = (e, a) := by
  simp [base, upserted_some hexp, ht, hv, c.unwrap_wrap]

/-- What is kept of an entry: nothing if it has expired, else its expiry, and its
    collection if it has one. -/
theorem base_cases (now : ℤ) (ho : c.Holds o) :
    ((∀ e, o = some e → e.isExpired now = true) ∧ (c.base now o).1.expireAt = none ∧
      (c.base now o).2 = c.create) ∨
    ∃ e, o = some e ∧ e.isExpired now = false ∧ (c.base now o).1.expireAt = e.expireAt ∧
      (e.type ≠ c.type ∧ (c.base now o).2 = c.create ∨
        e.type = c.type ∧ e.value = c.wrap (c.base now o).2) := by
  cases o with
  | none => exact .inl ⟨fun e h => absurd h (by simp), rfl, rfl⟩
  | some e =>
    cases hexp : e.isExpired now with
    | true =>
      refine .inl ⟨fun e' h => Option.some.inj h ▸ hexp, ?_, ?_⟩ <;> simp [base, upserted, hexp,
        Entry.releaseValue, Entry.fresh]
    | false =>
      refine .inr ⟨e, rfl, hexp, ?_⟩
      by_cases ht : e.type = c.type
      · obtain ⟨a, ha⟩ := ho e rfl ht
        rw [base_some now hexp ht ha]
        exact ⟨rfl, .inr ⟨ht, ha⟩⟩
      · simp [base, upserted_some hexp, ht, Entry.releaseValue]

/-- The expiry a row gives to an entry that has not expired. -/
theorem isExpired_or {e : Entry} {v : Payload} {x : Option ℤ} (hx : Alive now x)
    (he : e.isExpired now = false) :
    ({ e with value := v, expireAt := x.or e.expireAt } : Entry).isExpired now = false := by
  cases x with
  | none => exact he
  | some t => exact decide_eq_false (Int.not_le.2 (hx t rfl))

/-- The rows of a collection, all with the expiry `x`, in the place of an entry. -/
theorem foldl_cell {x : Option ℤ} (hx : Alive now x) : ∀ {rows : List (LoadRow α)}
    {o : Option Entry}, rows ≠ [] → (∀ r ∈ rows, r.expireAt = x) → c.Holds o →
    rows.foldl (c.cell now) o = some { (c.base now o).1 with
      value := c.wrap (c.loadAll rows (c.base now o).2)
      expireAt := x.or (c.base now o).1.expireAt }
  | [], _, h, _, _ => absurd rfl h
  | [r], _, _, hrows, ho => by
    rw [List.foldl_cons, List.foldl_nil, cell_eq ho, hrows r List.mem_cons_self]
    rfl
  | r :: r' :: rows, o, _, hrows, ho => by
    rw [List.foldl_cons, cell_eq ho, hrows r List.mem_cons_self]
    -- After the first row the entry holds the collection and has not expired.
    have hbase := base_some (c := c) now
      (e := { (c.base now o).1 with
        value := c.wrap (c.load (c.base now o).2 r.item (r.value.getD []))
        expireAt := x.or (c.base now o).1.expireAt })
      (isExpired_or hx isExpired_base) type_base rfl
    rw [foldl_cell hx (List.cons_ne_nil r' rows) (fun r'' h => hrows r'' (List.mem_cons_of_mem _ h))
      (by rintro _ ⟨⟩ -; exact ⟨_, rfl⟩), hbase, ← Option.or_assoc, Option.or_self]
    rfl

end Collection

/-! ## The keyspace loaded -/

/-- The mark on a field cleared. -/
def HashField.clean (f : HashField) : HashField := { f with dirty := false }

namespace Hash

theorem lookup_load (h : Hash) (field : Field) (value : Bytes) (f : Field) :
    (h.load field value).fields.lookup f =
      if f = field then some ⟨value, false⟩ else (h.fields.lookup f).map HashField.clean := by
  rw [load]
  simp only [Htab.lookup_mapValues, fields_set, Htab.lookup_insert_eq]
  split_ifs <;> rfl

variable {rows : List (LoadRow Field)} {h : Hash}

@[simp] theorem tombstones_loadAll :
    (Collection.hashes.loadAll rows h).tombstones = h.tombstones := by
  induction rows generalizing h with
  | nil => rfl
  | cons r rows ih => exact ih.trans (tombstones_set h r.item _)

/-- A field has the value of its row or, without its mark, that from before. -/
theorem lookup_loadAll (hnd : (rows.map LoadRow.item).Nodup) (hne : rows ≠ []) (f : Field) :
    (Collection.hashes.loadAll rows h).fields.lookup f =
      ((rows.find? fun r => r.item = f).map fun r => ⟨r.value.getD [], false⟩).or
        ((h.fields.lookup f).map HashField.clean) := by
  induction rows generalizing h with
  | nil => exact absurd rfl hne
  | cons r rows ih =>
    rw [List.map_cons, List.nodup_cons] at hnd
    have hstep : Collection.hashes.loadAll (r :: rows) h =
        Collection.hashes.loadAll rows (h.load r.item (r.value.getD [])) := rfl
    have hload : (h.load r.item (r.value.getD [])).fields.lookup f =
        if f = r.item then some ⟨r.value.getD [], false⟩
        else (h.fields.lookup f).map HashField.clean := lookup_load h r.item _ f
    rw [hstep, List.find?_cons]
    by_cases hf : r.item = f
    · -- No later row sets the field again.
      have hnone : rows.find? (fun r => r.item = f) = none := by
        rw [List.find?_eq_none]
        intro r' hr' h'
        exact hnd.1 (List.mem_map.2 ⟨r', hr', (of_decide_eq_true h').trans hf.symm⟩)
      rw [if_pos hf.symm] at hload
      cases rows with
      | nil =>
        rw [Collection.loadAll, List.foldl_nil, hload]
        simp [hf]
      | cons r' rows =>
        rw [ih hnd.2 (List.cons_ne_nil _ _), hnone, hload]
        simp [hf, HashField.clean]
    · rw [if_neg fun h => hf h.symm] at hload
      cases rows with
      | nil => simp [hf, hload, Collection.loadAll]
      | cons r' rows =>
        rw [ih hnd.2 (List.cons_ne_nil _ _), hload, Option.map_map]
        simp only [hf, decide_false]
        rfl

end Hash

namespace ListValue

variable {rows : List (LoadRow ℤ)} {l : ListValue}

/-- The node of a row. -/
def ofRow (r : LoadRow ℤ) : ListNode := ⟨r.value.getD [], r.item, false⟩

theorem nodes_loadAll : (Collection.lists.loadAll rows l).nodes = l.nodes ++ rows.map ofRow := by
  induction rows generalizing l with
  | nil => exact (List.append_nil _).symm
  | cons r rows ih =>
    refine ih.trans ?_
    rw [List.map_cons, List.append_cons]
    rfl

theorem length_loadAll : (Collection.lists.loadAll rows l).length = l.length + rows.length := by
  induction rows generalizing l with
  | nil => exact (Int.add_zero _).symm
  | cons r rows ih =>
    refine ih.trans ?_
    change l.length + 1 + (rows.length : ℤ) = l.length + ((rows.length + 1 : ℕ) : ℤ)
    omega

@[simp] theorem pendingDeleteOrds_loadAll :
    (Collection.lists.loadAll rows l).pendingDeleteOrds = l.pendingDeleteOrds := by
  induction rows generalizing l with
  | nil => rfl
  | cons r rows ih => exact ih

end ListValue

namespace Query

variable {q : Query} {D : Tables} {now : ℤ} {k : Key}

/-- The fields of a key that `load_hashes` does not skip. -/
def fieldRows (q : Query) (k : Key) : List (LoadRow Field) :=
  q.hashes.filter fun r => k = r.key ∧ r.item.length ≤ maxFieldSize

/-- The list items of a key. -/
def itemRows (q : Query) (k : Key) : List (LoadRow ℤ) := q.lists.filter fun r => k = r.key

theorem parent_unique {t t' : ValueType} {p p' : StoreRow} (h : Parent D now k t p)
    (h' : Parent D now k t' p') : t = t' ∧ p = p' := by
  obtain rfl := Option.some.inj (h.row.symm.trans h'.row)
  exact ⟨RowType.known.inj (h.known.symm.trans h'.known), rfl⟩

theorem filter_eq_nil {α : Type} {rows : List (LoadRow α)} (h : ∀ r ∈ rows, r.key ≠ k) :
    rows.filter (fun r => k = r.key) = [] := by
  rw [List.filter_eq_nil_iff]
  intro r hr hk
  exact h r hr (of_decide_eq_true hk).symm

namespace Selects

variable (hq : q.Selects D now)

include hq

theorem mem_fieldRows {r : LoadRow Field} : r ∈ q.fieldRows k ↔
    r.key = k ∧ r.item.length ≤ maxFieldSize ∧ ∃ p, Parent D now k .hash p ∧
      p.expireAt = r.expireAt ∧ D.hashFields k r.item = some r.value := by
  rw [fieldRows, List.mem_filter, decide_eq_true_iff, hq.mem_hashes]
  constructor
  · rintro ⟨h, rfl, hlen⟩
    exact ⟨rfl, hlen, h⟩
  · rintro ⟨rfl, hlen, h⟩
    exact ⟨h, rfl, hlen⟩

theorem mem_itemRows {r : LoadRow ℤ} : r ∈ q.itemRows k ↔
    r.key = k ∧ ∃ p, Parent D now k .list p ∧ p.expireAt = r.expireAt ∧
      D.listItems k r.item = some r.value := by
  rw [itemRows, List.mem_filter, decide_eq_true_iff, hq.mem_lists]
  constructor
  · rintro ⟨h, rfl⟩
    exact ⟨rfl, h⟩
  · rintro ⟨rfl, h⟩
    exact ⟨h, rfl⟩

theorem fieldRows_nodup : ((q.fieldRows k).map LoadRow.item).Nodup := by
  have h := (List.pairwise_map.1 hq.hashes_nodup).filter fun r =>
    k = r.key ∧ r.item.length ≤ maxFieldSize
  refine List.pairwise_map.2 (h.imp_of_mem fun hr hr' hne heq => hne ?_)
  exact Prod.ext ((hq.mem_fieldRows.1 hr).1.trans (hq.mem_fieldRows.1 hr').1.symm) heq

theorem itemRows_sorted : (q.itemRows k).Pairwise fun r r' => r.item < r'.item := by
  have h := hq.lists_sorted.filter fun r => k = r.key
  refine h.imp_of_mem fun hr hr' hlt => hlt ?_
  exact (hq.mem_itemRows.1 hr).1.trans (hq.mem_itemRows.1 hr').1.symm

/-- Of the rows of the three queries, a key has those of its type. -/
theorem scalars_filter_nil (h : ∀ t p, Parent D now k t p → t ≠ .string ∧ t ≠ .int) :
    q.scalars.filter (fun r => k = r.key) = [] :=
  filter_eq_nil fun r hr hk => by
    obtain ⟨ht, p, hp, -⟩ := (hq.mem_scalars r).1 hr
    rw [hk] at hp
    exact ht.elim (h _ p hp).1 (h _ p hp).2

theorem hashes_filter_nil (h : ∀ p, ¬Parent D now k .hash p) :
    q.hashes.filter (fun r => k = r.key) = [] :=
  filter_eq_nil fun r hr hk => by
    obtain ⟨p, hp, -⟩ := (hq.mem_hashes r).1 hr
    exact h p (hk ▸ hp)

theorem lists_filter_nil (h : ∀ p, ¬Parent D now k .list p) :
    q.lists.filter (fun r => k = r.key) = [] :=
  filter_eq_nil fun r hr hk => by
    obtain ⟨p, hp, -⟩ := (hq.mem_lists r).1 hr
    exact h p (hk ▸ hp)

theorem scalars_filter {t : ValueType} {p : StoreRow} (hp : Parent D now k t p)
    (ht : t = .string ∨ t = .int) :
    q.scalars.filter (fun r => k = r.key) = [⟨k, t, p.value, p.expireAt⟩] := by
  have hmem : ∀ r, r ∈ q.scalars.filter (fun r => k = r.key) ↔
      r = ⟨k, t, p.value, p.expireAt⟩ := by
    intro r
    rw [List.mem_filter, decide_eq_true_iff, hq.mem_scalars]
    constructor
    · rintro ⟨⟨-, p', hp', hexp, hval⟩, rfl⟩
      obtain ⟨rfl, rfl⟩ := parent_unique hp hp'
      rw [hexp, hval]
    · rintro rfl
      exact ⟨⟨ht, p, hp, rfl, rfl⟩, rfl⟩
  have hnd : (q.scalars.filter fun r => k = r.key).Nodup :=
    (List.Nodup.of_map _ hq.scalars_nodup).filter _
  refine List.perm_singleton.1 ((List.perm_ext_iff_of_nodup hnd (List.nodup_singleton _)).2 ?_)
  intro r
  rw [hmem, List.mem_singleton]

end Selects

end Query

/-- A value of the key that the load takes from the tables. -/
inductive Offered (D : Tables) (now : ℤ) (k : Key) : Prop
  | scalar {t : ValueType} {p : StoreRow} : k.length ≤ maxKeySize → Parent D now k t p →
      (t = .string ∨ t = .int) → Offered D now k
  | hash {p : StoreRow} {f : Field} : k.length ≤ maxKeySize → Parent D now k .hash p →
      f.length ≤ maxFieldSize → (D.hashFields k f).isSome → Offered D now k
  | list {p : StoreRow} {o : ℤ} : k.length ≤ maxKeySize → Parent D now k .list p →
      (D.listItems k o).isSome → Offered D now k

namespace Session

variable {q : Query} {D : Tables} {now : ℤ} {k : Key} {p : StoreRow}

theorem foldl_of_oversize (hk : maxKeySize < k.length) {α : Type} {rows : List (LoadRow α)}
    (cell : Option Entry → LoadRow α → Option Entry)
    (hcell : ∀ o r, r.key.length > maxKeySize → cell o r = o) (o : Option Entry) :
    (rows.filter fun r => k = r.key).foldl cell o = o := by
  rw [List.foldl_filter]
  induction rows with
  | nil => rfl
  | cons r rows ih =>
    rw [List.foldl_cons]
    split_ifs with h
    · rw [hcell o r (of_decide_eq_true h ▸ hk)]
      exact ih
    · exact ih

/-- The load of a key of type string or int. -/
theorem lookup_load_scalar (hq : q.Selects D now) (s : Session) {t : ValueType}
    (hp : Parent D now k t p) (ht : t = .string ∨ t = .int) :
    (s.load now q).store.lookup k =
      scalarCell now (s.store.lookup k) ⟨k, t, p.value, p.expireAt⟩ := by
  have hne : ∀ {t'}, t' ≠ .string → t' ≠ .int → ∀ p', ¬Parent D now k t' p' :=
    fun h₁ h₂ p' hp' => (Query.parent_unique hp hp').1 ▸ ht |>.elim h₁ h₂
  rw [lookup_load, hq.scalars_filter hp ht, hq.hashes_filter_nil (hne (by simp) (by simp)),
    hq.lists_filter_nil (hne (by simp) (by simp))]
  rfl

/-- The load of a hash. -/
theorem lookup_load_hash (hq : q.Selects D now) (s : Session) (hp : Parent D now k .hash p)
    (hk : k.length ≤ maxKeySize) : (s.load now q).store.lookup k =
      (q.fieldRows k).foldl (Collection.hashes.cell now) (s.store.lookup k) := by
  have hty : ∀ t p', Parent D now k t p' → t = .hash :=
    fun t p' hp' => (Query.parent_unique hp' hp).1
  rw [lookup_load, hq.scalars_filter_nil fun t p' hp' => by rw [hty t p' hp']; simp,
    hq.lists_filter_nil fun p' hp' => absurd (hty _ p' hp') (by simp), Query.fieldRows,
    List.foldl_filter, List.foldl_filter, List.foldl_nil, List.foldl_nil]
  congr 1
  funext o r
  by_cases hr : k = r.key
  · have hkey : ¬r.key.length > maxKeySize := hr ▸ Nat.not_lt.2 hk
    by_cases hlen : r.item.length ≤ maxFieldSize
    · rw [if_pos (by simpa using hr), if_pos (by simp [hr, hlen]), fieldCell,
        if_neg (not_or.2 ⟨hkey, Nat.not_lt.2 hlen⟩)]
      rfl
    · rw [if_pos (by simpa using hr), if_neg (by simp [hlen]), fieldCell,
        if_pos (.inr (Nat.not_le.1 hlen))]
  · rw [if_neg (by simpa using hr), if_neg (by simp [hr])]

/-- The load of a list. -/
theorem lookup_load_list (hq : q.Selects D now) (s : Session) (hp : Parent D now k .list p)
    (hk : k.length ≤ maxKeySize) : (s.load now q).store.lookup k =
      (q.itemRows k).foldl (Collection.lists.cell now) (s.store.lookup k) := by
  have hty : ∀ t p', Parent D now k t p' → t = .list :=
    fun t p' hp' => (Query.parent_unique hp' hp).1
  rw [lookup_load, hq.scalars_filter_nil fun t p' hp' => by rw [hty t p' hp']; simp,
    hq.hashes_filter_nil fun p' hp' => absurd (hty _ p' hp') (by simp), Query.itemRows,
    List.foldl_filter, List.foldl_filter, List.foldl_nil, List.foldl_nil]
  congr 1
  funext o r
  by_cases hr : k = r.key
  · rw [if_pos (by simpa using hr), if_pos (by simpa using hr), itemCell,
      if_neg (hr ▸ Nat.not_lt.2 hk)]
    rfl
  · rw [if_neg (by simpa using hr), if_neg (by simpa using hr)]

/-- The load leaves the other keys alone. -/
theorem lookup_load_of_not_offered (hq : q.Selects D now) (s : Session)
    (h : ¬Offered D now k) : (s.load now q).store.lookup k = s.store.lookup k := by
  by_cases hk : k.length ≤ maxKeySize
  · by_cases hp : ∃ t p, Parent D now k t p
    · obtain ⟨t, p, hp⟩ := hp
      cases t with
      | string => exact absurd (.scalar hk hp (.inl rfl)) h
      | int => exact absurd (.scalar hk hp (.inr rfl)) h
      | hash =>
        have hnil : q.fieldRows k = [] := by
          rw [List.eq_nil_iff_forall_not_mem]
          intro r hr
          obtain ⟨-, hlen, p', hp', -, hf⟩ := hq.mem_fieldRows.1 hr
          exact h (.hash hk hp' hlen (Option.isSome_iff_exists.2 ⟨_, hf⟩))
        rw [lookup_load_hash hq s hp hk, hnil]
        rfl
      | list =>
        have hnil : q.itemRows k = [] := by
          rw [List.eq_nil_iff_forall_not_mem]
          intro r hr
          obtain ⟨-, p', hp', -, hf⟩ := hq.mem_itemRows.1 hr
          exact h (.list hk hp' (Option.isSome_iff_exists.2 ⟨_, hf⟩))
        rw [lookup_load_list hq s hp hk, hnil]
        rfl
    · have hno : ∀ t p, ¬Parent D now k t p := fun t p hp' => hp ⟨t, p, hp'⟩
      rw [lookup_load, hq.scalars_filter_nil fun t p hp' => absurd hp' (hno t p),
        hq.hashes_filter_nil (hno _), hq.lists_filter_nil (hno _)]
      rfl
  · rw [Nat.not_le] at hk
    rw [lookup_load, foldl_of_oversize hk (itemCell now) fun o r hr => if_pos hr,
      foldl_of_oversize hk (fieldCell now) fun o r hr => if_pos (.inl hr),
      foldl_of_oversize hk (scalarCell now) fun o r hr => if_pos hr]

end Session

/-! ## Tables of one key -/

/-- A row among those of a key. -/
def rowAt {α : Type} [DecidableEq α] (l : List (α × Bytes)) (a : α) : Option (Option Bytes) :=
  (l.lookup a).map some

/-- Tables with the rows of one key. -/
def Tables.oneKey (k : Key) (p : StoreRow) (fields : List (Field × Bytes))
    (items : List (ℤ × Bytes)) : Tables where
  store k' := if k' = k then some p else none
  hashFields k' f := if k' = k then rowAt fields f else none
  listItems k' o := if k' = k then rowAt items o else none
  hashFields_parent k' f h := by
    split_ifs at h ⊢
    · rfl
    · exact h
  listItems_parent k' o h := by
    split_ifs at h ⊢
    · rfl
    · exact h

/-- What the queries return for one key of type `t`. -/
def Query.oneKey (t : ValueType) (k : Key) (p : StoreRow) (fields : List (Field × Bytes))
    (items : List (ℤ × Bytes)) : Query where
  scalars := if t = .string ∨ t = .int then [⟨k, t, p.value, p.expireAt⟩] else []
  hashes := if t = .hash then fields.map fun f => ⟨k, f.1, some f.2, p.expireAt⟩ else []
  lists := if t = .list then items.map fun i => ⟨k, i.1, some i.2, p.expireAt⟩ else []

section

variable {k k' : Key} {p p' : StoreRow} {fields : List (Field × Bytes)} {items : List (ℤ × Bytes)}
  {now : ℤ} {t t' : ValueType}

theorem parent_oneKey (ht : p.type = .known t) (halive : Alive now p.expireAt) :
    Parent (.oneKey k p fields items) now k' t' p' ↔ k' = k ∧ t' = t ∧ p' = p := by
  constructor
  · rintro ⟨hrow, hknown, -⟩
    simp only [Tables.oneKey] at hrow
    split_ifs at hrow with hk
    obtain rfl := Option.some.inj hrow
    exact ⟨hk, (RowType.known.inj (ht.symm.trans hknown)).symm, rfl⟩
  · rintro ⟨rfl, rfl, rfl⟩
    exact ⟨if_pos rfl, ht, halive⟩

theorem lookup_eq_some_iff_mem {α β : Type} [DecidableEq α] {l : List (α × β)}
    (h : (l.map Prod.fst).Nodup) {a : α} {b : β} : l.lookup a = some b ↔ (a, b) ∈ l := by
  rw [List.lookup_eq_some_iff]
  constructor
  · rintro ⟨s, u, rfl, -⟩
    simp
  · intro hmem
    obtain ⟨s, u, rfl⟩ := List.append_of_mem hmem
    rw [List.map_append, List.map_cons, List.nodup_append] at h
    refine ⟨s, u, rfl, fun x hx => bne_iff_ne.2 fun heq => ?_⟩
    exact h.2.2 _ (List.mem_map_of_mem hx) a List.mem_cons_self heq.symm

theorem rowAt_eq_none {α : Type} [DecidableEq α] {l : List (α × Bytes)} {a : α}
    (h : a ∉ l.map Prod.fst) : rowAt l a = none := by
  rw [rowAt, Option.map_eq_none_iff, List.lookup_eq_none_iff]
  exact fun x hx => bne_iff_ne.2 fun heq => h (List.mem_map.2 ⟨x, hx, heq.symm⟩)

/-- The rows of a collection, if the key is of its type. -/
theorem mem_rows_oneKey {α : Type} [DecidableEq α] {l : List (α × Bytes)}
    (h : (l.map Prod.fst).Nodup) (c : Prop) [Decidable c] {r : LoadRow α} :
    r ∈ (if c then l.map fun x => (⟨k, x.1, some x.2, p.expireAt⟩ : LoadRow α) else []) ↔
      ∃ p', (r.key = k ∧ c ∧ p' = p) ∧ p'.expireAt = r.expireAt ∧
        (if r.key = k then rowAt l r.item else none) = some r.value := by
  split_ifs with hc hk hk
  · rw [List.mem_map]
    constructor
    · rintro ⟨⟨a, b⟩, hx, rfl⟩
      exact ⟨p, ⟨rfl, hc, rfl⟩, rfl, by rw [rowAt, (lookup_eq_some_iff_mem h).2 hx]; rfl⟩
    · obtain ⟨key, a, value, x⟩ := r
      rintro ⟨p', ⟨rfl, -, rfl⟩, rfl, hrow⟩
      obtain ⟨b, hb, rfl⟩ := Option.map_eq_some_iff.1 hrow
      exact ⟨(a, b), (lookup_eq_some_iff_mem h).1 hb, rfl⟩
  · refine iff_of_false (fun hr => hk ?_) fun ⟨p', hp', _⟩ => hk hp'.1
    obtain ⟨x, -, rfl⟩ := List.mem_map.1 hr
    rfl
  · simp [hc]
  · simp [hc]

/-- The query selects the rows. -/
theorem selects_oneKey (ht : p.type = .known t) (halive : Alive now p.expireAt)
    (hfields : (fields.map Prod.fst).Nodup) (hitems : (items.map Prod.fst).Pairwise (· < ·)) :
    (Query.oneKey t k p fields items).Selects (.oneKey k p fields items) now := by
  have hparent : ∀ {k' t' p'}, Parent (.oneKey k p fields items) now k' t' p' ↔
      k' = k ∧ t = t' ∧ p' = p := by
    intro k' t' p'
    rw [parent_oneKey ht halive, eq_comm (a := t')]
  refine ⟨fun r => ?_, fun r => ?_, fun r => ?_, ?_, ?_, ?_⟩ <;> simp only [Query.oneKey, hparent]
  · split_ifs with hc
    · rw [List.mem_singleton]
      obtain ⟨key, item, value, x⟩ := r
      constructor
      · rintro ⟨⟩
        exact ⟨hc, p, ⟨rfl, rfl, rfl⟩, rfl, rfl⟩
      · rintro ⟨-, p', ⟨rfl, rfl, rfl⟩, rfl, rfl⟩
        rfl
    · refine iff_of_false (by simp) ?_
      rintro ⟨hitem, p', ⟨-, rfl, -⟩, -⟩
      exact hc hitem
  · exact mem_rows_oneKey hfields (t = .hash)
  · exact mem_rows_oneKey (hitems.imp Int.ne_of_lt) (t = .list)
  · split_ifs
    · exact List.nodup_singleton _
    · exact List.nodup_nil
  · split_ifs
    · rw [List.map_map]
      exact (List.pairwise_map.1 hfields).map _ fun x y hne heq => hne (Prod.mk.inj heq).2
    · exact List.nodup_nil
  · split_ifs
    · exact (List.pairwise_map.1 hitems).map _ fun x y hlt _ => hlt
    · exact .nil

/-- The row of a string. -/
def stringRow : StoreRow := ⟨.known .string, some (encodeString [118]), none, 2⟩

/-- Tables with one string. -/
def stringTables : Tables := .oneKey [107] stringRow [] []

/-- The rows of `stringTables`. -/
def stringQuery : Query := .oneKey .string [107] stringRow [] []

/-- The row of a hash. -/
def hashRow : StoreRow := ⟨.known .hash, none, none, 2⟩

/-- Tables with a hash of one field. -/
def hashTables : Tables := .oneKey [107] hashRow [([97], [49])] []

/-- The rows of `hashTables`. -/
def hashQuery : Query := .oneKey .hash [107] hashRow [([97], [49])] []

/-- The row of a list. -/
def listRow : StoreRow := ⟨.known .list, none, none, 2⟩

/-- Tables with a list of one item. -/
def listTables : Tables := .oneKey [107] listRow [] [(0, [118])]

/-- The rows of `listTables`. -/
def listQuery : Query := .oneKey .list [107] listRow [] [(0, [118])]

theorem alive_none : Alive now none := fun _ h => absurd h (by simp)

theorem parent_stringTables :
    Parent stringTables now k t p ↔ k = [107] ∧ t = .string ∧ p = stringRow :=
  parent_oneKey rfl alive_none

theorem selects_stringQuery (now : ℤ) : stringQuery.Selects stringTables now :=
  selects_oneKey rfl alive_none List.nodup_nil .nil

theorem parent_hashTables : Parent hashTables now k t p ↔ k = [107] ∧ t = .hash ∧ p = hashRow :=
  parent_oneKey rfl alive_none

theorem selects_hashQuery (now : ℤ) : hashQuery.Selects hashTables now :=
  selects_oneKey rfl alive_none (List.nodup_singleton _) .nil

theorem selects_listQuery (now : ℤ) : listQuery.Selects listTables now :=
  selects_oneKey rfl alive_none List.nodup_nil (List.pairwise_singleton _ _)

end

end PgRedis
