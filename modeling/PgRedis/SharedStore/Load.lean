import PgRedis.Session.Resync
import PgRedis.SharedStore

/-!
# Loading the shared keyspace

The loaders of `persistence.c` in shared mode. A row goes through the copy of its entry
and is written back at once, before the next row. The loader of hashes clears the
marks of the fields before, so that of a hash which is there already nothing is
written: only the first field of a hash is loaded.

`load_complete_iff` says exactly from which tables the load of an empty keyspace is
complete: every hash must have one field, every list some item, and no value may be
longer than 65535 bytes. Memory is taken to suffice.
-/

namespace PgRedis

open Lib

namespace SharedStore

section

variable (hashBytes : Bytes → UInt32)

/-- `load_strings_and_ints`, one row. -/
def loadScalar (now : ℤ) (S : SharedStore) (r : LoadRow ValueType) :
    SharedStore × Except SharedError Unit :=
  if r.key.length > maxKeySize then (S, .ok ())
  else match S.upsert now r.key with
    | (S', e, _) => match e.loadScalar r with
      | none => ((S'.remove r.key).1, .ok ())
      | some e' => S'.writeback hashBytes enough r.key e'

/-- `load_hashes`, one row. -/
def loadField (now : ℤ) (S : SharedStore) (r : LoadRow Field) :
    SharedStore × Except SharedError Unit :=
  if r.key.length > maxKeySize then (S, .ok ())
  else if r.item.length > maxFieldSize then (S, .ok ())
  else match S.upsert now r.key with
    | (S', e, isNew) => S'.writeback hashBytes enough r.key (e.loadField r isNew)

/-- `load_lists`, one row. -/
def loadItem (now : ℤ) (S : SharedStore) (r : LoadRow ℤ) : SharedStore × Except SharedError Unit :=
  if r.key.length > maxKeySize then (S, .ok ())
  else match S.upsert now r.key with
    | (S', e, isNew) => S'.writeback hashBytes enough r.key (e.loadItem r isNew)

/-- The loop over the rows of a query, which an error leaves. -/
def loadRows {α : Type} (f : SharedStore → LoadRow α → SharedStore × Except SharedError Unit) :
    List (LoadRow α) → SharedStore → SharedStore × Except SharedError Unit
  | [], S => (S, .ok ())
  | r :: rows, S => match f S r with
    | (S, .error err) => (S, .error err)
    | (S, .ok ()) => loadRows f rows S

/-- `pg_redis_persistence_do_load` in shared mode. -/
def load (now : ℤ) (q : Query) (S : SharedStore) : SharedStore × Except SharedError Unit :=
  match loadRows (loadScalar hashBytes now) q.scalars S with
  | (S, .error err) => (S, .error err)
  | (S, .ok ()) => match loadRows (loadField hashBytes now) q.hashes S with
    | (S, .error err) => (S, .error err)
    | (S, .ok ()) => loadRows (loadItem hashBytes now) q.lists S

end

end SharedStore

/-! ## Completeness -/

/-- The value of an entry, as shared memory holds it. -/
def SharedValue.look (hashBytes : Bytes → UInt32) (d : Dsa) : SharedValue → Look
  | .str _ s => .str s
  | .int i => .word i
  | .hash table _ => .hash fun f => (SharedHash.get hashBytes f ⟨d, table⟩).toOption.join
  | .list l => .list l.values

/-- What the shared keyspace holds under a key: type, value and expiry. -/
def SharedStore.view (hashBytes : Bytes → UInt32) (S : SharedStore) (k : Key) :
    Option (ValueType × Look × Option ℤ) :=
  (S.entries.lookup k).map fun se => (se.value.type, se.value.look hashBytes S.dsa, se.expireAt)

/-- The type, value and expiry that the tables give to a key which has not expired. A
    NULL is an empty string or zero, a string or integer that does not decode is none,
    and a field whose name is too long is none. -/
inductive Durably (D : Tables) (now : ℤ) (k : Key) : ValueType × Look × Option ℤ → Prop
  | string {p : StoreRow} {s : Bytes} : Parent D now k .string p →
      p.value.elim (some []) decodeString = some s → Durably D now k (.string, .str s, p.expireAt)
  | int {p : StoreRow} {i : ℤ} : Parent D now k .int p →
      p.value.elim (some 0) decodeInt = some i → Durably D now k (.int, .word i, p.expireAt)
  | hash {p : StoreRow} : Parent D now k .hash p →
      Durably D now k (.hash, .hash (loadedField D k), p.expireAt)
  | list {p : StoreRow} {vs : List Bytes} : Parent D now k .list p → InOrder (D.listItems k) vs →
      Durably D now k (.list, .list vs, p.expireAt)

/-- A load that raises no error and leaves each key with its durable value, and nothing
    else. Keys that are too long for the keyspace are left aside. -/
structure Complete (hashBytes : Bytes → UInt32) (D : Tables) (now : ℤ)
    (x : SharedStore × Except SharedError Unit) : Prop where
  ok : x.2 = .ok ()
  holds : ∀ k v, k.length ≤ maxKeySize → (x.1.view hashBytes k = some v ↔ Durably D now k v)

/-- When the load leaves a key with its durable value: a hash must have one field, a list
    some item, and no value may be too long. -/
structure Loadable (D : Tables) (now : ℤ) (k : Key) : Prop where
  hash : ∀ p, Parent D now k .hash p → ∃ f v, loadedField D k f = some v ∧ v.length ≤ uint16Max ∧
    ∀ g, (loadedField D k g).isSome → g = f
  list : ∀ p, Parent D now k .list p → (∃ o, (D.listItems k o).isSome) ∧
    ∀ o v, D.listItems k o = some v → (v.getD []).length ≤ uint16Max

/-! ## One row -/

namespace SharedStore

variable {hashBytes : Bytes → UInt32} {now : ℤ} {S : SharedStore} {k : Key}

/-- The place of the key after an upsert and a writeback. -/
theorem lookup_edit (key : Key) (e : Entry) :
    ((S.upsert now key).1.writeback hashBytes enough key e).1.entries.lookup k =
      if k = key then (SharedEntry.writeback hashBytes enough e (S.upsert now key).1.dsa
        (some (SharedEntry.upserted now (S.entries.lookup key)).1)).2.1
      else S.entries.lookup k := by
  rw [lookup_writeback, lookup_upsert, lookup_upsert, if_pos rfl]
  split_ifs <;> rfl

theorem edit_snd (key : Key) (e : Entry) :
    ((S.upsert now key).1.writeback hashBytes enough key e).2 =
      (SharedEntry.writeback hashBytes enough e (S.upsert now key).1.dsa
        (some (SharedEntry.upserted now (S.entries.lookup key)).1)).2.2 := by
  rw [writeback_snd, lookup_upsert, if_pos rfl]

theorem lookup_loadScalar_ne {r : LoadRow ValueType} (hk : k ≠ r.key) :
    (S.loadScalar hashBytes now r).1.entries.lookup k = S.entries.lookup k := by
  rw [loadScalar]
  split_ifs
  · rfl
  · cases h : (S.upsert now r.key).2.1.loadScalar r with
    | none => simp only [h, lookup_remove, lookup_upsert, if_neg hk]
    | some e => simp only [h, lookup_edit, if_neg hk]

theorem lookup_loadField_ne {r : LoadRow Field} (hk : k ≠ r.key) :
    (S.loadField hashBytes now r).1.entries.lookup k = S.entries.lookup k := by
  rw [loadField]
  split_ifs
  · rfl
  · rfl
  · simp only [lookup_edit, if_neg hk]

theorem lookup_loadItem_ne {r : LoadRow ℤ} (hk : k ≠ r.key) :
    (S.loadItem hashBytes now r).1.entries.lookup k = S.entries.lookup k := by
  rw [loadItem]
  split_ifs
  · rfl
  · simp only [lookup_edit, if_neg hk]

/-- A hash with nothing marked. -/
theorem clean_of_load (h : Hash) (f : Field) (v : Bytes) :
    (h.load f v).fields.toList.filterMap
      (fun g => if g.2.dirty then some (g.1, g.2.value) else none) = [] := by
  rw [List.filterMap_eq_nil_iff]
  rintro ⟨g, x⟩ hg
  rw [Htab.mem_toList, Hash.lookup_load] at hg
  have hclean : x.dirty = false := by
    split_ifs at hg
    · rw [← Option.some.inj hg]
    · obtain ⟨y, -, rfl⟩ := Option.map_eq_some_iff.1 hg
      rfl
  simp [hclean]

/-- The copy of a hash, after the load of a field into it: the marks are gone. -/
theorem loadField_clean {se : SharedEntry} {table : Option SharedTable} {count : ℤ}
    (hse : se.value = .hash table count) (r : LoadRow Field) :
    let e := se.materialize.loadField r false
    e.type = .hash ∧ e.dirtyFields = [] ∧ e.tombstones = [] ∧
      e.expireAt = r.expireAt.or se.expireAt ∧ e.version = se.version := by
  simp only [SharedEntry.materialize, hse, SharedValue.type, SharedValue.payload,
    Entry.loadField, Entry.loadInto]
  cases hm : SharedHash.materializeTable table with
  | none =>
    simp [Collection.hashes, Payload.null, Entry.dirtyFields, Entry.tombstones]
  | some h =>
    have htomb : (h.load r.item (r.value.getD [])).tombstones = [] :=
      (Hash.tombstones_set _ _ _).trans (SharedHash.tombstones_materialize hm)
    simp [Collection.hashes, Entry.dirtyFields, Entry.tombstones, clean_of_load, htomb]

/-- A copy of another type gets a new collection with the one row. -/
theorem loadInto_new {α C : Type} (c : Collection α C) {e : Entry} (h : e.type ≠ c.type)
    (r : LoadRow α) (isNew : Bool) :
    let e' := e.loadInto c r isNew
    e'.type = c.type ∧ e'.value = c.wrap (c.load c.create r.item (r.value.getD [])) ∧
      e'.expireAt = r.expireAt.or e.expireAt ∧ e'.version = e.version := by
  have hreset : (isNew || decide (e.type ≠ c.type)) = true := by
    rw [decide_eq_true h, Bool.or_true]
  simp only [Entry.loadInto, if_pos hreset, c.unwrap_wrap]
  exact ⟨trivial, trivial, rfl, rfl⟩

theorem loadField_eq {r : LoadRow Field} (hk : r.key.length ≤ maxKeySize)
    (hf : r.item.length ≤ maxFieldSize) : S.loadField hashBytes now r =
      (S.upsert now r.key).1.writeback hashBytes enough r.key
        ((SharedEntry.upserted now (S.entries.lookup r.key)).1.materialize.loadField r
          (SharedEntry.upserted now (S.entries.lookup r.key)).2) := by
  have hup : S.upsert now r.key = ((S.upsert now r.key).1, _) := Prod.ext rfl upsert_snd
  rw [loadField, if_neg (Nat.not_lt.2 hk), if_neg (Nat.not_lt.2 hf), hup]

theorem loadItem_eq {r : LoadRow ℤ} (hk : r.key.length ≤ maxKeySize) :
    S.loadItem hashBytes now r = (S.upsert now r.key).1.writeback hashBytes enough r.key
      ((SharedEntry.upserted now (S.entries.lookup r.key)).1.materialize.loadItem r
        (SharedEntry.upserted now (S.entries.lookup r.key)).2) := by
  have hup : S.upsert now r.key = ((S.upsert now r.key).1, _) := Prod.ext rfl upsert_snd
  rw [loadItem, if_neg (Nat.not_lt.2 hk), hup]

/-- A field loaded into the place of a hash: nothing but the expiry is written. -/
theorem loadField_again (hashBytes : Bytes → UInt32) {r : LoadRow Field}
    (hk : r.key.length ≤ maxKeySize) (hf : r.item.length ≤ maxFieldSize) {se : SharedEntry}
    {table : Option SharedTable} {count : ℤ}
    (hup : (SharedEntry.upserted now (S.entries.lookup r.key)).1 = se)
    (hse : se.value = .hash table count) :
    (S.loadField hashBytes now r).2 = .ok () ∧
      (S.loadField hashBytes now r).1.entries.lookup r.key =
        some ⟨.hash table count, r.expireAt.or se.expireAt, se.version⟩ := by
  have hold : (SharedEntry.upserted now (S.entries.lookup r.key)).2 = false := by
    rw [← Bool.not_eq_true]
    intro h
    rw [← hup, upserted_new h] at hse
    exact absurd hse (by simp [SharedEntry.fresh, SharedValue.empty])
  obtain ⟨htype, hdirty, htomb, hexp, hver⟩ := loadField_clean hse r
  rw [loadField_eq hk hf, lookup_edit, edit_snd, if_pos rfl, hup, hold,
    SharedEntry.writeback_of_clean hse htype hdirty htomb, hexp, hver]
  exact ⟨rfl, rfl⟩

/-- A field loaded where there is no hash: it becomes the only one, unless its value is
    too long. -/
theorem loadField_first {r : LoadRow Field} (hk : r.key.length ≤ maxKeySize)
    (hf : r.item.length ≤ maxFieldSize) {se : SharedEntry}
    (hup : (SharedEntry.upserted now (S.entries.lookup r.key)).1 = se)
    (hse : se.value.type ≠ .hash) :
    ((r.value.getD []).length ≤ uint16Max ∧ (S.loadField hashBytes now r).2 = .ok () ∧
      ∃ table count, (S.loadField hashBytes now r).1.entries.lookup r.key =
          some ⟨.hash table count, r.expireAt.or se.expireAt, se.version⟩ ∧
        ∀ d, SharedHash.Holds hashBytes ⟨d, table⟩ (Finmap.singleton r.item (r.value.getD []))) ∨
    uint16Max < (r.value.getD []).length ∧ ∃ err, (S.loadField hashBytes now r).2 = .error err := by
  have hlist : (Hash.create.load r.item (r.value.getD [])).fields.toList =
      [(r.item, ⟨r.value.getD [], false⟩)] := by
    simp [Hash.load, Hash.fields_set, Htab.toList, Htab.mapValues]
  have ho : ∀ se', some se = some se' → se'.value.type ≠ .hash := fun _ h => Option.some.inj h ▸ hse
  obtain ⟨htype, hvalue, hexp, hver⟩ := loadInto_new .hashes (e := se.materialize) hse r
    (SharedEntry.upserted now (S.entries.lookup r.key)).2
  rw [loadField_eq hk hf, lookup_edit, edit_snd, if_pos rfl, hup, Entry.loadField]
  rcases SharedEntry.writeback_hash (fun _ => rfl) htype hvalue ho hashBytes
    (S.upsert now r.key).1.dsa with ⟨d, table, count, heq, hholds, hall⟩ | ⟨herr, f, hf, hlong⟩
  · have hshort := hall _ (hlist ▸ List.mem_cons_self)
    rw [show enough = fun _ => true from rfl, heq, hexp, hver]
    rw [show Collection.hashes.load = Hash.load from rfl,
      show Collection.hashes.create = Hash.create from rfl, hlist] at hholds
    exact .inl ⟨hshort, rfl, table, count, rfl, hholds⟩
  · obtain rfl := List.mem_singleton.1 (hlist ▸ hf)
    exact .inr ⟨hlong, herr⟩

/-- An item loaded where there is no list. -/
theorem loadItem_first (hashBytes : Bytes → UInt32) {r : LoadRow ℤ}
    (hk : r.key.length ≤ maxKeySize) {se : SharedEntry}
    (hup : (SharedEntry.upserted now (S.entries.lookup r.key)).1 = se)
    (hse : se.value.type ≠ .list) :
    ∃ l, (S.loadItem hashBytes now r).1.entries.lookup r.key =
      some ⟨.list l, r.expireAt.or se.expireAt, se.version⟩ ∧
        l.values = [clip (r.value.getD [])] := by
  obtain ⟨htype, hvalue, hexp, hver⟩ := loadInto_new .lists (e := se.materialize) hse r
    (SharedEntry.upserted now (S.entries.lookup r.key)).2
  rw [loadItem_eq hk, lookup_edit, if_pos rfl, hup, Entry.loadItem]
  obtain ⟨d, l, heq, -, hl⟩ := SharedEntry.writeback_list enough_eq htype hvalue
    hashBytes (S.upsert now r.key).1.dsa (some se)
  rw [heq, hexp, hver]
  exact ⟨l, rfl, hl⟩

/-- An item loaded into the place of a list. -/
theorem loadItem_again (hashBytes : Bytes → UInt32) {r : LoadRow ℤ}
    (hk : r.key.length ≤ maxKeySize) {se : SharedEntry} {l : SharedList}
    (hup : SharedEntry.upserted now (S.entries.lookup r.key) = (se, false))
    (hse : se.value = .list l) (hl : l.nodes ≠ []) :
    ∃ l', (S.loadItem hashBytes now r).1.entries.lookup r.key =
      some ⟨.list l', r.expireAt.or se.expireAt, se.version⟩ ∧
        l'.values = l.values.map clip ++ [clip (r.value.getD [])] := by
  obtain ⟨a, ha⟩ : ∃ a, l.materialize = some a := ⟨_, if_neg hl⟩
  have hload : se.materialize.loadItem r false = { se.materialize with
      value := .list (a.load r.item (r.value.getD []))
      expireAt := r.expireAt.or se.expireAt } := by
    simp [SharedEntry.materialize, hse, SharedValue.type, SharedValue.payload, ha,
      Entry.loadItem, Entry.loadInto, Collection.lists]
  obtain ⟨d, l', heq, -, hl'⟩ := SharedEntry.writeback_list enough_eq
    (e := se.materialize.loadItem r false) (a := a.load r.item (r.value.getD []))
    (by rw [hload, SharedEntry.materialize, hse]; rfl) (by rw [hload]) hashBytes
    (S.upsert now r.key).1.dsa (some se)
  rw [loadItem_eq hk, lookup_edit, if_pos rfl, hup, heq, hload]
  refine ⟨l', rfl, ?_⟩
  rw [hl', ListValue.load, (SharedList.materialize_eq ha).1, SharedList.values, List.map_append,
    List.map_map, List.map_map]
  rfl

/-- The entry of a loaded string or integer; none if the value does not decode. -/
def ScalarLoaded (r : LoadRow ValueType) (o : Option SharedEntry) : Prop :=
  match r.item with
  | .string => match r.value.elim (some []) decodeString with
    | none => o = none
    | some s => ∃ p version, o = some ⟨.str p s, r.expireAt, version⟩
  | .int => match r.value.elim (some 0) decodeInt with
    | none => o = none
    | some i => ∃ version, o = some ⟨.int i, r.expireAt, version⟩
  | _ => True

/-- The entry after some rows of its key: none yet, or the one row there can be. -/
def ScalarsLoaded : List (LoadRow ValueType) → Option SharedEntry → Prop
  | [], o => o = none
  | [r], o => ScalarLoaded r o
  | _, _ => True

theorem loadScalar_eq {r : LoadRow ValueType} (hk : r.key.length ≤ maxKeySize) :
    S.loadScalar hashBytes now r =
      match (SharedEntry.upserted now (S.entries.lookup r.key)).1.materialize.loadScalar r with
      | none => (((S.upsert now r.key).1.remove r.key).1, .ok ())
      | some e => (S.upsert now r.key).1.writeback hashBytes enough r.key e := by
  have hup : S.upsert now r.key = ((S.upsert now r.key).1, _) := Prod.ext rfl upsert_snd
  rw [loadScalar, if_neg (Nat.not_lt.2 hk), hup]

/-- A string or integer loaded where there is nothing. -/
theorem loadScalar_first {r : LoadRow ValueType} (hk : r.key.length ≤ maxKeySize)
    (hnone : S.entries.lookup r.key = none) :
    ScalarLoaded r ((S.loadScalar hashBytes now r).1.entries.lookup r.key) := by
  -- What is written back to the new entry is a copy of the loaded one.
  have hwrite : ∀ e : Entry, e.type = .string ∨ e.type = .int →
      ∃ v, ((S.upsert now r.key).1.writeback hashBytes enough r.key e).1.entries.lookup r.key =
        some ⟨v, e.expireAt, e.version⟩ ∧ v.IsCopy e := by
    intro e he
    obtain ⟨d, v, heq, hv⟩ := SharedEntry.writeback_scalar enough_eq he hashBytes
      (S.upsert now r.key).1.dsa (some (SharedEntry.upserted now (S.entries.lookup r.key)).1)
    exact ⟨v, by rw [lookup_edit, if_pos rfl, heq], hv⟩
  rw [loadScalar_eq hk, hnone]
  obtain ⟨key, item, value, x⟩ := r
  cases item with
  | string =>
    cases value with
    | none =>
      obtain ⟨v, hv, rfl⟩ := hwrite ⟨.string, .null, x, 1, false⟩ (.inl rfl)
      exact ⟨none, 1, hv⟩
    | some raw =>
      simp only [ScalarLoaded, Option.elim, Entry.loadScalar]
      cases hraw : decodeString raw with
      | none => simp [lookup_remove]
      | some s =>
        obtain ⟨v, hv, p, rfl⟩ := hwrite ⟨.string, .str s, x, 1, false⟩ (.inl rfl)
        exact ⟨p, 1, hv⟩
  | int =>
    cases value with
    | none =>
      obtain ⟨v, hv, rfl⟩ := hwrite ⟨.int, .null, x, 1, false⟩ (.inr rfl)
      exact ⟨1, hv⟩
    | some raw =>
      simp only [ScalarLoaded, Option.elim, Entry.loadScalar]
      cases hraw : decodeInt raw with
      | none => simp [lookup_remove]
      | some i =>
        obtain ⟨v, hv, rfl⟩ := hwrite ⟨.int, .word i, x, 1, false⟩ (.inr rfl)
        exact ⟨1, hv⟩
  | hash => trivial
  | list => trivial

/-! ## All rows -/

theorem type_of_loadScalar {e e' : Entry} {r : LoadRow ValueType}
    (ht : r.item = .string ∨ r.item = .int) (h : e.loadScalar r = some e') : e'.type = r.item := by
  obtain ⟨key, item, value, x⟩ := r
  rcases ht with rfl | rfl <;> cases value <;>
    simp only [Entry.loadScalar, Option.some.injEq, Option.map_eq_some_iff] at h
  · rw [← h]
  · obtain ⟨s, -, rfl⟩ := h
    rfl
  · rw [← h]
  · obtain ⟨i, -, rfl⟩ := h
    rfl

theorem type_loadInto {α C : Type} (c : Collection α C) (r : LoadRow α) (isNew : Bool) (e : Entry) :
    (e.loadInto c r isNew).type = c.type := by
  rw [Entry.loadInto]
  by_cases h : (isNew || decide (e.type ≠ c.type)) = true
  · rw [if_pos h]
  · rw [if_neg h]
    simp only [Bool.or_eq_true, decide_eq_true_eq, not_or, not_not] at h
    exact h.2

/-- A row of a string or integer raises no error. -/
theorem loadScalar_ok {r : LoadRow ValueType} (ht : r.item = .string ∨ r.item = .int) :
    (S.loadScalar hashBytes now r).2 = .ok () := by
  by_cases hk : r.key.length ≤ maxKeySize
  · rw [loadScalar_eq hk]
    cases hload : (SharedEntry.upserted now
        (S.entries.lookup r.key)).1.materialize.loadScalar r with
    | none => rfl
    | some e =>
      have he : e.type ≠ .hash := by
        rw [type_of_loadScalar ht hload]
        rcases ht with h | h <;> simp [h]
      simp only [edit_snd]
      exact SharedEntry.writeback_ok (fun _ => rfl) he hashBytes _ _
  · rw [loadScalar, if_pos (Nat.not_le.1 hk)]

/-- A row of a hash raises none if its value is short. -/
theorem loadField_ok {r : LoadRow Field} (hlen : r.key.length ≤ maxKeySize →
    r.item.length ≤ maxFieldSize → (r.value.getD []).length ≤ uint16Max) :
    (S.loadField hashBytes now r).2 = .ok () := by
  by_cases hk : r.key.length ≤ maxKeySize
  · by_cases hf : r.item.length ≤ maxFieldSize
    · cases hv : (SharedEntry.upserted now (S.entries.lookup r.key)).1.value with
      | hash table count => exact (loadField_again hashBytes hk hf rfl hv).1
      | _ =>
        have hne : (SharedEntry.upserted now (S.entries.lookup r.key)).1.value.type ≠ .hash := by
          simp [hv, SharedValue.type]
        rcases loadField_first hk hf rfl hne with ⟨-, hok, -⟩ | ⟨hlong, -⟩
        · exact hok
        · exact absurd (hlen hk hf) (Nat.not_le.2 hlong)
    · rw [loadField, if_neg (Nat.not_lt.2 hk), if_pos (Nat.not_le.1 hf)]
  · rw [loadField, if_pos (Nat.not_le.1 hk)]

/-- A row of a list raises none. -/
theorem loadItem_ok (r : LoadRow ℤ) : (S.loadItem hashBytes now r).2 = .ok () := by
  by_cases hk : r.key.length ≤ maxKeySize
  · rw [loadItem_eq hk, edit_snd]
    refine SharedEntry.writeback_ok (fun _ => rfl) ?_ hashBytes _ _
    rw [Entry.loadItem, type_loadInto]
    decide
  · rw [loadItem, if_pos (Nat.not_le.1 hk)]

section

variable {α : Type} {f : SharedStore → LoadRow α → SharedStore × Except SharedError Unit}
  {rows : List (LoadRow α)}

theorem loadRows_ok (h : ∀ r ∈ rows, ∀ S, (f S r).2 = .ok ()) (S : SharedStore) :
    (loadRows f rows S).2 = .ok () := by
  induction rows generalizing S with
  | nil => rfl
  | cons r rows ih =>
    have hr : f S r = ((f S r).1, .ok ()) := Prod.ext rfl (h r List.mem_cons_self S)
    rw [loadRows, hr]
    exact ih (fun r' hr' => h r' (List.mem_cons_of_mem _ hr')) _

variable (hframe : ∀ S r, k ≠ r.key → (f S r).1.entries.lookup k = S.entries.lookup k)

include hframe

/-- The rows of other keys leave the place of an entry alone. -/
theorem lookup_loadRows_of_filter_nil (hnil : rows.filter (fun r => k = r.key) = [])
    {S S' : SharedStore} {reply : Except SharedError Unit}
    (h : loadRows f rows S = (S', reply)) : S'.entries.lookup k = S.entries.lookup k := by
  induction rows generalizing S with
  | nil => exact (Prod.mk.inj h).1 ▸ rfl
  | cons r rows ih =>
    rw [List.filter_eq_nil_iff, List.forall_mem_cons, decide_eq_true_eq] at hnil
    have hr := hframe S r hnil.1
    rw [loadRows] at h
    rcases hx : f S r with ⟨S₁, err | u⟩ <;> rw [hx] at h hr
    · exact (Prod.mk.inj h).1 ▸ hr
    · exact (ih (List.filter_eq_nil_iff.2 hnil.2) h).trans hr

/-- What the rows of a key make of the place of its entry, one after the other. -/
theorem loadRows_seen (Seen : List (LoadRow α) → Option SharedEntry → Prop)
    (hstep : ∀ S r seen, r ∈ rows → k = r.key → Seen seen (S.entries.lookup k) →
      (f S r).2 = .ok () → Seen (seen ++ [r]) ((f S r).1.entries.lookup k))
    {S S' : SharedStore} (seen : List (LoadRow α)) (h : loadRows f rows S = (S', .ok ()))
    (hseen : Seen seen (S.entries.lookup k)) :
    Seen (seen ++ rows.filter fun r => k = r.key) (S'.entries.lookup k) := by
  induction rows generalizing S seen with
  | nil =>
    rw [List.filter_nil, List.append_nil]
    exact (Prod.mk.inj h).1 ▸ hseen
  | cons r rows ih =>
    have hr := hstep S r seen List.mem_cons_self
    have hr' := hframe S r
    rw [loadRows] at h
    rcases hx : f S r with ⟨S₁, err | u⟩ <;> rw [hx] at h hr hr'
    · exact absurd (Prod.mk.inj h).2 (by simp)
    · have hstep' := fun S r' seen hr' => hstep S r' seen (List.mem_cons_of_mem r hr')
      by_cases hk : k = r.key
      · rw [List.filter_cons_of_pos (by simpa using hk), List.append_cons]
        exact ih hstep' _ h (hr hk hseen rfl)
      · rw [List.filter_cons_of_neg (by simpa using hk)]
        exact ih hstep' _ h (by rw [hr' hk]; exact hseen)

end

/-- The place of an entry after rows of a hash: the first of them counts. -/
def FieldsLoaded (hashBytes : Bytes → UInt32) : List (LoadRow Field) → Option SharedEntry → Prop
  | [], o => o = none
  | r :: _, o => (r.value.getD []).length ≤ uint16Max ∧ ∃ table count version,
      o = some ⟨.hash table count, r.expireAt, version⟩ ∧
        ∀ d, SharedHash.Holds hashBytes ⟨d, table⟩ (Finmap.singleton r.item (r.value.getD []))

/-- The place of an entry after rows of a list. -/
def ItemsLoaded : List (LoadRow ℤ) → Option SharedEntry → Prop
  | [], o => o = none
  | r :: rows, o => ∃ l version, o = some ⟨.list l, r.expireAt, version⟩ ∧
      l.values = (r :: rows).map fun r => clip (r.value.getD [])

theorem isExpired_of_alive {x : Option ℤ} (h : Alive now x) (v : SharedValue) (n : UInt64) :
    (⟨v, x, n⟩ : SharedEntry).isExpired now = false := by
  cases x with
  | none => rfl
  | some t => exact decide_eq_false (Int.not_le.2 (h t rfl))

theorem upserted_some {se : SharedEntry} (h : se.isExpired now = false) :
    SharedEntry.upserted now (some se) = (se, false) := by
  rw [SharedEntry.upserted, h]
  rfl

/-- One more row of a hash, with the expiry of the others. -/
theorem FieldsLoaded.step {seen : List (LoadRow Field)} {r : LoadRow Field}
    (h : FieldsLoaded hashBytes seen (S.entries.lookup r.key))
    (hseen : ∀ r' ∈ seen, r'.expireAt = r.expireAt) (halive : Alive now r.expireAt)
    (hk : r.key.length ≤ maxKeySize) (hf : r.item.length ≤ maxFieldSize)
    (hok : (S.loadField hashBytes now r).2 = .ok ()) :
    FieldsLoaded hashBytes (seen ++ [r])
      ((S.loadField hashBytes now r).1.entries.lookup r.key) := by
  cases seen with
  | nil =>
    have hup : (SharedEntry.upserted now (S.entries.lookup r.key)).1 = .fresh := by rw [h]; rfl
    rcases loadField_first hk hf hup (by decide) with
      ⟨hlen, -, table, count, hlook, hholds⟩ | ⟨-, err, herr⟩
    · rw [show r.expireAt.or SharedEntry.fresh.expireAt = r.expireAt from Option.or_none] at hlook
      exact ⟨hlen, table, count, _, hlook, hholds⟩
    · exact absurd (herr.symm.trans hok) (by simp)
  | cons r₀ seen =>
    obtain ⟨hlen, table, count, version, hlook, hholds⟩ := h
    have hexp := hseen r₀ List.mem_cons_self
    have hup := upserted_some (isExpired_of_alive (hexp ▸ halive) (.hash table count) version)
    obtain ⟨-, hlook'⟩ := loadField_again hashBytes (S := S) hk hf
      (by rw [hlook, hup]) rfl
    refine ⟨hlen, table, count, version, ?_, hholds⟩
    rw [hlook', hexp, Option.or_self]

/-- One more row of a list. -/
theorem ItemsLoaded.step {seen : List (LoadRow ℤ)} {r : LoadRow ℤ}
    (h : ItemsLoaded seen (S.entries.lookup r.key))
    (hseen : ∀ r' ∈ seen, r'.expireAt = r.expireAt) (halive : Alive now r.expireAt)
    (hk : r.key.length ≤ maxKeySize) : ItemsLoaded (seen ++ [r])
      ((S.loadItem hashBytes now r).1.entries.lookup r.key) := by
  cases seen with
  | nil =>
    have hup : (SharedEntry.upserted now (S.entries.lookup r.key)).1 = .fresh := by rw [h]; rfl
    obtain ⟨l, hlook, hl⟩ := loadItem_first hashBytes hk hup (by decide)
    rw [show r.expireAt.or SharedEntry.fresh.expireAt = r.expireAt from Option.or_none] at hlook
    exact ⟨l, _, hlook, hl⟩
  | cons r₀ seen =>
    obtain ⟨l, version, hlook, hl⟩ := h
    have hexp := hseen r₀ List.mem_cons_self
    have hup := upserted_some (isExpired_of_alive (hexp ▸ halive) (.list l) version)
    have hne : l.nodes ≠ [] := fun h0 => by simp [SharedList.values, h0] at hl
    obtain ⟨l', hlook', hl'⟩ := loadItem_again hashBytes (S := S) hk
      (by rw [hlook, hup]) rfl hne
    refine ⟨l', version, ?_, ?_⟩
    · rw [hlook', hexp, Option.or_self]
    · have hclip : (clip ∘ fun r : LoadRow ℤ => clip (r.value.getD [])) =
          fun r => clip (r.value.getD []) := funext fun r => clip_clip _
      rw [hl', hl, List.map_map, hclip]
      change _ = List.map _ ((r₀ :: seen) ++ [r])
      rw [List.map_append]
      rfl

/-! ## One key -/

variable {q : Query} {D : Tables} {p : StoreRow} {d : Dsa}

/-- A load without error, in three parts. -/
theorem load_ok (h : (load hashBytes now q S).2 = .ok ()) : ∃ S₁ S₂,
    loadRows (loadScalar hashBytes now) q.scalars S = (S₁, .ok ()) ∧
    loadRows (loadField hashBytes now) q.hashes S₁ = (S₂, .ok ()) ∧
    loadRows (loadItem hashBytes now) q.lists S₂ = ((load hashBytes now q S).1, .ok ()) := by
  rw [load] at h ⊢
  rcases h₁ : loadRows (loadScalar hashBytes now) q.scalars S with ⟨S₁, err | u⟩ <;>
    simp only [h₁] at h ⊢
  · exact absurd h (by simp)
  · rcases h₂ : loadRows (loadField hashBytes now) q.hashes S₁ with ⟨S₂, err | u⟩ <;>
      simp only [h₂] at h ⊢
    · exact absurd h (by simp)
    · exact ⟨S₁, S₂, rfl, h₂, Prod.ext rfl h⟩

variable (hq : q.Selects D now) (hok : (load hashBytes now q ⟨d, ∅⟩).2 = .ok ())

include hq hok

/-- A string or integer after the load of an empty keyspace. -/
theorem lookup_load_scalar {t : ValueType} (hp : Parent D now k t p) (ht : t = .string ∨ t = .int)
    (hk : k.length ≤ maxKeySize) : ScalarLoaded ⟨k, t, p.value, p.expireAt⟩
      ((load hashBytes now q ⟨d, ∅⟩).1.entries.lookup k) := by
  have hne : ∀ {t'}, t' ≠ .string → t' ≠ .int → ∀ p', ¬Parent D now k t' p' :=
    fun h₁ h₂ p' hp' => (Query.parent_unique hp hp').1 ▸ ht |>.elim h₁ h₂
  obtain ⟨S₁, S₂, h₁, h₂, h₃⟩ := load_ok hok
  rw [lookup_loadRows_of_filter_nil (fun S r h => lookup_loadItem_ne h)
      (hq.lists_filter_nil (hne (by simp) (by simp))) h₃,
    lookup_loadRows_of_filter_nil (fun S r h => lookup_loadField_ne h)
      (hq.hashes_filter_nil (hne (by simp) (by simp))) h₂]
  have hseen := loadRows_seen (k := k) (fun S r h => lookup_loadScalar_ne h)
    ScalarsLoaded ?_ [] h₁ rfl
  · rw [hq.scalars_filter hp ht] at hseen
    exact hseen
  · rintro S r (_ | ⟨r', _ | ⟨r'', seen⟩⟩) - rfl hS -
    · exact loadScalar_first hk hS
    · trivial
    · trivial

/-- A hash after the load of an empty keyspace. -/
theorem lookup_load_hash (hp : Parent D now k .hash p) (hk : k.length ≤ maxKeySize) :
    FieldsLoaded hashBytes (q.fieldRows k) ((load hashBytes now q ⟨d, ∅⟩).1.entries.lookup k) := by
  have hty : ∀ t p', Parent D now k t p' → t = .hash :=
    fun t p' hp' => (Query.parent_unique hp' hp).1
  obtain ⟨S₁, S₂, h₁, h₂, h₃⟩ := load_ok hok
  have hstart : S₁.entries.lookup k = none :=
    lookup_loadRows_of_filter_nil (fun S r h => lookup_loadScalar_ne h)
      (hq.scalars_filter_nil fun t p' hp' => by rw [hty t p' hp']; simp) h₁
  rw [lookup_loadRows_of_filter_nil (fun S r h => lookup_loadItem_ne h)
      (hq.lists_filter_nil fun p' hp' => absurd (hty _ p' hp') (by simp)) h₃]
  -- The rows of the other two queries are of other keys; of this key all rows have its parent,
  -- and each is a step.
  have hseen := loadRows_seen (k := k) (fun S r h => lookup_loadField_ne h)
    (fun seen o => (∀ r ∈ seen, r.expireAt = p.expireAt) ∧
      FieldsLoaded hashBytes (seen.filter fun r => r.item.length ≤ maxFieldSize) o) ?_ [] h₂
    ⟨by simp, hstart⟩
  · have hrows : q.fieldRows k = (q.hashes.filter fun r => k = r.key).filter
        fun r => r.item.length ≤ maxFieldSize := by
      rw [Query.fieldRows, List.filter_filter]
      refine List.filter_congr fun r _ => ?_
      rw [Bool.decide_and, Bool.and_comm]
    rw [hrows]
    exact hseen.2
  · rintro S r seen hr rfl ⟨hexp, hS⟩ hok
    obtain ⟨p', hp', hexp', -⟩ := (hq.mem_hashes r).1 hr
    obtain rfl := (Query.parent_unique hp hp').2
    refine ⟨fun r' hr' => ?_, ?_⟩
    · rcases List.mem_append.1 hr' with h | h
      · exact hexp r' h
      · rw [List.mem_singleton.1 h, hexp']
    · rw [List.filter_append]
      by_cases hf : r.item.length ≤ maxFieldSize
      · rw [List.filter_cons_of_pos (by simpa using hf)]
        refine hS.step (fun r' hr' => ?_) (hexp' ▸ hp.alive) hk hf hok
        exact (hexp r' (List.mem_filter.1 hr').1).trans hexp'
      · rw [List.filter_cons_of_neg (by simpa using hf), List.filter_nil, List.append_nil,
          loadField, if_neg (Nat.not_lt.2 hk), if_pos (Nat.not_le.1 hf)]
        exact hS

/-- A list after the load of an empty keyspace. -/
theorem lookup_load_list (hp : Parent D now k .list p) (hk : k.length ≤ maxKeySize) :
    ItemsLoaded (q.itemRows k) ((load hashBytes now q ⟨d, ∅⟩).1.entries.lookup k) := by
  have hty : ∀ t p', Parent D now k t p' → t = .list :=
    fun t p' hp' => (Query.parent_unique hp' hp).1
  obtain ⟨S₁, S₂, h₁, h₂, h₃⟩ := load_ok hok
  have hstart : S₂.entries.lookup k = none :=
    (lookup_loadRows_of_filter_nil (fun S r h => lookup_loadField_ne h)
      (hq.hashes_filter_nil fun p' hp' => absurd (hty _ p' hp') (by simp)) h₂).trans
    (lookup_loadRows_of_filter_nil (fun S r h => lookup_loadScalar_ne h)
      (hq.scalars_filter_nil fun t p' hp' => by rw [hty t p' hp']; simp) h₁)
  refine (loadRows_seen (k := k) (fun S r h => lookup_loadItem_ne h)
    (fun seen o => (∀ r ∈ seen, r.expireAt = p.expireAt) ∧ ItemsLoaded seen o) ?_ [] h₃
    ⟨by simp, hstart⟩).2
  rintro S r seen hr rfl ⟨hexp, hS⟩ -
  obtain ⟨p', hp', hexp', -⟩ := (hq.mem_lists r).1 hr
  obtain rfl := (Query.parent_unique hp hp').2
  refine ⟨fun r' hr' => ?_, hS.step (fun r' hr' => (hexp r' hr').trans hexp') (hexp' ▸ hp.alive) hk⟩
  rcases List.mem_append.1 hr' with h | h
  · exact hexp r' h
  · rw [List.mem_singleton.1 h, hexp']

/-- Nothing else is loaded. -/
theorem lookup_load_of_no_parent (h : ∀ t p, ¬Parent D now k t p) :
    (load hashBytes now q ⟨d, ∅⟩).1.entries.lookup k = none := by
  obtain ⟨S₁, S₂, h₁, h₂, h₃⟩ := load_ok hok
  rw [lookup_loadRows_of_filter_nil (fun S r h => lookup_loadItem_ne h)
      (hq.lists_filter_nil (h _)) h₃,
    lookup_loadRows_of_filter_nil (fun S r h => lookup_loadField_ne h)
      (hq.hashes_filter_nil (h _)) h₂,
    lookup_loadRows_of_filter_nil (fun S r h => lookup_loadScalar_ne h)
      (hq.scalars_filter_nil fun t p hp => absurd hp (h t p)) h₁]
  rfl

end SharedStore

/-! ## Tables and keyspace -/

section

variable {hashBytes : Bytes → UInt32} {now : ℤ} {k : Key} {q : Query} {D : Tables} {d : Dsa}

/-- The tables give a key one value. -/
theorem Durably.unique {v v' : ValueType × Look × Option ℤ} (h : Durably D now k v)
    (h' : Durably D now k v') : v = v' := by
  cases h with
  | string hp hs =>
    cases h' with
    | string hp' hs' =>
      obtain ⟨-, rfl⟩ := Query.parent_unique hp hp'
      rw [Option.some.inj (hs.symm.trans hs')]
    | int hp' _ | hash hp' | list hp' _ => exact absurd (Query.parent_unique hp hp').1 (by simp)
  | int hp hi =>
    cases h' with
    | int hp' hi' =>
      obtain ⟨-, rfl⟩ := Query.parent_unique hp hp'
      rw [Option.some.inj (hi.symm.trans hi')]
    | string hp' _ | hash hp' | list hp' _ => exact absurd (Query.parent_unique hp hp').1 (by simp)
  | hash hp =>
    cases h' with
    | hash hp' =>
      obtain ⟨-, rfl⟩ := Query.parent_unique hp hp'
      rfl
    | string hp' _ | int hp' _ | list hp' _ => exact absurd (Query.parent_unique hp hp').1 (by simp)
  | list hp hvs =>
    cases h' with
    | list hp' hvs' =>
      obtain ⟨-, rfl⟩ := Query.parent_unique hp hp'
      rw [hvs.unique hvs']
    | string hp' _ | int hp' _ | hash hp' => exact absurd (Query.parent_unique hp hp').1 (by simp)

/-- The list items of a key, in the order of the query. -/
theorem inOrder_itemRows {p : StoreRow} (hq : q.Selects D now) (hp : Parent D now k .list p) :
    InOrder (D.listItems k) ((q.itemRows k).map fun r => r.value.getD []) := by
  refine ⟨(q.itemRows k).map LoadRow.item, List.pairwise_map.2 hq.itemRows_sorted, fun o => ?_, ?_⟩
  · rw [List.mem_map]
    constructor
    · rintro ⟨r, hr, rfl⟩
      obtain ⟨-, -, -, -, hrow⟩ := hq.mem_itemRows.1 hr
      rw [hrow]
      rfl
    · intro ho
      obtain ⟨v, hv⟩ := Option.isSome_iff_exists.1 ho
      exact ⟨⟨k, o, v, p.expireAt⟩, hq.mem_itemRows.2 ⟨rfl, p, hp, rfl, hv⟩, rfl⟩
  · rw [List.map_map]
    refine List.map_congr_left fun r hr => ?_
    obtain ⟨-, -, -, -, hrow⟩ := hq.mem_itemRows.1 hr
    rw [Function.comp_apply, hrow]
    rfl

/-- The entry of a hash of one field, as seen. -/
theorem look_singleton {table : Option SharedTable} {f : Field} {v : Bytes} {count : ℤ}
    (h : ∀ d, SharedHash.Holds hashBytes ⟨d, table⟩ (Finmap.singleton f v)) :
    (SharedValue.hash table count).look hashBytes d =
      .hash fun g => if g = f then some v else none := by
  rw [SharedValue.look]
  congr 1
  funext g
  rw [SharedHash.get_spec (h d)]
  split_ifs with hg
  · rw [hg, Finmap.lookup_singleton_eq]
    rfl
  · rw [Finmap.lookup_eq_none.2 fun hmem => hg ((Finmap.mem_singleton g f v).1 hmem)]
    rfl

/-- The view of a key that has a durable value. -/
theorem holds_of_view {x : Option (ValueType × Look × Option ℤ)} {v : ValueType × Look × Option ℤ}
    (hv : Durably D now k v) : (∀ v', x = some v' ↔ Durably D now k v') ↔ x = some v :=
  ⟨fun h => (h v).2 hv, fun h v' => by
    rw [h, Option.some.injEq]
    exact ⟨fun heq => heq ▸ hv, hv.unique⟩⟩

variable (hq : q.Selects D now) (hok : (SharedStore.load hashBytes now q ⟨d, ∅⟩).2 = .ok ())
  (hk : k.length ≤ maxKeySize)

include hq hok hk

theorem holds_scalar {t : ValueType} {p : StoreRow} (hp : Parent D now k t p)
    (ht : t = .string ∨ t = .int) (v : ValueType × Look × Option ℤ) :
    (SharedStore.load hashBytes now q ⟨d, ∅⟩).1.view hashBytes k = some v ↔ Durably D now k v := by
  have hload := SharedStore.lookup_load_scalar hq hok hp ht hk
  rw [SharedStore.ScalarLoaded] at hload
  -- A value that does not decode takes the key out, and stands for nothing in the table either.
  rcases ht with rfl | rfl <;> dsimp only at hload
  · cases hs : p.value.elim (some []) decodeString with
    | none =>
      rw [hs] at hload
      rw [SharedStore.view, hload]
      refine iff_of_false (by simp) fun hv => ?_
      cases hv with
      | string hp' hs' =>
        rw [← (Query.parent_unique hp hp').2, hs] at hs'
        exact absurd hs' (by simp)
      | int hp' _ | hash hp' | list hp' _ => exact absurd (Query.parent_unique hp hp').1 (by simp)
    | some s =>
      rw [hs] at hload
      obtain ⟨c, version, hload⟩ := hload
      refine (holds_of_view (.string hp hs)).2 ?_ v
      rw [SharedStore.view, hload]
      rfl
  · cases hi : p.value.elim (some 0) decodeInt with
    | none =>
      rw [hi] at hload
      rw [SharedStore.view, hload]
      refine iff_of_false (by simp) fun hv => ?_
      cases hv with
      | int hp' hi' =>
        rw [← (Query.parent_unique hp hp').2, hi] at hi'
        exact absurd hi' (by simp)
      | string hp' _ | hash hp' | list hp' _ =>
        exact absurd (Query.parent_unique hp hp').1 (by simp)
    | some i =>
      rw [hi] at hload
      obtain ⟨version, hload⟩ := hload
      refine (holds_of_view (.int hp hi)).2 ?_ v
      rw [SharedStore.view, hload]
      rfl

theorem holds_hash_iff {p : StoreRow} (hp : Parent D now k .hash p) :
    (∀ v, (SharedStore.load hashBytes now q ⟨d, ∅⟩).1.view hashBytes k = some v ↔
      Durably D now k v) ↔ ∃ f v, loadedField D k f = some v ∧ v.length ≤ uint16Max ∧
        ∀ g, (loadedField D k g).isSome → g = f := by
  have hload := SharedStore.lookup_load_hash hq hok hp hk
  have hfind := find_fieldRows hq hp
  rw [holds_of_view (.hash hp), SharedStore.view]
  -- Without rows no entry is made; of several only the first field is kept.
  cases hrows : q.fieldRows k with
  | nil =>
    rw [hrows] at hload hfind
    rw [show _ = none from hload]
    refine iff_of_false (by simp) ?_
    rintro ⟨f, v, hf, -⟩
    exact absurd ((hfind f).trans hf) (by simp)
  | cons r rows =>
    have hexp := expireAt_fieldRows hq hp r (hrows ▸ List.mem_cons_self)
    rw [hrows] at hload hfind
    obtain ⟨hlen, table, count, version, hload, hholds⟩ := hload
    have hr : loadedField D k r.item = some (r.value.getD []) := by
      rw [← hfind r.item, List.find?_cons_of_pos (by simp)]
      rfl
    rw [hload, Option.map_some, look_singleton hholds, hexp]
    simp only [SharedValue.type, Option.some.injEq, Prod.mk.injEq, Look.hash.injEq, true_and,
      and_true]
    constructor
    · intro heq
      refine ⟨r.item, _, hr, hlen, fun g hg => ?_⟩
      by_contra hne
      rw [← heq] at hg
      exact absurd hg (by simp [hne])
    · rintro ⟨f, v, -, -, huniq⟩
      have hitem := huniq r.item (by rw [hr]; rfl)
      funext g
      split_ifs with hg
      · rw [hg, hr]
      · symm
        rw [← Option.not_isSome_iff_eq_none]
        intro hsome
        exact hg ((huniq g hsome).trans hitem.symm)

theorem holds_list_iff {p : StoreRow} (hp : Parent D now k .list p) :
    (∀ v, (SharedStore.load hashBytes now q ⟨d, ∅⟩).1.view hashBytes k = some v ↔
      Durably D now k v) ↔ (∃ o, (D.listItems k o).isSome) ∧
        ∀ o v, D.listItems k o = some v → (v.getD []).length ≤ uint16Max := by
  have hload := SharedStore.lookup_load_list hq hok hp hk
  have hmem : ∀ o v, D.listItems k o = some v → ⟨k, o, v, p.expireAt⟩ ∈ q.itemRows k :=
    fun o v hv => hq.mem_itemRows.2 ⟨rfl, p, hp, rfl, hv⟩
  rw [holds_of_view (.list hp (inOrder_itemRows hq hp)), SharedStore.view]
  -- Without rows no entry is made; the values are cut off at the limit of a node.
  cases hrows : q.itemRows k with
  | nil =>
    rw [hrows] at hload hmem
    rw [show _ = none from hload]
    refine iff_of_false (by simp) ?_
    rintro ⟨⟨o, ho⟩, -⟩
    obtain ⟨v, hv⟩ := Option.isSome_iff_exists.1 ho
    exact absurd (hmem o v hv) (by simp)
  | cons r rows =>
    have hexp := expireAt_itemRows hq hp r (hrows ▸ List.mem_cons_self)
    have hrow : ∀ r' ∈ r :: rows, D.listItems k r'.item = some r'.value := fun r' hr' => by
      obtain ⟨-, -, -, -, h⟩ := hq.mem_itemRows.1 (hrows ▸ hr')
      exact h
    rw [hrows] at hload hmem
    obtain ⟨l, version, hload, hl⟩ := hload
    rw [hload, Option.map_some, SharedValue.look, hl, hexp]
    simp only [SharedValue.type, Option.some.injEq, Prod.mk.injEq, Look.list.injEq, true_and,
      and_true]
    rw [List.map_inj_left]
    constructor
    · intro hclip
      refine ⟨⟨r.item, by rw [hrow r List.mem_cons_self]; rfl⟩, fun o v hv => ?_⟩
      exact clip_eq_self.1 (hclip _ (hmem o v hv))
    · rintro ⟨-, hshort⟩ r' hr'
      exact clip_eq_self.2 (hshort r'.item r'.value (hrow r' hr'))

end

namespace SharedStore

variable {hashBytes : Bytes → UInt32} {now : ℤ} {q : Query} {D : Tables} {d : Dsa}

/-- The load raises no error if no value is too long for a bucket. -/
theorem load_snd_of_loadable (hq : q.Selects D now)
    (h : ∀ k, k.length ≤ maxKeySize → Loadable D now k) (S : SharedStore) :
    (load hashBytes now q S).2 = .ok () := by
  -- The only error of a load is that of a long hash value.
  have hfields : ∀ r ∈ q.hashes, r.key.length ≤ maxKeySize → r.item.length ≤ maxFieldSize →
      (r.value.getD []).length ≤ uint16Max := by
    intro r hr hk hf
    obtain ⟨p, hp, -, hrow⟩ := (hq.mem_hashes r).1 hr
    obtain ⟨f, v, hv, hlen, huniq⟩ := (h r.key hk).hash p hp
    have hloaded : loadedField D r.key r.item = some (r.value.getD []) := by
      rw [loadedField, if_pos hf, hrow]
      rfl
    rw [← huniq r.item (by rw [hloaded]; rfl), hloaded, Option.some.injEq] at hv
    rw [hv]
    exact hlen
  have h₁ := loadRows_ok (f := loadScalar hashBytes now)
    (fun r (hr : r ∈ q.scalars) S => loadScalar_ok ((hq.mem_scalars r).1 hr).1) S
  have h₂ := loadRows_ok (f := loadField hashBytes now)
    (fun r (hr : r ∈ q.hashes) S => loadField_ok (hfields r hr))
  have h₃ := loadRows_ok (f := loadItem hashBytes now)
    (fun r (_ : r ∈ q.lists) S => loadItem_ok r)
  rw [load]
  rcases hx : loadRows (loadScalar hashBytes now) q.scalars S with ⟨S₁, err | u⟩ <;> rw [hx] at h₁
  · exact absurd h₁ (by simp)
  · have h₂ := h₂ S₁
    rcases hy : loadRows (loadField hashBytes now) q.hashes S₁ with ⟨S₂, err | u⟩ <;> rw [hy] at h₂
    · exact absurd h₂ (by simp)
    · simp only [hy]
      exact h₃ S₂

/-- The load of an empty keyspace is complete exactly from tables all of whose keys are
    loadable. -/
theorem load_complete_iff (hashBytes : Bytes → UInt32) (hq : q.Selects D now) (d : Dsa) :
    Complete hashBytes D now (load hashBytes now q ⟨d, ∅⟩) ↔
      ∀ k, k.length ≤ maxKeySize → Loadable D now k := by
  constructor
  · intro h k hk
    exact ⟨fun p hp => (holds_hash_iff hq h.ok hk hp).1 fun v => h.holds k v hk,
      fun p hp => (holds_list_iff hq h.ok hk hp).1 fun v => h.holds k v hk⟩
  · intro h
    have hok : (load hashBytes now q ⟨d, ∅⟩).2 = .ok () := load_snd_of_loadable hq h _
    refine ⟨hok, fun k v hk => ?_⟩
    by_cases hp : ∃ t p, Parent D now k t p
    · obtain ⟨t, p, hp⟩ := hp
      cases t with
      | string => exact holds_scalar hq hok hk hp (.inl rfl) v
      | int => exact holds_scalar hq hok hk hp (.inr rfl) v
      | hash => exact (holds_hash_iff hq hok hk hp).2 ((h k hk).hash p hp) v
      | list => exact (holds_list_iff hq hok hk hp).2 ((h k hk).list p hp) v
    · have hno : ∀ t p, ¬Parent D now k t p := fun t p h => hp ⟨t, p, h⟩
      rw [view, lookup_load_of_no_parent hq hok hno]
      refine iff_of_false (by simp) fun hv => ?_
      cases hv with
      | string hp _ | int hp _ | hash hp | list hp _ => exact hno _ _ hp

/-- A hash of one field is loaded. -/
theorem load_complete_hashTables : Complete (fun _ => 0) hashTables 0
    (load (fun _ => 0) 0 hashQuery ⟨⟨1, []⟩, ∅⟩) := by
  refine (load_complete_iff (fun _ => 0) (selects_hashQuery 0) ⟨1, []⟩).2 fun k _ => ⟨?_, ?_⟩
  · intro p hp
    obtain ⟨rfl, -, -⟩ := parent_hashTables.1 hp
    refine ⟨[97], [49], by decide, by decide, fun g hg => ?_⟩
    by_contra hne
    have hnone : rowAt [([97], [49])] g = none := rowAt_eq_none (by simpa using hne)
    simp [loadedField, hashTables, Tables.oneKey, hnone] at hg
  · intro p hp
    exact absurd (parent_hashTables.1 hp).2.1 (by decide)

/-- A hash of two fields. -/
def twoFields : List (Field × Bytes) := [([97], [49]), ([98], [50])]

/-- Of a hash of two fields only the first is loaded. -/
theorem load_loses_field : ¬∀ (hashBytes : Bytes → UInt32) (D : Tables) (now : ℤ) (q : Query)
    (d : Dsa), q.Selects D now → Complete hashBytes D now (load hashBytes now q ⟨d, ∅⟩) := by
  intro h
  have hq : (Query.oneKey .hash [107] hashRow twoFields []).Selects
      (.oneKey [107] hashRow twoFields []) 0 := selects_oneKey rfl alive_none (by decide) .nil
  have hview := ((h (fun _ => 0) _ 0 _ ⟨1, []⟩ hq).holds [107] _ (by decide)).2
    (.hash ((parent_oneKey rfl alive_none).2 ⟨rfl, rfl, rfl⟩))
  obtain ⟨fields, heq, hnone⟩ : ∃ fields, (load (fun _ => 0) 0
      (.oneKey .hash [107] hashRow twoFields []) ⟨⟨1, []⟩, ∅⟩).1.view (fun _ => 0) [107] =
        some (.hash, .hash fields, none) ∧ fields [98] = none := ⟨_, rfl, rfl⟩
  rw [heq, Option.some.injEq, Prod.mk.injEq, Prod.mk.injEq, Look.hash.injEq] at hview
  rw [hview.2.1] at hnone
  exact absurd hnone (by decide)

end SharedStore

end PgRedis
