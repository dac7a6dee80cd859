import PgRedis.Session.Command

/-!
# The flush at commit

`run_flush` turns what changed in the keyspace since the last flush into the
arrays of the six statements (`Session.flushArgs`), runs them, and clears the
tracking. What changed is kept as deltas: the chain of dirty entries, the keys
deleted, and in the collections the fields set and deleted and the nodes pushed
and popped.
-/

namespace PgRedis

open Lib

namespace Entry

/-- `pg_redis_encode_value`. A null string has length zero. -/
def encodeValue (e : Entry) : Option Bytes :=
  match e.type, e.value with
  | .string, .str s => some (encodeString s)
  | .string, _ => some (encodeString [])
  | .int, .word i => some (encodeInt i)
  | .int, _ => some (encodeInt 0)
  | _, _ => none

/-- The parent row of a dirty entry. -/
def row (e : Entry) : StoreRow :=
  ⟨.known e.type, e.encodeValue, e.expireAt, Int.bmod e.version.toNat (2 ^ 64)⟩

/-- The fields of the entry to be upserted. -/
def dirtyFields (e : Entry) : List (Field × Bytes) :=
  match e.type, e.value with
  | .hash, .hash h => h.fields.toList.filterMap fun f =>
      if f.2.dirty then some (f.1, f.2.value) else none
  | _, _ => []

/-- The fields of the entry to be deleted. -/
def tombstones (e : Entry) : List Field :=
  match e.type, e.value with
  | .hash, .hash h => h.tombstones
  | _, _ => []

/-- The list rows of the entry to be inserted. -/
def pendingInserts (e : Entry) : List (ℤ × Bytes) :=
  match e.type, e.value with
  | .list, .list l => l.nodes.filterMap fun n =>
      if n.pendingInsert then some (n.ord, n.value) else none
  | _, _ => []

/-- The list rows of the entry to be deleted. -/
def pendingDeleteOrds (e : Entry) : List ℤ :=
  match e.type, e.value with
  | .list, .list l => l.pendingDeleteOrds
  | _, _ => []

/-- What collecting the deltas of an entry clears: the marks on fields and nodes. -/
def collect (e : Entry) : Entry :=
  match e.type, e.value with
  | .hash, .hash h =>
    { e with value := .hash { h with fields := h.fields.mapValues fun _ f =>
        { f with dirty := false } } }
  | .list, .list l =>
    { e with value := .list { l with nodes := l.nodes.map fun n =>
        { n with pendingInsert := false } } }
  | _, _ => e

/-- What is cleared of an entry once the statements have run. -/
def clear (e : Entry) : Entry :=
  match e.type, e.value with
  | .hash, .hash h => { e with value := .hash { h with tombstones := [] }, inDirtySet := false }
  | .list, .list l =>
    { e with value := .list { l with pendingDeleteOrds := [] }, inDirtySet := false }
  | _, _ => { e with inDirtySet := false }

end Entry

namespace Session

/-- The entries of the dirty chain. -/
def dirtyEntries (s : Session) : List (Key × Entry) :=
  s.dirty.filterMap fun k => (s.store.lookup k).map fun e => (k, e)

/-- The array of child rows to be deleted, given those of an entry. -/
def childDeletes {β : Type} (rows : Entry → List β) (s : Session) : List (Key × β) :=
  s.dirtyEntries.flatMap fun x => (rows x.2).map fun b => (x.1, b)

/-- The array of child rows to be written, given those of an entry. -/
def childUpserts {β : Type} (rows : Entry → List (β × Bytes)) (s : Session) :
    List ((Key × β) × Option Bytes) :=
  s.dirtyEntries.flatMap fun x => (rows x.2).map fun b => ((x.1, b.1), some b.2)

/-- The arrays `run_flush` fills. A key that was deleted and is dirty again is not
    deleted. -/
def flushArgs (s : Session) : PlanArgs where
  storeUpserts := s.dirtyEntries.map fun x => (x.1, x.2.row)
  hashFieldDeletes := s.childDeletes Entry.tombstones
  hashFieldUpserts := s.childUpserts Entry.dirtyFields
  listItemDeletes := s.childDeletes Entry.pendingDeleteOrds
  listItemInserts := s.childUpserts Entry.pendingInserts
  storeDeletes := s.pendingDeletes.filter fun k => k ∉ s.dirty

/-- Changing the entries of the keys `ks` in place. -/
def mapEntries (ks : List Key) (f : Entry → Entry) (s : Session) : Session :=
  { s with store := s.store.mapValues fun k e => if k ∈ ks then f e else e }

/-- `run_flush`: the keyspace, and the tables or the error of a statement. The
    chain and the deletions are taken, and the marks cleared, before the statements
    run. -/
def runFlush (s : Session) (D : Tables) : Session × Except SqlError Tables :=
  let taken := { s.mapEntries s.dirty Entry.collect with dirty := [], pendingDeletes := [] }
  match executePlans s.flushArgs D with
  | .error err => (taken, .error err)
  | .ok D' => (taken.mapEntries s.dirty Entry.clear, .ok D')

end Session

/-! ## Exact rows -/

/-- The child rows are those of the value. -/
def Value.ExactRows (hrows : Field → Option (Option Bytes)) (lrows : ℤ → Option (Option Bytes)) :
    Value → Prop
  | .hash h => (∀ f, hrows f = (h.fields.lookup f).map fun x => some x.value) ∧ ∀ o, lrows o = none
  | .list l => (∀ f, hrows f = none) ∧ (l.nodes.Pairwise fun n m => n.ord < m.ord) ∧
      ∀ o v, lrows o = some v ↔ ∃ n ∈ l.nodes, n.ord = o ∧ v = some n.value
  | _ => (∀ f, hrows f = none) ∧ ∀ o, lrows o = none

/-- A row of `pgredis.store` with the type, the encoded value and the expiry of the
    entry. -/
def Entry.IsRow (e : Entry) (r : StoreRow) : Prop :=
  r.type = .known e.type ∧ r.value = e.encodeValue ∧ r.expireAt = e.expireAt

/-- The tables hold exactly the keyspace: a row for every entry and no other, and
    under it exactly the rows of its collection. -/
structure Session.Exact (s : Session) (D : Tables) : Prop where
  absent : ∀ k, s.store.lookup k = none → D.store k = none
  present : ∀ k e, s.store.lookup k = some e → ∃ r, D.store k = some r ∧ e.IsRow r
  children : ∀ k e v, s.store.lookup k = some e → e.content = some v →
    v.ExactRows (D.hashFields k) (D.listItems k)

/-! ## What the arrays hold -/

namespace Session

variable {s : Session} {k : Key} {e : Entry}

theorem mem_dirtyEntries : (k, e) ∈ s.dirtyEntries ↔ k ∈ s.dirty ∧ s.store.lookup k = some e := by
  rw [dirtyEntries, List.mem_filterMap]
  constructor
  · rintro ⟨k', hk', h⟩
    obtain ⟨e', he', h⟩ := Option.map_eq_some_iff.1 h
    obtain ⟨rfl, rfl⟩ := Prod.mk.inj h
    exact ⟨hk', he'⟩
  · rintro ⟨hk, he⟩
    exact ⟨k, hk, by rw [he]; rfl⟩

section

variable {β : Type} {b : β}

theorem mem_childDeletes {rows : Entry → List β} : (k, b) ∈ s.childDeletes rows ↔
    k ∈ s.dirty ∧ ∃ e, s.store.lookup k = some e ∧ b ∈ rows e := by
  simp only [childDeletes, List.mem_flatMap, List.mem_map, Prod.exists, mem_dirtyEntries,
    Prod.mk.injEq]
  constructor
  · rintro ⟨k, e, ⟨hk, he⟩, b, hb, rfl, rfl⟩
    exact ⟨hk, e, he, hb⟩
  · rintro ⟨hk, e, he, hb⟩
    exact ⟨k, e, ⟨hk, he⟩, b, hb, rfl, rfl⟩

theorem mem_childUpserts {rows : Entry → List (β × Bytes)} {v : Option Bytes} :
    ((k, b), v) ∈ s.childUpserts rows ↔
      k ∈ s.dirty ∧ ∃ e, s.store.lookup k = some e ∧ ∃ x, (b, x) ∈ rows e ∧ v = some x := by
  simp only [childUpserts, List.mem_flatMap, List.mem_map, Prod.exists, mem_dirtyEntries,
    Prod.mk.injEq]
  constructor
  · rintro ⟨k, e, ⟨hk, he⟩, b, x, hx, ⟨rfl, rfl⟩, rfl⟩
    exact ⟨hk, e, he, x, hx, rfl⟩
  · rintro ⟨hk, e, he, x, hx, rfl⟩
    exact ⟨k, e, ⟨hk, he⟩, b, x, hx, ⟨rfl, rfl⟩, rfl⟩

variable [DecidableEq β] {rows : Entry → List (β × Bytes)} {deleted : Entry → List β}

/-- The statements leave a child row of a key that is not dirty alone. -/
theorem cell_of_not_dirty [Decidable ((k, b) ∈ s.childDeletes deleted)] (hk : k ∉ s.dirty)
    (old : Option (Option Bytes)) :
    (last (valueAt (k, b)) (s.childUpserts rows)).or
      (if (k, b) ∈ s.childDeletes deleted then none else old) = old := by
  rw [last_valueAt_eq_none fun v hv => hk (mem_childUpserts.1 hv).1,
    if_neg fun h => hk (mem_childDeletes.1 h).1, Option.none_or]

/-- At a dirty key they write the rows of its entry and delete others. -/
theorem cell_of_dirty (rows : Entry → List (β × Bytes)) (deleted : Entry → List β)
    [Decidable ((k, b) ∈ s.childDeletes deleted)] (hk : k ∈ s.dirty)
    (he : s.store.lookup k = some e)
    (huniq : ∀ x y, (b, x) ∈ rows e → (b, y) ∈ rows e → x = y) (old : Option (Option Bytes)) :
    (∃ x, (b, x) ∈ rows e ∧ (last (valueAt (k, b)) (s.childUpserts rows)).or
      (if (k, b) ∈ s.childDeletes deleted then none else old) = some (some x)) ∨
    ((∀ x, (b, x) ∉ rows e) ∧ (last (valueAt (k, b)) (s.childUpserts rows)).or
      (if (k, b) ∈ s.childDeletes deleted then none else old) =
        if b ∈ deleted e then none else old) := by
  have hrow : ∀ {v}, ((k, b), v) ∈ s.childUpserts rows ↔ ∃ x, (b, x) ∈ rows e ∧ v = some x := by
    intro v
    rw [mem_childUpserts, he]
    simp [hk]
  by_cases hx : ∃ x, (b, x) ∈ rows e
  · obtain ⟨x, hx⟩ := hx
    refine .inl ⟨x, hx, ?_⟩
    rw [last_valueAt_eq (v := some x) (hrow.2 ⟨x, hx, rfl⟩), Option.some_or]
    intro v hv
    obtain ⟨y, hy, rfl⟩ := hrow.1 hv
    rw [huniq x y hx hy]
  · rw [not_exists] at hx
    refine .inr ⟨hx, ?_⟩
    rw [last_valueAt_eq_none, Option.none_or]
    · refine if_congr ?_ rfl rfl
      rw [mem_childDeletes, he]
      simp [hk]
    · intro v hv
      obtain ⟨y, hy, -⟩ := hrow.1 hv
      exact hx y hy

end

theorem mem_storeUpserts {r : StoreRow} : (k, r) ∈ s.flushArgs.storeUpserts ↔
    k ∈ s.dirty ∧ ∃ e, s.store.lookup k = some e ∧ r = e.row := by
  simp only [flushArgs, List.mem_map, Prod.exists, mem_dirtyEntries, Prod.mk.injEq]
  constructor
  · rintro ⟨k', e, ⟨hk, he⟩, rfl, rfl⟩
    exact ⟨hk, e, he, rfl⟩
  · rintro ⟨hk, e, he, rfl⟩
    exact ⟨k, e, ⟨hk, he⟩, rfl, rfl⟩

/-- A dirty key has its parent row once the upserts have run. -/
theorem storeAfter_of_dirty (hk : k ∈ s.dirty) (he : s.store.lookup k = some e) (D : Tables) :
    s.flushArgs.storeAfter D k = some e.row := by
  rw [PlanArgs.storeAfter, last_valueAt_eq (v := e.row) (mem_storeUpserts.2 ⟨hk, e, he, rfl⟩),
    Option.some_or]
  intro r hr
  obtain ⟨-, e', he', rfl⟩ := mem_storeUpserts.1 hr
  rw [Option.some.inj (he.symm.trans he')]

theorem storeAfter_of_not_dirty (hk : k ∉ s.dirty) (D : Tables) :
    s.flushArgs.storeAfter D k = D.store k := by
  rw [PlanArgs.storeAfter, last_valueAt_eq_none fun v hv => hk (mem_storeUpserts.1 hv).1,
    Option.none_or]

theorem mem_storeDeletes : k ∈ s.flushArgs.storeDeletes ↔ k ∈ s.pendingDeletes ∧ k ∉ s.dirty := by
  rw [flushArgs, List.mem_filter, decide_eq_true_iff]

end Session

/-! ## What is cleared -/

/-- A value without its deltas. -/
def Value.cleaned : Value → Value
  | .hash h => .hash { h with
      fields := h.fields.mapValues fun _ f => { f with dirty := false }
      tombstones := [] }
  | .list l => .list { l with
      nodes := l.nodes.map fun n => { n with pendingInsert := false }
      pendingDeleteOrds := [] }
  | v => v

namespace Entry

variable {e : Entry}

/-- A scalar has no deltas of its own. -/
theorem deltas_scalar {v : Value} (hv : e.content = some v) (hs : v.isCollection = false) :
    e.dirtyFields = [] ∧ e.tombstones = [] ∧ e.pendingInserts = [] ∧ e.pendingDeleteOrds = [] := by
  obtain ⟨type, value, _, _, _⟩ := e
  cases type <;> cases value <;> first
    | exact ⟨rfl, rfl, rfl, rfl⟩
    | (obtain rfl := Option.some.inj hv
       exact absurd hs (by simp [Value.isCollection]))

/-- A field is upserted with one value. -/
theorem dirtyFields_unique {f : Field} {x y : Bytes} (hx : (f, x) ∈ e.dirtyFields)
    (hy : (f, y) ∈ e.dirtyFields) : x = y := by
  obtain ⟨type, value, _, _, _⟩ := e
  cases type <;> cases value <;> simp only [dirtyFields, List.not_mem_nil] at hx
  simp only [dirtyFields, List.mem_filterMap, Prod.exists, Htab.mem_toList] at hx hy
  obtain ⟨g, a, ha, hx⟩ := hx
  obtain ⟨g', b, hb, hy⟩ := hy
  split_ifs at hx hy
  obtain ⟨rfl, rfl⟩ := Prod.mk.inj (Option.some.inj hx)
  obtain ⟨rfl, rfl⟩ := Prod.mk.inj (Option.some.inj hy)
  rw [Option.some.inj (ha.symm.trans hb)]

@[simp] theorem content_clear_collect : e.collect.clear.content = e.content.map Value.cleaned := by
  obtain ⟨type, value, _, _, _⟩ := e
  cases type <;> cases value <;> try rfl
  simp only [collect, clear, content]
  split <;> simp_all [Value.cleaned]

@[simp] theorem inDirtySet_clear : e.clear.inDirtySet = false := by
  rw [clear]
  split <;> rfl

theorem isRow_clear_collect {r : StoreRow} : e.collect.clear.IsRow r ↔ e.IsRow r := by
  obtain ⟨type, value, _, _, _⟩ := e
  cases type <;> cases value <;> rfl

theorem isRow_row : e.IsRow e.row := ⟨rfl, rfl, rfl⟩

end Entry

namespace Session

variable {s : Session} {D D' : Tables}

theorem runFlush_ok (h : executePlans s.flushArgs D = .ok D') : s.runFlush D =
    (({ s.mapEntries s.dirty Entry.collect with dirty := [], pendingDeletes := [] }).mapEntries
      s.dirty Entry.clear, .ok D') := by
  rw [runFlush, h]

@[simp] theorem dirty_runFlush : (s.runFlush D).1.dirty = [] := by
  rw [runFlush]
  split <;> rfl

@[simp] theorem pendingDeletes_runFlush : (s.runFlush D).1.pendingDeletes = [] := by
  rw [runFlush]
  split <;> rfl

theorem executePlans_of_runFlush (h : (s.runFlush D).2 = .ok D') :
    executePlans s.flushArgs D = .ok D' := by
  rw [runFlush] at h
  split at h
  · exact absurd h (by simp)
  · rename_i D'' hexec
    rwa [← Except.ok.inj h]

/-- The entries after a flush. -/
theorem lookup_runFlush (h : executePlans s.flushArgs D = .ok D') (k : Key) :
    (s.runFlush D).1.store.lookup k =
      (s.store.lookup k).map fun e => if k ∈ s.dirty then e.collect.clear else e := by
  rw [runFlush_ok h]
  simp only [mapEntries, Htab.lookup_mapValues, Option.map_map]
  congr 1
  funext e
  by_cases hk : k ∈ s.dirty <;> simp [hk]

end Session

end PgRedis
