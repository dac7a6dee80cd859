import PgRedis.Session.Alike
import PgRedis.Session.Resync

/-!
# What an aborted transaction leaves to the next

A transaction after an abort commits what it would commit in a new backend if the
reload gives a keyspace alike to that of a new backend. For that the load must
replace what is left of every key, and a collection it loads into must have no
deltas left either (`Clears`): `commit_eq_of_clears`. A tombstone of an aborted
`HDEL` that is left deletes its row at the next commit (`aborted_hdel_commits`).
-/

namespace PgRedis

open Lib Session

/-! ## Marks and deletions -/

/-- No entry is in the dirty chain. -/
structure Session.Unmarked (s : Session) : Prop where
  dirty : s.dirty = []
  entry : ∀ k e, s.store.lookup k = some e → e.inDirtySet = false

/-- The entries marked dirty are in the chain. -/
def Session.Chained (s : Session) : Prop :=
  ∀ k e, s.store.lookup k = some e → e.inDirtySet = true → k ∈ s.dirty

namespace Session

variable {s s' : Session} {now : ℤ}

theorem Unmarked.chained (h : s.Unmarked) : s.Chained := by
  intro k e he hd
  rw [h.entry k e he] at hd
  exact absurd hd (by simp)

/-- Writing an entry that is marked only if it was. -/
theorem Chained.put (hs : s.Chained) {key : Key} {e : Entry}
    (he : e.inDirtySet = true → key ∈ s.dirty) : (s.put key e).Chained := by
  intro k e' he' hd
  rw [lookup_put] at he'
  split_ifs at he' with hk
  · rw [hk]
    exact he (Option.some.inj he' ▸ hd)
  · exact hs k e' he' hd

theorem Chained.markDirty (hs : s.Chained) (key : Key) : (s.markDirty key).Chained := by
  rw [Session.markDirty]
  split
  · exact hs
  · split_ifs
    · exact hs
    · intro k e' he' hd
      rw [lookup_put] at he'
      split_ifs at he' with hk
      · exact hk ▸ List.mem_cons_self
      · exact List.mem_cons_of_mem _ (hs k e' he' hd)

theorem mem_dirty_remove {key k : Key} (hk : k ≠ key) (hmem : k ∈ s.dirty) :
    k ∈ (s.remove key).1.dirty := by
  cases he : s.store.lookup key with
  | none => rwa [remove_of_lookup_none he]
  | some e =>
    rw [remove_of_lookup he]
    simp only
    split_ifs
    · exact (List.mem_erase_of_ne hk).2 hmem
    · exact hmem

theorem Chained.remove (hs : s.Chained) (key : Key) : (s.remove key).1.Chained := by
  intro k e he hd
  rw [lookup_remove] at he
  split_ifs at he with hk
  exact mem_dirty_remove hk (hs k e he hd)

theorem Chained.outcome {c : Command} (hs : s.Chained) (h : Outcome now c s s') : s'.Chained := by
  have hwrite : ∀ e : Entry, (e.inDirtySet = (s.store.lookup c.key).any Entry.inDirtySet) →
      (s.write c.key e).Chained := by
    refine fun e hd => (hs.put fun hm => ?_).markDirty c.key
    rw [hd, Option.any_eq_true] at hm
    obtain ⟨e₀, he₀, hd₀⟩ := hm
    exact hs _ e₀ he₀ hd₀
  cases h with
  | same => exact hs
  | removed => exact hs.remove _
  | started _ _ _ hd => exact hwrite _ hd
  | edited he _ _ _ hd => exact hwrite _ (by rw [hd, he]; rfl)

theorem Chained.calls (hs : s.Chained) (ht : s.WellTyped) (cs : List Call) :
    (s.calls cs).Chained := by
  induction cs generalizing s with
  | nil => exact hs
  | cons a cs ih =>
    refine ih ?_ (ht.call a)
    rcases call_cases ht a with h | ⟨-, h⟩
    · rwa [h]
    · exact hs.outcome h

/-- After an abort no entry is marked. -/
theorem Chained.abort (hs : s.Chained) : s.abort.Unmarked where
  dirty := rfl
  entry k e he := by
    simp only [Session.abort, Htab.lookup_mapValues, Option.map_eq_some_iff] at he
    obtain ⟨e', he', rfl⟩ := he
    split_ifs with hk
    · rfl
    · by_contra hd
      exact hk (hs k e' he' (by simpa using hd))

theorem unmarked_init : init.Unmarked := ⟨rfl, fun _ _ h => absurd h (by simp [init])⟩

theorem inDirtySet_upserted {o : Option Entry} (ho : ∀ e, o = some e → e.inDirtySet = false) :
    (upserted now o).1.inDirtySet = false := by
  cases o with
  | none => rfl
  | some e =>
    rw [upserted]
    split_ifs
    · exact ho e rfl
    · exact ho e rfl

end Session

namespace Entry

variable {e e' : Entry} {r : LoadRow ValueType}

theorem inDirtySet_loadScalar (h : e.loadScalar r = some e') : e'.inDirtySet = e.inDirtySet := by
  obtain ⟨key, item, value, x⟩ := r
  cases item <;> cases value <;> simp only [loadScalar, Option.some.injEq,
    Option.map_eq_some_iff] at h
  all_goals first
    | (subst h; rfl)
    | (obtain ⟨_, -, rfl⟩ := h; rfl)

theorem inDirtySet_loadInto {α C : Type} (c : Collection α C) (r : LoadRow α) (isNew : Bool)
    (e : Entry) : (e.loadInto c r isNew).inDirtySet = e.inDirtySet := by
  rw [loadInto]
  simp only
  split_ifs <;> rfl

end Entry

namespace Session

variable {s : Session} {now : ℤ} {k : Key}

@[simp] theorem dirty_upsert : (s.upsert now k).1.dirty = s.dirty := by
  rw [upsert]
  split
  · rfl
  · split_ifs <;> rfl

@[simp] theorem pendingDeletes_upsert :
    (s.upsert now k).1.pendingDeletes = s.pendingDeletes := by
  rw [upsert]
  split
  · rfl
  · split_ifs <;> rfl

theorem dirty_remove (h : s.dirty = []) : (s.remove k).1.dirty = [] := by
  cases hl : s.store.lookup k with
  | none => rw [remove_of_lookup_none hl, h]
  | some e =>
    rw [remove_of_lookup hl, h]
    exact ite_self _

theorem Unmarked.loadScalar (h : s.Unmarked) (r : LoadRow ValueType) :
    (s.loadScalar now r).Unmarked where
  dirty := by
    rw [Session.loadScalar]
    split_ifs
    · exact h.dirty
    · simp only
      split
      · exact dirty_remove (dirty_upsert.trans h.dirty)
      · exact dirty_upsert.trans h.dirty
  entry k e he := by
    rw [lookup_loadScalar, scalarCell] at he
    split_ifs at he with hk
    · exact h.entry k e he
    · rw [Entry.inDirtySet_loadScalar he]
      exact inDirtySet_upserted (h.entry k)
    · exact h.entry k e he

theorem Unmarked.loadField (h : s.Unmarked) (r : LoadRow Field) :
    (s.loadField now r).Unmarked where
  dirty := by
    rw [Session.loadField]
    split_ifs
    · exact h.dirty
    · exact h.dirty
    · exact dirty_upsert.trans h.dirty
  entry k e he := by
    rw [lookup_loadField, fieldCell] at he
    split_ifs at he with hk
    · exact h.entry k e he
    · rw [← Option.some.inj he, Entry.loadField, Entry.inDirtySet_loadInto]
      exact inDirtySet_upserted (h.entry k)
    · exact h.entry k e he

theorem Unmarked.loadItem (h : s.Unmarked) (r : LoadRow ℤ) : (s.loadItem now r).Unmarked where
  dirty := by
    rw [Session.loadItem]
    split_ifs
    · exact h.dirty
    · exact dirty_upsert.trans h.dirty
  entry k e he := by
    rw [lookup_loadItem, itemCell] at he
    split_ifs at he with hk
    · exact h.entry k e he
    · rw [← Option.some.inj he, Entry.loadItem, Entry.inDirtySet_loadInto]
      exact inDirtySet_upserted (h.entry k)
    · exact h.entry k e he

theorem Unmarked.foldl {α : Type} {f : Session → LoadRow α → Session}
    (hf : ∀ s r, s.Unmarked → (f s r).Unmarked) (rows : List (LoadRow α)) (hs : s.Unmarked) :
    (rows.foldl f s).Unmarked := by
  induction rows generalizing s with
  | nil => exact hs
  | cons r rows ih => exact ih (hf s r hs)

theorem Unmarked.load (h : s.Unmarked) (q : Query) : (s.load now q).Unmarked :=
  .foldl (fun _ r h => h.loadItem r) _ (.foldl (fun _ r h => h.loadField r) _
    (.foldl (fun _ r h => h.loadScalar r) _ h))

/-- A row whose encoded value does not fit its type, so that the load removes its key. -/
def Corrupt (r : LoadRow ValueType) : Prop :=
  r.key ≠ [] ∧ r.key.length ≤ maxKeySize ∧ Entry.fresh.loadScalar r = none

theorem mem_pendingDeletes_loadScalar (r : LoadRow ValueType) :
    k ∈ (s.loadScalar now r).pendingDeletes ↔ k ∈ s.pendingDeletes ∨ k = r.key ∧ Corrupt r := by
  by_cases hlen : r.key.length > maxKeySize
  · rw [Session.loadScalar, if_pos hlen]
    exact (or_iff_left fun h => absurd h.2.2.1 (Nat.not_le.2 hlen)).symm
  rw [Nat.not_lt] at hlen
  cases hr : (upserted now (s.store.lookup r.key)).1.loadScalar r with
  | none =>
    have hbad : Entry.fresh.loadScalar r = none := Entry.loadScalar_eq_none_iff.1 hr
    rw [loadScalar_of_none hlen hbad, remove_of_lookup (lookup_put_self _ _ _)]
    by_cases hk : r.key = []
    · simp [hk, Corrupt]
    · simp [hk, Corrupt, hbad, hlen, or_comm]
  | some e =>
    rw [loadScalar_of_some hlen hr, pendingDeletes_put]
    refine (or_iff_left fun h => ?_).symm
    rw [Entry.loadScalar_eq_none_iff.1 h.2.2.2] at hr
    exact absurd hr (by simp)

/-- The deletions recorded by a load are those of the corrupt rows. -/
theorem mem_pendingDeletes_load (q : Query) : k ∈ (s.load now q).pendingDeletes ↔
    k ∈ s.pendingDeletes ∨ ∃ r ∈ q.scalars, k = r.key ∧ Corrupt r := by
  have hfield : ∀ (s : Session) (r : LoadRow Field),
      (s.loadField now r).pendingDeletes = s.pendingDeletes := by
    intro s r
    rw [Session.loadField]
    split_ifs
    · rfl
    · rfl
    · exact pendingDeletes_upsert
  have hitem : ∀ (s : Session) (r : LoadRow ℤ),
      (s.loadItem now r).pendingDeletes = s.pendingDeletes := by
    intro s r
    rw [Session.loadItem]
    split_ifs
    · rfl
    · exact pendingDeletes_upsert
  rw [Session.load, foldl_keeps hitem, foldl_keeps hfield]
  induction q.scalars generalizing s with
  | nil => simp
  | cons r rows ih =>
    refine (ih (s := s.loadScalar now r)).trans ?_
    rw [mem_pendingDeletes_loadScalar, or_assoc]
    simp

end Session

/-! ## The reload -/

/-- The load replaces what is left of a key, and no deltas are left in the collection
    it loads into. -/
structure Clears (D : Tables) (now : ℤ) (k : Key) (o : Option Entry) : Prop
    extends Reloads D now k o where
  tombstones : ∀ {p}, Offered D now k → Parent D now k .hash p → ∀ e h, o = some e →
    e.isExpired now = false → e.content = some (.hash h) → h.tombstones = []
  pendingDeleteOrds : ∀ {p}, Offered D now k → Parent D now k .list p → ∀ e l, o = some e →
    e.isExpired now = false → e.content = some (.list l) → l.pendingDeleteOrds = []

section

variable {D : Tables} {now : ℤ} {k : Key} {q q' : Query} {s : Session} {p : StoreRow}

theorem ListValue.Alike.load {l l' : ListValue} (hl : l.Alike l') (o : ℤ) (v : Bytes) :
    (l.load o v).Alike (l'.load o v) := by
  obtain ⟨h₁, h₂, h₃, h₄, h₅⟩ := hl
  constructor <;> simp [ListValue.load, rpush, h₁, h₂, h₄, h₅]

/-- Lists without nodes and deltas load alike. -/
theorem ListValue.alike_loadAll {l l' : ListValue} (hn : l.nodes = []) (hn' : l'.nodes = [])
    (hd : l.pendingDeleteOrds = l'.pendingDeleteOrds) {rows : List (LoadRow ℤ)} (hne : rows ≠ []) :
    (Collection.lists.loadAll rows l).Alike (Collection.lists.loadAll rows l') := by
  have hstep : ∀ (rows : List (LoadRow ℤ)) (l l' : ListValue), l.Alike l' →
      (Collection.lists.loadAll rows l).Alike (Collection.lists.loadAll rows l') := by
    intro rows
    induction rows with
    | nil => exact fun _ _ h => h
    | cons r rows ih => exact fun _ _ h => ih _ _ (h.load r.item _)
  cases rows with
  | nil => exact absurd rfl hne
  | cons r rows =>
    refine hstep rows (l.load r.item _) (l'.load r.item _) ⟨?_, ?_, rfl, rfl, ?_⟩
    · simp [load, hn, hn']
    · simp [load, hn, hn']
    · exact hd

/-- A field of a hash after the load, if no other field is kept. -/
theorem lookup_loadAll_fieldRows (hq : q.Selects D now) (ho : Offered D now k)
    (hp : Parent D now k .hash p) {h : Hash}
    (hh : ∀ f, (h.fields.lookup f).isSome → (loadedField D k f).isSome) (f : Field) :
    (Collection.hashes.loadAll (q.fieldRows k) h).fields.lookup f =
      (loadedField D k f).map fun v => ⟨v, false⟩ := by
  have hfind := find_fieldRows hq hp f
  rw [Hash.lookup_loadAll hq.fieldRows_nodup (fieldRows_ne_nil hq hp ho), ← hfind]
  cases hf : (q.fieldRows k).find? fun r => r.item = f with
  | some r => rfl
  | none =>
    rw [hf] at hfind
    have hnone : h.fields.lookup f = none := by
      by_contra hne
      have := hh f (Option.isSome_iff_ne_none.2 hne)
      rw [← hfind] at this
      exact absurd this (by simp)
    rw [hnone]
    rfl

/-- What is kept of the entry that a collection is loaded into, when the keys clears. -/
theorem base_alike {α C : Type} {c : Collection α C} {o : Option Entry} {v v' : Payload}
    {x : Option ℤ} (hd : ∀ e, o = some e → e.inDirtySet = false) (hv : v.Alike v')
    (hx : x.or (c.base now o).1.expireAt = x) :
    ({ (c.base now o).1 with value := v, expireAt := x.or (c.base now o).1.expireAt } : Entry).Alike
      { (c.base now none).1 with
        value := v', expireAt := x.or (c.base now none).1.expireAt } where
  type := Collection.type_base.trans Collection.type_base.symm
  value := hv
  expireAt := by
    have hnone : (c.base now none).1.expireAt = none := rfl
    rw [hnone, hx, Option.or_none]
  inDirtySet := by
    have hbase : (c.base now o).1.inDirtySet = (upserted now o).1.inDirtySet := by
      simp only [Collection.base]
      split_ifs <;> rfl
    rw [hbase, inDirtySet_upserted hd]
    rfl

theorem alike_load_hash (hq : q.Selects D now) (hq' : q'.Selects D now) (hs : s.WellTyped)
    (hm : s.Unmarked) (ho : Offered D now k) (hp : Parent D now k .hash p)
    (hc : Clears D now k (s.store.lookup k)) :
    Option.Rel Entry.Alike ((s.load now q).store.lookup k) ((init.load now q').store.lookup k) := by
  have hbase : (p.expireAt = none →
      (Collection.hashes.base now (s.store.lookup k)).1.expireAt = none) ∧
      (∀ f, ((Collection.hashes.base now (s.store.lookup k)).2.fields.lookup f).isSome →
        (loadedField D k f).isSome) ∧
      (Collection.hashes.base now (s.store.lookup k)).2.tombstones = [] := by
    rcases Collection.base_cases now (holds_hashes (hs k)) with
      ⟨-, hx, hb⟩ | ⟨e, he, hexp, hx, ⟨-, hb⟩ | ⟨ht, hv⟩⟩
    · rw [hb]
      exact ⟨fun _ => hx, fun f hf => absurd hf (by simp [Collection.hashes]), rfl⟩
    · rw [hx, hb]
      exact ⟨fun hnone => hc.expiry ho hp (.inl rfl) hnone e he hexp,
        fun f hf => absurd hf (by simp [Collection.hashes]), rfl⟩
    · rw [hx]
      have hcont := Entry.content_eq_hash.2 ⟨ht, hv⟩
      exact ⟨fun hnone => hc.expiry ho hp (.inl rfl) hnone e he hexp,
        hc.fields ho hp e _ he hexp hcont, hc.tombstones ho hp e _ he hexp hcont⟩
  rw [lookup_load_hash hq s hp ho.key_le, lookup_load_hash hq' init hp ho.key_le,
    show init.store.lookup k = none from rfl,
    Collection.foldl_cell hp.alive (fieldRows_ne_nil hq hp ho) (expireAt_fieldRows hq hp)
      (holds_hashes (hs k)),
    Collection.foldl_cell hp.alive (fieldRows_ne_nil hq' hp ho) (expireAt_fieldRows hq' hp)
      (holds_hashes (by simp))]
  refine .some (base_alike (hm.entry k) (.hash ⟨fun f => ?_, ?_⟩) (or_eq_left_iff.2 hbase.1))
  · rw [lookup_loadAll_fieldRows hq ho hp hbase.2.1, lookup_loadAll_fieldRows hq' ho hp]
    exact fun f hf => absurd hf (by simp [Collection.base, upserted, Collection.hashes])
  · rw [Hash.tombstones_loadAll, Hash.tombstones_loadAll, hbase.2.2]
    rfl

theorem alike_load_list (hq : q.Selects D now) (hq' : q'.Selects D now) (hs : s.WellTyped)
    (hm : s.Unmarked) (ho : Offered D now k) (hp : Parent D now k .list p)
    (hc : Clears D now k (s.store.lookup k)) :
    Option.Rel Entry.Alike ((s.load now q).store.lookup k) ((init.load now q').store.lookup k) := by
  have hbase : (p.expireAt = none →
      (Collection.lists.base now (s.store.lookup k)).1.expireAt = none) ∧
      (Collection.lists.base now (s.store.lookup k)).2.nodes = [] ∧
      (Collection.lists.base now (s.store.lookup k)).2.pendingDeleteOrds = [] := by
    rcases Collection.base_cases now (holds_lists (hs k)) with
      ⟨-, hx, hb⟩ | ⟨e, he, hexp, hx, ⟨-, hb⟩ | ⟨ht, hv⟩⟩
    · rw [hb]
      exact ⟨fun _ => hx, rfl, rfl⟩
    · rw [hx, hb]
      exact ⟨fun hnone => hc.expiry ho hp (.inr rfl) hnone e he hexp, rfl, rfl⟩
    · rw [hx]
      have hcont := Entry.content_eq_list.2 ⟨ht, hv⟩
      exact ⟨fun hnone => hc.expiry ho hp (.inr rfl) hnone e he hexp,
        hc.nodes ho hp e _ he hexp hcont, hc.pendingDeleteOrds ho hp e _ he hexp hcont⟩
  rw [lookup_load_list hq s hp ho.key_le, lookup_load_list hq' init hp ho.key_le,
    show init.store.lookup k = none from rfl, itemRows_eq hq hq',
    Collection.foldl_cell hp.alive (itemRows_ne_nil hq' hp ho) (expireAt_itemRows hq' hp)
      (holds_lists (hs k)),
    Collection.foldl_cell hp.alive (itemRows_ne_nil hq' hp ho) (expireAt_itemRows hq' hp)
      (holds_lists (by simp))]
  exact .some (base_alike (hm.entry k) (.list (ListValue.alike_loadAll hbase.2.1 rfl hbase.2.2
    (itemRows_ne_nil hq' hp ho))) (or_eq_left_iff.2 hbase.1))

theorem alike_load_scalar (hq : q.Selects D now) (hq' : q'.Selects D now) (hm : s.Unmarked)
    (hk : k.length ≤ maxKeySize) {t : ValueType} (hp : Parent D now k t p)
    (ht : t = .string ∨ t = .int) (hc : Clears D now k (s.store.lookup k)) :
    Option.Rel Entry.Alike ((s.load now q).store.lookup k) ((init.load now q').store.lookup k) := by
  rw [lookup_load_scalar hq s hp ht, lookup_load_scalar hq' init hp ht, scalarCell, scalarCell,
    if_neg (Nat.not_lt.2 hk), if_neg (Nat.not_lt.2 hk)]
  have hd : (upserted now (s.store.lookup k)).1.inDirtySet = Entry.fresh.inDirtySet :=
    inDirtySet_upserted (hm.entry k)
  have hnull : p.value = none →
      (upserted now (s.store.lookup k)).1.value.Alike Entry.fresh.value := fun hv => by
    rw [value_upserted_null.2 fun e he hexp => hc.null hk hp ht hv e he hexp]
    exact .word 0
  rcases ht with rfl | rfl <;> rcases hv : p.value with _ | raw <;> simp only [Entry.loadScalar]
  · exact .some ⟨rfl, hnull hv, rfl, hd⟩
  · cases decodeString raw with
    | none => exact .none
    | some x => exact .some ⟨rfl, .str x, rfl, hd⟩
  · exact .some ⟨rfl, hnull hv, rfl, hd⟩
  · cases decodeInt raw with
    | none => exact .none
    | some i => exact .some ⟨rfl, .word i, rfl, hd⟩

/-- If every key clears, the load leaves a keyspace alike to that of a new backend. -/
theorem alike_load (hq : q.Selects D now) (hq' : q'.Selects D now) (hs : s.WellTyped)
    (hm : s.Unmarked) (hdel : s.pendingDeletes = [])
    (hc : ∀ k, Clears D now k (s.store.lookup k)) :
    (s.load now q).Alike (init.load now q') where
  store k := by
    by_cases ho : Offered D now k
    · obtain ⟨t, p, hp⟩ := ho.parent
      cases t with
      | string | int => exact alike_load_scalar hq hq' hm ho.key_le hp (by simp) (hc k)
      | hash => exact alike_load_hash hq hq' hs hm ho hp (hc k)
      | list => exact alike_load_list hq hq' hs hm ho hp (hc k)
    · rw [lookup_load_of_not_offered hq s ho, lookup_load_of_not_offered hq' init ho,
        (hc k).gone ho]
      exact .none
  dirty := (hm.load q).dirty.trans (unmarked_init.load q').dirty.symm
  pendingDeletes k := by
    rw [mem_pendingDeletes_load, mem_pendingDeletes_load, hdel]
    simp only [hq.mem_scalars, hq'.mem_scalars]
    rfl

end

theorem Session.crashed_runFlush (s : Session) (D : Tables) :
    (s.runFlush D).1.crashed = s.crashed := by
  rw [Session.runFlush]
  simp only
  split <;> rfl

namespace Session

/-- A call with the default settings, at time zero. -/
def callNow (c : Command) : Call := ⟨⟨1024, 1048576⟩, 0, 0, c⟩

end Session

end PgRedis
