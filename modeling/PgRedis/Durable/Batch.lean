import PgRedis.Durable

/-!
# Draining a batch of events

`pg_redis_persistence_async_drain` sorts the events of a batch by kind and runs
one statement per kind, in the order of `executePlans`. Draining the events one
by one gives the meaning of the stream; a batch should give the same.

It does not when the order of the statements contradicts the order of the events:
a key deleted and then created again loses its new row, a field set and then
deleted survives, an element pushed, popped and pushed again under its ordinal
violates the primary key. `asyncDrain_eq_replay_iff` says exactly for which
batches the two agree.
-/

namespace PgRedis

open Lib

/-- A decoded `PgRedisDirtyEvent`, one constructor for each of its six types. -/
inductive DirtyEvent
  | keyUpsert (key : Key) (type : ValueType) (value : Bytes) (expireAt : Option ℤ) (version : ℤ)
  | keyDelete (key : Key)
  | hashFieldUpsert (key : Key) (field : Field) (value : Bytes)
  | hashFieldDelete (key : Key) (field : Field)
  | listItemInsert (key : Key) (ord : ℤ) (value : Bytes)
  | listItemDelete (key : Key) (ord : ℤ)
  deriving DecidableEq, Repr

namespace DirtyEvent

/-- The parent row of an upsert: only a string or an integer that is not empty
    has a value. -/
def parentRow (type : ValueType) (value : Bytes) (expireAt : Option ℤ) (version : ℤ) :
    StoreRow where
  type := .known type
  value := if value = [] ∨ (type ≠ .string ∧ type ≠ .int) then none else some value
  expireAt := expireAt
  version := version

def storeUpsert? : DirtyEvent → Option (Key × StoreRow)
  | .keyUpsert k type value expireAt version => some (k, parentRow type value expireAt version)
  | _ => none

def storeDelete? : DirtyEvent → Option Key
  | .keyDelete k => some k
  | _ => none

def hashFieldUpsert? : DirtyEvent → Option ((Key × Field) × Option Bytes)
  | .hashFieldUpsert k f v => some ((k, f), some v)
  | _ => none

def hashFieldDelete? : DirtyEvent → Option (Key × Field)
  | .hashFieldDelete k f => some (k, f)
  | _ => none

def listItemInsert? : DirtyEvent → Option ((Key × ℤ) × Option Bytes)
  | .listItemInsert k o v => some ((k, o), some v)
  | _ => none

def listItemDelete? : DirtyEvent → Option (Key × ℤ)
  | .listItemDelete k o => some (k, o)
  | _ => none

end DirtyEvent

open DirtyEvent

/-- The loop of `pg_redis_persistence_async_drain` which puts the events into the
    arrays of the statements. -/
def dispatch (evs : List DirtyEvent) : PlanArgs where
  storeUpserts := evs.filterMap storeUpsert?
  hashFieldDeletes := evs.filterMap hashFieldDelete?
  hashFieldUpserts := evs.filterMap hashFieldUpsert?
  listItemDeletes := evs.filterMap listItemDelete?
  listItemInserts := evs.filterMap listItemInsert?
  storeDeletes := evs.filterMap storeDelete?

/-- The durable effect of `pg_redis_persistence_async_drain` on a batch. -/
def asyncDrain (evs : List DirtyEvent) (D : Tables) : Except SqlError Tables :=
  executePlans (dispatch evs) D

/-- The events drained one at a time. -/
def replay : List DirtyEvent → Tables → Except SqlError Tables
  | [], D => .ok D
  | ev :: evs, D => asyncDrain [ev] D >>= replay evs

/-! ## What an event does to one row -/

/-- What an event does to the parent row of `k`. -/
def storeCell (k : Key) : DirtyEvent → Option (Option StoreRow)
  | .keyUpsert k' type value expireAt version =>
    if k' = k then some (some (parentRow type value expireAt version)) else none
  | .keyDelete k' => if k' = k then some none else none
  | _ => none

/-- What an event does to the row of the field `f` of `k`. -/
def fieldCell (k : Key) (f : Field) : DirtyEvent → Option (Option (Option Bytes))
  | .hashFieldUpsert k' f' v => if (k', f') = (k, f) then some (some (some v)) else none
  | .hashFieldDelete k' f' => if (k', f') = (k, f) then some none else none
  | .keyDelete k' => if k' = k then some none else none
  | _ => none

/-- What an event does to the row of the ordinal `o` of `k`. -/
def itemCell (k : Key) (o : ℤ) : DirtyEvent → Option (Option (Option Bytes))
  | .listItemInsert k' o' v => if (k', o') = (k, o) then some (some (some v)) else none
  | .listItemDelete k' o' => if (k', o') = (k, o) then some none else none
  | .keyDelete k' => if k' = k then some none else none
  | _ => none

/-- When a batch drains like its events in order: a key that is deleted is deleted
    last; a field or an ordinal of any other key, if written at all, is written
    last; and every ordinal is inserted once, where there was no row or the batch
    deletes it. -/
structure BatchSafe (D : Tables) (evs : List DirtyEvent) : Prop where
  keys : ∀ k, .keyDelete k ∈ evs → last (storeCell k) evs = some none
  fields : ∀ k f v, .keyDelete k ∉ evs → .hashFieldUpsert k f v ∈ evs →
    ∃ x, last (fieldCell k f) evs = some (some x)
  items : ∀ k o v, .keyDelete k ∉ evs → .listItemInsert k o v ∈ evs →
    ∃ x, last (itemCell k o) evs = some (some x)
  distinct : ((dispatch evs).listItemInserts.map Prod.fst).Nodup
  absent : ∀ k o v, .listItemInsert k o v ∈ evs → .listItemDelete k o ∉ evs →
    D.listItems k o = none

section

variable (k : Key) (f : Field) (o : ℤ)

theorem written_storeCell (ev : DirtyEvent) :
    (storeUpsert? ev).bind (valueAt k) = written (storeCell k) ev := by
  cases ev <;> simp only [storeUpsert?, storeCell, written, valueAt, Option.bind_none,
    Option.bind_some, Option.join_none] <;> split_ifs <;> rfl

theorem written_fieldCell (ev : DirtyEvent) :
    (hashFieldUpsert? ev).bind (valueAt (k, f)) = written (fieldCell k f) ev := by
  cases ev <;> simp only [hashFieldUpsert?, fieldCell, written, valueAt, Option.bind_none,
    Option.bind_some, Option.join_none] <;> split_ifs <;> rfl

theorem written_itemCell (ev : DirtyEvent) :
    (listItemInsert? ev).bind (valueAt (k, o)) = written (itemCell k o) ev := by
  cases ev <;> simp only [listItemInsert?, itemCell, written, valueAt, Option.bind_none,
    Option.bind_some, Option.join_none] <;> split_ifs <;> rfl

variable (evs : List DirtyEvent)

theorem last_storeUpserts :
    last (valueAt k) (dispatch evs).storeUpserts = last (written (storeCell k)) evs := by
  rw [dispatch, last_filterMap, funext (written_storeCell k)]

theorem last_hashFieldUpserts :
    last (valueAt (k, f)) (dispatch evs).hashFieldUpserts =
      last (written (fieldCell k f)) evs := by
  rw [dispatch, last_filterMap, funext (written_fieldCell k f)]

theorem last_listItemInserts :
    last (valueAt (k, o)) (dispatch evs).listItemInserts = last (written (itemCell k o)) evs := by
  rw [dispatch, last_filterMap, funext (written_itemCell k o)]

end

section

variable {evs : List DirtyEvent} {k : Key} {f : Field} {o : ℤ}

theorem mem_storeDeletes : k ∈ (dispatch evs).storeDeletes ↔ .keyDelete k ∈ evs := by
  rw [dispatch, List.mem_filterMap]
  constructor
  · rintro ⟨ev, hev, h⟩
    cases ev <;> simp only [storeDelete?, reduceCtorEq, Option.some.injEq] at h
    exact h ▸ hev
  · exact fun h => ⟨_, h, rfl⟩

theorem mem_hashFieldDeletes :
    (k, f) ∈ (dispatch evs).hashFieldDeletes ↔ .hashFieldDelete k f ∈ evs := by
  rw [dispatch, List.mem_filterMap]
  constructor
  · rintro ⟨ev, hev, h⟩
    cases ev <;> simp only [hashFieldDelete?, reduceCtorEq, Option.some.injEq, Prod.mk.injEq] at h
    exact h.1 ▸ h.2 ▸ hev
  · exact fun h => ⟨_, h, rfl⟩

theorem mem_listItemDeletes :
    (k, o) ∈ (dispatch evs).listItemDeletes ↔ .listItemDelete k o ∈ evs := by
  rw [dispatch, List.mem_filterMap]
  constructor
  · rintro ⟨ev, hev, h⟩
    cases ev <;> simp only [listItemDelete?, reduceCtorEq, Option.some.injEq, Prod.mk.injEq] at h
    exact h.1 ▸ h.2 ▸ hev
  · exact fun h => ⟨_, h, rfl⟩

theorem mem_hashFieldUpserts {row : (Key × Field) × Option Bytes} :
    row ∈ (dispatch evs).hashFieldUpserts ↔
      ∃ k f v, .hashFieldUpsert k f v ∈ evs ∧ row = ((k, f), some v) := by
  rw [dispatch, List.mem_filterMap]
  constructor
  · rintro ⟨ev, hev, h⟩
    cases ev <;> simp only [hashFieldUpsert?, reduceCtorEq, Option.some.injEq] at h
    exact ⟨_, _, _, hev, h.symm⟩
  · rintro ⟨k, f, v, hev, rfl⟩
    exact ⟨_, hev, rfl⟩

theorem mem_listItemInserts {row : (Key × ℤ) × Option Bytes} :
    row ∈ (dispatch evs).listItemInserts ↔
      ∃ k o v, .listItemInsert k o v ∈ evs ∧ row = ((k, o), some v) := by
  rw [dispatch, List.mem_filterMap]
  constructor
  · rintro ⟨ev, hev, h⟩
    cases ev <;> simp only [listItemInsert?, reduceCtorEq, Option.some.injEq] at h
    exact ⟨_, _, _, hev, h.symm⟩
  · rintro ⟨k, o, v, hev, rfl⟩
    exact ⟨_, hev, rfl⟩

variable {ev : DirtyEvent}

theorem storeCell_eq_erase : storeCell k ev = some none ↔ ev = .keyDelete k := by
  cases ev <;> simp [storeCell]

theorem fieldCell_eq_erase :
    fieldCell k f ev = some none ↔ ev = .keyDelete k ∨ ev = .hashFieldDelete k f := by
  cases ev <;> simp [fieldCell]

theorem itemCell_eq_erase :
    itemCell k o ev = some none ↔ ev = .keyDelete k ∨ ev = .listItemDelete k o := by
  cases ev <;> simp [itemCell]

/-- The fields a batch erases, when it does not delete their key. -/
theorem mem_hashFieldDeletes_iff_erased (hk : .keyDelete k ∉ evs) :
    (k, f) ∈ (dispatch evs).hashFieldDeletes ↔ ∃ ev ∈ evs, fieldCell k f ev = some none := by
  simp only [mem_hashFieldDeletes, fieldCell_eq_erase]
  refine ⟨fun h => ⟨_, h, .inr rfl⟩, ?_⟩
  rintro ⟨ev, hev, rfl | rfl⟩
  · exact absurd hev hk
  · exact hev

theorem mem_listItemDeletes_iff_erased (hk : .keyDelete k ∉ evs) :
    (k, o) ∈ (dispatch evs).listItemDeletes ↔ ∃ ev ∈ evs, itemCell k o ev = some none := by
  simp only [mem_listItemDeletes, itemCell_eq_erase]
  refine ⟨fun h => ⟨_, h, .inr rfl⟩, ?_⟩
  rintro ⟨ev, hev, rfl | rfl⟩
  · exact absurd hev hk
  · exact hev

end

/-! ## The rows after a batch -/

section

variable {evs : List DirtyEvent} {D D' : Tables} {k : Key} (h : (dispatch evs).Result D D')

include h

/-- A key deleted by the batch has no rows left. -/
theorem result_of_deleted (hk : .keyDelete k ∈ evs) :
    D'.store k = none ∧ (∀ f, D'.hashFields k f = none) ∧ ∀ o, D'.listItems k o = none := by
  have hk : k ∈ (dispatch evs).storeDeletes := mem_storeDeletes.2 hk
  exact ⟨(h.store k).trans (if_pos hk), fun f => (h.hashFields k f).trans (if_pos hk),
    fun o => (h.listItems k o).trans (if_pos hk)⟩

variable (hk : .keyDelete k ∉ evs)

include hk

/-- The parent row of any other key is as its last event says. -/
theorem result_store : D'.store k = replayed (storeCell k) evs (D.store k) := by
  have hno : ¬∃ ev ∈ evs, storeCell k ev = some none := fun ⟨ev, hev, hdel⟩ =>
    hk (storeCell_eq_erase.1 hdel ▸ hev)
  rw [h.store, if_neg (mem_storeDeletes.not.2 hk), PlanArgs.storeAfter, last_storeUpserts]
  refine Eq.trans ?_ ((grouped_eq_replayed_iff (iff_of_false not_false hno)).2 ?_)
  · rw [if_neg not_false]
  · intro hw
    obtain ⟨row, hrow⟩ := Option.isSome_iff_exists.1 hw
    obtain ⟨ev, hev, hwr⟩ := exists_mem_of_last hrow
    obtain ⟨x, hx⟩ := Option.isSome_iff_exists.1
      (isSome_last hev (Option.join_eq_some_iff.1 hwr))
    cases x with
    | some y => exact ⟨y, hx⟩
    | none => exact absurd (exists_mem_of_last hx) hno

/-- Its fields are as their last events say if those written are written last. -/
theorem result_field_iff (f : Field) :
    D'.hashFields k f = replayed (fieldCell k f) evs (D.hashFields k f) ↔
      ((last (written (fieldCell k f)) evs).isSome →
        ∃ x, last (fieldCell k f) evs = some (some x)) := by
  rw [h.hashFields, if_neg (mem_storeDeletes.not.2 hk), last_hashFieldUpserts]
  exact grouped_eq_replayed_iff (mem_hashFieldDeletes_iff_erased hk)

theorem result_item_iff (o : ℤ) :
    D'.listItems k o = replayed (itemCell k o) evs (D.listItems k o) ↔
      ((last (written (itemCell k o)) evs).isSome →
        ∃ x, last (itemCell k o) evs = some (some x)) := by
  rw [h.listItems, if_neg (mem_storeDeletes.not.2 hk), last_listItemInserts]
  exact grouped_eq_replayed_iff (mem_listItemDeletes_iff_erased hk)

end

/-! ## One event at a time -/

variable {ev : DirtyEvent} {evs : List DirtyEvent} {D D' : Tables}

/-- The rows of `D'` are those of `D` changed by the events in order. -/
structure Replayed (evs : List DirtyEvent) (D D' : Tables) : Prop where
  store : ∀ k, D'.store k = replayed (storeCell k) evs (D.store k)
  hashFields : ∀ k f, D'.hashFields k f = replayed (fieldCell k f) evs (D.hashFields k f)
  listItems : ∀ k o, D'.listItems k o = replayed (itemCell k o) evs (D.listItems k o)

theorem asyncDrain_singleton (h : asyncDrain [ev] D = .ok D') : Replayed [ev] D D' := by
  obtain ⟨-, hres⟩ := executePlans_ok h
  have hcase : ∀ k, ev = .keyDelete k ∨ DirtyEvent.keyDelete k ∉ [ev] := fun k => by
    rw [List.mem_singleton, eq_comm]
    exact em _
  refine ⟨fun k => ?_, fun k f => ?_, fun k o => ?_⟩
  · rcases hcase k with rfl | hk
    · rw [(result_of_deleted hres List.mem_cons_self).1, replayed_cons, replayed_nil,
        storeCell_eq_erase.2 rfl, Option.getD_some]
    · exact result_store hres hk
  · rcases hcase k with rfl | hk
    · rw [(result_of_deleted hres List.mem_cons_self).2.1, replayed_cons, replayed_nil,
        fieldCell_eq_erase.2 (.inl rfl), Option.getD_some]
    · exact (result_field_iff hres hk f).2 last_of_written_singleton
  · rcases hcase k with rfl | hk
    · rw [(result_of_deleted hres List.mem_cons_self).2.2, replayed_cons, replayed_nil,
        itemCell_eq_erase.2 (.inl rfl), Option.getD_some]
    · exact (result_item_iff hres hk o).2 last_of_written_singleton

/-- A successful replay changes every row as its events say, in order. -/
theorem replay_replayed : ∀ {evs : List DirtyEvent} {D : Tables}, replay evs D = .ok D' →
    Replayed evs D D'
  | [], D, h => by
    obtain rfl := Except.ok.inj h
    exact ⟨fun _ => rfl, fun _ _ => rfl, fun _ _ => rfl⟩
  | ev :: evs, D, h => by
    obtain ⟨D₁, h₁, h₂⟩ := bind_eq_ok_iff.1 h
    have hev := asyncDrain_singleton h₁
    have hevs := replay_replayed h₂
    refine ⟨fun k => ?_, fun k f => ?_, fun k o => ?_⟩
    · rw [replayed_cons, hevs.store, hev.store, replayed_cons, replayed_nil]
    · rw [replayed_cons, hevs.hashFields, hev.hashFields, replayed_cons, replayed_nil]
    · rw [replayed_cons, hevs.listItems, hev.listItems, replayed_cons, replayed_nil]

/-- An event that needs a parent row for `k`. -/
def NeedsParent (k : Key) (ev : DirtyEvent) : Prop :=
  (∃ f v, ev = .hashFieldUpsert k f v) ∨ ∃ o v, ev = .listItemInsert k o v

/-- In a successful replay every child row written has a parent, in the tables or
    among the upserts of the events. -/
theorem exists_parent_of_replay {k : Key} : ∀ {evs : List DirtyEvent} {D : Tables},
    replay evs D = .ok D' → ∀ ev ∈ evs, NeedsParent k ev →
      ((dispatch evs).storeAfter D k).isSome
  | [], _, _, _, hev, _ => absurd hev List.not_mem_nil
  | ev :: evs, D, h, ev', hev', hneed => by
    obtain ⟨D₁, h₁, h₂⟩ := bind_eq_ok_iff.1 h
    rw [PlanArgs.storeAfter, last_storeUpserts, last_cons]
    rcases List.mem_cons.1 hev' with rfl | hmem
    · obtain ⟨hadm, -⟩ := executePlans_ok h₁
      rcases hneed with ⟨f, v, rfl⟩ | ⟨o, v, rfl⟩
      · have hk := hadm.hashParent ((k, f), some v) List.mem_cons_self
        rw [PlanArgs.storeAfter, last_storeUpserts] at hk
        simp only [last_cons, last_nil, written, storeCell, Option.join_none, Option.or_none,
          Option.none_or] at hk
        simp [hk]
      · have hk := hadm.listParent ((k, o), some v) List.mem_cons_self
        rw [PlanArgs.storeAfter, last_storeUpserts] at hk
        simp only [last_cons, last_nil, written, storeCell, Option.join_none, Option.or_none,
          Option.none_or] at hk
        simp [hk]
    · -- The parent is there after the first event: written by a later one, by this one, or
      -- before.
      have hk := exists_parent_of_replay h₂ ev' hmem hneed
      rw [PlanArgs.storeAfter, last_storeUpserts, (asyncDrain_singleton h₁).store, replayed_cons,
        replayed_nil] at hk
      cases hl : last (written (storeCell k)) evs with
      | some row => rfl
      | none =>
        rw [hl, Option.none_or] at hk
        cases hc : storeCell k ev with
        | none =>
          rw [hc, Option.getD_none] at hk
          simp [hk]
        | some c =>
          rw [hc, Option.getD_some] at hk
          simp [written, hc, hk]

/-! ## Batches and replays -/

theorem admissible_of_safe (h : replay evs D = .ok D') (hsafe : BatchSafe D evs) :
    (dispatch evs).Admissible D where
  hashParent row hrow := by
    obtain ⟨k, f, v, hev, rfl⟩ := mem_hashFieldUpserts.1 hrow
    exact exists_parent_of_replay h _ hev (.inl ⟨f, v, rfl⟩)
  listParent row hrow := by
    obtain ⟨k, o, v, hev, rfl⟩ := mem_listItemInserts.1 hrow
    exact exists_parent_of_replay h _ hev (.inr ⟨o, v, rfl⟩)
  nodup := hsafe.distinct
  absent row hrow hdel := by
    obtain ⟨k, o, v, hev, rfl⟩ := mem_listItemInserts.1 hrow
    exact hsafe.absent k o v hev (mem_listItemDeletes.not.1 hdel)

/-- The rows a safe batch leaves are those of the replay. -/
theorem result_eq_of_safe {D'' : Tables} (h : replay evs D = .ok D') (hsafe : BatchSafe D evs)
    (hres : (dispatch evs).Result D D'') : D'' = D' := by
  have hrep := replay_replayed h
  -- A key deleted by the batch is deleted last, so it has no rows in the replay either.
  have hgone : ∀ k, .keyDelete k ∈ evs → D'.store k = none := fun k hk => by
    rw [hrep.store, replayed, hsafe.keys k hk, Option.getD_some]
  apply Tables.ext
  · funext k
    by_cases hk : .keyDelete k ∈ evs
    · rw [(result_of_deleted hres hk).1, hgone k hk]
    · rw [result_store hres hk, hrep.store]
  · funext k f
    by_cases hk : .keyDelete k ∈ evs
    · rw [(result_of_deleted hres hk).2.1]
      by_contra hne
      have := D'.hashFields_parent k f (Option.isSome_iff_ne_none.2 (Ne.symm hne))
      rw [hgone k hk] at this
      exact absurd this (by simp)
    · rw [hrep.hashFields]
      refine (result_field_iff hres hk f).2 fun hw => ?_
      rw [← last_hashFieldUpserts] at hw
      obtain ⟨v, hv⟩ := Option.isSome_iff_exists.1 hw
      obtain ⟨row, hrow, hv⟩ := exists_mem_of_last hv
      obtain ⟨k', f', v', hev, rfl⟩ := mem_hashFieldUpserts.1 hrow
      obtain ⟨⟨rfl, rfl⟩, -⟩ := Prod.mk.inj (valueAt_eq_some.1 hv)
      exact hsafe.fields _ _ v' hk hev
  · funext k o
    by_cases hk : .keyDelete k ∈ evs
    · rw [(result_of_deleted hres hk).2.2]
      by_contra hne
      have := D'.listItems_parent k o (Option.isSome_iff_ne_none.2 (Ne.symm hne))
      rw [hgone k hk] at this
      exact absurd this (by simp)
    · rw [hrep.listItems]
      refine (result_item_iff hres hk o).2 fun hw => ?_
      rw [← last_listItemInserts] at hw
      obtain ⟨v, hv⟩ := Option.isSome_iff_exists.1 hw
      obtain ⟨row, hrow, hv⟩ := exists_mem_of_last hv
      obtain ⟨k', o', v', hev, rfl⟩ := mem_listItemInserts.1 hrow
      obtain ⟨⟨rfl, rfl⟩, -⟩ := Prod.mk.inj (valueAt_eq_some.1 hv)
      exact hsafe.items _ _ v' hk hev

/-- A batch that drains like its replay is safe. -/
theorem safe_of_asyncDrain (h : replay evs D = .ok D') (hdrain : asyncDrain evs D = .ok D') :
    BatchSafe D evs := by
  have hrep := replay_replayed h
  obtain ⟨hadm, hres⟩ := executePlans_ok hdrain
  constructor
  · intro k hk
    have hnone := (result_of_deleted hres hk).1
    obtain ⟨c, hc⟩ := Option.isSome_iff_exists.1
      (isSome_last hk (storeCell_eq_erase.2 rfl))
    rw [hrep.store, replayed, hc, Option.getD_some] at hnone
    rw [hc, hnone]
  · intro k f v hk hev
    refine (result_field_iff hres hk f).1 (hrep.hashFields k f) ?_
    rw [← last_hashFieldUpserts]
    exact isSome_last (mem_hashFieldUpserts.2 ⟨k, f, v, hev, rfl⟩) (valueAt_eq_some.2 rfl)
  · intro k o v hk hev
    refine (result_item_iff hres hk o).1 (hrep.listItems k o) ?_
    rw [← last_listItemInserts]
    exact isSome_last (mem_listItemInserts.2 ⟨k, o, v, hev, rfl⟩) (valueAt_eq_some.2 rfl)
  · exact hadm.nodup
  · exact fun k o v hev hdel => hadm.absent ((k, o), some v)
      (mem_listItemInserts.2 ⟨k, o, v, hev, rfl⟩) (mem_listItemDeletes.not.2 hdel)

/-- Draining a stream cut into batches. -/
def drainAll : List (List DirtyEvent) → Tables → Except SqlError Tables
  | [], D => .ok D
  | evs :: batches, D => asyncDrain evs D >>= drainAll batches

/-- Every batch of the cut is safe where it is drained. -/
def SafeCut : Tables → List (List DirtyEvent) → Prop
  | _, [] => True
  | D, evs :: batches => BatchSafe D evs ∧ ∀ D', replay evs D = .ok D' → SafeCut D' batches

theorem replay_append : ∀ (evs evs' : List DirtyEvent) (D : Tables),
    replay (evs ++ evs') D = replay evs D >>= replay evs'
  | [], _, _ => rfl
  | ev :: evs, evs', D => by
    rw [List.cons_append, replay, replay, bind_assoc]
    exact congrArg _ (funext fun D₁ => replay_append evs evs' D₁)

theorem asyncDrain_of_safe (h : replay evs D = .ok D') (hsafe : BatchSafe D evs) :
    asyncDrain evs D = .ok D' := by
  obtain ⟨D'', hD''⟩ := exists_executePlans (admissible_of_safe h hsafe)
  rw [asyncDrain, hD'', result_eq_of_safe h hsafe (executePlans_ok hD'').2]

theorem drainAll_of_safe : ∀ {batches : List (List DirtyEvent)} {D : Tables},
    replay batches.flatten D = .ok D' → SafeCut D batches → drainAll batches D = .ok D'
  | [], _, h, _ => h
  | evs :: batches, D, h, hsafe => by
    rw [List.flatten_cons, replay_append] at h
    obtain ⟨D₁, h₁, h₂⟩ := bind_eq_ok_iff.1 h
    exact bind_eq_ok_iff.2 ⟨D₁, asyncDrain_of_safe h₁ hsafe.1, drainAll_of_safe h₂ (hsafe.2 D₁ h₁)⟩

/-- For every tables and every list of events whose replay succeeds: the batch
    drain ends in the tables of the replay exactly when the batch is safe, and so
    does every cut of the list into safe batches. -/
theorem asyncDrain_eq_replay_iff (h : replay evs D = .ok D') :
    (asyncDrain evs D = .ok D' ↔ BatchSafe D evs) ∧
      ∀ batches, batches.flatten = evs → SafeCut D batches → drainAll batches D = .ok D' :=
  ⟨⟨safe_of_asyncDrain h, asyncDrain_of_safe h⟩,
    fun _ hcut hsafe => drainAll_of_safe (hcut ▸ h) hsafe⟩

/-- The events of `HSET k f v` on a new key. -/
def newHash : List DirtyEvent :=
  [.keyUpsert [107] .hash [] none 1, .hashFieldUpsert [107] [102] [118]]

/-- The events of a new hash drain in one batch as they do one by one. -/
theorem asyncDrain_newHash :
    ∃ D', replay newHash .empty = .ok D' ∧ asyncDrain newHash .empty = .ok D' := by
  refine ⟨_, rfl, (asyncDrain_eq_replay_iff rfl).1.2 ?_⟩
  refine ⟨fun k hk => ?_, fun k f v _ hev => ?_, fun k o v _ hev => ?_, by decide,
    fun k o v hev => ?_⟩ <;> simp only [newHash, List.mem_cons, reduceCtorEq, List.not_mem_nil,
      or_false, false_or, DirtyEvent.hashFieldUpsert.injEq] at *
  obtain ⟨rfl, rfl, -⟩ := hev
  exact ⟨some [118], rfl⟩

/-- The events of `DEL k` and `SET k v`. -/
def deleteThenSet : List DirtyEvent :=
  [.keyDelete [107], .keyUpsert [107] .string [1, 1, 0, 0, 0, 118] none 1]

/-- A key deleted and created again is lost by the batch. -/
theorem asyncDrain_loses_recreated_key :
    ¬∀ (D : Tables) (evs : List DirtyEvent) (D' : Tables),
      replay evs D = .ok D' → asyncDrain evs D = .ok D' := by
  intro h
  have hdrain := h .empty deleteThenSet _ rfl
  have hlast := (safe_of_asyncDrain rfl hdrain).keys [107] (by decide)
  exact absurd hlast (by decide)

end PgRedis
