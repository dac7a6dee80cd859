import Mathlib.Data.Fintype.EquivFin
import PgRedis.Lib.Chain
import PgRedis.Lib.Run
import PgRedis.Session.Isolation

/-!
# The dirty set

The dirty set of `kv_store.c` as it is in memory: the entries have addresses, the
chain from `dirty_head` is linked through their fields `dirty_next`, and the field
`in_dirty_set` says of an entry that it is on the chain. `Session` has the chain as
the list of its keys; `Heap.Represents` relates the two, and is kept by every
operation (`Represents.step`).

The chain and the marks agree (`Heap.Listed`) as long as no flush raises after
taking a chain with entries: the abort callback then clears the marks of the chain
from `dirty_head`, which is empty by then, and the entries taken stay marked.
Whatever is written to them later is not flushed (`Heap.listed_iff`).
-/

namespace PgRedis

open Lib

/-- The address of an entry. -/
abbrev Ptr := ℕ

/-- The memory of a backend: `PgRedisStore`, the keys and entries at their addresses,
    `dirty_head` and the fields `dirty_next`, and `pending_deletes_head`. -/
structure Heap where
  table : Htab Key Ptr
  slot : Ptr → Key × Entry
  links : Links Ptr
  pendingDeletes : List Key

/-- The calls of `run_flush` to the SPI that may raise an error. -/
inductive SpiCall
  | connect
  | storeUpsert
  | hashFieldDelete
  | hashFieldUpsert
  | listItemDelete
  | listItemInsert
  | storeDelete

/-- Whether the call is made, given the entries collected and the deletions taken: a
    statement whose arrays are empty is not run. -/
def SpiCall.isMade (es : List (Key × Entry)) (deletes : List Key) : SpiCall → Bool
  | connect => !es.isEmpty || !deletes.isEmpty
  | storeUpsert => !es.isEmpty
  | hashFieldDelete => es.any fun x => !x.2.tombstones.isEmpty
  | hashFieldUpsert => es.any fun x => !x.2.dirtyFields.isEmpty
  | listItemDelete => es.any fun x => !x.2.pendingDeleteOrds.isEmpty
  | listItemInsert => es.any fun x => !x.2.pendingInserts.isEmpty
  | storeDelete => deletes.any fun k => k ∉ es.map Prod.fst

/-- What `run_flush` has done to the entries of the chain when the call is made. -/
def SpiCall.before : SpiCall → Entry → Entry
  | connect => id
  | _ => Entry.collect

theorem SpiCall.inDirtySet_before (i : SpiCall) (e : Entry) :
    (i.before e).inDirtySet = e.inDirtySet := by
  have hcollect : e.collect.inDirtySet = e.inDirtySet := by
    rw [Entry.collect]
    split <;> rfl
  cases i with
  | connect => rfl
  | _ => exact hcollect

namespace Heap

/-- The memory of a new backend. -/
def init : Heap := ⟨∅, fun _ => ([], .fresh), ⟨none, fun _ => none⟩, []⟩

/-- The number of entries, which bounds the length of the chain. -/
def count (h : Heap) : ℕ := h.table.keys.length

/-- Writing through the pointer to an entry. -/
def modify (p : Ptr) (f : Entry → Entry) (h : Heap) : Heap :=
  { h with slot := Function.update h.slot p ((h.slot p).1, f (h.slot p).2) }

/-- Setting `dirty_next` of an entry. -/
def setNext (p : Ptr) (o : Option Ptr) (h : Heap) : Heap :=
  { h with links := h.links.write o (.next p) }

/-- Setting `dirty_head`. -/
def setHead (o : Option Ptr) (h : Heap) : Heap := { h with links := h.links.write o .head }

/-- `pg_redis_store_upsert`. A new entry is put at the address `new`. -/
def upsert (now : ℤ) (key : Key) (new : Ptr) (h : Heap) : Heap :=
  match h.table.lookup key with
  | none =>
    ({ h with
      table := h.table.insert key new
      slot := Function.update h.slot new (key, .fresh) } : Heap).setNext new none
  | some p =>
    if (h.slot p).2.isExpired now then
      h.modify p fun e => { Entry.fresh with inDirtySet := e.inDirtySet }
    else h

/-- `pg_redis_mark_dirty`. -/
def markDirty (h : Heap) (p : Ptr) : Heap :=
  if (h.slot p).2.inDirtySet then h
  else { h.modify p fun e => { e with inDirtySet := true } with links := h.links.push p }

/-- `pg_redis_mark_deleted`. -/
def markDeleted (key : Key) (h : Heap) : Heap :=
  if key = [] then h else { h with pendingDeletes := key :: h.pendingDeletes }

/-- Changing an entry and clearing its link. -/
def unmark (f : Entry → Entry) (p : Ptr) (h : Heap) : Heap := (h.modify p f).setNext p none

/-- Taking an entry out of the chain. -/
def unlink (p : Ptr) (h : Heap) : Option Heap :=
  (h.links.unlink p h.count .head).map fun links =>
    ({ h with links := links } : Heap).unmark (fun e => { e with inDirtySet := false }) p

/-- `pg_redis_store_remove`. -/
def remove (key : Key) (h : Heap) : Option (Heap × Bool) :=
  match h.table.lookup key with
  | none => some (h, false)
  | some p => (if (h.slot p).2.inDirtySet then h.unlink p else some h).map fun h =>
      let h := h.markDeleted key
      let h := h.modify p fun e => { e.releaseValue with expireAt := none, version := 0 }
      ({ h with table := h.table.erase key }, true)

/-- `pg_redis_store_reset`. -/
def reset (h : Heap) : Heap := { h.setHead none with table := ∅, pendingDeletes := [] }

/-- `pg_redis_dirty_clear`. -/
def dirtyClear (h : Heap) : Option Heap :=
  (sweep (fun h => h.links.next) (unmark fun e => { e with inDirtySet := false }) h.count
    h.links.head h).map (setHead none)

/-- What the callback does at an abort, and before a commit that does not write the
    tables: `pg_redis_dirty_clear` and `pg_redis_pending_deletes_clear`. -/
def clearTracking (h : Heap) : Option Heap :=
  h.dirtyClear.map fun h => { h with pendingDeletes := [] }

/-- `pg_redis_dirty_head_take` and `pg_redis_pending_deletes_take`. -/
def take (h : Heap) : Heap := { h.setHead none with pendingDeletes := [] }

/-- The loop of `run_flush` that collects the entries of the chain it took. -/
def collect (h : Heap) : Option (Heap × List (Key × Entry)) :=
  sweep (fun x => x.1.links.next)
    (fun p x => (x.1.modify p Entry.collect, x.2 ++ [x.1.slot p])) h.count h.links.head (h.take, [])

/-- `run_flush`, when no call to the SPI raises an error. -/
def flush (h : Heap) : Option Heap :=
  h.collect.bind fun x =>
    sweep (fun h => h.links.next) (unmark Entry.clear) h.count h.links.head x.1

/-- `run_flush`, up to the call that raises an error. -/
def flushUntil (h : Heap) : SpiCall → Option Heap
  | .connect => some h.take
  | _ => h.collect.map Prod.fst

/-- The entry at the address is in the table. -/
def Live (h : Heap) (p : Ptr) : Prop := ∃ k, h.table.lookup k = some p

/-- The flush makes the call. -/
def makes (h : Heap) (i : SpiCall) : Bool :=
  h.collect.any fun x => i.isMade x.2 h.pendingDeletes

end Heap

/-- What happens to the dirty set: an upsert, a write to an entry other than to its
    place in the chain, `mark_dirty`, a removal, a reset, a flush, a flush that raises
    an error at a call to the SPI and the abort callback after it, the callback before
    a commit that does not write the tables, and the callback of an abort. -/
inductive DirtyAction
  | upsert (now : ℤ) (key : Key) (new : Ptr)
  | assign (key : Key) (e : Entry)
  | markDirty (key : Key)
  | remove (key : Key)
  | reset
  | flush
  | flushRaises (i : SpiCall)
  | commit
  | abort

/-- The action takes the key off the chain, or whatever is on it. -/
def DirtyAction.Ends (k : Key) : DirtyAction → Prop
  | remove key => key = k
  | upsert _ _ _ | assign _ _ | markDirty _ => False
  | _ => True

namespace Heap

/-- One action. A new entry is put at an address that no entry in the table has, and
    an entry is written through a pointer from the table. -/
def step (h : Heap) : DirtyAction → Option Heap
  | .upsert now key new =>
    if h.table.lookup key = none ∧ new ∈ h.table.toList.map Prod.snd then none
    else some (h.upsert now key new)
  | .assign key e => (h.table.lookup key).map fun p =>
      h.modify p fun e' => { e with inDirtySet := e'.inDirtySet }
  | .markDirty key => (h.table.lookup key).map h.markDirty
  | .remove key => (h.remove key).map Prod.fst
  | .reset => some h.reset
  | .flush => h.flush
  | .flushRaises i => if h.makes i then (h.flushUntil i).bind clearTracking else none
  | .commit => h.clearTracking
  | .abort => h.clearTracking

end Heap

namespace Session

/-- The keyspace when `run_flush` has taken the chain and the deletions. -/
def taken (f : Entry → Entry) (s : Session) : Session :=
  { s.mapEntries s.dirty f with dirty := [], pendingDeletes := [] }

/-- The action on the keyspace, with the chain as a list of keys. -/
def act (s : Session) : DirtyAction → Session
  | .upsert now key _ => (s.upsert now key).1
  | .assign key e => match s.store.lookup key with
    | none => s
    | some e' => s.put key { e with inDirtySet := e'.inDirtySet }
  | .markDirty key => s.markDirty key
  | .remove key => (s.remove key).1
  | .reset => { s with store := ∅, dirty := [], pendingDeletes := [] }
  | .flush => (s.taken Entry.collect).mapEntries s.dirty Entry.clear
  | .flushRaises i => (s.taken i.before).abort
  | .commit => { s.abort with loaded := s.loaded }
  | .abort => s.abort

/-- The flush of the keyspace is one of the actions, whether a statement fails or
    not. -/
theorem runFlush_act {s : Session} {D : Tables} :
    (∃ D', (s.runFlush D).2 = .ok D' ∧ (s.runFlush D).1 = s.act .flush) ∨
      ∃ err, (s.runFlush D).2 = .error err ∧
        (s.runFlush D).1.abort = s.act (.flushRaises .storeUpsert) := by
  rw [runFlush]
  split
  · exact .inr ⟨_, rfl, rfl⟩
  · exact .inl ⟨_, rfl, rfl⟩

end Session

/-! ## The keyspace in memory -/

namespace Heap

/-- The table leads to the entries of `store`, each under its key. -/
structure Stores (table : Htab Key Ptr) (slot : Ptr → Key × Entry) (store : Htab Key Entry) :
    Prop where
  key : ∀ k p, table.lookup k = some p → (slot p).1 = k
  entry : ∀ k, store.lookup k = (table.lookup k).map fun p => (slot p).2

/-- The memory holds the keyspace `s`, with the chain at the addresses `l`. -/
structure Represents (h : Heap) (l : List Ptr) (s : Session) : Prop
    extends Stores h.table h.slot s.store where
  chain : h.links.IsList l
  nodup : l.Nodup
  live : ∀ p ∈ l, h.Live p
  marked : ∀ p ∈ l, (h.slot p).2.inDirtySet = true
  dirty : s.dirty = l.map fun p => (h.slot p).1
  pendingDeletes : s.pendingDeletes = h.pendingDeletes

/-- Changing the entries at the addresses `l`. -/
def mapOn (l : List Ptr) (f : Entry → Entry) (h : Heap) : Heap :=
  { h with slot := fun p => if p ∈ l then ((h.slot p).1, f (h.slot p).2) else h.slot p }

variable {h h' : Heap} {l : List Ptr} {s : Session} {k : Key} {p : Ptr} {f : Entry → Entry}

theorem slot_modify (q : Ptr) :
    (h.modify p f).slot q = if q = p then ((h.slot p).1, f (h.slot p).2) else h.slot q :=
  Function.update_apply _ _ _ _

theorem fst_slot_modify (q : Ptr) : ((h.modify p f).slot q).1 = (h.slot q).1 := by
  rw [slot_modify]
  split_ifs with hq
  · rw [hq]
  · rfl

section

variable (h : Heap) (key : Key)

@[simp] theorem table_markDeleted : (h.markDeleted key).table = h.table := by
  rw [markDeleted]
  split_ifs <;> rfl

@[simp] theorem slot_markDeleted : (h.markDeleted key).slot = h.slot := by
  rw [markDeleted]
  split_ifs <;> rfl

@[simp] theorem links_markDeleted : (h.markDeleted key).links = h.links := by
  rw [markDeleted]
  split_ifs <;> rfl

@[simp] theorem pendingDeletes_markDeleted : (h.markDeleted key).pendingDeletes =
    if key = [] then h.pendingDeletes else key :: h.pendingDeletes := by
  rw [markDeleted]
  split_ifs <;> rfl

end

@[simp] theorem mapOn_nil : h.mapOn [] f = h := by simp [mapOn]

@[simp] theorem mapOn_id : h.mapOn l id = h := by simp [mapOn]

theorem mapOn_mapOn (g : Entry → Entry) : (h.mapOn l f).mapOn l g = h.mapOn l (g ∘ f) := by
  simp only [mapOn, Heap.mk.injEq, true_and, and_true]
  funext q
  split_ifs <;> rfl

/-- Changing one entry more. -/
theorem mapOn_modify (hp : p ∉ l) : (h.modify p f).mapOn l f = h.mapOn (p :: l) f := by
  simp only [mapOn, modify, Heap.mk.injEq, true_and, and_true]
  funext q
  by_cases hq : q = p
  · subst hq
    simp [hp]
  · simp [hq]

theorem foldl_unmark (hnd : l.Nodup) : ∃ next, l.foldl (fun h p => h.unmark f p) h =
    { h with slot := (h.mapOn l f).slot, links := ⟨h.links.head, next⟩ } := by
  induction l generalizing h with
  | nil => exact ⟨h.links.next, by simp⟩
  | cons p l ih =>
    obtain ⟨hp, hnd⟩ := List.nodup_cons.1 hnd
    obtain ⟨next, hnext⟩ := ih (h := h.unmark f p) hnd
    refine ⟨next, hnext.trans ?_⟩
    rw [← mapOn_modify hp]
    rfl

theorem foldl_collect (hnd : l.Nodup) (es : List (Key × Entry)) :
    l.foldl (fun x p => (x.1.modify p Entry.collect, x.2 ++ [x.1.slot p])) (h, es) =
      (h.mapOn l Entry.collect, es ++ l.map h.slot) := by
  induction l generalizing h es with
  | nil => simp
  | cons p l ih =>
    obtain ⟨hp, hnd⟩ := List.nodup_cons.1 hnd
    have hslot : l.map (h.modify p Entry.collect).slot = l.map h.slot := by
      refine List.map_congr_left fun q hq => ?_
      rw [slot_modify, if_neg]
      rintro rfl
      exact hp hq
    rw [List.foldl_cons, ih hnd, mapOn_modify hp, hslot, List.map_cons, List.append_assoc]
    rfl

section

variable {n : ℕ} {o : Option Ptr} (hc : Chain h.links.next o l) (hnd : l.Nodup)
  (hn : l.length ≤ n)

include hc hnd hn

/-- A loop changing the entries of a chain, and their links. -/
theorem sweep_unmark (f : Entry → Entry) :
    ∃ next, sweep (fun h : Heap => h.links.next) (unmark f) n o h =
      some { h with slot := (h.mapOn l f).slot, links := ⟨h.links.head, next⟩ } := by
  obtain ⟨next, hnext⟩ := foldl_unmark (h := h) (f := f) hnd
  refine ⟨next, ?_⟩
  rw [← hnext]
  exact sweep_eq (fun _ _ _ hq => Function.update_of_ne hq _ _) hc hnd hn

/-- The loop collecting the entries of a chain. -/
theorem sweep_collect (es : List (Key × Entry)) :
    sweep (fun x : Heap × List (Key × Entry) => x.1.links.next)
      (fun p x => (x.1.modify p Entry.collect, x.2 ++ [x.1.slot p])) n o (h, es) =
        some (h.mapOn l Entry.collect, es ++ l.map h.slot) := by
  rw [← foldl_collect hnd es]
  refine sweep_eq (fun _ _ _ _ => ?_) ?_ hnd hn
  · rfl
  · exact hc

end

/-- Writing to an entry. -/
theorem Stores.modify (hs : Stores h.table h.slot s.store) (hp : h.table.lookup k = some p) :
    Stores h.table (h.modify p f).slot (s.put k (f (h.slot p).2)).store where
  key k' q hq := (fst_slot_modify q).trans (hs.key k' q hq)
  entry k' := by
    rw [Session.lookup_put]
    split_ifs with hk
    · rw [hk, hp, Option.map_some, slot_modify, if_pos rfl]
    · rw [hs.entry]
      refine Option.map_congr fun q hq => ?_
      rw [slot_modify, if_neg]
      rintro rfl
      exact hk ((hs.key k' q hq).symm.trans (hs.key k q hp))

/-- Putting an entry at an address that the table does not lead to. -/
theorem Stores.insert (hs : Stores h.table h.slot s.store)
    (hp : ∀ k' q, h.table.lookup k' = some q → q ≠ p) (e : Entry) :
    Stores (h.table.insert k p) (Function.update h.slot p (k, e)) (s.put k e).store where
  key k' q hq := by
    rw [Htab.lookup_insert_eq] at hq
    split_ifs at hq with hk
    · rw [← Option.some.inj hq, Function.update_self, hk]
    · rw [Function.update_of_ne (hp k' q hq), hs.key k' q hq]
  entry k' := by
    rw [Session.lookup_put, Htab.lookup_insert_eq]
    split_ifs with hk
    · rw [Option.map_some, Function.update_self]
    · rw [hs.entry]
      refine Option.map_congr fun q hq => ?_
      rw [Function.update_of_ne (hp k' q hq)]

/-- Taking an entry out of the table, whatever becomes of its memory. -/
theorem Stores.erase (hs : Stores h.table h.slot s.store) (hp : h.table.lookup k = some p)
    {slot : Ptr → Key × Entry} (hslot : ∀ q, q ≠ p → slot q = h.slot q) :
    Stores (h.table.erase k) slot (s.store.erase k) := by
  have hne : ∀ {k' q}, k' ≠ k → h.table.lookup k' = some q → slot q = h.slot q := by
    refine fun hk hq => hslot _ ?_
    rintro rfl
    exact hk ((hs.key _ _ hq).symm.trans (hs.key k _ hp))
  constructor
  · intro k' q hq
    rw [Htab.lookup_erase_eq] at hq
    split_ifs at hq with hk
    rw [hne hk hq, hs.key k' q hq]
  · intro k'
    rw [Htab.lookup_erase_eq, Htab.lookup_erase_eq]
    split_ifs with hk
    · rfl
    · rw [hs.entry]
      refine Option.map_congr fun q hq => ?_
      rw [hne hk hq]

namespace Represents

/-- An entry of the chain is the one under its key. -/
theorem eq_of_key (hr : h.Represents l s) {q : Ptr} (hq : q ∈ l) (hp : h.table.lookup k = some p)
    (hk : (h.slot q).1 = k) : q = p := by
  obtain ⟨k', hk'⟩ := hr.live q hq
  rw [← hr.key k' q hk', hk] at hk'
  exact Option.some.inj (hk'.symm.trans hp)

theorem mem_dirty (hr : h.Represents l s) (hp : h.table.lookup k = some p) :
    k ∈ s.dirty ↔ p ∈ l := by
  rw [hr.dirty, List.mem_map]
  constructor
  · rintro ⟨q, hq, hk⟩
    rwa [← hr.eq_of_key hq hp hk]
  · exact fun hmem => ⟨p, hmem, hr.key k p hp⟩

/-- Different entries of the chain have different keys. -/
theorem nodup_keys (hr : h.Represents l s) : (l.map fun p => (h.slot p).1).Nodup := by
  refine hr.nodup.map_on fun p hp q hq heq => ?_
  obtain ⟨k, hk⟩ := hr.live q hq
  exact hr.eq_of_key hp hk (heq.trans (hr.key k q hk))

/-- The chain is no longer than the loops allow for. -/
theorem length_le (hr : h.Represents l s) : l.length ≤ h.count := by
  have hsub : (l.map fun p => (h.slot p).1) ⊆ h.table.keys := by
    intro k hk
    obtain ⟨p, hp, rfl⟩ := List.mem_map.1 hk
    obtain ⟨k, hk⟩ := hr.live p hp
    rw [hr.key k p hk]
    exact AList.mem_keys.1 (AList.lookup_isSome.1 (by rw [hk]; rfl))
  simpa [count] using List.Nodup.length_le_of_subset hr.nodup_keys hsub

/-- Writing to an entry without changing its mark. -/
theorem modify (hr : h.Represents l s) (hp : h.table.lookup k = some p)
    (hf : (f (h.slot p).2).inDirtySet = (h.slot p).2.inDirtySet) :
    (h.modify p f).Represents l (s.put k (f (h.slot p).2)) where
  toStores := hr.toStores.modify hp
  chain := hr.chain
  nodup := hr.nodup
  live := hr.live
  marked q hq := by
    rw [slot_modify]
    split_ifs with hqp
    · rw [hf, ← hqp]
      exact hr.marked q hq
    · exact hr.marked q hq
  dirty := hr.dirty.trans (List.map_congr_left fun q _ => (fst_slot_modify q).symm)
  pendingDeletes := hr.pendingDeletes

/-- After a loop over the chain that was taken, no entry is on the chain. -/
theorem swept (hr : h.Represents l s) {s' : Session} (f : Entry → Entry)
    (htable : h'.table = h.table) (hslot : h'.slot = (h.mapOn l f).slot)
    (hhead : h'.links.head = none) (hdel : s'.pendingDeletes = h'.pendingDeletes)
    (hdirty : s'.dirty = []) (he : ∀ k, s'.store.lookup k =
      (s.store.lookup k).map fun e => if k ∈ s.dirty then f e else e) : h'.Represents [] s' where
  key k q hq := by
    rw [htable] at hq
    rw [hslot, ← hr.key k q hq]
    simp only [mapOn]
    split_ifs <;> rfl
  entry k := by
    rw [he, hr.entry, Option.map_map, htable, hslot]
    refine Option.map_congr fun q hq => ?_
    simp only [Function.comp_apply, mapOn, hr.mem_dirty hq]
    split_ifs <;> rfl
  chain := by
    rw [Links.IsList, hhead]
    exact .nil
  nodup := List.nodup_nil
  live := by simp
  marked := by simp
  dirty := hdirty
  pendingDeletes := hdel

theorem upsert (hr : h.Represents l s) {now : ℤ} {new : Ptr}
    (hnew : h.table.lookup k = none → ∀ k', h.table.lookup k' ≠ some new) :
    (h.upsert now k new).Represents l (s.upsert now k).1 := by
  rw [Heap.upsert, Session.upsert, hr.entry]
  cases hl : h.table.lookup k with
  | none =>
    have hfresh : ∀ k' q, h.table.lookup k' = some q → q ≠ new := by
      rintro k' q hq rfl
      exact hnew hl k' hq
    have hne : ∀ q ∈ l, q ≠ new := fun q hq => by
      obtain ⟨k', hk'⟩ := hr.live q hq
      exact hfresh k' q hk'
    have hslot : ∀ q ∈ l, Function.update h.slot new (k, Entry.fresh) q = h.slot q :=
      fun q hq => Function.update_of_ne (hne q hq) _ _
    refine ⟨hr.toStores.insert hfresh .fresh, ?_, hr.nodup, fun q hq => ?_, fun q hq => ?_, ?_,
      hr.pendingDeletes⟩
    · exact hr.chain.congr fun q hq => Function.update_of_ne (hne q hq) _ _
    · obtain ⟨k', hk'⟩ := hr.live q hq
      refine ⟨k', (Htab.lookup_insert_eq _ _ _ _).trans ?_⟩
      rw [if_neg, hk']
      rintro rfl
      rw [hk'] at hl
      exact absurd hl (by simp)
    · simp only [setNext, hslot q hq]
      exact hr.marked q hq
    · refine hr.dirty.trans (List.map_congr_left fun q hq => ?_)
      simp only [setNext, hslot q hq]
  | some p =>
    simp only [Option.map_some]
    split_ifs
    · exact hr.modify hl rfl
    · exact hr

theorem markDirty (hr : h.Represents l s) (hp : h.table.lookup k = some p) :
    ∃ l', (h.markDirty p).Represents l' (s.markDirty k) := by
  rw [Heap.markDirty, Session.markDirty, hr.entry, hp]
  simp only [Option.map_some]
  split_ifs with hd
  · exact ⟨l, hr⟩
  -- The entry is not marked, so it is not on the chain yet.
  have hpl : p ∉ l := fun hmem => hd (hr.marked p hmem)
  have hstores := hr.toStores.modify (f := fun e => { e with inDirtySet := true }) hp
  refine ⟨p :: l, hstores, hr.chain.push hpl, List.nodup_cons.2 ⟨hpl, hr.nodup⟩,
    fun q hq => ?_, fun q hq => ?_, ?_, hr.pendingDeletes⟩
  · rcases List.mem_cons.1 hq with rfl | hq
    · exact ⟨k, hp⟩
    · exact hr.live q hq
  · simp only [slot_modify]
    rcases List.mem_cons.1 hq with rfl | hq
    · rw [if_pos rfl]
    · split_ifs
      · rfl
      · exact hr.marked q hq
  · simp only [List.map_cons, fst_slot_modify, hr.key k p hp, hr.dirty]

/-- An entry about to be removed is off the chain. -/
theorem exists_unlink (hr : h.Represents l s) (p : Ptr) :
    ∃ h', (if (h.slot p).2.inDirtySet then h.unlink p else some h) = some h' ∧
      h'.table = h.table ∧ h'.pendingDeletes = h.pendingDeletes ∧
      (∀ q, q ≠ p → h'.slot q = h.slot q) ∧ h'.links.IsList (l.erase p) := by
  split_ifs with hd
  · obtain ⟨links, hlinks, hchain⟩ := hr.chain.unlink hr.nodup p hr.length_le
    rw [Heap.unlink, hlinks]
    refine ⟨_, rfl, rfl, rfl, fun q hq => ?_, ?_⟩
    · exact Function.update_of_ne hq _ _
    · refine hchain.congr fun q hq => Function.update_of_ne ?_ _ _
      rintro rfl
      exact (hr.nodup.mem_erase_iff.1 hq).1 rfl
  · -- The function returns at once: an entry without a mark is not on the chain.
    have hpl : p ∉ l := fun hmem => hd (hr.marked p hmem)
    refine ⟨h, rfl, rfl, rfl, fun _ _ => rfl, ?_⟩
    rw [List.erase_of_not_mem hpl]
    exact hr.chain

/-- The keys of the chain without an entry. -/
theorem map_erase (hr : h.Represents l s) (hp : h.table.lookup k = some p) :
    (l.map fun q => (h.slot q).1).erase k = (l.erase p).map fun q => (h.slot q).1 := by
  rw [hr.nodup_keys.erase_eq_filter, hr.nodup.erase_eq_filter, List.filter_map]
  congr 1
  refine List.filter_congr fun q hq => ?_
  -- No other entry of the chain has this key.
  have hiff : (h.slot q).1 = k ↔ q = p := by
    refine ⟨hr.eq_of_key hq hp, ?_⟩
    rintro rfl
    exact hr.key k q hp
  simp [bne, hiff]

theorem remove (hr : h.Represents l s) (k : Key) :
    ∃ h' b l', h.remove k = some (h', b) ∧ h'.Represents l' (s.remove k).1 := by
  cases hl : h.table.lookup k with
  | none =>
    have hs : s.store.lookup k = none := by rw [hr.entry, hl, Option.map_none]
    rw [Heap.remove, hl, Session.remove_of_lookup_none hs]
    exact ⟨h, false, l, rfl, hr⟩
  | some p =>
    have hs : s.store.lookup k = some (h.slot p).2 := by rw [hr.entry, hl, Option.map_some]
    obtain ⟨h₁, hunlink, htable, hdel, hslot, hchain⟩ := hr.exists_unlink p
    rw [Heap.remove, hl, Session.remove_of_lookup hs]
    simp only [hunlink, Option.map_some]
    refine ⟨_, _, l.erase p, rfl, ?_⟩
    -- The memory of the entry changes, and it is neither in the table nor on the chain.
    have hslot' : ∀ q, q ≠ p → ((h₁.markDeleted k).modify p fun e =>
        { e.releaseValue with expireAt := none, version := 0 }).slot q = h.slot q := by
      intro q hq
      rw [slot_modify, if_neg hq, slot_markDeleted, hslot q hq]
    have hchain' : ∀ {q}, q ∈ l.erase p → q ∈ l ∧ q ≠ p := fun hq =>
      (hr.nodup.mem_erase_iff.1 hq).symm
    constructor
    · simpa [Heap.modify, htable] using hr.toStores.erase hl hslot'
    · simpa [Heap.modify] using hchain
    · exact hr.nodup.erase p
    · intro q hq
      obtain ⟨k', hk'⟩ := hr.live q (hchain' hq).1
      refine ⟨k', ?_⟩
      simp only [Heap.modify, table_markDeleted, htable, Htab.lookup_erase_eq]
      rw [if_neg, hk']
      rintro rfl
      exact (hchain' hq).2 (Option.some.inj (hk'.symm.trans hl))
    · intro q hq
      simp only [hslot' q (hchain' hq).2]
      exact hr.marked q (hchain' hq).1
    · have hkeys : s.dirty.erase k = (l.erase p).map fun q => (h.slot q).1 := by
        rw [hr.dirty, hr.map_erase hl]
      simp only
      rw [List.map_congr_left fun q hq => by rw [hslot' q (hchain' hq).2], ← hkeys]
      split_ifs with hd
      · rfl
      · have hk : k ∉ s.dirty := fun hmem => hd (hr.marked p ((hr.mem_dirty hl).1 hmem))
        rw [List.erase_of_not_mem hk]
    · simp [Heap.modify, hdel, hr.pendingDeletes]

/-- The callback clears the marks of the chain. -/
theorem clearTracking (hr : h.Represents l s) :
    ∃ h', h.clearTracking = some h' ∧ h'.Represents [] s.abort := by
  obtain ⟨next, hnext⟩ := sweep_unmark hr.chain hr.nodup hr.length_le
    fun e => { e with inDirtySet := false }
  rw [Heap.clearTracking, dirtyClear, hnext]
  exact ⟨_, rfl, hr.swept (fun e => { e with inDirtySet := false }) rfl rfl rfl rfl rfl
    fun k => Htab.lookup_mapValues _ _ _⟩

/-- The loop of the flush collects the entries of the chain. -/
theorem collect (hr : h.Represents l s) :
    h.collect = some (h.take.mapOn l Entry.collect, l.map h.slot) :=
  sweep_collect (h := h.take) hr.chain hr.nodup hr.length_le []

/-- The entries collected are those of the keyspace that are dirty. -/
theorem map_slot (hr : h.Represents l s) : l.map h.slot = s.dirtyEntries := by
  rw [Session.dirtyEntries, hr.dirty, List.filterMap_map, ← List.filterMap_eq_map]
  refine List.filterMap_congr fun p hp => ?_
  obtain ⟨k, hk⟩ := hr.live p hp
  have hentry : s.store.lookup (h.slot p).1 = some (h.slot p).2 := by
    rw [hr.key k p hk, hr.entry, hk, Option.map_some]
  simp only [Function.comp_apply, hentry, Option.map_some]

theorem flush (hr : h.Represents l s) :
    ∃ h', h.flush = some h' ∧ h'.Represents [] (s.act .flush) := by
  obtain ⟨next, hnext⟩ := sweep_unmark (h := h.take.mapOn l Entry.collect) hr.chain hr.nodup
    hr.length_le Entry.clear
  rw [Heap.flush, hr.collect, Option.bind_some, hnext, mapOn_mapOn]
  refine ⟨_, rfl, hr.swept (Entry.clear ∘ Entry.collect) rfl rfl rfl rfl rfl fun k => ?_⟩
  simp only [Session.act, Session.taken, Session.mapEntries, Htab.lookup_mapValues, Option.map_map]
  congr 1
  funext e
  by_cases hk : k ∈ s.dirty <;> simp [hk]

/-- When the flush raises an error, the entries it took are off the chain and still
    marked. -/
theorem flushUntil (hr : h.Represents l s) (i : SpiCall) :
    ∃ h', h.flushUntil i = some h' ∧ h'.Represents [] (s.taken i.before) := by
  have htaken : ∀ h' : Heap, h'.table = h.table → h'.slot = (h.mapOn l i.before).slot →
      h'.links.head = none → h'.pendingDeletes = [] → h'.Represents [] (s.taken i.before) :=
    fun h' htable hslot hhead hdel => hr.swept i.before htable hslot hhead hdel.symm rfl
      fun k => Htab.lookup_mapValues _ _ _
  cases i with
  | connect =>
    -- The chain has been taken, but none of its entries visited.
    have hslot : (h.mapOn l id).slot = h.slot := by rw [mapOn_id]
    exact ⟨h.take, rfl, htaken _ rfl hslot.symm rfl rfl⟩
  | _ =>
    refine ⟨h.take.mapOn l Entry.collect, ?_, htaken _ rfl rfl rfl rfl⟩
    rw [Heap.flushUntil, hr.collect]
    · rfl
    · simp

theorem reset (h : Heap) (s : Session) : h.reset.Represents [] (s.act .reset) where
  key k p hp := absurd hp (by simp [Heap.reset])
  entry k := by simp [Heap.reset, Session.act]
  chain := .nil
  nodup := List.nodup_nil
  live := by simp
  marked := by simp
  dirty := rfl
  pendingDeletes := rfl

/-- Every action on the memory is the action on the keyspace. -/
theorem step (hr : h.Represents l s) {a : DirtyAction} (hst : h.step a = some h') :
    ∃ l', h'.Represents l' (s.act a) := by
  cases a with
  | upsert now key new =>
    rw [Heap.step] at hst
    split_ifs at hst with hnew
    refine ⟨l, Option.some.inj hst ▸ hr.upsert fun hl k' hk' => hnew ⟨hl, ?_⟩⟩
    exact List.mem_map.2 ⟨(k', new), Htab.mem_toList.2 hk', rfl⟩
  | assign key e =>
    obtain ⟨p, hp, rfl⟩ := Option.map_eq_some_iff.1 hst
    rw [Session.act, hr.entry, hp]
    exact ⟨l, hr.modify hp rfl⟩
  | markDirty key =>
    obtain ⟨p, hp, rfl⟩ := Option.map_eq_some_iff.1 hst
    exact hr.markDirty hp
  | remove key =>
    obtain ⟨h₁, b, l', hremove, hr'⟩ := hr.remove key
    rw [Heap.step, hremove] at hst
    exact ⟨l', Option.some.inj hst ▸ hr'⟩
  | reset => exact ⟨[], Option.some.inj hst ▸ .reset h s⟩
  | flush =>
    obtain ⟨h₁, hflush, hr'⟩ := hr.flush
    exact ⟨[], Option.some.inj (hflush.symm.trans hst) ▸ hr'⟩
  | flushRaises i =>
    -- The callback of the abort starts from a chain that is empty by now.
    obtain ⟨h₁, huntil, hr₁⟩ := hr.flushUntil i
    obtain ⟨h₂, hclear, hr₂⟩ := hr₁.clearTracking
    rw [Heap.step, huntil, Option.bind_some, hclear] at hst
    split_ifs at hst
    exact ⟨[], Option.some.inj hst ▸ hr₂⟩
  | commit =>
    obtain ⟨h₁, hclear, hr'⟩ := hr.clearTracking
    obtain rfl := Option.some.inj (hclear.symm.trans hst)
    exact ⟨[], ⟨hr'.toStores, hr'.chain, hr'.nodup, hr'.live, hr'.marked, hr'.dirty,
      hr'.pendingDeletes⟩⟩
  | abort =>
    obtain ⟨h₁, hclear, hr'⟩ := hr.clearTracking
    exact ⟨[], Option.some.inj (hclear.symm.trans hst) ▸ hr'⟩

end Represents

theorem represents_init : init.Represents [] .init where
  key k p hp := absurd hp (by simp [init])
  entry k := by simp [init, Session.init]
  chain := .nil
  nodup := List.nodup_nil
  live := by simp
  marked := by simp
  dirty := rfl
  pendingDeletes := rfl

/-- No operation is stuck: the loops over the chain end, and an action is possible if
    a new entry is put at a free address, an entry written is in the table, and a flush
    makes the call that raises an error. -/
theorem Represents.isSome_step (hr : h.Represents l s) (a : DirtyAction) :
    (h.step a).isSome ↔ match a with
      | .upsert _ key new => h.table.lookup key = none → new ∉ h.table.toList.map Prod.snd
      | .assign key _ | .markDirty key => (h.table.lookup key).isSome
      | .flushRaises i => h.makes i
      | _ => True := by
  -- The loops are those of `remove`, of a flush and of the clearing of the chain, and each ends
  -- on a list.
  cases a with
  | upsert now key new =>
    rw [Heap.step]
    split_ifs with hnew
    · exact iff_of_false (by simp) fun hfree => hfree hnew.1 hnew.2
    · exact iff_of_true rfl fun hl hmem => hnew ⟨hl, hmem⟩
  | assign | markDirty => simp [Heap.step]
  | remove key =>
    obtain ⟨h', b, l', hremove, -⟩ := hr.remove key
    simp [Heap.step, hremove]
  | reset => simp [Heap.step]
  | flush =>
    obtain ⟨h', hflush, -⟩ := hr.flush
    simp [Heap.step, hflush]
  | flushRaises i =>
    obtain ⟨h₁, huntil, hr₁⟩ := hr.flushUntil i
    obtain ⟨h₂, hclear, -⟩ := hr₁.clearTracking
    simp [Heap.step, huntil, hclear]
  | commit | abort =>
    obtain ⟨h', hclear, -⟩ := hr.clearTracking
    simp [Heap.step, hclear]

end Heap

/-! ## Commands -/

namespace Session

variable {s : Session}

/-- Assigning an entry that has the mark of the one before. -/
theorem act_assign {k : Key} {e e₀ : Entry} (he : s.store.lookup k = some e₀)
    (hd : e.inDirtySet = e₀.inDirtySet) : s.act (.assign k e) = s.put k e := by
  simp only [act, he, ← hd]

/-- An upsert before does not change what is written. -/
theorem write_upsert (now : ℤ) (k : Key) (e : Entry) :
    (s.upsert now k).1.write k e = s.write k e := by
  rw [write, put_upsert, write]

end Session

namespace Heap.Represents

variable {h : Heap} {l : List Ptr} {s s' : Session} {now : ℤ} {c : Command}

/-- An action that is possible on the memory. -/
theorem exists_step (hr : h.Represents l s) {a : DirtyAction} (ha : (h.step a).isSome) :
    ∃ h' l', h.step a = some h' ∧ h'.Represents l' (s.act a) := by
  obtain ⟨h', hst⟩ := Option.isSome_iff_exists.1 ha
  obtain ⟨l', hr'⟩ := hr.step hst
  exact ⟨h', l', hst, hr'⟩

theorem isSome_lookup (hr : h.Represents l s) {k : Key} {e : Entry}
    (he : s.store.lookup k = some e) : (h.table.lookup k).isSome := by
  rw [hr.entry, Option.map_eq_some_iff] at he
  obtain ⟨p, hp, -⟩ := he
  rw [hp]
  rfl

/-- Writing an entry and marking it are two actions. -/
theorem exists_run_write (hr : h.Represents l s) {k : Key} {e e₀ : Entry}
    (he : s.store.lookup k = some e₀) (hd : e.inDirtySet = e₀.inDirtySet) :
    ∃ h' l', run Heap.step h [.assign k e, .markDirty k] = some h' ∧
      h'.Represents l' (s.write k e) := by
  obtain ⟨h₁, l₁, hst₁, hr₁⟩ := hr.exists_step ((hr.isSome_step (.assign k e)).2
    (hr.isSome_lookup he))
  rw [Session.act_assign he hd] at hr₁
  have he₁ : (s.put k e).store.lookup k = some e := by rw [Session.lookup_put, if_pos rfl]
  obtain ⟨h₂, l₂, hst₂, hr₂⟩ := hr₁.exists_step ((hr₁.isSome_step (.markDirty k)).2
    (hr₁.isSome_lookup he₁))
  exact ⟨h₂, l₂, by simp [run, hst₁, hst₂], hr₂⟩

/-- What a command does to the keyspace is a run of actions on the memory. -/
theorem exists_run (hr : h.Represents l s) (ho : Outcome now c s s') :
    ∃ as h' l', (∀ a ∈ as, ∀ i, a ≠ DirtyAction.flushRaises i) ∧
      run Heap.step h as = some h' ∧ h'.Represents l' s' := by
  cases ho with
  | same => exact ⟨[], h, l, by simp, rfl, hr⟩
  | removed =>
    obtain ⟨h', l', hst, hr'⟩ := hr.exists_step ((hr.isSome_step (.remove c.key)).2 trivial)
    exact ⟨[.remove c.key], h', l', by simp, by simp [run, hst], hr'⟩
  | @started e _ _ _ _ hd =>
    -- If a new entry is made, it is made at an address that the table does not use.
    obtain ⟨new, hnew⟩ := Infinite.exists_notMem_finset (h.table.toList.map Prod.snd).toFinset
    rw [List.mem_toFinset] at hnew
    obtain ⟨h₁, l₁, hst₁, hr₁⟩ := hr.exists_step ((hr.isSome_step (.upsert now c.key new)).2
      fun _ => hnew)
    have hmark : e.inDirtySet =
        (Session.upserted now (s.store.lookup c.key)).1.inDirtySet := by
      rw [hd]
      cases s.store.lookup c.key with
      | none => rfl
      | some e₀ =>
        rw [Session.upserted, Option.any_some]
        split_ifs <;> rfl
    obtain ⟨h₂, l₂, hrun, hr₂⟩ := hr₁.exists_run_write
      (Session.lookup_upsert_self now c.key s) hmark
    refine ⟨.upsert now c.key new :: [.assign c.key e, .markDirty c.key], h₂, l₂, by simp,
      by rw [run, hst₁, Option.bind_some, hrun], ?_⟩
    rwa [← Session.write_upsert now]
  | edited he _ _ _ hd =>
    obtain ⟨h', l', hrun, hr'⟩ := hr.exists_run_write he hd
    exact ⟨_, h', l', by simp, hrun, hr'⟩

/-- So is a call. -/
theorem call (hr : h.Represents l s) (ht : s.WellTyped) (a : Call) :
    ∃ as h' l', (∀ b ∈ as, ∀ i, b ≠ DirtyAction.flushRaises i) ∧
      run Heap.step h as = some h' ∧ h'.Represents l' (s.call a) := by
  rcases Session.call_cases ht a with heq | ⟨-, ho⟩
  · exact ⟨[], h, l, by simp, rfl, by rwa [heq]⟩
  · exact hr.exists_run ho

end Heap.Represents

/-! ## The chain and the marks -/

namespace Session

variable {s : Session} {a : DirtyAction} {k : Key}

/-- The marked entries stay on the chain, unless a flush raises that has taken a chain
    with entries. -/
theorem Chained.act (hs : s.Chained) (ha : ∀ i, a = .flushRaises i → s.dirty = []) :
    (s.act a).Chained := by
  have hput : ∀ {key : Key} {e e' : Entry}, s.store.lookup key = some e →
      e'.inDirtySet = e.inDirtySet → (s.put key e').Chained :=
    fun he heq => hs.put fun hd => hs _ _ he (heq ▸ hd)
  cases a with
  | upsert now key new =>
    rw [Session.act, upsert]
    cases hl : s.store.lookup key with
    | none => exact hs.put fun hd => absurd hd (by simp [Entry.fresh])
    | some e =>
      simp only
      split_ifs
      · exact hput hl rfl
      · exact hs
  | assign key e =>
    rw [Session.act]
    cases hl : s.store.lookup key with
    | none => exact hs
    | some e' => exact hput hl rfl
  | markDirty key => exact hs.markDirty key
  | remove key => exact hs.remove key
  | reset => exact fun k e he => absurd he (by simp [Session.act])
  | flush =>
    intro k e he hd
    simp only [Session.act, taken, mapEntries, Htab.lookup_mapValues, Option.map_map,
      Option.map_eq_some_iff, Function.comp_apply] at he
    obtain ⟨e', he', rfl⟩ := he
    -- Entries on the chain have lost their mark, and the others had none.
    split_ifs at hd with hk
    · exact absurd hd (by simp)
    · exact absurd (hs k e' he' hd) hk
  | flushRaises i =>
    have htaken : (s.taken i.before).Chained := by
      intro k e he hd
      simp only [taken, mapEntries, ha i rfl, Htab.lookup_mapValues, List.not_mem_nil, if_false,
        Option.map_id_fun'] at he
      exact absurd (hs k e he hd) (by simp [ha i rfl])
    exact htaken.abort.chained
  | commit => exact hs.abort.chained
  | abort => exact hs.abort.chained

/-- A key stays on the chain until it is removed or the chain is taken or cleared. -/
theorem mem_dirty_act (hk : k ∈ s.dirty) (ha : ¬a.Ends k) : k ∈ (s.act a).dirty := by
  cases a with
  | upsert => rwa [act, dirty_upsert]
  | assign key e =>
    rw [act]
    split <;> exact hk
  | markDirty key =>
    rw [act, markDirty]
    split
    · exact hk
    · split_ifs
      · exact hk
      · exact List.mem_cons_of_mem _ hk
  | remove key => exact mem_dirty_remove (Ne.symm ha) hk
  | reset | flush | flushRaises | commit | abort => exact absurd trivial ha

/-- An entry that was written and marked is on the chain. -/
theorem Chained.mem_dirty_markDirty (hs : s.Chained) (hk : (s.store.lookup k).isSome) :
    k ∈ (s.markDirty k).dirty := by
  obtain ⟨e, he⟩ := Option.isSome_iff_exists.1 hk
  rw [Session.markDirty, he]
  simp only
  split_ifs with hd
  · exact hs k e he hd
  · exact List.mem_cons_self

end Session

namespace Heap

variable {h h' : Heap} {l : List Ptr} {s : Session} {k : Key} {p : Ptr}

/-- The entries on the chain from `dirty_head` are in the table, each is on it once,
    and an entry in the table is on it exactly if it is marked. -/
def Listed (h : Heap) : Prop :=
  ∃ l, h.links.IsList l ∧ l.Nodup ∧ (∀ p ∈ l, h.Live p) ∧
    ∀ p, h.Live p → ((h.slot p).2.inDirtySet = true ↔ p ∈ l)

/-- The flush collects the entry of the key. -/
def Collects (h : Heap) (k : Key) : Prop :=
  ∃ p x, h.table.lookup k = some p ∧ h.collect = some x ∧ (k, (h.slot p).2) ∈ x.2

/-- An entry that is written and marked dirty now is collected by the next flush,
    unless it is removed or the chain is cleared before. -/
def PicksUp (h : Heap) : Prop :=
  ∀ (k : Key) (e : Entry) (as : List DirtyAction) (t : Heap), (∀ a ∈ as, ¬a.Ends k) →
    run step h (.assign k e :: .markDirty k :: as) = some t → t.Collects k

/-- A flush that raises an error has taken no entry. -/
def SafeAction (h : Heap) : DirtyAction → Prop
  | .flushRaises _ => h.links.head = none
  | _ => True

namespace Represents

theorem dirty_eq_nil_iff (hr : h.Represents l s) : s.dirty = [] ↔ h.links.head = none := by
  rw [hr.dirty, List.map_eq_nil_iff]
  constructor
  · rintro rfl
    have hchain := hr.chain
    rw [Links.IsList] at hchain
    generalize h.links.head = o at hchain
    cases hchain
    rfl
  · exact hr.chain.eq_nil

theorem listed_iff_chained (hr : h.Represents l s) : h.Listed ↔ s.Chained := by
  have hentry : ∀ {k e}, s.store.lookup k = some e ↔
      ∃ p, h.table.lookup k = some p ∧ (h.slot p).2 = e := by
    intro k e
    rw [hr.entry, Option.map_eq_some_iff]
  constructor
  · rintro ⟨l', hchain, -, -, hmark⟩ k e he hd
    obtain ⟨p, hp, rfl⟩ := hentry.1 he
    rw [hr.mem_dirty hp, hr.chain.unique hchain]
    exact (hmark p ⟨k, hp⟩).1 hd
  · intro hs
    refine ⟨l, hr.chain, hr.nodup, hr.live, fun p hlive => ⟨fun hd => ?_, hr.marked p⟩⟩
    obtain ⟨k, hp⟩ := hlive
    exact (hr.mem_dirty hp).1 (hs k _ (hentry.2 ⟨p, hp, rfl⟩) hd)

theorem collects (hr : h.Represents l s) (hk : k ∈ s.dirty) : h.Collects k := by
  rw [hr.dirty] at hk
  obtain ⟨p, hp, rfl⟩ := List.mem_map.1 hk
  obtain ⟨k', hk'⟩ := hr.live p hp
  obtain rfl := hr.key k' p hk'
  exact ⟨p, _, hk', hr.collect, List.mem_map.2 ⟨p, hp, rfl⟩⟩

/-- The next flush writes the row of an entry that is collected. -/
theorem row_of_collects (hr : h.Represents l s) (hk : h.Collects k) {D D' : Tables}
    (hflush : (s.runFlush D).2 = .ok D') :
    ∃ p, h.table.lookup k = some p ∧ D'.store k = some (h.slot p).2.row := by
  obtain ⟨p, x, hp, hcollect, hmem⟩ := hk
  obtain rfl := Option.some.inj (hr.collect.symm.trans hcollect)
  rw [hr.map_slot, Session.mem_dirtyEntries] at hmem
  have hres := (executePlans_ok (Session.executePlans_of_runFlush hflush)).2
  refine ⟨p, hp, ?_⟩
  rw [hres.store, if_neg fun hdel => (Session.mem_storeDeletes.1 hdel).2 hmem.1,
    Session.storeAfter_of_dirty hmem.1 hmem.2]

/-- A key on the chain is still on it at the end of a run that does not end that. -/
theorem collects_of_run (hr : h.Represents l s) (hk : k ∈ s.dirty) {as : List DirtyAction}
    {t : Heap} (has : ∀ a ∈ as, ¬a.Ends k) (hrun : run Heap.step h as = some t) :
    t.Collects k := by
  induction as generalizing h l s with
  | nil =>
    obtain rfl := Option.some.inj hrun
    exact hr.collects hk
  | cons a as ih =>
    rw [run, Option.bind_eq_some_iff] at hrun
    obtain ⟨h', hst, hrun⟩ := hrun
    obtain ⟨l', hr'⟩ := hr.step hst
    exact ih hr' (Session.mem_dirty_act hk (has a List.mem_cons_self))
      (fun b hb => has b (List.mem_cons_of_mem a hb)) hrun

theorem picksUp (hr : h.Represents l s) (hs : s.Chained) : h.PicksUp := by
  intro k e as t has hrun
  rw [run, Option.bind_eq_some_iff] at hrun
  obtain ⟨h₁, hst₁, hrun⟩ := hrun
  rw [run, Option.bind_eq_some_iff] at hrun
  obtain ⟨h₂, hst₂, hrun⟩ := hrun
  obtain ⟨l₁, hr₁⟩ := hr.step hst₁
  obtain ⟨l₂, hr₂⟩ := hr₁.step hst₂
  have hs₁ : (s.act (.assign k e)).Chained := hs.act (by simp)
  refine hr₂.collects_of_run (hs₁.mem_dirty_markDirty ?_) has hrun
  -- The entry marked is there: marking it was possible.
  obtain ⟨p, hp, -⟩ := Option.map_eq_some_iff.1 hst₂
  rw [hr₁.entry, hp]
  rfl

end Represents

/-- A flush that raises an error with entries taken leaves one marked off the chain. -/
theorem Represents.not_listed (hr : h.Represents l s) {i : SpiCall} (hhead : h.links.head ≠ none)
    (hst : h.step (.flushRaises i) = some h') : ¬h'.Listed := by
  obtain ⟨l', hr'⟩ := hr.step hst
  rw [hr'.listed_iff_chained]
  intro hs
  obtain ⟨k, hk⟩ := List.exists_mem_of_ne_nil _ (hr.dirty_eq_nil_iff.not.2 hhead)
  obtain ⟨p, hp, rfl⟩ := List.mem_map.1 (hr.dirty ▸ hk)
  obtain ⟨k, hlive⟩ := hr.live p hp
  have hentry : (s.act (.flushRaises i)).store.lookup k = some (i.before (h.slot p).2) := by
    have hmem : k ∈ s.dirty := (hr.mem_dirty hlive).2 hp
    simp [Session.act, Session.abort, Session.taken, Session.mapEntries, hr.entry, hlive, hmem]
  have hmark : (i.before (h.slot p).2).inDirtySet = true := by
    rw [SpiCall.inDirtySet_before]
    exact hr.marked p hp
  exact absurd (hs k _ hentry hmark) (by simp [Session.act, Session.abort])

/-- The memory holds a keyspace whose marked entries are on the chain. -/
def Tracked (h : Heap) : Prop := ∃ l s, h.Represents l s ∧ s.Chained

theorem Tracked.step {a : DirtyAction} (ht : h.Tracked) (hok : h.SafeAction a)
    (hst : h.step a = some h') : h'.Tracked := by
  obtain ⟨l, s, hr, hs⟩ := ht
  obtain ⟨l', hr'⟩ := hr.step hst
  refine ⟨l', _, hr', hs.act ?_⟩
  rintro i rfl
  exact hr.dirty_eq_nil_iff.2 hok

theorem Tracked.listed_picksUp (ht : h.Tracked) : h.Listed ∧ h.PicksUp := by
  obtain ⟨l, s, hr, hs⟩ := ht
  exact ⟨hr.listed_iff_chained.2 hs, hr.picksUp hs⟩

theorem Tracked.not_listed {a : DirtyAction} (ht : h.Tracked) (hbad : ¬h.SafeAction a)
    (hst : h.step a = some h') : ¬h'.Listed := by
  obtain ⟨l, s, hr, -⟩ := ht
  cases a with
  | flushRaises i => exact hr.not_listed hbad hst
  | _ => exact absurd trivial hbad

/-- The dirty set stays consistent, and what is written reaches the next flush, along
    exactly those runs in which no flush raises an error that has taken entries. -/
theorem listed_iff (as : List DirtyAction) {t : Heap} (hrun : run step init as = some t) :
    Along step (fun h => h.Listed ∧ h.PicksUp) init as ↔ Meets step SafeAction init as := by
  have h₀ : init.Tracked := ⟨[], .init, represents_init, Session.unmarked_init.chained⟩
  exact along_iff_meets (fun _ => Tracked.listed_picksUp)
    (fun _ _ _ ht _ hok hst => ht.step hok hst)
    (fun _ _ _ ht _ hbad hst hP => ht.not_listed hbad hst hP.1) as init t (meets_true as init) h₀
    hrun

/-- `SET k v` in a transaction. -/
def setRun (v : Bytes) : List DirtyAction :=
  [.upsert 0 [107] 0, .assign [107] ⟨.string, .str v, none, 1, false⟩, .markDirty [107]]

/-- `SET k` is flushed, the statement deleting `k` fails at the next commit, and `SET k`
    is flushed again. -/
def failedDelete : List DirtyAction :=
  setRun [118] ++ [.flush, .remove [107], .flushRaises .storeDelete] ++ setRun [119] ++ [.flush]

theorem listed_failedDelete :
    Along step (fun h => h.Listed ∧ h.PicksUp) init failedDelete := by
  have hrun : (run step init failedDelete).isSome := rfl
  refine (listed_iff _ (Option.some_get hrun).symm).2 ?_
  exact .cons trivial rfl (.cons trivial rfl (.cons trivial rfl (.cons trivial rfl
    (.cons trivial rfl (.cons rfl rfl (.cons trivial rfl (.cons trivial rfl (.cons trivial rfl
      (.cons trivial rfl trivial)))))))))

/-- The statement writing the rows fails at the commit of `SET k`, and `SET k` again. -/
def failedUpsert : List DirtyAction :=
  setRun [118] ++ [.flushRaises .storeUpsert] ++ setRun [119]

/-- The second `SET k` is lost: the flush after it collects nothing. -/
theorem lost_after_failedUpsert :
    (∃ t x, run step init failedUpsert = some t ∧ t.collect = some x ∧ x.2 = []) ∧
      ¬∀ (as : List DirtyAction) (t : Heap), run step init as = some t →
        Along step (fun h => h.Listed ∧ h.PicksUp) init as := by
  constructor
  · exact ⟨_, _, rfl, rfl, rfl⟩
  · intro h
    have hrun : (run step init failedUpsert).isSome := rfl
    have hal := h _ _ (Option.some_get hrun).symm
    -- After the failed flush the entry is marked and the chain is empty.
    obtain ⟨⟨l, hchain, -, -, hmark⟩, -⟩ := ((((hal.2 _ rfl).2 _ rfl).2 _ rfl).2 _ rfl).1
    have hmem := (hmark 0 ⟨[107], rfl⟩).1 rfl
    rw [hchain.eq_nil rfl] at hmem
    exact absurd hmem (by simp)

end Heap

end PgRedis
