import PgRedis.Lib.Run
import PgRedis.Session.Flush

/-!
# The flush leaves the rows exact

A backend that is the only writer of the tables runs commands and commits. The
deltas of its keyspace stand for the difference to the tables (`Session.Tracks`):
a field that is not dirty has its row, a field that is gone has no row or a
tombstone, and so on. Every command keeps this, and a flush then leaves exactly the
rows of the keyspace (`Tracks.runFlush`).

The exception is a command that starts a key afresh: the deltas of the new value
say nothing about the child rows of the old one. A deletion would have removed
these rows, but the flush drops the deletion of a key that is there again; and
`SET` over a collection, or any write over an expired one, records none. So the
rows are exact along the runs in which no key is started afresh over child rows
(`exact_of_unshadowed`), and need not be otherwise (`recreated_hash_keeps_field`).
-/

namespace PgRedis

open Lib

/-! ## Deltas of a value -/

/-- The deltas of a hash stand for its difference to the rows. -/
structure Hash.Tracks (h : Hash) (rows : Field → Option (Option Bytes)) : Prop where
  present : ∀ f x, h.fields.lookup f = some x →
    x.dirty = true ∨ rows f = some (some x.value) ∧ f ∉ h.tombstones
  absent : ∀ f, h.fields.lookup f = none → rows f = none ∨ f ∈ h.tombstones

/-- The deltas of a list stand for its difference to the rows. -/
structure ListValue.Tracks (l : ListValue) (rows : ℤ → Option (Option Bytes)) : Prop where
  ordered : l.Ordered
  durable : ∀ n ∈ l.nodes, n.pendingInsert = false →
    rows n.ord = some (some n.value) ∧ n.ord ∉ l.pendingDeleteOrds
  free : ∀ o, (∀ n ∈ l.nodes, n.ord = o → n.pendingInsert = true) →
    rows o = none ∨ o ∈ l.pendingDeleteOrds

namespace Value

/-- The deltas of a value stand for its difference to the child rows. -/
def Tracks (hrows : Field → Option (Option Bytes)) (lrows : ℤ → Option (Option Bytes)) :
    Value → Prop
  | hash h => h.Tracks hrows ∧ ∀ o, lrows o = none
  | list l => (∀ f, hrows f = none) ∧ l.Tracks lrows
  | _ => (∀ f, hrows f = none) ∧ ∀ o, lrows o = none

/-- No deltas. -/
def Clean : Value → Prop
  | hash h => (∀ f x, h.fields.lookup f = some x → x.dirty = false) ∧ h.tombstones = []
  | list l => l.Ordered ∧ (∀ n ∈ l.nodes, n.pendingInsert = false) ∧ l.pendingDeleteOrds = []
  | _ => True

end Value

variable {hrows : Field → Option (Option Bytes)} {lrows : ℤ → Option (Option Bytes)}

/-- Every field is dirty or has its row: a flush leaves a row of every field, and maybe
    others. -/
def Hash.Covers (h : Hash) (rows : Field → Option (Option Bytes)) : Prop :=
  ∀ f x, h.fields.lookup f = some x →
    x.dirty = true ∨ rows f = some (some x.value) ∧ f ∉ h.tombstones

/-- Every element is to be inserted or has its row. -/
structure ListValue.Covers (l : ListValue) (rows : ℤ → Option (Option Bytes)) : Prop where
  ordered : l.Ordered
  durable : ∀ n ∈ l.nodes, n.pendingInsert = false →
    rows n.ord = some (some n.value) ∧ n.ord ∉ l.pendingDeleteOrds

namespace Hash.Covers

variable {h : Hash}

theorem create : Hash.create.Covers hrows := fun _ _ hx => absurd hx (by simp)

theorem set (hc : h.Covers hrows) (field : Field) (value : Bytes) :
    (h.set field value).1.Covers hrows := by
  intro f x hx
  rw [fields_set, Htab.lookup_insert_eq] at hx
  rw [tombstones_set]
  split_ifs at hx
  · obtain rfl := Option.some.inj hx
    exact .inl rfl
  · exact hc f x hx

theorem del (hc : h.Covers hrows) {field : Field} (hdel : (h.del field).2 = true) :
    (h.del field).1.Covers hrows := by
  obtain ⟨hfields, htomb⟩ := fields_tombstones_del hdel
  intro f x hx
  rw [hfields, Htab.lookup_erase_eq] at hx
  split_ifs at hx with hne
  refine (hc f x hx).imp_right fun ⟨hrow, hnot⟩ => ⟨hrow, ?_⟩
  rw [htomb, List.mem_cons, not_or]
  exact ⟨hne, hnot⟩

end Hash.Covers

namespace Hash.Tracks

variable {h : Hash}

theorem set (ht : h.Tracks hrows) (field : Field) (value : Bytes) :
    (h.set field value).1.Tracks hrows := by
  refine ⟨Hash.Covers.set ht.present field value, fun f hf => ?_⟩
  rw [fields_set, Htab.lookup_insert_eq] at hf
  rw [tombstones_set]
  split_ifs at hf
  exact ht.absent f hf

theorem del (ht : h.Tracks hrows) {field : Field} (hdel : (h.del field).2 = true) :
    (h.del field).1.Tracks hrows := by
  obtain ⟨hfields, htomb⟩ := fields_tombstones_del hdel
  refine ⟨Hash.Covers.del ht.present hdel, fun f hf => ?_⟩
  rw [htomb, List.mem_cons]
  by_cases hne : f = field
  · exact .inr (.inl hne)
  · rw [hfields, Htab.lookup_erase_eq, if_neg hne] at hf
    exact (ht.absent f hf).imp_right .inr

end Hash.Tracks

namespace ListValue.Covers

variable {l l' : ListValue}

theorem create : ListValue.create.Covers lrows :=
  ⟨ListValue.ordered_create, fun _ hn => absurd hn (by simp [ListValue.create])⟩

theorem push (hc : l.Covers lrows) (side : Side) (value : Bytes) :
    (push side l value).Covers lrows := by
  refine ⟨hc.ordered.push, fun n hn hp => ?_⟩
  rw [pendingDeleteOrds_push]
  rcases mem_push.1 hn with rfl | hn
  · exact absurd hp (by simp [pushed])
  · exact hc.durable n hn hp

theorem pop (hc : l.Covers lrows) {side : Side} {value : Bytes}
    (hpop : pop side l = some (value, l')) : l'.Covers lrows := by
  obtain ⟨n, -, hord, hnodes⟩ := exists_of_pop hpop
  rw [pendingDeleteOrds_forget] at hord
  refine ⟨hc.ordered.pop hpop, fun m hm hp => ?_⟩
  obtain ⟨hm, hne⟩ := (hc.ordered.mem_of_nodes hnodes).1 hm
  obtain ⟨hrow, hnot⟩ := hc.durable m hm hp
  refine ⟨hrow, ?_⟩
  rw [hord]
  split_ifs
  · exact hnot
  · rw [List.mem_cons, not_or]
    exact ⟨hne, hnot⟩

end ListValue.Covers

namespace ListValue.Tracks

variable {l l' : ListValue}

theorem covers (ht : l.Tracks lrows) : l.Covers lrows := ⟨ht.ordered, ht.durable⟩

theorem push (ht : l.Tracks lrows) (side : Side) (value : Bytes) :
    (push side l value).Tracks lrows := by
  refine ⟨(ht.covers.push side value).ordered, (ht.covers.push side value).durable, fun o ho => ?_⟩
  rw [pendingDeleteOrds_push]
  exact ht.free o fun n hn hno => ho n (mem_push.2 (.inr hn)) hno

theorem pop (ht : l.Tracks lrows) {side : Side} {value : Bytes}
    (hpop : pop side l = some (value, l')) : l'.Tracks lrows := by
  obtain ⟨n, -, hord, hnodes⟩ := exists_of_pop hpop
  rw [pendingDeleteOrds_forget] at hord
  have hmem : ∀ {m : ListNode}, m ∈ l'.nodes ↔ m ∈ l.nodes ∧ m.ord ≠ n.ord :=
    ht.ordered.mem_of_nodes hnodes
  refine ⟨(ht.covers.pop hpop).ordered, (ht.covers.pop hpop).durable, fun o ho => ?_⟩
  · -- A free ordinal is that of the node popped, or was free before.
    rw [hord]
    by_cases hon : o = n.ord
    · split_ifs with hp
      · refine ht.free o fun m hm hmo => ?_
        have hmn : m = n := by
          by_contra hmn
          rw [hnodes, mem_atEnd] at hm
          exact (hmem.1 (hm.resolve_left hmn)).2 (hmo.trans hon)
        rwa [hmn]
      · exact .inr (List.mem_cons.2 (.inl hon))
    · have hfree := ht.free o fun m hm hmo => ho m (hmem.2 ⟨hm, fun h => hon (hmo ▸ h)⟩) hmo
      split_ifs
      · exact hfree
      · exact hfree.imp_right (List.mem_cons_of_mem _)

end ListValue.Tracks

namespace Value

theorem tracks_scalar {v : Value} (hv : v.isCollection = false) :
    v.Tracks hrows lrows ↔ (∀ f, hrows f = none) ∧ ∀ o, lrows o = none := by
  cases v with
  | str | int => exact Iff.rfl
  | hash | list => exact absurd hv (by simp [isCollection])

/-- A value made where there are no child rows. -/
theorem Made.tracks {v : Value} (hv : v.Made) (hh : ∀ f, hrows f = none)
    (hl : ∀ o, lrows o = none) : v.Tracks hrows lrows := by
  have hhash : Hash.create.Tracks hrows := ⟨Hash.Covers.create, fun f _ => .inl (hh f)⟩
  have hlist : ListValue.create.Tracks lrows :=
    ⟨ListValue.ordered_create, ListValue.Covers.create.durable, fun o _ => .inl (hl o)⟩
  cases hv with
  | str => exact ⟨hh, hl⟩
  | int => exact ⟨hh, hl⟩
  | hash f x => exact ⟨hhash.set f x, hl⟩
  | list side x => exact ⟨hh, hlist.push side x⟩

theorem Edit.tracks {v v' : Value} (he : v.Edit v') (hv : v.Tracks hrows lrows) :
    v'.Tracks hrows lrows := by
  cases he with
  | keep => exact hv
  | scalar h h' => exact (tracks_scalar h').2 ((tracks_scalar h).1 hv)
  | hset h f x => exact ⟨hv.1.set f x, hv.2⟩
  | hdel h f hdel => exact ⟨hv.1.del hdel, hv.2⟩
  | push side l x => exact ⟨hv.1, hv.2.push side x⟩
  | pop hpop => exact ⟨hv.1, hv.2.pop hpop⟩

/-- Without deltas the rows are exact. -/
theorem Tracks.exactRows {v : Value} (hv : v.Tracks hrows lrows) (hc : v.Clean) :
    v.ExactRows hrows lrows := by
  cases v with
  | str | int => exact hv
  | hash h =>
    refine ⟨fun f => ?_, hv.2⟩
    cases hf : h.fields.lookup f with
    | none =>
      refine (hv.1.absent f hf).resolve_right ?_
      rw [hc.2]
      exact List.not_mem_nil
    | some x => exact ((hv.1.present f x hf).resolve_left (by rw [hc.1 f x hf]; simp)).1
  | list l =>
    refine ⟨hv.1, hv.2.ordered.sorted, fun o x => ⟨fun ho => ?_, ?_⟩⟩
    · by_contra hno
      have hfree : ∀ n ∈ l.nodes, n.ord ≠ o := fun n hn hno' => hno ⟨n, hn, hno', by
        rw [← hno', (hv.2.durable n hn (hc.2.1 n hn)).1] at ho
        exact (Option.some.inj ho).symm⟩
      rcases hv.2.free o fun n hn h => absurd h (hfree n hn) with h | h
      · rw [h] at ho
        exact absurd ho (by simp)
      · rw [hc.2.2] at h
        exact absurd h List.not_mem_nil
    · rintro ⟨n, hn, rfl, rfl⟩
      exact (hv.2.durable n hn (hc.2.1 n hn)).1

theorem ExactRows.tracks {v : Value} (hv : v.ExactRows hrows lrows) (hc : v.Clean) :
    v.Tracks hrows lrows := by
  cases v with
  | str | int => exact hv
  | hash h =>
    refine ⟨⟨fun f x hx => .inr ⟨by rw [hv.1, hx]; rfl, ?_⟩, fun f hf => .inl ?_⟩, hv.2⟩
    · rw [hc.2]
      exact List.not_mem_nil
    · rw [hv.1, hf]
      rfl
  | list l =>
    refine ⟨hv.1, hc.1, fun n hn _ => ⟨(hv.2.2 _ _).2 ⟨n, hn, rfl, rfl⟩, ?_⟩, fun o ho => .inl ?_⟩
    · rw [hc.2.2]
      exact List.not_mem_nil
    · refine Option.eq_none_iff_forall_ne_some.2 fun x hx => ?_
      obtain ⟨n, hn, hno, -⟩ := (hv.2.2 o x).1 hx
      have hp := ho n hn hno
      rw [hc.2.1 n hn] at hp
      exact absurd hp (by simp)

/-- Clearing the deltas keeps the rows exact. -/
theorem ExactRows.cleaned {v : Value} (hv : v.ExactRows hrows lrows) :
    v.cleaned.ExactRows hrows lrows := by
  cases v with
  | str | int => exact hv
  | hash h =>
    refine ⟨fun f => (hv.1 f).trans ?_, hv.2⟩
    rw [Htab.lookup_mapValues, Option.map_map]
    rfl
  | list l =>
    refine ⟨hv.1, List.pairwise_map.2 hv.2.1, fun o x => (hv.2.2 o x).trans ?_⟩
    simp

theorem clean_cleaned {v : Value} (hord : ∀ l, v = .list l → l.Ordered) : v.cleaned.Clean := by
  cases v with
  | str | int => trivial
  | hash h =>
    refine ⟨fun f x hx => ?_, rfl⟩
    rw [Htab.lookup_mapValues, Option.map_eq_some_iff] at hx
    obtain ⟨y, -, rfl⟩ := hx
    rfl
  | list l =>
    have ho := hord l rfl
    refine ⟨⟨List.pairwise_map.2 ho.sorted, ?_, fun n hn => ?_, fun n hn => ?_⟩, ?_, rfl⟩
    · rw [Ne, List.map_eq_nil_iff]
      exact ho.initialized
    · rw [List.head?_map, Option.map_eq_some_iff] at hn
      obtain ⟨m, hm, rfl⟩ := hn
      exact ho.min m hm
    · rw [List.getLast?_map, Option.map_eq_some_iff] at hn
      obtain ⟨m, hm, rfl⟩ := hn
      exact ho.max m hm
    · simp

end Value

/-! ## Deltas of the keyspace -/

namespace Session

/-- The deltas of the keyspace stand for its difference to the tables. -/
structure Tracks (s : Session) (D : Tables) : Prop where
  typed : s.WellTyped
  nodup : s.dirty.Nodup
  dirty : ∀ k, k ∈ s.dirty ↔ ∃ e, s.store.lookup k = some e ∧ e.inDirtySet = true
  absent : ∀ k, s.store.lookup k = none → D.store k = none ∨ k ∈ s.pendingDeletes
  value : ∀ k e v, s.store.lookup k = some e → e.content = some v →
    v.Tracks (D.hashFields k) (D.listItems k)
  row : ∀ k e, s.store.lookup k = some e → e.inDirtySet = false →
    ∃ r, D.store k = some r ∧ e.IsRow r
  kept : ∀ k e, s.store.lookup k = some e → e.inDirtySet = false → k ∉ s.pendingDeletes
  clean : ∀ k e v, s.store.lookup k = some e → e.inDirtySet = false → e.content = some v → v.Clean

/-- The keyspace is in step with the tables: the rows are exact and nothing is
    pending. -/
structure Synced (s : Session) (D : Tables) : Prop where
  exact : s.Exact D
  typed : s.WellTyped
  dirty : s.dirty = []
  pendingDeletes : s.pendingDeletes = []
  unmarked : ∀ k e, s.store.lookup k = some e → e.inDirtySet = false
  clean : ∀ k e v, s.store.lookup k = some e → e.content = some v → v.Clean

/-- The tables hold no child row of the key. -/
def NoChildren (D : Tables) (k : Key) : Prop :=
  (∀ f, D.hashFields k f = none) ∧ ∀ o, D.listItems k o = none

variable {s s' : Session} {D : Tables} {now : ℤ} {c : Command}

/-- The chain and the deletions account for every entry that has no rows yet, and `P` holds of
    every value: `Tracks`, for any condition on the values. -/
structure Ledger (P : Key → Value → Prop) (s : Session) (D : Tables) : Prop where
  typed : s.WellTyped
  nodup : s.dirty.Nodup
  dirty : ∀ k, k ∈ s.dirty ↔ ∃ e, s.store.lookup k = some e ∧ e.inDirtySet = true
  absent : ∀ k, s.store.lookup k = none → D.store k = none ∨ k ∈ s.pendingDeletes
  value : ∀ k e v, s.store.lookup k = some e → e.content = some v → P k v
  row : ∀ k e, s.store.lookup k = some e → e.inDirtySet = false →
    ∃ r, D.store k = some r ∧ e.IsRow r
  kept : ∀ k e, s.store.lookup k = some e → e.inDirtySet = false → k ∉ s.pendingDeletes
  clean : ∀ k e v, s.store.lookup k = some e → e.inDirtySet = false → e.content = some v → v.Clean

theorem tracks_iff_ledger :
    s.Tracks D ↔ Ledger (fun k v => v.Tracks (D.hashFields k) (D.listItems k)) s D :=
  ⟨fun h => ⟨h.typed, h.nodup, h.dirty, h.absent, h.value, h.row, h.kept, h.clean⟩,
    fun h => ⟨h.typed, h.nodup, h.dirty, h.absent, h.value, h.row, h.kept, h.clean⟩⟩

namespace Ledger

variable {P : Key → Value → Prop}

/-- Writing an entry whose value satisfies `P`. -/
theorem write (hs : s.Ledger P D) {k : Key} {e : Entry} {v : Value} (hv : e.content = some v)
    (hd : e.inDirtySet = (s.store.lookup k).any Entry.inDirtySet)
    (htr : P k v) : (s.write k e).Ledger P D := by
  have hmem : e.inDirtySet = true ↔ k ∈ s.dirty := by
    rw [hd, Option.any_eq_true, hs.dirty]
  refine ⟨fun k' e' h => ?_, ?_, fun k' => ?_, fun k' h => ?_, fun k' e' v' h hv' => ?_,
    fun k' e' h hd' => ?_, fun k' e' h hd' => ?_, fun k' e' v' h hd' hv' => ?_⟩
  · rw [lookup_write] at h
    split_ifs at h
    · obtain rfl := Option.some.inj h
      exact Option.isSome_iff_exists.2 ⟨v, hv⟩
    · exact hs.typed k' e' h
  · rw [dirty_write]
    split_ifs with he
    · exact hs.nodup
    · exact List.nodup_cons.2 ⟨fun h => he (hmem.2 h), hs.nodup⟩
  · rw [lookup_write, dirty_write]
    by_cases hk : k' = k
    · rw [hk]
      simp only [if_true, Option.some.injEq, exists_eq_left', iff_true]
      split_ifs with he
      · exact hmem.1 he
      · exact List.mem_cons_self
    · rw [if_neg hk, ← hs.dirty k']
      split_ifs
      · exact Iff.rfl
      · exact List.mem_cons.trans (or_iff_right hk)
  · rw [lookup_write] at h
    split_ifs at h
    rw [pendingDeletes_write]
    exact hs.absent k' h
  · rw [lookup_write] at h
    split_ifs at h with hk
    · obtain rfl := Option.some.inj h
      obtain rfl : v = v' := Option.some.inj (hv.symm.trans hv')
      rw [hk]
      exact htr
    · exact hs.value k' e' v' h hv'
  -- The rest is about entries that are not in the chain, and this one is.
  all_goals
    rw [lookup_write] at h
    split_ifs at h
    · obtain rfl := Option.some.inj h
      exact absurd hd' (by simp)
  · exact hs.row k' e' h hd'
  · rw [pendingDeletes_write]
    exact hs.kept k' e' h hd'
  · exact hs.clean k' e' v' h hd' hv'

theorem remove (hs : s.Ledger P D) {k : Key} {e : Entry} (he : s.store.lookup k = some e)
    (hk : k ≠ []) : (s.remove k).1.Ledger P D := by
  rw [remove_of_lookup he, if_neg hk]
  have hlook : ∀ {k' : Key} {e' : Entry}, (s.store.erase k).lookup k' = some e' →
      k' ≠ k ∧ s.store.lookup k' = some e' := fun {k' e'} h => by
    rw [Htab.lookup_erase_eq] at h
    split_ifs at h with hne
    exact ⟨hne, h⟩
  -- The key leaves the dirty set with its entry, if it was in it.
  have hdirty : ∀ k', k' ∈ (if e.inDirtySet then s.dirty.erase k else s.dirty) ↔
      k' ≠ k ∧ k' ∈ s.dirty := fun k' => by
    split_ifs with hd
    · exact hs.nodup.mem_erase_iff
    · refine ⟨fun h => ⟨fun heq => ?_, h⟩, And.right⟩
      obtain ⟨e', he', hd'⟩ := (hs.dirty k').1 h
      obtain rfl : e = e' := Option.some.inj (he.symm.trans (heq ▸ he'))
      exact hd hd'
  refine ⟨fun k' e' h => hs.typed k' e' (hlook h).2, ?_, fun k' => ?_, fun k' h => ?_,
    fun k' e' v' h => hs.value k' e' v' (hlook h).2, fun k' e' h => hs.row k' e' (hlook h).2,
    fun k' e' h hd' => ?_, fun k' e' v' h => hs.clean k' e' v' (hlook h).2⟩
  · simp only
    split_ifs
    · exact hs.nodup.erase k
    · exact hs.nodup
  · rw [hdirty, hs.dirty k']
    constructor
    · rintro ⟨hne, e', h, hd'⟩
      exact ⟨e', by rw [Htab.lookup_erase_eq, if_neg hne, h], hd'⟩
    · rintro ⟨e', h, hd'⟩
      exact ⟨(hlook h).1, e', (hlook h).2, hd'⟩
  · rw [List.mem_cons]
    by_cases hne : k' = k
    · exact .inr (.inl hne)
    · rw [Htab.lookup_erase_eq, if_neg hne] at h
      exact (hs.absent k' h).imp_right .inr
  · rw [List.mem_cons, not_or]
    exact ⟨(hlook h).1, hs.kept k' e' (hlook h).2 hd'⟩

/-- An entry outside the chain is not marked. -/
theorem unmarked (hs : s.Ledger P D) {k : Key} {e : Entry} (hk : k ∉ s.dirty)
    (he : s.store.lookup k = some e) : e.inDirtySet = false := by
  by_contra hd
  exact hk ((hs.dirty k).2 ⟨e, he, by simpa using hd⟩)

end Ledger

namespace Tracks

theorem ledger (hs : s.Tracks D) :
    Ledger (fun k v => v.Tracks (D.hashFields k) (D.listItems k)) s D :=
  tracks_iff_ledger.1 hs

/-- A command keeps the tracking, unless it starts a key afresh over child rows. -/
theorem outcome (hs : s.Tracks D) (h : Outcome now c s s') (hkey : c.key ≠ [])
    (hok : c.startsAfresh now s = true → NoChildren D c.key) : s'.Tracks D := by
  cases h with
  | same => exact hs
  | removed he => exact tracks_iff_ledger.2 (hs.ledger.remove he hkey)
  | started hstart hv hmade hd =>
    exact tracks_iff_ledger.2
      (hs.ledger.write hv hd (hmade.tracks (hok hstart).1 (hok hstart).2))
  | edited he hv hv' hedit hd =>
    refine tracks_iff_ledger.2 (hs.ledger.write hv' ?_ (hedit.tracks (hs.value _ _ _ he hv)))
    rw [hd, he]
    rfl

theorem call (hs : s.Tracks D) {a : Call} (hok : a.cmd.check a.lim = .ok () →
    a.cmd.startsAfresh a.now s = true → NoChildren D a.cmd.key) : (s.call a).Tracks D := by
  rcases call_cases hs.typed a with h | ⟨hc, h⟩
  · rw [h]
    exact hs
  · exact hs.outcome h (Command.key_ne_nil hc) (hok hc)

end Tracks

/-! ## The flush -/

section

variable {k : Key} {e : Entry}

theorem mem_dirtyFields {h : Hash} (he : e.content = some (.hash h)) {f : Field} {x : Bytes} :
    (f, x) ∈ e.dirtyFields ↔ h.fields.lookup f = some ⟨x, true⟩ := by
  obtain ⟨ht, hv⟩ := Entry.content_eq_hash.1 he
  simp only [Entry.dirtyFields, ht, hv, List.mem_filterMap, Prod.exists, Htab.mem_toList]
  constructor
  · rintro ⟨f', ⟨y, d⟩, hy, hd⟩
    split_ifs at hd with hdirty
    obtain ⟨rfl, rfl⟩ := Prod.mk.inj (Option.some.inj hd)
    rw [hy, Option.some.injEq]
    exact congrArg _ hdirty
  · exact fun h => ⟨f, ⟨x, true⟩, h, rfl⟩

theorem mem_pendingInserts {l : ListValue} (he : e.content = some (.list l)) {o : ℤ} {x : Bytes} :
    (o, x) ∈ e.pendingInserts ↔ ⟨x, o, true⟩ ∈ l.nodes := by
  obtain ⟨ht, hv⟩ := Entry.content_eq_list.1 he
  simp only [Entry.pendingInserts, ht, hv, List.mem_filterMap]
  constructor
  · rintro ⟨⟨y, o', p⟩, hn, hp⟩
    split_ifs at hp with hpend
    obtain ⟨rfl, rfl⟩ := Prod.mk.inj (Option.some.inj hp)
    rw [← (hpend : p = true)]
    exact hn
  · exact fun h => ⟨⟨x, o, true⟩, h, rfl⟩

theorem pendingInserts_ords {l : ListValue} (he : e.content = some (.list l)) :
    (e.pendingInserts.map Prod.fst).Sublist (l.nodes.map ListNode.ord) := by
  obtain ⟨ht, hv⟩ := Entry.content_eq_list.1 he
  have hfst : e.pendingInserts.map Prod.fst =
      (l.nodes.filter ListNode.pendingInsert).map ListNode.ord := by
    simp only [Entry.pendingInserts, ht, hv]
    rw [List.map_filterMap, ← List.filterMap_eq_map, ← List.filterMap_eq_filter,
      List.filterMap_filterMap]
    congr 1
    funext n
    by_cases hp : n.pendingInsert <;> simp [hp, Option.guard]
  rw [hfst]
  exact List.filter_sublist.map _

/-- Of the entries only lists have rows to insert. -/
theorem list_of_pendingInserts (hs : s.WellTyped) (he : s.store.lookup k = some e)
    {x : ℤ × Bytes} (hx : x ∈ e.pendingInserts) : ∃ l, e.content = some (.list l) := by
  obtain ⟨v, hv⟩ := Option.isSome_iff_exists.1 (hs k e he)
  cases v with
  | list l => exact ⟨l, hv⟩
  | str | int =>
    rw [(Entry.deltas_scalar hv rfl).2.2.1] at hx
    exact absurd hx List.not_mem_nil
  | hash h =>
    obtain ⟨ht, -⟩ := Entry.content_eq_hash.1 hv
    simp [Entry.pendingInserts, ht] at hx

end

namespace Tracks

theorem nodup_pendingInserts (hs : s.Tracks D) {k : Key} {e : Entry}
    (he : s.store.lookup k = some e) : (e.pendingInserts.map Prod.fst).Nodup := by
  rcases hp : e.pendingInserts with _ | ⟨x, xs⟩
  · exact List.nodup_nil
  · obtain ⟨l, hl⟩ := list_of_pendingInserts hs.typed he (hp ▸ List.mem_cons_self)
    rw [← hp]
    exact (hs.value k e _ he hl).2.ordered.nodup.sublist (pendingInserts_ords hl)

/-- A flush raises no error. -/
theorem admissible (hs : s.Tracks D) : s.flushArgs.Admissible D where
  hashParent row hrow := by
    obtain ⟨hk, e, he, -⟩ := mem_childUpserts.1 hrow
    rw [storeAfter_of_dirty hk he]
    rfl
  listParent row hrow := by
    obtain ⟨hk, e, he, -⟩ := mem_childUpserts.1 hrow
    rw [storeAfter_of_dirty hk he]
    rfl
  -- The rows of two keys differ in the key, those of one key in the ordinal.
  nodup := by
    have hkeys : s.dirtyEntries.Pairwise fun x y => x.1 ≠ y.1 := by
      refine List.Pairwise.filterMap _ (fun k k' hne x hx y hy => ?_) hs.nodup
      obtain ⟨e, -, rfl⟩ := Option.map_eq_some_iff.1 hx
      obtain ⟨e', -, rfl⟩ := Option.map_eq_some_iff.1 hy
      exact hne
    simp only [flushArgs, childUpserts, List.map_flatMap, List.map_map]
    refine List.nodup_flatMap.2 ⟨fun x hx => ?_, hkeys.imp fun hne y hy hy' => ?_⟩
    · have h := hs.nodup_pendingInserts (mem_dirtyEntries.1 hx).2
      have hmap := h.map fun (_ _ : ℤ) hab => (Prod.mk.inj (hab : (x.1, _) = (x.1, _))).2
      rwa [List.map_map] at hmap
    · obtain ⟨b, -, rfl⟩ := List.mem_map.1 hy
      obtain ⟨b', -, h⟩ := List.mem_map.1 hy'
      exact hne (congrArg Prod.fst h).symm
  -- An ordinal to be inserted is free, or its row is among those deleted before.
  absent := by
    rintro ⟨⟨k, o⟩, v⟩ hrow hdel
    obtain ⟨hk, e, he, x, hx, -⟩ := mem_childUpserts.1 hrow
    obtain ⟨l, hl⟩ := list_of_pendingInserts hs.typed he hx
    have ht := (hs.value k e _ he hl).2
    have hn := (mem_pendingInserts hl).1 hx
    refine (ht.free o fun n hn' hno => ?_).resolve_right fun hmem => hdel ?_
    · rw [List.inj_on_of_nodup_map ht.ordered.nodup hn' hn hno]
    · refine mem_childDeletes.2 ⟨hk, e, he, ?_⟩
      simpa only [Entry.pendingDeleteOrds, (Entry.content_eq_list.1 hl).1,
        (Entry.content_eq_list.1 hl).2] using hmem

end Tracks

section

variable {D' : Tables} (hres : s.flushArgs.Result D D') {k : Key} {e : Entry} (hk : k ∈ s.dirty)
  (he : s.store.lookup k = some e)

include hres hk he

/-- What a flush does to a field of a dirty hash. -/
theorem fieldRow_flush {h : Hash} (hv : e.content = some (.hash h)) (f : Field) :
    D'.hashFields k f = match h.fields.lookup f with
      | some ⟨x, true⟩ => some (some x)
      | _ => if f ∈ h.tombstones then none else D.hashFields k f := by
  have hmem : ∀ {x : Bytes}, (f, x) ∈ e.dirtyFields ↔ h.fields.lookup f = some ⟨x, true⟩ :=
    mem_dirtyFields hv
  have htomb : e.tombstones = h.tombstones := by
    simp only [Entry.tombstones, (Entry.content_eq_hash.1 hv).1, (Entry.content_eq_hash.1 hv).2]
  rw [hres.hashFields, if_neg fun hd => (mem_storeDeletes.1 hd).2 hk]
  rcases cell_of_dirty Entry.dirtyFields Entry.tombstones hk he
    (fun x y hx hy =>
      congrArg HashField.value (Option.some.inj ((hmem.1 hx).symm.trans (hmem.1 hy))))
    (D.hashFields k f) with ⟨x, hx, hcell⟩ | ⟨hno, hcell⟩ <;> refine hcell.trans ?_
  · rw [hmem.1 hx]
  · rw [htomb]
    rcases hf : h.fields.lookup f with _ | ⟨x, _ | _⟩
    · split_ifs <;> rfl
    · split_ifs <;> rfl
    · exact absurd (hmem.2 hf) (hno x)

/-- A field that is dirty or has its row has it after the flush. -/
theorem field_flush {h : Hash} (hv : e.content = some (.hash h)) (hc : h.Covers (D.hashFields k))
    {f : Field} {x : HashField} (hf : h.fields.lookup f = some x) :
    D'.hashFields k f = some (some x.value) := by
  rw [fieldRow_flush hres hk he hv, hf]
  obtain ⟨x, d⟩ := x
  cases d with
  | true => rfl
  | false =>
    obtain ⟨hrow, hnot⟩ := (hc f _ hf).resolve_left (by simp)
    simp only [if_neg hnot, hrow]

/-- What a flush does to an ordinal of a dirty list. -/
theorem itemRow_flush {l : ListValue} (hv : e.content = some (.list l)) (ho : l.Ordered) (o : ℤ) :
    (∃ x, ⟨x, o, true⟩ ∈ l.nodes ∧ D'.listItems k o = some (some x)) ∨
      (∀ n ∈ l.nodes, n.ord = o → n.pendingInsert = false) ∧
        D'.listItems k o = if o ∈ l.pendingDeleteOrds then none else D.listItems k o := by
  have hmem : ∀ {x : Bytes}, (o, x) ∈ e.pendingInserts ↔ ⟨x, o, true⟩ ∈ l.nodes :=
    mem_pendingInserts hv
  have hord : e.pendingDeleteOrds = l.pendingDeleteOrds := by
    simp only [Entry.pendingDeleteOrds, (Entry.content_eq_list.1 hv).1,
      (Entry.content_eq_list.1 hv).2]
  rw [hres.listItems, if_neg fun hd => (mem_storeDeletes.1 hd).2 hk]
  rcases cell_of_dirty Entry.pendingInserts Entry.pendingDeleteOrds hk he
    (fun x y hx hy => congrArg ListNode.value
      (List.inj_on_of_nodup_map ho.nodup (hmem.1 hx) (hmem.1 hy) rfl))
    (D.listItems k o) with ⟨y, hy, hcell⟩ | ⟨hno, hcell⟩
  · exact .inl ⟨y, hmem.1 hy, hcell⟩
  · rw [hord] at hcell
    refine .inr ⟨?_, hcell⟩
    rintro ⟨v, o', p⟩ hn rfl
    by_contra hp
    rw [Bool.not_eq_false] at hp
    rw [show p = true from hp] at hn
    exact hno v (hmem.2 hn)

/-- An element that is to be inserted or has its row has it after the flush. -/
theorem item_flush {l : ListValue} (hv : e.content = some (.list l)) (hc : l.Covers (D.listItems k))
    {n : ListNode} (hn : n ∈ l.nodes) : D'.listItems k n.ord = some (some n.value) := by
  rcases itemRow_flush hres hk he hv hc.ordered n.ord with ⟨x, hx, hrow⟩ | ⟨hclean, hrow⟩
  · rw [hrow, List.inj_on_of_nodup_map hc.ordered.nodup hn hx rfl]
  · obtain ⟨hdur, hnot⟩ := hc.durable n hn (hclean n hn rfl)
    rw [hrow, if_neg hnot, hdur]

end

namespace Tracks

/-- The fields of a dirty hash after the flush. -/
theorem hashFields_flush (hs : s.Tracks D) {D' : Tables} (hres : s.flushArgs.Result D D') {k : Key}
    {e : Entry} {h : Hash} (hk : k ∈ s.dirty) (he : s.store.lookup k = some e)
    (hv : e.content = some (.hash h)) (f : Field) :
    D'.hashFields k f = (h.fields.lookup f).map fun x => some x.value := by
  have ht := (hs.value k e _ he hv).1
  cases hf : h.fields.lookup f with
  | none =>
    rw [fieldRow_flush hres hk he hv, hf]
    rcases ht.absent f hf with h | h <;> simp [h]
  | some x => exact field_flush hres hk he hv ht.present hf

/-- The items of a dirty list after the flush. -/
theorem listItems_flush (hs : s.Tracks D) {D' : Tables} (hres : s.flushArgs.Result D D') {k : Key}
    {e : Entry} {l : ListValue} (hk : k ∈ s.dirty) (he : s.store.lookup k = some e)
    (hv : e.content = some (.list l)) (o : ℤ) (x : Option Bytes) :
    D'.listItems k o = some x ↔ ∃ n ∈ l.nodes, n.ord = o ∧ x = some n.value := by
  have ht := (hs.value k e _ he hv).2
  by_cases hn : ∃ n ∈ l.nodes, n.ord = o
  · obtain ⟨n, hn, rfl⟩ := hn
    rw [item_flush hres hk he hv ht.covers hn, Option.some.injEq, eq_comm]
    constructor
    · exact fun hx => ⟨n, hn, rfl, hx⟩
    · rintro ⟨m, hm, hmo, rfl⟩
      rw [List.inj_on_of_nodup_map ht.ordered.nodup hm hn hmo]
  · -- The ordinal is free: its row is gone, or deleted.
    have hfree := ht.free o fun n hn' hno => absurd ⟨n, hn', hno⟩ hn
    refine iff_of_false ?_ fun ⟨n, hn', hno, _⟩ => hn ⟨n, hn', hno⟩
    rcases itemRow_flush hres hk he hv ht.ordered o with ⟨y, hy, -⟩ | ⟨-, hrow⟩
    · exact absurd ⟨_, hy, rfl⟩ hn
    · rw [hrow]
      rcases hfree with h | h <;> simp [h]

/-- The child rows of a dirty key after the flush. -/
theorem exactRows_flush (hs : s.Tracks D) {D' : Tables} (hres : s.flushArgs.Result D D') {k : Key}
    {e : Entry} {v : Value} (hk : k ∈ s.dirty) (he : s.store.lookup k = some e)
    (hv : e.content = some v) : v.ExactRows (D'.hashFields k) (D'.listItems k) := by
  have hnot : k ∉ s.flushArgs.storeDeletes := fun hd => (mem_storeDeletes.1 hd).2 hk
  have ht := hs.value k e v he hv
  -- Where an entry has no deltas for a table its rows stay.
  have hhash : e.dirtyFields = [] → e.tombstones = [] → D'.hashFields k = D.hashFields k := by
    intro hup hdel
    funext f
    rw [hres.hashFields, if_neg hnot]
    rcases cell_of_dirty (b := f) Entry.dirtyFields Entry.tombstones hk he
      (by simp [hup]) (D.hashFields k f) with ⟨x, hx, -⟩ | ⟨-, hcell⟩
    · simp [hup] at hx
    · exact hcell.trans (by simp [hdel])
  have hlist : e.pendingInserts = [] → e.pendingDeleteOrds = [] →
      D'.listItems k = D.listItems k := by
    intro hup hdel
    funext o
    rw [hres.listItems, if_neg hnot]
    rcases cell_of_dirty (b := o) Entry.pendingInserts Entry.pendingDeleteOrds hk he
      (by simp [hup]) (D.listItems k o) with ⟨x, hx, -⟩ | ⟨-, hcell⟩
    · simp [hup] at hx
    · exact hcell.trans (by simp [hdel])
  cases v with
  | str | int =>
    obtain ⟨h₁, h₂, h₃, h₄⟩ := Entry.deltas_scalar hv rfl
    rw [hhash h₁ h₂, hlist h₃ h₄]
    exact ht
  | hash h =>
    obtain ⟨hty, -⟩ := Entry.content_eq_hash.1 hv
    rw [hlist (by simp [Entry.pendingInserts, hty]) (by simp [Entry.pendingDeleteOrds, hty])]
    exact ⟨hs.hashFields_flush hres hk he hv, ht.2⟩
  | list l =>
    obtain ⟨hty, -⟩ := Entry.content_eq_list.1 hv
    rw [hhash (by simp [Entry.dirtyFields, hty]) (by simp [Entry.tombstones, hty])]
    exact ⟨ht.1, ht.2.ordered.sorted, hs.listItems_flush hres hk he hv⟩

end Tracks

namespace Ledger

variable {P : Key → Value → Prop}

/-- A clean entry after the flush: its rows stay. -/
theorem unchanged_flush (hs : s.Ledger P D) {D' : Tables} (hres : s.flushArgs.Result D D')
    {k : Key} {e : Entry} (hk : k ∉ s.dirty) (he : s.store.lookup k = some e) :
    e.inDirtySet = false ∧ D'.store k = D.store k ∧ D'.hashFields k = D.hashFields k ∧
      D'.listItems k = D.listItems k := by
  have hd := hs.unmarked hk he
  have hnot : k ∉ s.flushArgs.storeDeletes := fun h => hs.kept k e he hd (mem_storeDeletes.1 h).1
  refine ⟨hd, ?_, ?_, ?_⟩
  · rw [hres.store, if_neg hnot, storeAfter_of_not_dirty hk]
  · funext f
    rw [hres.hashFields, if_neg hnot]
    exact cell_of_not_dirty hk _
  · funext o
    rw [hres.listItems, if_neg hnot]
    exact cell_of_not_dirty hk _

/-- A key that is not in memory has no row after the flush. -/
theorem absent_flush (hs : s.Ledger P D) {D' : Tables} (hres : s.flushArgs.Result D D') {k : Key}
    (hk : s.store.lookup k = none) : D'.store k = none := by
  have hnd : k ∉ s.dirty := fun h => by
    obtain ⟨e, he, -⟩ := (hs.dirty k).1 h
    rw [hk] at he
    exact absurd he (by simp)
  rw [hres.store, storeAfter_of_not_dirty hnd]
  rcases hs.absent k hk with h | h
  · rw [h, ite_self]
  · rw [if_pos (mem_storeDeletes.2 ⟨h, hnd⟩)]

/-- A key in memory has its row after the flush. -/
theorem present_flush (hs : s.Ledger P D) {D' : Tables} (hres : s.flushArgs.Result D D') {k : Key}
    {e : Entry} (he : s.store.lookup k = some e) : ∃ r, D'.store k = some r ∧ e.IsRow r := by
  by_cases hk : k ∈ s.dirty
  · refine ⟨e.row, ?_, Entry.isRow_row⟩
    rw [hres.store, if_neg fun h => (mem_storeDeletes.1 h).2 hk, storeAfter_of_dirty hk he]
  · obtain ⟨hd, hst, -⟩ := hs.unchanged_flush hres hk he
    rw [hst]
    exact hs.row k e he hd

end Ledger

namespace Tracks

/-- A flush succeeds and leaves the keyspace in step with the tables. -/
theorem runFlush (hs : s.Tracks D) :
    ∃ D', (s.runFlush D).2 = .ok D' ∧ (s.runFlush D).1.Synced D' := by
  obtain ⟨D', hD'⟩ := exists_executePlans hs.admissible
  obtain ⟨-, hres⟩ := executePlans_ok hD'
  have hlook := lookup_runFlush hD'
  refine ⟨D', by rw [runFlush_ok hD'], ⟨fun k hk => ?_, fun k e he => ?_, fun k e v he hv => ?_⟩,
    fun k e he => ?_, by rw [runFlush_ok hD']; rfl, by rw [runFlush_ok hD']; rfl, fun k e he => ?_,
    fun k e v he hv => ?_⟩
  · rw [hlook, Option.map_eq_none_iff] at hk
    exact hs.ledger.absent_flush hres hk
  -- An entry of the dirty set is collected and cleared; another has its rows already.
  all_goals
    rw [hlook, Option.map_eq_some_iff] at he
    obtain ⟨e₀, he₀, rfl⟩ := he
    by_cases hk : k ∈ s.dirty
    on_goal 1 => simp only [if_pos hk] at *
    on_goal 2 =>
      obtain ⟨hd, -, hhf, hli⟩ := hs.ledger.unchanged_flush hres hk he₀
      simp only [if_neg hk] at *
  · obtain ⟨r, hr, hrow⟩ := hs.ledger.present_flush hres he₀
    exact ⟨r, hr, Entry.isRow_clear_collect.2 hrow⟩
  · exact hs.ledger.present_flush hres he₀
  · rw [Entry.content_clear_collect, Option.map_eq_some_iff] at hv
    obtain ⟨v₀, hv₀, rfl⟩ := hv
    exact (hs.exactRows_flush hres hk he₀ hv₀).cleaned
  · rw [hhf, hli]
    exact (hs.value k e₀ v he₀ hv).exactRows (hs.clean k e₀ v he₀ hd hv)
  · rw [Entry.content_clear_collect, Option.isSome_map]
    exact hs.typed k e₀ he₀
  · exact hs.typed k e₀ he₀
  · exact Entry.inDirtySet_clear
  · exact hd
  · rw [Entry.content_clear_collect, Option.map_eq_some_iff] at hv
    obtain ⟨v₀, hv₀, rfl⟩ := hv
    refine Value.clean_cleaned fun l hl => ?_
    subst hl
    exact (hs.value k e₀ _ he₀ hv₀).2.ordered
  · exact hs.clean k e₀ v he₀ hd hv

end Tracks

/-- A keyspace in step with the tables tracks them. -/
theorem Synced.tracks (hs : s.Synced D) : s.Tracks D where
  typed := hs.typed
  nodup := hs.dirty ▸ List.nodup_nil
  dirty k := by
    rw [hs.dirty]
    refine iff_of_false List.not_mem_nil fun ⟨e, he, hd⟩ => ?_
    rw [hs.unmarked k e he] at hd
    exact absurd hd (by simp)
  absent k hk := .inl (hs.exact.absent k hk)
  value k e v he hv := (hs.exact.children k e v he hv).tracks (hs.clean k e v he hv)
  row k e he _ := hs.exact.present k e he
  kept k e _ _ := hs.pendingDeletes ▸ List.not_mem_nil
  clean k e v he _ hv := hs.clean k e v he hv

/-! ## Runs -/

/-- The steps of the only writer. -/
inductive Action
  | call (a : Call)
  | commit

/-- A step on the keyspace and the tables. A commit whose flush fails does not
    happen. -/
def step : Session × Tables → Action → Option (Session × Tables)
  | (s, D), .call a => some (s.call a, D)
  | (s, D), .commit => match s.runFlush D with
    | (s', .ok D') => some (s', D')
    | (_, .error _) => none

/-- The step does not start a key afresh over child rows. -/
def Unshadowed : Session × Tables → Action → Prop
  | (s, D), .call a => a.cmd.check a.lim = .ok () → a.cmd.startsAfresh a.now s = true →
      NoChildren D a.cmd.key
  | _, .commit => True

theorem tracks_step (st : Session × Tables) (a : Action) (st' : Session × Tables)
    (h : st.1.Tracks st.2) (hok : Unshadowed st a) (hst : step st a = some st') :
    st'.1.Tracks st'.2 := by
  obtain ⟨s, D⟩ := st
  cases a with
  | call a =>
    obtain rfl := Option.some.inj hst
    exact Tracks.call h hok
  | commit =>
    obtain ⟨D', hok', hsync⟩ := Tracks.runFlush h
    have hflush : s.runFlush D = ((s.runFlush D).1, .ok D') := Prod.ext rfl hok'
    rw [step, hflush] at hst
    obtain rfl := Option.some.inj hst
    exact hsync.tracks

/-- From a keyspace in step with the tables, in every state reached by commands and
    commits that start no key afresh over child rows, a commit raises no error and
    leaves the rows exact. -/
theorem exact_of_unshadowed {s₀ s : Session} {D₀ D : Tables} (h₀ : s₀.Synced D₀)
    (h : Reachable step Unshadowed (s₀, D₀) (s, D)) :
    ∃ D', (s.runFlush D).2 = .ok D' ∧ (s.runFlush D).1.Exact D' := by
  obtain ⟨D', hok, hsync⟩ := Tracks.runFlush (h.invariant h₀.tracks tracks_step)
  exact ⟨D', hok, hsync.exact⟩

theorem synced_init : init.Synced .empty where
  exact := ⟨fun _ _ => rfl, fun _ _ h => absurd h (by simp [init]),
    fun _ _ _ h => absurd h (by simp [init])⟩
  typed _ _ h := absurd h (by simp [init])
  dirty := rfl
  pendingDeletes := rfl
  unmarked _ _ h := absurd h (by simp [init])
  clean _ _ _ h := absurd h (by simp [init])

/-- A command with the default settings, at time zero. -/
def cmd (c : Command) : Action := .call ⟨⟨1024, 1048576⟩, 0, 0, c⟩

/-- A hash `k` with the field `a` is committed, then the commands `cs` run. -/
def afterHash (cs : List Command) : List Action :=
  cmd (.hset [107] [97] [49]) :: .commit :: cs.map cmd

/-- The hash gets another field and loses the first, and a list is made. -/
theorem exact_of_hash_and_list :
    ∃ st D', run step (init, .empty) (afterHash [.hset [107] [98] [50], .hdel [107] [97],
      .push .left [108] [51], .push .right [108] [52]]) = some st ∧
      (st.1.runFlush st.2).2 = .ok D' ∧ (st.1.runFlush st.2).1.Exact D' := by
  have hmeets : Meets step Unshadowed (init, .empty) (afterHash [.hset [107] [98] [50],
      .hdel [107] [97], .push .left [108] [51], .push .right [108] [52]]) := by
    refine .cons (fun _ _ => ⟨fun _ => rfl, fun _ => rfl⟩) rfl (.cons trivial rfl ?_)
    refine .cons (fun _ h => absurd h (by decide)) rfl ?_
    refine .cons (fun _ h => absurd h (by decide)) rfl ?_
    refine .cons (fun _ _ => ⟨fun _ => rfl, fun _ => rfl⟩) rfl ?_
    exact .cons (fun _ h => absurd h (by decide)) rfl trivial
  obtain ⟨D', hD'⟩ := exact_of_unshadowed synced_init
    (.of_run .init hmeets (Option.some_get rfl).symm)
  exact ⟨_, D', rfl, hD'⟩

/-- The hash is deleted and created again with the field `b`: the row of the field
    `a` stays. -/
theorem recreated_hash_keeps_field :
    ¬∀ (s₀ s : Session) (D₀ D : Tables), s₀.Synced D₀ →
      Reachable step (fun _ _ => True) (s₀, D₀) (s, D) →
      ∃ D', (s.runFlush D).2 = .ok D' ∧ (s.runFlush D).1.Exact D' := by
  intro h
  have hrun : Reachable step (fun _ _ => True) (init, Tables.empty)
      ((run step (init, .empty) (afterHash [.del [107], .hset [107] [98] [50]])).get rfl) :=
    .of_run .init (by simp [afterHash, cmd, Meets]) (Option.some_get _).symm
  obtain ⟨D', hok, hex⟩ := h _ _ _ _ synced_init hrun
  obtain rfl := Except.ok.inj hok
  have := (hex.children [107] _ _ rfl rfl).1 [97]
  exact absurd this (by decide)

end Session

end PgRedis
