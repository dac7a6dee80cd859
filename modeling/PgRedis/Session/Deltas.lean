import PgRedis.Lib.Deltas
import PgRedis.Session.Exact

/-!
# The deltas of one collection

A list or a hash of the backend next to the rows of its key. Between two flushes commands work
on the collection, and mark what they change; a flush then deletes rows, writes rows, in this
order, and clears the marks.

For a list the flush is exact in a strict sense: it never deletes an ordinal that is absent
and never inserts one that is present (`ListValue.flushRows`, which is `none` otherwise). The
invariant between flushes is `ListValue.Accounts`. For a hash a field may have several
tombstones and be there again; `Hash.Tracks` is the invariant.

`Session.list_runFlush` and `Session.hash_runFlush` say that `run_flush` does the same to the rows
of a key in the tables.
-/

namespace PgRedis

open Lib

/-! ## Lists -/

/-- What is done to a list between flushes. -/
inductive ListOp
  | push (side : Side) (value : Bytes)
  | pop (side : Side)
  deriving DecidableEq, Repr

namespace ListValue

/-- An operation on a list. A pop of an empty list does nothing. -/
def apply (l : ListValue) : ListOp → ListValue
  | .push side value => push side l value
  | .pop side => match pop side l with
    | none => l
    | some (_, l') => l'

/-- The rows a flush inserts: those of the nodes with `pending_insert`. -/
def pendingInserts (l : ListValue) : List (ℤ × Option Bytes) :=
  l.nodes.filterMap fun n => if n.pendingInsert then some (n.ord, some n.value) else none

/-- The rows after a flush of the list; `none` if it deletes an absent row or inserts a
    present one. -/
def flushRows (l : ListValue) (rows : ℤ → Option (Option Bytes)) :
    Option (ℤ → Option (Option Bytes)) :=
  (deleteAll l.pendingDeleteOrds rows).bind (insertAll l.pendingInserts)

/-- The list without marks, as a flush leaves it. -/
def cleaned (l : ListValue) : ListValue :=
  { l with
    nodes := l.nodes.map fun n => { n with pendingInsert := false }
    pendingDeleteOrds := [] }

/-- The rows are those of the list. -/
def HasRows (l : ListValue) (rows : ℤ → Option (Option Bytes)) : Prop :=
  ∀ o x, rows o = some x ↔ ∃ n ∈ l.nodes, n.ord = o ∧ x = some n.value

/-- A list as a load builds it: its elements all are durable under their ordinals. -/
structure Durable (l : ListValue) (rows : ℤ → Option (Option Bytes)) : Prop where
  ordered : l.Ordered
  inserted : ∀ n ∈ l.nodes, n.pendingInsert = false
  settled : l.pendingDeleteOrds = []
  exact : l.HasRows rows

/-- Epochs of operations, each ended by a flush. -/
def epochs : List (List ListOp) → ListValue → (ℤ → Option (Option Bytes)) →
    Option (ListValue × (ℤ → Option (Option Bytes)))
  | [], l, rows => some (l, rows)
  | ops :: rest, l, rows =>
    ((ops.foldl apply l).flushRows rows).bind (epochs rest (ops.foldl apply l).cleaned)

/-- The deltas of a list stand for its difference to the rows, and every deletion noted is that
    of a row which is there, noted once. -/
structure Accounts (l : ListValue) (rows : ℤ → Option (Option Bytes)) : Prop
    extends l.Tracks rows where
  nodup : l.pendingDeleteOrds.Nodup
  owed : ∀ o ∈ l.pendingDeleteOrds, (rows o).isSome

variable {l : ListValue} {rows : ℤ → Option (Option Bytes)}

theorem Durable.accounts (h : l.Durable rows) : l.Accounts rows where
  ordered := h.ordered
  durable n hn _ := ⟨(h.exact _ _).2 ⟨n, hn, rfl, rfl⟩, by rw [h.settled]; exact List.not_mem_nil⟩
  free o ho := .inl <| Option.eq_none_iff_forall_ne_some.2 fun x hx => by
    obtain ⟨n, hn, hno, -⟩ := (h.exact o x).1 hx
    exact absurd (ho n hn hno) (by rw [h.inserted n hn]; simp)
  nodup := by rw [h.settled]; exact .nil
  owed o ho := absurd ho (by rw [h.settled]; exact List.not_mem_nil)

namespace Accounts

theorem push (ha : l.Accounts rows) (side : Side) (value : Bytes) :
    (push side l value).Accounts rows where
  toTracks := ha.toTracks.push side value
  nodup := by rw [pendingDeleteOrds_push]; exact ha.nodup
  owed o ho := ha.owed o (by rwa [pendingDeleteOrds_push] at ho)

theorem pop (ha : l.Accounts rows) {side : Side} {value : Bytes} {l' : ListValue}
    (hpop : pop side l = some (value, l')) : l'.Accounts rows := by
  obtain ⟨n, -, hord, hnodes⟩ := exists_of_pop hpop
  have hn : n ∈ l.nodes := by
    rw [hnodes]
    exact mem_atEnd.2 (.inl rfl)
  rw [pendingDeleteOrds_forget] at hord
  refine ⟨ha.toTracks.pop hpop, ?_, fun o ho => ?_⟩ <;> split_ifs at hord with hp
  · rw [hord]
    exact ha.nodup
  · -- A durable node was not noted before.
    rw [hord]
    exact List.nodup_cons.2 ⟨(ha.durable n hn (Bool.eq_false_iff.2 hp)).2, ha.nodup⟩
  · exact ha.owed o (hord ▸ ho)
  · rw [hord] at ho
    rcases List.mem_cons.1 ho with rfl | ho
    · rw [(ha.durable n hn (Bool.eq_false_iff.2 hp)).1]
      rfl
    · exact ha.owed o ho

theorem apply (ha : l.Accounts rows) (op : ListOp) : (l.apply op).Accounts rows := by
  cases op with
  | push side value => exact ha.push side value
  | pop side =>
    rw [ListValue.apply]
    split
    next => exact ha
    next hpop => exact ha.pop hpop

theorem foldl_apply (ops : List ListOp) (ha : l.Accounts rows) :
    (ops.foldl ListValue.apply l).Accounts rows := by
  induction ops generalizing l with
  | nil => exact ha
  | cons op ops ih => exact ih (ha.apply op)

end Accounts

theorem mem_pendingInserts {o : ℤ} {x : Option Bytes} :
    (o, x) ∈ l.pendingInserts ↔ ∃ n ∈ l.nodes, n.pendingInsert = true ∧ n.ord = o ∧
      x = some n.value := by
  rw [pendingInserts, List.mem_filterMap]
  refine exists_congr fun n => and_congr_right fun _ => ?_
  by_cases hp : n.pendingInsert <;> simp [hp, eq_comm]

theorem Ordered.nodup_pendingInserts (ho : l.Ordered) :
    (l.pendingInserts.map Prod.fst).Nodup := by
  have hfst : l.pendingInserts.map Prod.fst =
      (l.nodes.filter ListNode.pendingInsert).map ListNode.ord := by
    rw [pendingInserts, List.map_filterMap, ← List.filterMap_eq_map, ← List.filterMap_eq_filter,
      List.filterMap_filterMap]
    congr 1
    funext n
    by_cases hp : n.pendingInsert <;> simp [hp, Option.guard]
  rw [hfst]
  exact ho.nodup.sublist (List.filter_sublist.map _)

/-- Of the nodes with an ordinal there is one. -/
theorem Ordered.eq_of_ord (ho : l.Ordered) {n m : ListNode} (hn : n ∈ l.nodes) (hm : m ∈ l.nodes)
    (h : n.ord = m.ord) : n = m :=
  List.inj_on_of_nodup_map ho.nodup hn hm h

/-- What the inserts of a flush say of an ordinal. -/
theorem Ordered.last_pendingInserts (ho : l.Ordered) {n : ListNode} (hn : n ∈ l.nodes) :
    last (valueAt n.ord) l.pendingInserts =
      if n.pendingInsert then some (some n.value) else none := by
  split_ifs with hp
  · refine last_valueAt_eq (mem_pendingInserts.2 ⟨n, hn, hp, rfl, rfl⟩) fun x hx => ?_
    obtain ⟨m, hm, -, hmo, rfl⟩ := mem_pendingInserts.1 hx
    rw [ho.eq_of_ord hm hn hmo]
  · refine last_valueAt_eq_none fun x hx => hp ?_
    obtain ⟨m, hm, hmp, hmo, -⟩ := mem_pendingInserts.1 hx
    rwa [← ho.eq_of_ord hm hn hmo]

theorem last_pendingInserts_of_free {o : ℤ} (ho : ∀ n ∈ l.nodes, n.ord ≠ o) :
    last (valueAt o) l.pendingInserts = none :=
  last_valueAt_eq_none fun _ hx => by
    obtain ⟨n, hn, -, hno, -⟩ := mem_pendingInserts.1 hx
    exact ho n hn hno

/-- Every flush is exact: it deletes rows that are there, inserts rows that are not, and leaves
    those of the list. -/
theorem Accounts.flushRows (ha : l.Accounts rows) :
    ∃ rows', l.flushRows rows = some rows' ∧ l.HasRows rows' := by
  have hdel : deleteAll l.pendingDeleteOrds rows = some (eraseAll l.pendingDeleteOrds rows) :=
    deleteAll_eq_some_iff.2 ⟨ha.nodup, ha.owed, rfl⟩
  -- The ordinal of a row to be inserted is free, once the deletions are done.
  have hfree : ∀ o, (∀ n ∈ l.nodes, n.ord = o → n.pendingInsert = true) →
      eraseAll l.pendingDeleteOrds rows o = none := fun o ho => by
    rw [eraseAll_apply]
    rcases ha.free o ho with h | h <;> simp [h]
  have hins : insertAll l.pendingInserts (eraseAll l.pendingDeleteOrds rows) =
      some (upsertAll l.pendingInserts (eraseAll l.pendingDeleteOrds rows)) := by
    refine insertAll_eq_some_iff.2 ⟨ha.ordered.nodup_pendingInserts, fun x hx => ?_, rfl⟩
    obtain ⟨n, hn, hp, hno, -⟩ := mem_pendingInserts.1 (hx : (x.1, x.2) ∈ l.pendingInserts)
    refine hfree x.1 fun m hm hmo => ?_
    rwa [ha.ordered.eq_of_ord hm hn (hmo.trans hno.symm)]
  refine ⟨_, by rw [ListValue.flushRows, hdel, Option.bind_some, hins], fun o x => ?_⟩
  have happly : upsertAll l.pendingInserts (eraseAll l.pendingDeleteOrds rows) o =
      (last (valueAt o) l.pendingInserts).or (eraseAll l.pendingDeleteOrds rows o) :=
    upsertAll_apply _ _ _
  rw [happly]
  by_cases hn : ∃ n ∈ l.nodes, n.ord = o
  · obtain ⟨n, hn, rfl⟩ := hn
    have hrow : (last (valueAt n.ord) l.pendingInserts).or
        (eraseAll l.pendingDeleteOrds rows n.ord) = some (some n.value) := by
      rw [ha.ordered.last_pendingInserts hn]
      split_ifs with hp
      · rfl
      · obtain ⟨hdur, hnot⟩ := ha.durable n hn (Bool.eq_false_iff.2 hp)
        rw [Option.none_or, eraseAll_apply, if_neg hnot, hdur]
    rw [hrow, Option.some.injEq]
    refine ⟨fun hx => ⟨n, hn, rfl, hx.symm⟩, ?_⟩
    rintro ⟨m, hm, hmo, hx⟩
    rw [hx, ha.ordered.eq_of_ord hm hn hmo]
  · have hno : ∀ n ∈ l.nodes, n.ord ≠ o := fun n hn' hno => hn ⟨n, hn', hno⟩
    rw [last_pendingInserts_of_free hno, Option.none_or,
      hfree o fun n hn' h => absurd h (hno n hn')]
    refine iff_of_false (by simp) ?_
    rintro ⟨n, hn', h, -⟩
    exact hno n hn' h

/-- A flush leaves a list whose elements all are durable. -/
theorem Accounts.durable_cleaned (ha : l.Accounts rows) {rows' : ℤ → Option (Option Bytes)}
    (hrows : l.HasRows rows') : l.cleaned.Durable rows' where
  ordered := by
    refine ⟨?_, ?_, fun n hn => ?_, fun n hn => ?_⟩
    · exact List.pairwise_map.2 ha.ordered.sorted
    · simpa [cleaned] using ha.ordered.initialized
    · obtain ⟨m, hm, rfl⟩ := Option.map_eq_some_iff.1 (List.head?_map.symm.trans hn)
      exact ha.ordered.min m hm
    · obtain ⟨m, hm, rfl⟩ := Option.map_eq_some_iff.1 (List.getLast?_map.symm.trans hn)
      exact ha.ordered.max m hm
  inserted n hn := by
    obtain ⟨m, -, rfl⟩ := List.mem_map.1 hn
    rfl
  settled := rfl
  exact o x := by
    rw [hrows o x]
    simp [cleaned]

/-- Once per epoch the rows are exact, over any number of epochs. -/
theorem Durable.epochs (h : l.Durable rows) (steps : List (List ListOp)) :
    ∃ l' rows', epochs steps l rows = some (l', rows') ∧ l'.Durable rows' := by
  induction steps generalizing l rows with
  | nil => exact ⟨l, rows, rfl, h⟩
  | cons ops rest ih =>
    have ha := h.accounts.foldl_apply ops
    obtain ⟨rows', hflush, hrows⟩ := ha.flushRows
    obtain ⟨l'', rows'', hrest, hdur⟩ := ih (ha.durable_cleaned hrows)
    exact ⟨l'', rows'', by rw [ListValue.epochs, hflush, Option.bind_some, hrest], hdur⟩

/-- The deltas of a list are exact. From a list whose elements all are durable, after any epochs
    of pushes and pops the list is one again; and after any further operations the next flush
    deletes rows that are there, inserts rows that are not, and leaves those of the list. -/
theorem list_deltas_exact (h : l.Durable rows) (steps : List (List ListOp)) (ops : List ListOp) :
    ∃ l' rows', epochs steps l rows = some (l', rows') ∧ l'.Durable rows' ∧
      ∃ rows'', (ops.foldl apply l').flushRows rows' = some rows'' ∧
        (ops.foldl apply l').HasRows rows'' ∧ (ops.foldl apply l').cleaned.Durable rows'' := by
  obtain ⟨l', rows', hrun, hdur⟩ := h.epochs steps
  have ha := hdur.accounts.foldl_apply ops
  obtain ⟨rows'', hflush, hrows⟩ := ha.flushRows
  exact ⟨l', rows', hrun, hdur, rows'', hflush, hrows, ha.durable_cleaned hrows⟩

/-- A list of two elements, one popped and two pushed after it was drained: the ordinal 0 is
    deleted and inserted again. -/
theorem list_deltas_exact_drained :
    ∃ l' rows', epochs [] ⟨[⟨[97], 0, false⟩], 1, 49, 0, 0, true, []⟩
        (fun o => if o = 0 then some (some [97]) else none) = some (l', rows') ∧
      l'.Durable rows' ∧
      ∃ rows'', ([.pop .left, .push .right [98], .push .left [99]].foldl apply l').flushRows rows' =
          some rows'' ∧
        ([.pop .left, .push .right [98], .push .left [99]].foldl apply l').HasRows rows'' ∧
        ([.pop .left, .push .right [98], .push .left [99]].foldl apply l').cleaned.Durable
          rows'' :=
  list_deltas_exact (by
    refine ⟨⟨by simp, by simp, by simp, by simp⟩, by simp, rfl, fun o x => ?_⟩
    by_cases ho : o = 0
    · simp [ho, eq_comm]
    · simp [ho, Ne.symm ho]) _ _

end ListValue

/-! ## Hashes -/

/-- The error of `pg_redis_hash_set`: the field is longer than `PG_REDIS_MAX_FIELD_SIZE`. -/
inductive HashError
  | fieldTooLong (len : ℕ)
  deriving DecidableEq, Repr

/-- What is done to a hash between flushes. -/
inductive HashOp
  | set (field : Field) (value : Bytes)
  | del (field : Field)
  deriving DecidableEq, Repr

namespace Hash

/-- `pg_redis_hash_set` with its check of the field. -/
def setField (h : Hash) (field : Field) (value : Bytes) : Except HashError (Hash × Bool) :=
  if maxFieldSize < field.length then .error (.fieldTooLong field.length)
  else .ok (h.set field value)

/-- An operation on a hash, and its reply. -/
def perform (h : Hash) : HashOp → Hash × Except HashError Bool
  | .set field value => match h.setField field value with
    | .error err => (h, .error err)
    | .ok (h', isNew) => (h', .ok isNew)
  | .del field => ((h.del field).1, .ok (h.del field).2)

/-- The hash an operation leaves. -/
def apply (h : Hash) (op : HashOp) : Hash := (h.perform op).1

/-- The rows a flush upserts: those of the dirty fields. -/
def dirtyRows (h : Hash) : List (Field × Option Bytes) :=
  h.fields.toList.filterMap fun f => if f.2.dirty then some (f.1, some f.2.value) else none

/-- The rows after a flush of the hash. -/
def flushRows (h : Hash) (rows : Field → Option (Option Bytes)) : Field → Option (Option Bytes) :=
  upsertAll h.dirtyRows (eraseAll h.tombstones rows)

/-- The hash without marks, as a flush leaves it. -/
def cleaned (h : Hash) : Hash :=
  { h with
    fields := h.fields.mapValues fun _ f => { f with dirty := false }
    tombstones := [] }

/-- The rows of the fields. -/
def rows (h : Hash) (f : Field) : Option (Option Bytes) :=
  (h.fields.lookup f).map fun x => some x.value

/-- What a hash always keeps: the fields fit their buffers, and are counted. -/
structure Sound (h : Hash) : Prop where
  short : ∀ f ∈ h.fields, f.length ≤ maxFieldSize
  counted : h.fieldCount = h.fields.keys.length

/-- A hash whose fields all are durable with their values. -/
structure Durable (h : Hash) (rows : Field → Option (Option Bytes)) : Prop extends h.Sound where
  clean : ∀ f x, h.fields.lookup f = some x → x.dirty = false
  settled : h.tombstones = []
  exact : rows = h.rows

/-- Epochs of operations, each ended by a flush. -/
def epochs : List (List HashOp) → Hash → (Field → Option (Option Bytes)) →
    Hash × (Field → Option (Option Bytes))
  | [], h, rows => (h, rows)
  | ops :: rest, h, rows =>
    epochs rest (ops.foldl apply h).cleaned ((ops.foldl apply h).flushRows rows)

variable {h : Hash} {rows : Field → Option (Option Bytes)}

theorem sound_create : create.Sound := ⟨fun _ hf => absurd hf (by simp [create]), rfl⟩

namespace Sound

theorem set (hs : h.Sound) {field : Field} (hlen : field.length ≤ maxFieldSize) (value : Bytes) :
    (h.set field value).1.Sound where
  short f hf := by
    rw [fields_set, AList.mem_insert] at hf
    rcases hf with rfl | hf
    · exact hlen
    · exact hs.short f hf
  counted := by
    have hcount : (h.set field value).1.fieldCount =
        if field ∈ h.fields then h.fieldCount else h.fieldCount + 1 := by
      rw [Hash.set]
      split
      next x hx => rw [if_pos (AList.lookup_isSome.1 (by rw [hx]; rfl))]
      next hx => rw [if_neg (AList.lookup_eq_none.1 hx)]
    rw [hcount, fields_set, Htab.length_keys_insert, hs.counted]
    split_ifs <;> rfl

theorem del (hs : h.Sound) (field : Field) : (h.del field).1.Sound := by
  rw [Hash.del]
  by_cases hlen : maxFieldSize < field.length
  · rw [if_pos hlen]
    exact hs
  rw [if_neg hlen]
  split
  next => exact hs
  next x hx =>
    have hcount := hs.counted
    have herase := Htab.length_keys_erase (AList.lookup_isSome.1 (by rw [hx]; rfl) :
      field ∈ h.fields)
    refine ⟨fun f hf => hs.short f (AList.mem_erase.1 hf).2, ?_⟩
    simp only
    rw [if_pos (by omega)]
    omega

theorem apply (hs : h.Sound) (op : HashOp) : (h.apply op).Sound := by
  cases op with
  | set field value =>
    rw [Hash.apply, perform, setField]
    split_ifs with hlen
    · exact hs
    · exact hs.set (Nat.not_lt.1 hlen) value
  | del field => exact hs.del field

theorem cleaned (hs : h.Sound) : h.cleaned.Sound := by
  have hkeys : h.cleaned.fields.keys = h.fields.keys := Htab.keys_mapValues _ _
  refine ⟨fun f hf => hs.short f ?_, ?_⟩
  · rw [AList.mem_keys, ← hkeys]
    exact hf
  · rw [hkeys]
    exact hs.counted

end Sound

/-- The deltas of a hash whose fields all are durable. -/
theorem Durable.tracks (hd : h.Durable rows) : h.Tracks rows where
  present f x hx := .inr <| by
    rw [hd.exact, hd.settled, Hash.rows, hx]
    exact ⟨rfl, List.not_mem_nil⟩
  absent f hf := .inl <| by rw [hd.exact, Hash.rows, hf]; rfl

theorem Tracks.apply (ht : h.Tracks rows) (op : HashOp) : (h.apply op).Tracks rows := by
  cases op with
  | set field value =>
    rw [Hash.apply, perform, setField]
    split_ifs
    · exact ht
    · exact ht.set field value
  | del field =>
    rw [Hash.apply, perform]
    cases hdel : (h.del field).2 with
    | true => exact ht.del hdel
    | false => rwa [del_eq_self hdel]

theorem mem_dirtyRows {f : Field} {x : Option Bytes} :
    (f, x) ∈ h.dirtyRows ↔ ∃ v, h.fields.lookup f = some ⟨v, true⟩ ∧ x = some v := by
  simp only [dirtyRows, List.mem_filterMap, Prod.exists, Htab.mem_toList]
  constructor
  · rintro ⟨f', ⟨v, d⟩, hv, hd⟩
    split_ifs at hd with hdirty
    obtain ⟨rfl, rfl⟩ := Prod.mk.inj (Option.some.inj hd)
    refine ⟨v, ?_, rfl⟩
    rw [hv, ← (hdirty : d = true)]
  · rintro ⟨v, hv, rfl⟩
    exact ⟨f, ⟨v, true⟩, hv, rfl⟩

/-- A flush leaves the rows of the fields. -/
theorem Tracks.flushRows (ht : h.Tracks rows) : h.flushRows rows = h.rows := by
  funext f
  have happly : h.flushRows rows f =
      (last (valueAt f) h.dirtyRows).or (eraseAll h.tombstones rows f) := upsertAll_apply _ _ _
  rw [happly, eraseAll_apply, Hash.rows]
  have hclean : (∀ v, h.fields.lookup f ≠ some ⟨v, true⟩) →
      last (valueAt f) h.dirtyRows = none := fun hno => last_valueAt_eq_none fun x hx => by
    obtain ⟨v, hv, -⟩ := mem_dirtyRows.1 hx
    exact hno v hv
  rcases hf : h.fields.lookup f with _ | ⟨v, _ | _⟩
  · rw [hclean (by simp [hf]), Option.none_or]
    rcases ht.absent f hf with h | h <;> simp [h]
  · obtain ⟨hrow, hnot⟩ := (ht.present f _ hf).resolve_left (by simp)
    rw [hclean (by simp [hf]), Option.none_or, if_neg hnot, hrow]
    rfl
  · rw [last_valueAt_eq (mem_dirtyRows.2 ⟨v, hf, rfl⟩), Option.some_or]
    · rfl
    · intro x hx
      obtain ⟨w, hw, rfl⟩ := mem_dirtyRows.1 hx
      rw [hf, Option.some.injEq, HashField.mk.injEq] at hw
      rw [hw.1]

@[simp] theorem rows_cleaned (h : Hash) : h.cleaned.rows = h.rows := by
  funext f
  rw [Hash.rows, cleaned, Htab.lookup_mapValues, Option.map_map]
  rfl

/-- A flush leaves a hash whose fields all are durable. -/
theorem Tracks.durable_cleaned (ht : h.Tracks rows) (hs : h.Sound) :
    h.cleaned.Durable (h.flushRows rows) where
  toSound := hs.cleaned
  clean f x hx := by
    rw [cleaned, Htab.lookup_mapValues] at hx
    obtain ⟨y, -, rfl⟩ := Option.map_eq_some_iff.1 hx
    rfl
  settled := rfl
  exact := by rw [ht.flushRows, rows_cleaned]

theorem foldl_apply (ops : List HashOp) (ht : h.Tracks rows) (hs : h.Sound) :
    (ops.foldl apply h).Tracks rows ∧ (ops.foldl apply h).Sound := by
  induction ops generalizing h with
  | nil => exact ⟨ht, hs⟩
  | cons op ops ih => exact ih (ht.apply op) (hs.apply op)

theorem Durable.epochs (hd : h.Durable rows) (steps : List (List HashOp)) :
    (epochs steps h rows).1.Durable (epochs steps h rows).2 := by
  induction steps generalizing h rows with
  | nil => exact hd
  | cons ops rest ih =>
    obtain ⟨ht, hs⟩ := foldl_apply ops hd.tracks hd.toSound
    exact ih (ht.durable_cleaned hs)

/-- The replies: a set says whether the field was absent, a deletion whether it was present. -/
theorem Sound.replies (hs : h.Sound) (field : Field) (value : Bytes) :
    (h.perform (.set field value)).2 = (if maxFieldSize < field.length then
        .error (.fieldTooLong field.length) else .ok (decide (field ∉ h.fields))) ∧
      (h.perform (.del field)).2 = .ok (decide (field ∈ h.fields)) := by
  constructor
  · rw [perform, setField]
    split_ifs
    · rfl
    · simp only [Hash.set]
      split
      next x hx => simp [AList.lookup_isSome.1 (by rw [hx]; rfl : (h.fields.lookup field).isSome)]
      next hx => simp [AList.lookup_eq_none.1 hx]
  · rw [perform, del_snd]
    by_cases hmem : field ∈ h.fields
    · simp [hmem, hs.short field hmem, AList.lookup_isSome.2 hmem]
    · simp [hmem, AList.lookup_eq_none.2 hmem]

/-- The deltas of a hash are exact. From a hash whose fields all are durable, after any epochs of
    sets and deletions the hash is one again; and after any further operations the next flush
    leaves the rows of the fields. All the while the replies and the count are right. -/
theorem hash_deltas_exact (hd : h.Durable rows) (steps : List (List HashOp)) (ops : List HashOp) :
    ∃ h' rows', epochs steps h rows = (h', rows') ∧ h'.Durable rows' ∧
      (ops.foldl apply h').flushRows rows' = (ops.foldl apply h').rows ∧
      (ops.foldl apply h').cleaned.Durable ((ops.foldl apply h').flushRows rows') ∧
      (ops.foldl apply h').fieldCount = (ops.foldl apply h').fields.keys.length ∧
      ∀ field value, ((ops.foldl apply h').perform (.set field value)).2 =
          (if maxFieldSize < field.length then .error (.fieldTooLong field.length)
            else .ok (decide (field ∉ (ops.foldl apply h').fields))) ∧
        ((ops.foldl apply h').perform (.del field)).2 =
          .ok (decide (field ∈ (ops.foldl apply h').fields)) := by
  have hd' := hd.epochs steps
  obtain ⟨ht, hs⟩ := foldl_apply ops hd'.tracks hd'.toSound
  exact ⟨_, _, rfl, hd', ht.flushRows, ht.durable_cleaned hs, hs.counted, hs.replies⟩

theorem durable_create : create.Durable fun _ => none :=
  ⟨sound_create, fun f x hx => absurd hx (by simp), rfl, rfl⟩

/-- From two durable fields: one is set anew, deleted and set again over two flushes, the other is
    left alone. -/
theorem hash_deltas_exact_two_fields :
    let x := epochs [[.set [102] [1], .set [103] [7]]] create fun _ => none
    ∃ h' rows', epochs [[.set [102] [2]], [.del [102]]] x.1 x.2 = (h', rows') ∧
      h'.Durable rows' ∧
      ([.set [102] [3]].foldl apply h').flushRows rows' = ([.set [102] [3]].foldl apply h').rows ∧
      ([.set [102] [3]].foldl apply h').cleaned.Durable
        (([.set [102] [3]].foldl apply h').flushRows rows') ∧
      ([.set [102] [3]].foldl apply h').fieldCount =
        ([.set [102] [3]].foldl apply h').fields.keys.length ∧
      ∀ field value, (([.set [102] [3]].foldl apply h').perform (.set field value)).2 =
          (if maxFieldSize < field.length then .error (.fieldTooLong field.length)
            else .ok (decide (field ∉ ([.set [102] [3]].foldl apply h').fields))) ∧
        (([.set [102] [3]].foldl apply h').perform (.del field)).2 =
          .ok (decide (field ∈ ([.set [102] [3]].foldl apply h').fields)) :=
  hash_deltas_exact (durable_create.epochs _) _ _

end Hash

/-! ## In the flush of the keyspace -/

namespace Session

variable {s : Session} {D D' : Tables} {k : Key} {e : Entry}

/-- What `run_flush` does to the rows of a dirty list, and to the list. -/
theorem list_runFlush (h : executePlans s.flushArgs D = .ok D') (hk : k ∈ s.dirty)
    (he : s.store.lookup k = some e) {l : ListValue} (hv : e.content = some (.list l))
    (ha : l.Accounts (D.listItems k)) :
    l.flushRows (D.listItems k) = some (D'.listItems k) ∧
      ∃ e', (s.runFlush D).1.store.lookup k = some e' ∧ e'.content = some (.list l.cleaned) := by
  refine ⟨?_, e.collect.clear, ?_, ?_⟩
  · obtain ⟨rows', hflush, hrows⟩ := ha.flushRows
    rw [hflush]
    congr 1
    funext o
    rcases itemRow_flush (executePlans_ok h).2 hk he hv ha.ordered o with
      ⟨x, hx, hrow⟩ | ⟨hclean, hrow⟩
    · rw [hrow, (hrows o (some x)).2 ⟨_, hx, rfl, rfl⟩]
    · rw [hrow]
      by_cases hn : ∃ n ∈ l.nodes, n.ord = o
      · obtain ⟨n, hn, rfl⟩ := hn
        obtain ⟨hdur, hnot⟩ := ha.durable n hn (hclean n hn rfl)
        rw [if_neg hnot, hdur, (hrows n.ord (some n.value)).2 ⟨n, hn, rfl, rfl⟩]
      · have hnone : rows' o = none := Option.eq_none_iff_forall_ne_some.2 fun x hx => by
          obtain ⟨n, hn', hno, -⟩ := (hrows o x).1 hx
          exact hn ⟨n, hn', hno⟩
        rw [hnone]
        rcases ha.free o (fun n hn' hno => absurd ⟨n, hn', hno⟩ hn) with h | h <;> simp [h]
  · rw [lookup_runFlush h, he, Option.map_some, if_pos hk]
  · rw [Entry.content_clear_collect, hv]
    rfl

/-- What `run_flush` does to the rows of a dirty hash, and to the hash. -/
theorem hash_runFlush (h : executePlans s.flushArgs D = .ok D') (hk : k ∈ s.dirty)
    (he : s.store.lookup k = some e) {m : Hash} (hv : e.content = some (.hash m))
    (ht : m.Tracks (D.hashFields k)) :
    D'.hashFields k = m.flushRows (D.hashFields k) ∧
      ∃ e', (s.runFlush D).1.store.lookup k = some e' ∧ e'.content = some (.hash m.cleaned) := by
  refine ⟨?_, e.collect.clear, ?_, ?_⟩
  · rw [ht.flushRows]
    funext f
    rw [fieldRow_flush (executePlans_ok h).2 hk he hv, Hash.rows]
    rcases hf : m.fields.lookup f with _ | ⟨x, _ | _⟩
    · rcases ht.absent f hf with h | h <;> simp [h]
    · obtain ⟨hrow, hnot⟩ := (ht.present f _ hf).resolve_left (by simp)
      simp only [if_neg hnot, hrow, Option.map_some]
    · rfl
  · rw [lookup_runFlush h, he, Option.map_some, if_pos hk]
  · rw [Entry.content_clear_collect, hv]
    rfl

end Session

end PgRedis
