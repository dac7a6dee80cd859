import Mathlib.Algebra.Order.BigOperators.Group.List
import Mathlib.Algebra.Order.Group.Nat
import PgRedis.Session.Restore

/-!
# Memory accounting

A hash and a list keep a count of their bytes as they change, in a `Size` that wraps and whose
subtractions are guarded. `MEMORY_USAGE` and `STATS` walk the table and add, for every entry, its
own size and that of its payload: the length of a string, or the count of a hash or a list.

The counts are exact (`Value.Counted`) as long as the bytes of the keyspace fit in the address
space, which they do as all of them are allocated: commands and commits keep them so, and no
subtraction wraps or is skipped (`memory_exact`).
-/

namespace PgRedis

open Lib

/-- The size of a `PgRedisEntry`. -/
def sizeofEntry : UInt64 := 1088

/-- A `Size` as an `int64`. -/
def sizeToInt64 (n : UInt64) : ℤ := Int.bmod n.toNat (2 ^ 64)

/-- What the walks add for the payload of an entry. -/
def Entry.payloadSize (e : Entry) : UInt64 :=
  match e.type, e.value with
  | .string, .str s => byteSize s
  | .hash, .hash h => h.memoryUsage
  | .list, .list l => l.memoryUsage
  | _, _ => 0

/-- `PgRedisStoreStats`. -/
structure Stats where
  keyCount : ℤ
  stringCount : ℤ
  intCount : ℤ
  hashCount : ℤ
  listCount : ℤ
  expiringCount : ℤ
  memoryUsage : ℤ
  deriving DecidableEq, Repr

namespace Stats

/-- No entries. -/
def zero : Stats := ⟨0, 0, 0, 0, 0, 0, 0⟩

/-- An entry counted by `pg_redis_store_collect_stats`. -/
def add (st : Stats) (e : Entry) : Stats where
  keyCount := st.keyCount + 1
  stringCount := if e.type = .string then st.stringCount + 1 else st.stringCount
  intCount := if e.type = .int then st.intCount + 1 else st.intCount
  hashCount := if e.type = .hash then st.hashCount + 1 else st.hashCount
  listCount := if e.type = .list then st.listCount + 1 else st.listCount
  expiringCount := if e.expireAt.isSome then st.expiringCount + 1 else st.expiringCount
  memoryUsage := Int.bmod (st.memoryUsage + (sizeofEntry + e.payloadSize).toNat) (2 ^ 64)

end Stats

namespace Session

/-- `pg_redis_store_memory_usage`. -/
def memoryUsage (s : Session) : UInt64 :=
  s.store.toList.foldl (fun total e => total + sizeofEntry + e.2.payloadSize) 0

/-- `pg_redis_memory_usage`. -/
def memoryUsageReply (s : Session) : ℤ := sizeToInt64 s.memoryUsage

/-- `pg_redis_store_collect_stats`. -/
def collectStats (s : Session) : Stats :=
  s.store.toList.foldl (fun st e => st.add e.2) .zero

/-- `pg_redis_flushall` in session mode: `pg_redis_store_reset`. -/
def flushAll (s : Session) : Session := { s with store := ∅, dirty := [], pendingDeletes := [] }

end Session

/-! ## The bytes of a value -/

/-- The bytes of a hash: its fields, each with its value. -/
def Hash.bytes (h : Hash) : ℕ := h.fields.sum fun _ f => sizeofHashField.toNat + f.value.length

/-- The bytes of a list: its nodes, each with its value. -/
def ListValue.bytes (l : ListValue) : ℕ :=
  (l.nodes.map fun n => sizeofListNode.toNat + n.value.length).sum

namespace Value

/-- The bytes of a value besides its entry. -/
def bytes : Value → ℕ
  | str (some s) => s.length
  | str none => 0
  | int _ => 0
  | hash h => h.bytes
  | list l => l.bytes

/-- The count a hash or a list keeps is exact. -/
def Counted : Value → Prop
  | hash h => h.memoryUsage.toNat = h.bytes
  | list l => l.memoryUsage.toNat = l.bytes
  | _ => True

end Value

/-- The bytes of the payload of an entry. -/
def Entry.bytes (e : Entry) : ℕ := (e.content.map Value.bytes).getD 0

/-- The bytes of the keyspace: every entry with its payload. -/
def Session.bytes (s : Session) : ℕ := s.store.sum fun _ e => sizeofEntry.toNat + e.bytes

/-- The bytes fit in the half of the address space that is that of a process. -/
def Session.Fits (s : Session) : Prop := s.bytes < 2 ^ 63

instance Session.Fits.decidable (s : Session) : Decidable s.Fits :=
  inferInstanceAs (Decidable (_ < _))

/-- The count of an entry is exact, if it has one. -/
def Entry.Counted (e : Entry) : Prop := ∀ v, e.content = some v → v.Counted

/-- Every count is exact. -/
def Session.Counted (s : Session) : Prop := ∀ k e, s.store.lookup k = some e → e.Counted

theorem bmod_of_lt {n : ℕ} (h : n < 2 ^ 63) : Int.bmod n (2 ^ 64) = n :=
  Int.bmod_eq_of_le (by omega) (by omega)

theorem toNat_byteSize {b : Bytes} (h : b.length < 2 ^ 64) : (byteSize b).toNat = b.length :=
  UInt64.toNat_ofNat_of_lt' h

/-! ## Hashes -/

namespace Hash

variable {h : Hash} {field : Field} {f : HashField}

theorem bytes_set (h : Hash) (field : Field) (value : Bytes) : (h.set field value).1.bytes =
    sizeofHashField.toNat + value.length +
      Htab.sum (fun _ f => sizeofHashField.toNat + f.value.length) (h.fields.erase field) := by
  rw [bytes, fields_set, Htab.sum_insert]

theorem bytes_erase (hl : h.fields.lookup field = some f) :
    Htab.sum (fun _ f => sizeofHashField.toNat + f.value.length) (h.fields.erase field) +
      (sizeofHashField.toNat + f.value.length) = h.bytes :=
  Htab.sum_erase hl

/-- The guards of a deletion hold. -/
theorem guards_of_counted (hc : h.memoryUsage.toNat = h.bytes)
    (hl : h.fields.lookup field = some f) : (byteSize f.value).toNat = f.value.length ∧
      byteSize f.value ≤ h.memoryUsage ∧
      sizeofHashField ≤ h.memoryUsage - byteSize f.value := by
  have hsum := bytes_erase hl
  have hlt := h.memoryUsage.toNat_lt
  have hlen : (byteSize f.value).toNat = f.value.length := toNat_byteSize (by omega)
  have hle : byteSize f.value ≤ h.memoryUsage := UInt64.le_iff_toNat_le.2 (by omega)
  refine ⟨hlen, hle, UInt64.le_iff_toNat_le.2 ?_⟩
  rw [UInt64.toNat_sub_of_le _ _ hle]
  omega

theorem counted_set (hc : h.memoryUsage.toNat = h.bytes) {value : Bytes}
    (hfit : (h.set field value).1.bytes < 2 ^ 64) :
    (h.set field value).1.memoryUsage.toNat = (h.set field value).1.bytes := by
  rw [bytes_set] at hfit ⊢
  have hlen : (byteSize value).toNat = value.length := toNat_byteSize (by omega)
  rw [set]
  cases hl : h.fields.lookup field with
  | none =>
    rw [Htab.erase_of_lookup_none hl, ← bytes] at hfit ⊢
    simp only [UInt64.toNat_add, hlen, hc]
    omega
  | some f =>
    obtain ⟨hf, hle, -⟩ := guards_of_counted hc hl
    have hsum := bytes_erase hl
    simp only [UInt64.toNat_add, UInt64.toNat_sub_of_le _ _ hle, hlen, hf, hc]
    omega

theorem counted_del (hc : h.memoryUsage.toNat = h.bytes) (hdel : (h.del field).2 = true) :
    (h.del field).1.memoryUsage.toNat = (h.del field).1.bytes := by
  rw [bytes, (fields_tombstones_del hdel).1]
  have hlen : ¬maxFieldSize < field.length := fun hlen => by
    rw [del, if_pos hlen] at hdel
    exact absurd hdel (by simp)
  cases hl : h.fields.lookup field with
  | none =>
    rw [del_snd, hl] at hdel
    exact absurd hdel (by simp)
  | some f =>
    obtain ⟨hf, hle, hle'⟩ := guards_of_counted hc hl
    have hsum := bytes_erase hl
    rw [del, if_neg hlen, hl]
    simp only [ge_iff_le, if_pos hle, if_pos hle', UInt64.toNat_sub_of_le _ _ hle',
      UInt64.toNat_sub_of_le _ _ hle, hf, hc]
    omega

end Hash

/-! ## Lists -/

namespace ListValue

variable {l l' : ListValue} {side : Side} {v : Bytes}

theorem memoryUsage_push : (push side l v).memoryUsage =
    l.memoryUsage + (sizeofListNode + byteSize v) := by
  cases side <;> rfl

theorem bytes_push : (push side l v).bytes =
    sizeofListNode.toNat + v.length + l.bytes := by
  rw [bytes, nodes_push]
  cases side with
  | left => rfl
  | right =>
    rw [atEnd, List.map_append, List.sum_append, List.map_singleton, List.sum_singleton,
      Nat.add_comm]
    rfl

theorem memoryUsage_of_pop (h : pop side l = some (v, l')) : l'.memoryUsage =
    if l.memoryUsage ≥ sizeofListNode + byteSize v then
      l.memoryUsage - (sizeofListNode + byteSize v)
    else l.memoryUsage := by
  obtain ⟨n, rfl, -, -, -, hmem⟩ := pop_eq_some h
  exact hmem

theorem bytes_of_pop (h : pop side l = some (v, l')) :
    l.bytes = sizeofListNode.toNat + v.length + l'.bytes := by
  obtain ⟨n, rfl, -, hnodes⟩ := exists_of_pop h
  rw [bytes, hnodes]
  cases side with
  | left => rfl
  | right =>
    rw [atEnd, List.map_append, List.sum_append, List.map_singleton, List.sum_singleton,
      Nat.add_comm]
    rfl

/-- The guard of a pop holds. -/
theorem guard_of_counted (hc : l.memoryUsage.toNat = l.bytes) {n : ListNode} (hn : n ∈ l.nodes) :
    (sizeofListNode + byteSize n.value).toNat = sizeofListNode.toNat + n.value.length ∧
      sizeofListNode + byteSize n.value ≤ l.memoryUsage := by
  have hle : sizeofListNode.toNat + n.value.length ≤ l.bytes :=
    List.le_sum_of_mem (List.mem_map_of_mem hn)
  have hlt := l.memoryUsage.toNat_lt
  have hsize : (sizeofListNode + byteSize n.value).toNat =
      sizeofListNode.toNat + n.value.length := by
    rw [UInt64.toNat_add, toNat_byteSize (by omega)]
    omega
  exact ⟨hsize, UInt64.le_iff_toNat_le.2 (by omega)⟩

theorem counted_push (hc : l.memoryUsage.toNat = l.bytes)
    (hfit : (push side l v).bytes < 2 ^ 64) :
    (push side l v).memoryUsage.toNat = (push side l v).bytes := by
  rw [bytes_push] at hfit ⊢
  rw [memoryUsage_push, UInt64.toNat_add, UInt64.toNat_add, toNat_byteSize (by omega), hc]
  omega

theorem counted_pop (hc : l.memoryUsage.toNat = l.bytes) (h : pop side l = some (v, l')) :
    l'.memoryUsage.toNat = l'.bytes := by
  obtain ⟨n, rfl, -, hnodes⟩ := exists_of_pop h
  have hbytes := bytes_of_pop h
  obtain ⟨hsize, hle⟩ := guard_of_counted hc (hnodes ▸ mem_atEnd.2 (.inl rfl))
  rw [memoryUsage_of_pop h, if_pos hle, UInt64.toNat_sub_of_le _ _ hle, hsize, hc]
  omega

end ListValue

/-! ## Entries -/

namespace Value

variable {v v' : Value}

theorem counted_of_not_collection (h : v.isCollection = false) : v.Counted := by
  cases v with
  | str | int => trivial
  | hash | list => exact absurd h (by simp [isCollection])

theorem counted_made (h : v.Made) (hfit : v.bytes < 2 ^ 64) : v.Counted := by
  cases h with
  | str | int => trivial
  | hash f x => exact Hash.counted_set rfl hfit
  | list side x => exact ListValue.counted_push rfl hfit

/-- An edit keeps the count exact. -/
theorem Counted.edit (hc : v.Counted) (h : v.Edit v') (hfit : v'.bytes < 2 ^ 64) :
    v'.Counted := by
  cases h with
  | keep => exact hc
  | scalar _ h' => exact counted_of_not_collection h'
  | hset h f x => exact Hash.counted_set hc hfit
  | hdel h f hdel => exact Hash.counted_del hc hdel
  | push side l x => exact ListValue.counted_push hc hfit
  | pop hp => exact ListValue.counted_pop hc hp

end Value

namespace Entry

variable {e : Entry}

/-- What a flush clears of an entry is not counted. -/
theorem Counted.collect (h : e.Counted) : e.collect.Counted := by
  obtain ⟨type, value, x, n, b⟩ := e
  cases type <;> cases value <;> first
    | exact h
    | skip
  case hash.hash t =>
    rintro _ ⟨⟩
    refine (h _ rfl).trans ?_
    simp only [Hash.bytes, Htab.sum_mapValues]
  case list.list l =>
    rintro _ ⟨⟩
    refine (h _ rfl).trans ?_
    rw [ListValue.bytes, ListValue.bytes, List.map_map]
    rfl

theorem Counted.clear (h : e.Counted) : e.clear.Counted := by
  obtain ⟨type, value, x, n, b⟩ := e
  cases type <;> cases value <;> first
    | exact h
    | skip
  case hash.hash t =>
    rintro _ ⟨⟩
    exact h (.hash t) rfl
  case list.list l =>
    rintro _ ⟨⟩
    exact h (.list l) rfl

/-- What the walks add is the bytes of the payload. -/
theorem Counted.toNat_payloadSize (h : e.Counted) (hfit : e.bytes < 2 ^ 64) :
    e.payloadSize.toNat = e.bytes := by
  obtain ⟨type, value, x, n, b⟩ := e
  cases type <;> cases value <;> first
    | rfl
    | skip
  case string.word i =>
    -- The null pointer of a fresh string.
    have hzero : ∀ o : Option Value, (∀ v, o = some v → v = .str none) →
        0 = (o.map Value.bytes).getD 0 := by
      rintro (_ | v) hv
      · rfl
      · rw [hv v rfl]
        rfl
    refine hzero _ fun v hv => ?_
    rw [content] at hv
    split at hv <;> simp_all
  case string.str s => exact toNat_byteSize hfit
  case hash.hash t => exact h _ rfl
  case list.list l => exact h _ rfl

end Entry

/-! ## The keyspace -/

namespace Session

variable {s s' : Session} {k : Key} {e : Entry} {v : Value}

theorem bytes_le (h : s.store.lookup k = some e) : sizeofEntry.toNat + e.bytes ≤ s.bytes :=
  Htab.le_sum (f := fun _ e => sizeofEntry.toNat + e.bytes) h

theorem Fits.value (h : s.Fits) (he : s.store.lookup k = some e) (hv : e.content = some v) :
    v.bytes < 2 ^ 64 := by
  have hle := bytes_le he
  have hbytes : e.bytes = v.bytes := by rw [Entry.bytes, hv]; rfl
  rw [Fits] at h
  omega

/-- What a command writes has an exact count if it fits. -/
theorem Counted.write (hs : s.Counted) {key : Key} (hv : e.content = some v)
    (hfit : (s.write key e).Fits) (h : v.bytes < 2 ^ 64 → v.Counted) :
    (s.write key e).Counted := by
  intro k e' he' w hw
  have hfit' := hfit.value he' hw
  rw [lookup_write] at he'
  split_ifs at he' with hk
  · obtain rfl := Option.some.inj he'
    obtain rfl : v = w := Option.some.inj (hv.symm.trans hw)
    exact h hfit'
  · exact hs k e' he' w hw

theorem Counted.outcome {now : ℤ} {c : Command} (hs : s.Counted) (h : Outcome now c s s')
    (hfit : s'.Fits) : s'.Counted := by
  cases h with
  | same => exact hs
  | removed he =>
    rw [remove_of_lookup he]
    intro k e hl
    rw [Htab.lookup_erase_eq] at hl
    split_ifs at hl
    exact hs k e hl
  | started _ hv hmade _ => exact hs.write hv hfit fun hb => Value.counted_made hmade hb
  | edited he hv hv' hedit _ =>
    exact hs.write hv' hfit fun hb => (hs _ _ he _ hv).edit hedit hb

theorem Counted.call (hs : s.Counted) (ht : s.WellTyped) (a : Call) (hfit : (s.call a).Fits) :
    (s.call a).Counted := by
  rcases call_cases ht a with h | ⟨-, h⟩
  · rwa [h]
  · exact hs.outcome h hfit

theorem Counted.mapEntries {ks : List Key} {f : Entry → Entry}
    (hf : ∀ e, e.Counted → (f e).Counted) (hs : s.Counted) : (s.mapEntries ks f).Counted := by
  intro k e he
  rw [Session.mapEntries, Htab.lookup_mapValues] at he
  obtain ⟨e', he', rfl⟩ := Option.map_eq_some_iff.1 he
  split_ifs
  · exact hf e' (hs k e' he')
  · exact hs k e' he'

theorem Counted.runFlush (hs : s.Counted) (D : Tables) : (s.runFlush D).1.Counted := by
  have htaken : (s.mapEntries s.dirty Entry.collect).Counted :=
    hs.mapEntries fun _ he => he.collect
  rw [Session.runFlush]
  split
  · exact htaken
  · exact Counted.mapEntries (fun _ he => he.clear) htaken

/-! ## The walks -/

theorem toNat_foldl_usage {es : List (Key × Entry)} (hc : ∀ e ∈ es, e.2.Counted) {total : UInt64}
    (hfit : total.toNat + (es.map fun e => sizeofEntry.toNat + e.2.bytes).sum < 2 ^ 64) :
    (es.foldl (fun total e => total + sizeofEntry + e.2.payloadSize) total).toNat =
      total.toNat + (es.map fun e => sizeofEntry.toNat + e.2.bytes).sum := by
  induction es generalizing total with
  | nil => rfl
  | cons e es ih =>
    rw [List.forall_mem_cons] at hc
    rw [List.map_cons, List.sum_cons] at hfit ⊢
    have hpay := hc.1.toNat_payloadSize (by omega)
    have htotal : (total + sizeofEntry + e.2.payloadSize).toNat =
        total.toNat + (sizeofEntry.toNat + e.2.bytes) := by
      rw [UInt64.toNat_add, UInt64.toNat_add, hpay]
      omega
    rw [List.foldl_cons, ih hc.2 (by omega), htotal]
    omega

theorem memoryUsage_foldl_add {es : List (Key × Entry)} (hc : ∀ e ∈ es, e.2.Counted) {st : Stats}
    {n : ℕ} (hst : st.memoryUsage = n)
    (hfit : n + (es.map fun e => sizeofEntry.toNat + e.2.bytes).sum < 2 ^ 63) :
    (es.foldl (fun st e => st.add e.2) st).memoryUsage =
      (n + (es.map fun e => sizeofEntry.toNat + e.2.bytes).sum : ℕ) := by
  induction es generalizing st n with
  | nil => exact hst
  | cons e es ih =>
    rw [List.forall_mem_cons] at hc
    rw [List.map_cons, List.sum_cons] at hfit ⊢
    have hpay := hc.1.toNat_payloadSize (by omega)
    have hadd : (st.add e.2).memoryUsage = (n + (sizeofEntry.toNat + e.2.bytes) : ℕ) := by
      rw [Stats.add]
      simp only [hst, UInt64.toNat_add, hpay]
      rw [← Int.natCast_add, bmod_of_lt (by omega), Nat.mod_eq_of_lt (by omega)]
    rw [List.foldl_cons, ih hc.2 hadd (by omega)]
    congr 1
    omega

/-! ## Runs -/

/-- The steps of a backend in session mode: a command, `FLUSHALL`, the flush of a commit. -/
inductive MemoryAction
  | call (c : Call)
  | flushAll
  | flush (D : Tables)

/-- A step on the keyspace. -/
def memoryStep (s : Session) : MemoryAction → Session
  | .call c => s.call c
  | .flushAll => s.flushAll
  | .flush D => (s.runFlush D).1

/-- The accounting is exact. -/
structure MemoryExact (s : Session) : Prop where
  /-- The count of a hash is that of its fields, and no guard of a deletion fails. -/
  hash : ∀ k e h, s.store.lookup k = some e → e.type = .hash → e.value = .hash h →
    h.memoryUsage.toNat = h.bytes ∧ ∀ field f, h.fields.lookup field = some f →
      byteSize f.value ≤ h.memoryUsage ∧ sizeofHashField ≤ h.memoryUsage - byteSize f.value
  /-- The count of a list is that of its nodes, and no guard of a pop fails. -/
  list : ∀ k e l, s.store.lookup k = some e → e.type = .list → e.value = .list l →
    l.memoryUsage.toNat = l.bytes ∧ ∀ n ∈ l.nodes,
      sizeofListNode + byteSize n.value ≤ l.memoryUsage
  usage : s.memoryUsageReply = s.bytes
  stats : s.collectStats.memoryUsage = s.bytes
  zero : s.memoryUsageReply = 0 ↔ s.store = ∅

theorem bytes_eq_zero : s.bytes = 0 ↔ s.store = ∅ := by
  constructor
  · intro hzero
    refine AList.ext (List.eq_nil_iff_forall_not_mem.2 fun x hx => ?_)
    have hle := bytes_le (AList.mem_lookup_iff.2 hx)
    have hpos : 0 < sizeofEntry.toNat := by decide
    omega
  · intro hempty
    rw [bytes, hempty]
    rfl

theorem Counted.memoryExact (hs : s.Counted) (hfit : s.Fits) : s.MemoryExact := by
  have hcount : ∀ e ∈ s.store.toList, e.2.Counted := fun e he =>
    hs e.1 e.2 (Htab.mem_toList.1 he)
  have husage : s.memoryUsage.toNat = s.bytes := by
    have hfold := @toNat_foldl_usage _ hcount 0
    rw [UInt64.toNat_zero, Nat.zero_add] at hfold
    exact hfold (Nat.lt_trans hfit (by omega))
  have hreply : s.memoryUsageReply = s.bytes := by
    have hsize : sizeToInt64 s.memoryUsage = Int.bmod s.bytes (2 ^ 64) :=
      congrArg (fun n : ℕ => Int.bmod n (2 ^ 64)) husage
    exact hsize.trans (bmod_of_lt hfit)
  refine ⟨?_, ?_, hreply, ?_, ?_⟩
  · intro k e h he ht hv
    have hc : h.memoryUsage.toNat = h.bytes := hs k e he (.hash h) (by rw [Entry.content, ht, hv])
    exact ⟨hc, fun field f hf => (Hash.guards_of_counted hc hf).2⟩
  · intro k e l he ht hv
    have hc : l.memoryUsage.toNat = l.bytes := hs k e he (.list l) (by rw [Entry.content, ht, hv])
    exact ⟨hc, fun n hn => (ListValue.guard_of_counted hc hn).2⟩
  · refine (memoryUsage_foldl_add hcount (n := 0) rfl ?_).trans (by rw [Nat.zero_add]; rfl)
    rw [Nat.zero_add]
    exact hfit
  · rw [hreply, ← bytes_eq_zero]
    exact Int.natCast_eq_zero

/-- The keyspace is well typed and counted, and fits. -/
structure Accounted (s : Session) : Prop where
  typed : s.WellTyped
  counted : s.Counted
  fits : s.Fits

theorem accounted_init : init.Accounted :=
  ⟨fun _ _ he => absurd he (by simp [init]), fun _ _ he => absurd he (by simp [init]), by decide⟩

/-- Every step that leaves a keyspace that fits keeps it accounted. -/
theorem Accounted.step (h : s.Accounted) (a : MemoryAction) (hfit : (s.memoryStep a).Fits) :
    (s.memoryStep a).Accounted := by
  cases a with
  | call c => exact ⟨h.typed.call c, h.counted.call h.typed c hfit, hfit⟩
  | flushAll =>
    exact ⟨fun _ _ he => absurd he (by simp [memoryStep, flushAll]),
      fun _ _ he => absurd he (by simp [memoryStep, flushAll]), hfit⟩
  | flush D => exact ⟨h.typed.runFlush D, h.counted.runFlush D, hfit⟩

/-- In every state reached from an empty keyspace by commands, commits and `FLUSHALL`, with the
    bytes of the keyspace always fitting in the address space, the accounting is exact. -/
theorem memory_exact (h : Reachable (fun s a => some (memoryStep s a))
    (fun s a => (memoryStep s a).Fits) init s) : s.MemoryExact := by
  have hs : s.Accounted := h.invariant accounted_init fun s a s' hs hfit hst => by
    obtain rfl := Option.some.inj hst
    exact hs.step a hfit
  exact hs.counted.memoryExact hs.fits

/-- A field set, overwritten and deleted, with another left in the hash, and of two elements pushed
    one popped. -/
def setAndDelete : List MemoryAction :=
  [.call ⟨⟨0, 0⟩, 0, 0, .hset [107] [102] [118]⟩, .call ⟨⟨0, 0⟩, 0, 0, .hset [107] [103] [120]⟩,
    .call ⟨⟨0, 0⟩, 0, 0, .hset [107] [102] [118, 119]⟩, .call ⟨⟨0, 0⟩, 0, 0, .hdel [107] [102]⟩,
    .call ⟨⟨0, 0⟩, 0, 0, .push .right [108] [97, 98]⟩,
    .call ⟨⟨0, 0⟩, 0, 0, .push .right [108] [99]⟩, .call ⟨⟨0, 0⟩, 0, 0, .pop .left [108]⟩]

/-- After it `MEMORY_USAGE` is the size of two entries, of a field with its value, and of a node
    with its value. -/
theorem memory_exact_deleted : (setAndDelete.foldl memoryStep init).memoryUsageReply =
    2 * 1088 + (1056 + 1) + (sizeofListNode.toNat + 1) := by
  have hmeets : Meets (fun s a => some (memoryStep s a)) (fun s a => (memoryStep s a).Fits) init
      setAndDelete := by
    simp only [setAndDelete, Meets, Option.some.injEq, forall_eq', and_true]
    decide
  exact (memory_exact (.of_run .init hmeets (run_some _ _ _))).usage

end Session

end PgRedis
