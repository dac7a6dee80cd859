import PgRedis.SharedStore.Command

/-!
# The layout of events

How an event is laid out in a slot of the ring (`PgRedisDirtyEvent`): its key, field
and value follow each other in one buffer, in the slot if they take at most 256 bytes
together, else in a chunk of shared memory. Their lengths are kept in 16 bits each.

`encode` stands for the six encoders, `toEvent` for what the drain reads back. Keys and
fields are read back as they were written, but of a value only what its length in 16
bits counts (`toEvent_encode`): a value is read back exactly if it has at most 65535
bytes (`decode_encode_iff`).
-/

namespace PgRedis

/-- `PG_REDIS_DIRTY_EVENT_INLINE_BYTES`. -/
def inlineBytes : ℕ := 256

/-- `PgRedisDirtyEventType`. -/
inductive EventType
  | keyUpsert
  | keyDelete
  | hashFieldUpsert
  | hashFieldDelete
  | listItemInsert
  | listItemDelete
  deriving DecidableEq, Repr

/-- Where the bytes of an event are: in the slot, or in a chunk with its content. -/
inductive EventBytes
  | inline (buf : Bytes)
  | spill (chunk : ℕ) (content : Bytes)
  deriving DecidableEq, Repr

/-- `PgRedisDirtyEvent` but for the state of the slot and its time stamp. -/
structure WireEvent where
  type : EventType
  valueType : ValueType
  keyLen : UInt16
  fieldLen : UInt16
  ord : ℤ
  expireAt : Option ℤ
  version : UInt64
  valueLen : UInt16
  bytes : EventBytes
  deriving DecidableEq, Repr

/-! ## Encoding -/

/-- The arguments of the encoders, one constructor for each of them. -/
inductive EncodeArgs
  | keyUpsert (key : Key) (e : Entry) (tlv : Bytes)
  | keyDelete (key : Key)
  | hashFieldUpsert (key : Key) (field : Field) (value : Bytes)
  | hashFieldDelete (key : Key) (field : Field)
  | listItemInsert (key : Key) (ord : ℤ) (value : Bytes)
  | listItemDelete (key : Key) (ord : ℤ)

namespace EncodeArgs

/-- The key of an event. -/
def key : EncodeArgs → Key
  | .keyUpsert k _ _ | .keyDelete k | .hashFieldUpsert k _ _ | .hashFieldDelete k _
  | .listItemInsert k _ _ | .listItemDelete k _ => k

/-- The field of an event, empty if it has none. -/
def field : EncodeArgs → Field
  | .hashFieldUpsert _ f _ | .hashFieldDelete _ f => f
  | _ => []

/-- The value of an event, empty if it has none. -/
def value : EncodeArgs → Bytes
  | .keyUpsert _ _ v | .hashFieldUpsert _ _ v | .listItemInsert _ _ v => v
  | _ => []

/-- `event_inline_write`: the three parts over the start of the buffer `buf`, or in a new
    chunk; `none` if it cannot be allocated. -/
def inlineWrite (ok : Bool) (buf part₁ part₂ part₃ : Bytes) (d : Dsa) : Dsa × Option EventBytes :=
  let parts := part₁ ++ part₂ ++ part₃
  if parts.length > inlineBytes then
    if ok then (d.palloc.2, some (.spill d.palloc.1 parts)) else (d, none)
  else (d, some (.inline (parts ++ buf.drop parts.length)))

/-- The event before its bytes are written, as each of the encoders fills it. -/
def header (bytes : EventBytes) : EncodeArgs → WireEvent
  | .keyUpsert k e tlv =>
    ⟨.keyUpsert, e.type, .ofNat k.length, 0, 0, e.expireAt, e.version, .ofNat tlv.length, bytes⟩
  | .keyDelete k => ⟨.keyDelete, .string, .ofNat k.length, 0, 0, none, 0, 0, bytes⟩
  | .hashFieldUpsert k f v =>
    ⟨.hashFieldUpsert, .hash, .ofNat k.length, .ofNat f.length, 0, none, 0, .ofNat v.length, bytes⟩
  | .hashFieldDelete k f =>
    ⟨.hashFieldDelete, .hash, .ofNat k.length, .ofNat f.length, 0, none, 0, 0, bytes⟩
  | .listItemInsert k o v =>
    ⟨.listItemInsert, .list, .ofNat k.length, 0, o, none, 0, .ofNat v.length, bytes⟩
  | .listItemDelete k o => ⟨.listItemDelete, .list, .ofNat k.length, 0, o, none, 0, 0, bytes⟩

/-- `pg_redis_event_encode_*` into an event whose buffer holds `buf`: the shared memory,
    and the event; `none` if a chunk cannot be allocated. -/
def encode (ok : Bool) (buf : Bytes) (d : Dsa) (a : EncodeArgs) : Dsa × Option WireEvent :=
  match inlineWrite ok buf a.key a.field a.value d with
  | (d, none) => (d, none)
  | (d, some bytes) => (d, some (a.header bytes))

/-- The event that the arguments stand for. -/
def event : EncodeArgs → DirtyEvent
  | .keyUpsert k e tlv =>
    .keyUpsert k e.type tlv e.expireAt (Int.bmod e.version.toNat (2 ^ 64))
  | .keyDelete k => .keyDelete k
  | .hashFieldUpsert k f v => .hashFieldUpsert k f v
  | .hashFieldDelete k f => .hashFieldDelete k f
  | .listItemInsert k o v => .listItemInsert k o v
  | .listItemDelete k o => .listItemDelete k o

end EncodeArgs

/-! ## Decoding -/

namespace WireEvent

/-- `event_payload_base`: the bytes from the base on. -/
def payloadBase (w : WireEvent) : Bytes :=
  match w.bytes with
  | .inline buf => buf
  | .spill _ content => content

/-- `pg_redis_event_decode_key`. -/
def decodeKey (w : WireEvent) : Bytes := w.payloadBase.take w.keyLen.toNat

/-- `pg_redis_event_decode_field`. -/
def decodeField (w : WireEvent) : Bytes :=
  (w.payloadBase.drop w.keyLen.toNat).take w.fieldLen.toNat

/-- `pg_redis_event_decode_value`. -/
def decodeValue (w : WireEvent) : Bytes :=
  (w.payloadBase.drop (w.keyLen.toNat + w.fieldLen.toNat)).take w.valueLen.toNat

/-- The event as `pg_redis_persistence_async_drain` decodes it. -/
def toEvent (w : WireEvent) : DirtyEvent :=
  match w.type with
  | .keyUpsert => .keyUpsert w.decodeKey w.valueType w.decodeValue w.expireAt
      (Int.bmod w.version.toNat (2 ^ 64))
  | .keyDelete => .keyDelete w.decodeKey
  | .hashFieldUpsert => .hashFieldUpsert w.decodeKey w.decodeField w.decodeValue
  | .hashFieldDelete => .hashFieldDelete w.decodeKey w.decodeField
  | .listItemInsert => .listItemInsert w.decodeKey w.ord w.decodeValue
  | .listItemDelete => .listItemDelete w.decodeKey w.ord

end WireEvent

/-- An event with what is left of its value. -/
def DirtyEvent.clipped : DirtyEvent → DirtyEvent
  | .keyUpsert k t v x version => .keyUpsert k t (clip v) x version
  | .hashFieldUpsert k f v => .hashFieldUpsert k f (clip v)
  | .listItemInsert k o v => .listItemInsert k o (clip v)
  | ev => ev

/-- The arguments with which `pg_redis_mark_dirty` calls the encoders. -/
def Entry.encodeArgs (key : Key) (e : Entry) : List EncodeArgs :=
  .keyUpsert key e (e.encodeValue.getD []) ::
    (e.dirtyFields.map (fun f => .hashFieldUpsert key f.1 f.2) ++
      e.tombstones.map (.hashFieldDelete key) ++
      e.pendingInserts.map (fun n => .listItemInsert key n.1 n.2) ++
      e.pendingDeleteOrds.map (.listItemDelete key))

/-- The events of a copy are what is left of those it asks for. -/
theorem Entry.events_eq_clipped (key : Key) (e : Entry) :
    e.events key = (e.encodeArgs key).map fun a => a.event.clipped := by
  simp only [events, encodeArgs, List.map_cons, List.map_append, List.map_map]
  rfl

/-! ## What is read back -/

namespace EncodeArgs

variable {a : EncodeArgs} {ok : Bool} {buf : Bytes} {d d' : Dsa} {w : WireEvent}

/-- The lengths are those of the parts, in 16 bits. -/
theorem lengths_header (bytes : EventBytes) :
    (a.header bytes).keyLen = .ofNat a.key.length ∧
      (a.header bytes).fieldLen = .ofNat a.field.length ∧
      (a.header bytes).valueLen = .ofNat a.value.length := by
  cases a <;> exact ⟨rfl, rfl, rfl⟩

theorem payloadBase_header (bytes : EventBytes) :
    (a.header bytes).payloadBase = match bytes with
      | .inline buf => buf
      | .spill _ content => content := by
  cases a <;> rfl

/-- The bytes start with the three parts. -/
theorem exists_of_encode (h : a.encode ok buf d = (d', some w)) :
    ∃ bytes rest, w = a.header bytes ∧
      w.payloadBase = a.key ++ (a.field ++ (a.value ++ rest)) := by
  rw [encode, inlineWrite] at h
  split_ifs at h with hlen hok <;> obtain ⟨-, ⟨⟩⟩ := Prod.mk.inj h
  · refine ⟨_, [], rfl, ?_⟩
    rw [payloadBase_header, List.append_nil, List.append_assoc]
  · refine ⟨_, buf.drop (a.key ++ a.field ++ a.value).length, rfl, ?_⟩
    rw [payloadBase_header, List.append_assoc, List.append_assoc]

variable (hk : a.key.length ≤ maxKeySize) (hf : a.field.length ≤ maxFieldSize)
  (h : a.encode ok buf d = (d', some w))

include hk hf h

/-- Keys and fields are read back as they were written, of values what is left. -/
theorem decode_encode : w.decodeKey = a.key ∧ w.decodeField = a.field ∧
    w.decodeValue = clip a.value := by
  obtain ⟨bytes, rest, rfl, hbase⟩ := exists_of_encode h
  obtain ⟨hkey, hfield, hvalue⟩ := lengths_header (a := a) bytes
  have hk' : (UInt16.ofNat a.key.length).toNat = a.key.length :=
    UInt16.toNat_ofNat_of_lt' (Nat.lt_of_le_of_lt hk (by decide))
  have hf' : (UInt16.ofNat a.field.length).toNat = a.field.length :=
    UInt16.toNat_ofNat_of_lt' (Nat.lt_of_le_of_lt hf (by decide))
  refine ⟨?_, ?_, ?_⟩
  · rw [WireEvent.decodeKey, hbase, hkey, hk', List.take_left]
  · rw [WireEvent.decodeField, hbase, hkey, hfield, hk', hf', List.drop_left, List.take_left]
  · rw [WireEvent.decodeValue, hbase, hkey, hfield, hvalue, hk', hf', ← List.drop_drop,
      List.drop_left, List.drop_left, clip, List.take_append_of_le_length]
    · rfl
    · exact Nat.mod_le _ _

/-- What the drain decodes. -/
theorem toEvent_encode : w.toEvent = a.event.clipped := by
  obtain ⟨hkey, hfield, hvalue⟩ := decode_encode hk hf h
  obtain ⟨bytes, rest, rfl, -⟩ := exists_of_encode h
  rw [WireEvent.toEvent]
  cases a <;>
    simp only [header, event, DirtyEvent.clipped, key, field, value] at hkey hfield hvalue ⊢ <;>
    simp only [hkey, hfield, hvalue]

omit hk hf h in
/-- Nothing is left out of an event exactly if nothing is left out of its value. -/
theorem clipped_event_iff : a.event.clipped = a.event ↔ clip a.value = a.value := by
  cases a <;> simp [event, DirtyEvent.clipped, value, clip]

/-- For every kind of event, every key, field and value: what is decoded is what was
    encoded exactly if the value has at most 65535 bytes. -/
theorem decode_encode_iff :
    (w.decodeKey = a.key ∧ w.decodeField = a.field ∧ w.decodeValue = a.value ∧
      w.toEvent = a.event) ↔ a.value.length ≤ uint16Max := by
  obtain ⟨hkey, hfield, hvalue⟩ := decode_encode hk hf h
  rw [hkey, hfield, hvalue, toEvent_encode hk hf h, clipped_event_iff, clip_eq_self]
  exact ⟨fun h => h.2.2.1, fun h => ⟨rfl, rfl, h, h⟩⟩

end EncodeArgs

/-- A field of a hash, in a slot. -/
theorem decode_hashField :
    let w : WireEvent := ⟨.hashFieldUpsert, .hash, 1, 1, 0, none, 0, 1, .inline [107, 102, 118]⟩
    w.decodeKey = [107] ∧ w.decodeField = [102] ∧ w.decodeValue = [118] ∧
      w.toEvent = .hashFieldUpsert [107] [102] [118] :=
  (@EncodeArgs.decode_encode_iff (.hashFieldUpsert [107] [102] [118]) true [] ⟨0, []⟩ ⟨0, []⟩ _
    (by decide) (by decide) rfl).2 (by decide)

/-- An element of 65536 bytes. -/
def longItem : EncodeArgs := .listItemInsert [107] 0 (List.replicate 65536 120)

/-- A value of 65536 bytes is read back as an empty one. -/
theorem long_value_is_cut :
    ¬∀ (a : EncodeArgs) (ok : Bool) (buf : Bytes) (d d' : Dsa) (w : WireEvent),
      0 < a.key.length → a.key.length ≤ maxKeySize → a.field.length ≤ maxFieldSize →
      a.value.length ≤ 1048576 → a.encode ok buf d = (d', some w) → w.decodeValue = a.value := by
  intro h
  have hlen : longItem.value.length = 65536 := List.length_replicate
  have hbig : (longItem.key ++ longItem.field ++ longItem.value).length > inlineBytes := by
    rw [List.length_append, hlen]
    exact Nat.lt_add_left _ (by decide)
  have henc : ∃ w, longItem.encode true [] ⟨0, []⟩ = ((⟨0, []⟩ : Dsa).palloc.2, some w) := by
    rw [EncodeArgs.encode, EncodeArgs.inlineWrite, if_pos hbig, if_pos rfl]
    exact ⟨_, rfl⟩
  obtain ⟨w, hw⟩ := henc
  have hcut := h longItem true [] ⟨0, []⟩ _ w (by decide) (by decide) (by decide)
    (hlen.trans_le (by decide)) hw
  rw [(EncodeArgs.decode_encode (by decide) (by decide) hw).2.2, clip_eq_self, hlen] at hcut
  exact absurd hcut (by decide)

end PgRedis
