import PgRedis.Durable.Batch
import PgRedis.SharedStore.Cells

/-!
# Tables that hold cells

What the tables should hold of a key, given its cell: a row with the type, the encoded value
and the expiry, the fields of a hash and the values of a list in order, and no other child rows
(`Tables.Shows`). Versions are left out.

The lemmas say what the events of the commands in shared mode do to this relation: an upsert
of a string or an integer leaves the child rows as they are, the two events of `HSET` add a
field, that of `HDEL` takes one away.
-/

namespace PgRedis

open Lib

namespace View

/-- The column `value` of the row. -/
def encode : View → Option Bytes
  | str s => some (encodeString (s.getD []))
  | int i => some (encodeInt i)
  | _ => none

/-- The fields kept as rows of their own. -/
def fields : View → Finmap fun _ : Field => Bytes
  | hash m => m
  | _ => ∅

/-- The list values kept as rows of their own. -/
def items : View → List Bytes
  | list vs => vs
  | _ => []

/-- The value has no child rows. -/
def Childless (v : View) : Prop := v.fields = ∅ ∧ v.items = []

theorem childless_of_scalar {v : View} (h : v.type = .string ∨ v.type = .int) : v.Childless := by
  cases v with
  | str | int => exact ⟨rfl, rfl⟩
  | hash | list => simp [type] at h

end View

theorem Entry.Shows.encodeValue {e : Entry} {c : Cell} (h : e.Shows c) :
    e.encodeValue = c.value.encode := by
  rcases h.cases with ⟨ht, ⟨t, he, hc⟩ | ⟨he, hc⟩⟩ | ⟨i, ht, he, hc⟩ | ⟨ht, m, hc, -⟩ |
    ⟨ht, vs, hc, -⟩
  · rw [Entry.encodeValue, ht, he, hc]
    rfl
  · rw [Entry.encodeValue, ht, he, hc]
    rfl
  · rw [Entry.encodeValue, ht, he, hc]
    rfl
  · rw [Entry.encodeValue, ht, hc]
    rfl
  · rw [Entry.encodeValue, ht, hc]
    rfl

namespace Cell

/-- The columns of the row but for its version. -/
def data (c : Cell) : RowType × Option Bytes × Option ℤ :=
  (.known c.value.type, c.value.encode, c.expireAt)

/-- The fields of a key, none if it is missing. -/
def fieldsOf (o : Option Cell) : Finmap fun _ : Field => Bytes :=
  (o.map fun c => c.value.fields).getD ∅

/-- The list values of a key, none if it is missing. -/
def itemsOf (o : Option Cell) : List Bytes := (o.map fun c => c.value.items).getD []

/-- A missing key, or one whose value has no child rows. -/
def Childless (o : Option Cell) : Prop := fieldsOf o = ∅ ∧ itemsOf o = []

end Cell

namespace Tables

/-- The rows of `k` are those of the cell. -/
structure Shows (D : Tables) (k : Key) (o : Option Cell) : Prop where
  row : (D.store k).map StoreRow.data = o.map Cell.data
  fields : ∀ f, D.hashFields k f = ((Cell.fieldsOf o).lookup f).map some
  items : InOrder (D.listItems k) (Cell.itemsOf o)

variable {D D' : Tables} {k : Key} {o o' : Option Cell}

/-- The rows tell whether the key is there. -/
theorem Shows.isSome (h : D.Shows k o) : (D.store k).isSome = o.isSome := by
  rw [← Option.isSome_map (f := StoreRow.data), h.row, Option.isSome_map]

/-- Empty tables. -/
theorem shows_empty (k : Key) : empty.Shows k none :=
  ⟨rfl, fun _ => rfl, [], .nil, fun _ => iff_of_false List.not_mem_nil (by simp [empty]), rfl⟩

/-- Rows untouched. -/
theorem Shows.congr (h : D.Shows k o) (hrow : D'.store k = D.store k)
    (hfields : ∀ f, D'.hashFields k f = D.hashFields k f)
    (hitems : ∀ i, D'.listItems k i = D.listItems k i) : D'.Shows k o where
  row := hrow ▸ h.row
  fields f := (hfields f).trans (h.fields f)
  items := by
    rw [funext hitems]
    exact h.items

/-- A key that is gone but for its rows. -/
theorem Shows.of_removed (h : D.Shows k o) : D.Shows k none ↔ o = none := by
  constructor
  · intro h'
    have hsome := h.isSome.symm.trans h'.isSome
    simpa using hsome
  · rintro rfl
    exact h

end Tables

/-! ## Single events -/

section

variable {D : Tables} {key : Key} {type : ValueType} {value : Bytes} {x : Option ℤ} {version : ℤ}
  {field : Field}

/-- An event that inserts no list item can be applied, once it has the parent row it needs. -/
theorem exists_asyncDrain (D : Tables) (ev : DirtyEvent)
    (hparent : ∀ k, NeedsParent k ev → (D.store k).isSome)
    (hno : ∀ k i v, ev ≠ .listItemInsert k i v) : ∃ D', asyncDrain [ev] D = .ok D' := by
  refine exists_executePlans ⟨fun row hrow => ?_, fun row hrow => ?_, ?_, fun row hrow => ?_⟩
  · obtain ⟨k, f, v, hev, rfl⟩ := mem_hashFieldUpserts.1 hrow
    obtain rfl := List.mem_singleton.1 hev
    rw [PlanArgs.storeAfter]
    simp [hparent k (.inl ⟨f, v, rfl⟩)]
  · obtain ⟨k, i, v, hev, -⟩ := mem_listItemInserts.1 hrow
    exact absurd (List.mem_singleton.1 hev).symm (hno k i v)
  · cases ev <;> first | exact List.nodup_nil | exact absurd rfl (hno _ _ _)
  · obtain ⟨k, i, v, hev, -⟩ := mem_listItemInserts.1 hrow
    exact absurd (List.mem_singleton.1 hev).symm (hno k i v)

/-- The event of a parent row. -/
theorem replay_keyUpsert (D : Tables) (key : Key) (type : ValueType) (value : Bytes)
    (x : Option ℤ) (version : ℤ) :
    ∃ D', replay [.keyUpsert key type value x version] D = .ok D' ∧
      (∀ k, D'.store k = if k = key then some (DirtyEvent.parentRow type value x version)
        else D.store k) ∧
      (∀ k f, D'.hashFields k f = D.hashFields k f) ∧
      ∀ k i, D'.listItems k i = D.listItems k i := by
  obtain ⟨D', h⟩ := exists_asyncDrain D (.keyUpsert key type value x version)
    (fun k h => by rcases h with ⟨_, _, h⟩ | ⟨_, _, h⟩ <;> cases h) fun _ _ _ h => by cases h
  have hrows := asyncDrain_singleton h
  refine ⟨D', bind_eq_ok_iff.2 ⟨D', h, rfl⟩, fun k => ?_, fun k f => hrows.hashFields k f,
    fun k i => hrows.listItems k i⟩
  rw [hrows.store, replayed_cons, replayed_nil, storeCell]
  simp only [eq_comm (a := key)]
  split_ifs <;> rfl

/-- An event that does something to the row of one field, and nothing to others. -/
theorem replay_field {ev : DirtyEvent} {D' : Tables} {o : Option (Option Bytes)}
    (h : asyncDrain [ev] D = .ok D')
    (hfield : ∀ k f, fieldCell k f ev = if (key, field) = (k, f) then some o else none)
    (hstore : ∀ k, storeCell k ev = none) (hitem : ∀ k i, itemCell k i ev = none) :
    replay [ev] D = .ok D' ∧ (∀ k, D'.store k = D.store k) ∧
      (∀ k f, D'.hashFields k f = if k = key ∧ f = field then o else D.hashFields k f) ∧
      ∀ k i, D'.listItems k i = D.listItems k i := by
  have hrows := asyncDrain_singleton h
  refine ⟨bind_eq_ok_iff.2 ⟨D', h, rfl⟩, fun k => ?_, fun k f => ?_, fun k i => ?_⟩
  · rw [hrows.store, replayed_cons, replayed_nil, hstore, Option.getD_none]
  · rw [hrows.hashFields, replayed_cons, replayed_nil, hfield]
    simp only [Prod.mk.injEq, eq_comm (a := key), eq_comm (a := field)]
    split_ifs <;> rfl
  · rw [hrows.listItems, replayed_cons, replayed_nil, hitem, Option.getD_none]

/-- The event of a field that has a parent row. -/
theorem replay_hashFieldUpsert (h : (D.store key).isSome) (field : Field) (value : Bytes) :
    ∃ D', replay [.hashFieldUpsert key field value] D = .ok D' ∧ (∀ k, D'.store k = D.store k) ∧
      (∀ k f, D'.hashFields k f =
        if k = key ∧ f = field then some (some value) else D.hashFields k f) ∧
      ∀ k i, D'.listItems k i = D.listItems k i := by
  obtain ⟨D', hD'⟩ := exists_asyncDrain D (.hashFieldUpsert key field value)
    (fun k hk => by
      rcases hk with ⟨_, _, hk⟩ | ⟨_, _, hk⟩ <;> cases hk
      exact h) fun _ _ _ h => by cases h
  exact ⟨D', replay_field hD' (fun _ _ => rfl) (fun _ => rfl) fun _ _ => rfl⟩

/-- The event of a field taken away. -/
theorem replay_hashFieldDelete (D : Tables) (key : Key) (field : Field) :
    ∃ D', replay [.hashFieldDelete key field] D = .ok D' ∧ (∀ k, D'.store k = D.store k) ∧
      (∀ k f, D'.hashFields k f = if k = key ∧ f = field then none else D.hashFields k f) ∧
      ∀ k i, D'.listItems k i = D.listItems k i := by
  obtain ⟨D', hD'⟩ := exists_asyncDrain D (.hashFieldDelete key field)
    (fun k h => by rcases h with ⟨_, _, h⟩ | ⟨_, _, h⟩ <;> cases h) fun _ _ _ h => by cases h
  exact ⟨D', replay_field hD' (fun _ _ => rfl) (fun _ => rfl) fun _ _ => rfl⟩

end

/-! ## The events of the commands -/

/-- The row of a string or an integer is right unless the encoding is too long. -/
theorem data_parentRow_iff {c : Cell} (ht : c.value.type = .string ∨ c.value.type = .int)
    (version : ℤ) :
    (DirtyEvent.parentRow c.value.type (clip (c.value.encode.getD [])) c.expireAt version).data =
      c.data ↔ (c.value.encode.getD []).length ≤ uint16Max := by
  obtain ⟨enc, henc, hne⟩ : ∃ enc, c.value.encode = some enc ∧ enc ≠ [] := by
    cases hv : c.value with
    | str t => exact ⟨_, rfl, by simp [encodeString]⟩
    | int i => exact ⟨_, rfl, by simp [encodeInt]⟩
    | hash | list => simp [hv, View.type] at ht
  have htype : ¬(c.value.type ≠ .string ∧ c.value.type ≠ .int) := fun hno => ht.elim hno.1 hno.2
  rw [henc, Option.getD_some, ← clip_eq_self]
  simp only [StoreRow.data, Cell.data, DirtyEvent.parentRow, Prod.mk.injEq, true_and, and_true,
    henc, htype, or_false]
  split_ifs with hnil
  · exact iff_of_false (by simp) fun heq => hne (heq ▸ hnil)
  · rw [Option.some.injEq]

namespace Tables

variable {D : Tables} {key : Key} {o : Option Cell}

/-- No event of a command touches the rows of another key. -/
def Frame (key : Key) (D D' : Tables) : Prop := ∀ k ≠ key, ∀ o, D.Shows k o → D'.Shows k o

theorem Shows.fieldsOf_eq_empty (h : D.Shows key o) :
    Cell.fieldsOf o = ∅ ↔ ∀ f, D.hashFields key f = none := by
  constructor
  · intro he f
    rw [h.fields, he]
    rfl
  · intro hnone
    apply Finmap.ext_lookup
    intro f
    have hf := h.fields f
    rw [hnone f, eq_comm, Option.map_eq_none_iff] at hf
    rw [hf, Finmap.lookup_empty]

theorem inOrder_congr {rows rows' : ℤ → Option (Option Bytes)} (h : ∀ i, rows' i = rows i)
    {vs : List Bytes} : InOrder rows' vs ↔ InOrder rows vs := by
  rw [funext h]

/-- A string or an integer is published: its row is right unless the encoding is too long, and
    the child rows are those of the value before. -/
theorem Shows.keyUpsert (h : D.Shows key o) {c : Cell}
    (ht : c.value.type = .string ∨ c.value.type = .int) (version : ℤ) :
    ∃ D', replay [.keyUpsert key c.value.type (clip (c.value.encode.getD [])) c.expireAt version]
        D = .ok D' ∧ Frame key D D' ∧
      (D'.Shows key (some c) ↔ (c.value.encode.getD []).length ≤ uint16Max ∧ Cell.Childless o) := by
  obtain ⟨D', hD', hstore, hfields, hitems⟩ := replay_keyUpsert D key c.value.type
    (clip (c.value.encode.getD [])) c.expireAt version
  refine ⟨D', hD', fun k hk o' ho' => ho'.congr (by rw [hstore, if_neg hk]) (hfields k)
    (hitems k), ?_⟩
  obtain ⟨hnofields, hnoitems⟩ := View.childless_of_scalar ht
  -- The row is the cell's if nothing of the encoding is cut off; the child rows are not touched,
  -- so there must be none.
  have hrow : (D'.store key).map StoreRow.data = (some c).map Cell.data ↔
      (c.value.encode.getD []).length ≤ uint16Max := by
    rw [hstore, if_pos rfl, Option.map_some, Option.map_some, Option.some.injEq]
    exact data_parentRow_iff ht version
  constructor
  · rintro ⟨hr, hf, hi⟩
    refine ⟨hrow.1 hr, h.fieldsOf_eq_empty.2 fun f => ?_, ?_⟩
    · rw [← hfields, hf]
      simp [Cell.fieldsOf, hnofields]
    · have hi := (inOrder_congr (hitems key)).1 hi
      rw [Cell.itemsOf, Option.map_some, Option.getD_some, hnoitems] at hi
      exact h.items.unique hi
  · rintro ⟨hlen, hf, hi⟩
    refine ⟨hrow.2 hlen, fun f => ?_, (inOrder_congr (hitems key)).2 ?_⟩
    · rw [hfields, h.fieldsOf_eq_empty.1 hf]
      simp [Cell.fieldsOf, hnofields]
    · have hvals := h.items
      rw [hi] at hvals
      simpa [Cell.itemsOf, hnoitems] using hvals

/-- A field is published with its hash: of the child rows before, all others stay. -/
theorem Shows.hset (h : D.Shows key o) (m : Finmap fun _ : Field => Bytes) (field : Field)
    (value : Bytes) (x : Option ℤ) (version : ℤ) :
    ∃ D', replay [.keyUpsert key .hash [] x version, .hashFieldUpsert key field value] D = .ok D' ∧
      Frame key D D' ∧
      (D'.Shows key (some ⟨.hash (m.insert field value), x⟩) ↔
        (∀ f ≠ field, (Cell.fieldsOf o).lookup f = m.lookup f) ∧ Cell.itemsOf o = []) := by
  obtain ⟨D₁, hD₁, hstore₁, hfields₁, hitems₁⟩ := replay_keyUpsert D key .hash [] x version
  obtain ⟨D₂, hD₂, hstore₂, hfields₂, hitems₂⟩ := @replay_hashFieldUpsert D₁ key
    (by rw [hstore₁, if_pos rfl]; rfl) field value
  refine ⟨D₂, ?_, fun k hk o' ho' => ho'.congr ?_ (fun f => ?_) (fun i => ?_), ?_⟩
  · rw [← List.singleton_append, replay_append, hD₁]
    exact hD₂
  · rw [hstore₂, hstore₁, if_neg hk]
  · rw [hfields₂, if_neg (fun hkf => hk hkf.1), hfields₁]
  · rw [hitems₂, hitems₁]
  -- The parent row carries no children: all but the row of the field are those before.
  have hitems : ∀ i, D₂.listItems key i = D.listItems key i := fun i => by
    rw [hitems₂, hitems₁]
  have hfields : ∀ f, D₂.hashFields key f =
      if f = field then some (some value) else D.hashFields key f := fun f => by
    rw [hfields₂, hfields₁]
    simp only [true_and]
  constructor
  · rintro ⟨-, hf, hi⟩
    refine ⟨fun f hne => ?_, ?_⟩
    · have hrow := hf f
      rw [hfields, if_neg hne, h.fields] at hrow
      simp only [Cell.fieldsOf, Option.map_some, Option.getD_some, View.fields,
        Finmap.lookup_insert_of_ne _ hne] at hrow
      exact Option.map_injective (Option.some_injective _) hrow
    · exact h.items.unique ((inOrder_congr hitems).1 hi)
  · rintro ⟨hf, hi⟩
    refine ⟨?_, fun f => ?_, (inOrder_congr hitems).2 ?_⟩
    · rw [hstore₂, hstore₁, if_pos rfl]
      rfl
    · rw [hfields]
      simp only [Cell.fieldsOf, Option.map_some, Option.getD_some, View.fields]
      split_ifs with heq
      · rw [heq, Finmap.lookup_insert]
        rfl
      · rw [Finmap.lookup_insert_of_ne _ heq, h.fields, hf f heq]
    · have hvals := h.items
      rw [hi] at hvals
      exact hvals

/-- A field is published as taken away. -/
theorem Shows.hdel {m : Finmap fun _ : Field => Bytes} {x : Option ℤ}
    (h : D.Shows key (some ⟨.hash m, x⟩)) (field : Field) :
    ∃ D', replay [.hashFieldDelete key field] D = .ok D' ∧ Frame key D D' ∧
      D'.Shows key (some ⟨.hash (m.erase field), x⟩) := by
  obtain ⟨D', hD', hstore, hfields, hitems⟩ := replay_hashFieldDelete D key field
  refine ⟨D', hD', fun k hk o' ho' => ho'.congr (hstore k) (fun f => ?_) (hitems k), ?_,
    fun f => ?_, ?_⟩
  · rw [hfields, if_neg (fun hkf => hk hkf.1)]
  · rw [hstore]
    exact h.row
  · rw [hfields]
    simp only [true_and]
    split_ifs with heq
    · rw [heq]
      simp [Cell.fieldsOf, View.fields]
    · rw [h.fields]
      simp [Cell.fieldsOf, View.fields, Finmap.lookup_erase_ne heq]
  · exact (inOrder_congr (hitems key)).2 h.items

end Tables

end PgRedis
