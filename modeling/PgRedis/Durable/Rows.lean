import PgRedis.Durable.Cells

/-!
# The rows of one key

What events do to the rows of a key when they are just written one over the other, whether or
not the tables would take them (`KeyRows.apply`). This is how events that have not yet been
applied count: the rows are right if they are once these events are over them.

Events that touch no common row may change places (`apply_move`). While an `HSET` is still to
be done over, its field is in the hash but may not be in the rows (`Nearly`).
-/

namespace PgRedis

open Lib DirtyEvent

/-- The row of a key in `pgredis.store`, and its child rows. -/
@[ext]
structure KeyRows where
  row : Option StoreRow
  fields : Field → Option (Option Bytes)
  items : ℤ → Option (Option Bytes)

/-- The rows of `k`. -/
def Tables.rows (D : Tables) (k : Key) : KeyRows := ⟨D.store k, D.hashFields k, D.listItems k⟩

/-- The key of an event. -/
def DirtyEvent.key : DirtyEvent → Key
  | .keyUpsert k .. | .keyDelete k | .hashFieldUpsert k .. | .hashFieldDelete k _
  | .listItemInsert k .. | .listItemDelete k _ => k

/-- Two events touch a common row. -/
def DirtyEvent.Clash (a b : DirtyEvent) : Prop :=
  (∃ k, storeCell k a ≠ none ∧ storeCell k b ≠ none) ∨
  (∃ k f, fieldCell k f a ≠ none ∧ fieldCell k f b ≠ none) ∨
  ∃ k i, itemCell k i a ≠ none ∧ itemCell k i b ≠ none

namespace KeyRows

/-- The rows of `k` with events written over them. -/
def apply (k : Key) (evs : List DirtyEvent) (R : KeyRows) : KeyRows :=
  ⟨replayed (storeCell k) evs R.row, fun f => replayed (fieldCell k f) evs (R.fields f),
    fun i => replayed (itemCell k i) evs (R.items i)⟩

/-- The rows are those of the cell. -/
structure Shows (R : KeyRows) (o : Option Cell) : Prop where
  row : R.row.map StoreRow.data = o.map Cell.data
  fields : ∀ f, R.fields f = ((Cell.fieldsOf o).lookup f).map some
  items : InOrder R.items (Cell.itemsOf o)

variable {k key : Key} {evs evs' : List DirtyEvent} {ev : DirtyEvent} {R : KeyRows}
  {o : Option Cell} {D D' : Tables}

theorem apply_append (k : Key) (evs evs' : List DirtyEvent) (R : KeyRows) :
    R.apply k (evs ++ evs') = (R.apply k evs).apply k evs' := by
  simp only [apply, replayed_append]

/-- Events of another key. -/
theorem apply_of_ne (h : ∀ ev ∈ evs, ev.key = key) (hk : k ≠ key) (R : KeyRows) :
    R.apply k evs = R := by
  have huntouched : ∀ ev ∈ evs, storeCell k ev = none ∧ (∀ f, fieldCell k f ev = none) ∧
      ∀ i, itemCell k i ev = none := by
    intro ev hev
    have hne : ev.key ≠ k := fun heq => hk (heq.symm.trans (h ev hev))
    cases ev <;> simp only [DirtyEvent.key] at hne <;>
      simp [storeCell, fieldCell, itemCell, hne]
  refine KeyRows.ext (replayed_of_untouched (fun ev hev => (huntouched ev hev).1) _)
    (funext fun f => replayed_of_untouched (fun ev hev => (huntouched ev hev).2.1 f) _)
    (funext fun i => replayed_of_untouched (fun ev hev => (huntouched ev hev).2.2 i) _)

/-- An event moved to the front of others that touch no row it touches. -/
theorem apply_move (h : ∀ ev' ∈ evs, ¬ev'.Clash ev) (k : Key) (R : KeyRows) :
    R.apply k (evs ++ ev :: evs') = (R.apply k [ev]).apply k (evs ++ evs') := by
  refine KeyRows.ext (replayed_move ?_ _) (funext fun f => replayed_move ?_ _)
    (funext fun i => replayed_move ?_ _)
  · by_contra hno
    push Not at hno
    obtain ⟨hev, ev', hev', hne⟩ := hno
    exact h ev' hev' (.inl ⟨k, hne, hev⟩)
  · by_contra hno
    push Not at hno
    obtain ⟨hev, ev', hev', hne⟩ := hno
    exact h ev' hev' (.inr (.inl ⟨k, f, hne, hev⟩))
  · by_contra hno
    push Not at hno
    obtain ⟨hev, ev', hev', hne⟩ := hno
    exact h ev' hev' (.inr (.inr ⟨k, i, hne, hev⟩))

/-! ## Events applied to the tables -/

theorem shows_iff : D.Shows k o ↔ (D.rows k).Shows o :=
  ⟨fun h => ⟨h.row, h.fields, h.items⟩, fun h => ⟨h.row, h.fields, h.items⟩⟩

/-- Events that the tables take are written over the rows. -/
theorem rows_of_replay (h : replay evs D = .ok D') (k : Key) :
    D'.rows k = (D.rows k).apply k evs := by
  have hrows := replay_replayed h
  exact KeyRows.ext (hrows.store k) (funext fun f => hrows.hashFields k f)
    (funext fun i => hrows.listItems k i)

/-! ## The events of the commands -/

@[simp] theorem apply_keyUpsert (key : Key) (type : ValueType) (value : Bytes) (x : Option ℤ)
    (version : ℤ) (R : KeyRows) : R.apply key [.keyUpsert key type value x version] =
      { R with row := some (parentRow type value x version) } := by
  simp [apply, replayed_cons, storeCell, fieldCell, itemCell]

@[simp] theorem apply_hashFieldUpsert (key : Key) (field : Field) (value : Bytes) (R : KeyRows) :
    R.apply key [.hashFieldUpsert key field value] =
      { R with fields := Function.update R.fields field (some (some value)) } := by
  refine KeyRows.ext rfl (funext fun f => ?_) rfl
  by_cases hf : f = field
  · simp [apply, replayed_cons, fieldCell, hf]
  · simp [apply, replayed_cons, fieldCell, hf, Ne.symm hf]

@[simp] theorem apply_hashFieldDelete (key : Key) (field : Field) (R : KeyRows) :
    R.apply key [.hashFieldDelete key field] =
      { R with fields := Function.update R.fields field none } := by
  refine KeyRows.ext rfl (funext fun f => ?_) rfl
  by_cases hf : f = field
  · simp [apply, replayed_cons, fieldCell, hf]
  · simp [apply, replayed_cons, fieldCell, hf, Ne.symm hf]

/-- There are no child rows. -/
def Childless (R : KeyRows) : Prop := (∀ f, R.fields f = none) ∧ InOrder R.items []

/-- The rows are those of the cell, but that of a hash some fields may be still to come, and
    the row itself with them. A field that the hash does not have has no row. -/
structure Nearly (R : KeyRows) (F : Field → Prop) (o : Option Cell) : Prop where
  row : R.row.map StoreRow.data = o.map Cell.data ∨
    (∃ f, F f) ∧ ∃ c, o = some c ∧ c.value.type = .hash
  fields : ∀ f, F f ∨ R.fields f = ((Cell.fieldsOf o).lookup f).map some
  gone : ∀ f, f ∉ Cell.fieldsOf o → R.fields f = none
  items : InOrder R.items (Cell.itemsOf o)

section

variable {F F' : Field → Prop} {field : Field} {m : Finmap fun _ : Field => Bytes} {x : Option ℤ}

theorem Shows.nearly (h : R.Shows o) (F : Field → Prop) : R.Nearly F o where
  row := .inl h.row
  fields f := .inr (h.fields f)
  gone f hf := by rw [h.fields, Finmap.lookup_eq_none.2 hf, Option.map_none]
  items := h.items

/-- Nothing is still to come. -/
theorem Nearly.shows (h : R.Nearly F o) (hF : ∀ f, ¬F f) : R.Shows o where
  row := h.row.resolve_right fun ⟨⟨f, hf⟩, _⟩ => hF f hf
  fields f := (h.fields f).resolve_left (hF f)
  items := h.items

/-- Only of a hash may anything be still to come. -/
theorem Nearly.shows_of_ne_hash (h : R.Nearly F o) (ho : ∀ c, o = some c → c.value.type ≠ .hash) :
    R.Shows o where
  row := h.row.resolve_right fun ⟨_, c, hc, ht⟩ => ho c hc ht
  fields f := by
    have hempty : Cell.fieldsOf o = ∅ := by
      cases o with
      | none => rfl
      | some c =>
        have hne := ho c rfl
        obtain ⟨v, x⟩ := c
        cases v with
        | hash => exact absurd rfl hne
        | str | int | list => rfl
    rw [hempty]
    exact h.gone f (hempty ▸ Finmap.notMem_empty)
  items := h.items

theorem Nearly.mono (h : R.Nearly F o) (hF : ∀ f, F f → F' f) : R.Nearly F' o where
  row := h.row.imp_right fun ⟨⟨f, hf⟩, hc⟩ => ⟨⟨f, hF f hf⟩, hc⟩
  fields f := (h.fields f).imp_left (hF f)
  gone := h.gone
  items := h.items

theorem Nearly.childless (h : R.Nearly F o) (ho : Cell.Childless o) : R.Childless := by
  refine ⟨fun f => h.gone f ?_, ho.2 ▸ h.items⟩
  rw [ho.1]
  exact Finmap.notMem_empty

/-- A string or an integer where there are no child rows. -/
theorem Childless.keyUpsert (h : R.Childless) (key : Key) {c : Cell}
    (ht : c.value.type = .string ∨ c.value.type = .int)
    (hlen : (c.value.encode.getD []).length ≤ uint16Max) (version : ℤ) :
    (R.apply key [.keyUpsert key c.value.type (clip (c.value.encode.getD [])) c.expireAt
      version]).Shows (some c) := by
  obtain ⟨hfields, hitems⟩ := View.childless_of_scalar ht
  rw [apply_keyUpsert]
  refine ⟨congrArg some ((data_parentRow_iff ht version).2 hlen), fun f => ?_, ?_⟩
  · simp [Cell.fieldsOf, hfields, h.1 f]
  · simpa [Cell.itemsOf, hitems] using h.2

/-- A field of a hash that is there, or of a new one in the place of what has no other. -/
theorem Nearly.hset (h : R.Nearly F o)
    (hf : ∀ f ≠ field, (Cell.fieldsOf o).lookup f = m.lookup f) (hi : Cell.itemsOf o = [])
    (hF : ∀ f ≠ field, F f → F' f) (key : Key) (value : Bytes) (x : Option ℤ) (version : ℤ) :
    (R.apply key [.keyUpsert key .hash [] x version, .hashFieldUpsert key field value]).Nearly F'
      (some ⟨.hash (m.insert field value), x⟩) := by
  rw [← List.singleton_append, apply_append, apply_keyUpsert, apply_hashFieldUpsert]
  have hlookup : ∀ f ≠ field, (m.insert field value).lookup f = (Cell.fieldsOf o).lookup f :=
    fun f hne => by rw [Finmap.lookup_insert_of_ne _ hne, hf f hne]
  have hitems : InOrder R.items [] := hi ▸ h.items
  refine ⟨.inl rfl, fun f => ?_, fun f hno => ?_, hitems⟩
  · by_cases hne : f = field
    · subst hne
      simp [Cell.fieldsOf, View.fields]
    · refine (h.fields f).imp (hF f hne) fun hrow => ?_
      simpa [Cell.fieldsOf, View.fields, hne, hlookup f hne] using hrow
  · have hno : f ∉ m.insert field value := hno
    have hne : f ≠ field := by
      rintro rfl
      exact hno (Finmap.mem_insert.2 (.inl rfl))
    rw [← Finmap.lookup_eq_none, hlookup f hne, Finmap.lookup_eq_none] at hno
    simpa [hne] using h.gone f hno

/-- A field taken away. -/
theorem Nearly.hdel (h : R.Nearly F (some ⟨.hash m, x⟩)) (key : Key) (field : Field) :
    (R.apply key [.hashFieldDelete key field]).Nearly F (some ⟨.hash (m.erase field), x⟩) := by
  rw [apply_hashFieldDelete]
  refine ⟨h.row.imp_right fun ⟨hF, _⟩ => ⟨hF, _, rfl, rfl⟩, fun f => ?_, fun f hno => ?_, h.items⟩
  · by_cases hne : f = field
    · subst hne
      simp [Cell.fieldsOf, View.fields]
    · refine (h.fields f).imp_right fun hrow => ?_
      simpa [Cell.fieldsOf, View.fields, hne, Finmap.lookup_erase_ne hne] using hrow
  · have hno : f ∉ m.erase field := hno
    by_cases hne : f = field
    · simp [hne]
    · rw [← Finmap.lookup_eq_none, Finmap.lookup_erase_ne hne, Finmap.lookup_eq_none] at hno
      simpa [hne] using h.gone f hno

/-- The events of a field that a hash has are given up: it is still to come. -/
theorem Nearly.of_given_up {R' : KeyRows} (h : R.Nearly F (some ⟨.hash m, x⟩)) (hmem : field ∈ m)
    (hfields : ∀ f ≠ field, R'.fields f = R.fields f) (hitems : R'.items = R.items)
    (hF : ∀ f, F f → F' f) (hfield : F' field) : R'.Nearly F' (some ⟨.hash m, x⟩) where
  row := .inr ⟨⟨field, hfield⟩, _, rfl, rfl⟩
  fields f := by
    by_cases hne : f = field
    · exact .inl (hne ▸ hfield)
    · rw [hfields f hne]
      exact (h.fields f).imp_left (hF f)
  gone f hno := by
    have hne : f ≠ field := by
      rintro rfl
      exact hno hmem
    rw [hfields f hne]
    exact h.gone f hno
  items := hitems ▸ h.items

end

end KeyRows

end PgRedis
