import PgRedis.Session.Cells
import PgRedis.SharedStore.Exec

/-!
# The shared keyspace as cells

With enough memory, each command in shared mode does to what its key holds what
`Cell.perform` says, gives its reply, and leaves the other keys alone (`perform_shows`). The
locked sections of a command are described one by one on the way: what an upsert or a lookup
copies (`materialize_shows`), what a writeback leaves (`writeback_shows`), what `HSET` and
`HDEL` do in place (`setAtomic_shows`, `delAtomic_shows`).
-/

namespace PgRedis

open Lib

section

variable (hashBytes : Bytes → UInt32)

/-- The value in shared memory. Fields are as the commands let them in, and so are their
    values. -/
def SharedValue.Shows : SharedValue → View → Prop
  | .str _ s, .str o => o = if s = [] then none else some s
  | .int i, .int j => i = j
  | .hash table _, .hash m => (∀ d, SharedHash.Holds hashBytes ⟨d, table⟩ m) ∧
      ∀ field value, m.lookup field = some value →
        SharedHash.ValidField field ∧ value.length ≤ uint16Max
  | .list l, .list vs => l.Numbered ∧ l.values = vs
  | _, _ => False

/-- The entry in shared memory holds the value of the cell, with its expiry. -/
structure SharedEntry.Shows (se : SharedEntry) (c : Cell) : Prop where
  value : se.value.Shows hashBytes c.value
  expireAt : se.expireAt = c.expireAt

/-- Every entry of the shared keyspace holds the cell of its key. -/
def SharedStore.Shows (S : SharedStore) (K : Cells) : Prop :=
  ∀ k, Option.Rel (SharedEntry.Shows hashBytes) (S.entries.lookup k) (K k)

end

/-- Copies of the same value with the same expiry; their versions may differ. -/
structure Entry.Same (e e' : Entry) : Prop where
  type : e.type = e'.type
  value : e.value = e'.value
  expireAt : e.expireAt = e'.expireAt

theorem Entry.Same.refl (e : Entry) : e.Same e := ⟨rfl, rfl, rfl⟩

theorem Entry.Same.symm {e e' : Entry} (h : e.Same e') : e'.Same e :=
  ⟨h.type.symm, h.value.symm, h.expireAt.symm⟩

theorem Entry.Same.trans {e e' e'' : Entry} (h : e.Same e') (h' : e'.Same e'') : e.Same e'' :=
  ⟨h.type.trans h'.type, h.value.trans h'.value, h.expireAt.trans h'.expireAt⟩

theorem Entry.Same.shows {e e' : Entry} {c : Cell} (h : e.Same e') (hc : e'.Shows c) : e.Shows c :=
  ⟨h.type.trans hc.type, h.value ▸ hc.value, h.expireAt.trans hc.expireAt⟩

/-- A hash with a field set. -/
theorem SharedValue.Shows.insert {hashBytes : Bytes → UInt32} {table table' : Option SharedTable}
    {count count' : ℤ} {m : Finmap fun _ : Field => Bytes} {field : Field} {value : Bytes}
    (h : SharedValue.Shows hashBytes (.hash table count) (.hash m))
    (hfield : SharedHash.ValidField field) (hlen : value.length ≤ uint16Max)
    (hm : ∀ d, SharedHash.Holds hashBytes ⟨d, table'⟩ (m.insert field value)) :
    SharedValue.Shows hashBytes (.hash table' count') (.hash (m.insert field value)) := by
  refine ⟨hm, fun f v hv => ?_⟩
  by_cases hf : f = field
  · rw [hf, Finmap.lookup_insert, Option.some.injEq] at hv
    exact ⟨hf ▸ hfield, hv ▸ hlen⟩
  · rw [Finmap.lookup_insert_of_ne _ hf] at hv
    exact h.2 f v hv

namespace SharedEntry

variable {hashBytes : Bytes → UInt32} {se : SharedEntry} {c : Cell} {now : ℤ}

theorem Shows.type (h : se.Shows hashBytes c) : se.value.type = c.value.type := by
  have hv := h.value
  cases hs : se.value <;> cases hc : c.value <;> rw [hs, hc] at hv <;>
    first | rfl | exact hv.elim

theorem Shows.isExpired (h : se.Shows hashBytes c) (now : ℤ) :
    se.isExpired now = c.isExpired now := by
  have hx := h.expireAt
  cases hc : c.expireAt <;> rw [hc] at hx <;>
    simp only [SharedEntry.isExpired, Cell.isExpired, hx, hc]

/-- An entry that holds a hash. -/
theorem Shows.hash (h : se.Shows hashBytes c) (ht : c.value.type = .hash) :
    ∃ table count m, se.value = .hash table count ∧ c.value = .hash m ∧
      SharedValue.Shows hashBytes (.hash table count) (.hash m) := by
  have hv := h.value
  cases hs : se.value <;> cases hc : c.value <;> rw [hs, hc] at hv
  case hash.hash table count m => exact ⟨table, count, m, rfl, rfl, hv⟩
  case str.str | int.int | list.list =>
    rw [hc] at ht
    cases ht
  all_goals exact hv.elim

/-- An entry holds one cell. -/
theorem Shows.unique {c' : Cell} (h : se.Shows hashBytes c) (h' : se.Shows hashBytes c') :
    c = c' := by
  have hv := h.value
  have hv' := h'.value
  have hval : c.value = c'.value := by
    cases hs : se.value <;> cases hc : c.value <;> cases hc' : c'.value <;> rw [hs, hc] at hv <;>
      rw [hs, hc'] at hv'
    case str.str.str => rw [show _ = _ from hv, show _ = _ from hv']
    case int.int.int => rw [← show _ = _ from hv, ← show _ = _ from hv']
    case hash.hash.hash table count m m' =>
      rw [(hv.1 ⟨0, []⟩).unique (hv'.1 ⟨0, []⟩)]
    case list.list.list => rw [← hv.2, ← hv'.2]
    all_goals first | exact hv.elim | exact hv'.elim
  obtain ⟨v, x⟩ := c
  obtain ⟨v', x'⟩ := c'
  rw [Cell.mk.injEq]
  exact ⟨hval, h.expireAt.symm.trans h'.expireAt⟩

/-- What the keyspace holds is what is left by a writeback. -/
theorem Shows.stored (h : se.Shows hashBytes c) : c.stored .shared = c := by
  have hv := h.value
  have hval : c.value.stored .shared = c.value := by
    cases hs : se.value <;> cases hc : c.value <;> rw [hs, hc] at hv
    case str.str p s o =>
      rcases o with _ | _ | ⟨b, s'⟩
      · rfl
      · have hv : some ([] : Bytes) = if s = [] then none else some s := hv
        split_ifs at hv with hnil
        exact absurd (Option.some.inj hv).symm hnil
      · rfl
    case list.list l vs =>
      obtain ⟨-, rfl⟩ := hv
      simp only [View.stored, SharedList.values, List.map_map]
      congr 1
      exact List.map_congr_left fun n _ => n.clip_bytes
    all_goals first | rfl | exact hv.elim
  rw [Cell.stored, hval]

/-- The copy of an entry. -/
theorem materialize_shows (h : se.Shows hashBytes c) : se.materialize.Shows c where
  type := h.type
  expireAt := h.expireAt
  value := by
    have hv := h.value
    change (se.value.payload).Shows c.value
    cases hs : se.value <;> cases hc : c.value <;> rw [hs, hc] at hv
    case str.str p s o =>
      have hv : o = if s = [] then none else some s := hv
      rw [SharedValue.payload]
      split_ifs at hv ⊢
      · exact ⟨rfl, hv⟩
      · exact hv
    case int.int => exact hv
    case hash.hash table count m =>
      obtain ⟨hholds, hvalid⟩ := hv
      obtain ⟨hnull, hlook⟩ := SharedHash.materialize_spec (hholds ⟨0, []⟩) fun field hf => by
        obtain ⟨v, hv⟩ := Finmap.mem_iff.1 hf
        exact (hvalid field v hv).1
      rw [SharedValue.payload]
      rw [SharedHash.materialize] at hnull hlook
      -- An empty hash is copied to a null pointer, which shows an empty map all the same.
      cases hm : SharedHash.materializeTable table with
      | none => exact ⟨rfl, hnull.1 hm⟩
      | some h =>
        rw [hm] at hlook
        exact hlook
    case list.list l vs =>
      obtain ⟨-, rfl⟩ := hv
      rw [SharedValue.payload]
      cases hm : l.materialize with
      | none =>
        refine ⟨rfl, ?_⟩
        rw [SharedList.materialize] at hm
        split_ifs at hm with hnil
        rw [SharedList.values, hnil]
        rfl
      | some a =>
        obtain ⟨hnodes, -⟩ := SharedList.materialize_eq hm
        refine ⟨?_, ?_⟩
        · rw [hnodes, List.map_map]
          rfl
        · rw [SharedList.length_materialize hm, SharedList.values, List.length_map]
    all_goals exact hv.elim

theorem fresh_shows : fresh.Shows hashBytes Cell.fresh := ⟨rfl, rfl⟩

/-- What an upsert finds. -/
theorem upserted_shows {o : Option SharedEntry} {o' : Option Cell}
    (h : Option.Rel (Shows hashBytes) o o') (now : ℤ) :
    (upserted now o).1.Shows hashBytes (Cell.upserted now o').1 ∧
      (upserted now o).2 = (Cell.upserted now o').2 := by
  cases h with
  | none => exact ⟨fresh_shows, rfl⟩
  | some hec =>
    rw [upserted, Cell.upserted, hec.isExpired]
    split_ifs
    · exact ⟨fresh_shows, rfl⟩
    · exact ⟨hec, rfl⟩

section

variable {ok : StoreSite → Bool} (hok : ∀ site, ok site = true) {e : Entry}

include hok

/-- What is left by a writeback of anything but a hash. -/
theorem writeback_shows (h : e.Shows c) (ht : c.value.type ≠ .hash) (d : Dsa)
    (o : Option SharedEntry) :
    ∃ d' se, writeback hashBytes ok e d o = (d', some se, .ok ()) ∧
      se.Shows hashBytes (c.stored .shared) := by
  have scalar : ∀ v : SharedValue, v.IsCopy e → e.type = .string ∨ e.type = .int →
      v.Shows hashBytes (c.value.stored .shared) := by
    intro v hv htype
    rw [SharedValue.IsCopy] at hv
    rcases h.cases with ⟨ht', ⟨s, he, hc⟩ | ⟨he, hc⟩⟩ | ⟨i, ht', he, hc⟩ | ⟨ht', -⟩ | ⟨ht', -⟩
    · simp only [ht', he] at hv
      obtain ⟨p, rfl⟩ := hv
      rw [hc]
      cases s <;> rfl
    · simp only [ht', he] at hv
      rw [hv, hc]
      rfl
    · simp only [ht', he] at hv
      rw [hv, hc]
      rfl
    · rcases htype with h' | h' <;> exact absurd (ht'.symm.trans h') (by decide)
    · rcases htype with h' | h' <;> exact absurd (ht'.symm.trans h') (by decide)
  rcases h.cases with ⟨ht', -⟩ | ⟨i, ht', -⟩ | ⟨ht', -⟩ | ⟨ht', vs, hc, hvs⟩
  · obtain ⟨d', v, heq, hv⟩ := writeback_scalar hok (.inl ht') hashBytes d o
    exact ⟨d', _, heq, scalar v hv (.inl ht'), h.expireAt⟩
  · obtain ⟨d', v, heq, hv⟩ := writeback_scalar hok (.inr ht') hashBytes d o
    exact ⟨d', _, heq, scalar v hv (.inr ht'), h.expireAt⟩
  · exact absurd (h.type.symm.trans ht') ht
  · rcases hvs with ⟨he, rfl⟩ | ⟨l, he, rfl, -⟩
    · -- A null pointer is written back as an empty list.
      obtain ⟨d', heq⟩ : ∃ d', writeback hashBytes ok e d o = _ :=
        writeback_eq_populate fun _ _ => .inr (by rw [ht']; decide)
      refine ⟨d', ⟨.empty .list, e.expireAt, e.version⟩, ?_, ?_, h.expireAt⟩
      · rw [heq, SharedValue.populate, ht', he]
        rfl
      · change SharedValue.Shows hashBytes (.empty .list) (c.value.stored .shared)
        rw [hc]
        exact ⟨SharedList.numbered_empty, rfl⟩
    · obtain ⟨d', l', heq, hnum, hvals⟩ := writeback_list hok ht' he hashBytes d o
      refine ⟨d', _, heq, ?_, h.expireAt⟩
      change SharedValue.Shows hashBytes (.list l') (c.value.stored .shared)
      rw [hc]
      exact ⟨hnum, by rw [hvals, List.map_map]; rfl⟩

omit hok in
/-- Setting fields to the values they have. -/
theorem setFields_eq_self {fs : List (Field × Bytes)} {m : Finmap fun _ : Field => Bytes}
    (h : ∀ f ∈ fs, m.lookup f.1 = some f.2) : setFields fs m = m := by
  induction fs with
  | nil => rfl
  | cons f fs ih =>
    have hf := h f List.mem_cons_self
    rw [setFields, List.foldl_cons, SharedHash.insert_eq_self hf]
    exact ih fun g hg => h g (List.mem_cons_of_mem _ hg)

omit hok in
/-- All fields of the copy of a hash are dirty, and none has been deleted. -/
theorem dirty_of_copy (h : se.Shows hashBytes c) (he : e.Same se.materialize)
    (ht : c.value.type = .hash) :
    (∀ m, c.value = .hash m → ∀ f ∈ e.dirtyFields, m.lookup f.1 = some f.2) ∧
      e.tombstones = [] := by
  have hec := he.shows (materialize_shows h)
  obtain ⟨table, count, m, hs, hc, hholds, hvalid⟩ := h.hash ht
  constructor
  · rintro m' hm' f hf
    obtain rfl := View.hash.inj (hc.symm.trans hm')
    rw [Entry.dirtyFields] at hf
    have hcopy := hec.value
    rw [hc] at hcopy
    split at hf
    · rename_i h' ht' hval
      rw [hval] at hcopy
      obtain ⟨x, hx, hxf⟩ := List.mem_filterMap.1 hf
      split_ifs at hxf
      obtain rfl := Option.some.inj hxf
      have := hcopy x.1
      rw [Htab.mem_toList.1 (show (x.1, x.2) ∈ _ from hx)] at this
      exact this.symm
    · exact absurd hf List.not_mem_nil
  · rw [Entry.tombstones]
    split
    · rename_i h' ht' hval
      -- The payload of the copy is what the table materializes to, which has no tombstones.
      have hpay : se.value.payload = .hash h' := he.value.symm.trans hval
      rw [hs, SharedValue.payload] at hpay
      cases hm : SharedHash.materializeTable table with
      | none =>
        rw [hm] at hpay
        exact absurd hpay (by simp [Payload.null])
      | some h'' =>
        rw [hm] at hpay
        obtain rfl := Payload.hash.inj hpay
        exact SharedHash.tombstones_materialize hm
    · rfl

/-- A copy written back over the entry it was made of, or over one that gives the same
    copy. -/
theorem writeback_copy_shows (h : se.Shows hashBytes c) (he : e.Same se.materialize) (d : Dsa) :
    ∃ d' se', writeback hashBytes ok e d (some se) = (d', some se', .ok ()) ∧
      se'.Shows hashBytes c := by
  have hec := he.shows (materialize_shows h)
  by_cases ht : c.value.type = .hash
  swap
  · obtain ⟨d', se', heq, hse'⟩ := writeback_shows hok hec ht d (some se)
    exact ⟨d', se', heq, h.stored ▸ hse'⟩
  obtain ⟨table, count, m, hs, hc, hholds, hvalid⟩ := h.hash ht
  -- All fields are set to the values they have.
  obtain ⟨hdirty, htomb⟩ := dirty_of_copy h he ht
  have hfields := hdirty m hc
  have htype : e.type = .hash := hec.type.trans ht
  rw [writeback, if_neg (by rw [htype, h.type, ht]; simp), hs]
  simp only [SharedValue.surgicalApplyHash, htomb]
  rcases SharedValue.setAll_spec (fun i site => hok (.set i site)) count (hholds d) with
    ⟨s', count', heq, hs', -⟩ | ⟨s', count', err, heq, f, hf, hlong⟩
  · rw [heq]
    refine ⟨_, ⟨.hash s'.table count', e.expireAt, e.version⟩, rfl, ?_, hec.expireAt⟩
    change SharedValue.Shows hashBytes (.hash s'.table count') c.value
    rw [hc]
    rw [setFields_eq_self hfields] at hs'
    exact ⟨fun _ => hs', hvalid⟩
  · exact absurd (hvalid f.1 f.2 (hfields f hf)).2 (Nat.not_le.2 hlong)

end

/-! ## Fields in place -/

section

variable {o : Option SharedEntry} {o' : Option Cell} {key : Key} {field : Field}

/-- `HSET` on the entry it works on: a hash, or another value to be refused. -/
theorem opened_shows (h : Option.Rel (Shows hashBytes) o o') (now : ℤ) :
    (opened now o).Shows hashBytes
      ⟨.hash ((Cell.upserted now o').1.hashOrCreate (Cell.upserted now o').2),
        (Cell.upserted now o').1.expireAt⟩ ∧
      (!(Cell.upserted now o').2 && (Cell.upserted now o').1.value.type ≠ .hash) = false ∨
    ∃ se c, o = some se ∧ o' = some c ∧ opened now o = se ∧ Cell.upserted now o' = (c, false) ∧
      se.value.type = c.value.type ∧ c.value.type ≠ .hash := by
  have hfresh : freshHash.Shows hashBytes ⟨.hash ∅, none⟩ :=
    ⟨⟨fun _ => rfl, fun f v hv => absurd hv (by simp)⟩, rfl⟩
  cases h with
  | none => exact .inl ⟨hfresh, rfl⟩
  | some hec =>
    rename_i se c
    rw [opened, Cell.upserted, ← hec.isExpired]
    by_cases hexp : se.isExpired now
    · simp only [hexp, if_true]
      exact .inl ⟨hfresh, rfl⟩
    · simp only [if_neg hexp]
      by_cases ht : c.value.type = .hash
      · refine .inl ⟨?_, by simp [ht]⟩
        obtain ⟨v, x⟩ := c
        cases v <;> first | exact hec | cases ht
      · exact .inr ⟨se, c, rfl, rfl, rfl, rfl, hec.type, ht⟩

/-- `HSET` refuses another value than a hash. -/
theorem setAtomic_of_wrongType {se : SharedEntry} {ok : AllocSite → Bool} {now : ℤ}
    (hop : opened now o = se) (ht : se.value.type ≠ .hash) (key : Key) (field : Field)
    (value : Bytes) (d : Dsa) :
    setAtomic hashBytes ok now key field value d o = (d, o, [], notHash key se.value.type) := by
  rw [setAtomic, hop]
  cases hs : se.value with
  | hash table count => exact absurd (by rw [hs]; rfl) ht
  | str | int | list => rfl

/-- In the hash it has opened, `HSET` sets the field, or raises an error and leaves the hash as
    it is. -/
theorem setAtomic_of_opened {table : Option SharedTable} {count : ℤ}
    {m : Finmap fun _ : Field => Bytes} {x : Option ℤ} {version : UInt64} {now : ℤ}
    (hop : opened now o = ⟨.hash table count, x, version⟩)
    (hm : ∀ d, SharedHash.Holds hashBytes ⟨d, table⟩ m) (ok : AllocSite → Bool)
    (key : Key) (field : Field) (value : Bytes) (d : Dsa) :
    (value.length ≤ uint16Max ∧ ∃ d' table',
      setAtomic hashBytes ok now key field value d o = (d',
        some ⟨.hash table' (if field ∉ m then count + 1 else count), x, version + 1⟩,
        [.keyUpsert key .hash [] x (Int.bmod (version + 1).toNat (2 ^ 64)),
          .hashFieldUpsert key field value], .ok (.bool (field ∉ m))) ∧
      ∀ d, SharedHash.Holds hashBytes ⟨d, table'⟩ (m.insert field value)) ∨
    ∃ d' table' err, setAtomic hashBytes ok now key field value d o =
        (d', some ⟨.hash table' count, x, version⟩, [], .error (.writeback (.hash err))) ∧
      (err = .valueTooLong value.length ∧ uint16Max < value.length ∨ ∃ site, ok site = false) ∧
      ∀ d, SharedHash.Holds hashBytes ⟨d, table'⟩ m := by
  simp only [setAtomic, hop]
  rcases SharedHash.set_cases (hm (releaseExpired now d o)) ok field value with
    ⟨s', hx, h'⟩ | ⟨s', err, hx, h', hwhy⟩ <;> simp only [hx]
  · have hlen : value.length ≤ uint16Max := SharedHash.length_of_set (by rw [hx])
    refine .inl ⟨hlen, s'.dsa, s'.table, ?_, fun _ => h'⟩
    simp only [clip_eq_self.2 hlen, decide_eq_true_eq]
    rfl
  · exact .inr ⟨_, _, _, rfl, hwhy, fun _ => h'⟩

theorem setAtomic_shows {ok : AllocSite → Bool} (hok : ∀ site, ok site = true)
    (h : Option.Rel (Shows hashBytes) o o') (hfield : SharedHash.ValidField field) {value : Bytes}
    (hlen : value.length ≤ uint16Max) (now : ℤ) (key : Key) (d : Dsa) :
    (∃ d' se version, setAtomic hashBytes ok now key field value d o = (d', some se,
        [.keyUpsert key .hash [] (Cell.upserted now o').1.expireAt version,
          .hashFieldUpsert key field value],
        .ok (.bool (field ∉ (Cell.upserted now o').1.hashOrCreate (Cell.upserted now o').2))) ∧
      se.Shows hashBytes ⟨.hash (((Cell.upserted now o').1.hashOrCreate
        (Cell.upserted now o').2).insert field value), (Cell.upserted now o').1.expireAt⟩ ∧
      Cell.hset field value (Cell.upserted now o').2 (Cell.upserted now o').1 =
        .ok (⟨.hash (((Cell.upserted now o').1.hashOrCreate
          (Cell.upserted now o').2).insert field value), (Cell.upserted now o').1.expireAt⟩,
          .bool (field ∉ (Cell.upserted now o').1.hashOrCreate (Cell.upserted now o').2))) ∨
    ∃ t d', setAtomic hashBytes ok now key field value d o = (d', o, [], notHash key t) ∧
      Cell.hset field value (Cell.upserted now o').2 (Cell.upserted now o').1 =
        .error (.wrongType t .hash) ∧ ∃ c, o' = some c ∧ (Cell.upserted now o').1 = c := by
  -- A hash is opened, found or made, or the entry is of another type and is left.
  rcases opened_shows h now with ⟨hse, hno⟩ | ⟨se, c, rfl, rfl, hop, hup, ht, hne⟩
  · left
    obtain ⟨table, count, m, hval, hm, hshow⟩ := hse.hash rfl
    obtain rfl := View.hash.inj hm
    have hop : opened now o = ⟨.hash table count, (Cell.upserted now o').1.expireAt,
        (opened now o).version⟩ := by
      rw [← hval, ← hse.expireAt]
    rcases setAtomic_of_opened hop hshow.1 ok key field value d with
      ⟨-, d', table', heq, hm'⟩ | ⟨-, -, -, -, ⟨-, hlong⟩ | ⟨site, hfail⟩, -⟩
    · refine ⟨d', _, _, heq, ⟨hshow.insert hfield hlen hm', rfl⟩, ?_⟩
      rw [Cell.hset, hno]
      rfl
    · exact absurd hlen (Nat.not_le.2 hlong)
    · rw [hok] at hfail
      exact absurd hfail (by decide)
  · right
    refine ⟨se.value.type, d, setAtomic_of_wrongType hop (ht ▸ hne) key field value d, ?_, c, rfl,
      by rw [hup]⟩
    rw [hup, Cell.hset, ht]
    simp [hne]

/-- The error of `HSET` with a value longer than its length can say. -/
def longError (key : Key) (value : Bytes) : Option Cell → SharedCommandError
  | some c =>
    if c.value.type = .hash then .writeback (.hash (.valueTooLong value.length))
    else .command (.entry key (.wrongType c.value.type .hash))
  | none => .writeback (.hash (.valueTooLong value.length))

/-- With too long a value `HSET` fails; what it has made of a missing or expired entry stays. -/
theorem setAtomic_long {ok : AllocSite → Bool} (hok : ∀ site, ok site = true)
    (h : Option.Rel (Shows hashBytes) o o') {value : Bytes} (hlong : uint16Max < value.length)
    (now : ℤ) (key : Key) (field : Field) (d : Dsa) :
    ∃ d' o₁, setAtomic hashBytes ok now key field value d o =
        (d', o₁, [], .error (longError key value (Cell.found now o'))) ∧
      Option.Rel (Shows hashBytes) o₁ ((Cell.found now o').or (some ⟨.hash ∅, none⟩)) := by
  rcases opened_shows h now with ⟨hse, hno⟩ | ⟨se, c, rfl, rfl, hop, hup, ht, hne⟩
  · obtain ⟨table, count, m, hval, hm, hshow⟩ := hse.hash rfl
    obtain rfl := View.hash.inj hm
    -- The map `HSET` opens is that of the entry found, or an empty one.
    have hcell : (Cell.found now o').or (some ⟨.hash ∅, none⟩) =
        some ⟨.hash ((Cell.upserted now o').1.hashOrCreate (Cell.upserted now o').2),
          (Cell.upserted now o').1.expireAt⟩ ∧
        longError key value (Cell.found now o') =
          .writeback (.hash (.valueTooLong value.length)) := by
      cases o' with
      | none => exact ⟨rfl, rfl⟩
      | some c =>
        rw [Cell.upserted] at hno ⊢
        rw [Cell.found]
        split_ifs at hno ⊢ with hexp
        · exact ⟨rfl, rfl⟩
        · obtain ⟨v, x⟩ := c
          cases v <;> first | exact ⟨rfl, rfl⟩ | simp [View.type] at hno
    have hop : opened now o = ⟨.hash table count, (Cell.upserted now o').1.expireAt,
        (opened now o).version⟩ := by
      rw [← hval, ← hse.expireAt]
    rw [hcell.1, hcell.2]
    rcases setAtomic_of_opened hop hshow.1 ok key field value d with
      ⟨hlen, -⟩ | ⟨d', table', err, heq, ⟨rfl, -⟩ | ⟨site, hfail⟩, hm'⟩
    · exact absurd hlen (Nat.not_le.2 hlong)
    · exact ⟨d', _, heq, .some ⟨⟨hm', hshow.2⟩, rfl⟩⟩
    · rw [hok] at hfail
      exact absurd hfail (by decide)
  · have hfound : Cell.found now (some c) = some c := by
      rw [Cell.upserted] at hup
      split_ifs at hup with hexp
      · exact absurd (congrArg Prod.snd hup) (by simp)
      · exact if_neg hexp
    refine ⟨d, some se, ?_, ?_⟩
    · rw [setAtomic_of_wrongType hop (ht ▸ hne), hfound, longError, if_neg hne, ← ht]
      rfl
    · rw [hfound]
      exact h

theorem delAtomic_shows (h : Option.Rel (Shows hashBytes) o o') (ok : AllocSite → Bool) (now : ℤ)
    (key : Key) (field : Field) (d : Dsa) :
    (Cell.found now o' = none ∧
      ∃ d', delAtomic hashBytes ok now key field d o = (d', none, [], .ok (.bool false))) ∨
    ∃ c, Cell.found now o' = some c ∧ o' = some c ∧
      ((c.value.type ≠ .hash ∧ ∃ d', delAtomic hashBytes ok now key field d o =
        (d', o, [], notHash key c.value.type)) ∨
      ∃ m, c.value = .hash m ∧ ∃ d' se, delAtomic hashBytes ok now key field d o = (d', some se,
          if field ∈ m then [.hashFieldDelete key field] else [], .ok (.bool (field ∈ m))) ∧
        se.Shows hashBytes ⟨.hash (m.erase field), c.expireAt⟩) := by
  cases h with
  | none => exact .inl ⟨rfl, d, rfl⟩
  | some hec =>
    rename_i se c
    rw [delAtomic, Cell.found, ← hec.isExpired]
    by_cases hexp : se.isExpired now
    · -- An expired entry is removed, whatever its type.
      rw [if_pos hexp, if_pos hexp]
      exact .inl ⟨rfl, _, rfl⟩
    simp only [if_neg hexp]
    refine .inr ⟨c, rfl, rfl, ?_⟩
    by_cases ht : c.value.type = .hash
    · right
      obtain ⟨table, count, m, hval, hc, hholds, hvalid⟩ := hec.hash ht
      have hkeep : ∀ f v, (m.erase field).lookup f = some v →
          SharedHash.ValidField f ∧ v.length ≤ uint16Max := fun f v hv => by
        by_cases hf : f = field
        · rw [hf, Finmap.lookup_erase] at hv
          exact absurd hv (by simp)
        · rw [Finmap.lookup_erase_ne hf] at hv
          exact hvalid f v hv
      obtain ⟨hreply, h'⟩ := SharedHash.del_spec (hholds d) ok field
      obtain ⟨s', r, hx⟩ : ∃ s' r, SharedHash.del hashBytes ok field ⟨d, table⟩ = (s', r) :=
        ⟨_, _, rfl⟩
      rw [hx] at hreply h'
      obtain rfl : r = _ := hreply
      refine ⟨m, hc, ?_⟩
      rw [hval]
      simp only [hx]
      by_cases hmem : field ∈ m
      · simp only [hmem, decide_true, if_true]
        exact ⟨_, _, rfl, ⟨fun _ => h', hkeep⟩, hec.expireAt⟩
      · simp only [hmem, decide_false, if_false]
        exact ⟨_, _, rfl, ⟨fun _ => h', hkeep⟩, hec.expireAt⟩
    · left
      refine ⟨ht, d, ?_⟩
      have htype := hec.type
      cases hs : se.value with
      | hash table count =>
        rw [hs] at htype
        exact absurd htype.symm ht
      | str | int | list => rw [← htype, hs]

end

end SharedEntry

/-! ## The keyspace -/

namespace SharedStore

variable {hashBytes : Bytes → UInt32} {ok : StoreSite → Bool} {S S' : SharedStore} {K : Cells}
  {key : Key} {now now' : ℤ}

/-- The keyspace after a step that touches only the entry of `key`. -/
theorem Shows.update (h : S.Shows hashBytes K) {o : Option Cell}
    (hkey : Option.Rel (SharedEntry.Shows hashBytes) (S'.entries.lookup key) o)
    (hne : ∀ k ≠ key, S'.entries.lookup k = S.entries.lookup k) :
    S'.Shows hashBytes (Function.update K key o) := fun k => by
  by_cases hk : k = key
  · rw [hk, Function.update_self]
    exact hkey
  · rw [Function.update_of_ne hk, hne k hk]
    exact h k

/-- A keyspace has one content. -/
theorem Shows.unique {K' : Cells} (h : S.Shows hashBytes K) (h' : S.Shows hashBytes K') :
    K = K' := by
  funext k
  have hk := h k
  have hk' := h' k
  revert hk hk'
  generalize S.entries.lookup k = o, K k = a, K' k = a'
  rintro (⟨h⟩ | _) (⟨h'⟩ | _)
  · rw [h.unique h']
  · rfl

theorem Shows.eq_none (h : S.Shows hashBytes K) (hl : S.entries.lookup key = none) :
    K key = none := by
  have hkey := h key
  rw [hl] at hkey
  cases hK : K key with
  | none => rfl
  | some c =>
    rw [hK] at hkey
    exact absurd hkey (by simp)

theorem Shows.eq_some (h : S.Shows hashBytes K) {se : SharedEntry}
    (hl : S.entries.lookup key = some se) : ∃ c, K key = some c ∧ se.Shows hashBytes c :=
  exists_of_rel_some (hl ▸ h key)

/-- The cell of a key is held by an entry. -/
theorem Shows.exists_entry (h : S.Shows hashBytes K) {c : Cell} (hK : K key = some c) :
    ∃ se, S.entries.lookup key = some se ∧ se.Shows hashBytes c :=
  exists_of_rel_some_right (hK ▸ h key)

/-- A locked section, by what it does to the entry. -/
theorem Shows.locked {α : Type} (h : S.Shows hashBytes K)
    {f : Dsa → Option SharedEntry → Dsa × Option SharedEntry × α} {o : Option Cell}
    (hf : Option.Rel (SharedEntry.Shows hashBytes) (f S.dsa (S.entries.lookup key)).2.1 o) :
    (S.locked key f).1.Shows hashBytes (Function.update K key o) :=
  h.update (by rw [lookup_locked, if_pos rfl]; exact hf) fun k hk => by
    rw [lookup_locked, if_neg hk]

theorem Shows.upsert (h : S.Shows hashBytes K) (now : ℤ) (key : Key) :
    (S.upsert now key).1.Shows hashBytes
      (Function.update K key (some (Cell.upserted now (K key)).1)) :=
  h.locked (.some (SharedEntry.upserted_shows (h key) now).1)

theorem Shows.remove (h : S.Shows hashBytes K) (key : Key) : (S.remove key).2 = (K key).isSome ∧
    (S.remove key).1.Shows hashBytes (Function.update K key none) := by
  constructor
  · rw [SharedStore.remove, locked_snd]
    rcases rel_cases (h key) with ⟨hl, hK⟩ | ⟨se, c, hl, hK, -⟩ <;> rw [hl, hK] <;> rfl
  · refine h.locked ?_
    cases S.entries.lookup key <;> exact .none

/-- The copy a lookup gives. -/
theorem Shows.lookupRaw (h : S.Shows hashBytes K) (key : Key) :
    Option.Rel Entry.Shows (S.lookupRaw key) (K key) := by
  rw [SharedStore.lookupRaw]
  rcases rel_cases (h key) with ⟨hl, hK⟩ | ⟨se, c, hl, hK, hsec⟩ <;> rw [hl, hK]
  · exact .none
  · exact .some (SharedEntry.materialize_shows hsec)

/-- What a lookup finds and leaves. -/
theorem Shows.lookup (h : S.Shows hashBytes K) (now : ℤ) (key : Key) :
    ((S.lookup now key).2 = none ∧ Cell.found now (K key) = none ∧
      (S.lookup now key).1.Shows hashBytes (Function.update K key none)) ∨
    ∃ e c, S.lookup now key = (S, some e) ∧ S.lookupRaw key = some e ∧
      K key = some c ∧ Cell.found now (K key) = some c ∧ e.Shows c := by
  rw [SharedStore.lookup]
  rcases rel_cases (h.lookupRaw key) with ⟨hl, hK⟩ | ⟨e, c, hl, hK, hec⟩ <;> rw [hl, hK]
  · refine .inl ⟨rfl, rfl, h.update ?_ fun _ _ => rfl⟩
    rw [SharedStore.lookupRaw, Option.map_eq_none_iff] at hl
    rw [hl]
    exact .none
  · simp only [Cell.found, ← hec.isExpired]
    split_ifs
    · exact .inl ⟨rfl, rfl, (h.remove key).2⟩
    · exact .inr ⟨e, c, rfl, rfl, rfl, rfl, hec⟩

section

variable (hok : ∀ site, ok site = true)

include hok

/-- A copy of no hash written back. -/
theorem Shows.writeback (h : S.Shows hashBytes K) {e : Entry} {c : Cell} (hec : e.Shows c)
    (ht : c.value.type ≠ .hash) (key : Key) :
    ∃ S', S.writeback hashBytes ok key e = (S', .ok ()) ∧
      S'.Shows hashBytes (Function.update K key (some (c.stored .shared))) := by
  obtain ⟨d', se, heq, hse⟩ : ∃ d' se, SharedEntry.writeback hashBytes ok e S.dsa
      (S.entries.lookup key) = (d', some se, .ok ()) ∧ _ :=
    SharedEntry.writeback_shows hok hec ht S.dsa (S.entries.lookup key)
  refine ⟨(S.writeback hashBytes ok key e).1, Prod.ext rfl ?_, h.locked ?_⟩
  · rw [writeback_snd, heq]
  · rw [heq]
    exact .some hse

/-- A copy of no hash written back and published. -/
theorem markDirty_shows (h : S.Shows hashBytes K) {e : Entry} {c : Cell} (hec : e.Shows c)
    (ht : c.value.type ≠ .hash) (key : Key) (r : Reply) :
    ∃ S', S.markDirty hashBytes ok key e r = (S', e.events key, .ok r) ∧
      S'.Shows hashBytes (Function.update K key (some (c.stored .shared))) := by
  obtain ⟨S', heq, hS'⟩ := h.writeback hok hec ht key
  exact ⟨S', by rw [markDirty, heq], hS'⟩

/-- A command that upserts its key. -/
theorem update_shows (h : S.Shows hashBytes K) (now : ℤ) (key : Key)
    {f : Bool → Entry → Except EntryError (Entry × Reply)}
    {g : Bool → Cell → Except EntryError (Cell × Reply)} (hfg : UpdateSim f g)
    (hno : ∀ isNew c c' r, g isNew c = .ok (c', r) → c'.value.type ≠ .hash) :
    ∃ S', S'.Shows hashBytes (Function.update K key (Cell.update .shared now key g (K key)).1) ∧
      ((∃ err, g (Cell.upserted now (K key)).2 (Cell.upserted now (K key)).1 = .error err ∧
        S.update hashBytes ok now key f = (S', [], .error (.command (.entry key err)))) ∨
      ∃ (e' : Entry) (c' : Cell) (r : Reply),
        g (Cell.upserted now (K key)).2 (Cell.upserted now (K key)).1 = .ok (c', r) ∧
        e'.Shows c' ∧ S.update hashBytes ok now key f = (S', e'.events key, .ok r)) := by
  obtain ⟨hec, hnew⟩ := SharedEntry.upserted_shows (h key) now
  have hup : S.upsert now key = ((S.upsert now key).1,
      (SharedEntry.upserted now (S.entries.lookup key)).1.materialize,
      (SharedEntry.upserted now (S.entries.lookup key)).2) := Prod.ext rfl upsert_snd
  rw [SharedStore.update, Cell.update, hup, ← hnew]
  simp only
  rcases hfg (SharedEntry.upserted now (S.entries.lookup key)).2 _ _
    (SharedEntry.materialize_shows hec) with ⟨err, hf, hg⟩ | ⟨e', c', r, hf, hg, hec'⟩
  · simp only [hf, hg]
    exact ⟨_, h.upsert now key, .inl ⟨err, rfl, rfl⟩⟩
  · simp only [hf, hg]
    obtain ⟨S', heq, hS'⟩ := markDirty_shows hok (h.upsert now key) hec'
      (hno _ _ _ _ hg) key r
    rw [Function.update_idem] at hS'
    exact ⟨S', hS', .inr ⟨e', c', r, rfl, hec', heq⟩⟩

/-- A command that looks its key up. -/
theorem query_shows (h : S.Shows hashBytes K) (now : ℤ) (key : Key) (missing : Reply)
    {f : Entry → Except EntryError (Option Entry × Reply)}
    {g : Cell → Except EntryError (Option Cell × Reply)} (hfg : QuerySim (fun _ => True) f g)
    (hno : ∀ c c' r, g c = .ok (some c', r) → c'.value.type ≠ .hash) :
    ∃ S' evs, S'.Shows hashBytes
        (Function.update K key (Cell.query .shared now key missing g (K key)).1) ∧
      S.query hashBytes ok now key missing f = (S', evs,
        (Cell.query .shared now key missing g (K key)).2.mapError .command) ∧
      ((∀ c c' r, Cell.found now (K key) = some c → g c ≠ .ok (some c', r)) → evs = []) := by
  rcases h.lookup now key with ⟨hnone, hfound, hs'⟩ | ⟨e, c, hl, he, hK, hfound, hec⟩
  · have hpair : S.lookup now key = ((S.lookup now key).1, none) := Prod.ext rfl hnone
    rw [query, Cell.query, hpair, hfound]
    exact ⟨_, _, hs', rfl, fun _ => rfl⟩
  · have hsame : S.Shows hashBytes (Function.update K key (some c)) := by
      rw [← hK, Function.update_eq_self]
      exact h
    rw [query, Cell.query, hl, hfound]
    simp only
    rcases hfg e c trivial hec with ⟨err, hf, hg⟩ | ⟨r, hf, hg⟩ | ⟨e', c', r, hf, hg, hec'⟩
    · simp only [hf, hg]
      exact ⟨_, _, hsame, rfl, fun _ => rfl⟩
    · simp only [hf, hg]
      exact ⟨_, _, hsame, rfl, fun _ => rfl⟩
    · simp only [hf, hg]
      obtain ⟨S', heq, hS'⟩ := markDirty_shows hok h hec' (hno c c' r hg) key r
      exact ⟨S', _, hS', heq, fun h' => absurd hg (h' c c' r rfl)⟩

end

/-- `HSET`: its parent row and its field are published. -/
theorem hset_shows (hok : ∀ site, ok site = true) (h : S.Shows hashBytes K) {field : Field}
    (hfield : SharedHash.ValidField field) {value : Bytes} (hlen : value.length ≤ uint16Max)
    (now : ℤ) (key : Key) :
    ∃ S', S'.Shows hashBytes (Function.update K key
        (Cell.update .shared now key (Cell.hset field value) (K key)).1) ∧
      ((∃ err, Cell.hset field value (Cell.upserted now (K key)).2 (Cell.upserted now (K key)).1 =
          .error err ∧ S.hset hashBytes ok now key field value =
            (S', [], .error (.command (.entry key err)))) ∨
      ∃ c' r version, Cell.hset field value (Cell.upserted now (K key)).2
          (Cell.upserted now (K key)).1 = .ok (c', r) ∧
        S.hset hashBytes ok now key field value = (S',
          [.keyUpsert key .hash [] c'.expireAt version, .hashFieldUpsert key field value],
          .ok r)) := by
  have hsite : ∀ site, (fun site => ok (.set 0 site)) site = true := fun _ => hok _
  refine ⟨(S.hset hashBytes ok now key field value).1, h.locked ?_, ?_⟩ <;>
    rcases SharedEntry.setAtomic_shows hsite (h key) hfield hlen now key S.dsa with
      ⟨d', se, version, heq, hse, hg⟩ | ⟨t, d', heq, hg, c, hK, hup⟩
  · rw [heq, Cell.update, hg]
    exact .some hse
  · rw [heq, Cell.update, hg, hup, ← hK]
    exact h key
  · refine .inr ⟨_, _, version, hg, Prod.ext rfl ?_⟩
    rw [hset, locked_snd, heq]
  · refine .inl ⟨_, hg, Prod.ext rfl ?_⟩
    rw [hset, locked_snd, heq]
    rfl

/-- `HSET` with too long a value. -/
theorem hset_long (hok : ∀ site, ok site = true) (h : S.Shows hashBytes K) {value : Bytes}
    (hlong : uint16Max < value.length) (now : ℤ) (key : Key) (field : Field) :
    ∃ S', S'.Shows hashBytes (Function.update K key
        ((Cell.found now (K key)).or (some ⟨.hash ∅, none⟩))) ∧
      S.hset hashBytes ok now key field value =
        (S', [], .error (SharedEntry.longError key value (Cell.found now (K key)))) := by
  obtain ⟨d', o₁, heq, hrel⟩ := SharedEntry.setAtomic_long
    (show ∀ site, (fun site => ok (.set 0 site)) site = true from fun _ => hok _) (h key) hlong now
    key field S.dsa
  refine ⟨(S.hset hashBytes ok now key field value).1, h.locked ?_, Prod.ext rfl ?_⟩
  · rw [heq]
    exact hrel
  · rw [hset, locked_snd, heq]

/-- `HDEL`: the field is published if it was there. -/
theorem hdel_shows (h : S.Shows hashBytes K) (ok : StoreSite → Bool) (now : ℤ) (key : Key)
    (field : Field) :
    ∃ S', S'.Shows hashBytes (Function.update K key
        (Cell.query .shared now key (.bool false) (Cell.hdel field) (K key)).1) ∧
      S.hdel hashBytes ok now key field = (S',
        (match (Cell.query .shared now key (.bool false) (Cell.hdel field) (K key)).2 with
          | .ok (.bool true) => [.hashFieldDelete key field]
          | _ => []),
        (Cell.query .shared now key (.bool false) (Cell.hdel field) (K key)).2.mapError
          .command) := by
  rcases SharedEntry.delAtomic_shows (h key) (fun site => ok (.del 0 site)) now key field
    S.dsa with ⟨hf, d', heq⟩ | ⟨c, hf, hK, ⟨ht, d', heq⟩ | ⟨m, hc, d', se, heq, hse⟩⟩
  · rw [Cell.query, hf]
    refine ⟨(S.hdel hashBytes ok now key field).1, h.locked ?_, Prod.ext rfl ?_⟩
    · rw [heq]
      exact .none
    · rw [hdel, locked_snd, heq]
      rfl
  · have hg : Cell.hdel field c = .error (.wrongType c.value.type .hash) := by
      rw [Cell.hdel, Cell.withHash]
      cases hc : c.value <;> first | rfl | (rw [hc] at ht; exact absurd rfl ht)
    rw [Cell.query, hf]
    simp only [hg]
    refine ⟨(S.hdel hashBytes ok now key field).1, h.locked ?_, Prod.ext rfl ?_⟩
    · rw [heq]
      exact hK ▸ h key
    · rw [hdel, locked_snd, heq]
      rfl
  · rw [Cell.query, hf]
    simp only [Cell.hdel, Cell.withHash, hc]
    refine ⟨(S.hdel hashBytes ok now key field).1, h.locked ?_, Prod.ext rfl ?_⟩
    · rw [heq]
      by_cases hmem : field ∈ m
      · simp only [if_pos hmem, Option.map_some]
        exact .some hse
      · -- Erasing a field that is not there leaves the map.
        simp only [if_neg hmem, Option.map_none]
        rw [SharedHash.erase_of_lookup (Finmap.lookup_eq_none.2 hmem)] at hse
        refine .some ⟨?_, hse.expireAt⟩
        rw [hc]
        exact hse.value
    · rw [hdel, locked_snd, heq]
      by_cases hmem : field ∈ m
      · simp only [hmem, if_true, Option.map_some, decide_true]
        rfl
      · simp only [hmem, if_false, Option.map_none, decide_false]
        rfl

section

variable (hok : ∀ site, ok site = true)

include hok

/-- `HGET` and `HEXISTS`, given what they read of a map. -/
theorem queryField_shows (now now' : ℤ) (key : Key) {α : Type}
    (read : SharedHash → Except SharedHashError (Option α)) (reply : Option α → Reply)
    (slow : Hash → Reply) (look : (Finmap fun _ : Field => Bytes) → Option α)
    (hread : ∀ s m, SharedHash.Holds hashBytes s m → read s = .ok (look m))
    (hslow : ∀ (h : Hash) m, (∀ f, (h.fields.lookup f).map HashField.value = m.lookup f) →
      slow h = reply (look m))
    (hnull : look ∅ = none) (h : S.Shows hashBytes K) :
    ∃ S', S'.Shows hashBytes (Function.update K key
        (Cell.query .shared (Cell.lookupTime .shared now now' (K key)) key (reply none)
          (Cell.withHash fun m => (none, reply (look m))) (K key)).1) ∧
      S.queryField hashBytes ok now now' key read reply slow = (S', [],
        (Cell.query .shared (Cell.lookupTime .shared now now' (K key)) key (reply none)
          (Cell.withHash fun m => (none, reply (look m))) (K key)).2.mapError .command) := by
  have hsim : QuerySim (fun _ => True) (Entry.readHash (reply none) slow)
      (Cell.withHash fun m => (none, reply (look m))) := by
    intro e c _ hec
    rw [Entry.readHash, Cell.withHash, hec.type]
    rcases hec.cases with ⟨-, ⟨s, -, hc⟩ | ⟨-, hc⟩⟩ | ⟨i, -, -, hc⟩ | ⟨-, m, hc, hm⟩ |
      ⟨-, vs, hc, -⟩
    case inr.inr.inl =>
      rw [hc]
      rcases hm with ⟨he, rfl⟩ | ⟨h', he, hm⟩
      · exact .inr (.inl ⟨reply none, by rw [he]; rfl, by simp [hnull]⟩)
      · exact .inr (.inl ⟨reply (look m), by rw [he, ← hslow h' m hm]; rfl, rfl⟩)
    all_goals
      rw [hc]
      exact .inl ⟨_, rfl, rfl⟩
  have hread_only := Cell.withHash_ne_some fun m => reply (look m)
  rw [queryField]
  have hkey := h key
  cases hl : S.entries.lookup key <;> cases hK : K key <;> rw [hl, hK] at hkey
  · refine ⟨S, ?_, rfl⟩
    change S.Shows hashBytes (Function.update K key none)
    rw [← hK, Function.update_eq_self]
    exact h
  · exact absurd hkey (by simp)
  · exact absurd hkey (by simp)
  rename_i se c
  rw [Option.rel_some_some] at hkey
  rw [SharedEntry.lookupField, Cell.lookupTime, hkey.isExpired]
  by_cases hexp : c.isExpired now
  · -- The slow path looks the key up again, at a later reading of the clock.
    simp only [if_pos hexp]
    obtain ⟨S', evs, hS', heq, hevs⟩ := query_shows hok h now' key (reply none) hsim
      fun c c' r heq => absurd heq (hread_only c c' r)
    rw [hK] at hS' heq
    rw [hevs fun c c' r _ => hread_only c c' r] at heq
    exact ⟨S', hS', heq⟩
  · simp only [if_neg hexp]
    have hfound : Cell.found now (some c) = some c := if_neg hexp
    have hsame : S.Shows hashBytes (Function.update K key (some c)) := by
      rw [← hK, Function.update_eq_self]
      exact h
    have hv := hkey.value
    rw [Cell.query, hfound]
    simp only [Cell.withHash]
    cases hs : se.value <;> cases hc : c.value <;> rw [hs, hc] at hv
    case hash.hash table count m =>
      simp only [hread _ _ (hv.1 S.dsa)]
      exact ⟨S, hsame, rfl⟩
    case str.str | int.int | list.list => exact ⟨S, hsame, rfl⟩
    all_goals exact hv.elim

theorem hget_shows (h : S.Shows hashBytes K) {field : Field} (hlen : field.length ≤ maxFieldSize)
    (now now' : ℤ) (key : Key) :
    ∃ S', S'.Shows hashBytes (Function.update K key
        (Cell.query .shared (Cell.lookupTime .shared now now' (K key)) key (.text none)
          (Cell.hget field) (K key)).1) ∧
      S.hget hashBytes ok now now' key field = (S', [],
        (Cell.query .shared (Cell.lookupTime .shared now now' (K key)) key (.text none)
          (Cell.hget field) (K key)).2.mapError .command) :=
  queryField_shows hok now now' key _ .text _ (fun m => m.lookup field)
    (fun _ _ hs => SharedHash.get_spec hs field)
    (fun _ _ hm => congrArg Reply.text (Entry.get_shows hlen hm)) (Finmap.lookup_empty field) h

theorem hexists_shows (h : S.Shows hashBytes K) {field : Field}
    (hlen : field.length ≤ maxFieldSize) (now now' : ℤ) (key : Key) :
    ∃ S', S'.Shows hashBytes (Function.update K key
        (Cell.query .shared (Cell.lookupTime .shared now now' (K key)) key (.bool false)
          (Cell.hexists field) (K key)).1) ∧
      S.hexists hashBytes ok now now' key field = (S', [],
        (Cell.query .shared (Cell.lookupTime .shared now now' (K key)) key (.bool false)
          (Cell.hexists field) (K key)).2.mapError .command) := by
  have hmem : ∀ m : Finmap fun _ : Field => Bytes,
      (if field ∈ m then some () else none).isSome = decide (field ∈ m) := fun m => by
    split_ifs with hf <;> simp [hf]
  obtain ⟨S', hS', heq⟩ := queryField_shows hok now now' key
    (fun s => (SharedHash.exists? hashBytes field s).map fun b => if b then some () else none)
    (fun a => .bool a.isSome) (fun h => .bool (h.exists? field))
    (fun m => if field ∈ m then some () else none)
    (fun s m hs => by rw [SharedHash.exists_spec hs]; simp [Except.map])
    (fun h m hm => by rw [Entry.exists_shows hlen hm, hmem]) (if_neg Finmap.notMem_empty) h
  simp only [hmem] at hS' heq
  exact ⟨S', hS', heq⟩

theorem expire_shows (h : S.Shows hashBytes K) (now now' : ℤ) (key : Key) (seconds : ℤ) :
    ∃ S' evs, S'.Shows hashBytes (Function.update K key
        (Cell.expire .shared now now' seconds (K key)).1) ∧
      S.expire hashBytes ok now key seconds = (S', evs,
        (Cell.expire .shared now now' seconds (K key)).2.mapError .command) ∧
      (seconds ≤ 0 → evs = []) := by
  rcases h.lookup now key with ⟨hnone, hfound, hs'⟩ | ⟨e, c, hl, he, hK, hfound, hec⟩
  · have hpair : S.lookup now key = ((S.lookup now key).1, none) := Prod.ext rfl hnone
    rw [expire, Cell.expire, hpair, hfound]
    exact ⟨_, _, hs', rfl, fun _ => rfl⟩
  · rw [expire, Cell.expire, hl, hfound]
    simp only [he]
    split_ifs with hneg
    · exact ⟨_, _, (h.remove key).2, rfl, fun _ => rfl⟩
    · obtain ⟨se, hse, rfl⟩ := Option.map_eq_some_iff.1 he
      have hkey := h key
      rw [hse, hK, Option.rel_some_some] at hkey
      obtain ⟨d', se', heq, hse'⟩ := SharedEntry.writeback_copy_shows hok hkey (.refl _) S.dsa
      have hpair : S.writeback hashBytes ok key se.materialize =
          ((S.writeback hashBytes ok key se.materialize).1, .ok ()) :=
        Prod.ext rfl (by rw [writeback_snd, hse, heq])
      refine ⟨(S.writeback hashBytes ok key se.materialize).1, se.materialize.events key,
        h.locked ?_, ?_, fun h => absurd h hneg⟩
      · rw [hse, heq, hkey.stored]
        exact .some hse'
      · rw [markDirty, hpair]
        rfl

omit hok in
theorem ttl_shows (h : S.Shows hashBytes K) (now now' : ℤ) (key : Key) :
    ∃ S', S'.Shows hashBytes (Function.update K key (Cell.ttl now now' (K key)).1) ∧
      S.ttl now now' key = (S', [], (Cell.ttl now now' (K key)).2.mapError .command) := by
  rcases h.lookup now key with ⟨hnone, hfound, hs'⟩ | ⟨e, c, hl, he, hK, hfound, hec⟩
  · have hpair : S.lookup now key = ((S.lookup now key).1, none) := Prod.ext rfl hnone
    rw [ttl, Cell.ttl, hpair, hfound]
    exact ⟨_, hs', rfl⟩
  · have hsame : S.Shows hashBytes (Function.update K key (some c)) := by
      rw [← hK, Function.update_eq_self]
      exact h
    rw [ttl, Cell.ttl, hl, hfound]
    simp only [hec.expireAt]
    cases c.expireAt with
    | none => exact ⟨_, hsame, rfl⟩
    | some t =>
      simp only
      split_ifs
      · exact ⟨_, (h.remove key).2, rfl⟩
      · exact ⟨_, hsame, rfl⟩

/-- A command whose arguments have been checked, with enough memory. A field is SQL text, and
    a value set in a hash is no longer than its length can say. -/
theorem perform_shows (h : S.Shows hashBytes K) {lim : Limits} {c : Command}
    (hcheck : c.check lim = .ok ()) (htext : ∀ field, c.field? = some field → 0 ∉ field)
    (hlen : ∀ key field value, c = .hset key field value → value.length ≤ uint16Max)
    (now now' : ℤ) :
    ∃ S' evs, S'.Shows hashBytes
        (Function.update K c.key (Cell.perform .shared now now' (K c.key) c).1) ∧
      S.perform hashBytes ok now now' c = (S', evs,
        (Cell.perform .shared now now' (K c.key) c).2.mapError .command) := by
  -- The commands that upsert their key, and below those that look it up.
  have update : ∀ {key f g}, UpdateSim f g →
      (∀ isNew c c' r, g isNew c = .ok (c', r) → c'.value.type ≠ .hash) →
      ∃ S' evs, S'.Shows hashBytes
          (Function.update K key (Cell.update .shared now key g (K key)).1) ∧
        S.update hashBytes ok now key f = (S', evs,
          (Cell.update .shared now key g (K key)).2.mapError .command) := by
    intro key f g hfg hno
    obtain ⟨S', hS', ⟨err, hg, heq⟩ | ⟨e', c', r, hg, -, heq⟩⟩ :=
      update_shows hok h now key hfg hno
    · exact ⟨S', _, hS', by rw [heq, Cell.update, hg]; rfl⟩
    · exact ⟨S', _, hS', by rw [heq, Cell.update, hg]; rfl⟩
  have query : ∀ {key missing f g}, QuerySim (fun _ => True) f g →
      (∀ c c' r, g c = .ok (some c', r) → c'.value.type ≠ .hash) →
      ∃ S' evs, S'.Shows hashBytes
          (Function.update K key (Cell.query .shared now key missing g (K key)).1) ∧
        S.query hashBytes ok now key missing f = (S', evs,
          (Cell.query .shared now key missing g (K key)).2.mapError .command) := by
    intro key missing f g hfg hno
    obtain ⟨S', evs, hS', heq, -⟩ := query_shows hok h now key missing hfg hno
    exact ⟨S', evs, hS', heq⟩
  have hvalid : ∀ field, c.field? = some field → SharedHash.ValidField field := fun field hf =>
    ⟨(Command.field_length_le hcheck hf).1, (Command.field_length_le hcheck hf).2, htext field hf⟩
  cases c with
  | set key value =>
    exact update (Entry.updateSim_set value) fun _ _ _ _ h => Cell.type_of_set h
  | get key => exact query Entry.querySim_get fun _ _ _ h => absurd h (Cell.get_ne_some _ _ _)
  | del key =>
    refine ⟨_, [], (h.remove key).2, ?_⟩
    rw [perform, Cell.perform, (h.remove key).1]
    rfl
  | exists? key =>
    exact query Entry.querySim_exists fun _ _ _ h =>
      absurd (congrArg Prod.fst (Except.ok.inj h)) (by simp)
  | expire key seconds =>
    obtain ⟨S', evs, hS', heq, -⟩ := expire_shows hok h now now' key seconds
    exact ⟨S', evs, hS', heq⟩
  | ttl key =>
    obtain ⟨S', hS', heq⟩ := ttl_shows h now now' key
    exact ⟨S', _, hS', heq⟩
  | incr key =>
    exact update (Entry.updateSim_incrdecr 1) fun _ _ _ _ h => Cell.type_of_incrdecr h
  | decr key =>
    exact update (Entry.updateSim_incrdecr (-1)) fun _ _ _ _ h => Cell.type_of_incrdecr h
  | hset key field value =>
    obtain ⟨S', hS', ⟨err, hg, heq⟩ | ⟨c', r, version, hg, heq⟩⟩ := hset_shows hok h
      (hvalid field rfl) (hlen key field value rfl) now key
    · refine ⟨S', [], hS', ?_⟩
      rw [perform, heq, Cell.perform, Cell.update]
      simp only [Command.key, hg]
      rfl
    · refine ⟨S', [.keyUpsert key .hash [] c'.expireAt version, .hashFieldUpsert key field value],
        hS', ?_⟩
      rw [perform, heq, Cell.perform, Cell.update]
      simp only [Command.key, hg]
      rfl
  | hget key field =>
    obtain ⟨S', hS', heq⟩ := hget_shows hok h (Command.field_length_le hcheck rfl).2 now now' key
    exact ⟨S', _, hS', heq⟩
  | hdel key field =>
    obtain ⟨S', hS', heq⟩ := hdel_shows h ok now key field
    exact ⟨S', _, hS', heq⟩
  | hexists key field =>
    obtain ⟨S', hS', heq⟩ := hexists_shows hok h (Command.field_length_le hcheck rfl).2 now now'
      key
    exact ⟨S', _, hS', heq⟩
  | push side key value =>
    exact update (Entry.updateSim_listPush side value) fun _ _ _ _ h => Cell.type_of_listPush h
  | pop side key =>
    exact query (Entry.querySim_listPop side) fun _ _ _ h => Cell.type_of_withList h
  | llen key => exact query Entry.querySim_llen fun _ _ _ h => Cell.type_of_withList h

end

end SharedStore

end PgRedis
