import PgRedis.SharedStore.Memory
import PgRedis.SharedStore.Sound

/-!
# Writing a value back

Two properties of `pg_redis_shared_store_writeback`. A hash over a hash is not rebuilt: the
dirty fields of the copy are set and its tombstones deleted, in this order, which leaves the
fields of the copy exactly if none of them has been deleted before it was set again
(`surgical_iff`).

When an allocation fails, a value that is built anew is lost with the one before it, and a hash
over a hash may be left with a part of its new fields, or with a pointer to a table that has
been freed; `writeback_error_iff` says exactly when none of this happens.
-/

namespace PgRedis

open Lib

/-! ## Setting and deleting many fields -/

section

variable {hashBytes : Bytes → UInt32} {m : Finmap fun _ : Field => Bytes} {f : Field}

/-- Fields erased one after the other. -/
def delFields (fs : List Field) (m : Finmap fun _ : Field => Bytes) :
    Finmap fun _ : Field => Bytes :=
  fs.foldl (fun m f => m.erase f) m

theorem lookup_delFields (fs : List Field) (m : Finmap fun _ : Field => Bytes) (f : Field) :
    (delFields fs m).lookup f = if f ∈ fs then none else m.lookup f := by
  induction fs generalizing m with
  | nil => rfl
  | cons g fs ih =>
    rw [delFields, List.foldl_cons, ← delFields, ih]
    by_cases hf : f = g
    · subst hf
      rw [Finmap.lookup_erase, ite_self, if_pos List.mem_cons_self]
    · rw [Finmap.lookup_erase_ne hf]
      simp only [List.mem_cons, hf, false_or]

/-- Fields set to the values that `g` gives them. -/
theorem lookup_setFields {fs : List (Field × Bytes)} {g : Field → Bytes}
    (hfs : ∀ p ∈ fs, p.2 = g p.1) (m : Finmap fun _ : Field => Bytes) (f : Field) :
    (setFields fs m).lookup f = if f ∈ fs.map Prod.fst then some (g f) else m.lookup f := by
  induction fs generalizing m with
  | nil => rfl
  | cons p fs ih =>
    rw [setFields, List.foldl_cons, ← setFields, ih fun q hq => hfs q (List.mem_cons_of_mem _ hq),
      hfs p List.mem_cons_self]
    by_cases hf : f = p.1
    · subst hf
      rw [Finmap.lookup_insert, ite_self, if_pos (List.mem_map_of_mem List.mem_cons_self)]
    · rw [Finmap.lookup_insert_of_ne _ hf]
      simp only [List.map_cons, List.mem_cons, hf, false_or]

/-- The loop deletes all fields. -/
theorem SharedValue.delAll_spec (ok : ℕ → AllocSite → Bool) (fs : List Field) {s : SharedHash}
    (count : ℤ) (h : SharedHash.Holds hashBytes s m) :
    ∃ s' count', delAll hashBytes ok fs s count = (s', count', .ok ()) ∧
      SharedHash.Holds hashBytes s' (delFields fs m) ∧
      count' - (delFields fs m).keys.card = count - m.keys.card := by
  induction fs generalizing ok s m count with
  | nil => exact ⟨s, count, rfl, h, rfl⟩
  | cons f fs ih =>
    obtain ⟨s₁, reply, hx⟩ : ∃ s₁ reply, SharedHash.del hashBytes (ok 0) f s = (s₁, reply) :=
      ⟨_, _, rfl⟩
    obtain ⟨hreply, h₁⟩ := SharedHash.del_spec h (ok 0) f
    rw [hx] at hreply h₁
    obtain rfl : reply = _ := hreply
    obtain ⟨s', count', heq, h', hcount⟩ :=
      ih (fun i => ok (i + 1)) (if decide (f ∈ m) = true then count - 1 else count) h₁
    refine ⟨s', count', ?_, h', hcount.trans ?_⟩
    · rw [delAll, hx]
      exact heq
    · rw [Finmap.keys_erase]
      by_cases hmem : f ∈ m
      · have hcard := Finset.card_erase_add_one (Finmap.mem_keys.2 hmem)
        simp only [hmem, decide_true, if_true]
        omega
      · rw [Finset.erase_eq_of_notMem (mt Finmap.mem_keys.1 hmem)]
        simp [hmem]

end

/-! ## The copy of a hash -/

namespace Hash

/-- The fields of the hash with their values. -/
def pairs (h : Hash) : List (Field × Bytes) := h.fields.toList.map fun f => (f.1, f.2.value)

/-- The map of the hash. -/
def map (h : Hash) : Finmap fun _ : Field => Bytes := setFields h.pairs ∅

theorem mem_pairs {h : Hash} {f : Field} {v : Bytes} :
    (f, v) ∈ h.pairs ↔ (h.fields.lookup f).map HashField.value = some v := by
  rw [pairs, List.mem_map, Option.map_eq_some_iff]
  constructor
  · rintro ⟨⟨f', x⟩, hx, heq⟩
    obtain ⟨rfl, rfl⟩ := Prod.mk.inj heq
    exact ⟨x, Htab.mem_toList.1 hx, rfl⟩
  · rintro ⟨x, hx, rfl⟩
    exact ⟨(f, x), Htab.mem_toList.2 hx, rfl⟩

/-- Fields set as they are in the hash, over any map. -/
theorem lookup_setFields_pairs (h : Hash) (m : Finmap fun _ : Field => Bytes) (f : Field) :
    (setFields h.pairs m).lookup f = ((h.fields.lookup f).map HashField.value).or (m.lookup f) := by
  rw [lookup_setFields (g := fun f => ((h.fields.lookup f).map HashField.value).getD [])]
  · cases hl : (h.fields.lookup f).map HashField.value with
    | some v =>
      have hmem : f ∈ h.pairs.map Prod.fst := List.mem_map_of_mem (mem_pairs.2 hl)
      rw [if_pos hmem]
      rfl
    | none =>
      have hmem : f ∉ h.pairs.map Prod.fst := fun hmem => by
        obtain ⟨⟨f', v⟩, hp, rfl⟩ := List.mem_map.1 hmem
        exact absurd (hl.symm.trans (mem_pairs.1 hp)) (by simp)
      rw [if_neg hmem]
      rfl
  · rintro ⟨f', v⟩ hp
    simp only [mem_pairs.1 hp, Option.getD_some]

theorem lookup_map (h : Hash) (f : Field) :
    h.map.lookup f = (h.fields.lookup f).map HashField.value := by
  rw [map, lookup_setFields_pairs, Finmap.lookup_empty, Option.or_none]

end Hash

/-! ## Hashes over hashes -/

/-- `pg_redis_hash_set` or `pg_redis_hash_del` on a hash of the backend. -/
def SharedHash.TableOp.edit (h : Hash) : SharedHash.TableOp → Hash
  | .set field value => (h.set field value).1
  | .del field => (h.del field).1

/-- The copy of a hash that is edited: what is read back, or a new hash for a null pointer. -/
def SharedHash.scratch (table : Option SharedTable) : Hash := (materializeTable table).getD .create

/-- A copy of the hash with the map `m`, edited: all its fields are dirty, and the fields that
    are gone have been deleted. -/
structure Hash.Edited (h : Hash) (m : Finmap fun _ : Field => Bytes) : Prop where
  dirty : ∀ f x, h.fields.lookup f = some x → x.dirty = true
  deleted : ∀ f, f ∈ m → h.fields.lookup f = none → f ∈ h.tombstones

namespace Hash.Edited

variable {h : Hash} {m : Finmap fun _ : Field => Bytes}

theorem edit (he : h.Edited m) (op : SharedHash.TableOp) : (op.edit h).Edited m := by
  cases op with
  | set field value =>
    -- The field is dirty now, and the others are as they were.
    constructor
    · intro f x hx
      rw [SharedHash.TableOp.edit, fields_set, Htab.lookup_insert_eq] at hx
      split_ifs at hx
      · obtain rfl := Option.some.inj hx
        rfl
      · exact he.dirty f x hx
    · intro f hf hnone
      rw [SharedHash.TableOp.edit, fields_set, Htab.lookup_insert_eq] at hnone
      split_ifs at hnone
      rw [SharedHash.TableOp.edit, tombstones_set]
      exact he.deleted f hf hnone
  | del field =>
    rw [SharedHash.TableOp.edit]
    -- Deleting a field that is not there changes nothing.
    cases hdel : (h.del field).2 with
    | false =>
      rw [del_eq_self hdel]
      exact he
    | true =>
      obtain ⟨hfields, htomb⟩ := fields_tombstones_del hdel
      constructor
      · intro f x hx
        rw [hfields, Htab.lookup_erase_eq] at hx
        split_ifs at hx
        exact he.dirty f x hx
      · intro f hf hnone
        rw [hfields, Htab.lookup_erase_eq] at hnone
        rw [htomb]
        by_cases heq : f = field
        · exact heq ▸ List.mem_cons_self
        · rw [if_neg heq] at hnone
          exact List.mem_cons_of_mem _ (he.deleted f hf hnone)

theorem edits (he : h.Edited m) (ops : List SharedHash.TableOp) :
    (ops.foldl SharedHash.TableOp.edit h).Edited m := by
  induction ops generalizing h with
  | nil => exact he
  | cons op ops ih => exact ih (he.edit op)

/-- What is read back counts as a copy on which nothing has been deleted. -/
theorem scratch {hashBytes : Bytes → UInt32} {table : Option SharedTable} {count : ℤ}
    (hshow : SharedValue.Shows hashBytes (.hash table count) (.hash m)) :
    (SharedHash.scratch table).Edited m := by
  have hstep : ∀ (es : List (Field × Owned)) (h : Hash), h.Edited ∅ →
      (es.foldl SharedHash.materializeStep h).Edited ∅ := by
    intro es
    induction es with
    | nil => exact fun h he => he
    | cons e es ih =>
      intro h he
      rw [List.foldl_cons]
      refine ih _ ?_
      rw [SharedHash.materializeStep]
      split_ifs
      · exact he
      · exact he.edit (.set (cstr e.1) e.2.value)
  have hcreate : create.Edited ∅ :=
    ⟨fun f x hx => absurd hx (by simp), fun f hf => absurd hf Finmap.notMem_empty⟩
  obtain ⟨hnull, hlook⟩ := SharedHash.materialize_spec (hshow.1 ⟨0, []⟩) fun field hf => by
    obtain ⟨v, hv⟩ := Finmap.mem_iff.1 hf
    exact (hshow.2 field v hv).1
  rw [SharedHash.materialize] at hnull hlook
  rw [SharedHash.scratch]
  cases hm : SharedHash.materializeTable table with
  | none =>
    obtain rfl := hnull.1 hm
    exact hcreate
  | some h' =>
    -- Its fields were set one by one, and none of the map is missing.
    refine ⟨?_, fun f hf hnone => ?_⟩
    · cases table with
      | none => exact absurd hm (by simp [SharedHash.materializeTable])
      | some t =>
        rw [SharedHash.materializeTable] at hm
        split_ifs at hm
        obtain rfl := Option.some.inj hm
        exact (hstep _ _ hcreate).dirty
    · obtain ⟨v, hv⟩ := Finmap.mem_iff.1 hf
      have hlookf := hlook f
      rw [hm, Option.bind_some, show h'.fields.lookup f = none from hnone, hv] at hlookf
      exact absurd hlookf (by simp)

theorem dirtyFields (he : h.Edited m) (x : Option ℤ) (version : UInt64) (b : Bool) :
    Entry.dirtyFields ⟨.hash, .hash h, x, version, b⟩ = h.pairs := by
  rw [Entry.dirtyFields, pairs, ← List.filterMap_eq_map]
  refine List.filterMap_congr fun f hf => ?_
  rw [if_pos (he.dirty f.1 f.2 (Htab.mem_toList.1 hf))]
  rfl

end Hash.Edited

/-- The value in shared memory has exactly the fields of the hash, with their values, and
    counts them. -/
def SharedValue.Matches (hashBytes : Bytes → UInt32) (v : SharedValue) (h : Hash) : Prop :=
  ∃ table count m, v = .hash table count ∧ (∀ d, SharedHash.Holds hashBytes ⟨d, table⟩ m) ∧
    (∀ f, m.lookup f = (h.fields.lookup f).map HashField.value) ∧ count = m.keys.card

namespace SharedValue

variable {hashBytes : Bytes → UInt32} {ok : StoreSite → Bool} {h : Hash}
  {m : Finmap fun _ : Field => Bytes} {table : Option SharedTable} {count : ℤ}

/-- With enough memory the hash is rebuilt, unless a value is too long. -/
theorem populateHash_matches (hok : ∀ site, ok site = true)
    (hlen : ∀ p ∈ h.pairs, p.2.length ≤ uint16Max) (d : Dsa) :
    ∃ d' v, populateHash hashBytes ok h d = (d', v, .ok ()) ∧ v.Matches hashBytes h := by
  have hstart : SharedHash.Holds hashBytes ⟨d, none⟩ ∅ := rfl
  obtain ⟨pre, suf, s', count', r, hpre, heq, hs', -, hcount, hend⟩ := setAll_prefix
    (fun i site => ok (.set i site)) h.pairs 0 hstart
  rcases hend with ⟨rfl, rfl⟩ | ⟨f, rest, err, rfl, -, hlong | ⟨site, hfail⟩⟩
  · rw [List.append_nil] at hpre
    rw [populateHash, ← Hash.pairs, heq]
    refine ⟨_, _, rfl, s'.table, count', h.map, rfl, fun _ => ?_, h.lookup_map, ?_⟩
    · rw [Hash.map, hpre]
      exact hs'
    · rw [Hash.map, hpre]
      simpa [sub_eq_zero] using hcount
  · exact absurd (hlen f (by rw [hpre]; simp)) (Nat.not_le.2 hlong)
  · rw [hok] at hfail
    exact absurd hfail (by decide)

/-- Writing the copy of a hash back over it, with enough memory: the fields of the copy are
    there except those with a tombstone, or a value is too long. -/
theorem surgical_cases {d : Dsa} (hok : ∀ site, ok site = true)
    (hm : SharedHash.Holds hashBytes ⟨d, table⟩ m) (he : h.Edited m) (count : ℤ)
    (x : Option ℤ) (version : UInt64) :
    (∃ s' n m', surgicalApplyHash hashBytes ok table count ⟨.hash, .hash h, x, version, false⟩ d =
        (s'.dsa, .hash s'.table n, .ok ()) ∧ SharedHash.Holds hashBytes s' m' ∧
      (∀ f, m'.lookup f =
        if f ∈ h.tombstones then none else (h.fields.lookup f).map HashField.value) ∧
      n - m'.keys.card = count - m.keys.card ∧ ∀ p ∈ h.pairs, p.2.length ≤ uint16Max) ∨
    (∃ err, (surgicalApplyHash hashBytes ok table count ⟨.hash, .hash h, x, version, false⟩
      d).2.2 = .error err) ∧ ∃ p ∈ h.pairs, uint16Max < p.2.length := by
  obtain ⟨pre, suf, s', n, r, hpre, heq, hs', hpre', hcount', hend⟩ := setAll_prefix
    (fun i site => ok (.set i site)) h.pairs count hm
  have hdirty := he.dirtyFields x version false
  -- All dirty fields were set, and then the tombstones are taken out; or one of them failed, and
  -- with enough memory it was too long.
  rcases hend with ⟨rfl, rfl⟩ | ⟨f, rest, err, rfl, rfl, hlong | ⟨site, hfail⟩⟩
  · rw [List.append_nil] at hpre
    obtain ⟨s'', n', heq', hs'', hcount''⟩ := delAll_spec (fun i site => ok (.del i site))
      h.tombstones n hs'
    refine .inl ⟨s'', n', _, ?_, hs'', fun f => ?_, hcount''.trans hcount', hpre ▸ hpre'⟩
    · have htomb : Entry.tombstones ⟨.hash, .hash h, x, version, false⟩ = h.tombstones := rfl
      simp only [surgicalApplyHash, hdirty, heq, htomb, heq']
    · rw [lookup_delFields, ← hpre, Hash.lookup_setFields_pairs]
      split_ifs with hf
      · rfl
      · cases hl : h.fields.lookup f with
        | some y => rfl
        | none => exact Finmap.lookup_eq_none.2 fun hmem => hf (he.deleted f hmem hl)
  · refine .inr ⟨⟨.hash err, ?_⟩, f, by rw [hpre]; simp, hlong⟩
    simp only [surgicalApplyHash, hdirty, heq]
  · rw [hok] at hfail
    exact absurd hfail (by decide)

/-- For every hash in shared memory, every sequence of `pg_redis_hash_set` and
    `pg_redis_hash_del` on its copy, and enough memory: writing the copy back over the hash
    leaves exactly the fields of the copy, with their values and their number, as rebuilding the
    hash does, if and only if no value is too long and no field of the copy has been deleted
    before it was set again. -/
theorem surgical_iff (hok : ∀ site, ok site = true)
    (hshow : SharedValue.Shows hashBytes (.hash table count) (.hash m))
    (hcount : count = m.keys.card) (ops : List SharedHash.TableOp) (x : Option ℤ)
    (version : UInt64) (d : Dsa) :
    let h := ops.foldl SharedHash.TableOp.edit (SharedHash.scratch table)
    let e : Entry := ⟨.hash, .hash h, x, version, false⟩
    let applied := surgicalApplyHash hashBytes ok table count e d
    let rebuilt := populate hashBytes ok e (release d (.hash table count))
    (applied.2.2 = .ok () ∧ applied.2.1.Matches hashBytes h ∧
      rebuilt.2.2 = .ok () ∧ rebuilt.2.1.Matches hashBytes h) ↔
    (∀ f y, h.fields.lookup f = some y → y.value.length ≤ uint16Max) ∧
      ∀ f ∈ h.tombstones, h.fields.lookup f = none := by
  intro h e applied rebuilt
  have he : h.Edited m := (Hash.Edited.scratch hshow).edits ops
  rcases surgical_cases (d := d) hok (hshow.1 d) he count x version with
    ⟨s', n, m', happ, hs', hleft, hn, hlen⟩ | ⟨⟨err, happ⟩, p, hp, hlong⟩
  · have happ : applied = (s'.dsa, .hash s'.table n, .ok ()) := happ
    have hvalues : ∀ f y, h.fields.lookup f = some y → y.value.length ≤ uint16Max := fun f y hy =>
      hlen (f, y.value) (Hash.mem_pairs.2 (by rw [hy]; rfl))
    constructor
    · -- The tombstones are applied after the fields, so what has one is not in the table.
      rintro ⟨-, ⟨table', n', m'', hv, hm', hlook, -⟩, -⟩
      refine ⟨hvalues, fun f hf => ?_⟩
      rw [happ] at hv
      obtain ⟨rfl, -⟩ := SharedValue.hash.inj hv
      have hsame := Except.ok.inj ((SharedHash.get_spec hs' f).symm.trans
        (SharedHash.get_spec (hm' s'.dsa) f))
      rw [hleft, if_pos hf, hlook] at hsame
      simpa using hsame.symm
    · rintro ⟨-, hgone⟩
      obtain ⟨d', v, hre, hmatch⟩ := populateHash_matches hok hlen
        (release d (.hash table count))
      refine ⟨by rw [happ], ⟨s'.table, n, m', by rw [happ], fun _ => hs', fun f => ?_, ?_⟩, ?_⟩
      · rw [hleft]
        split_ifs with hf
        · rw [hgone f hf]
          rfl
        · rfl
      · omega
      · have hpop : rebuilt = (d', v, .ok ()) := hre
        rw [hpop]
        exact ⟨rfl, hmatch⟩
  · have happ : applied.2.2 = .error err := happ
    refine iff_of_false (fun hall => ?_) fun hall => ?_
    · rw [happ] at hall
      exact absurd hall.1 (by simp)
    · obtain ⟨y, hy, hval⟩ := Option.map_eq_some_iff.1 (Hash.mem_pairs.1 hp)
      have hshort := hall.1 p.1 y hy
      rw [hval] at hshort
      exact absurd hshort (Nat.not_le.2 hlong)

/-- A table with one field. -/
def oneField : Option SharedTable :=
  (SharedHash.set (fun _ => 7) (fun _ => true) [102] [118] ⟨⟨0, []⟩, none⟩).1.table

theorem oneField_shows :
    SharedValue.Shows (fun _ => 7) (.hash oneField 1) (.hash (Finmap.insert [102] [118] ∅)) := by
  have hstart : SharedHash.Holds (fun _ => 7) ⟨⟨0, []⟩, none⟩ ∅ := rfl
  rcases SharedHash.set_spec hstart (fun _ => true) [102] [118] with ⟨-, hheld⟩ |
    ⟨-, ⟨-, hlong⟩ | ⟨site, -, hfail, -⟩⟩
  · have hempty : SharedValue.Shows (fun _ => 7) (.hash none 0) (.hash ∅) :=
      SharedValue.empty_shows .hash
    exact hempty.insert ⟨by decide, by decide, by decide⟩ (by decide) fun _ => hheld
  · exact absurd hlong (by decide)
  · cases hfail

theorem card_oneField :
    ((1 : ℤ) = (Finmap.insert [102] [118] ∅ : Finmap fun _ : Field => Bytes).keys.card) := by
  rw [SharedHash.keys_insert]
  rfl

/-- A field is set and another deleted. -/
theorem surgical_of_set_del :
    let h := [SharedHash.TableOp.set [103] [119], .del [102]].foldl SharedHash.TableOp.edit
      (SharedHash.scratch oneField)
    let e : Entry := ⟨.hash, .hash h, none, 2, false⟩
    let applied := surgicalApplyHash (fun _ => 7) enough oneField 1 e ⟨9, []⟩
    applied.2.2 = .ok () ∧ applied.2.1.Matches (fun _ => 7) h := by
  intro h e applied
  have hiff := surgical_iff enough_eq oneField_shows card_oneField
    [.set [103] [119], .del [102]] none 2 ⟨9, []⟩
  have htomb : h.tombstones = [[102]] := by decide +kernel
  have hgone : (h.fields.lookup [102]).isNone = true := by decide +kernel
  have hlen : h.pairs.all (fun p => p.2.length ≤ uint16Max) = true := by decide +kernel
  have hall := hiff.2 ⟨fun f y hy => ?_, fun f hf => ?_⟩
  · exact ⟨hall.1, hall.2.1⟩
  · have hmem : (f, y.value) ∈ h.pairs := Hash.mem_pairs.2 (by
      rw [show h.fields.lookup f = some y from hy]
      rfl)
    exact of_decide_eq_true (List.all_eq_true.1 hlen _ hmem)
  · obtain rfl : f = [102] := List.mem_singleton.1 (htomb ▸ hf)
    exact Option.isNone_iff_eq_none.1 hgone

/-- The value of a field, read from a shared hash. -/
def fieldOf (hashBytes : Bytes → UInt32) (field : Field) : SharedValue → Option (Option Bytes)
  | .hash t _ => (SharedHash.get hashBytes field ⟨⟨0, []⟩, t⟩).toOption
  | _ => none

/-- A field deleted and set again is lost. -/
theorem surgical_loses_field : ¬∀ (hashBytes : Bytes → UInt32) (ok : StoreSite → Bool)
    (table : Option SharedTable) (count : ℤ) (m : Finmap fun _ : Field => Bytes)
    (ops : List SharedHash.TableOp) (x : Option ℤ) (version : UInt64) (d : Dsa),
    (∀ site, ok site = true) → SharedValue.Shows hashBytes (.hash table count) (.hash m) →
    count = m.keys.card →
    let h := ops.foldl SharedHash.TableOp.edit (SharedHash.scratch table)
    let e : Entry := ⟨.hash, .hash h, x, version, false⟩
    let applied := surgicalApplyHash hashBytes ok table count e d
    let rebuilt := populate hashBytes ok e (release d (.hash table count))
    applied.2.2 = .ok () ∧ applied.2.1.Matches hashBytes h ∧
      rebuilt.2.2 = .ok () ∧ rebuilt.2.1.Matches hashBytes h := by
  intro hall
  obtain ⟨-, ⟨table', n, m', hv, hm', hlook, -⟩, -⟩ := hall (fun _ => 7) enough oneField 1 _
    [.del [102], .set [102] [119]] none 2 ⟨9, []⟩ enough_eq oneField_shows card_oneField
  have hget := SharedHash.get_spec (hm' ⟨0, []⟩) [102]
  have hcopy : (([SharedHash.TableOp.del [102], .set [102] [119]].foldl SharedHash.TableOp.edit
      (SharedHash.scratch oneField)).fields.lookup [102]).map HashField.value = some [119] := by
    decide +kernel
  have hlost : fieldOf (fun _ => 7) [102] (surgicalApplyHash (fun _ => 7) enough oneField 1
      ⟨.hash, .hash ([SharedHash.TableOp.del [102], .set [102] [119]].foldl SharedHash.TableOp.edit
        (SharedHash.scratch oneField)), none, 2, false⟩ ⟨9, []⟩).2.1 = some none := by
    decide +kernel
  rw [hv] at hlost
  simp only [fieldOf, hget, hlook, hcopy] at hlost
  exact absurd hlost (by simp [Except.toOption])

end SharedValue

/-! ## The loop that sets fields -/

namespace SharedValue

section

variable (hashBytes : Bytes → UInt32)

/-- The fields set before the loop ends or fails. -/
def fieldsSet (ok : ℕ → AllocSite → Bool) : List (Field × Bytes) → SharedHash → List (Field × Bytes)
  | [], _ => []
  | (f, v) :: fs, s => match SharedHash.set hashBytes (ok 0) f v s with
    | (_, .error _) => []
    | (s, .ok _) => (f, v) :: fieldsSet (fun i => ok (i + 1)) fs s

/-- The loop replaces the table by a larger one before it ends or fails. -/
def loopGrows (ok : ℕ → AllocSite → Bool) : List (Field × Bytes) → SharedHash → Bool
  | [], _ => false
  | (f, v) :: fs, s => SharedHash.grows (ok 0) v s ||
      match SharedHash.set hashBytes (ok 0) f v s with
      | (_, .error _) => false
      | (s, .ok _) => loopGrows (fun i => ok (i + 1)) fs s

end

variable {hashBytes : Bytes → UInt32} {m : Finmap fun _ : Field => Bytes} {t : SharedTable}
  {others : List ℕ}

/-- What the loop leaves: a table with the fields set, the owner of all it has allocated. -/
theorem setAll_left (ok : ℕ → AllocSite → Bool) (fs : List (Field × Bytes)) {s : SharedHash}
    (count : ℤ) (hm : SharedHash.Holds hashBytes s m) (hown : SharedHash.Owns s others) :
    SharedHash.Holds hashBytes (setAll hashBytes ok fs s count).1
        (setFields (fieldsSet hashBytes ok fs s) m) ∧
      SharedHash.Owns (setAll hashBytes ok fs s count).1 others := by
  induction fs generalizing ok s m count with
  | nil => exact ⟨hm, hown⟩
  | cons f fs ih =>
    obtain ⟨f, v⟩ := f
    have hown₁ := SharedHash.set_owns hown hm (ok 0) f v
    rcases SharedHash.set_cases hm (ok 0) f v with ⟨s₁, hx, h₁⟩ | ⟨s₁, err, hx, h₁, -⟩ <;>
      rw [hx] at hown₁
    · simp only [setAll, fieldsSet, hx]
      exact ih _ _ h₁ hown₁
    · simp only [setAll, fieldsSet, hx]
      exact ⟨h₁, hown₁⟩

/-- Where the table is after the loop. -/
theorem setAll_pointer (ok : ℕ → AllocSite → Bool) (fs : List (Field × Bytes)) {s : SharedHash}
    (count : ℤ) (hm : SharedHash.Holds hashBytes s m) (hown : SharedHash.Owns s others)
    (hs : s.table = some t) :
    (∃ t', (setAll hashBytes ok fs s count).1.table = some t' ∧
      (loopGrows hashBytes ok fs s = false → t'.dsa = t.dsa)) ∧
    (loopGrows hashBytes ok fs s = true → (setAll hashBytes ok fs s count).1.dsa.Gone t.dsa) ∧
    ∀ p, s.dsa.Gone p → (setAll hashBytes ok fs s count).1.dsa.Gone p := by
  induction fs generalizing ok s m count t with
  | nil => exact ⟨⟨t, hs, fun _ => rfl⟩, fun h => absurd h (by simp [loopGrows]), fun p hp => hp⟩
  | cons f fs ih =>
    obtain ⟨f, v⟩ := f
    have hown₁ := SharedHash.set_owns hown hm (ok 0) f v
    obtain ⟨⟨t₁, ht₁, hstay⟩, hmoved, hgone⟩ := SharedHash.set_pointer hown hm hs (ok 0) f v
    rcases SharedHash.set_cases hm (ok 0) f v with ⟨s₁, hx, h₁⟩ | ⟨s₁, err, hx, h₁, -⟩ <;>
      rw [hx] at hown₁ ht₁ hmoved hgone
    · simp only [setAll, loopGrows, hx, Bool.or_eq_false_iff, Bool.or_eq_true]
      obtain ⟨⟨t', ht', hstay'⟩, hmoved', hgone'⟩ := ih _ _ h₁ hown₁ ht₁
      refine ⟨⟨t', ht', fun h => (hstay' h.2).trans (hstay h.1)⟩, fun h => ?_,
        fun p hp => hgone' p (hgone p hp)⟩
      by_cases hgrow : SharedHash.grows (ok 0) v s = true
      · exact hgone' _ (hmoved hgrow)
      · rw [Bool.not_eq_true] at hgrow
        rw [← hstay hgrow]
        exact hmoved' (h.resolve_left (by simp [hgrow]))
    · simp only [setAll, loopGrows, hx, Bool.or_false]
      exact ⟨⟨t₁, ht₁, hstay⟩, hmoved, hgone⟩

end SharedValue

/-! ## All or nothing -/

/-- The chunks of the nodes of a list. -/
def SharedList.chunks (l : SharedList) : List ℕ :=
  l.nodes.flatMap fun n => n.dsa :: n.valueDsa.toList

namespace SharedValue

/-- The chunks that a value points to. -/
def chunks : SharedValue → List ℕ
  | .str p _ => p.toList
  | .int _ => []
  | .hash table _ => tableChunks table
  | .list l => l.chunks

theorem chunks_empty (t : ValueType) : (empty t).chunks = [] := by
  cases t <;> rfl

variable {hashBytes : Bytes → UInt32}

/-- What a value denotes. -/
def Reads (hashBytes : Bytes → UInt32) : SharedValue → View → Prop
  | .str _ s, .str o => o = if s = [] then none else some s
  | .int i, .int j => i = j
  | .hash table _, .hash m => ∀ d, SharedHash.Holds hashBytes ⟨d, table⟩ m
  | .list l, .list vs => l.values = vs
  | _, _ => False

theorem reads_empty (t : ValueType) : (empty t).Reads hashBytes (View.empty t) := by
  cases t with
  | hash => exact fun _ => rfl
  | string | int | list => rfl

theorem Reads.unique {v : SharedValue} {w w' : View} (h : v.Reads hashBytes w)
    (h' : v.Reads hashBytes w') : w = w' := by
  cases v <;> cases w <;> cases w' <;> simp only [Reads] at h h'
  case str.str.str => rw [h, h']
  case int.int.int => rw [← h, ← h']
  case hash.hash.hash table count m m' =>
    rw [(h ⟨0, []⟩).unique (h' ⟨0, []⟩)]
  case list.list.list => rw [← h, ← h']

theorem Reads.type {v : SharedValue} {w : View} (h : v.Reads hashBytes w) : v.type = w.type := by
  cases v <;> cases w <;> first | rfl | exact h.elim

/-- A value whose building fails is left empty, and is not an empty one. -/
theorem populate_error {ok : StoreSite → Bool} {e : Entry} {c : Cell} (he : e.Shows c) {d : Dsa}
    {err : SharedError} (herr : (populate hashBytes ok e d).2.2 = .error err) :
    (populate hashBytes ok e d).2.1 = .empty e.type ∧ c.value ≠ View.empty e.type := by
  obtain ⟨t, v, x, n, b⟩ := e
  rcases he.cases with ⟨ht, ⟨s, hv, hc⟩ | ⟨hv, hc⟩⟩ | ⟨i, ht, hv, hc⟩ |
    ⟨ht, m, hc, ⟨hv, -⟩ | ⟨h, hv, hm⟩⟩ | ⟨ht, vs, hc, ⟨hv, -⟩ | ⟨l, hv, hvs, -⟩⟩ <;>
    obtain rfl := ht <;> obtain rfl := hv <;> rw [hc] <;> simp only [populate] at herr ⊢
  · split_ifs at herr ⊢
    exact ⟨rfl, by simp [View.empty]⟩
  · exact absurd herr (by simp)
  · exact absurd herr (by simp)
  · exact absurd herr (by simp)
  · -- An error of the table is one of a field, so there is one.
    rw [populateHash] at herr ⊢
    split at herr
    · exact absurd herr (by simp)
    · rename_i s n' err' hset
      refine ⟨rfl, fun hempty => ?_⟩
      obtain rfl := View.hash.inj hempty
      have hnil : h.fields.toList = [] := by
        refine List.eq_nil_iff_forall_not_mem.2 fun p hp => ?_
        have hlook := hm p.1
        rw [Htab.mem_toList.1 (show (p.1, p.2) ∈ _ from hp)] at hlook
        exact absurd hlook (by simp)
      rw [hnil] at hset
      exact absurd hset (by simp [setAll])
  · exact absurd herr (by simp)
  · split at herr
    · rename_i d' hpush
      refine ⟨rfl, fun hempty => ?_⟩
      rw [View.list.inj hempty, List.map_eq_nil_iff] at hvs
      rw [hvs] at hpush
      exact absurd hpush (by simp [SharedList.pushAll])
    · exact absurd herr (by simp)

end SharedValue

namespace SharedEntry

variable (hashBytes : Bytes → UInt32)

/-- The allocated chunks are those of the entry, if there is one, and `others`, each once. -/
structure Owns (d : Dsa) (o : Option SharedEntry) (others : List ℕ) : Prop where
  has : d.Has ((o.elim [] fun se => se.value.chunks) ++ others)
  values : ∀ se t count, o = some se → se.value = .hash (some t) count →
    ValueChunks t.table.entries

/-- What a writeback leaves is the whole old value or the whole new one, and all that the entry
    points to is allocated and its own. -/
structure Whole (old : Option View) (new : View) (others : List ℕ)
    (x : Dsa × Option SharedEntry × Except SharedError Unit) : Prop where
  value : ∃ w, Option.Rel (fun se w => se.value.Reads hashBytes w) x.2.1 w ∧
    (w = old ∨ w = some new)
  owned : ∀ se, x.2.1 = some se →
    (∀ p ∈ se.value.chunks, p ∈ x.1.live) ∧ (se.value.chunks ++ others).Nodup

/-- The writeback of `e` that fails for want of memory leaves a whole value: the entry holds an
    empty value of the same type, other than a hash; or a hash without a table; or a hash of
    which the loop does not replace the table, and the fields set before the failure make no
    difference, or all the difference there is to be. -/
inductive Spared (ok : StoreSite → Bool) (e : Entry) (d : Dsa) (new : View) :
    Option SharedEntry → Option View → Prop
  | empty (se : SharedEntry) (old : View) (same : se.value.type = e.type) (other : e.type ≠ .hash)
      (nothing : old = View.empty e.type) : Spared ok e d new (some se) (some old)
  | noTable (se : SharedEntry) (count : ℤ) (m : Finmap fun _ : Field => Bytes)
      (same : e.type = .hash) (value : se.value = .hash none count) :
      Spared ok e d new (some se) (some (.hash m))
  | inPlace (se : SharedEntry) (t : SharedTable) (count : ℤ) (m : Finmap fun _ : Field => Bytes)
      (same : e.type = .hash) (value : se.value = .hash (some t) count)
      (stays : SharedValue.loopGrows hashBytes (fun i site => ok (.set i site)) e.dirtyFields
        ⟨d, some t⟩ = false)
      (left : let left := setFields (SharedValue.fieldsSet hashBytes
          (fun i site => ok (.set i site)) e.dirtyFields ⟨d, some t⟩) m
        left = m ∨ .hash left = new) :
      Spared ok e d new (some se) (some (.hash m))

variable {hashBytes} {ok : StoreSite → Bool} {e : Entry} {c : Cell} {d : Dsa}
  {o : Option SharedEntry} {old : Option View} {others : List ℕ}

/-- An entry left with the value `w` and the chunks it points to. -/
theorem whole_iff {x : Dsa × Option SharedEntry × Except SharedError Unit} {se : SharedEntry}
    {w new : View} (hx : x.2.1 = some se) (hreads : se.value.Reads hashBytes w)
    (howned : (∀ p ∈ se.value.chunks, p ∈ x.1.live) ∧ (se.value.chunks ++ others).Nodup) :
    Whole hashBytes old new others x ↔ old = some w ∨ w = new := by
  constructor
  · rintro ⟨⟨w', hw', hcase⟩, -⟩
    rw [hx] at hw'
    obtain ⟨w', rfl⟩ : ∃ v, w' = some v := by
      cases hw' with
      | some h => exact ⟨_, rfl⟩
    rw [Option.rel_some_some] at hw'
    obtain rfl := hw'.unique hreads
    exact hcase.imp Eq.symm Option.some.inj
  · intro hcase
    refine ⟨⟨some w, hx ▸ .some hreads, hcase.imp Eq.symm (congrArg some)⟩, fun se' hse' => ?_⟩
    rwa [← Option.some.inj (hx.symm.trans hse')]

/-- A failed writeback that leaves an empty value. -/
theorem whole_empty_iff (hothers : others.Nodup)
    {x : Dsa × Option SharedEntry × Except SharedError Unit} {se : SharedEntry}
    (hx : x.2.1 = some se) (hse : se.value = .empty e.type)
    (hnew : c.value ≠ View.empty e.type) :
    Whole hashBytes old c.value others x ↔ old = some (View.empty e.type) := by
  have hreads : se.value.Reads hashBytes (View.empty e.type) := hse ▸ SharedValue.reads_empty _
  refine (whole_iff hx hreads ?_).trans (or_iff_left fun hempty => hnew hempty.symm)
  rw [hse, SharedValue.chunks_empty]
  exact ⟨fun p hp => absurd hp List.not_mem_nil, hothers⟩

theorem View.type_empty (t : ValueType) : (View.empty t).type = t := by
  cases t <;> rfl

/-- A hash with a table is spared if the loop leaves the table in its place, and the fields it
    has set make no difference or all of it. -/
theorem spared_table_iff {t : SharedTable} {count : ℤ} {m : Finmap fun _ : Field => Bytes}
    {se : SharedEntry} {new : View} (hse : se.value = .hash (some t) count)
    (ht : e.type = .hash) :
    Spared hashBytes ok e d new (some se) (some (.hash m)) ↔
      SharedValue.loopGrows hashBytes (fun i site => ok (.set i site)) e.dirtyFields
        ⟨d, some t⟩ = false ∧
      let left := setFields (SharedValue.fieldsSet hashBytes (fun i site => ok (.set i site))
        e.dirtyFields ⟨d, some t⟩) m
      left = m ∨ .hash left = new := by
  constructor
  · intro hspared
    cases hspared with
    | noTable _ _ _ _ hvalue =>
      rw [hse] at hvalue
      cases hvalue
    | empty _ _ _ hother => exact absurd ht hother
    | inPlace _ t₁ _ _ _ hvalue hstays hleft =>
      rw [hse] at hvalue
      obtain rfl := Option.some.inj (SharedValue.hash.inj hvalue).1
      exact ⟨hstays, hleft⟩
  · exact fun h => .inPlace se t count m ht hse h.1 h.2

/-- When the writeback of a hash over a hash fails, it is the loop that sets the fields. -/
theorem setAll_of_surgical_error {table : Option SharedTable} {count : ℤ}
    {m : Finmap fun _ : Field => Bytes} (hm : SharedHash.Holds hashBytes ⟨d, table⟩ m)
    {err : SharedError}
    (herr : (SharedValue.surgicalApplyHash hashBytes ok table count e d).2.2 = .error err) :
    ∃ s' n err', SharedValue.setAll hashBytes (fun i site => ok (.set i site)) e.dirtyFields
        ⟨d, table⟩ count = (s', n, .error err') ∧
      overwrite e (SharedValue.surgicalApplyHash hashBytes ok table count e d) = (s'.dsa,
        some ⟨.hash (SharedValue.keepPointer table s'.table) count, e.expireAt, e.version⟩,
        .error (.hash err')) := by
  obtain ⟨pre, suf, s', n, r, -, hset, hs', -⟩ := SharedValue.setAll_prefix
    (fun i site => ok (.set i site)) e.dirtyFields count hm
  cases r with
  | error err' =>
    refine ⟨s', n, err', hset, ?_⟩
    simp only [SharedValue.surgicalApplyHash, hset, overwrite]
  | ok u =>
    obtain ⟨s'', n', hdel, -⟩ := SharedValue.delAll_spec (fun i site => ok (.del i site))
      e.tombstones n hs'
    simp only [SharedValue.surgicalApplyHash, hset, hdel] at herr
    exact absurd herr (by simp)

/-- A hash written back over a hash, when this fails. -/
theorem surgical_error_iff {table : Option SharedTable} {count : ℤ}
    {m : Finmap fun _ : Field => Bytes} {se : SharedEntry} (hse : se.value = .hash table count)
    (hm : ∀ d, SharedHash.Holds hashBytes ⟨d, table⟩ m) (hown : Owns d (some se) others)
    (ht : e.type = .hash) {err : SharedError}
    (herr : (SharedValue.surgicalApplyHash hashBytes ok table count e d).2.2 = .error err) :
    Whole hashBytes (some (.hash m)) c.value others
        (overwrite e (SharedValue.surgicalApplyHash hashBytes ok table count e d)) ↔
      Spared hashBytes ok e d c.value (some se) (some (.hash m)) := by
  have hhas := hown.has
  simp only [Option.elim_some, hse, SharedValue.chunks] at hhas
  have hown' : SharedHash.Owns ⟨d, table⟩ others :=
    ⟨hhas, fun t htable => hown.values se t count rfl (htable ▸ hse)⟩
  obtain ⟨hleft, hleftOwn⟩ := SharedValue.setAll_left (fun i site => ok (.set i site))
    e.dirtyFields count (hm d) hown'
  obtain ⟨s', n, err', hset, hx⟩ := setAll_of_surgical_error (hm d) herr
  rw [hx]
  rw [hset] at hleft hleftOwn
  cases table with
  | none =>
    -- The pointer stays invalid, and what was allocated is lost.
    have hreads : SharedValue.Reads hashBytes (.hash none count) (.hash m) := hm
    have hothers : others.Nodup :=
      (List.nodup_append.1 (hhas.live.nodup_iff.1 hhas.nodup)).2.1
    refine iff_of_true ((whole_iff rfl hreads ?_).2 (.inl rfl)) (.noTable se count m ht hse)
    exact ⟨fun p hp => absurd hp List.not_mem_nil, hothers⟩
  | some t =>
    obtain ⟨⟨t', ht', hstay⟩, hmoved, -⟩ := SharedValue.setAll_pointer
      (fun i site => ok (.set i site)) e.dirtyFields count (hm d) hown' rfl
    rw [hset] at ht' hmoved
    have hlive := hleftOwn.has
    rw [spared_table_iff hse ht]
    cases hgrow : SharedValue.loopGrows hashBytes (fun i site => ok (.set i site)) e.dirtyFields
        ⟨d, some t⟩ with
    | true =>
      -- The old table is freed, and the entry still points to it.
      have hgone := hmoved hgrow
      have hne : t.dsa ≠ t'.dsa := fun heq => hgone.freed (heq ▸ hlive.live.mem_iff.2
        (List.mem_append_left _ (ht' ▸ List.mem_cons_self)))
      have hkeep : SharedValue.keepPointer (some t) s'.table = some t := by
        rw [ht', SharedValue.keepPointer, if_neg hne]
      refine iff_of_false (fun hwhole => ?_) (by simp)
      refine hgone.freed ((hwhole.owned _ rfl).1 t.dsa ?_)
      rw [hkeep]
      exact List.mem_cons_self
    | false =>
      have hkeep : SharedValue.keepPointer (some t) s'.table = s'.table := by
        rw [ht', SharedValue.keepPointer, if_pos (hstay hgrow).symm]
      have hreads : SharedValue.Reads hashBytes (.hash s'.table count) (.hash (setFields
          (SharedValue.fieldsSet hashBytes (fun i site => ok (.set i site)) e.dirtyFields
            ⟨d, some t⟩) m)) := fun _ => hleft
      rw [hkeep, whole_iff rfl hreads
        ⟨fun p hp => hlive.live.mem_iff.2 (List.mem_append_left _ hp),
          hlive.live.nodup_iff.1 hlive.nodup⟩, and_iff_right rfl]
      exact or_congr_left ⟨fun h => (View.hash.inj (Option.some.inj h)).symm,
        fun h => congrArg some (congrArg View.hash h.symm)⟩

/-- For every entry, of any type or missing, that owns what it points to, every copy that is
    written back and every allocation that fails in the course of it: the entry is left with its
    whole old value or the whole new one, and with what it points to, exactly if it is spared. -/
theorem writeback_error_iff
    (hold : Option.Rel (fun se w => se.value.Reads hashBytes w) o old) (hown : Owns d o others)
    (he : e.Shows c) {err : SharedError}
    (herr : (writeback hashBytes ok e d o).2.2 = .error err) :
    Whole hashBytes old c.value others (writeback hashBytes ok e d o) ↔
      Spared hashBytes ok e d c.value o old := by
  have hothers : others.Nodup := by
    have hhas := hown.has
    exact (List.nodup_append.1 (hhas.live.nodup_iff.1 hhas.nodup)).2.1
  -- A value that is built anew.
  have built : ∀ d', writeback hashBytes ok e d o =
        overwrite e (SharedValue.populate hashBytes ok e d') →
      (Whole hashBytes old c.value others (writeback hashBytes ok e d o) ↔
        old = some (View.empty e.type)) := by
    intro d' heq
    rw [heq] at herr ⊢
    obtain ⟨hempty, hnew⟩ := SharedValue.populate_error he herr
    exact whole_empty_iff hothers (x := overwrite e _) rfl hempty hnew
  cases hold with
  | none =>
    refine (built d rfl).trans (iff_of_false (by simp) fun hspared => ?_)
    cases hspared
  | some hreads =>
    rename_i se w
    by_cases hne : se.value.type = e.type
    swap
    · -- Another type: the old value is freed before the new one is built.
      have heq : writeback hashBytes ok e d (some se) =
          overwrite e (SharedValue.populate hashBytes ok e (se.value.release d)) := if_pos hne
      refine (built _ heq).trans (iff_of_false (fun hw => hne ?_) fun hspared => ?_)
      · rw [hreads.type, Option.some.inj hw, View.type_empty]
      · cases hspared with
        | empty _ _ hsame => exact hne hsame
        | noTable _ _ _ ht hvalue => exact hne (by rw [hvalue, ht]; rfl)
        | inPlace _ _ _ _ ht hvalue => exact hne (by rw [hvalue, ht]; rfl)
    by_cases ht : e.type = .hash
    · cases hv : se.value with
      | hash table count =>
        obtain ⟨m, rfl, hm⟩ : ∃ m, w = .hash m ∧
            ∀ d, SharedHash.Holds hashBytes ⟨d, table⟩ m := by
          rw [hv] at hreads
          cases w with
          | hash m => exact ⟨m, rfl, hreads⟩
          | str | int | list => exact hreads.elim
        have heq : writeback hashBytes ok e d (some se) =
            overwrite e (SharedValue.surgicalApplyHash hashBytes ok table count e d) := by
          rw [writeback, if_neg (not_not.2 hne), hv]
        rw [heq] at herr ⊢
        exact surgical_error_iff hv hm hown ht herr
      | str | int | list =>
        rw [hv, ht] at hne
        cases hne
    · have heq : writeback hashBytes ok e d (some se) =
          overwrite e (SharedValue.populate hashBytes ok e (se.value.release d)) := by
        rw [writeback, if_neg (not_not.2 hne)]
        cases hv : se.value with
        | hash table count =>
          rw [hv] at hne
          exact absurd hne.symm ht
        | str | int | list => rfl
      refine (built _ heq).trans
        ⟨fun hw => .empty se w hne ht (Option.some.inj hw), fun hspared => ?_⟩
      cases hspared with
      | empty _ _ _ _ hnothing => rw [hnothing]
      | noTable _ _ _ ht' => exact absurd ht' ht
      | inPlace _ _ _ _ ht' => exact absurd ht' ht

/-- A field of a hash gets another value in the copy; there is no memory for it. -/
def changed : Hash := (Hash.create.set [102] [119]).1

/-- The hash keeps its field. -/
theorem writeback_error_keeps_hash :
    let s := (SharedHash.set (fun _ => 7) (fun _ => true) [102] [118] ⟨⟨0, []⟩, none⟩).1
    let e : Entry := ⟨.hash, .hash changed, none, 2, false⟩
    Whole (fun _ => 7) (some (.hash (Finmap.insert [102] [118] ∅))) (.hash changed.map) []
      (writeback (fun _ => 7) (fun _ => false) e s.dsa
        (some ⟨.hash SharedValue.oneField 1, none, 1⟩)) := by
  intro s e
  have hstart : SharedHash.Owns ⟨⟨0, []⟩, none⟩ [] :=
    ⟨⟨.refl _, List.nodup_nil, fun p hp => absurd hp List.not_mem_nil⟩, fun t ht => by cases ht⟩
  have hempty : SharedHash.Holds (fun _ => 7) ⟨⟨0, []⟩, none⟩ ∅ := rfl
  have hs : SharedHash.Owns s [] := SharedHash.set_owns hstart hempty (fun _ => true) [102] [118]
  have hown : Owns s.dsa (some ⟨.hash SharedValue.oneField 1, none, 1⟩) [] := by
    refine ⟨hs.has, fun se t count hse hvalue => ?_⟩
    obtain rfl := Option.some.inj hse
    exact hs.values t (SharedValue.hash.inj hvalue).1
  have hold : SharedValue.Reads (fun _ => 7) (.hash SharedValue.oneField 1)
      (.hash (Finmap.insert [102] [118] ∅)) := SharedValue.oneField_shows.1
  have he : e.Shows ⟨.hash changed.map, none⟩ := ⟨rfl, fun f => (changed.lookup_map f).symm, rfl⟩
  have herr : (writeback (fun _ => 7) (fun _ => false) e s.dsa
      (some ⟨.hash SharedValue.oneField 1, none, 1⟩)).2.2 =
        .error (.hash (.outOfMemory .overwriteValue)) := by
    decide +kernel
  refine (writeback_error_iff (.some hold) hown he herr).2 ?_
  obtain ⟨t, ht⟩ : ∃ t, SharedValue.oneField = some t := by
    refine Option.isSome_iff_exists.1 ?_
    decide +kernel
  have hgrow : SharedValue.loopGrows (fun _ => 7) (fun _ _ => false) e.dirtyFields
      ⟨s.dsa, SharedValue.oneField⟩ = false := by
    decide +kernel
  have hnone : SharedValue.fieldsSet (fun _ => 7) (fun _ _ => false) e.dirtyFields
      ⟨s.dsa, SharedValue.oneField⟩ = [] := by
    decide +kernel
  rw [ht] at hgrow hnone
  refine .inPlace _ t 1 _ rfl (by rw [ht]) hgrow (.inl ?_)
  rw [hnone]
  rfl

/-- A string written over a string without memory for it: both are lost. -/
theorem writeback_error_loses_string : ¬∀ (hashBytes : Bytes → UInt32) (ok : StoreSite → Bool)
    (e : Entry) (c : Cell) (d : Dsa) (o : Option SharedEntry) (old : Option View)
    (others : List ℕ) (err : SharedError),
    Option.Rel (fun se w => se.value.Reads hashBytes w) o old → Owns d o others → e.Shows c →
    (writeback hashBytes ok e d o).2.2 = .error err →
    Whole hashBytes old c.value others (writeback hashBytes ok e d o) := by
  intro hall
  have hown : Owns ⟨1, [0]⟩ (some ⟨.str (some 0) [118], none, 1⟩) [] := by
    refine ⟨⟨.refl _, by decide, by decide⟩, fun se t count hse hvalue => ?_⟩
    obtain rfl := Option.some.inj hse
    cases hvalue
  have hwhole := hall (fun _ => 7) (fun _ => false) ⟨.string, .str [119], none, 2, false⟩
    ⟨.str (some [119]), none⟩ ⟨1, [0]⟩ (some ⟨.str (some 0) [118], none, 1⟩)
    (some (.str (some [118]))) [] .outOfMemorySet (.some rfl) hown ⟨rfl, rfl, rfl⟩ rfl
  have hempty := (whole_empty_iff (e := ⟨.string, .str [119], none, 2, false⟩)
    (c := ⟨.str (some [119]), none⟩) List.nodup_nil rfl rfl (by simp [View.empty])).1 hwhole
  exact absurd (Option.some.inj hempty) (by simp [View.empty])

end SharedEntry

end PgRedis
