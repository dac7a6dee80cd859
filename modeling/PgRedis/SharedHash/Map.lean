import Mathlib.Data.Finmap
import PgRedis.SharedHash

/-!
# The field table is a finite map

The representation invariant of the field table (`TableInv`), the finite map it
stands for (`Denotes`), and what each operation does to that map, with any of its
allocations failing. From any bytes hash function, sequences of `HSET` and `HDEL`
on the table and on the map give the same replies, and leave a table that answers
as the map does (`hashOps_refine`).
-/

namespace PgRedis

open Lib Lib.Probe

namespace SharedHash

variable {hashBytes : Bytes → UInt32}

theorem lawful_geometry (e : ℕ) : (geometry hashBytes).Lawful (2 ^ e) where
  home_lt field := by
    have hpos : 0 < 2 ^ e := Nat.two_pow_pos e
    calc (hashBytes field).toNat &&& ((2 ^ e - 1) % 2 ^ 32)
        ≤ (2 ^ e - 1) % 2 ^ 32 := Nat.and_le_right
      _ ≤ 2 ^ e - 1 := Nat.mod_le _ _
      _ < 2 ^ e := by omega
  next_eq i _ := Nat.and_two_pow_sub_one_eq_mod (i + 1) e

/-- The representation invariant of the field table. -/
structure TableInv (hashBytes : Bytes → UInt32) (t : Table Field Owned) : Prop where
  wf : WF (geometry hashBytes) t
  pow : ∃ e, t.size = 2 ^ e
  min : initBuckets ≤ t.size
  load : 10 * (t.occupied + t.tombs) ≤ 7 * t.size

theorem TableInv.room {t : Table Field Owned} (h : TableInv hashBytes t) :
    t.occupied + t.tombs < t.size := by
  have := h.load
  have := h.min
  rw [initBuckets] at this
  omega

theorem tableInv_blank : TableInv hashBytes (Table.blank initBuckets) where
  wf := .blank (lawful_geometry 4)
  pow := ⟨4, rfl⟩
  min := le_rfl
  load := Nat.zero_le _

/-- The finite map of a list of entries. -/
def Denotes (es : List (Field × Owned)) (m : Finmap fun _ : Field => Bytes) : Prop :=
  ∀ k v, m.lookup k = some v ↔ ∃ o, (k, o) ∈ es ∧ o.value = v

namespace Denotes

variable {es es' : List (Field × Owned)} {m : Finmap fun _ : Field => Bytes} {k : Field}
  {o : Owned}

theorem nil : Denotes [] ∅ := fun k v => by simp

theorem perm (h : Denotes es m) (hp : es'.Perm es) : Denotes es' m := fun k v => by
  simp only [hp.mem_iff]
  exact h k v

theorem mem_iff (h : Denotes es m) : k ∈ m ↔ k ∈ es.map Prod.fst := by
  rw [Finmap.mem_iff, List.mem_map]
  constructor
  · rintro ⟨v, hv⟩
    obtain ⟨o, ho, -⟩ := (h k v).1 hv
    exact ⟨_, ho, rfl⟩
  · rintro ⟨⟨k', o⟩, ho, rfl⟩
    exact ⟨_, (h k' o.value).2 ⟨o, ho, rfl⟩⟩

theorem cons (h : Denotes es m) (hk : k ∉ es.map Prod.fst) :
    Denotes ((k, o) :: es) (m.insert k o.value) := fun k' v => by
  by_cases heq : k' = k
  · subst heq
    rw [Finmap.lookup_insert, Option.some.injEq]
    constructor
    · exact fun hv => ⟨o, List.mem_cons_self, hv⟩
    · rintro ⟨o', ho', rfl⟩
      rcases List.mem_cons.1 ho' with heq | hmem
      · rw [(Prod.mk.inj heq).2]
      · exact absurd (List.mem_map_of_mem hmem) hk
  · rw [Finmap.lookup_insert_of_ne _ heq, h k' v]
    simp [heq]

theorem erase (h : Denotes ((k, o) :: es) m) (hk : k ∉ es.map Prod.fst) :
    Denotes es (m.erase k) := fun k' v => by
  by_cases heq : k' = k
  · subst heq
    rw [Finmap.lookup_erase]
    refine iff_of_false (by simp) ?_
    rintro ⟨o', ho', -⟩
    exact hk (List.mem_map_of_mem ho')
  · rw [Finmap.lookup_erase_ne heq, h k' v]
    simp [heq]

/-- Replacing what is stored for `k`. -/
theorem replace (h : Denotes ((k, o) :: es) m) (hk : k ∉ es.map Prod.fst) (o' : Owned) :
    Denotes ((k, o') :: es) (m.insert k o'.value) := by
  have heq : (m.erase k).insert k o'.value = m.insert k o'.value := by
    apply Finmap.ext_lookup
    intro k'
    by_cases hkk : k' = k
    · rw [hkk, Finmap.lookup_insert, Finmap.lookup_insert]
    · rw [Finmap.lookup_insert_of_ne _ hkk, Finmap.lookup_insert_of_ne _ hkk,
        Finmap.lookup_erase_ne hkk]
  exact heq ▸ (h.erase hk).cons hk

theorem card (h : Denotes es m) (hnd : (es.map Prod.fst).Nodup) : m.keys.card = es.length := by
  have hkeys : m.keys = (es.map Prod.fst).toFinset := by
    ext k
    rw [Finmap.mem_keys, List.mem_toFinset, h.mem_iff]
  rw [hkeys, List.toFinset_card_of_nodup hnd, List.length_map]

end Denotes

/-- The shared hash holds the map `m`. -/
def Holds (hashBytes : Bytes → UInt32) (s : SharedHash) (m : Finmap fun _ : Field => Bytes) :
    Prop :=
  match s.table with
  | none => m = ∅
  | some t => TableInv hashBytes t.table ∧ Denotes t.table.entries m

theorem keys_insert (m : Finmap fun _ : Field => Bytes) (k : Field) (v : Bytes) :
    (m.insert k v).keys = insert k m.keys := by
  ext k'
  simp [Finmap.mem_keys, Finmap.mem_insert]

theorem insert_eq_self {m : Finmap fun _ : Field => Bytes} {k : Field} {v : Bytes}
    (h : m.lookup k = some v) : m.insert k v = m := by
  apply Finmap.ext_lookup
  intro k'
  by_cases hk : k' = k
  · rw [hk, Finmap.lookup_insert, h]
  · rw [Finmap.lookup_insert_of_ne _ hk]

/-! ## What the operations do -/

variable {s : SharedHash} {t : SharedTable} {m : Finmap fun _ : Field => Bytes} {field : Field}
  {ok : AllocSite → Bool}

/-- Rehashing, when the entries fit the new size. -/
theorem rehashTable_spec (h : TableInv hashBytes t.table) {n : ℕ} (hn : ∃ e, n = 2 ^ e)
    (hmin : initBuckets ≤ n) (hfit : 10 * t.table.occupied ≤ 7 * n) (d : Dsa) :
    ∃ t' d', rehashTable hashBytes true t n d = .ok (some (t', d')) ∧
      TableInv hashBytes t'.table ∧ t'.table.entries.Perm t.table.entries ∧
        t'.table.tombs = 0 ∧ t'.table.size = n := by
  obtain ⟨e, rfl⟩ := hn
  rw [initBuckets] at hmin
  obtain ⟨t', hre, hwf, htombs, hsize, hperm⟩ :=
    rehash_spec h.wf (lawful_geometry e) (n := 2 ^ e) (by omega)
  refine ⟨⟨d.palloc.1, t'⟩, d.palloc.2.pfree (some t.dsa), ?_, ⟨hwf, ⟨e, hsize⟩, ?_, ?_⟩, hperm,
    htombs, hsize⟩
  · rw [rehashTable, if_pos rfl, hre]
  · rw [hsize]
    exact hmin
  · rw [hwf.occupied_eq, hperm.length_eq, ← h.wf.occupied_eq, htombs, hsize]
    omega

/-- After the lazy allocation there is a table for the same map. -/
theorem ensureTable_spec (h : Holds hashBytes s m) (ok : AllocSite → Bool) :
    (∃ s' t, ensureTable ok s = (s', .ok t) ∧ s'.table = some t ∧ TableInv hashBytes t.table ∧
        Denotes t.table.entries m) ∨
      (ensureTable ok s = (s, .error (.outOfMemory .newTable)) ∧ ok .newTable = false) := by
  rw [Holds] at h
  rw [ensureTable]
  cases hs : s.table with
  | some t =>
    rw [hs] at h
    exact .inl ⟨s, t, rfl, hs, h⟩
  | none =>
    rw [hs] at h
    subst h
    simp only
    split_ifs with hok
    · refine .inl ⟨_, _, rfl, rfl, tableInv_blank, ?_⟩
      rw [entries_blank]
      exact .nil
    · exact .inr ⟨rfl, by simpa using hok⟩

/-- After the growth step there is room for one more entry. -/
theorem growIfNeeded_spec (hs : s.table = some t) (h : TableInv hashBytes t.table)
    (hm : Denotes t.table.entries m) (ok : AllocSite → Bool) :
    (∃ s' t', growIfNeeded hashBytes ok t s = (s', .ok t') ∧ s'.table = some t' ∧
        TableInv hashBytes t'.table ∧ Denotes t'.table.entries m ∧
        10 * (t'.table.occupied + t'.table.tombs + 1) ≤ 7 * t'.table.size) ∨
      (growIfNeeded hashBytes ok t s = (s, .error (.outOfMemory .grow)) ∧ ok .grow = false) := by
  have hload := h.load
  have hmin := h.min
  rw [initBuckets] at hmin
  rw [growIfNeeded]
  split_ifs with hgrow
  · cases hok : ok .grow with
    | false => exact .inr ⟨rfl, rfl⟩
    | true =>
      obtain ⟨e, he⟩ := h.pow
      obtain ⟨t', d', hre, hinv, hperm, htombs, hsize⟩ := rehashTable_spec h
        (n := t.table.size * 2) ⟨e + 1, by rw [he, Nat.pow_succ]⟩ (by rw [initBuckets]; omega)
        (by omega) s.dsa
      rw [hre]
      refine .inl ⟨_, t', rfl, rfl, hinv, hm.perm hperm, ?_⟩
      rw [hinv.wf.occupied_eq, hperm.length_eq, ← h.wf.occupied_eq, htombs, hsize]
      omega
  · refine .inl ⟨s, t, rfl, hs, h, hm, ?_⟩
    rw [shouldGrow, decide_eq_true_eq] at hgrow
    omega

/-- Looking up a field of a table with its map. -/
theorem find_spec {t : Table Field Owned} (h : TableInv hashBytes t) (hm : Denotes t.entries m)
    (field : Field) :
    (∃ i o, t.find (geometry hashBytes) field = some (i, true) ∧
        t.cells[i]? = some (.full field o) ∧ m.lookup field = some o.value) ∨
      ∃ i, t.find (geometry hashBytes) field = some (i, false) ∧ field ∉ t.keys ∧
        m.lookup field = none ∧ Vacant (geometry hashBytes) t field i := by
  rcases find_cases h.wf h.room field with ⟨i, o, hfind, hi⟩ | ⟨i, hfind, hk, hv⟩
  · exact .inl ⟨i, o, hfind, hi, (hm field o.value).2 ⟨o, mem_entries.2 ⟨i, hi⟩, rfl⟩⟩
  · refine .inr ⟨i, hfind, hk, ?_, hv⟩
    rw [Finmap.lookup_eq_none, hm.mem_iff]
    exact hk

/-- The key of a full cell occurs nowhere else. -/
theorem not_mem_bury {t : Table Field Owned} (h : TableInv hashBytes t) {i : ℕ} {o : Owned}
    (hi : t.cells[i]? = some (.full field o)) : field ∉ (t.bury i).entries.map Prod.fst := by
  have hnd := ((entries_bury hi).map Prod.fst).nodup_iff.2 h.wf.nodup
  exact (List.nodup_cons.1 hnd).1

theorem TableInv.bury {t : Table Field Owned} (h : TableInv hashBytes t) {i : ℕ} {o : Owned}
    (hi : t.cells[i]? = some (.full field o)) : TableInv hashBytes (t.bury i) := by
  refine ⟨h.wf.bury hi, ?_, ?_, ?_⟩
  · rw [size_bury]
    exact h.pow
  · rw [size_bury]
    exact h.min
  · have hload := h.load
    have hocc := h.wf.occupied_eq
    have hlen := (entries_bury hi).length_eq
    rw [List.length_cons] at hlen
    rw [size_bury, Table.bury]
    simp only
    omega

/-- What `pg_redis_shared_hash_set` may do to a table for `m`: set the field and
    tell whether it was absent, or raise an error, for a failed allocation or an
    oversize value, and leave the map. -/
def SetOutcome (hashBytes : Bytes → UInt32) (ok : AllocSite → Bool) (field : Field) (value : Bytes)
    (m : Finmap fun _ : Field => Bytes) (r : SharedHash × Except SharedHashError Bool) : Prop :=
  (r.2 = .ok (decide (field ∉ m)) ∧ Holds hashBytes r.1 (m.insert field value)) ∨
    (Holds hashBytes r.1 m ∧
      ((r.2 = .error (.valueTooLong value.length) ∧ uint16Max < value.length) ∨
        ∃ site ≠ .shrink, ok site = false ∧ r.2 = .error (.outOfMemory site)))

theorem overwrite_spec (hs : s.table = some t) (h : TableInv hashBytes t.table)
    (hm : Denotes t.table.entries m) {i : ℕ} {o : Owned}
    (hi : t.table.cells[i]? = some (.full field o)) (ok : AllocSite → Bool) (value : Bytes) :
    SetOutcome hashBytes ok field value m (overwrite ok i field o value t s) := by
  have hk := not_mem_bury h hi
  have hold := hm.perm (entries_bury hi)
  rw [overwrite]
  split_ifs with hfail
  · refine .inr ⟨?_, .inr ⟨.overwriteValue, by decide, hfail.2, rfl⟩⟩
    rw [Holds, hs]
    exact ⟨h, hm⟩
  · refine .inl ⟨?_, ⟨?_, ?_⟩⟩
    · have hmem : field ∈ m := hm.mem_iff.2 (List.mem_map_of_mem (mem_entries.2 ⟨i, hi⟩))
      simp [hmem]
    · refine ⟨h.wf.replace _ hi, ?_, ?_, ?_⟩
      · rw [size_replace]
        exact h.pow
      · rw [size_replace]
        exact h.min
      · rw [size_replace]
        exact h.load
    · -- The entries are those without the field, and the new one.
      have hrep := entries_replace ⟨o.fieldDsa, (allocValue value s.dsa).1, value⟩ hi
      have hswap := hrep.trans (((entries_bury hi).symm.cons _).trans (List.Perm.swap _ _ _))
      exact (hold.replace hk _).perm hswap.cons_inv

theorem insertAt_spec (hs : s.table = some t) (h : TableInv hashBytes t.table)
    (hm : Denotes t.table.entries m)
    (hroom : 10 * (t.table.occupied + t.table.tombs + 1) ≤ 7 * t.table.size) {i : ℕ}
    (hk : field ∉ t.table.keys) (hv : Vacant (geometry hashBytes) t.table field i)
    (ok : AllocSite → Bool) (value : Bytes) :
    SetOutcome hashBytes ok field value m (insertAt ok i field value t s) := by
  have hold : Holds hashBytes s m := by
    rw [Holds, hs]
    exact ⟨h, hm⟩
  rw [insertAt]
  split_ifs with hfield hvalue
  · exact .inr ⟨hold, .inr ⟨.newField, by decide, hfield, rfl⟩⟩
  · refine .inr ⟨?_, .inr ⟨.newValue, by decide, hvalue.2, rfl⟩⟩
    rw [Holds, hs]
    exact ⟨h, hm⟩
  · refine .inl ⟨?_, ⟨h.wf.fill _ hv hk, ?_, ?_, ?_⟩, ?_⟩
    · have hmem : field ∉ m := hm.mem_iff.not.2 hk
      simp [hmem]
    · rw [size_fill]
      exact h.pow
    · rw [size_fill]
      exact h.min
    · rw [size_fill]
      simp only [Table.fill]
      split_ifs <;> omega
    · exact (hm.cons hk).perm (entries_fill _ hv)

theorem set_spec (h : Holds hashBytes s m) (ok : AllocSite → Bool) (field : Field)
    (value : Bytes) : SetOutcome hashBytes ok field value m (set hashBytes ok field value s) := by
  rw [set]
  split_ifs with hlen
  · exact .inr ⟨h, .inl ⟨rfl, hlen⟩⟩
  rcases ensureTable_spec h ok with ⟨s₁, t₁, heq, hs₁, hinv₁, hm₁⟩ | ⟨heq, hok⟩ <;> rw [heq]
  swap
  · exact .inr ⟨h, .inr ⟨.newTable, by decide, hok, rfl⟩⟩
  have hold₁ : Holds hashBytes s₁ m := by
    rw [Holds, hs₁]
    exact ⟨hinv₁, hm₁⟩
  rcases growIfNeeded_spec hs₁ hinv₁ hm₁ ok with
    ⟨s₂, t₂, heq, hs₂, hinv₂, hm₂, hroom⟩ | ⟨heq, hok⟩ <;> simp only [heq]
  swap
  · exact .inr ⟨hold₁, .inr ⟨.grow, by decide, hok, rfl⟩⟩
  rcases find_spec hinv₂ hm₂ field with ⟨i, o, hfind, hi, -⟩ | ⟨i, hfind, hk, -, hv⟩
  · simp only [hfind, hi, Option.bind_some, item?_full]
    exact overwrite_spec hs₂ hinv₂ hm₂ hi ok value
  · simp only [hfind]
    exact insertAt_spec hs₂ hinv₂ hm₂ hroom hk hv ok value

/-- A set that succeeds, or fails and leaves the map as it was. -/
theorem set_cases (h : Holds hashBytes s m) (ok : AllocSite → Bool) (field : Field)
    (value : Bytes) :
    (∃ s', set hashBytes ok field value s = (s', .ok (decide (field ∉ m))) ∧
      Holds hashBytes s' (m.insert field value)) ∨
    ∃ s' err, set hashBytes ok field value s = (s', .error err) ∧ Holds hashBytes s' m ∧
      (err = .valueTooLong value.length ∧ uint16Max < value.length ∨ ∃ site, ok site = false) := by
  rcases set_spec h ok field value with ⟨hr, h'⟩ | ⟨h', ⟨hr, hlong⟩ | ⟨site, -, hfail, hr⟩⟩
  · exact .inl ⟨_, Prod.ext rfl hr, h'⟩
  · exact .inr ⟨_, _, Prod.ext rfl hr, h', .inl ⟨rfl, hlong⟩⟩
  · exact .inr ⟨_, _, Prod.ext rfl hr, h', .inr ⟨site, hfail⟩⟩

/-- No value too long for a bucket is set. -/
theorem length_of_set {value : Bytes} {isNew : Bool}
    (h : (set hashBytes ok field value s).2 = .ok isNew) : value.length ≤ uint16Max := by
  by_contra hlong
  rw [set, if_pos (Nat.not_le.1 hlong)] at h
  exact absurd h (by simp)

/-- A power of two above 16 has a half, from 16 on. -/
theorem exists_half {n : ℕ} (hn : ∃ e, n = 2 ^ e) (hmin : initBuckets < n) :
    ∃ e, n / 2 = 2 ^ e ∧ initBuckets ≤ 2 ^ e := by
  obtain ⟨e, rfl⟩ := hn
  rw [initBuckets] at hmin ⊢
  obtain ⟨e, rfl⟩ : ∃ e', e = e' + 1 := by
    cases e with
    | zero => exact absurd hmin (by decide)
    | succ e => exact ⟨e, rfl⟩
  rw [Nat.pow_succ] at hmin ⊢
  have hexp : 3 < e := by
    refine (Nat.pow_lt_pow_iff_right (a := 2) (by decide)).1 ?_
    omega
  have hle : 2 ^ 4 ≤ 2 ^ e := Nat.pow_le_pow_right (by decide) hexp
  exact ⟨e, by omega, by omega⟩

/-- The lazy shrink keeps the map, whether or not its allocation fails. -/
theorem shrinkIfNeeded_spec (hs : s.table = some t) (h : TableInv hashBytes t.table)
    (hm : Denotes t.table.entries m) (ok : AllocSite → Bool) :
    (shrinkIfNeeded hashBytes ok t s).2 = .ok true ∧
      Holds hashBytes (shrinkIfNeeded hashBytes ok t s).1 m := by
  have hold : Holds hashBytes s m := by
    rw [Holds, hs]
    exact ⟨h, hm⟩
  rw [shrinkIfNeeded]
  split_ifs with hshrink
  · cases hok : ok .shrink with
    | false => exact ⟨rfl, hold⟩
    | true =>
      simp only [shouldShrink, Bool.and_eq_true, decide_eq_true_eq] at hshrink
      obtain ⟨e, hhalf, hmin⟩ := exists_half h.pow hshrink.1
      obtain ⟨t', d', hre, hinv, hperm, -, -⟩ := rehashTable_spec h
        (n := t.table.size / 2) ⟨e, hhalf⟩ (hhalf ▸ hmin) (by omega) s.dsa
      rw [hre]
      exact ⟨rfl, hinv, hm.perm hperm⟩
  · exact ⟨rfl, hold⟩

theorem Denotes.eq_empty {es : List (Field × Owned)} (h : Denotes es m) (hlen : es.length = 0) :
    m = ∅ := by
  apply Finmap.ext_lookup
  intro k
  rw [Finmap.lookup_empty, Finmap.lookup_eq_none, h.mem_iff, List.length_eq_zero_iff.1 hlen]
  exact List.not_mem_nil

theorem erase_of_lookup (h : m.lookup field = none) : m.erase field = m := by
  apply Finmap.ext_lookup
  intro k
  by_cases hk : k = field
  · rw [hk, Finmap.lookup_erase, h]
  · rw [Finmap.lookup_erase_ne hk]

/-- `pg_redis_shared_hash_del` raises no error, deletes the field and tells
    whether it was there. -/
theorem del_spec (h : Holds hashBytes s m) (ok : AllocSite → Bool) (field : Field) :
    (del hashBytes ok field s).2 = .ok (decide (field ∈ m)) ∧
      Holds hashBytes (del hashBytes ok field s).1 (m.erase field) := by
  -- A field that is not there leaves the table and the map.
  have hmiss : m.lookup field = none →
      (s, (.ok false : Except SharedHashError Bool)).2 = .ok (decide (field ∈ m)) ∧
        Holds hashBytes s (m.erase field) := fun hnone => by
    rw [erase_of_lookup hnone]
    exact ⟨by simp [Finmap.lookup_eq_none.1 hnone], h⟩
  have hH := h
  rw [Holds] at hH
  rw [del]
  cases hs : s.table with
  | none =>
    rw [hs] at hH
    exact hmiss (by rw [hH, Finmap.lookup_empty])
  | some t =>
    rw [hs] at hH
    obtain ⟨hinv, hm⟩ := hH
    simp only
    split_ifs with hocc
    · exact hmiss (by rw [hm.eq_empty (hinv.wf.occupied_eq.symm.trans hocc), Finmap.lookup_empty])
    rcases find_spec hinv hm field with ⟨i, o, hfind, hi, hlook⟩ | ⟨i, hfind, -, hnone, -⟩
    · simp only [hfind, hi, Option.bind_some, item?_full]
      have hmem : field ∈ m := Finmap.mem_of_lookup_eq_some hlook
      have := shrinkIfNeeded_spec (s := ⟨(s.dsa.pfree (some o.fieldDsa)).pfree o.valueDsa,
        some ⟨t.dsa, t.table.bury i⟩⟩) rfl (hinv.bury hi)
        ((hm.perm (entries_bury hi)).erase (not_mem_bury hinv hi)) ok
      simpa [hmem] using this
    · simp only [hfind]
      exact hmiss hnone

theorem get_spec (h : Holds hashBytes s m) (field : Field) :
    get hashBytes field s = .ok (m.lookup field) := by
  rw [Holds] at h
  rw [get]
  cases hs : s.table with
  | none =>
    rw [hs] at h
    rw [h, Finmap.lookup_empty]
  | some t =>
    rw [hs] at h
    obtain ⟨hinv, hm⟩ := h
    simp only
    split_ifs with hocc
    · rw [hm.eq_empty (hinv.wf.occupied_eq.symm.trans hocc), Finmap.lookup_empty]
    rcases find_spec hinv hm field with ⟨i, o, hfind, hi, hlook⟩ | ⟨i, hfind, -, hnone, -⟩
    · simp [hfind, hi, hlook]
    · simp only [hfind, hnone]

/-- A table stands for one map. -/
theorem Holds.unique {m' : Finmap fun _ : Field => Bytes} (h : Holds hashBytes s m)
    (h' : Holds hashBytes s m') : m = m' := by
  apply Finmap.ext_lookup
  intro f
  exact Except.ok.inj ((get_spec h f).symm.trans (get_spec h' f))

theorem exists_spec (h : Holds hashBytes s m) (field : Field) :
    exists? hashBytes field s = .ok (decide (field ∈ m)) := by
  rw [Holds] at h
  rw [exists?]
  cases hs : s.table with
  | none =>
    rw [hs] at h
    simp [h, Finmap.notMem_empty]
  | some t =>
    rw [hs] at h
    obtain ⟨hinv, hm⟩ := h
    simp only
    split_ifs with hocc
    · simp [hm.eq_empty (hinv.wf.occupied_eq.symm.trans hocc), Finmap.notMem_empty]
    rcases find_spec hinv hm field with ⟨i, o, hfind, -, hlook⟩ | ⟨i, hfind, -, hnone, -⟩
    · simp [hfind, Finmap.mem_of_lookup_eq_some hlook]
    · simp [hfind, Finmap.lookup_eq_none.1 hnone]

theorem count_spec (h : Holds hashBytes s m) : count s = m.keys.card := by
  rw [Holds] at h
  rw [count]
  cases hs : s.table with
  | none =>
    rw [hs] at h
    rw [h]
    rfl
  | some t =>
    rw [hs] at h
    obtain ⟨hinv, hm⟩ := h
    rw [hm.card hinv.wf.nodup]
    exact hinv.wf.occupied_eq

/-- A field as SQL text gives it: from 1 to 1024 bytes, none of them NUL. -/
def ValidField (field : Field) : Prop :=
  1 ≤ field.length ∧ field.length ≤ maxFieldSize ∧ 0 ∉ field

theorem cstr_of_valid (h : ValidField field) : cstr field = field := by
  have hall : ∀ b ∈ field, decide (b ≠ 0) = true := fun b hb => by
    rw [decide_eq_true_eq]
    rintro rfl
    exact h.2.2 hb
  have htake := @List.takeWhile_append_of_pos _ _ _ [] hall
  simpa [cstr] using htake

/-- The fields of the hash built by the loop of materialize. -/
theorem lookup_materialize : ∀ (es : List (Field × Owned)) (h : Hash),
    (∀ e ∈ es, ValidField e.1) → (es.map Prod.fst).Nodup → ∀ k v,
      ((es.foldl materializeStep h).fields.lookup k).map HashField.value = some v ↔
        (∃ o, (k, o) ∈ es ∧ o.value = v) ∨
          (k ∉ es.map Prod.fst ∧ (h.fields.lookup k).map HashField.value = some v)
  | [], h, _, _, k, v => by simp
  | e :: es, h, hvalid, hnd, k, v => by
    rw [List.map_cons, List.nodup_cons] at hnd
    have hve := hvalid e List.mem_cons_self
    have hstep : materializeStep h e = (h.set e.1 e.2.value).1 := by
      rw [materializeStep, if_neg (Nat.not_lt.2 hve.2.1), cstr_of_valid hve]
    rw [List.foldl_cons, hstep, lookup_materialize es _
      (fun e' he' => hvalid e' (List.mem_cons_of_mem _ he')) hnd.2, Hash.fields_set]
    by_cases hk : k = e.1
    · subst hk
      constructor
      · rintro (⟨o, ho, -⟩ | ⟨-, hv⟩)
        · exact absurd (List.mem_map_of_mem ho) hnd.1
        · rw [AList.lookup_insert, Option.map_some, Option.some.injEq] at hv
          exact .inl ⟨e.2, List.mem_cons_self, hv⟩
      · rintro (⟨o, ho, rfl⟩ | ⟨hno, -⟩)
        · refine .inr ⟨hnd.1, ?_⟩
          rcases List.mem_cons.1 ho with heq | ho
          · rw [AList.lookup_insert, Option.map_some, ← heq]
          · exact absurd (List.mem_map_of_mem ho) hnd.1
        · exact absurd (List.mem_cons_self) hno
    · have hne : ∀ o, (k, o) ≠ e := fun o heq => hk (by rw [← heq])
      simp only [List.mem_cons, hne, false_or, AList.lookup_insert_ne hk, List.map_cons, hk]

theorem tombstones_materialize {table : Option SharedTable} {h : Hash}
    (hm : materializeTable table = some h) : h.tombstones = [] := by
  have hfold : ∀ (es : List (Field × Owned)) (h : Hash),
      (es.foldl materializeStep h).tombstones = h.tombstones := by
    intro es
    induction es with
    | nil => exact fun _ => rfl
    | cons e es ih =>
      intro h
      rw [List.foldl_cons, ih, materializeStep]
      split_ifs
      · rfl
      · exact Hash.tombstones_set _ _ _
  cases table with
  | none => exact absurd hm (by simp [materializeTable])
  | some t =>
    rw [materializeTable] at hm
    split_ifs at hm
    obtain rfl := Option.some.inj hm
    exact hfold _ _

/-- Materializing gives a hash with exactly the map, and `NULL` for the empty
    one. -/
theorem materialize_spec (h : Holds hashBytes s m) (hvalid : ∀ field ∈ m, ValidField field) :
    (materialize s = none ↔ m = ∅) ∧ ∀ field,
      ((materialize s).bind fun hash => hash.fields.lookup field).map HashField.value =
        m.lookup field := by
  rw [Holds] at h
  rw [materialize]
  cases hs : s.table with
  | none =>
    rw [hs] at h
    simp [h, materializeTable]
  | some t =>
    rw [hs] at h
    obtain ⟨hinv, hm⟩ := h
    simp only [materializeTable]
    split_ifs with hocc
    · simp [hm.eq_empty (hinv.wf.occupied_eq.symm.trans hocc)]
    refine ⟨iff_of_false (by simp) ?_, fun field => ?_⟩
    · rintro rfl
      have hcard := hm.card hinv.wf.nodup
      rw [← hinv.wf.occupied_eq] at hcard
      exact hocc hcard.symm
    · apply Option.ext
      intro v
      rw [Option.bind_some, lookup_materialize t.table.entries Hash.create
        (fun e he => hvalid e.1 (hm.mem_iff.2 (List.mem_map_of_mem he))) hinv.wf.nodup, hm field v]
      simp

/-! ## Sequences of operations -/

/-- A call of `pg_redis_shared_hash_set` or `_del`. -/
inductive TableOp
  | set (field : Field) (value : Bytes)
  | del (field : Field)
  deriving DecidableEq, Repr

/-- What the commands guarantee: a field as SQL text gives it, and a value of at
    most 65535 bytes. -/
def TableOp.Valid : TableOp → Prop
  | .set field value => ValidField field ∧ value.length ≤ uint16Max
  | .del field => ValidField field

/-- A call on the table. -/
def TableOp.run (hashBytes : Bytes → UInt32) (op : TableOp) (ok : AllocSite → Bool)
    (s : SharedHash) : SharedHash × Except SharedHashError Bool :=
  match op with
  | .set field value => SharedHash.set hashBytes ok field value s
  | .del field => SharedHash.del hashBytes ok field s

/-- The same on a finite map. -/
def TableOp.spec (op : TableOp) (m : Finmap fun _ : Field => Bytes) :
    (Finmap fun _ : Field => Bytes) × Bool :=
  match op with
  | .set field value => (m.insert field value, decide (field ∉ m))
  | .del field => (m.erase field, decide (field ∈ m))

/-- A sequence of calls, each with its allocations, and the replies. -/
def runOps (hashBytes : Bytes → UInt32) : List (TableOp × (AllocSite → Bool)) → SharedHash →
    SharedHash × List (Except SharedHashError Bool)
  | [], s => (s, [])
  | (op, ok) :: ops, s =>
    let r := op.run hashBytes ok s
    let rest := runOps hashBytes ops r.1
    (rest.1, r.2 :: rest.2)

/-- The same on a finite map. -/
def specOps : List TableOp → (Finmap fun _ : Field => Bytes) →
    (Finmap fun _ : Field => Bytes) × List Bool
  | [], m => (m, [])
  | op :: ops, m =>
    let r := op.spec m
    let rest := specOps ops r.1
    (rest.1, r.2 :: rest.2)

/-- One call, with no allocation failing but that of a shrink. -/
theorem run_spec (h : Holds hashBytes s m) {op : TableOp} (hvalid : op.Valid)
    (hok : ∀ site ≠ .shrink, ok site = true) :
    (op.run hashBytes ok s).2 = .ok (op.spec m).2 ∧
      Holds hashBytes (op.run hashBytes ok s).1 (op.spec m).1 := by
  cases op with
  | del field => exact del_spec h ok field
  | set field value =>
    rcases set_spec h ok field value with hset | ⟨-, ⟨-, hlong⟩ | ⟨site, hsite, hfail, -⟩⟩
    · exact hset
    · exact absurd hlong (Nat.not_lt.2 hvalid.2)
    · rw [hok site hsite] at hfail
      exact absurd hfail (by decide)

theorem valid_spec {op : TableOp} (hop : op.Valid) (hvalid : ∀ field ∈ m, ValidField field) :
    ∀ field ∈ (op.spec m).1, ValidField field := by
  intro field hfield
  cases op with
  | set field' value =>
    rcases (Finmap.mem_insert).1 hfield with rfl | hmem
    · exact hop.1
    · exact hvalid field hmem
  | del field' => exact hvalid field (Finmap.mem_erase.1 hfield).2

theorem runOps_spec : ∀ (ops : List (TableOp × (AllocSite → Bool))) {s : SharedHash}
    {m : Finmap fun _ : Field => Bytes}, Holds hashBytes s m → (∀ field ∈ m, ValidField field) →
    (∀ p ∈ ops, p.1.Valid ∧ ∀ site ≠ .shrink, p.2 site = true) →
      (runOps hashBytes ops s).2 = (specOps (ops.map Prod.fst) m).2.map .ok ∧
        Holds hashBytes (runOps hashBytes ops s).1 (specOps (ops.map Prod.fst) m).1 ∧
        ∀ field ∈ (specOps (ops.map Prod.fst) m).1, ValidField field
  | [], _, _, h, hvalid, _ => ⟨rfl, h, hvalid⟩
  | (op, ok) :: ops, s, m, h, hvalid, hops => by
    obtain ⟨hop, hok⟩ := hops (op, ok) List.mem_cons_self
    obtain ⟨hreply, hnext⟩ := run_spec h hop hok
    obtain ⟨hreplies, hend, hvalid'⟩ := runOps_spec ops hnext (valid_spec hop hvalid)
      fun p hp => hops p (List.mem_cons_of_mem _ hp)
    refine ⟨?_, hend, hvalid'⟩
    simp only [runOps, specOps, List.map_cons, hreply, hreplies]

/-- For every hash function and every sequence of calls from no table at all,
    with no allocation failing but those of shrinks: the replies are those of the
    finite map, none an error, and at the end get, exists, count and materialize
    answer as the map does. -/
theorem hashOps_refine (hashBytes : Bytes → UInt32) (ops : List (TableOp × (AllocSite → Bool)))
    (hops : ∀ p ∈ ops, p.1.Valid ∧ ∀ site ≠ .shrink, p.2 site = true) (d : Dsa) :
    let r := runOps hashBytes ops ⟨d, none⟩
    let spec := specOps (ops.map Prod.fst) ∅
    r.2 = spec.2.map .ok ∧
      (∀ field, get hashBytes field r.1 = .ok (spec.1.lookup field)) ∧
      (∀ field, exists? hashBytes field r.1 = .ok (decide (field ∈ spec.1))) ∧
      count r.1 = spec.1.keys.card ∧
      (materialize r.1 = none ↔ spec.1 = ∅) ∧
      ∀ field, ((materialize r.1).bind fun h => h.fields.lookup field).map HashField.value =
        spec.1.lookup field := by
  have hstart : Holds hashBytes ⟨d, none⟩ ∅ := rfl
  obtain ⟨hreplies, hend, hvalid⟩ := runOps_spec ops hstart
    (fun field hf => absurd hf Finmap.notMem_empty) hops
  have hmat := materialize_spec hend hvalid
  exact ⟨hreplies, get_spec hend, exists_spec hend, count_spec hend, hmat.1, hmat.2⟩

/-! ## The representation invariant -/

/-- What holds of every table. Its counters are right and a bucket is empty, every field is in
    one bucket, which can be reached from its home past no empty bucket. So a probe ends, and a
    rehash to the double or to half the size probes for no field that is already there. -/
structure Sound (hashBytes : Bytes → UInt32) (t : Table Field Owned) : Prop where
  pow : ∃ e, t.size = 2 ^ e
  min : 16 ≤ t.size
  occupied : t.occupied = t.cells.countP fun c => c.item?.isSome
  tombstones : t.tombs = t.cells.countP Cell.isTomb
  load : 10 * (t.occupied + t.tombs) ≤ 7 * t.size
  empty : ∃ i : ℕ, t.cells[i]? = some .empty
  distinct : ∀ (i j : ℕ) field o o', t.cells[i]? = some (.full field o) →
    t.cells[j]? = some (.full field o') → i = j
  reachable : ∀ (i : ℕ) field o, t.cells[i]? = some (.full field o) →
    let home := (geometry hashBytes).home t.size field
    ∃ d < t.size, i = (home + d) % t.size ∧ ∀ j < d, t.cells[(home + j) % t.size]? ≠ some .empty
  found : ∀ field, t.find (geometry hashBytes) field ≠ none
  rehash : ∀ n, shouldGrow t.occupied t.tombs t.size ∧ n = t.size * 2 ∨
      shouldShrink t.occupied t.size ∧ n = t.size / 2 →
    ∀ pre e post, t.entries = pre ++ e :: post →
      ∃ t' i, (Table.blank n : Table Field Owned).insertAll (geometry hashBytes) pre = some t' ∧
        t'.find (geometry hashBytes) e.1 = some (i, false)

theorem TableInv.sound {t : Table Field Owned} (h : TableInv hashBytes t) : Sound hashBytes t where
  pow := h.pow
  min := h.min
  occupied := by
    rw [h.wf.occupied_eq, Table.entries, List.length_filterMap_eq_countP]
  tombstones := h.wf.tombs_eq
  load := h.load
  empty := by
    obtain ⟨j, -, hj⟩ := exists_empty h.wf h.room []
    exact ⟨_, hj⟩
  distinct _ _ _ _ _ hi hj := h.wf.cell_unique hi hj
  reachable i field o hi := h.wf.onWay i field o hi
  found field := by
    rcases find_cases h.wf h.room field with ⟨i, o, hfind, -⟩ | ⟨i, hfind, -⟩ <;> simp [hfind]
  rehash n hn pre e post hsplit := by
    have hload := h.load
    have hmin := h.min
    rcases hn with ⟨-, rfl⟩ | ⟨hshrink, rfl⟩
    · obtain ⟨x, hx⟩ := h.pow
      have hg : (geometry hashBytes).Lawful (t.size * 2) := by
        rw [hx, ← Nat.pow_succ]
        exact lawful_geometry _
      exact rehash_vacant h.wf hg (by rw [initBuckets] at hmin; omega) hsplit
    · simp only [shouldShrink, Bool.and_eq_true, decide_eq_true_eq] at hshrink
      obtain ⟨x, hx, -⟩ := exists_half h.pow hshrink.1
      have hroom : t.occupied < t.size / 2 := by
        rw [initBuckets] at hmin
        omega
      exact rehash_vacant h.wf (hx ▸ lawful_geometry x) hroom hsplit

/-- One call, with any of its allocations failing: there is a map after it, and no error of
    a saturated table. -/
theorem run_holds (h : Holds hashBytes s m) (op : TableOp) (ok : AllocSite → Bool) :
    ∃ m', Holds hashBytes (op.run hashBytes ok s).1 m' ∧
      ∀ n, (op.run hashBytes ok s).2 ≠ .error (.saturated n) := by
  cases op with
  | del field =>
    obtain ⟨hreply, hheld⟩ := del_spec h ok field
    exact ⟨_, hheld, fun n hn => absurd (hreply.symm.trans hn) (by simp)⟩
  | set field value =>
    rcases set_spec h ok field value with ⟨hreply, hheld⟩ |
      ⟨hheld, ⟨hreply, -⟩ | ⟨site, -, -, hreply⟩⟩ <;>
      exact ⟨_, hheld, fun n hn => absurd (hreply.symm.trans hn) (by simp)⟩

theorem runOps_holds : ∀ (ops : List (TableOp × (AllocSite → Bool))) {s : SharedHash}
    {m : Finmap fun _ : Field => Bytes}, Holds hashBytes s m →
    ∃ m', Holds hashBytes (runOps hashBytes ops s).1 m' ∧
      ∀ reply ∈ (runOps hashBytes ops s).2, ∀ n, reply ≠ .error (.saturated n)
  | [], _, m, h => ⟨m, h, fun _ hr => absurd hr List.not_mem_nil⟩
  | (op, ok) :: ops, _, _, h => by
    obtain ⟨m₁, h₁, hreply⟩ := run_holds h op ok
    obtain ⟨m', h', hreplies⟩ := runOps_holds ops h₁
    exact ⟨m', h', List.forall_mem_cons.2 ⟨hreply, hreplies⟩⟩

/-- For every hash function and every sequence of calls from no table at all, with any
    allocation of any call failing: the table is sound, and neither a call of the sequence nor
    a read after it raises the error of a saturated table. -/
theorem hashOps_sound (hashBytes : Bytes → UInt32) (ops : List (TableOp × (AllocSite → Bool)))
    (d : Dsa) :
    let r := runOps hashBytes ops ⟨d, none⟩
    (∀ t, r.1.table = some t → Sound hashBytes t.table) ∧
      (∀ reply ∈ r.2, ∀ n, reply ≠ .error (.saturated n)) ∧
      ∀ field n, get hashBytes field r.1 ≠ .error (.saturated n) ∧
        exists? hashBytes field r.1 ≠ .error (.saturated n) := by
  have hstart : Holds hashBytes ⟨d, none⟩ ∅ := rfl
  obtain ⟨m, hheld, hreplies⟩ := runOps_holds ops hstart
  refine ⟨fun t ht => ?_, hreplies, fun field n => ⟨?_, ?_⟩⟩
  · rw [Holds, ht] at hheld
    exact hheld.1.sound
  · rw [get_spec hheld]
    simp
  · rw [exists_spec hheld]
    simp

/-- Two fields with the same home, and the first of them deleted. -/
def collide : List (TableOp × (AllocSite → Bool)) :=
  [(.set [97] [1], fun _ => true), (.set [98] [2], fun _ => true), (.del [97], fun _ => true)]

/-- The second field is still found, behind the tombstone of the first. -/
theorem get_collide :
    get (fun _ => 7) [98] (runOps (fun _ => 7) collide ⟨⟨1, []⟩, none⟩).1 = .ok (some [2]) := by
  have hvalid : ∀ p ∈ collide, p.1.Valid ∧ ∀ site ≠ .shrink, p.2 site = true := by
    simp [collide, TableOp.Valid, ValidField, maxFieldSize, uint16Max]
  exact (hashOps_refine (fun _ => 7) collide hvalid ⟨1, []⟩).2.1 [98]

end SharedHash

end PgRedis
