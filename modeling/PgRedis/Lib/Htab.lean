import Mathlib.Algebra.GroupWithZero.Nat
import Mathlib.Data.List.AList

/-!
# Hash tables of the backend

The dynamic hash tables of the server, as far as their users can tell: a finite
map from keys to entries, with a sequential scan in some order. They are the
association lists of Mathlib, with the scan order that of the list.
-/

namespace PgRedis.Lib

/-- A hash table. -/
abbrev Htab (K V : Type*) := AList fun _ : K => V

namespace Htab

variable {K V W : Type*}

/-- The entries in the order of a scan. -/
def toList (m : Htab K V) : List (K × V) := m.entries.map fun e => (e.1, e.2)

/-- Changing the entries in place. -/
def mapValues (f : K → V → W) (m : Htab K V) : Htab K W where
  entries := m.entries.map fun e => ⟨e.1, f e.1 e.2⟩
  nodupKeys := by
    have h := m.nodupKeys
    rw [List.NodupKeys, List.keys] at h ⊢
    rw [List.map_map]
    exact h

variable [DecidableEq K]

theorem mem_toList {m : Htab K V} {k : K} {v : V} : (k, v) ∈ m.toList ↔ m.lookup k = some v := by
  rw [← Option.mem_def, AList.mem_lookup_iff, toList, List.mem_map]
  constructor
  · rintro ⟨⟨k', v'⟩, he, heq⟩
    obtain ⟨rfl, rfl⟩ := Prod.mk.inj heq
    exact he
  · exact fun h => ⟨_, h, rfl⟩

omit [DecidableEq K] in
/-- A scan meets each key once. -/
theorem nodup_keys_toList (m : Htab K V) : (m.toList.map Prod.fst).Nodup := by
  have h := m.nodupKeys
  rw [List.NodupKeys, List.keys] at h
  rw [toList, List.map_map]
  exact h

/-- The keys of the entries with `p`, in the order of a scan. -/
def keysWhere (p : K → V → Bool) (m : Htab K V) : List K :=
  (m.toList.filter fun e => p e.1 e.2).map Prod.fst

omit [DecidableEq K] in
theorem nodup_keysWhere (p : K → V → Bool) (m : Htab K V) : (m.keysWhere p).Nodup :=
  m.nodup_keys_toList.sublist (List.filter_sublist.map _)

omit [DecidableEq K] in
theorem length_keysWhere (p : K → V → Bool) (m : Htab K V) :
    (m.keysWhere p).length = m.toList.countP fun e => p e.1 e.2 := by
  rw [keysWhere, List.length_map, List.countP_eq_length_filter]

theorem mem_keysWhere {p : K → V → Bool} {m : Htab K V} {k : K} :
    k ∈ m.keysWhere p ↔ ∃ v, m.lookup k = some v ∧ p k v = true := by
  rw [keysWhere, List.mem_map]
  constructor
  · rintro ⟨⟨k', v⟩, he, rfl⟩
    obtain ⟨hmem, hp⟩ := List.mem_filter.1 he
    exact ⟨v, mem_toList.1 hmem, hp⟩
  · rintro ⟨v, hv, hp⟩
    exact ⟨(k, v), List.mem_filter.2 ⟨mem_toList.2 hv, hp⟩, rfl⟩

@[simp] theorem lookup_mapValues (f : K → V → W) (m : Htab K V) (k : K) :
    (m.mapValues f).lookup k = (m.lookup k).map (f k) := by
  apply Option.ext
  intro w
  rw [← Option.mem_def, AList.mem_lookup_iff, mapValues, List.mem_map, Option.map_eq_some_iff]
  constructor
  · rintro ⟨⟨k', v⟩, he, heq⟩
    obtain ⟨rfl, hw⟩ := Sigma.mk.inj heq
    exact ⟨v, AList.mem_lookup_iff.2 he, eq_of_heq hw⟩
  · rintro ⟨v, hv, rfl⟩
    exact ⟨⟨k, v⟩, AList.mem_lookup_iff.1 hv, rfl⟩

omit [DecidableEq K] in
@[simp] theorem keys_mapValues (f : K → V → W) (m : Htab K V) :
    (m.mapValues f).keys = m.keys := by
  rw [mapValues, AList.keys, AList.keys, List.keys, List.keys, List.map_map]
  rfl

theorem length_keys_erase {m : Htab K V} {k : K} (hk : k ∈ m) :
    (m.erase k).keys.length + 1 = m.keys.length := by
  have hpos := List.length_pos_of_mem (hk : k ∈ m.keys)
  rw [AList.keys_erase, List.length_erase_of_mem hk]
  omega

theorem length_keys_insert (m : Htab K V) (k : K) (v : V) :
    (m.insert k v).keys.length = if k ∈ m then m.keys.length else m.keys.length + 1 := by
  rw [AList.keys_insert, List.length_cons]
  split_ifs with hk
  · rw [← length_keys_erase hk, AList.keys_erase]
  · rw [List.erase_of_not_mem hk]

theorem lookup_insert_eq (m : Htab K V) (k k' : K) (v : V) :
    (m.insert k v).lookup k' = if k' = k then some v else m.lookup k' := by
  split_ifs with h
  · rw [h, AList.lookup_insert]
  · exact AList.lookup_insert_ne h

theorem lookup_erase_eq (m : Htab K V) (k k' : K) :
    (m.erase k).lookup k' = if k' = k then none else m.lookup k' := by
  split_ifs with h
  · rw [h, AList.lookup_erase]
  · exact AList.lookup_erase_ne h

/-! ## Sums over a table -/

/-- The sum of a number of each entry. -/
def sum (f : K → V → ℕ) (m : Htab K V) : ℕ := (m.toList.map fun e => f e.1 e.2).sum

variable {f : K → V → ℕ} {m : Htab K V} {k : K} {v : V}

omit [DecidableEq K] in
theorem sum_eq_entries : sum f m = (m.entries.map fun e => f e.1 e.2).sum := by
  rw [sum, toList, List.map_map]
  rfl

theorem sum_erase (h : m.lookup k = some v) : sum f (m.erase k) + f k v = sum f m := by
  have hmem : k ∈ m.entries.keys := AList.lookup_isSome.1 (by rw [h]; rfl)
  obtain ⟨w, l₁, l₂, -, heq, herase⟩ := List.exists_of_kerase hmem
  obtain rfl : w = v := by
    have hw : (⟨k, w⟩ : Sigma fun _ : K => V) ∈ m.entries := heq ▸ by simp
    exact Option.some.inj ((AList.mem_lookup_iff.2 hw).symm.trans h)
  have hsum : sum f (m.erase k) = ((l₁ ++ l₂).map fun e => f e.1 e.2).sum := by
    rw [sum_eq_entries, ← herase]
    rfl
  rw [hsum, sum_eq_entries, heq]
  simp only [List.map_append, List.map_cons, List.sum_append, List.sum_cons]
  omega

theorem erase_of_lookup_none (h : m.lookup k = none) : m.erase k = m :=
  AList.ext (List.kerase_of_notMem_keys (AList.lookup_eq_none.1 h))

theorem sum_insert : sum f (m.insert k v) = f k v + sum f (m.erase k) := by
  rw [sum_eq_entries, sum_eq_entries]
  rfl

/-- An entry counts no more than all. -/
theorem le_sum (h : m.lookup k = some v) : f k v ≤ sum f m :=
  (sum_erase (f := f) h) ▸ Nat.le_add_left _ _

omit [DecidableEq K] in
theorem sum_mapValues (g : K → V → W) (f : K → W → ℕ) (m : Htab K V) :
    sum f (m.mapValues g) = sum (fun k v => f k (g k v)) m := by
  rw [sum_eq_entries, sum_eq_entries, mapValues, List.map_map]
  rfl

end Htab

end PgRedis.Lib
