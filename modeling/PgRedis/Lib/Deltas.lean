import Mathlib.Logic.Function.Basic
import PgRedis.Lib.LastWrite

/-!
# Deltas of a table

A table is a partial function from keys to values. A delta is a list of keys to be deleted
and a list of rows to be written, applied one after the other.

There are two ways to apply one. `eraseAll` and `upsertAll` do not mind a key that is absent or
present already. `deleteAll` and `insertAll` do, and give `none`: so they succeed exactly when
the keys are distinct and all present, or all absent, and then do the same
(`deleteAll_eq_some_iff`, `insertAll_eq_some_iff`).
-/

namespace PgRedis.Lib

variable {κ V : Type*} [DecidableEq κ]

/-- Deleting keys that may be absent. -/
def eraseAll (ks : List κ) (rows : κ → Option V) : κ → Option V :=
  ks.foldl (fun rows k => Function.update rows k none) rows

/-- Writing rows that may be present. -/
def upsertAll (xs : List (κ × V)) (rows : κ → Option V) : κ → Option V :=
  xs.foldl (fun rows x => Function.update rows x.1 (some x.2)) rows

/-- Deleting keys, `none` when one of them is absent. -/
def deleteAll : List κ → (κ → Option V) → Option (κ → Option V)
  | [], rows => some rows
  | k :: ks, rows =>
    if (rows k).isSome then deleteAll ks (Function.update rows k none) else none

/-- Inserting rows, `none` when the key of one of them is present. -/
def insertAll : List (κ × V) → (κ → Option V) → Option (κ → Option V)
  | [], rows => some rows
  | x :: xs, rows =>
    if (rows x.1).isSome then none else insertAll xs (Function.update rows x.1 (some x.2))

variable {ks : List κ} {xs : List (κ × V)} {rows rows' : κ → Option V} {k : κ}

theorem eraseAll_apply (ks : List κ) (rows : κ → Option V) (k : κ) :
    eraseAll ks rows k = if k ∈ ks then none else rows k := by
  induction ks generalizing rows with
  | nil => rfl
  | cons a ks ih =>
    rw [eraseAll, List.foldl_cons, ← eraseAll, ih, Function.update_apply]
    by_cases hk : k = a <;> simp [hk]

theorem upsertAll_apply (xs : List (κ × V)) (rows : κ → Option V) (k : κ) :
    upsertAll xs rows k =
      (last (fun x : κ × V => if x.1 = k then some x.2 else none) xs).or (rows k) := by
  induction xs generalizing rows with
  | nil => rfl
  | cons x xs ih =>
    rw [upsertAll, List.foldl_cons, ← upsertAll, ih, Function.update_apply, last_cons,
      Option.or_assoc]
    by_cases hk : k = x.1
    · rw [if_pos hk, if_pos hk.symm, Option.some_or]
    · rw [if_neg hk, if_neg (Ne.symm hk), Option.none_or]

theorem deleteAll_eq_some_iff : deleteAll ks rows = some rows' ↔
    ks.Nodup ∧ (∀ k ∈ ks, (rows k).isSome) ∧ rows' = eraseAll ks rows := by
  induction ks generalizing rows with
  | nil =>
    rw [deleteAll, Option.some.injEq]
    exact ⟨fun h => ⟨.nil, by simp, h.symm⟩, fun h => h.2.2.symm⟩
  | cons a ks ih =>
    rw [deleteAll, List.nodup_cons, List.forall_mem_cons, eraseAll, List.foldl_cons, ← eraseAll]
    split_ifs with ha
    · rw [ih]
      constructor
      · rintro ⟨hnd, hin, rfl⟩
        have hnot : a ∉ ks := fun h => by simpa using hin a h
        refine ⟨⟨hnot, hnd⟩, ⟨ha, fun k hk => ?_⟩, rfl⟩
        simpa [Function.update_of_ne (fun h : k = a => hnot (h ▸ hk))] using hin k hk
      · rintro ⟨⟨hnot, hnd⟩, ⟨-, hin⟩, rfl⟩
        refine ⟨hnd, fun k hk => ?_, rfl⟩
        rw [Function.update_of_ne (fun h : k = a => hnot (h ▸ hk))]
        exact hin k hk
    · exact iff_of_false (by simp) fun h => ha h.2.1.1

theorem insertAll_eq_some_iff : insertAll xs rows = some rows' ↔
    (xs.map Prod.fst).Nodup ∧ (∀ x ∈ xs, rows x.1 = none) ∧ rows' = upsertAll xs rows := by
  induction xs generalizing rows with
  | nil =>
    rw [insertAll, Option.some.injEq]
    exact ⟨fun h => ⟨.nil, by simp, h.symm⟩, fun h => h.2.2.symm⟩
  | cons a xs ih =>
    rw [insertAll, List.map_cons, List.nodup_cons, List.forall_mem_cons, upsertAll,
      List.foldl_cons, ← upsertAll]
    split_ifs with ha
    · exact iff_of_false (by simp) fun h => by simp [h.2.1.1] at ha
    · rw [ih]
      rw [Option.not_isSome_iff_eq_none] at ha
      constructor
      · rintro ⟨hnd, hout, rfl⟩
        have hnot : a.1 ∉ xs.map Prod.fst := fun h => by
          obtain ⟨x, hx, hxa⟩ := List.mem_map.1 h
          simpa [hxa] using hout x hx
        refine ⟨⟨hnot, hnd⟩, ⟨ha, fun x hx => ?_⟩, rfl⟩
        have hne : x.1 ≠ a.1 := fun h => hnot (h ▸ List.mem_map_of_mem hx)
        simpa [Function.update_of_ne hne] using hout x hx
      · rintro ⟨⟨hnot, hnd⟩, ⟨-, hout⟩, rfl⟩
        refine ⟨hnd, fun x hx => ?_, rfl⟩
        rw [Function.update_of_ne fun h : x.1 = a.1 => hnot (h ▸ List.mem_map_of_mem hx)]
        exact hout x hx

end PgRedis.Lib
