import Mathlib.Algebra.Order.Ring.Nat
import PgRedis.Durable
import PgRedis.Lib.Columns

/-!
# Datum vectors

`run_flush` and `pg_redis_persistence_async_drain` hand their rows to the six
statements as arrays. Every field of a row is pushed onto the `DatumVec` of its
column: two blocks of memory, one of data and one of null flags, which double when
they are full. `vec_to_array` makes an array of them.

A write past a block, a read of a cell that was never written, and a datum read at
another type than it was pushed at, are faults here. `DatumVec.bounded_push` says
that a push never faults, and `DatumVec.Holds.toArray` that the array is what was
pushed.
-/

namespace PgRedis

open Lib

/-! ## The vectors -/

/-- A `Datum`, with what it stands for. The null datum of an entry that is `NULL` is
    `zero`. -/
inductive Datum
  | zero
  | text (s : Bytes)
  | bytea (b : Bytes)
  | int8 (i : ℤ)
  | timestamptz (t : ℤ)
  deriving DecidableEq, Repr

namespace Datum

def text? : Datum → Option Bytes
  | .text s => some s
  | _ => none

def bytea? : Datum → Option Bytes
  | .bytea b => some b
  | _ => none

def int8? : Datum → Option ℤ
  | .int8 i => some i
  | _ => none

def timestamptz? : Datum → Option ℤ
  | .timestamptz t => some t
  | _ => none

end Datum

/-- What can go wrong with a batch: `palloc` refuses a request above its limit, memory
    is read or written where it must not be, or a statement fails. -/
inductive Fault
  | invalidAlloc
  | badAccess
  | notNullViolation
  | sql (err : SqlError)
  deriving DecidableEq, Repr

/-- `MaxAllocSize`, the limit of `palloc` and `repalloc` in bytes. -/
def maxAllocSize : ℕ := 2 ^ 30 - 1

/-- `repalloc` of a block of cells of `width` bytes to `size` cells. -/
def repalloc {α : Type} (width : ℕ) (b : Block α) (size : ℕ) : Except Fault (Block α) :=
  if size * width ≤ maxAllocSize then .ok (b.realloc size) else .error .invalidAlloc

/-- Writing a cell of a block. -/
def writeCell {α : Type} (b : Block α) (i : ℕ) (a : α) : Except Fault (Block α) :=
  match b.write i a with
  | some b' => .ok b'
  | none => .error .badAccess

structure DatumVec where
  vals : Block Datum
  nulls : Block Bool
  n : ℕ
  cap : ℕ
  deriving DecidableEq, Repr

namespace DatumVec

/-- `vec_init`. -/
def init : DatumVec where
  vals := Block.alloc 16
  nulls := Block.alloc 16
  n := 0
  cap := 16

/-- `vec_grow`. -/
def grow (v : DatumVec) : Except Fault DatumVec := do
  let cap := v.cap * 2
  let vals ← repalloc 8 v.vals cap
  let nulls ← repalloc 1 v.nulls cap
  return { v with vals, nulls, cap }

/-- The first lines of `vec_push`, which grow a full vector. -/
def makeRoom (v : DatumVec) : Except Fault DatumVec := if v.n = v.cap then v.grow else .ok v

/-- `vec_push` of a datum and its null flag. -/
def push (v : DatumVec) (d : Datum × Bool) : Except Fault DatumVec := do
  let v ← v.makeRoom
  let vals ← writeCell v.vals v.n d.1
  let nulls ← writeCell v.nulls v.n d.2
  return { v with vals, nulls, n := v.n + 1 }

/-- An element of the array: the datum is not looked at when its flag says `NULL`. -/
def element {α : Type} (elem : Datum → Option α) (v : DatumVec) (i : ℕ) :
    Except Fault (Option α) :=
  match v.nulls.read i with
  | none => .error .badAccess
  | some true => .ok none
  | some false =>
    match (v.vals.read i).bind elem with
    | none => .error .badAccess
    | some a => .ok (some a)

/-- `vec_to_array`, with the element type given by how its data are read. -/
def toArray {α : Type} (elem : Datum → Option α) (v : DatumVec) : Except Fault (List (Option α)) :=
  (List.range v.n).mapM (v.element elem)

/-- `vec_to_text_array`. -/
def toTextArray (v : DatumVec) : Except Fault (List (Option Bytes)) := v.toArray Datum.text?

/-- `vec_to_bytea_array`. -/
def toByteaArray (v : DatumVec) : Except Fault (List (Option Bytes)) := v.toArray Datum.bytea?

/-- `vec_to_int8_array`. -/
def toInt8Array (v : DatumVec) : Except Fault (List (Option ℤ)) := v.toArray Datum.int8?

/-- `vec_to_timestamptz_array`. -/
def toTimestamptzArray (v : DatumVec) : Except Fault (List (Option ℤ)) :=
  v.toArray Datum.timestamptz?

/-- The entries a vector has room for, within the limit of `repalloc`. -/
def maxEntries : ℕ := 2 ^ 26

/-- The vector holds the entries `xs`. Its capacity has doubled as often as it had to,
    and no further. -/
structure Holds (v : DatumVec) (xs : List (Datum × Bool)) : Prop where
  vals : v.vals.Starts (xs.map Prod.fst)
  nulls : v.nulls.Starts (xs.map Prod.snd)
  length_vals : v.vals.length = v.cap
  length_nulls : v.nulls.length = v.cap
  n_eq : v.n = xs.length
  cap_eq : ∃ j, v.cap = 2 ^ (4 + j) ∧ (j = 0 ∨ v.cap < 2 * v.n)

theorem holds_init : init.Holds [] where
  vals := Block.starts_nil
  nulls := Block.starts_nil
  length_vals := Block.length_alloc 16
  length_nulls := Block.length_alloc 16
  n_eq := rfl
  cap_eq := ⟨0, rfl, .inl rfl⟩

namespace Holds

variable {v : DatumVec} {xs : List (Datum × Bool)}

theorem n_le_cap (h : v.Holds xs) : v.n ≤ v.cap := by
  have hle := h.vals.length_le
  rwa [List.length_map, h.length_vals, ← h.n_eq] at hle

/-- A full vector doubles, unless the new block would be above the limit. -/
theorem grow (h : v.Holds xs) (hfull : v.n = v.cap) (hlt : xs.length < maxEntries) :
    ∃ v', v.grow = .ok v' ∧ v'.vals.Starts (xs.map Prod.fst) ∧
      v'.nulls.Starts (xs.map Prod.snd) ∧ v'.vals.length = v'.cap ∧ v'.nulls.length = v'.cap ∧
        v'.n = v.n ∧ v'.cap = v.cap * 2 := by
  obtain ⟨j, hcap, -⟩ := h.cap_eq
  have hle : v.cap * 2 ≤ 2 ^ 26 := by
    have hpow : 2 ^ (4 + j) < 2 ^ 26 := by
      rw [← hcap, ← hfull, h.n_eq]
      exact hlt
    have hexp : 4 + j < 26 := (Nat.pow_lt_pow_iff_right (by decide)).1 hpow
    rw [hcap, ← Nat.pow_succ]
    exact Nat.pow_le_pow_right (by decide) hexp
  refine ⟨{ v with vals := v.vals.realloc (v.cap * 2), nulls := v.nulls.realloc (v.cap * 2),
                   cap := v.cap * 2 }, ?_, ?_, ?_, Block.length_realloc _ _,
    Block.length_realloc _ _, rfl, rfl⟩
  · rw [DatumVec.grow, repalloc, repalloc, if_pos (by rw [maxAllocSize]; omega),
      if_pos (by rw [maxAllocSize]; omega)]
    rfl
  · exact h.vals.realloc (by rw [h.length_vals]; omega)
  · exact h.nulls.realloc (by rw [h.length_nulls]; omega)

/-- The vector in which an entry is written has a free cell, full or not. -/
theorem makeRoom (h : v.Holds xs) (hlt : xs.length < maxEntries) :
    ∃ w, v.makeRoom = .ok w ∧ w.vals.Starts (xs.map Prod.fst) ∧
      w.nulls.Starts (xs.map Prod.snd) ∧ w.vals.length = w.cap ∧ w.nulls.length = w.cap ∧
        w.n = xs.length ∧ w.n < w.cap ∧
          ∃ j, w.cap = 2 ^ (4 + j) ∧ (j = 0 ∨ w.cap < 2 * (w.n + 1)) := by
  obtain ⟨j, hj, hmin⟩ := h.cap_eq
  by_cases hfull : v.n = v.cap
  · obtain ⟨w, hw, hvals, hnulls, hlv, hln, hn, hcap⟩ := h.grow hfull hlt
    have hpos : 0 < v.cap := hj ▸ Nat.two_pow_pos _
    exact ⟨w, (if_pos hfull).trans hw, hvals, hnulls, hlv, hln, hn.trans h.n_eq, by omega,
      j + 1, by rw [hcap, hj, ← Nat.add_assoc, Nat.pow_succ], .inr (by omega)⟩
  · exact ⟨v, if_neg hfull, h.vals, h.nulls, h.length_vals, h.length_nulls, h.n_eq,
      Nat.lt_of_le_of_ne h.n_le_cap hfull, j, hj, hmin.imp_right fun hlt => by omega⟩

end Holds

theorem writeCell_starts {α : Type} {b : Block α} {xs : List α} {n : ℕ} (h : b.Starts xs)
    (hn : n = xs.length) (hlt : n < b.length) (a : α) :
    ∃ b', writeCell b n a = .ok b' ∧ b'.length = b.length ∧ b'.Starts (xs ++ [a]) := by
  subst hn
  obtain ⟨b', hb', hlen, hstarts⟩ := h.write hlt a
  exact ⟨b', by rw [writeCell, hb'], hlen, hstarts⟩

/-- A push below the limit adds its entry; the vector at the limit refuses it. -/
theorem bounded_push : Bounded push Holds maxEntries .invalidAlloc where
  push_ok v xs d h hlt := by
    obtain ⟨w, hw, hvals, hnulls, hlv, hln, hn, hroom, hcap⟩ := h.makeRoom hlt
    obtain ⟨vals, hwv, hlv', hsv⟩ := writeCell_starts hvals (by rw [hn, List.length_map])
      (hlv ▸ hroom) d.1
    obtain ⟨nulls, hwn, hln', hsn⟩ := writeCell_starts hnulls (by rw [hn, List.length_map])
      (hln ▸ hroom) d.2
    refine ⟨{ w with vals := vals, nulls := nulls, n := w.n + 1 }, ?_, ?_⟩
    · rw [push, hw]
      simp only [bind, Except.bind, hwv, hwn]
      rfl
    · exact
        { vals := by rwa [List.map_append]
          nulls := by rwa [List.map_append]
          length_vals := hlv'.trans hlv
          length_nulls := hln'.trans hln
          n_eq := by rw [List.length_append, ← hn]; rfl
          cap_eq := hcap }
  push_full v xs d h hfull := by
    obtain ⟨j, hj, hmin⟩ := h.cap_eq
    have hn : v.n = 2 ^ 26 := h.n_eq.trans hfull
    have hle := h.n_le_cap
    -- The capacity is a power of two that holds all entries and that `repalloc` has granted.
    have hcap : v.cap = 2 ^ 26 := by
      have hlow : 26 ≤ 4 + j := (Nat.pow_le_pow_iff_right (by decide)).1 (hj ▸ hn ▸ hle)
      have hhigh : 4 + j < 27 := by
        refine (Nat.pow_lt_pow_iff_right (a := 2) (by decide)).1 ?_
        rw [← hj]
        omega
      rw [hj, show 4 + j = 26 by omega]
    have hgrow : v.grow = .error .invalidAlloc := by
      rw [grow, repalloc, hcap, if_neg (by rw [maxAllocSize]; omega)]
      rfl
    rw [push, makeRoom, if_pos (by rw [hn, hcap]), hgrow]
    rfl

/-! ## From vectors to arrays -/

/-- What an entry stands for in an array. -/
def decode {α : Type} (elem : Datum → Option α) (d : Datum × Bool) : Option (Option α) :=
  if d.2 then some none else (elem d.1).map some

theorem Holds.element {v : DatumVec} {xs : List (Datum × Bool)} (h : v.Holds xs) {α : Type}
    {elem : Datum → Option α} {i : ℕ} {d : Datum × Bool} {a : Option α} (hd : xs[i]? = some d)
    (ha : decode elem d = some a) : v.element elem i = .ok a := by
  have hnull : v.nulls.read i = some d.2 := h.nulls.read (by rw [List.getElem?_map, hd]; rfl)
  have hval : v.vals.read i = some d.1 := h.vals.read (by rw [List.getElem?_map, hd]; rfl)
  rw [DatumVec.element, hnull, hval]
  rw [decode] at ha
  cases hb : d.2 with
  | true =>
    rw [hb, if_pos rfl] at ha
    rw [← Option.some.inj ha]
  | false =>
    rw [hb, if_neg Bool.false_ne_true] at ha
    obtain ⟨x, hx, rfl⟩ := Option.map_eq_some_iff.1 ha
    simp only [Option.bind_some, hx]

theorem Holds.n_eq_length {v : DatumVec} {ρ : Type} {rows : List ρ} {f : ρ → Datum × Bool}
    (h : v.Holds (rows.map f)) : v.n = rows.length := by
  rw [h.n_eq, List.length_map]

/-- A vector without entries was filled from no rows. -/
theorem Holds.eq_nil {v : DatumVec} {ρ : Type} {rows : List ρ} {f : ρ → Datum × Bool}
    (h : v.Holds (rows.map f)) (hn : ¬v.n > 0) : rows = [] :=
  List.eq_nil_of_length_eq_zero (h.n_eq_length.symm.trans (Nat.eq_zero_of_not_pos hn))

/-- A vector filled from rows is the array of their fields. -/
theorem Holds.toArray {v : DatumVec} {ρ α : Type} {rows : List ρ} {f : ρ → Datum × Bool}
    (h : v.Holds (rows.map f)) {elem : Datum → Option α} {g : ρ → Option α}
    (hg : ∀ r, decode elem (f r) = some (g r)) : v.toArray elem = .ok (rows.map g) := by
  rw [DatumVec.toArray, h.n_eq_length, ← List.length_map (f := g)]
  refine mapM_range_ok fun i a ha => ?_
  rw [List.getElem?_map] at ha
  obtain ⟨r, hr, rfl⟩ := Option.map_eq_some_iff.1 ha
  exact h.element (by rw [List.getElem?_map, hr]; rfl) (hg r)

end DatumVec

end PgRedis
