import Mathlib.Logic.Function.Basic
import Mathlib.Data.Nat.ModEq

/-!
# Cyclic arrays

An array of `cap` cells addressed by unbounded positions: position `p` lives in
the cell `p % cap`. Two positions of one *window*, less than `cap` apart, never
share a cell (`eq_of_mod_eq`), so that within a window the array reads like a
function of the positions.
-/

namespace PgRedis.Lib

/-- Positions less than `cap` apart in the same cell are equal. -/
theorem eq_of_mod_eq {cap a b : ℕ} (h : a % cap = b % cap) (ha : a < b + cap)
    (hb : b < a + cap) : a = b := by
  rcases Nat.le_total a b with hab | hab
  · have hd : cap ∣ b - a := (Nat.modEq_iff_dvd' hab).1 h
    have : b - a = 0 := Nat.eq_zero_of_dvd_of_lt hd (by omega)
    omega
  · have hd : cap ∣ a - b := (Nat.modEq_iff_dvd' hab).1 h.symm
    have : a - b = 0 := Nat.eq_zero_of_dvd_of_lt hd (by omega)
    omega

/-- A cell holds exactly one position of each window `[r, r + cap)`. -/
theorem exists_mem_window {cap : ℕ} (hcap : 0 < cap) (r i : ℕ) (hi : i < cap) :
    ∃ p, r ≤ p ∧ p < r + cap ∧ p % cap = i := by
  have hr := Nat.mod_add_div r cap
  have hlt := Nat.mod_lt r hcap
  rcases Nat.lt_or_ge i (r % cap) with h | h
  · refine ⟨i + cap * (r / cap + 1), ?_, ?_, ?_⟩
    · rw [Nat.mul_add]; omega
    · rw [Nat.mul_add]; omega
    · rw [Nat.add_mul_mod_self_left, Nat.mod_eq_of_lt hi]
  · refine ⟨i + cap * (r / cap), by omega, by omega, ?_⟩
    rw [Nat.add_mul_mod_self_left, Nat.mod_eq_of_lt hi]

/-- An array of `cap` cells addressed by unbounded positions. -/
structure Cyclic (cap : ℕ) (α : Type*) where
  /-- The cells; those from `cap` on are never addressed. -/
  cell : ℕ → α

namespace Cyclic

variable {cap : ℕ} {α : Type*} (c : Cyclic cap α)

/-- The cell of position `p`. -/
def get (p : ℕ) : α := c.cell (p % cap)

/-- Overwriting the cell of position `p`. -/
def modify (p : ℕ) (f : α → α) : Cyclic cap α :=
  ⟨Function.update c.cell (p % cap) (f (c.get p))⟩

/-- Overwriting the cells of the `n` positions from `base` on, in turn. -/
def modifyRange (f : α → α) : (base n : ℕ) → Cyclic cap α → Cyclic cap α
  | _, 0, c => c
  | base, n + 1, c => modifyRange f (base + 1) n (c.modify base f)

theorem get_modify_self (p : ℕ) (f : α → α) : (c.modify p f).get p = f (c.get p) := by
  simp [get, modify]

theorem get_modify_of_mod_ne {p q : ℕ} (f : α → α) (h : q % cap ≠ p % cap) :
    (c.modify p f).get q = c.get q := by
  simp [get, modify, h]

/-- Within a window, only the position itself is overwritten. -/
theorem get_modify_of_ne {p q : ℕ} (f : α → α) (h : q ≠ p) (hq : q < p + cap) (hp : p < q + cap) :
    (c.modify p f).get q = c.get q :=
  c.get_modify_of_mod_ne f fun hm => h (eq_of_mod_eq hm hq hp)

/-- Shifting a position by the capacity does not change its cell. -/
theorem get_add_cap (p : ℕ) : c.get (p + cap) = c.get p := by
  simp [get]

/-- A position whose cell is none of those of the range is left alone. -/
theorem get_modifyRange_of_mod_ne (f : α → α) {q : ℕ} :
    ∀ {base n : ℕ} {c : Cyclic cap α}, (∀ i < n, q % cap ≠ (base + i) % cap) →
      (modifyRange f base n c).get q = c.get q
  | _, 0, _, _ => rfl
  | base, n + 1, c, h => by
    have hrest : ∀ i < n, q % cap ≠ (base + 1 + i) % cap := fun i hi => by
      have := h (i + 1) (by omega)
      rwa [show base + 1 + i = base + (i + 1) by omega]
    rw [modifyRange, get_modifyRange_of_mod_ne f hrest]
    exact c.get_modify_of_mod_ne f (by simpa using h 0 (by omega))

/-- A position of the same window outside the range is left alone. -/
theorem get_modifyRange_of_not_mem (f : α → α) {base n q : ℕ} (c : Cyclic cap α)
    (hout : q < base ∨ base + n ≤ q) (hq : q < base + cap) (hb : base + n ≤ q + cap) :
    (modifyRange f base n c).get q = c.get q := by
  refine get_modifyRange_of_mod_ne f fun i hi hm => ?_
  have := eq_of_mod_eq hm (by omega) (by omega)
  omega

/-- A position of a range no longer than the capacity is overwritten once. -/
theorem get_modifyRange_of_mem (f : α → α) :
    ∀ {n base q : ℕ} {c : Cyclic cap α}, base ≤ q → q < base + n → n ≤ cap →
      (modifyRange f base n c).get q = f (c.get q)
  | 0, base, q, _, hb, hq, _ => absurd hq (by omega)
  | n + 1, base, q, c, hb, hq, hn => by
    rw [modifyRange]
    rcases Nat.eq_or_lt_of_le hb with rfl | hlt
    · rw [get_modifyRange_of_not_mem f _ (by omega) (by omega) (by omega), get_modify_self]
    · rw [get_modifyRange_of_mem f hlt (by omega) (by omega),
        get_modify_of_ne _ f (by omega) (by omega) (by omega)]

/-- The positions of the window from the start of the range on. -/
theorem get_modifyRange (f : α → α) {base n q : ℕ} {c : Cyclic cap α} (hb : base ≤ q)
    (hq : q < base + cap) (hn : n ≤ cap) :
    (modifyRange f base n c).get q = if q < base + n then f (c.get q) else c.get q := by
  split_ifs with hlt
  · exact get_modifyRange_of_mem f hb hlt hn
  · exact get_modifyRange_of_not_mem f c (by omega) hq (by omega)

end Cyclic

end PgRedis.Lib
