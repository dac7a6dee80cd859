import Mathlib.Data.List.Perm.Basic
import PgRedis.Lib.Cyclic

/-!
# Open addressing with linear probing

A table of cells, each empty, a tombstone, or full. A key is looked up from its
home cell on, one cell after the other, until it is met or an empty cell is; a
deleted key leaves a tombstone, which lookups pass over and insertions reuse.

A table is *well formed* (`WF`) when its counters are right, its keys are
distinct, and no empty cell lies on the way from the home of a key to its cell.
The abstract content of a table is its list of entries up to order: the
operations are described by what they do to it.
-/

namespace PgRedis.Lib.Probe

/-- A cell of the table. -/
inductive Cell (K V : Type*)
  | empty
  | tomb
  | full (k : K) (v : V)
  deriving DecidableEq, Repr

/-- Where the probe of a key starts in a table of `n` cells, and the cell after
    cell `i`. -/
structure Geometry (K : Type*) where
  home : ℕ → K → ℕ
  next : ℕ → ℕ → ℕ

/-- In a table of `n` cells the probes go round. -/
structure Geometry.Lawful {K : Type*} (g : Geometry K) (n : ℕ) : Prop where
  home_lt : ∀ k, g.home n k < n
  next_eq : ∀ i < n, g.next n i = (i + 1) % n

/-- The cells with the number of full cells and of tombstones. -/
structure Table (K V : Type*) where
  cells : List (Cell K V)
  occupied : ℕ
  tombs : ℕ
  deriving DecidableEq, Repr

variable {K V : Type*}

/-- The entry of a full cell. -/
def Cell.item? : Cell K V → Option (K × V)
  | .full k v => some (k, v)
  | _ => none

def Cell.isTomb : Cell K V → Bool
  | .tomb => true
  | _ => false

def Cell.isEmpty : Cell K V → Bool
  | .empty => true
  | _ => false

section

variable (k : K) (v : V)

@[simp] theorem item?_empty : (.empty : Cell K V).item? = none := rfl
@[simp] theorem item?_tomb : (.tomb : Cell K V).item? = none := rfl
@[simp] theorem item?_full : (Cell.full k v).item? = some (k, v) := rfl
@[simp] theorem isTomb_empty : (.empty : Cell K V).isTomb = false := rfl
@[simp] theorem isTomb_tomb : (.tomb : Cell K V).isTomb = true := rfl
@[simp] theorem isTomb_full : (Cell.full k v).isTomb = false := rfl
@[simp] theorem isEmpty_empty : (.empty : Cell K V).isEmpty = true := rfl
@[simp] theorem isEmpty_tomb : (.tomb : Cell K V).isEmpty = false := rfl
@[simp] theorem isEmpty_full : (Cell.full k v).isEmpty = false := rfl

end

namespace Table

def size (t : Table K V) : ℕ := t.cells.length

/-- A table of `n` empty cells. -/
def blank (n : ℕ) : Table K V := ⟨List.replicate n .empty, 0, 0⟩

/-- The entries of the full cells, in the order of the cells. -/
def entries (t : Table K V) : List (K × V) := t.cells.filterMap Cell.item?

/-- The keys of the full cells. -/
def keys (t : Table K V) : List K := t.entries.map Prod.fst

/-- Writing an entry into cell `i`, empty or a tombstone. -/
def fill (t : Table K V) (i : ℕ) (k : K) (v : V) : Table K V where
  cells := t.cells.set i (.full k v)
  occupied := t.occupied + 1
  tombs := if t.cells[i]?.any Cell.isTomb then t.tombs - 1 else t.tombs

/-- Overwriting the value of the full cell `i`. -/
def replace (t : Table K V) (i : ℕ) (k : K) (v : V) : Table K V :=
  { t with cells := t.cells.set i (.full k v) }

/-- Turning the full cell `i` into a tombstone. -/
def bury (t : Table K V) (i : ℕ) : Table K V where
  cells := t.cells.set i .tomb
  occupied := t.occupied - 1
  tombs := t.tombs + 1

end Table

section

variable [DecidableEq K] (g : Geometry K)

/-- The probe loop, from cell `idx` on, with the first tombstone met so far: the
    cell found and whether it holds the key. `none` when the table is exhausted
    without an empty cell or a tombstone. -/
def findFrom (k : K) (cells : List (Cell K V)) : (fuel idx : ℕ) → Option ℕ → Option (ℕ × Bool)
  | 0, _, firstTomb => firstTomb.map fun i => (i, false)
  | fuel + 1, idx, firstTomb =>
    match cells[idx]? with
    | some (.full k' _) =>
      if k' = k then some (idx, true)
      else findFrom k cells fuel (g.next cells.length idx) firstTomb
    | some .tomb =>
      findFrom k cells fuel (g.next cells.length idx) (firstTomb.or (some idx))
    | _ => some (firstTomb.getD idx, false)

/-- Looking up a key, or a cell to insert it. -/
def Table.find (t : Table K V) (k : K) : Option (ℕ × Bool) :=
  findFrom g k t.cells t.size (g.home t.size k) none

/-- Inserting an entry into a table that does not have its key. -/
def Table.insertOwned (t : Table K V) (e : K × V) : Option (Table K V) :=
  (t.find g e.1).map fun r => t.fill r.1 e.1 e.2

/-- Inserting entries one after the other. -/
def Table.insertAll : List (K × V) → Table K V → Option (Table K V)
  | [], t => some t
  | e :: es, t => (t.insertOwned g e).bind (insertAll es)

/-- Moving the entries to a fresh table of `n` cells. -/
def Table.rehash (t : Table K V) (n : ℕ) : Option (Table K V) :=
  (blank n : Table K V).insertAll g t.entries

end

/-! ## Well-formed tables -/

/-- The cell at distance `d` on the way of `k` through a table of `n` cells. -/
def Geometry.probe (g : Geometry K) (n : ℕ) (k : K) (d : ℕ) : ℕ := (g.home n k + d) % n

/-- Cell `i` is on the way of `k`, with no empty cell before it. -/
def OnWay (g : Geometry K) (cells : List (Cell K V)) (k : K) (i : ℕ) : Prop :=
  ∃ d < cells.length, i = g.probe cells.length k d ∧
    ∀ j < d, cells[g.probe cells.length k j]? ≠ some .empty

/-- A well-formed table. -/
structure WF (g : Geometry K) (t : Table K V) : Prop where
  lawful : g.Lawful t.size
  occupied_eq : t.occupied = t.entries.length
  tombs_eq : t.tombs = t.cells.countP Cell.isTomb
  nodup : t.keys.Nodup
  onWay : ∀ i k v, t.cells[i]? = some (.full k v) → OnWay g t.cells k i

/-- A cell where `k` may be inserted. -/
structure Vacant (g : Geometry K) (t : Table K V) (k : K) (i : ℕ) : Prop where
  free : t.cells[i]? = some .empty ∨ t.cells[i]? = some .tomb
  onWay : OnWay g t.cells k i

variable {g : Geometry K} {t : Table K V} {k : K} {v : V} {i : ℕ}

theorem mem_entries : (k, v) ∈ t.entries ↔ ∃ i : ℕ, t.cells[i]? = some (.full k v) := by
  rw [Table.entries, List.mem_filterMap]
  constructor
  · rintro ⟨c, hc, he⟩
    cases c <;> simp only [item?_empty, item?_tomb, item?_full, reduceCtorEq, Option.some.injEq,
      Prod.mk.injEq] at he
    obtain ⟨rfl, rfl⟩ := he
    exact List.mem_iff_getElem?.1 hc
  · rintro ⟨i, hi⟩
    exact ⟨_, List.mem_of_getElem? hi, rfl⟩

/-- What overwriting a cell does to the entries. -/
theorem entries_set (cells : List (Cell K V)) {c : Cell K V} (hi : cells[i]? = some c)
    (c' : Cell K V) :
    (c.item?.toList ++ (cells.set i c').filterMap Cell.item?).Perm
      (c'.item?.toList ++ cells.filterMap Cell.item?) := by
  induction cells generalizing i with
  | nil => exact absurd hi (by simp)
  | cons a cells ih =>
    have hcons : ∀ (x : Cell K V) (l : List (Cell K V)),
        (x :: l).filterMap Cell.item? = x.item?.toList ++ l.filterMap Cell.item? := by
      intro x l
      rw [List.filterMap_cons]
      cases x <;> rfl
    cases i with
    | zero =>
      obtain rfl : a = c := by simpa using hi
      rw [List.set_cons_zero, hcons, hcons]
      exact List.perm_append_comm_assoc _ _ _
    | succ i =>
      rw [List.set_cons_succ, hcons, hcons]
      refine (List.perm_append_comm_assoc _ _ _).trans ?_
      refine ((ih (by simpa using hi)).append_left _).trans ?_
      exact List.perm_append_comm_assoc _ _ _

/-! ## Looking up -/

theorem Geometry.Lawful.next_probe {n : ℕ} (hg : g.Lawful n) (k : K) {d : ℕ} (hd : d < n) :
    g.next n (g.probe n k d) = g.probe n k (d + 1) := by
  have hlt : g.probe n k d < n := Nat.mod_lt _ (by omega)
  rw [hg.next_eq _ hlt, probe, probe, Nat.mod_add_mod, Nat.add_assoc]

/-- What a probe ends with: the cell of the key, a cell to insert it (and the key
    is nowhere on its way), or nothing, when no cell is empty. -/
def Outcome (g : Geometry K) (cells : List (Cell K V)) (k : K) (r : Option (ℕ × Bool)) : Prop :=
  (∃ i v, r = some (i, true) ∧ cells[i]? = some (.full k v)) ∨
    (∃ i, r = some (i, false) ∧ (cells[i]? = some .empty ∨ cells[i]? = some .tomb) ∧
      OnWay g cells k i ∧ ∀ i' v, cells[i']? = some (.full k v) → ¬OnWay g cells k i') ∨
    (r = none ∧ ∀ j < cells.length, cells[g.probe cells.length k j]? ≠ some .empty)

theorem findFrom_outcome [DecidableEq K] {cells : List (Cell K V)} (hg : g.Lawful cells.length)
    (k : K) :
    ∀ (fuel d : ℕ) (firstTomb : Option ℕ), d + fuel = cells.length →
      (∀ j < d, cells[g.probe cells.length k j]? ≠ some .empty) →
      (∀ j < d, ∀ v, cells[g.probe cells.length k j]? ≠ some (.full k v)) →
      (∀ i, firstTomb = some i → cells[i]? = some .tomb ∧ OnWay g cells k i) →
      Outcome g cells k (findFrom g k cells fuel (g.probe cells.length k d) firstTomb)
  | 0, d, firstTomb, hd, hne, hno, htomb => by
    rw [findFrom]
    cases firstTomb with
    | none => exact .inr (.inr ⟨rfl, fun j hj => hne j (by omega)⟩)
    | some i =>
      obtain ⟨ht, hway⟩ := htomb i rfl
      refine .inr (.inl ⟨i, rfl, .inr ht, hway, ?_⟩)
      rintro i' v hi' ⟨e, he, rfl, -⟩
      exact hno e (by omega) v hi'
  | fuel + 1, d, firstTomb, hd, hne, hno, htomb => by
    have hlt : g.probe cells.length k d < cells.length := Nat.mod_lt _ (by omega)
    have hway : OnWay g cells k (g.probe cells.length k d) := ⟨d, by omega, rfl, hne⟩
    have hnext := hg.next_probe k (d := d) (by omega)
    -- The hypotheses of the induction step, once cell `d` is known to be passed over.
    have hne' : cells[g.probe cells.length k d]? ≠ some .empty →
        ∀ j < d + 1, cells[g.probe cells.length k j]? ≠ some .empty := fun h j hj => by
      rcases Nat.lt_succ_iff_lt_or_eq.1 hj with hj | rfl
      · exact hne j hj
      · exact h
    have hno' : (∀ v, cells[g.probe cells.length k d]? ≠ some (.full k v)) →
        ∀ j < d + 1, ∀ v, cells[g.probe cells.length k j]? ≠ some (.full k v) := fun h j hj => by
      rcases Nat.lt_succ_iff_lt_or_eq.1 hj with hj | rfl
      · exact hno j hj
      · exact h
    obtain ⟨c, hc⟩ : ∃ c, cells[g.probe cells.length k d]? = some c :=
      ⟨_, List.getElem?_eq_getElem hlt⟩
    rw [findFrom, hc]
    cases c with
    | full k' v' =>
      simp only
      split_ifs with hk
      · exact .inl ⟨_, v', rfl, hk ▸ hc⟩
      · rw [hnext]
        refine findFrom_outcome hg k fuel (d + 1) firstTomb (by omega) (hne' (by simp [hc]))
          (hno' fun v hv => ?_) htomb
        rw [hc, Option.some.injEq, Cell.full.injEq] at hv
        exact hk hv.1
    | tomb =>
      simp only [hnext]
      refine findFrom_outcome hg k fuel (d + 1) _ (by omega) (hne' (by simp [hc]))
        (hno' (by simp [hc])) fun i hi => ?_
      cases firstTomb with
      | some i' => exact htomb i (by simpa using hi)
      | none =>
        obtain rfl : g.probe cells.length k d = i := by simpa using hi
        exact ⟨hc, hway⟩
    | empty =>
      simp only
      -- The key would have been met before the empty cell.
      have hmissing : ∀ i' v, cells[i']? = some (.full k v) → ¬OnWay g cells k i' := by
        rintro i' v hi' ⟨e, he, rfl, hbefore⟩
        rcases lt_trichotomy e d with hlt' | rfl | hgt
        · exact hno e hlt' v hi'
        · rw [hc] at hi'
          exact absurd hi' (by simp)
        · exact hbefore d hgt hc
      cases firstTomb with
      | none => exact .inr (.inl ⟨_, rfl, .inl hc, hway, hmissing⟩)
      | some i =>
        obtain ⟨ht, htway⟩ := htomb i rfl
        exact .inr (.inl ⟨i, rfl, .inr ht, htway, hmissing⟩)

/-- A cell is full, a tombstone, or empty. -/
theorem length_cells (cells : List (Cell K V)) :
    (cells.filterMap Cell.item?).length + cells.countP Cell.isTomb +
      cells.countP Cell.isEmpty = cells.length := by
  induction cells with
  | nil => rfl
  | cons c cells ih =>
    cases c <;> simp [List.filterMap_cons, List.countP_cons] <;> omega

/-- A table with room has an empty cell on the way of every key. -/
theorem exists_empty (h : WF g t) (hroom : t.occupied + t.tombs < t.size) (k : K) :
    ∃ j < t.size, t.cells[g.probe t.size k j]? = some .empty := by
  have hlen := length_cells t.cells
  have hocc := h.occupied_eq
  have htomb := h.tombs_eq
  rw [Table.size] at hroom
  rw [Table.entries] at hocc
  have hpos : 0 < t.cells.countP Cell.isEmpty := by omega
  obtain ⟨c, hc, hempty⟩ := List.countP_pos_iff.1 hpos
  obtain ⟨i, hi⟩ := List.mem_iff_getElem?.1 hc
  have hlt : i < t.size := (List.getElem?_eq_some_iff.1 hi).1
  obtain ⟨p, hp, hp', rfl⟩ := exists_mem_window (by omega) (g.home t.size k) i hlt
  refine ⟨p - g.home t.size k, by omega, ?_⟩
  rw [Geometry.probe, Nat.add_sub_cancel' hp, hi]
  cases c <;> simp at hempty
  rfl

/-- Looking up a key in a well-formed table with room: the cell of the key, or a
    cell to insert it. -/
theorem find_cases [DecidableEq K] (h : WF g t) (hroom : t.occupied + t.tombs < t.size) (k : K) :
    (∃ i v, t.find g k = some (i, true) ∧ t.cells[i]? = some (.full k v)) ∨
      ∃ i, t.find g k = some (i, false) ∧ k ∉ t.keys ∧ Vacant g t k i := by
  have hstart : g.home t.size k = g.probe t.cells.length k 0 := by
    exact (Nat.mod_eq_of_lt (h.lawful.home_lt k)).symm
  have hout : Outcome g t.cells k (t.find g k) := by
    rw [Table.find, hstart]
    exact findFrom_outcome h.lawful k _ 0 none (Nat.zero_add _) (by simp) (by simp) (by simp)
  rcases hout with ⟨i, v, hr, hi⟩ | ⟨i, hr, hfree, hway, hmissing⟩ | ⟨-, hfull⟩
  · exact .inl ⟨i, v, hr, hi⟩
  · refine .inr ⟨i, hr, fun hk => ?_, hfree, hway⟩
    obtain ⟨⟨k', v⟩, he, rfl⟩ := List.mem_map.1 hk
    obtain ⟨i', hi'⟩ := mem_entries.1 he
    exact hmissing i' v hi' (h.onWay i' _ v hi')
  · obtain ⟨j, hj, hempty⟩ := exists_empty h hroom k
    exact absurd hempty (hfull j hj)

/-! ## Changing one cell -/

@[simp] theorem size_fill : (t.fill i k v).size = t.size := List.length_set
@[simp] theorem size_replace : (t.replace i k v).size = t.size := List.length_set
@[simp] theorem size_bury : (t.bury i).size = t.size := List.length_set

/-- What overwriting a cell does to the number of tombstones. -/
theorem countP_set (cells : List (Cell K V)) {c : Cell K V} (hi : cells[i]? = some c)
    (c' : Cell K V) :
    c.isTomb.toNat + (cells.set i c').countP Cell.isTomb =
      c'.isTomb.toNat + cells.countP Cell.isTomb := by
  induction cells generalizing i with
  | nil => exact absurd hi (by simp)
  | cons a cells ih =>
    have hcons : ∀ (x : Cell K V) (l : List (Cell K V)),
        (x :: l).countP Cell.isTomb = l.countP Cell.isTomb + x.isTomb.toNat := by
      intro x l
      rw [List.countP_cons]
      cases x <;> rfl
    cases i with
    | zero =>
      obtain rfl : a = c := by simpa using hi
      rw [List.set_cons_zero, hcons, hcons]
      omega
    | succ i =>
      have := ih (i := i) (by simpa using hi)
      rw [List.set_cons_succ, hcons, hcons]
      omega

/-- A cell stays on the way when another becomes a tombstone or full. -/
theorem OnWay.set {cells : List (Cell K V)} (h : OnWay g cells k i) (i' : ℕ) {c : Cell K V}
    (hc : c ≠ .empty) : OnWay g (cells.set i' c) k i := by
  obtain ⟨d, hd, rfl, hbefore⟩ := h
  rw [OnWay, List.length_set]
  refine ⟨d, hd, rfl, fun j hj => ?_⟩
  rw [List.getElem?_set]
  split_ifs with heq hlt
  · simpa using hc
  · simp
  · exact hbefore j hj

/-- Writing cell `i`, not to be empty, in a well-formed table whose entries and
    counters come out right. -/
theorem WF.set (h : WF g t) {c : Cell K V} (hc : c ≠ .empty) {t' : Table K V}
    (hcells : t'.cells = t.cells.set i c) (hocc : t'.occupied = t'.entries.length)
    (htombs : t'.tombs = t'.cells.countP Cell.isTomb) (hnodup : t'.keys.Nodup)
    (hway : ∀ k v, c = .full k v → OnWay g t.cells k i) : WF g t' := by
  have hsize : t'.size = t.size := by rw [Table.size, hcells, List.length_set, Table.size]
  refine ⟨hsize ▸ h.lawful, hocc, htombs, hnodup, fun i' k' v' hi' => ?_⟩
  rw [hcells] at hi' ⊢
  rw [List.getElem?_set] at hi'
  split_ifs at hi' with heq hlt
  · obtain rfl := Option.some.inj hi'
    exact heq ▸ (hway k' v' rfl).set i hc
  · exact (h.onWay i' k' v' hi').set i hc

variable (v)

theorem entries_fill (hv : Vacant g t k i) : (t.fill i k v).entries.Perm ((k, v) :: t.entries) := by
  rcases hv.free with hi | hi
  · exact entries_set t.cells hi (.full k v)
  · exact entries_set t.cells hi (.full k v)

theorem WF.fill (h : WF g t) (hv : Vacant g t k i) (hk : k ∉ t.keys) : WF g (t.fill i k v) := by
  have hperm := entries_fill v hv
  refine h.set (by simp) rfl ?_ ?_ ?_ fun k' v' hc => ?_
  · rw [hperm.length_eq, List.length_cons, ← h.occupied_eq]
    rfl
  · have htombs := h.tombs_eq
    rcases hv.free with hi | hi
    · have := countP_set t.cells hi (.full k v)
      simp only [Table.fill, hi, Option.any_some, isTomb_empty, isTomb_full, Bool.toNat_false,
        Bool.false_eq_true, if_false] at this ⊢
      omega
    · have := countP_set t.cells hi (.full k v)
      simp only [Table.fill, hi, Option.any_some, isTomb_tomb, isTomb_full, Bool.toNat_false,
        Bool.toNat_true, if_true] at this ⊢
      omega
  · rw [Table.keys, (hperm.map Prod.fst).nodup_iff]
    exact List.nodup_cons.2 ⟨hk, h.nodup⟩
  · obtain ⟨rfl, -⟩ := Cell.full.inj hc
    exact hv.onWay

variable {v' : V} (hi : t.cells[i]? = some (.full k v'))

include hi

theorem entries_replace :
    ((k, v') :: (t.replace i k v).entries).Perm ((k, v) :: t.entries) :=
  entries_set t.cells hi (.full k v)

theorem entries_bury : ((k, v') :: (t.bury i).entries).Perm t.entries :=
  entries_set t.cells hi .tomb

theorem WF.replace (h : WF g t) : WF g (t.replace i k v) := by
  have hperm := entries_replace v hi
  refine h.set (by simp) rfl ?_ ?_ ?_ fun k' w hc => ?_
  · have := hperm.length_eq
    simp only [List.length_cons, Nat.add_right_cancel_iff] at this
    rw [this, ← h.occupied_eq]
    rfl
  · have := countP_set t.cells hi (.full k v)
    simp only [isTomb_full, Bool.toNat_false, Nat.zero_add] at this
    rw [Table.replace, this]
    exact h.tombs_eq
  · have hkeys := hperm.map Prod.fst
    exact (List.Perm.cons_inv hkeys).nodup_iff.2 h.nodup
  · obtain ⟨rfl, -⟩ := Cell.full.inj hc
    exact h.onWay i k v' hi

theorem WF.bury (h : WF g t) : WF g (t.bury i) := by
  have hperm := entries_bury hi
  refine h.set (by simp) rfl ?_ ?_ ?_ fun _ _ hc => absurd hc (by simp)
  · have := hperm.length_eq
    have hocc := h.occupied_eq
    rw [List.length_cons] at this
    change t.occupied - 1 = _
    omega
  · have := countP_set t.cells hi .tomb
    have htombs := h.tombs_eq
    simp only [isTomb_full, isTomb_tomb, Bool.toNat_false, Bool.toNat_true, Nat.zero_add] at this
    simp only [Table.bury]
    omega
  · have hkeys := (hperm.map Prod.fst).nodup_iff.2 h.nodup
    exact (List.nodup_cons.1 hkeys).2

omit hi

omit v in
/-- A key has one cell. -/
theorem WF.cell_unique (h : WF g t) {v : V} {i' : ℕ} {w : V} (hi : t.cells[i]? = some (.full k v))
    (hi' : t.cells[i']? = some (.full k w)) : i = i' := by
  by_contra hne
  have hnd := ((entries_bury hi).map Prod.fst).nodup_iff.2 h.nodup
  have hmem : (k, w) ∈ (t.bury i).entries := by
    refine mem_entries.2 ⟨i', ?_⟩
    rw [Table.bury, List.getElem?_set_ne hne]
    exact hi'
  exact (List.nodup_cons.1 hnd).1 (List.mem_map.2 ⟨_, hmem, rfl⟩)

/-! ## Rehashing -/

theorem entries_blank (n : ℕ) : (Table.blank n : Table K V).entries = [] := by
  rw [Table.entries, List.filterMap_eq_nil_iff]
  intro c hc
  rw [List.eq_of_mem_replicate hc, item?_empty]

theorem WF.blank {n : ℕ} (hg : g.Lawful n) : WF g (Table.blank n : Table K V) where
  lawful := by
    rw [Table.size, Table.blank, List.length_replicate]
    exact hg
  occupied_eq := by
    rw [entries_blank]
    rfl
  tombs_eq := by
    rw [Table.blank, List.countP_replicate]
    rfl
  nodup := by
    rw [Table.keys, entries_blank]
    exact List.nodup_nil
  onWay i k v hi := by
    have := List.eq_of_mem_replicate (List.mem_of_getElem? hi)
    exact absurd this (by simp)

/-- Inserting entries with new keys into a table without tombstones, as long as
    an empty cell is left. -/
theorem insertAll_spec [DecidableEq K] : ∀ (es : List (K × V)) {t : Table K V}, WF g t →
    t.tombs = 0 → es.length + t.occupied < t.size → (es.map Prod.fst).Nodup →
    (∀ e ∈ es, e.1 ∉ t.keys) →
    ∃ t', t.insertAll g es = some t' ∧ WF g t' ∧ t'.tombs = 0 ∧ t'.size = t.size ∧
      t'.entries.Perm (es ++ t.entries)
  | [], t, h, htomb, _, _, _ => ⟨t, rfl, h, htomb, rfl, List.Perm.refl _⟩
  | e :: es, t, h, htomb, hlen, hnd, hnew => by
    rw [List.length_cons] at hlen
    rw [List.map_cons, List.nodup_cons] at hnd
    have hk := hnew e List.mem_cons_self
    -- The key is not there, so the probe ends at an empty cell.
    obtain ⟨i, hfind, hv⟩ : ∃ i, t.find g e.1 = some (i, false) ∧ Vacant g t e.1 i := by
      rcases find_cases h (by omega) e.1 with ⟨i, v, -, hi⟩ | ⟨i, hfind, -, hv⟩
      · exact absurd (List.mem_map_of_mem (mem_entries.2 ⟨i, hi⟩)) hk
      · exact ⟨i, hfind, hv⟩
    have hperm := entries_fill e.2 hv
    have hwf := h.fill e.2 hv hk
    have htomb' : (t.fill i e.1 e.2).tombs = 0 := by
      simp only [Table.fill, htomb, Nat.zero_sub, ite_self]
    obtain ⟨t', hins, hwf', htomb'', hsize, hperm'⟩ := insertAll_spec es hwf htomb'
      (by rw [size_fill]; change es.length + (t.occupied + 1) < _; omega) hnd.2 fun e' he' hk' => by
        rw [Table.keys, (hperm.map Prod.fst).mem_iff, List.map_cons, List.mem_cons] at hk'
        rcases hk' with heq | hk'
        · exact hnd.1 (heq ▸ List.mem_map_of_mem he')
        · exact hnew e' (List.mem_cons_of_mem _ he') hk'
    refine ⟨t', ?_, hwf', htomb'', hsize.trans size_fill, hperm'.trans ?_⟩
    · rw [Table.insertAll, Table.insertOwned, hfind]
      exact hins
    · refine (hperm.append_left es).trans ?_
      exact List.perm_middle

/-- Every entry of a rehash is inserted where its key is not. -/
theorem rehash_vacant [DecidableEq K] (h : WF g t) {n : ℕ} (hg : g.Lawful n)
    (hn : t.occupied < n) {e : K × V} {pre post : List (K × V)}
    (hsplit : t.entries = pre ++ e :: post) :
    ∃ t' i, (Table.blank n : Table K V).insertAll g pre = some t' ∧
      t'.find g e.1 = some (i, false) := by
  have hsize : (Table.blank n : Table K V).size = n := List.length_replicate
  have hocc := h.occupied_eq
  have hnd := h.nodup
  rw [Table.keys, hsplit, List.map_append, List.map_cons] at hnd
  rw [hsplit, List.length_append, List.length_cons] at hocc
  obtain ⟨t', hins, hwf, htomb, hsize', hperm⟩ := insertAll_spec pre (WF.blank hg) rfl
    (by rw [hsize]; change pre.length + 0 < n; omega) (List.nodup_append.1 hnd).1 fun e _ he => by
      rw [Table.keys, entries_blank] at he
      exact absurd he List.not_mem_nil
  rw [entries_blank, List.append_nil] at hperm
  have hroom : t'.occupied + t'.tombs < t'.size := by
    rw [hwf.occupied_eq, hperm.length_eq, htomb, hsize', hsize]
    omega
  rcases find_cases hwf hroom e.1 with ⟨i, v, -, hi⟩ | ⟨i, hfind, -⟩
  · have hmem : e.1 ∈ pre.map Prod.fst :=
      List.mem_map.2 ⟨_, hperm.mem_iff.1 (mem_entries.2 ⟨i, hi⟩), rfl⟩
    exact absurd rfl ((List.nodup_append.1 hnd).2.2 e.1 hmem e.1 List.mem_cons_self)
  · exact ⟨t', i, hins, hfind⟩

/-- A rehash keeps the entries and drops the tombstones. -/
theorem rehash_spec [DecidableEq K] (h : WF g t) {n : ℕ} (hg : g.Lawful n)
    (hn : t.occupied < n) :
    ∃ t', t.rehash g n = some t' ∧ WF g t' ∧ t'.tombs = 0 ∧ t'.size = n ∧
      t'.entries.Perm t.entries := by
  have hsize : (Table.blank n : Table K V).size = n := List.length_replicate
  obtain ⟨t', hins, hwf, htomb, hsize', hperm⟩ := insertAll_spec t.entries (WF.blank hg) rfl
    (by rw [hsize, ← h.occupied_eq]; exact hn) h.nodup fun e _ he => by
      rw [Table.keys, entries_blank] at he
      exact absurd he List.not_mem_nil
  rw [entries_blank, List.append_nil] at hperm
  exact ⟨t', hins, hwf, htomb, hsize'.trans hsize, hperm⟩

end PgRedis.Lib.Probe
