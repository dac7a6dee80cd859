import Mathlib.Data.List.Induction
import Mathlib.Data.Prod.Basic
import Mathlib.Logic.Function.Basic

/-!
# Rows kept as columns

A program that hands rows over column by column pushes the fields of a row onto
the arrays of their columns, one array for each. The arrays are blocks of memory:
a cell holds nothing until it is written, and there is no cell past the end.

* `Bounded.pushAll_ok`: a run of pushes leaves in every array what was pushed onto
  it, in order, whatever was pushed onto the others in between;
* `Bounded.pushAll_full`: it stops at the first array that would outgrow its bound;
* `unnest_map`: the columns of rows give the rows back.
-/

namespace PgRedis.Lib

/-! ## Blocks of memory -/

/-- A block of memory. A cell that was never written holds nothing. -/
abbrev Block (α : Type*) := List (Option α)

namespace Block

variable {α : Type*}

def alloc (size : ℕ) : Block α := List.replicate size none

/-- A block of another size, which keeps the cells that fit. -/
def realloc (b : Block α) (size : ℕ) : Block α := b.take size ++ alloc (size - b.length)

def write (b : Block α) (i : ℕ) (a : α) : Option (Block α) :=
  if i < b.length then some (b.set i (some a)) else none

def read (b : Block α) (i : ℕ) : Option α := b[i]?.join

/-- The first cells of the block hold `xs`. -/
def Starts (b : Block α) (xs : List α) : Prop := xs.map some <+: b

variable {b : Block α} {xs : List α}

@[simp] theorem length_alloc (size : ℕ) : (alloc size : Block α).length = size :=
  List.length_replicate

theorem starts_nil : b.Starts [] := List.nil_prefix

@[simp] theorem length_realloc (b : Block α) (size : ℕ) : (b.realloc size).length = size := by
  rw [realloc, List.length_append, List.length_take, length_alloc]
  omega

namespace Starts

theorem length_le (h : b.Starts xs) : xs.length ≤ b.length := by
  have := List.IsPrefix.length_le h
  rwa [List.length_map] at this

/-- A larger block starts as the old one did. -/
theorem realloc (h : b.Starts xs) {size : ℕ} (hsize : b.length ≤ size) :
    (b.realloc size).Starts xs := by
  rw [Starts, Block.realloc, List.take_of_length_le hsize]
  exact List.IsPrefix.trans h (List.prefix_append _ _)

theorem write (h : b.Starts xs) (hlt : xs.length < b.length) (a : α) :
    ∃ b', b.write xs.length a = some b' ∧ b'.length = b.length ∧ b'.Starts (xs ++ [a]) := by
  obtain ⟨rest, rfl⟩ := h
  refine ⟨_, if_pos hlt, List.length_set, ?_⟩
  cases rest with
  | nil => simp at hlt
  | cons c rest =>
    refine ⟨rest, ?_⟩
    rw [List.set_append_right _ _ (by simp)]
    simp

theorem read (h : b.Starts xs) {i : ℕ} {a : α} (ha : xs[i]? = some a) : b.read i = some a := by
  obtain ⟨rest, rfl⟩ := h
  obtain ⟨hi, rfl⟩ := List.getElem?_eq_some_iff.1 ha
  rw [Block.read, List.getElem?_append_left (by simpa using hi)]
  simp [hi]

end Starts

end Block

/-! ## Pushes onto a family of arrays -/

section

variable {C α V ε : Type*} [DecidableEq C]

/-- What the pushes `ps` add to the array `c`. -/
def column (c : C) (ps : List (C × α)) : List α := (ps.filter fun p => p.1 = c).map Prod.snd

@[simp] theorem column_nil (c : C) : column c ([] : List (C × α)) = [] := rfl

@[simp] theorem column_cons (c : C) (p : C × α) (ps : List (C × α)) :
    column c (p :: ps) = if p.1 = c then p.2 :: column c ps else column c ps := by
  rw [column, List.filter_cons]
  by_cases h : p.1 = c
  · rw [if_pos h, if_pos (decide_eq_true h)]
    rfl
  · rw [if_neg h, if_neg (by simp [h])]
    rfl

@[simp] theorem column_append (c : C) (ps qs : List (C × α)) :
    column c (ps ++ qs) = column c ps ++ column c qs := by
  rw [column, List.filter_append, List.map_append]
  rfl

theorem column_flatMap {β : Type*} (c : C) (l : List β) (f : β → List (C × α)) :
    column c (l.flatMap f) = l.flatMap fun b => column c (f b) := by
  induction l with
  | nil => rfl
  | cons b l ih => rw [List.flatMap_cons, List.flatMap_cons, column_append, ih]

/-- A loop that pushes nothing. -/
theorem flatMap_const_nil {β : Type*} (l : List β) : (l.flatMap fun _ => ([] : List α)) = [] :=
  List.flatMap_eq_nil_iff.2 fun _ _ => rfl

/-- A loop that pushes one entry in every turn. -/
theorem flatMap_single {β : Type*} (l : List β) (f : β → α) :
    (l.flatMap fun b => [f b]) = l.map f :=
  List.map_eq_flatMap.symm

/-- A loop that skips some of its turns. -/
theorem flatMap_skip {β : Type*} (l : List β) (f : β → α) (p : β → Prop) [DecidablePred p] :
    (l.flatMap fun b => if p b then [] else [f b]) = (l.filter fun b => ¬p b).map f := by
  induction l with
  | nil => rfl
  | cons b l ih =>
    rw [List.flatMap_cons, List.filter_cons, ih]
    by_cases hb : p b
    · rw [if_pos hb, if_neg (by simp [hb])]
      rfl
    · rw [if_neg hb, if_pos (by simp [hb])]
      rfl

/-- The pushes one after the other, until one fails. -/
def pushAll (push : V → α → Except ε V) : List (C × α) → (C → V) → Except ε (C → V)
  | [], vs => .ok vs
  | (c, a) :: ps, vs =>
    match push (vs c) a with
    | .ok v => pushAll push ps (Function.update vs c v)
    | .error e => .error e

/-- A push adds one entry to an array of less than `N` entries, and fails with `e` on an
    array of `N` entries. -/
structure Bounded (push : V → α → Except ε V) (Holds : V → List α → Prop) (N : ℕ) (e : ε) :
    Prop where
  push_ok : ∀ v xs a, Holds v xs → xs.length < N → ∃ v', push v a = .ok v' ∧ Holds v' (xs ++ [a])
  push_full : ∀ v xs a, Holds v xs → xs.length = N → push v a = .error e

variable {push : V → α → Except ε V} {Holds : V → List α → Prop} {N : ℕ} {e : ε}

/-- One push: the array it goes to grows by one entry, and the others are left alone. -/
theorem Bounded.holds_update (h : Bounded push Holds N e) {vs : C → V} {xs : C → List α}
    (hvs : ∀ c, Holds (vs c) (xs c)) {c : C} (hc : (xs c).length < N) (a : α) :
    ∃ v, push (vs c) a = .ok v ∧
      ∀ c', Holds (Function.update vs c v c') (xs c' ++ column c' [(c, a)]) := by
  obtain ⟨v, hv, hold⟩ := h.push_ok _ _ a (hvs c) hc
  refine ⟨v, hv, fun c' => ?_⟩
  by_cases hcc : c' = c
  · subst hcc
    simpa using hold
  · rw [Function.update_of_ne hcc, column_cons, if_neg (Ne.symm hcc), column_nil, List.append_nil]
    exact hvs c'

theorem Bounded.pushAll_ok (h : Bounded push Holds N e) {ps : List (C × α)} {vs : C → V}
    {xs : C → List α} (hvs : ∀ c, Holds (vs c) (xs c))
    (hN : ∀ c, (xs c ++ column c ps).length ≤ N) :
    ∃ vs', pushAll push ps vs = .ok vs' ∧ ∀ c, Holds (vs' c) (xs c ++ column c ps) := by
  induction ps generalizing vs xs with
  | nil => exact ⟨vs, rfl, fun c => by simpa using hvs c⟩
  | cons p ps ih =>
    obtain ⟨c, a⟩ := p
    have hcat : ∀ c', xs c' ++ column c' ((c, a) :: ps) =
        xs c' ++ column c' [(c, a)] ++ column c' ps := fun c' => by
      rw [List.append_assoc, ← column_append]
      rfl
    have hlt : (xs c).length < N := by
      have := hN c
      rw [column_cons, if_pos rfl, List.length_append, List.length_cons] at this
      omega
    obtain ⟨v, hv, hold⟩ := h.holds_update hvs hlt a
    obtain ⟨vs', hrun, hvs'⟩ := ih hold fun c' => hcat c' ▸ hN c'
    refine ⟨vs', ?_, fun c' => hcat c' ▸ hvs' c'⟩
    rw [pushAll, hv]
    exact hrun

theorem Bounded.pushAll_full (h : Bounded push Holds N e) {ps : List (C × α)} {vs : C → V}
    {xs : C → List α} (hvs : ∀ c, Holds (vs c) (xs c)) (hle : ∀ c, (xs c).length ≤ N)
    (hN : ∃ c, N < (xs c ++ column c ps).length) : pushAll push ps vs = .error e := by
  induction ps generalizing vs xs with
  | nil =>
    obtain ⟨c, hc⟩ := hN
    rw [column_nil, List.append_nil] at hc
    exact absurd (hle c) (Nat.not_le.2 hc)
  | cons p ps ih =>
    obtain ⟨c, a⟩ := p
    rcases Nat.lt_or_eq_of_le (hle c) with hlt | hfull
    · -- the push succeeds, and the array that overflows is still to come
      obtain ⟨v, hv, hold⟩ := h.holds_update hvs hlt a
      rw [pushAll, hv]
      refine ih hold (fun c' => ?_) ?_
      · rw [column_cons]
        split_ifs with hcc
        · obtain rfl : c = c' := hcc
          rw [column_nil, List.length_append]
          exact hlt
        · simpa using hle c'
      · obtain ⟨c', hc'⟩ := hN
        refine ⟨c', ?_⟩
        rwa [List.append_assoc, ← column_append]
    · rw [pushAll, h.push_full _ _ a (hvs c) hfull]

end

/-! ## Rows from columns -/

section

variable {α β ρ ε : Type*}

/-- The rows of a column beside others, as many as the longest column has; a column
    that is too short is filled up with nulls. -/
def unnest (as : List (Option α)) (bs : List β) (null : β) : List (Option α × β) :=
  (List.range (max as.length bs.length)).map fun i => (as[i]?.join, bs[i]?.getD null)

/-- Columns of one length give the rows they were taken from. -/
theorem unnest_map (rows : List ρ) (f : ρ → Option α) (g : ρ → β) (null : β) :
    unnest (rows.map f) (rows.map g) null = rows.map fun r => (f r, g r) := by
  rw [unnest, List.length_map, List.length_map, Nat.max_self]
  refine List.ext_getElem (by simp) fun i hi _ => ?_
  have hi : i < rows.length := by simpa using hi
  simp [hi]

theorem mapM_map_ok {f : α → Except ε β} {g : ρ → α} {h : ρ → β} {rows : List ρ}
    (hf : ∀ r ∈ rows, f (g r) = .ok (h r)) : (rows.map g).mapM f = .ok (rows.map h) := by
  induction rows with
  | nil => rfl
  | cons r rows ih =>
    rw [List.map_cons, List.mapM_cons, hf r List.mem_cons_self,
      ih fun r' hr' => hf r' (List.mem_cons_of_mem r hr')]
    rfl

/-- Reading the cells of an array by their indices. -/
theorem mapM_range_ok {f : ℕ → Except ε β} {xs : List β}
    (hf : ∀ i x, xs[i]? = some x → f i = .ok x) : (List.range xs.length).mapM f = .ok xs := by
  induction xs using List.reverseRecOn with
  | nil => rfl
  | append_singleton xs x ih =>
    rw [List.length_append, List.length_singleton, List.range_succ, List.mapM_append,
      ih fun i y hy => hf i y (by
        rw [List.getElem?_append_left (List.getElem?_eq_some_iff.1 hy).1]
        exact hy),
      List.mapM_cons, hf xs.length x (by simp)]
    rfl

end

end PgRedis.Lib
