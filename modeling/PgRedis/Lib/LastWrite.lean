import Mathlib.Data.List.Basic

/-!
# Cells written in order and by group

A *cell* is one place of a store which holds a value or nothing. An event may
leave the cell alone, write it, or erase it (`ε → Option (Option V)`). Applying
events one at a time leaves what the last event touching the cell says
(`replayed`). Applying all the erasures first and then all the writes leaves the
last value written, if any. The two agree exactly when a cell that is written at
all is written last (`grouped_eq_replayed_iff`).
-/

namespace PgRedis.Lib

variable {ε V : Type*}

/-- The last entry of `l` that `f` gives a value. -/
def last (f : ε → Option V) (l : List ε) : Option V := (l.filterMap f).getLast?

section

variable (f : ε → Option V)

@[simp] theorem last_nil : last f [] = none := rfl

theorem last_cons (e : ε) (l : List ε) : last f (e :: l) = (last f l).or (f e) := by
  rw [last, last, List.filterMap_cons]
  cases h : f e with
  | none => simp
  | some v => rw [List.getLast?_cons]; cases (l.filterMap f).getLast? <;> rfl

variable {f}

theorem last_eq_none_iff {l : List ε} : last f l = none ↔ ∀ e ∈ l, f e = none := by
  rw [last, List.getLast?_eq_none_iff, List.filterMap_eq_nil_iff]

theorem exists_mem_of_last {l : List ε} {v : V} (h : last f l = some v) : ∃ e ∈ l, f e = some v :=
  List.mem_filterMap.1 (List.mem_of_getLast? h)

theorem isSome_last {l : List ε} {e : ε} {v : V} (he : e ∈ l) (hv : f e = some v) :
    (last f l).isSome := by
  rw [Option.isSome_iff_ne_none, Ne, last_eq_none_iff]
  intro h
  rw [h e he] at hv
  exact absurd hv (by simp)

theorem last_filterMap {α : Type*} {g : α → Option ε} (l : List α) :
    last f (l.filterMap g) = last (fun a => (g a).bind f) l := by
  rw [last, last, List.filterMap_filterMap]

end

variable (w : ε → Option (Option V))

/-- The cell after the events in order. -/
def replayed (l : List ε) (v : Option V) : Option V := (last w l).getD v

/-- The value an event writes, if it writes one. -/
def written (e : ε) : Option V := (w e).join

@[simp] theorem replayed_nil (v : Option V) : replayed w [] v = v := rfl

theorem replayed_cons (e : ε) (l : List ε) (v : Option V) :
    replayed w (e :: l) v = replayed w l ((w e).getD v) := by
  rw [replayed, replayed, last_cons]
  cases last w l <;> rfl

theorem replayed_append (l l' : List ε) (v : Option V) :
    replayed w (l ++ l') v = replayed w l' (replayed w l v) := by
  induction l generalizing v with
  | nil => rfl
  | cons e l ih => rw [List.cons_append, replayed_cons, ih, replayed_cons]

variable {w}

theorem replayed_of_untouched {l : List ε} (h : ∀ e ∈ l, w e = none) (v : Option V) :
    replayed w l v = v := by
  rw [replayed, last_eq_none_iff.2 h, Option.getD_none]

/-- An event moved to the front of others that do not touch its cell. -/
theorem replayed_move {l l' : List ε} {e : ε} (h : w e = none ∨ ∀ e' ∈ l, w e' = none)
    (v : Option V) : replayed w (l ++ e :: l') v = replayed w (l ++ l') (replayed w [e] v) := by
  rw [replayed_append, replayed_append, replayed_cons, replayed_cons, replayed_nil]
  rcases h with h | h
  · rw [h, Option.getD_none, Option.getD_none]
  · rw [replayed_of_untouched h, replayed_of_untouched h]

/-- Events left out that do not touch the cell. -/
theorem replayed_filter {α : Type*} {keep : α → Bool} {g : α → ε} {l : List α}
    (h : ∀ a ∈ l, keep a = false → w (g a) = none) (v : Option V) :
    replayed w ((l.filter keep).map g) v = replayed w (l.map g) v := by
  induction l generalizing v with
  | nil => rfl
  | cons a l ih =>
    have ih := fun v => ih (fun a' ha' => h a' (List.mem_cons_of_mem a ha')) v
    cases hk : keep a with
    | true =>
      rw [List.filter_cons_of_pos hk, List.map_cons, List.map_cons, replayed_cons,
        replayed_cons, ih]
    | false =>
      rw [List.filter_cons_of_neg (by rw [hk]; decide), List.map_cons, replayed_cons,
        h a List.mem_cons_self hk, Option.getD_none, ih]

/-- A cell touched last by a write holds the last value written. -/
theorem last_written : ∀ {l : List ε} {x : V}, last w l = some (some x) →
    last (written w) l = some x
  | [], _, h => absurd h (by simp)
  | e :: l, x, h => by
    rw [last_cons] at h ⊢
    cases hl : last w l with
    | some y =>
      rw [hl] at h
      rw [last_written (hl.trans h)]
      rfl
    | none =>
      rw [hl, Option.none_or] at h
      have hnone : last (written w) l = none := last_eq_none_iff.2 fun e' he' => by
        rw [written, last_eq_none_iff.1 hl e' he']
        rfl
      rw [hnone, Option.none_or, written, h]
      rfl

theorem last_of_written_singleton {e : ε} (h : (last (written w) [e]).isSome) :
    ∃ x, last w [e] = some (some x) := by
  obtain ⟨x, hx⟩ := Option.isSome_iff_exists.1 h
  rw [last_cons, last_nil, Option.none_or, written, Option.join_eq_some_iff] at hx
  exact ⟨x, by rw [last_cons, last_nil, Option.none_or, hx]⟩

/-- Erasing first and writing then leaves the cell as the events in order do
    exactly when a cell that is written is written last. -/
theorem grouped_eq_replayed_iff {l : List ε} {v : Option V} {erased : Prop} [Decidable erased]
    (herased : erased ↔ ∃ e ∈ l, w e = some none) :
    (last (written w) l).or (if erased then none else v) = replayed w l v ↔
      ((last (written w) l).isSome → ∃ x, last w l = some (some x)) := by
  -- By what was written last, if anything: then an erasure after it is what goes wrong. With
  -- nothing written, both sides erase.
  cases hw : last (written w) l with
  | some x =>
    simp only [Option.some_or, Option.isSome_some, forall_const, replayed]
    constructor
    · intro h
      cases hl : last w l with
      | none =>
        obtain ⟨e, he, hx⟩ := exists_mem_of_last hw
        rw [written, last_eq_none_iff.1 hl e he] at hx
        exact absurd hx (by simp)
      | some y =>
        rw [hl, Option.getD_some] at h
        exact ⟨x, congrArg some h.symm⟩
    · rintro ⟨y, hy⟩
      rw [last_written hy] at hw
      rw [hy, Option.getD_some, ← hw]
  | none =>
    refine iff_of_true ?_ fun h => absurd h (by simp)
    rw [Option.none_or, replayed]
    cases hl : last w l with
    | none =>
      rw [if_neg, Option.getD_none]
      rw [herased]
      rintro ⟨e, he, hn⟩
      rw [last_eq_none_iff.1 hl e he] at hn
      exact absurd hn (by simp)
    | some y =>
      cases y with
      | some x => exact absurd ((last_written hl).symm.trans hw) (by simp)
      | none => rw [if_pos (herased.2 (exists_mem_of_last hl)), Option.getD_some]

end PgRedis.Lib
