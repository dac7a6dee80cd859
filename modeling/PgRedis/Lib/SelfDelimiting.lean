import Mathlib.Data.List.TakeWhile

/-!
# Self-delimiting texts

A function `f` to texts is *self-delimiting* when a text that starts with some `f x` shows
both `x` and where `f x` ends (`SelfDelimiting`). So texts made by appending such texts can
be read again: literals in front (`append_left`), an end mark not met before (`terminated`),
lists of items up to an end mark (`flatMap`), and lists with separators between the items
(`sepBy`).

All is relative to the arguments with a property `P`, those that the text is meant for.
-/

namespace PgRedis.Lib

variable {α σ : Type*}

/-- A text that starts with `f x` shows `x` and the rest. -/
def SelfDelimiting (P : α → Prop) (f : α → List σ) : Prop :=
  ∀ x y u v, P x → P y → f x ++ u = f y ++ v → x = y ∧ u = v

/-- The items one after the other, with separators between them; the flag says that no item
    came before. -/
def sepBy (sep : List σ) (f : α → List σ) : (first : Bool) → List α → List σ
  | _, [] => []
  | first, x :: xs => (if first then [] else sep) ++ f x ++ sepBy sep f false xs

theorem sepBy_map {β : Type*} (sep : List σ) (f : α → List σ) (g : β → α) :
    ∀ (first : Bool) (xs : List β),
      sepBy sep f first (xs.map g) = sepBy sep (fun x => f (g x)) first xs
  | _, [] => rfl
  | _, _ :: xs => by rw [List.map_cons, sepBy, sepBy, sepBy_map sep f g false xs]

theorem sepBy_congr {f g : α → List σ} (sep : List σ) :
    ∀ (first : Bool) {xs : List α}, (∀ x ∈ xs, f x = g x) →
      sepBy sep f first xs = sepBy sep g first xs
  | _, [], _ => rfl
  | _, x :: xs, h => by
    rw [List.forall_mem_cons] at h
    rw [sepBy, sepBy, h.1, sepBy_congr sep false h.2]

/-- `f x` starts with a symbol other than `t`. -/
def StartsOff (t : σ) (P : α → Prop) (f : α → List σ) : Prop :=
  ∀ x, P x → ∃ a l, f x = a :: l ∧ a ≠ t

namespace SelfDelimiting

variable {P : α → Prop} {f : α → List σ} {t : σ}

/-- It is enough to read `x` off the texts that start with `f x`. -/
theorem of_read (read : List σ → α) (h : ∀ x u, P x → read (f x ++ u) = x) :
    SelfDelimiting P f := by
  intro x y u v hx hy heq
  have hxy : x = y := by rw [← h x u hx, heq, h y v hy]
  rw [hxy] at heq
  exact ⟨hxy, List.append_cancel_left heq⟩

theorem injOn (h : SelfDelimiting P f) {x y : α} (hx : P x) (hy : P y) (heq : f x = f y) :
    x = y :=
  (h x y [] [] hx hy (by rw [heq])).1

theorem append_left (h : SelfDelimiting P f) (l : List σ) : SelfDelimiting P fun x => l ++ f x :=
  fun x y u v hx hy heq => h x y u v hx hy
    (List.append_cancel_left (by simpa only [List.append_assoc] using heq))

/-- An injective text, ended by a mark that is not in it. -/
theorem terminated (hf : ∀ x y, P x → P y → f x = f y → x = y) (ht : ∀ x, P x → t ∉ f x) :
    SelfDelimiting P fun x => f x ++ [t] := by
  classical
  have hread : ∀ x u, P x → (f x ++ [t] ++ u).takeWhile (· ≠ t) = f x := by
    intro x u hx
    rw [List.append_assoc, List.takeWhile_append_of_pos]
    · simp
    · exact fun a ha => decide_eq_true fun heq => ht x hx (heq ▸ ha)
  intro x y u v hx hy heq
  have hxy : x = y := hf x y hx hy (by rw [← hread x u hx, heq, hread y v hy])
  rw [hxy] at heq
  exact ⟨hxy, List.append_cancel_left heq⟩

/-- Items one after the other, ended by a mark that no item starts with. -/
theorem flatMap (h : SelfDelimiting P f) (ht : StartsOff t P f) :
    SelfDelimiting (fun xs : List α => ∀ x ∈ xs, P x) fun xs => xs.flatMap f ++ [t] := by
  intro xs
  -- Over the first list: the mark tells whether another item follows, and the item where it
  -- ends.
  induction xs with
  | nil =>
    intro ys u v _ hy heq
    cases ys with
    | nil => exact ⟨rfl, List.append_cancel_left heq⟩
    | cons y ys =>
      obtain ⟨a, l, hfy, ha⟩ := ht y (hy y List.mem_cons_self)
      simp only [List.flatMap_nil, List.flatMap_cons, hfy, List.nil_append, List.cons_append,
        List.cons.injEq] at heq
      exact absurd heq.1.symm ha
  | cons x xs ih =>
    intro ys u v hx hy heq
    rw [List.forall_mem_cons] at hx
    cases ys with
    | nil =>
      obtain ⟨a, l, hfx, ha⟩ := ht x hx.1
      simp only [List.flatMap_nil, List.flatMap_cons, hfx, List.nil_append, List.cons_append,
        List.cons.injEq] at heq
      exact absurd heq.1 ha
    | cons y ys =>
      rw [List.forall_mem_cons] at hy
      simp only [List.flatMap_cons, List.append_assoc] at heq
      obtain ⟨rfl, hrest⟩ := h x y _ _ hx.1 hy.1 heq
      obtain ⟨rfl, huv⟩ := ih ys u v hx.2 hy.2 (by simpa only [List.append_assoc] using hrest)
      exact ⟨rfl, huv⟩

/-- Behind the first item, every item has a separator in front. -/
theorem sepBy_false (sep : List σ) (f : α → List σ) (xs : List α) :
    Lib.sepBy sep f false xs = xs.flatMap fun x => sep ++ f x := by
  induction xs with
  | nil => rfl
  | cons x xs ih => simp [Lib.sepBy, ih]

/-- Items with separators, ended by a mark that neither items nor separators start with. -/
theorem sepBy (h : SelfDelimiting P f) (ht : StartsOff t P f) {s : σ} {sep : List σ}
    (hs : s ≠ t) : SelfDelimiting (fun xs => ∀ x ∈ xs, P x)
      fun xs => Lib.sepBy (s :: sep) f true xs ++ [t] := by
  have hitem : SelfDelimiting P fun x => s :: sep ++ f x := h.append_left _
  -- After the first item, each comes with its separator.
  have hrest := hitem.flatMap fun x _ => ⟨s, sep ++ f x, rfl, hs⟩
  intro xs ys u v hx hy heq
  cases xs with
  | nil =>
    cases ys with
    | nil => exact ⟨rfl, List.append_cancel_left heq⟩
    | cons y ys =>
      obtain ⟨a, l, hfy, ha⟩ := ht y (hy y List.mem_cons_self)
      simp only [Lib.sepBy, hfy, if_true, List.nil_append, List.cons_append,
        List.cons.injEq] at heq
      exact absurd heq.1.symm ha
  | cons x xs =>
    rw [List.forall_mem_cons] at hx
    cases ys with
    | nil =>
      obtain ⟨a, l, hfx, ha⟩ := ht x hx.1
      simp only [Lib.sepBy, hfx, if_true, List.nil_append, List.cons_append,
        List.cons.injEq] at heq
      exact absurd heq.1 ha
    | cons y ys =>
      rw [List.forall_mem_cons] at hy
      simp only [Lib.sepBy, if_true, List.nil_append, List.append_assoc, sepBy_false] at heq
      obtain ⟨rfl, htail⟩ := h x y _ _ hx.1 hy.1 heq
      obtain ⟨rfl, huv⟩ := hrest xs ys u v hx.2 hy.2
        (by simpa only [List.append_assoc] using htail)
      exact ⟨rfl, huv⟩

end SelfDelimiting

end PgRedis.Lib
