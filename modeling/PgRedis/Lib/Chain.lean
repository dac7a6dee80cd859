import Mathlib.Data.List.Nodup
import Mathlib.Logic.Function.Basic

/-!
# Intrusive linked lists

The nodes of an *intrusive* list are linked through a field of their own: `next p`
is the node after `p`, and a head gives the first one. Whether the links make a
list at all is not in their type: `Chain` says that the nodes from a link on are
those of a list, each reached after the one before it.

The loops over such a list follow the links, and come with a bound on their
rounds: they give `none` if it does not suffice.

* `sweep_eq`: a loop that changes each node in passing, having read its link, is
  the fold over the chain;
* `Links.unlink_chain`: the loop that takes a node out, walking over the *places*
  holding the links, leaves the chain without it, wherever it stood.
-/

namespace PgRedis.Lib

variable {P : Type*}

/-- The nodes from the link `o` on are `l`. -/
inductive Chain (next : P → Option P) : Option P → List P → Prop
  | nil : Chain next none []
  | cons {p : P} {l : List P} : Chain next (next p) l → Chain next (some p) (p :: l)

namespace Chain

variable {next next' : P → Option P} {o : Option P} {l l' : List P}

/-- The links determine the chain. -/
theorem unique (h : Chain next o l) (h' : Chain next o l') : l = l' := by
  induction h generalizing l' with
  | nil =>
    cases h'
    rfl
  | cons _ ih =>
    cases h' with
    | cons h' => rw [ih h']

/-- Only the links of its own nodes matter to a chain. -/
theorem congr (h : Chain next o l) (heq : ∀ p ∈ l, next' p = next p) : Chain next' o l := by
  induction h with
  | nil => exact .nil
  | @cons p l _ ih =>
    refine .cons ?_
    rw [heq p List.mem_cons_self]
    exact ih fun q hq => heq q (List.mem_cons_of_mem p hq)

theorem eq_nil (h : Chain next o l) (ho : o = none) : l = [] := by
  cases h with
  | nil => rfl
  | cons => exact absurd ho (by simp)

/-- The first link goes to the first node, and its links to the others. -/
theorem of_cons {p : P} (h : Chain next o (p :: l)) : o = some p ∧ Chain next (next p) l := by
  cases h with
  | cons h => exact ⟨rfl, h⟩

/-- A chain starts at its first node. -/
theorem eq_head? (h : Chain next o l) : o = l.head? := by
  cases h <;> rfl

/-- From a node of a chain on there is a shorter one. -/
theorem of_mem {p : P} (h : Chain next o l) (hp : p ∈ l) :
    ∃ l', Chain next (some p) (p :: l') ∧ l'.length < l.length := by
  induction h with
  | nil => exact absurd hp List.not_mem_nil
  | @cons q l h ih =>
    rcases List.mem_cons.1 hp with rfl | hp
    · exact ⟨l, .cons h, Nat.lt_succ_self _⟩
    · obtain ⟨l', h', hlt⟩ := ih hp
      exact ⟨l', h', Nat.lt_succ_of_lt hlt⟩

/-- No node comes twice: the links would go round for ever. -/
theorem nodup (h : Chain next o l) : l.Nodup := by
  induction h with
  | nil => exact .nil
  | @cons p l h ih =>
    refine List.nodup_cons.2 ⟨fun hp => ?_, ih⟩
    obtain ⟨l', h', hlt⟩ := h.of_mem hp
    rw [h.unique h'.of_cons.2] at hlt
    exact Nat.lt_irrefl _ hlt

/-- Another chain in the place of what follows the node `t`. -/
theorem relink {t : P} {r r' : List P} (h : Chain next o (l ++ t :: r))
    (heq : ∀ q ∈ l, next' q = next q) (h' : Chain next' (next' t) r') :
    Chain next' o (l ++ t :: r') := by
  induction l generalizing o with
  | nil =>
    obtain ⟨rfl, -⟩ := h.of_cons
    exact .cons h'
  | cons q l ih =>
    obtain ⟨rfl, hrest⟩ := h.of_cons
    refine .cons ?_
    rw [heq q List.mem_cons_self]
    exact ih hrest fun r hr => heq r (List.mem_cons_of_mem q hr)

end Chain

/-! ## Sweeps -/

section

variable {σ : Type*} {next : σ → P → Option P} {f : P → σ → σ}

/-- The loop from the link `o` that applies `f` to every node, after reading the
    link to the next one. -/
def sweep (next : σ → P → Option P) (f : P → σ → σ) : ℕ → Option P → σ → Option σ
  | _, none, s => some s
  | 0, some _, _ => none
  | n + 1, some p, s => sweep next f n (next s p) (f p s)

/-- A sweep that changes no link of the other nodes visits the chain. -/
theorem sweep_eq (hf : ∀ p q s, q ≠ p → next (f p s) q = next s q) {n : ℕ} {o : Option P}
    {l : List P} {s : σ} (h : Chain (next s) o l) (hnd : l.Nodup) (hn : l.length ≤ n) :
    sweep next f n o s = some (l.foldl (fun s p => f p s) s) := by
  induction l generalizing n o s with
  | nil =>
    cases h
    cases n <;> rfl
  | cons p l ih =>
    cases h with
    | cons h =>
      obtain ⟨hp, hnd⟩ := List.nodup_cons.1 hnd
      obtain ⟨n, rfl⟩ : ∃ m, n = m + 1 := Nat.exists_eq_add_one.2 (Nat.lt_of_lt_of_le
        (Nat.succ_pos _) hn)
      refine ih (h.congr fun q hq => hf p q s ?_) hnd (Nat.le_of_succ_le_succ hn)
      rintro rfl
      exact hp hq

end

/-! ## Places -/

/-- The links of an intrusive list. -/
structure Links (P : Type*) where
  head : Option P
  next : P → Option P

/-- A place that holds a link: the head, or the field of a node. -/
inductive Place (P : Type*)
  | head
  | next (p : P)
  deriving DecidableEq

namespace Links

/-- The nodes of the list are `l`. -/
abbrev IsList (L : Links P) (l : List P) : Prop := Chain L.next L.head l

/-- The link at a place. -/
def read (L : Links P) : Place P → Option P
  | .head => L.head
  | .next p => L.next p

variable [DecidableEq P]

/-- Setting the link at a place. -/
def write (L : Links P) (o : Option P) : Place P → Links P
  | .head => { L with head := o }
  | .next p => { L with next := Function.update L.next p o }

/-- Putting the node `p` in front. -/
def push (L : Links P) (p : P) : Links P := ⟨some p, Function.update L.next p L.head⟩

/-- The loop that takes the node `p` out, from the place `pp` on. -/
def unlink (L : Links P) (p : P) : ℕ → Place P → Option (Links P)
  | 0, pp => if (L.read pp).isNone then some L else none
  | n + 1, pp => match L.read pp with
    | none => some L
    | some q => if q = p then some (L.write (L.next p) pp) else L.unlink p n (.next q)

variable {L : Links P} {l : List P} {p : P}

theorem read_write (o : Option P) (pp pp' : Place P) :
    (L.write o pp).read pp' = if pp' = pp then o else L.read pp' := by
  cases pp <;> cases pp' <;> simp [write, read, Function.update_apply]

theorem IsList.push (h : L.IsList l) (hp : p ∉ l) : (L.push p).IsList (p :: l) := by
  refine .cons ?_
  simp only [Links.push, Function.update_self]
  refine h.congr fun q hq => Function.update_of_ne ?_ _ _
  rintro rfl
  exact hp hq

/-- The loop ends with the node taken out, and changes no link before its place. -/
theorem unlink_chain {n : ℕ} {pp : Place P} (h : Chain L.next (L.read pp) l) (hnd : l.Nodup)
    (hpp : ∀ q ∈ l, pp ≠ .next q) (hn : l.length ≤ n) :
    ∃ L', L.unlink p n pp = some L' ∧ Chain L'.next (L'.read pp) (l.erase p) ∧
      ∀ pp', pp' ≠ pp → (∀ q ∈ l, pp' ≠ .next q) → L'.read pp' = L.read pp' := by
  induction l generalizing n pp with
  | nil =>
    have hread : L.read pp = none := by
      cases hr : L.read pp with
      | none => rfl
      | some q =>
        rw [hr] at h
        cases h
    refine ⟨L, ?_, h, fun _ _ _ => rfl⟩
    cases n with
    | zero => simp [unlink, hread]
    | succ n => simp [unlink, hread]
  | cons q l ih =>
    obtain ⟨hq, hnd'⟩ := List.nodup_cons.1 hnd
    obtain ⟨n, rfl⟩ : ∃ m, n = m + 1 := Nat.exists_eq_add_one.2 (Nat.lt_of_lt_of_le
      (Nat.succ_pos _) hn)
    have hread : L.read pp = some q ∧ Chain L.next (L.next q) l := by
      generalize L.read pp = o at h
      cases h with
      | cons h => exact ⟨rfl, h⟩
    by_cases hqp : q = p
    · -- The place now holds the link of `p`, and is not in a node further down.
      refine ⟨L.write (L.next p) pp, by simp [unlink, hread.1, hqp], ?_, fun pp' hne _ => ?_⟩
      · rw [hqp, List.erase_cons_head, read_write, if_pos rfl, ← hqp]
        refine hread.2.congr fun r hr => ?_
        have := read_write (L := L) (L.next q) pp (.next r)
        rwa [if_neg fun h => hpp r (List.mem_cons_of_mem q hr) h.symm] at this
      · rw [read_write, if_neg hne]
    · -- The walk goes on from the field of `q`, which keeps the place before it.
      have hnext : Chain L.next (L.read (.next q)) l := hread.2
      obtain ⟨L', hL', hchain, hkeep⟩ := ih hnext hnd'
        (fun r hr h => hq (by cases h; exact hr)) (Nat.le_of_succ_le_succ hn)
      have hsame : L'.read pp = L.read pp := hkeep pp (hpp q List.mem_cons_self)
        fun r hr => hpp r (List.mem_cons_of_mem q hr)
      refine ⟨L', by simp [unlink, hread.1, hqp, hL'], ?_, fun pp' _ hpp' => ?_⟩
      · rw [hsame, hread.1, List.erase_cons_tail (by simpa using hqp)]
        exact .cons hchain
      · exact hkeep pp' (hpp' q List.mem_cons_self) fun r hr => hpp' r (List.mem_cons_of_mem q hr)

/-- Unlinking from the head leaves the list without the node. -/
theorem IsList.unlink (h : L.IsList l) (hnd : l.Nodup) (p : P) {n : ℕ} (hn : l.length ≤ n) :
    ∃ L', L.unlink p n .head = some L' ∧ L'.IsList (l.erase p) := by
  have hhead : Chain L.next (L.read .head) l := h
  obtain ⟨L', hL', hchain, -⟩ := unlink_chain (p := p) hhead hnd (by simp) hn
  exact ⟨L', hL', hchain⟩

end Links

end PgRedis.Lib
