import PgRedis.Lib.Chain

/-!
# Doubly linked lists

The nodes of a *doubly linked* list have links in both directions, and the list has one to the
node at either end. `DLinks.IsList` says that the links from the head on make a chain of some
nodes, and those from the tail on a chain of the same nodes backwards.

Read from the other end a list is a list again (`DLinks.mirror`). So a node is put in and taken
out at the front by `pushFront` and `popFront`, and at the back by what these do to the mirror
image: the two laws are proved once.
-/

namespace PgRedis.Lib

/-- The links of a doubly linked list. -/
structure DLinks (P : Type*) where
  head : Option P
  tail : Option P
  next : P → Option P
  prev : P → Option P

namespace DLinks

variable {P : Type*} {L L' : DLinks P} {l : List P} {p : P}

/-- The nodes of the list are `l`. -/
structure IsList (L : DLinks P) (l : List P) : Prop where
  next : Chain L.next L.head l
  prev : Chain L.prev L.tail l.reverse

/-- The links, read from the other end. -/
def mirror (L : DLinks P) : DLinks P := ⟨L.tail, L.head, L.prev, L.next⟩

/-- The list is one of its links alone, wherever they are kept. -/
theorem IsList.congr (h : L.IsList l) (hhead : L'.head = L.head) (htail : L'.tail = L.tail)
    (hnext : L'.next = L.next) (hprev : L'.prev = L.prev) : L'.IsList l where
  next := by
    rw [hnext, hhead]
    exact h.next
  prev := by
    rw [hprev, htail]
    exact h.prev

/-- Only the links of its own nodes matter to a list. -/
theorem IsList.congr_of_mem (h : L.IsList l) (hhead : L'.head = L.head) (htail : L'.tail = L.tail)
    (hnext : ∀ p ∈ l, L'.next p = L.next p) (hprev : ∀ p ∈ l, L'.prev p = L.prev p) :
    L'.IsList l where
  next := by
    rw [hhead]
    exact h.next.congr hnext
  prev := by
    rw [htail]
    exact h.prev.congr fun p hp => hprev p (List.mem_reverse.1 hp)

theorem IsList.mirror (h : L.IsList l) : L.mirror.IsList l.reverse :=
  ⟨h.prev, by rw [List.reverse_reverse]; exact h.next⟩

theorem IsList.head_eq (h : L.IsList l) : L.head = l.head? := h.next.eq_head?

theorem IsList.tail_eq (h : L.IsList l) : L.tail = l.getLast? := by
  rw [h.prev.eq_head?, List.head?_reverse]

/-- A list without a node has none at either end. -/
theorem IsList.head_eq_none_iff (h : L.IsList l) : L.head = none ↔ L.tail = none := by
  rw [h.head_eq, h.tail_eq, List.head?_eq_none_iff, List.getLast?_eq_none_iff]

/-- The first node links to the second. -/
theorem IsList.next_eq (h : L.IsList (p :: l)) : L.next p = l.head? := h.next.of_cons.2.eq_head?

/-- The last node links to the one before it. -/
theorem IsList.prev_eq (h : L.IsList (l ++ [p])) : L.prev p = l.getLast? := by
  have hprev := h.prev
  rw [List.reverse_append, List.reverse_singleton, List.singleton_append] at hprev
  rw [hprev.of_cons.2.eq_head?, List.head?_reverse]

theorem IsList.nodup (h : L.IsList l) : l.Nodup := h.next.nodup

variable [DecidableEq P]

/-- Setting the link of a node, if there is the node. -/
def setLink (o v : Option P) (f : P → Option P) : P → Option P :=
  match o with
  | none => f
  | some q => Function.update f q v

theorem setLink_congr {o v : Option P} {f f' : P → Option P} (h : f p = f' p) :
    setLink o v f p = setLink o v f' p := by
  cases o with
  | none => exact h
  | some q => rw [setLink, setLink, Function.update_apply, Function.update_apply, h]

/-- Putting the node `p` in front. -/
def pushFront (p : P) (L : DLinks P) : DLinks P where
  head := some p
  tail := if L.tail = none then some p else L.tail
  next := Function.update L.next p L.head
  prev := setLink L.head (some p) (Function.update L.prev p none)

/-- Putting the node `p` behind the others. -/
def pushBack (p : P) (L : DLinks P) : DLinks P := (L.mirror.pushFront p).mirror

/-- Taking the first node `p` out. It has no links afterwards. -/
def popFront (p : P) (L : DLinks P) : DLinks P where
  head := L.next p
  tail := if L.next p = none then none else L.tail
  next := Function.update L.next p none
  prev := setLink (L.next p) none (Function.update L.prev p none)

/-- Taking the last node `p` out. -/
def popBack (p : P) (L : DLinks P) : DLinks P := (L.mirror.popFront p).mirror

/-- The links backwards when the last of them, at the node `q`, is set, and `p` is cleared. -/
theorem chain_setLink {prev : P → Option P} {o v : Option P} {q : P} {r r' : List P}
    (h : Chain prev o (l.reverse ++ q :: r)) (hp : p ∉ l) (hq : q ∉ l)
    (h' : Chain (setLink (some q) v (Function.update prev p none)) v r') :
    Chain (setLink (some q) v (Function.update prev p none)) o (l.reverse ++ q :: r') := by
  refine h.relink (fun t ht => ?_) ?_
  · have ht := List.mem_reverse.1 ht
    rw [setLink, Function.update_of_ne (ne_of_mem_of_not_mem ht hq),
      Function.update_of_ne (ne_of_mem_of_not_mem ht hp)]
  · rw [setLink] at h' ⊢
    rwa [Function.update_self]

theorem IsList.pushFront (h : L.IsList l) (hp : p ∉ l) : (L.pushFront p).IsList (p :: l) where
  next := by
    refine .cons ?_
    simp only [DLinks.pushFront, Function.update_self]
    exact h.next.congr fun q hq => Function.update_of_ne (ne_of_mem_of_not_mem hq hp) _ _
  prev := by
    cases l with
    | nil =>
      have hhead : L.head = none := h.head_eq
      have htail : L.tail = none := h.tail_eq
      simp only [DLinks.pushFront, setLink, hhead, htail, if_true]
      exact .cons (by rw [Function.update_self]; exact .nil)
    | cons q l =>
      -- The link of the first node, which was the last one backwards, now goes to `p`.
      have hprev := h.prev
      obtain ⟨hpq, hpl⟩ := not_or.1 (mt List.mem_cons.2 hp)
      have hql := (List.nodup_cons.1 h.nodup).1
      have htail : L.tail ≠ none := by rw [h.tail_eq]; simp
      rw [List.reverse_cons] at hprev
      simp only [DLinks.pushFront, h.head_eq, List.head?_cons, if_neg htail]
      rw [List.reverse_cons, List.reverse_cons, List.append_assoc]
      refine chain_setLink hprev hpl hql (.cons ?_)
      rw [setLink, Function.update_of_ne hpq, Function.update_self]
      exact .nil

theorem IsList.popFront (h : L.IsList (p :: l)) : (L.popFront p).IsList l where
  next := by
    obtain ⟨hpl, -⟩ := List.nodup_cons.1 h.nodup
    exact h.next.of_cons.2.congr fun q hq =>
      Function.update_of_ne (ne_of_mem_of_not_mem hq hpl) _ _
  prev := by
    obtain ⟨hpl, hl⟩ := List.nodup_cons.1 h.nodup
    have hprev := h.prev
    rw [List.reverse_cons] at hprev
    cases l with
    | nil =>
      have hnone : L.next p = none := h.next_eq
      simp only [DLinks.popFront, setLink, hnone, if_true]
      exact .nil
    | cons q l =>
      -- The link of the second node, now the first, ends the chain backwards.
      obtain ⟨hpq, hpl⟩ := not_or.1 (mt List.mem_cons.2 hpl)
      have hql := (List.nodup_cons.1 hl).1
      have hsome : L.next p = some q := h.next_eq
      simp only [DLinks.popFront, hsome, reduceCtorEq, if_false]
      rw [List.reverse_cons, List.append_assoc] at hprev
      rw [List.reverse_cons]
      exact chain_setLink hprev hpl hql .nil

theorem IsList.pushBack (h : L.IsList l) (hp : p ∉ l) : (L.pushBack p).IsList (l ++ [p]) := by
  have hpush := (h.mirror.pushFront fun hmem => hp (List.mem_reverse.1 hmem)).mirror
  rwa [List.reverse_cons, List.reverse_reverse] at hpush

theorem IsList.popBack (h : L.IsList (l ++ [p])) : (L.popBack p).IsList l := by
  have hmirror := h.mirror
  rw [List.reverse_append, List.reverse_singleton, List.singleton_append] at hmirror
  have hpop := hmirror.popFront.mirror
  rwa [List.reverse_reverse] at hpop

end DLinks

end PgRedis.Lib
