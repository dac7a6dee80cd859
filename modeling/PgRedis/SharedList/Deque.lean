import PgRedis.SharedList.Operations

/-!
# The two ends as a deque

Of the list in shared memory only its values and their ordinals are kept, as a deque
(`SharedDeque`). Operations at both ends are those of the deque, whichever allocations fail, and
leave the rest of the memory alone (`SharedListMeta.both_ends_of_run`).
-/

namespace PgRedis

open Lib

/-- The allocations a push needs. -/
def NodeSite.Enough (ok : NodeSite → Bool) (value : Bytes) : Prop :=
  ok .node = true ∧ (value = [] ∨ ok .value = true)

instance (ok : NodeSite → Bool) (value : Bytes) : Decidable (NodeSite.Enough ok value) :=
  inferInstanceAs (Decidable (_ ∧ _))

namespace SharedDeque

/-- The ordinal of the next value at an end. -/
def nextOrd (side : Side) (d : List (Bytes × ℤ)) : ℤ :=
  match side with
  | .left => d.head?.elim 0 fun x => x.2 - 1
  | .right => d.getLast?.elim 0 fun x => x.2 + 1

/-- One operation on a deque of values with their ordinals. -/
def step (ok : NodeSite → Bool) (d : List (Bytes × ℤ)) :
    ListOp → SharedListReply × List (Bytes × ℤ)
  | .push side value =>
    if NodeSite.Enough ok value then
      (.length (d.length + 1), match side with
        | .left => (clip value, nextOrd .left d) :: d
        | .right => d ++ [(clip value, nextOrd .right d)])
    else (.error (SharedListMeta.outOfMemory side), d)
  | .pop .left => (.popped d.head?, d.tail)
  | .pop .right => (.popped d.getLast?, d.dropLast)

/-- Operations one after the other. -/
def run : List (ListOp × (NodeSite → Bool)) → List (Bytes × ℤ) →
    List SharedListReply × List (Bytes × ℤ)
  | [], d => ([], d)
  | (op, ok) :: ops, d =>
    let r := step ok d op
    let rs := run ops r.2
    (r.1 :: rs.1, rs.2)

/-- The ordinals count up by one. -/
def Consecutive (d : List (Bytes × ℤ)) : Prop :=
  ∃ k : ℤ, d.map Prod.snd = (List.range d.length).map fun i : ℕ => k + i

variable {d : List (Bytes × ℤ)} {ok : NodeSite → Bool}

theorem consecutive_nil : Consecutive [] := ⟨0, rfl⟩

theorem Consecutive.cons (h : Consecutive d) (value : Bytes) :
    Consecutive ((value, nextOrd .left d) :: d) := by
  obtain ⟨k, hk⟩ := h
  cases d with
  | nil => exact ⟨0, rfl⟩
  | cons x d =>
    have hx : x.2 = k := by
      rw [List.map_cons, List.length_cons, List.range_succ_eq_map, List.map_cons] at hk
      exact (List.cons.inj hk).1.trans (Int.add_zero k)
    refine ⟨k - 1, ?_⟩
    rw [List.map_cons, hk]
    change _ = List.map _ (List.range ((x :: d).length + 1))
    generalize (x :: d).length = m
    rw [List.range_succ_eq_map, List.map_cons, List.map_map]
    refine congrArg₂ List.cons ?_ (List.map_congr_left fun i _ => ?_)
    · simp only [nextOrd, List.head?_cons, Option.elim_some, hx]
      omega
    · simp only [Function.comp_apply]
      omega

theorem Consecutive.concat (h : Consecutive d) (value : Bytes) :
    Consecutive (d ++ [(value, nextOrd .right d)]) := by
  obtain ⟨k, hk⟩ := h
  rcases List.eq_nil_or_concat d with rfl | ⟨d', x, rfl⟩
  · exact ⟨0, rfl⟩
  · have hx : x.2 = k + d'.length := by
      rw [List.concat_eq_append, List.map_append, List.length_append, List.length_singleton,
        List.range_succ, List.map_append] at hk
      exact (List.cons.inj (List.append_inj_right' hk rfl)).1
    refine ⟨k, ?_⟩
    rw [List.map_append, hk, List.length_append, List.length_singleton, List.range_succ,
      List.map_append, List.map_singleton, List.map_singleton]
    refine congrArg (_ ++ [·]) ?_
    simp only [nextOrd, List.concat_eq_append, List.getLast?_concat, Option.elim_some, hx,
      List.length_append, List.length_singleton]
    omega

theorem Consecutive.tail (h : Consecutive d) : Consecutive d.tail := by
  obtain ⟨k, hk⟩ := h
  cases d with
  | nil => exact consecutive_nil
  | cons x d =>
    rw [List.map_cons, List.length_cons, List.range_succ_eq_map, List.map_cons, List.map_map] at hk
    refine ⟨k + 1, (List.cons.inj hk).2.trans (List.map_congr_left fun i _ => ?_)⟩
    simp only [Function.comp_apply]
    omega

theorem Consecutive.dropLast (h : Consecutive d) : Consecutive d.dropLast := by
  obtain ⟨k, hk⟩ := h
  refine ⟨k, ?_⟩
  rw [List.map_dropLast, hk, ← List.map_dropLast, List.dropLast_eq_take, List.take_range,
    List.length_range, List.length_dropLast, Nat.min_eq_left (Nat.sub_le _ _)]

theorem Consecutive.step (h : Consecutive d) (op : ListOp) : Consecutive (step ok d op).2 := by
  cases op with
  | push side value =>
    simp only [SharedDeque.step]
    split_ifs
    · cases side with
      | left => exact h.cons _
      | right => exact h.concat _
    · exact h
  | pop side =>
    cases side with
    | left => exact h.tail
    | right => exact h.dropLast

theorem Consecutive.run (ops : List (ListOp × (NodeSite → Bool))) :
    ∀ {d : List (Bytes × ℤ)}, Consecutive d → Consecutive (run ops d).2 := by
  induction ops with
  | nil => exact id
  | cons op ops ih => exact fun h => ih (h.step op.1)

end SharedDeque

/-- A node of a list, and its value with its ordinal in the deque. -/
def SharedNode.item (n : SharedNode) : Bytes × ℤ := (n.bytes, n.ord)

namespace SharedList

/-- The list is the deque `d`. -/
structure IsDeque (l : SharedList) (d : List (Bytes × ℤ)) : Prop where
  items : l.nodes.map SharedNode.item = d
  initialized : l.ordInitialized = true ↔ d ≠ []
  minOrd : ∀ x ∈ d.head?, l.minOrd = x.2
  maxOrd : ∀ x ∈ d.getLast?, l.maxOrd = x.2

variable {l : SharedList} {d : List (Bytes × ℤ)} {n : SharedNode} {nodes : List SharedNode}

theorem isDeque_empty : empty.IsDeque [] where
  items := rfl
  initialized := by simp [empty]
  minOrd _ hx := absurd hx (by simp)
  maxOrd _ hx := absurd hx (by simp)

theorem IsDeque.nextOrd_eq (h : l.IsDeque d) (side : Side) :
    l.nextOrd side = SharedDeque.nextOrd side d := by
  rcases List.eq_nil_or_concat d with rfl | ⟨d', y, hd⟩
  · have hinit : l.ordInitialized = false := by simpa using h.initialized
    simp only [nextOrd, hinit]
    cases side <;> rfl
  · have hy : d.getLast? = some y := by rw [hd, List.concat_eq_append, List.getLast?_concat]
    cases d with
    | nil => exact absurd hy (by simp)
    | cons x d =>
      simp only [nextOrd, h.initialized.2 (List.cons_ne_nil x d), if_true]
      cases side with
      | left => exact congrArg (· - 1) (h.minOrd x rfl)
      | right =>
        simp only [SharedDeque.nextOrd, hy, Option.elim_some]
        exact congrArg (· + 1) (h.maxOrd y hy)

theorem IsDeque.attach_left (h : l.IsDeque d) {value : Bytes} (hbytes : n.bytes = clip value)
    (hord : n.ord = l.nextOrd .left) :
    (l.attach .left n).IsDeque ((clip value, SharedDeque.nextOrd .left d) :: d) where
  items := by
    rw [nodes_attach_left, List.map_cons, h.items, SharedNode.item, hbytes, hord,
      h.nextOrd_eq]
  initialized := by simp [attach]
  minOrd x hx := by
    obtain rfl := Option.some.inj hx
    exact h.nextOrd_eq .left
  maxOrd x hx := by
    cases d with
    | nil =>
      obtain rfl := Option.some.inj hx
      have hinit : l.ordInitialized = false := by simpa using h.initialized
      simp only [attach, hinit]
      exact h.nextOrd_eq .left
    | cons y d =>
      simp only [attach, h.initialized.2 (List.cons_ne_nil y d), if_true]
      exact h.maxOrd x hx

theorem IsDeque.attach_right (h : l.IsDeque d) {value : Bytes} (hbytes : n.bytes = clip value)
    (hord : n.ord = l.nextOrd .right) :
    (l.attach .right n).IsDeque (d ++ [(clip value, SharedDeque.nextOrd .right d)]) where
  items := by
    rw [nodes_attach_right, List.map_append, h.items, List.map_singleton, SharedNode.item,
      hbytes, hord, h.nextOrd_eq]
  initialized := by simp [attach]
  minOrd x hx := by
    cases d with
    | nil =>
      obtain rfl := Option.some.inj hx
      have hinit : l.ordInitialized = false := by simpa using h.initialized
      simp only [attach, hinit]
      exact h.nextOrd_eq .right
    | cons y d =>
      simp only [attach, h.initialized.2 (List.cons_ne_nil y d), if_true]
      exact h.minOrd x hx
  maxOrd x hx := by
    rw [List.getLast?_concat] at hx
    obtain rfl := Option.some.inj hx
    exact h.nextOrd_eq .right

theorem IsDeque.detach_left (h : l.IsDeque d) (hl : l.nodes = n :: nodes) :
    d.head? = some n.item ∧ (l.detach .left nodes).IsDeque d.tail := by
  have hd : n.item :: nodes.map SharedNode.item = d := by rw [← List.map_cons, ← hl, h.items]
  subst hd
  refine ⟨rfl, ?_⟩
  simp only [List.tail_cons, detach]
  cases nodes with
  | nil =>
    exact ⟨rfl, by simp, fun x hx => absurd hx (by simp), fun x hx => absurd hx (by simp)⟩
  | cons j nodes =>
    refine ⟨rfl, by simp [h.initialized], fun x hx => ?_, h.maxOrd⟩
    obtain rfl := Option.some.inj hx
    rfl

theorem IsDeque.detach_right (h : l.IsDeque d) (hl : l.nodes = nodes ++ [n]) :
    d.getLast? = some n.item ∧ (l.detach .right nodes).IsDeque d.dropLast := by
  have hd : nodes.map SharedNode.item ++ [n.item] = d := by
    rw [← List.map_singleton, ← List.map_append, ← hl, h.items]
  subst hd
  refine ⟨List.getLast?_concat, ?_⟩
  simp only [List.dropLast_concat, detach]
  rcases List.eq_nil_or_concat nodes with rfl | ⟨nodes', j, hj⟩
  · exact ⟨rfl, by simp, fun x hx => absurd hx (by simp), fun x hx => absurd hx (by simp)⟩
  · rw [List.concat_eq_append] at hj
    subst hj
    simp only [List.getLast?_concat]
    refine ⟨rfl, ?_, fun x hx => h.minOrd x ?_, fun x hx => ?_⟩
    · rw [h.initialized]
      simp
    · rw [List.head?_append, hx]
      rfl
    · rw [List.map_append, List.map_singleton, List.getLast?_concat] at hx
      obtain rfl := Option.some.inj hx
      rfl

/-- A new node, if there is memory for it. -/
theorem newNode_item (ok : NodeSite → Bool) (value : Bytes) (ord : ℤ) (c : Dsa) :
    if NodeSite.Enough ok value then
      ∃ n, (newNode ok value ord c).2 = some n ∧ n.bytes = clip value ∧ n.ord = ord
    else (newNode ok value ord c).2 = none := by
  have hfail : (value.length > 0 ∧ ok .value = false) ↔ ¬(value = [] ∨ ok .value = true) := by
    rw [not_or, Bool.not_eq_true, gt_iff_lt, List.length_pos_iff]
  rw [newNode]
  split_ifs with henough hnode hvalue
  · exact absurd henough.2 (hfail.1 hvalue)
  · exact ⟨_, rfl, by simp [SharedNode.bytes, clip], rfl⟩
  · exact absurd henough.1 hnode
  · rfl
  · rename_i hnode hvalue
    exact absurd ⟨hnode, not_not.1 (mt hfail.2 hvalue)⟩ henough
  · rfl

end SharedList

namespace SharedListMeta

variable {g : Segment} {others : List ℕ} {L : SharedListMeta} {l : SharedList}
  {d : List (Bytes × ℤ)}

/-- The length that a push gives back, and the deque after it. -/
theorem Represents.pushed (hr : Represents g others L l) (hd : l.IsDeque d) (side : Side)
    (ok : NodeSite → Bool) (value : Bytes) {r : Option SharedListMeta × Segment}
    (hrel : Option.Rel (Represents r.2 others) r.1 (l.push side ok value g.dsa).2)
    (hnone : r.1 = none → Represents r.2 others L l) :
    ∃ l' L', SharedListMeta.pushed side L r =
        ((SharedDeque.step ok d (.push side value)).1, L', r.2) ∧
      Represents r.2 others L' l' ∧ l'.IsDeque (SharedDeque.step ok d (.push side value)).2 := by
  have hnew := SharedList.newNode_item ok value (l.nextOrd side) g.dsa
  have hlen : L.length = d.length := by
    rw [hr.length, hr.count, ← hd.items, List.length_map]
  obtain ⟨o, g'⟩ := r
  rw [SharedList.push] at hrel
  simp only [SharedDeque.step]
  split_ifs at hnew ⊢
  · obtain ⟨n, hn, hbytes, hord⟩ := hnew
    rw [hn, Option.map_some] at hrel
    cases hrel with
    | some hr' =>
      refine ⟨_, _, congrArg (fun k : ℤ => (SharedListReply.length k, _, g')) ?_, hr', ?_⟩
      · rw [hr'.length]
        cases side <;> exact congrArg (· + 1) (hr.length.symm.trans hlen)
      · cases side with
        | left => exact hd.attach_left hbytes hord
        | right => exact hd.attach_right hbytes hord
  · rw [hnew, Option.map_none] at hrel
    cases hrel with
    | none => exact ⟨l, L, rfl, hnone rfl, hd⟩

/-- One operation, whichever allocations fail. -/
theorem Represents.step (hr : Represents g others L l) (hd : l.IsDeque d) (ok : NodeSite → Bool)
    (op : ListOp) :
    ∃ L' l' g', SharedListMeta.step ok L g op = some ((SharedDeque.step ok d op).1, L', g') ∧
      Represents g' others L' l' ∧ l'.IsDeque (SharedDeque.step ok d op).2 ∧
      Segment.Same others g g' := by
  cases op with
  | push side value =>
    obtain ⟨o, g', h, hrel, hsame, hnone⟩ : ∃ o g',
        SharedListMeta.step ok L g (.push side value) =
          some (SharedListMeta.pushed side L (o, g')) ∧
        Option.Rel (Represents g' others) o (l.push side ok value g.dsa).2 ∧
        Segment.Same others g g' ∧ (o = none → Represents g' others L l) := by
      cases side with
      | left =>
        obtain ⟨o, g', h, -, hrest⟩ := hr.lpush ok value
        exact ⟨o, g', Option.map_eq_some_iff.2 ⟨_, h, rfl⟩, hrest⟩
      | right =>
        obtain ⟨o, g', h, -, hrest⟩ := hr.rpush ok value
        exact ⟨o, g', Option.map_eq_some_iff.2 ⟨_, h, rfl⟩, hrest⟩
    obtain ⟨l', L', hpushed, hr', hd'⟩ := hr.pushed hd side ok value (r := (o, g')) hrel hnone
    exact ⟨L', l', g', h.trans (congrArg some hpushed), hr', hd', hsame⟩
  -- From an empty list nothing is popped; else the node at that end is the deque's.
  | pop side =>
    cases side with
    | left =>
      cases hl : l.nodes with
      | nil =>
        obtain rfl : d = [] := by rw [← hd.items, hl]; rfl
        exact ⟨L, l, g, Option.map_eq_some_iff.2 ⟨_, hr.lpop_nil hl, rfl⟩, hr, hd, .refl _ g⟩
      | cons n nodes =>
        obtain ⟨L', g', h, hr', hsame⟩ := hr.lpop hl
        obtain ⟨hhead, hd'⟩ := hd.detach_left hl
        refine ⟨L', _, g', ?_, hr', hd', hsame⟩
        simp only [SharedDeque.step, hhead]
        exact Option.map_eq_some_iff.2 ⟨_, h, rfl⟩
    | right =>
      rcases List.eq_nil_or_concat l.nodes with hl | ⟨nodes, n, hl⟩
      · obtain rfl : d = [] := by rw [← hd.items, hl]; rfl
        exact ⟨L, l, g, Option.map_eq_some_iff.2 ⟨_, hr.rpop_nil hl, rfl⟩, hr, hd, .refl _ g⟩
      · rw [List.concat_eq_append] at hl
        obtain ⟨L', g', h, hr', hsame⟩ := hr.rpop hl
        obtain ⟨hlast, hd'⟩ := hd.detach_right hl
        refine ⟨L', _, g', ?_, hr', hd', hsame⟩
        simp only [SharedDeque.step, hlast]
        exact Option.map_eq_some_iff.2 ⟨_, h, rfl⟩

theorem Represents.run (ops : List (ListOp × (NodeSite → Bool))) :
    ∀ {g : Segment} {L : SharedListMeta} {l : SharedList} {d : List (Bytes × ℤ)},
      Represents g others L l → l.IsDeque d →
      ∃ L' l' g', SharedListMeta.run ops L g = some ((SharedDeque.run ops d).1, L', g') ∧
        Represents g' others L' l' ∧ l'.IsDeque (SharedDeque.run ops d).2 ∧
        Segment.Same others g g' := by
  induction ops with
  | nil => exact fun {g L l d} hr hd => ⟨L, l, g, rfl, hr, hd, .refl _ g⟩
  | cons op ops ih =>
    intro g L l d hr hd
    obtain ⟨L₁, l₁, g₁, h₁, hr₁, hd₁, hsame₁⟩ := hr.step hd op.2 op.1
    obtain ⟨L₂, l₂, g₂, h₂, hr₂, hd₂, hsame₂⟩ := ih hr₁ hd₁
    refine ⟨L₂, l₂, g₂, ?_, hr₂, hd₂, hsame₁.trans hsame₂⟩
    simp only [SharedListMeta.run, Option.bind_eq_bind, h₁, Option.bind_some, h₂]
    rfl

end SharedListMeta

end PgRedis
