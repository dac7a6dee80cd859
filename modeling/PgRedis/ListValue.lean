import PgRedis.HashValue

/-!
# Lists of the backend

The in-memory list of `list.c`: its nodes from head to tail, each with the
ordinal its durable row has or will have, and whether that row is still to be
inserted; and the ordinals of popped nodes whose rows are still to be deleted.

The ordinals count the pushes at either end and are taken as unbounded integers.
-/

namespace PgRedis

/-- `PgRedisListNode`. -/
structure ListNode where
  value : Bytes
  ord : ℤ
  pendingInsert : Bool
  deriving DecidableEq, Repr

/-- The size of a `PgRedisListNode`. -/
def sizeofListNode : UInt64 := 48

/-- `PgRedisList`. -/
structure ListValue where
  nodes : List ListNode
  length : ℤ
  memoryUsage : UInt64
  minOrd : ℤ
  maxOrd : ℤ
  ordInitialized : Bool
  pendingDeleteOrds : List ℤ
  deriving DecidableEq, Repr

/-- Which end of a list. -/
inductive Side
  | left
  | right
  deriving DecidableEq, Repr

namespace ListValue

/-- `pg_redis_list_create`. -/
def create : ListValue := ⟨[], 0, 0, 0, -1, false, []⟩

/-- `pg_redis_list_lpush`: the list; its length is the reply. -/
def lpush (l : ListValue) (value : Bytes) : ListValue where
  nodes := ⟨value, if l.ordInitialized then l.minOrd - 1 else 0, true⟩ :: l.nodes
  length := l.length + 1
  memoryUsage := l.memoryUsage + (sizeofListNode + byteSize value)
  minOrd := if l.ordInitialized then l.minOrd - 1 else 0
  maxOrd := if l.ordInitialized then l.maxOrd else 0
  ordInitialized := true
  pendingDeleteOrds := l.pendingDeleteOrds

/-- `pg_redis_list_rpush`. -/
def rpush (l : ListValue) (value : Bytes) : ListValue where
  nodes := l.nodes ++ [⟨value, if l.ordInitialized then l.maxOrd + 1 else 0, true⟩]
  length := l.length + 1
  memoryUsage := l.memoryUsage + (sizeofListNode + byteSize value)
  minOrd := if l.ordInitialized then l.minOrd else 0
  maxOrd := if l.ordInitialized then l.maxOrd + 1 else 0
  ordInitialized := true
  pendingDeleteOrds := l.pendingDeleteOrds

/-- The bookkeeping of a pop of node `n`: the counters, and a deletion recorded if
    the node was durable (`record_pending_delete`). -/
def forget (l : ListValue) (n : ListNode) : ListValue :=
  { l with
    length := l.length - 1
    memoryUsage :=
      if l.memoryUsage ≥ sizeofListNode + byteSize n.value then
        l.memoryUsage - (sizeofListNode + byteSize n.value)
      else l.memoryUsage
    pendingDeleteOrds :=
      if n.pendingInsert then l.pendingDeleteOrds else n.ord :: l.pendingDeleteOrds }

/-- A list drained by a pop: its ordinals are meaningless until the next push. -/
def drained (l : ListValue) : ListValue :=
  { l with nodes := [], ordInitialized := false, minOrd := 0, maxOrd := -1 }

/-- `pg_redis_list_lpop`: the value popped and the list, `none` when empty. -/
def lpop (l : ListValue) : Option (Bytes × ListValue) :=
  match l.nodes with
  | [] => none
  | [n] => some (n.value, (l.forget n).drained)
  | n :: h :: rest => some (n.value, { l.forget n with nodes := h :: rest, minOrd := h.ord })

/-- `pg_redis_list_rpop`. -/
def rpop (l : ListValue) : Option (Bytes × ListValue) :=
  match l.nodes.getLast? with
  | none => none
  | some n => match l.nodes.dropLast.getLast? with
    | none => some (n.value, (l.forget n).drained)
    | some t => some (n.value, { l.forget n with nodes := l.nodes.dropLast, maxOrd := t.ord })

/-- The push at one end. -/
def push : Side → ListValue → Bytes → ListValue
  | .left => lpush
  | .right => rpush

/-- The pop at one end. -/
def pop : Side → ListValue → Option (Bytes × ListValue)
  | .left => lpop
  | .right => rpop

/-! ## Ordinals -/

/-- The ordinals grow from head to tail, and the list knows the two at its ends. -/
structure Ordered (l : ListValue) : Prop where
  sorted : l.nodes.Pairwise fun n m => n.ord < m.ord
  initialized : l.ordInitialized = true ↔ l.nodes ≠ []
  min : ∀ n, l.nodes.head? = some n → l.minOrd = n.ord
  max : ∀ n, l.nodes.getLast? = some n → l.maxOrd = n.ord

theorem ordered_create : create.Ordered where
  sorted := .nil
  initialized := by simp [create]
  min n h := absurd h (by simp [create])
  max n h := absurd h (by simp [create])

variable {l l' : ListValue} {side : Side} {v : Bytes}

theorem Ordered.nodup (h : l.Ordered) : (l.nodes.map ListNode.ord).Nodup :=
  List.pairwise_map.2 (h.sorted.imp Int.ne_of_lt)

/-- An element put at one end of others. -/
def atEnd {α : Type} (n : α) (nodes : List α) : Side → List α
  | .left => n :: nodes
  | .right => nodes ++ [n]

theorem mem_atEnd {α : Type} {n m : α} {nodes : List α} :
    m ∈ atEnd n nodes side ↔ m = n ∨ m ∈ nodes := by
  cases side with
  | left => exact List.mem_cons
  | right => rw [atEnd, List.mem_append, List.mem_singleton, or_comm]

theorem map_atEnd {α β : Type} (f : α → β) (n : α) (nodes : List α) (side : Side) :
    (atEnd n nodes side).map f = atEnd (f n) (nodes.map f) side := by
  cases side with
  | left => rfl
  | right => exact List.map_append

theorem length_atEnd {α : Type} (n : α) (nodes : List α) (side : Side) :
    (atEnd n nodes side).length = nodes.length + 1 := by
  cases side with
  | left => rfl
  | right => rw [atEnd, List.length_append, List.length_singleton]

theorem filterMap_atEnd {α β : Type} (f : α → Option β) (n : α) (nodes : List α)
    (h : ∀ m ∈ nodes, f m = none) (side : Side) :
    (atEnd n nodes side).filterMap f = (f n).toList := by
  have hnil := List.filterMap_eq_nil_iff.2 h
  cases side with
  | left => rw [atEnd, List.filterMap_cons, hnil]; cases f n <;> rfl
  | right => rw [atEnd, List.filterMap_append, hnil]; cases h : f n <;> simp [h]

/-- The node of a push. -/
def pushed (side : Side) (l : ListValue) (v : Bytes) : ListNode :=
  ⟨v, match side with
    | .left => if l.ordInitialized then l.minOrd - 1 else 0
    | .right => if l.ordInitialized then l.maxOrd + 1 else 0, true⟩

theorem nodes_push : (push side l v).nodes = atEnd (pushed side l v) l.nodes side := by
  cases side <;> rfl

theorem mem_push {n : ListNode} :
    n ∈ (push side l v).nodes ↔ n = pushed side l v ∨ n ∈ l.nodes := by
  rw [nodes_push, mem_atEnd]

@[simp] theorem pendingDeleteOrds_push :
    (push side l v).pendingDeleteOrds = l.pendingDeleteOrds := by
  cases side <;> rfl

/-- The ends of an ordered list bound its ordinals. -/
theorem Ordered.bounds (h : l.Ordered) {n : ListNode} (hn : n ∈ l.nodes) :
    l.minOrd ≤ n.ord ∧ n.ord ≤ l.maxOrd := by
  constructor
  · obtain ⟨m, rest, hl⟩ := List.exists_cons_of_ne_nil (List.ne_nil_of_mem hn)
    have hs := h.sorted
    rw [hl, List.pairwise_cons] at hs
    rw [h.min m (by rw [hl]; rfl)]
    rcases List.mem_cons.1 (hl ▸ hn) with rfl | hr
    · exact Int.le_refl _
    · exact Int.le_of_lt (hs.1 n hr)
  · obtain ⟨rest, m, hl⟩ := (List.eq_nil_or_concat l.nodes).resolve_left (List.ne_nil_of_mem hn)
    rw [List.concat_eq_append] at hl
    have hs := h.sorted
    rw [hl, List.pairwise_append] at hs
    rw [h.max m (by rw [hl]; simp)]
    rcases List.mem_append.1 (hl ▸ hn) with hr | hr
    · exact Int.le_of_lt (hs.2.2 n hr m (by simp))
    · exact Int.le_of_eq (congrArg ListNode.ord (List.mem_singleton.1 hr))

theorem Ordered.isInitialized (h : l.Ordered) {n : ListNode} (hn : n ∈ l.nodes) :
    l.ordInitialized = true :=
  h.initialized.2 (List.ne_nil_of_mem hn)

/-- The node of a push at the left precedes the others, at the right follows them. -/
theorem Ordered.pushed_ord (h : l.Ordered) (side : Side) (v : Bytes) {n : ListNode}
    (hn : n ∈ l.nodes) :
    match side with
    | .left => (pushed side l v).ord < n.ord
    | .right => n.ord < (pushed side l v).ord := by
  have hi := h.isInitialized hn
  have hb := h.bounds hn
  cases side <;> simp only [pushed, hi, if_true] <;> omega

theorem Ordered.push (h : l.Ordered) : (push side l v).Ordered := by
  -- The new ordinal lies beyond those there are; in an empty list both bounds are the new one.
  cases side with
  | left =>
    refine ⟨?_, by simp [ListValue.push, lpush], ?_, fun n hn => ?_⟩
    · exact List.pairwise_cons.2 ⟨fun n hn => h.pushed_ord .left v hn, h.sorted⟩
    · rintro n ⟨⟩
      rfl
    · cases hl : l.nodes with
      | nil =>
        obtain rfl : pushed .left l v = n := by simpa [nodes_push, atEnd, hl] using hn
        have hi : l.ordInitialized = false := by simpa [hl] using h.initialized
        simp [ListValue.push, lpush, pushed, hi]
      | cons m rest =>
        have hi : l.ordInitialized = true := h.initialized.2 (by simp [hl])
        rw [nodes_push, atEnd, hl, List.getLast?_cons_cons, ← hl] at hn
        simpa [ListValue.push, lpush, hi] using h.max n hn
  | right =>
    refine ⟨?_, by simp [ListValue.push, rpush], fun n hn => ?_, fun n hn => ?_⟩
    · refine List.pairwise_append.2 ⟨h.sorted, List.pairwise_singleton _ _, fun n hn m hm => ?_⟩
      rw [List.mem_singleton.1 hm]
      exact h.pushed_ord .right v hn
    · cases hl : l.nodes with
      | nil =>
        obtain rfl : pushed .right l v = n := by simpa [nodes_push, atEnd, hl] using hn
        have hi : l.ordInitialized = false := by simpa [hl] using h.initialized
        simp [ListValue.push, rpush, pushed, hi]
      | cons m rest =>
        have hi : l.ordInitialized = true := h.initialized.2 (by simp [hl])
        rw [nodes_push, atEnd, hl] at hn
        simpa [ListValue.push, rpush, hi] using h.min n (by rw [hl]; exact hn)
    · rw [nodes_push, atEnd, List.getLast?_append, List.getLast?_singleton, Option.some_or,
        Option.some.injEq] at hn
      rw [← hn]
      rfl

theorem pendingDeleteOrds_forget (n : ListNode) : (l.forget n).pendingDeleteOrds =
    if n.pendingInsert then l.pendingDeleteOrds else n.ord :: l.pendingDeleteOrds := rfl

theorem exists_pop (side : Side) (h : l.nodes ≠ []) : ∃ v l', pop side l = some (v, l') := by
  cases side with
  | left =>
    rw [pop, lpop]
    rcases hl : l.nodes with _ | ⟨n, _ | ⟨m, rest⟩⟩
    · exact absurd hl h
    · exact ⟨_, _, rfl⟩
    · exact ⟨_, _, rfl⟩
  | right =>
    rw [pop, rpop, List.getLast?_eq_getLast_of_ne_nil h]
    cases l.nodes.dropLast.getLast? with
    | none => exact ⟨_, _, rfl⟩
    | some m => exact ⟨_, _, rfl⟩

/-- What a pop does: it takes the node at its end, and does the bookkeeping for it. -/
theorem pop_eq_some (h : pop side l = some (v, l')) :
    ∃ n, n.value = v ∧ l.nodes = atEnd n l'.nodes side ∧
      l'.pendingDeleteOrds = (l.forget n).pendingDeleteOrds ∧
      l'.length = (l.forget n).length ∧ l'.memoryUsage = (l.forget n).memoryUsage := by
  cases side with
  | left =>
    rw [pop, lpop] at h
    split at h
    · exact absurd h (by simp)
    all_goals
      obtain ⟨rfl, rfl⟩ := Prod.mk.inj (Option.some.inj h)
      exact ⟨_, rfl, ‹_›, rfl, rfl, rfl⟩
  | right =>
    rw [pop, rpop] at h
    split at h
    · exact absurd h (by simp)
    · rename_i n hn
      have hnodes : l.nodes = l.nodes.dropLast ++ [n] :=
        (List.dropLast_append_getLast? n hn).symm
      split at h <;> obtain ⟨rfl, rfl⟩ := Prod.mk.inj (Option.some.inj h)
      · rename_i ht
        rw [List.getLast?_eq_none_iff] at ht
        exact ⟨n, rfl, by rw [hnodes, ht]; rfl, rfl, rfl, rfl⟩
      · exact ⟨n, rfl, hnodes, rfl, rfl, rfl⟩

/-- The pop at the right of a list whose last node is given. -/
theorem rpop_append {nodes : List ListNode} {n : ListNode} (h : l.nodes = nodes ++ [n]) :
    l.rpop = match nodes.getLast? with
      | none => some (n.value, (l.forget n).drained)
      | some t => some (n.value, { l.forget n with nodes := nodes, maxOrd := t.ord }) := by
  simp only [rpop, h, List.getLast?_concat, List.dropLast_concat]

/-- The ordinal of a durable node popped is noted. -/
theorem exists_of_pop (h : pop side l = some (v, l')) :
    ∃ n, n.value = v ∧ l'.pendingDeleteOrds = (l.forget n).pendingDeleteOrds ∧
      l.nodes = atEnd n l'.nodes side := by
  obtain ⟨n, hv, hnodes, hords, -⟩ := pop_eq_some h
  exact ⟨n, hv, hords, hnodes⟩

theorem length_of_pop (h : pop side l = some (v, l')) : l'.length = l.length - 1 := by
  obtain ⟨n, -, -, -, hlen, -⟩ := pop_eq_some h
  exact hlen

theorem Ordered.pop (hl : l.Ordered) (h : pop side l = some (v, l')) : l'.Ordered := by
  -- The bound at that end moves to the next node; a drained list has none.
  cases side with
  | left =>
    rw [ListValue.pop, lpop] at h
    split at h
    · exact absurd h (by simp)
    · obtain ⟨rfl, rfl⟩ := Prod.mk.inj (Option.some.inj h)
      exact ⟨.nil, by simp [drained], by simp [drained], by simp [drained]⟩
    · rename_i n m rest hn
      obtain ⟨rfl, rfl⟩ := Prod.mk.inj (Option.some.inj h)
      have hs := hl.sorted
      rw [hn, List.pairwise_cons] at hs
      refine ⟨hs.2, ?_, fun k hk => ?_, fun k hk => ?_⟩
      · simpa [forget] using hl.initialized.2 (by simp [hn])
      · exact congrArg ListNode.ord (Option.some.inj hk)
      · refine hl.max k ?_
        rw [hn, List.getLast?_cons_cons]
        exact hk
  | right =>
    rw [ListValue.pop, rpop] at h
    split at h
    · exact absurd h (by simp)
    · rename_i n hn
      split at h <;> obtain ⟨rfl, rfl⟩ := Prod.mk.inj (Option.some.inj h)
      · exact ⟨.nil, by simp [drained], by simp [drained], by simp [drained]⟩
      · rename_i t ht
        have hne : l.nodes.dropLast ≠ [] := fun h0 => by simp [h0] at ht
        refine ⟨hl.sorted.sublist (List.dropLast_sublist _), ?_, fun k hk => ?_, fun k hk => ?_⟩
        · simpa [forget, hne] using hl.initialized.2 (by rintro h0; simp [h0] at hne)
        · refine hl.min k ?_
          rw [← List.dropLast_append_getLast? n hn, List.head?_append_of_ne_nil _ hne]
          exact hk
        · exact congrArg ListNode.ord (Option.some.inj (ht.symm.trans hk))

/-- The nodes left by a pop of `n` are those of another ordinal. -/
theorem Ordered.mem_of_nodes (hl : l.Ordered) {n : ListNode}
    (h : l.nodes = atEnd n l'.nodes side) {m : ListNode} :
    m ∈ l'.nodes ↔ m ∈ l.nodes ∧ m.ord ≠ n.ord := by
  have hs := hl.sorted
  cases side with
  | left =>
    rw [h, atEnd, List.pairwise_cons] at hs
    rw [h, mem_atEnd]
    refine ⟨fun hm => ⟨.inr hm, Int.ne_of_gt (hs.1 m hm)⟩, fun ⟨hm, hne⟩ => ?_⟩
    exact hm.resolve_left fun h0 => hne (congrArg ListNode.ord h0)
  | right =>
    rw [h, atEnd, List.pairwise_append] at hs
    rw [h, mem_atEnd]
    refine ⟨fun hm => ⟨.inr hm, Int.ne_of_lt (hs.2.2 m hm n (by simp))⟩, fun ⟨hm, hne⟩ => ?_⟩
    exact hm.resolve_left fun h0 => hne (congrArg ListNode.ord h0)

end ListValue

end PgRedis
