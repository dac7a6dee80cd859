import PgRedis.SharedHash
import PgRedis.ListValue

/-!
# Lists in shared memory

The list of `shared_list.c`: nodes in chunks of shared memory, from head to tail,
each with an ordinal. A list is only ever built by pushes at its right end from the
empty list (`pushAll`), which number the nodes from zero, and read back as a list of
the backend (`materialize`). The length of a value is kept in 16 bits, so that of a
longer value only a part is read back (`clip`).
-/

namespace PgRedis

/-- What is read back of a value whose length is kept as a `uint16`. -/
def clip (value : Bytes) : Bytes := value.take (value.length % 2 ^ 16)

theorem length_clip (value : Bytes) : (clip value).length = value.length % 2 ^ 16 := by
  rw [clip, List.length_take]
  exact Nat.min_eq_left (Nat.mod_le _ _)

theorem clip_eq_self {value : Bytes} : clip value = value ↔ value.length ≤ uint16Max := by
  rw [uint16Max]
  constructor
  · intro h
    have hlen := length_clip value
    rw [h] at hlen
    omega
  · intro h
    rw [clip, Nat.mod_eq_of_lt (by omega), List.take_length]

@[simp] theorem clip_clip (value : Bytes) : clip (clip value) = clip value := by
  rw [clip_eq_self, length_clip, uint16Max]
  omega

/-- The allocations of a push. -/
inductive NodeSite
  | node
  | value
  deriving DecidableEq, Repr

/-- `PgRedisSharedListNode` with its chunk and the bytes written to that of the value;
    the links are the order of the nodes. -/
structure SharedNode where
  dsa : ℕ
  ord : ℤ
  valueLen : UInt16
  valueDsa : Option ℕ
  value : Bytes
  deriving DecidableEq, Repr

/-- The bytes read back from a node. -/
def SharedNode.bytes (n : SharedNode) : Bytes := n.value.take n.valueLen.toNat

@[simp] theorem SharedNode.clip_bytes (n : SharedNode) : clip n.bytes = n.bytes := by
  rw [clip_eq_self, bytes, List.length_take, uint16Max]
  have := n.valueLen.toNat_lt
  omega

/-- The node read back: durable, and not to be inserted. -/
def SharedNode.toNode (n : SharedNode) : ListNode := ⟨n.bytes, n.ord, false⟩

/-- `PgRedisSharedListMeta` with the nodes from its head. -/
structure SharedList where
  nodes : List SharedNode
  length : ℤ
  minOrd : ℤ
  maxOrd : ℤ
  ordInitialized : Bool
  deriving DecidableEq, Repr

namespace SharedList

/-- The empty list. -/
def empty : SharedList := ⟨[], 0, 0, -1, false⟩

/-- `new_node`: `none` for a failed allocation. -/
def newNode (ok : NodeSite → Bool) (value : Bytes) (ord : ℤ) (d : Dsa) : Dsa × Option SharedNode :=
  if ok .node then
    if value.length > 0 ∧ ok .value = false then (d.palloc.2.pfree (some d.palloc.1), none)
    else
      let chunk := SharedHash.allocValue value d.palloc.2
      (chunk.2, some ⟨d.palloc.1, ord, UInt16.ofNat value.length, chunk.1, value⟩)
  else (d, none)

/-- `pg_redis_shared_list_rpush`: `none` when out of memory. -/
def rpush (ok : NodeSite → Bool) (value : Bytes) (l : SharedList) (d : Dsa) :
    Dsa × Option SharedList :=
  let ord := if l.ordInitialized then l.maxOrd + 1 else 0
  match newNode ok value ord d with
  | (d, none) => (d, none)
  | (d, some n) => (d, some
    { nodes := l.nodes ++ [n]
      length := l.length + 1
      minOrd := if l.ordInitialized then l.minOrd else ord
      maxOrd := ord
      ordInitialized := true })

/-- `free_node`. -/
def freeNode (d : Dsa) (n : SharedNode) : Dsa := (d.pfree n.valueDsa).pfree (some n.dsa)

/-- `pg_redis_shared_list_free`. -/
def free (l : SharedList) (d : Dsa) : Dsa := l.nodes.foldl freeNode d

/-- Values pushed one after the other. When one fails, all that was pushed is freed. -/
def pushAll (ok : ℕ → NodeSite → Bool) : List Bytes → SharedList → Dsa → Dsa × Option SharedList
  | [], l, d => (d, some l)
  | v :: vs, l, d => match l.rpush (ok l.nodes.length) v d with
    | (d, none) => (l.free d, none)
    | (d, some l) => pushAll ok vs l d

/-- The body of the loop of `pg_redis_shared_list_materialize`: a push, the ordinal of
    the node in the place of that of the push, and nothing to insert. -/
def materializeNode (l : ListValue) (n : SharedNode) : ListValue :=
  { l.rpush n.bytes with nodes := l.nodes ++ [⟨n.bytes, n.ord, false⟩] }

/-- `pg_redis_shared_list_materialize`: `none` for `NULL`. -/
def materialize (l : SharedList) : Option ListValue :=
  if l.nodes = [] then none
  else some { l.nodes.foldl materializeNode .create with
    minOrd := l.minOrd
    maxOrd := l.maxOrd
    ordInitialized := l.ordInitialized }

/-! ## The list built -/

/-- The values of the list. -/
def values (l : SharedList) : List Bytes := l.nodes.map SharedNode.bytes

/-- The ordinals of the list count its nodes from zero. -/
structure Numbered (l : SharedList) : Prop where
  ords : l.nodes.map SharedNode.ord = (List.range l.nodes.length).map Int.ofNat
  length : l.length = l.nodes.length
  min : l.minOrd = 0
  max : l.maxOrd = l.nodes.length - 1
  initialized : l.ordInitialized = true ↔ l.nodes ≠ []

theorem numbered_empty : empty.Numbered := ⟨rfl, rfl, rfl, rfl, by simp [empty]⟩

variable {l l' : SharedList} {d : Dsa} {ok : NodeSite → Bool}

/-- A push on a numbered list takes the next number. -/
theorem Numbered.rpush (h : l.Numbered) (hok : ∀ site, ok site = true) (value : Bytes) :
    ∃ d' l', l.rpush ok value d = (d', some l') ∧ l'.Numbered ∧
      l'.values = l.values ++ [clip value] := by
  have hord : (if l.ordInitialized then l.maxOrd + 1 else 0) = (l.nodes.length : ℤ) := by
    have hi := h.initialized
    split_ifs with hinit
    · rw [h.max]
      omega
    · rw [Bool.not_eq_true] at hinit
      simp only [hinit, Bool.false_eq_true, ne_eq, false_iff, not_not] at hi
      rw [hi]
      rfl
  have hmin : (if l.ordInitialized then l.minOrd else (l.nodes.length : ℤ)) = 0 := by
    split_ifs with hinit
    · exact h.min
    · rw [if_neg hinit] at hord
      exact hord.symm
  have hnew : ∀ ord, newNode ok value ord d = ((SharedHash.allocValue value d.palloc.2).2, some
      ⟨d.palloc.1, ord, UInt16.ofNat value.length, (SharedHash.allocValue value d.palloc.2).1,
        value⟩) := fun ord => by simp [newNode, hok]
  refine ⟨_, _, by rw [SharedList.rpush, hord, hmin, hnew], ⟨?_, ?_, rfl, ?_, by simp⟩, ?_⟩
  · simp [h.ords, List.range_succ]
  · simp [h.length]
  · simp
  · simp [values, SharedNode.bytes, clip]

/-- The values pushed follow those of the list. -/
theorem Numbered.pushAll {ok : ℕ → NodeSite → Bool} (hok : ∀ i site, ok i site = true) :
    ∀ (vs : List Bytes) {l : SharedList} {d : Dsa}, l.Numbered →
      ∃ d' l', SharedList.pushAll ok vs l d = (d', some l') ∧ l'.Numbered ∧
        l'.values = l.values ++ vs.map clip
  | [], l, d, h => ⟨d, l, rfl, h, by simp⟩
  | v :: vs, l, d, h => by
    obtain ⟨d₁, l₁, h₁, hn₁, hv₁⟩ := h.rpush (d := d) (hok l.nodes.length) v
    obtain ⟨d₂, l₂, h₂, hn₂, hv₂⟩ := Numbered.pushAll hok vs (d := d₁) hn₁
    refine ⟨d₂, l₂, by rw [SharedList.pushAll, h₁]; exact h₂, hn₂, ?_⟩
    rw [hv₂, hv₁, List.map_cons, List.append_assoc, List.singleton_append]

/-! ## The list read back -/

theorem foldl_materializeNode (nodes : List SharedNode) (a : ListValue) :
    (nodes.foldl materializeNode a).nodes = a.nodes ++ nodes.map SharedNode.toNode ∧
      (nodes.foldl materializeNode a).pendingDeleteOrds = a.pendingDeleteOrds := by
  induction nodes generalizing a with
  | nil => exact ⟨(List.append_nil _).symm, rfl⟩
  | cons n nodes ih =>
    obtain ⟨hnodes, hdel⟩ := ih (materializeNode a n)
    refine ⟨?_, hdel⟩
    rw [List.foldl_cons, hnodes, List.map_cons, List.append_cons]
    rfl

/-- What is read back has the nodes of the list, none of them to be inserted. -/
theorem materialize_eq {a : ListValue} (h : l.materialize = some a) :
    a.nodes = l.nodes.map SharedNode.toNode ∧ a.pendingDeleteOrds = [] ∧ a.minOrd = l.minOrd ∧
      a.maxOrd = l.maxOrd ∧ a.ordInitialized = l.ordInitialized := by
  rw [materialize] at h
  split_ifs at h
  obtain ⟨hnodes, hdel⟩ := foldl_materializeNode l.nodes .create
  obtain rfl := Option.some.inj h
  exact ⟨hnodes, hdel, rfl, rfl, rfl⟩

theorem length_materialize {a : ListValue} (h : l.materialize = some a) :
    a.length = l.nodes.length := by
  have hfold : ∀ (nodes : List SharedNode) (a : ListValue),
      (nodes.foldl materializeNode a).length = a.length + nodes.length := by
    intro nodes
    induction nodes with
    | nil => exact fun a => (Int.add_zero _).symm
    | cons n nodes ih =>
      intro a
      rw [List.foldl_cons, ih, List.length_cons]
      simp only [materializeNode, ListValue.rpush]
      omega
  rw [materialize] at h
  split_ifs at h
  obtain rfl := Option.some.inj h
  exact (hfold l.nodes .create).trans (Int.zero_add _)

/-- The list a command works on: what is read back, or an empty list. -/
def scratch (l : SharedList) : ListValue := l.materialize.getD .create

theorem nodes_scratch (l : SharedList) : l.scratch.nodes = l.nodes.map SharedNode.toNode ∧
    l.scratch.pendingDeleteOrds = [] := by
  rw [scratch]
  cases h : l.materialize with
  | none =>
    rw [materialize] at h
    split_ifs at h with hnil
    rw [hnil]
    exact ⟨rfl, rfl⟩
  | some a => exact ⟨(materialize_eq h).1, (materialize_eq h).2.1⟩

/-- The ordinal that a push gets on the copy of a numbered list. -/
def pushOrd (l : SharedList) : Side → ℤ
  | .left => if l.nodes = [] then 0 else -1
  | .right => l.nodes.length

/-- The ordinal of the node at an end of a numbered list. -/
def popOrd (l : SharedList) : Side → ℤ
  | .left => 0
  | .right => l.nodes.length - 1

theorem Numbered.pushed_scratch (h : l.Numbered) (side : Side) (v : Bytes) :
    ListValue.pushed side l.scratch v = ⟨v, l.pushOrd side, true⟩ := by
  by_cases hnil : l.nodes = []
  · have hs : l.scratch = .create := by rw [scratch, materialize, if_pos hnil]; rfl
    cases side <;> simp [hs, ListValue.pushed, ListValue.create, pushOrd, hnil]
  · obtain ⟨a, ha⟩ : ∃ a, l.materialize = some a := ⟨_, if_neg hnil⟩
    obtain ⟨-, -, hmin, hmax, hinit⟩ := materialize_eq ha
    have hs : l.scratch = a := by rw [scratch, ha]; rfl
    have hi : a.ordInitialized = true := hinit.trans (h.initialized.2 hnil)
    cases side with
    | left => simp [hs, ListValue.pushed, pushOrd, hi, hmin, h.min, hnil]
    | right => simp [hs, ListValue.pushed, pushOrd, hi, hmax, h.max]

/-- The ordinal of a node popped from the copy. -/
theorem Numbered.ord_of_scratch (h : l.Numbered) {n : ListNode} {nodes : List ListNode}
    {side : Side} (hn : l.scratch.nodes = ListValue.atEnd n nodes side) :
    n.ord = l.popOrd side ∧ n.pendingInsert = false := by
  have hords : (ListValue.atEnd n nodes side).map ListNode.ord =
      (List.range l.nodes.length).map Int.ofNat := by
    rw [← hn, l.nodes_scratch.1, List.map_map]
    exact h.ords
  have hmem : n ∈ l.nodes.map SharedNode.toNode :=
    l.nodes_scratch.1 ▸ hn ▸ ListValue.mem_atEnd.2 (.inl rfl)
  obtain ⟨m, hm⟩ : ∃ m, l.nodes.length = m + 1 := by
    refine Nat.exists_eq_succ_of_ne_zero fun h0 => ?_
    rw [List.length_eq_zero_iff.1 h0] at hmem
    exact absurd hmem List.not_mem_nil
  refine ⟨?_, ?_⟩
  · rw [hm] at hords
    cases side with
    | left =>
      rw [ListValue.atEnd, List.map_cons, List.range_succ_eq_map, List.map_cons] at hords
      exact (List.cons.inj hords).1
    | right =>
      rw [ListValue.atEnd, List.map_append, List.range_succ, List.map_append] at hords
      have hlast := List.append_inj_right' hords rfl
      rw [popOrd, hm, (List.cons.inj hlast).1]
      simp
  · obtain ⟨m, -, rfl⟩ := List.mem_map.1 hmem
    rfl

end SharedList

end PgRedis
