import PgRedis.Cell
import PgRedis.Lib.DoublyLinked
import PgRedis.Session.Deltas

/-!
# The linked list of the backend

The list of `list.c` as it is in memory: nodes that link to each other in both directions, each
with a buffer for its value, taken from an allocator and given back to it. An operation that
follows a null pointer, or one to memory freed before, is `none`.

`ListValue` has the nodes as a list, in the order in which they are linked.
`LinkedList.Represents` relates the two and is kept by every operation (`Represents.step`), so
that a run never faults and replies as a deque of values does (`LinkedList.deque_of_run`).
The list has its nodes and buffers, and nothing else of the memory (`LinkedList.frame_of_run`),
and gives them back when it is freed (`LinkedList.freeNodes_of_run`).
-/

namespace PgRedis

open Lib

/-- The address of a chunk of memory. -/
abbrev Addr := ℕ

/-- `PgRedisList`. The ordinals to delete, a chain of `PgRedisOrdNode`, are given in its order. -/
structure LinkedList where
  head : Option Addr
  tail : Option Addr
  length : ℤ
  memoryUsage : UInt64
  minOrd : ℤ
  maxOrd : ℤ
  ordInitialized : Bool
  pendingDeleteOrds : List ℤ
  deriving DecidableEq, Repr

namespace LinkedList

/-- `PgRedisListNode`. -/
structure Node where
  value : Option Addr
  valueLen : ℕ
  ord : ℤ
  pendingInsert : Bool
  prev : Option Addr
  next : Option Addr
  deriving DecidableEq, Repr

/-- A chunk of memory in use. -/
inductive Chunk
  | node (x : Node)
  | buffer (bytes : Bytes)
  deriving DecidableEq, Repr

/-- The memory: the chunks in use, and how often `palloc` was called. -/
structure Memory where
  chunks : Htab Addr Chunk
  calls : ℕ

/-- The allocator: where the chunk of a call is, given the addresses in use. It may use
    an address again that was given back. -/
structure Palloc where
  addr : ℕ → List Addr → Addr
  fresh : ∀ n used, addr n used ∉ used

/-- An allocator that never uses an address again below the highest one in use. -/
instance : Inhabited Palloc where
  default :=
    { addr := fun _ used => used.max?.getD 0 + 1
      fresh := fun _ _ hmem =>
        absurd (List.le_max?_getD_of_mem hmem) (Nat.not_succ_le_self _) }

/-- What an operation gives back: the new length, or the copy of a value and `*out_len`. -/
inductive Reply
  | length (n : ℤ)
  | value (out : Option Bytes) (outLen : ℕ)
  deriving DecidableEq, Repr

namespace Memory

/-- The chunk at an address. -/
def chunk (m : Memory) (p : Addr) : Option Chunk := m.chunks.lookup p

/-- The node at an address. -/
def node (m : Memory) (p : Addr) : Option Node :=
  match m.chunk p with
  | some (.node x) => some x
  | _ => none

/-- Writing to a chunk. -/
def store (p : Addr) (c : Chunk) (m : Memory) : Memory := { m with chunks := m.chunks.insert p c }

/-- `palloc`, and what is written to the chunk at once. -/
def palloc (a : Palloc) (c : Chunk) (m : Memory) : Addr × Memory :=
  (a.addr m.calls m.chunks.keys,
    ⟨m.chunks.insert (a.addr m.calls m.chunks.keys) c, m.calls + 1⟩)

/-- `pfree`. -/
def pfree (p : Addr) (m : Memory) : Option Memory :=
  (m.chunk p).map fun _ => { m with chunks := m.chunks.erase p }

/-- Writing to fields of the node at an address. -/
def modify (p : Addr) (f : Node → Node) (m : Memory) : Option Memory :=
  (m.node p).map fun x => m.store p (.node (f x))

/-- Writing to fields of the node a link goes to, if it goes to one. -/
def modifyLink (o : Option Addr) (f : Node → Node) (m : Memory) : Option Memory :=
  match o with
  | none => some m
  | some p => m.modify p f

/-- The first `len` bytes of the buffer at an address. -/
def bytes (p : Addr) (len : ℕ) (m : Memory) : Option Bytes :=
  match m.chunk p with
  | some (.buffer b) => if len ≤ b.length then some (b.take len) else none
  | _ => none

end Memory

/-- `pg_redis_list_create`. -/
def create : LinkedList := ⟨none, none, 0, 0, 0, -1, false, []⟩

/-- `new_node`. -/
def newNode (a : Palloc) (value : Bytes) (m : Memory) : Option (Addr × Memory) := do
  let (n, m) := m.palloc a (.node ⟨none, 0, 0, false, none, none⟩)
  let (b, m) := m.palloc a (.buffer (value ++ [0]))
  let m ← m.modify n fun x => { x with value := some b, valueLen := value.length }
  some (n, m)

/-- `pg_redis_list_lpush`. -/
def lpush (a : Palloc) (value : Bytes) (l : LinkedList) (m : Memory) :
    Option (Reply × LinkedList × Memory) := do
  let (n, m) ← newNode a value m
  let l := { l with
    minOrd := if l.ordInitialized then l.minOrd - 1 else 0
    maxOrd := if l.ordInitialized then l.maxOrd else 0
    ordInitialized := true }
  let m ← m.modify n fun x => { x with ord := l.minOrd, pendingInsert := true, next := l.head }
  let m ← m.modifyLink l.head fun x => { x with prev := some n }
  let l := { l with
    head := some n
    tail := if l.tail = none then some n else l.tail
    length := l.length + 1
    memoryUsage := l.memoryUsage + (sizeofListNode + byteSize value) }
  some (.length l.length, l, m)

/-- `pg_redis_list_rpush`. -/
def rpush (a : Palloc) (value : Bytes) (l : LinkedList) (m : Memory) :
    Option (Reply × LinkedList × Memory) := do
  let (n, m) ← newNode a value m
  let l := { l with
    minOrd := if l.ordInitialized then l.minOrd else 0
    maxOrd := if l.ordInitialized then l.maxOrd + 1 else 0
    ordInitialized := true }
  let m ← m.modify n fun x => { x with ord := l.maxOrd, pendingInsert := true, prev := l.tail }
  let m ← m.modifyLink l.tail fun x => { x with next := some n }
  let l := { l with
    tail := some n
    head := if l.head = none then some n else l.head
    length := l.length + 1
    memoryUsage := l.memoryUsage + (sizeofListNode + byteSize value) }
  some (.length l.length, l, m)

/-- `detach_value`: the copy of the value, whose chunk is the caller's, and `*out_len`. A null
    value of some length would leave the copy without content. -/
def detachValue (n : Addr) (m : Memory) : Option (Bytes × ℕ × Memory) := do
  let x ← m.node n
  let (out, m) ← match x.value with
    | none => if x.valueLen = 0 then some ([], m) else none
    | some b => do
      let out ← m.bytes b x.valueLen
      let m ← m.pfree b
      some (out, m)
  let m ← m.modify n fun x => { x with value := none }
  some (out ++ [0], x.valueLen, m)

/-- `record_pending_delete`. -/
def recordPendingDelete (x : Node) (l : LinkedList) : LinkedList :=
  { l with
    pendingDeleteOrds :=
      if x.pendingInsert then l.pendingDeleteOrds else x.ord :: l.pendingDeleteOrds }

/-- The bookkeeping at the end of a pop: of the length, and of the memory if it is enough. -/
def shrink (nodeBytes : UInt64) (l : LinkedList) : LinkedList :=
  { l with
    length := l.length - 1
    memoryUsage := if l.memoryUsage ≥ nodeBytes then l.memoryUsage - nodeBytes else l.memoryUsage }

/-- `pg_redis_list_lpop`. -/
def lpop (l : LinkedList) (m : Memory) : Option (Reply × LinkedList × Memory) :=
  match l.head with
  | none => some (.value none 0, l, m)
  | some n => do
    let x ← m.node n
    let (out, outLen, m) ← detachValue n m
    let l := recordPendingDelete x l
    let l := { l with head := x.next }
    let (l, m) ← match l.head with
      | none =>
        some ({ l with tail := none, ordInitialized := false, minOrd := 0, maxOrd := -1 }, m)
      | some h => do
        let m ← m.modify h fun x => { x with prev := none }
        let y ← m.node h
        some ({ l with minOrd := y.ord }, m)
    let m ← m.pfree n
    some (.value (some out) outLen, l.shrink (sizeofListNode + UInt64.ofNat x.valueLen), m)

/-- `pg_redis_list_rpop`. -/
def rpop (l : LinkedList) (m : Memory) : Option (Reply × LinkedList × Memory) :=
  match l.tail with
  | none => some (.value none 0, l, m)
  | some n => do
    let x ← m.node n
    let (out, outLen, m) ← detachValue n m
    let l := recordPendingDelete x l
    let l := { l with tail := x.prev }
    let (l, m) ← match l.tail with
      | none =>
        some ({ l with head := none, ordInitialized := false, minOrd := 0, maxOrd := -1 }, m)
      | some t => do
        let m ← m.modify t fun x => { x with next := none }
        let y ← m.node t
        some ({ l with maxOrd := y.ord }, m)
    let m ← m.pfree n
    some (.value (some out) outLen, l.shrink (sizeofListNode + UInt64.ofNat x.valueLen), m)

/-- The loop of `pg_redis_list_free` over the nodes, from a link on. -/
def freeNodes : ℕ → Option Addr → Memory → Option Memory
  | _, none, m => some m
  | 0, some _, _ => none
  | k + 1, some n, m => do
    let x ← m.node n
    let m ← match x.value with
      | none => some m
      | some b => m.pfree b
    let m ← m.pfree n
    freeNodes k x.next m

/-- One operation on the list. -/
def step (a : Palloc) (l : LinkedList) (m : Memory) :
    ListOp → Option (Reply × LinkedList × Memory)
  | .push .left value => lpush a value l m
  | .push .right value => rpush a value l m
  | .pop .left => lpop l m
  | .pop .right => rpop l m

/-- Operations one after the other, and their replies. -/
def run (a : Palloc) : List ListOp → LinkedList → Memory → Option (List Reply × LinkedList × Memory)
  | [], l, m => some ([], l, m)
  | op :: ops, l, m => do
    let (r, l, m) ← step a l m op
    let (rs, l, m) ← run a ops l m
    some (r :: rs, l, m)

/-! ## The memory

Each access in a few words: when it succeeds, and what the chunks are then. -/

namespace Memory

variable {m : Memory} {p : Addr} {x : Node}

theorem node_eq_some (h : m.chunk p = some (.node x)) : m.node p = some x := by
  rw [node, h]

/-- A call of `palloc` gives an address that was not in use. -/
theorem exists_palloc (a : Palloc) (c : Chunk) (m : Memory) :
    ∃ n m', m.palloc a c = (n, m') ∧ m.chunk n = none ∧
      m'.chunk = Function.update m.chunk n (some c) := by
  refine ⟨_, _, rfl, AList.lookup_eq_none.2 (a.fresh m.calls m.chunks.keys), ?_⟩
  funext q
  rw [chunk, Htab.lookup_insert_eq, Function.update_apply]
  rfl

theorem exists_pfree {c : Chunk} (h : m.chunk p = some c) :
    ∃ m', m.pfree p = some m' ∧ m'.chunk = Function.update m.chunk p none := by
  refine ⟨_, by rw [pfree, h, Option.map_some], ?_⟩
  funext q
  rw [chunk, Htab.lookup_erase_eq, Function.update_apply]
  rfl

theorem exists_modify (h : m.chunk p = some (.node x)) (f : Node → Node) :
    ∃ m', m.modify p f = some m' ∧ m'.chunk = Function.update m.chunk p (some (.node (f x))) := by
  refine ⟨_, by rw [modify, node_eq_some h, Option.map_some], ?_⟩
  funext q
  rw [chunk, store, Htab.lookup_insert_eq, Function.update_apply]
  rfl

end Memory

/-- A new node and its buffer are at two addresses that were not in use. -/
theorem exists_newNode (a : Palloc) (value : Bytes) (m : Memory) :
    ∃ n b m', newNode a value m = some (n, m') ∧ n ≠ b ∧ m.chunk n = none ∧ m.chunk b = none ∧
      m'.chunk = Function.update (Function.update m.chunk b (some (.buffer (value ++ [0])))) n
        (some (.node ⟨some b, value.length, 0, false, none, none⟩)) := by
  obtain ⟨n, m₁, h₁, hn, hm₁⟩ :=
    Memory.exists_palloc a (.node ⟨none, 0, 0, false, none, none⟩) m
  obtain ⟨b, m₂, h₂, hb, hm₂⟩ := Memory.exists_palloc a (.buffer (value ++ [0])) m₁
  have hnb : n ≠ b := by
    rintro rfl
    rw [hm₁, Function.update_self] at hb
    exact absurd hb (by simp)
  rw [hm₁, Function.update_of_ne hnb.symm] at hb
  have hx : m₂.chunk n = some (.node ⟨none, 0, 0, false, none, none⟩) := by
    rw [hm₂, hm₁, Function.update_of_ne hnb, Function.update_self]
  obtain ⟨m₃, h₃, hm₃⟩ := Memory.exists_modify hx
    fun x => { x with value := some b, valueLen := value.length }
  refine ⟨n, b, m₃, ?_, hnb, hn, hb, ?_⟩
  · simp only [newNode, h₁, h₂, h₃, Option.bind_eq_bind, Option.bind_some]
  · rw [hm₃, hm₂, hm₁, Function.update_comm hnb, Function.update_idem]

/-! ## Ownership

What the list has of the memory: for each node of the list two chunks, in any order. The rest of
the memory is as it was in the beginning (`base`). -/

/-- A node of the list: where it and its buffer are, and what they say. -/
structure Item where
  ptr : Addr
  buf : Addr
  node : ListNode

/-- The addresses of an item. -/
def Item.addrs (i : Item) : List Addr := [i.ptr, i.buf]

/-- The node of an item, but for its links. -/
def Item.cell (i : Item) (prev next : Option Addr) : Node :=
  ⟨some i.buf, i.node.value.length, i.node.ord, i.node.pendingInsert, prev, next⟩

/-- The memory has the node of an item and its buffer. -/
structure Holds (h : Addr → Option Chunk) (i : Item) : Prop where
  node : ∃ prev next, h i.ptr = some (.node (i.cell prev next))
  buffer : h i.buf = some (.buffer (i.node.value ++ [0]))

/-- The memory is `base` and the chunks of the items. -/
structure Owns (base h : Addr → Option Chunk) (items : List Item) : Prop where
  nodup : (items.flatMap Item.addrs).Nodup
  fresh : ∀ p ∈ items.flatMap Item.addrs, base p = none
  frame : ∀ p ∉ items.flatMap Item.addrs, h p = base p
  holds : ∀ i ∈ items, Holds h i

namespace Owns

variable {base h h' : Addr → Option Chunk} {items items' : List Item} {i : Item}

theorem nil (base : Addr → Option Chunk) : Owns base base [] where
  nodup := .nil
  fresh _ hp := absurd hp List.not_mem_nil
  frame _ _ := rfl
  holds _ hi := absurd hi List.not_mem_nil

theorem perm (ho : Owns base h items) (hp : items.Perm items') : Owns base h items' where
  nodup := (hp.flatMap_right Item.addrs).nodup_iff.1 ho.nodup
  fresh p hmem := ho.fresh p ((hp.flatMap_right Item.addrs).mem_iff.2 hmem)
  frame p hmem := ho.frame p (mt (hp.flatMap_right Item.addrs).mem_iff.1 hmem)
  holds j hj := ho.holds j (hp.mem_iff.2 hj)

/-- What is at an address of the list is in use. -/
theorem notMem (ho : Owns base h items) {p : Addr} (hp : h p = none) :
    p ∉ items.flatMap Item.addrs := by
  intro hmem
  obtain ⟨i, hi, hpi⟩ := List.mem_flatMap.1 hmem
  obtain ⟨⟨prev, next, hnode⟩, hbuffer⟩ := ho.holds i hi
  simp only [Item.addrs, List.mem_cons, List.not_mem_nil, or_false] at hpi
  rcases hpi with rfl | rfl
  · exact absurd (hp.symm.trans hnode) (by simp)
  · exact absurd (hp.symm.trans hbuffer) (by simp)

theorem ptr_mem (hi : i ∈ items) : i.ptr ∈ items.flatMap Item.addrs :=
  List.mem_flatMap.2 ⟨i, hi, List.mem_cons_self⟩

theorem buf_mem (hi : i ∈ items) : i.buf ∈ items.flatMap Item.addrs :=
  List.mem_flatMap.2 ⟨i, hi, List.mem_cons_of_mem _ List.mem_cons_self⟩

/-- Two chunks that were free are another item's. -/
theorem insert (ho : Owns base h items) (hne : i.ptr ≠ i.buf) (hptr : h i.ptr = none)
    (hbuf : h i.buf = none) (hholds : Holds h' i)
    (hkeep : ∀ p, p ≠ i.ptr → p ≠ i.buf → h' p = h p) : Owns base h' (i :: items) := by
  have hptr' := ho.notMem hptr
  have hbuf' := ho.notMem hbuf
  refine ⟨?_, fun p hp => ?_, fun p hp => ?_, fun j hj => ?_⟩
  · rw [List.flatMap_cons, Item.addrs, List.cons_append, List.cons_append, List.nil_append]
    refine List.nodup_cons.2 ⟨fun hmem => ?_, List.nodup_cons.2 ⟨hbuf', ho.nodup⟩⟩
    exact (List.mem_cons.1 hmem).elim hne hptr'
  · simp only [List.flatMap_cons, Item.addrs, List.mem_append, List.mem_cons, List.not_mem_nil,
      or_false] at hp
    rcases hp with (rfl | rfl) | hp
    · exact (ho.frame _ hptr').symm.trans hptr
    · exact (ho.frame _ hbuf').symm.trans hbuf
    · exact ho.fresh p hp
  · simp only [List.flatMap_cons, Item.addrs, List.mem_append, List.mem_cons, List.not_mem_nil,
      or_false, not_or] at hp
    rw [hkeep p hp.1.1 hp.1.2, ho.frame p hp.2]
  · rcases List.mem_cons.1 hj with rfl | hj
    · exact hholds
    · obtain ⟨⟨prev, next, hnode⟩, hbuffer⟩ := ho.holds j hj
      have hkept : ∀ p ∈ items.flatMap Item.addrs, h' p = h p := fun p hp =>
        hkeep p (ne_of_mem_of_not_mem hp hptr') (ne_of_mem_of_not_mem hp hbuf')
      exact ⟨⟨prev, next, (hkept _ (ptr_mem hj)).trans hnode⟩,
        (hkept _ (buf_mem hj)).trans hbuffer⟩

/-- Nodes keep their items when only their links change. -/
theorem relink (ho : Owns base h items) (hi : i ∈ items) (prev next : Option Addr) :
    Owns base (Function.update h i.ptr (some (.node (i.cell prev next)))) items where
  nodup := ho.nodup
  fresh := ho.fresh
  frame p hp := by
    rw [Function.update_of_ne (ne_of_mem_of_not_mem (ptr_mem hi) hp).symm, ho.frame p hp]
  holds j hj := by
    obtain ⟨⟨prev₀, next₀, hnode₀⟩, -⟩ := ho.holds i hi
    obtain ⟨⟨prev₁, next₁, hnode⟩, hbuffer⟩ := ho.holds j hj
    refine ⟨?_, ?_⟩
    · by_cases hij : j.ptr = i.ptr
      · -- Another item at the same address would have the same node.
        rw [hij, hnode₀, Option.some.injEq, Chunk.node.injEq] at hnode
        refine ⟨prev, next, ?_⟩
        rw [hij, Function.update_self]
        simp only [Item.cell, Node.mk.injEq] at hnode ⊢
        obtain ⟨hbuf, hlen, hord, hpending, -, -⟩ := hnode
        rw [hbuf, hlen, hord, hpending]
      · exact ⟨prev₁, next₁, by rw [Function.update_of_ne hij, hnode]⟩
    · rw [Function.update_of_ne, hbuffer]
      intro hij
      exact absurd (hnode₀.symm.trans (hij ▸ hbuffer)) (by simp)

/-- The two addresses of an item differ, and are not those of others. -/
theorem notMem_of_cons (ho : Owns base h (i :: items)) :
    i.ptr ≠ i.buf ∧ i.ptr ∉ items.flatMap Item.addrs ∧ i.buf ∉ items.flatMap Item.addrs := by
  have hnodup := ho.nodup
  rw [List.flatMap_cons, Item.addrs, List.cons_append, List.cons_append, List.nil_append,
    List.nodup_cons, List.mem_cons, not_or, List.nodup_cons] at hnodup
  exact ⟨hnodup.1.1, hnodup.1.2, hnodup.2.1⟩

/-- The chunks of an item are left to the rest of the memory. -/
theorem release (ho : Owns base h (i :: items)) :
    Owns (Function.update (Function.update base i.buf (h i.buf)) i.ptr (h i.ptr)) h items := by
  obtain ⟨-, hptr, hbuf⟩ := ho.notMem_of_cons
  refine ⟨(List.nodup_append.1 ho.nodup).2.1, fun p hp => ?_, fun p hp => ?_,
    fun j hj => ho.holds j (List.mem_cons_of_mem i hj)⟩
  · rw [Function.update_of_ne (ne_of_mem_of_not_mem hp hptr),
      Function.update_of_ne (ne_of_mem_of_not_mem hp hbuf)]
    exact ho.fresh p (List.mem_append_right _ hp)
  · rw [Function.update_apply, Function.update_apply]
    split_ifs with hp₁ hp₂
    · rw [hp₁]
    · rw [hp₂]
    · refine ho.frame p ?_
      simp [Item.addrs, hp₁, hp₂, hp]

/-- The chunks of an item are not part of the rest. -/
theorem update_release (ho : Owns base h (i :: items)) {c c' : Option Chunk} :
    Function.update (Function.update (Function.update (Function.update base i.buf c) i.ptr c')
      i.buf none) i.ptr none = base := by
  funext p
  simp only [Function.update_apply]
  split_ifs with hp hp'
  · rw [hp, ho.fresh _ (ptr_mem List.mem_cons_self)]
  · rw [hp', ho.fresh _ (buf_mem List.mem_cons_self)]
  · rfl

/-- What happens to the rest of the memory does not concern the list. -/
theorem update_frame (ho : Owns base h items) {p : Addr} (hp : p ∉ items.flatMap Item.addrs)
    (c : Option Chunk) : Owns (Function.update base p c) (Function.update h p c) items where
  nodup := ho.nodup
  fresh q hq := by
    rw [Function.update_of_ne (ne_of_mem_of_not_mem hq hp)]
    exact ho.fresh q hq
  frame q hq := by
    rw [Function.update_apply, Function.update_apply, ho.frame q hq]
  holds j hj := by
    obtain ⟨⟨prev, next, hnode⟩, hbuffer⟩ := ho.holds j hj
    refine ⟨⟨prev, next, ?_⟩, ?_⟩
    · rw [Function.update_of_ne (ne_of_mem_of_not_mem (ptr_mem hj) hp), hnode]
    · rw [Function.update_of_ne (ne_of_mem_of_not_mem (buf_mem hj) hp), hbuffer]

end Owns

/-! ## The two ends

What the operations at either end do to the memory is the same, with the links in the two
directions exchanged. -/

namespace Node

/-- The link away from an end. -/
def out : Side → Node → Option Addr
  | .left => next
  | .right => prev

/-- The link towards an end. -/
def back : Side → Node → Option Addr
  | .left => prev
  | .right => next

/-- What a push writes to the new node. -/
def attach (side : Side) (ord : ℤ) (o : Option Addr) (x : Node) : Node :=
  match side with
  | .left => { x with ord := ord, pendingInsert := true, next := o }
  | .right => { x with ord := ord, pendingInsert := true, prev := o }

/-- Setting the link towards an end. -/
def setBack (side : Side) (o : Option Addr) (x : Node) : Node :=
  match side with
  | .left => { x with prev := o }
  | .right => { x with next := o }

variable {x : Node} {side : Side} {o : Option Addr}

@[simp] theorem out_attach {ord : ℤ} : (x.attach side ord o).out side = o := by
  cases side <;> rfl

@[simp] theorem back_attach {ord : ℤ} {o' : Option Addr} :
    (x.attach side ord o').back side = x.back side := by
  cases side <;> rfl

@[simp] theorem out_setBack : (x.setBack side o).out side = x.out side := by
  cases side <;> rfl

@[simp] theorem back_setBack : (x.setBack side o).back side = o := by
  cases side <;> rfl

@[simp] theorem ord_setBack : (x.setBack side o).ord = x.ord := by
  cases side <;> rfl

end Node

/-- The link of the node in a chunk. -/
def linkOf (f : Node → Option Addr) : Option Chunk → Option Addr
  | some (.node x) => f x
  | _ => none

variable {f : Node → Option Addr} {h : Addr → Option Chunk} {p : Addr} {c : Option Chunk}

/-- A chunk that is replaced by one with the same link. -/
theorem linkOf_update_same (hc : linkOf f c = linkOf f (h p)) :
    linkOf f ∘ Function.update h p c = linkOf f ∘ h := by
  rw [Function.comp_update, hc]
  exact Function.update_eq_self p (linkOf f ∘ h)

/-- The links of the list in memory. -/
def links (l : LinkedList) (m : Memory) : DLinks Addr where
  head := l.head
  tail := l.tail
  next := linkOf Node.next ∘ m.chunk
  prev := linkOf Node.prev ∘ m.chunk

theorem Item.exists_setBack (i : Item) (prev next o : Option Addr) (side : Side) :
    ∃ prev' next', (i.cell prev next).setBack side o = i.cell prev' next' := by
  cases side with
  | left => exact ⟨o, next, rfl⟩
  | right => exact ⟨prev, o, rfl⟩

variable {base : Addr → Option Chunk} {m : Memory} {items : List Item} {i : Item}
  {nb : Option Item}

/-- The writes through the link to a neighbour. -/
theorem exists_modifyLink (ho : Owns base m.chunk items) (hnb : ∀ j ∈ nb, j ∈ items) (side : Side)
    (o : Option Addr) :
    ∃ m', m.modifyLink (nb.map Item.ptr) (Node.setBack side o) = some m' ∧
      Owns base m'.chunk items ∧
      (∀ p, (∀ j ∈ nb, j.ptr ≠ p) → m'.chunk p = m.chunk p) ∧
      (∀ j ∈ nb, ∃ y, m'.node j.ptr = some y ∧ y.ord = j.node.ord) ∧
      linkOf (Node.out side) ∘ m'.chunk = linkOf (Node.out side) ∘ m.chunk ∧
      linkOf (Node.back side) ∘ m'.chunk =
        DLinks.setLink (nb.map Item.ptr) o (linkOf (Node.back side) ∘ m.chunk) := by
  cases nb with
  | none =>
    exact ⟨m, rfl, ho, fun _ _ => rfl, fun j hj => absurd hj (by simp), rfl, rfl⟩
  | some j =>
    have hj := hnb j rfl
    obtain ⟨⟨prev, next, hnode⟩, -⟩ := ho.holds j hj
    obtain ⟨m', hm', hchunk⟩ := Memory.exists_modify hnode (Node.setBack side o)
    obtain ⟨prev', next', hcell⟩ := j.exists_setBack prev next o side
    -- Only the link back of the neighbour is written: its links out, value and ordinal are as
    -- before.
    refine ⟨m', hm', ?_, fun p hp => ?_, ?_, ?_, ?_⟩
    · rw [hchunk, hcell]
      exact ho.relink hj prev' next'
    · rw [hchunk, Function.update_of_ne (hp j rfl).symm]
    · rintro j' ⟨⟩
      refine ⟨_, Memory.node_eq_some (by rw [hchunk, Function.update_self]), ?_⟩
      rw [Node.ord_setBack]
      rfl
    · rw [hchunk]
      refine linkOf_update_same ?_
      rw [hnode]
      exact Node.out_setBack
    · rw [hchunk, Function.comp_update]
      simp only [linkOf, Node.back_setBack]
      rfl

/-- The memory of a push, next to the neighbour `nb`. -/
theorem exists_attach (a : Palloc) (value : Bytes) (ho : Owns base m.chunk items)
    (hnb : ∀ j ∈ nb, j ∈ items) (side : Side) (ord : ℤ) :
    ∃ n b m₁ m₂ m₃, newNode a value m = some (n, m₁) ∧
      m₁.modify n (Node.attach side ord (nb.map Item.ptr)) = some m₂ ∧
      m₂.modifyLink (nb.map Item.ptr) (Node.setBack side (some n)) = some m₃ ∧
      n ∉ items.map Item.ptr ∧ Owns base m₃.chunk (⟨n, b, value, ord, true⟩ :: items) ∧
      linkOf (Node.out side) ∘ m₃.chunk =
        Function.update (linkOf (Node.out side) ∘ m.chunk) n (nb.map Item.ptr) ∧
      linkOf (Node.back side) ∘ m₃.chunk = DLinks.setLink (nb.map Item.ptr) (some n)
        (Function.update (linkOf (Node.back side) ∘ m.chunk) n none) := by
  obtain ⟨n, b, m₁, h₁, hne, hn, hb, hm₁⟩ := exists_newNode a value m
  obtain ⟨m₂, h₂, hm₂⟩ := Memory.exists_modify (by rw [hm₁, Function.update_self])
    (Node.attach side ord (nb.map Item.ptr))
  rw [hm₁, Function.update_idem] at hm₂
  have ho₂ : Owns base m₂.chunk (⟨n, b, value, ord, true⟩ :: items) := by
    refine ho.insert hne hn hb ⟨?_, ?_⟩ fun p hp hp' => ?_
    · rw [hm₂, Function.update_self]
      cases side with
      | left => exact ⟨_, _, rfl⟩
      | right => exact ⟨_, _, rfl⟩
    · rw [hm₂, Function.update_of_ne hne.symm, Function.update_self]
    · rw [hm₂, Function.update_of_ne hp, Function.update_of_ne hp']
  obtain ⟨m₃, h₃, ho₃, -, -, hout, hback⟩ := exists_modifyLink ho₂
    (fun j hj => List.mem_cons_of_mem _ (hnb j hj)) side (some n)
  -- The buffer is at an address that had no link, and has none.
  have hbuf : ∀ f : Node → Option Addr, linkOf f ∘ m₂.chunk =
      Function.update (linkOf f ∘ m.chunk) n (linkOf f (m₂.chunk n)) := fun f => by
    rw [hm₂, Function.comp_update, Function.update_self, linkOf_update_same (by rw [hb]; rfl)]
  refine ⟨n, b, m₁, m₂, m₃, h₁, h₂, h₃, fun hmem => ?_, ho₃, ?_, ?_⟩
  · obtain ⟨j, hj, hjn⟩ := List.mem_map.1 hmem
    exact ho.notMem hn (hjn ▸ Owns.ptr_mem hj)
  · rw [hout, hbuf, hm₂, Function.update_self, linkOf, Node.out_attach]
  · -- A new node has no links of its own.
    have hnone : linkOf (Node.back side) (m₂.chunk n) = none := by
      rw [hm₂, Function.update_self, linkOf, Node.back_attach]
      cases side <;> rfl
    rw [hback, hbuf, hnone]

/-- The value of an item is handed over. -/
theorem exists_detachValue (ho : Owns base m.chunk (i :: items)) {prev next : Option Addr}
    (hnode : m.chunk i.ptr = some (.node (i.cell prev next))) :
    ∃ m', detachValue i.ptr m = some (i.node.value ++ [0], i.node.value.length, m') ∧
      m'.chunk = Function.update (Function.update m.chunk i.buf none) i.ptr
        (some (.node { i.cell prev next with value := none })) := by
  have hbuffer := (ho.holds i List.mem_cons_self).buffer
  have hne : i.ptr ≠ i.buf := fun heq => by
    rw [← heq, hnode] at hbuffer
    exact absurd hbuffer (by simp)
  obtain ⟨m₁, h₁, hm₁⟩ := Memory.exists_pfree hbuffer
  obtain ⟨m₂, h₂, hm₂⟩ := Memory.exists_modify (m := m₁) (p := i.ptr)
    (by rw [hm₁, Function.update_of_ne hne, hnode]) fun x => { x with value := none }
  have hbytes : m.bytes i.buf i.node.value.length = some i.node.value := by
    rw [Memory.bytes, hbuffer]
    simp
  refine ⟨m₂, ?_, by rw [hm₂, hm₁]⟩
  simp only [detachValue, Memory.node_eq_some hnode, Item.cell, hbytes, h₁, h₂,
    Option.bind_eq_bind, Option.bind_some]

/-- The memory of a pop of the item `i`, next to the neighbour `nb`. -/
theorem exists_detach (ho : Owns base m.chunk (i :: items)) (hnb : ∀ j ∈ nb, j ∈ items)
    (side : Side) :
    ∃ prev next m₁ m₂ m₃, m.chunk i.ptr = some (.node (i.cell prev next)) ∧
      detachValue i.ptr m = some (i.node.value ++ [0], i.node.value.length, m₁) ∧
      m₁.modifyLink (nb.map Item.ptr) (Node.setBack side none) = some m₂ ∧
      (∀ j ∈ nb, ∃ y, m₂.node j.ptr = some y ∧ y.ord = j.node.ord) ∧
      m₂.pfree i.ptr = some m₃ ∧ Owns base m₃.chunk items ∧
      linkOf (Node.out side) ∘ m₃.chunk =
        Function.update (linkOf (Node.out side) ∘ m.chunk) i.ptr none ∧
      linkOf (Node.back side) ∘ m₃.chunk = DLinks.setLink (nb.map Item.ptr) none
        (Function.update (linkOf (Node.back side) ∘ m.chunk) i.ptr none) := by
  obtain ⟨hne, hptr, hbuf⟩ := ho.notMem_of_cons
  obtain ⟨⟨prev, next, hnode⟩, hbuffer⟩ := ho.holds i List.mem_cons_self
  obtain ⟨m₁, h₁, hm₁⟩ := exists_detachValue ho hnode
  -- From here on the chunks of the item belong to the rest of the memory.
  have ho₁ := (ho.release.update_frame hbuf none).update_frame hptr
    (some (.node { i.cell prev next with value := none }))
  rw [← hm₁] at ho₁
  obtain ⟨m₂, h₂, ho₂, hkeep, hord, hout, hback⟩ := exists_modifyLink ho₁ hnb side none
  have hneq : ∀ j ∈ nb, j.ptr ≠ i.ptr := fun j hj =>
    ne_of_mem_of_not_mem (Owns.ptr_mem (hnb j hj)) hptr
  obtain ⟨m₃, h₃, hm₃⟩ := Memory.exists_pfree (m := m₂) (p := i.ptr)
    (by rw [hkeep i.ptr hneq, hm₁, Function.update_self])
  have ho₃ := ho₂.update_frame hptr none
  have hlinks : ∀ f : Node → Option Addr,
      f { i.cell prev next with value := none } = f (i.cell prev next) →
      linkOf f ∘ m₁.chunk = linkOf f ∘ m.chunk := fun f hf => by
    rw [hm₁, linkOf_update_same, linkOf_update_same]
    · rw [hbuffer]
      rfl
    · rw [Function.update_of_ne hne, hnode]
      exact hf
  refine ⟨prev, next, m₁, m₂, m₃, hnode, h₁, h₂, hord, h₃, ?_, ?_, ?_⟩
  · rw [Function.update_idem, ho.update_release, ← hm₃] at ho₃
    exact ho₃
  · rw [hm₃, Function.comp_update, hout, hlinks _ (by cases side <;> rfl)]
    rfl
  · rw [hm₃, Function.comp_update, hback, hlinks _ (by cases side <;> rfl)]
    cases nb with
    | none => rfl
    | some j => exact Function.update_comm (hneq j rfl) _ _ _

/-! ## The list in memory -/

/-- The list the nodes in memory stand for. -/
def value (l : LinkedList) (items : List Item) : ListValue where
  nodes := items.map Item.node
  length := l.length
  memoryUsage := l.memoryUsage
  minOrd := l.minOrd
  maxOrd := l.maxOrd
  ordInitialized := l.ordInitialized
  pendingDeleteOrds := l.pendingDeleteOrds

/-- What an operation on the list gives back. -/
def replyTo (v : ListValue) : ListOp → Reply
  | .push side value => .length (ListValue.push side v value).length
  | .pop side => match ListValue.pop side v with
    | none => .value none 0
    | some (out, _) => .value (some (out ++ [0])) out.length

/-- The list in memory has the items, linked in this order, and the rest is `base`. -/
structure Represents (base : Addr → Option Chunk) (m : Memory) (l : LinkedList)
    (items : List Item) : Prop where
  owns : Owns base m.chunk items
  links : (l.links m).IsList (items.map Item.ptr)

variable {l : LinkedList}

namespace Represents

theorem head_eq (hr : Represents base m l items) : l.head = items.head?.map Item.ptr := by
  rw [← List.head?_map]
  exact hr.links.head_eq

theorem tail_eq (hr : Represents base m l items) : l.tail = items.getLast?.map Item.ptr := by
  rw [← List.getLast?_map]
  exact hr.links.tail_eq

theorem next_eq (hr : Represents base m l (i :: items)) :
    (l.links m).next i.ptr = items.head?.map Item.ptr := by
  rw [hr.links.next_eq, List.head?_map]

theorem prev_eq (hr : Represents base m l (items ++ [i])) :
    (l.links m).prev i.ptr = items.getLast?.map Item.ptr := by
  have hlinks := hr.links
  rw [List.map_append] at hlinks
  rw [hlinks.prev_eq, List.getLast?_map]

theorem lpush (hr : Represents base m l items) (a : Palloc) (value : Bytes) :
    ∃ l' m' items', LinkedList.lpush a value l m =
        some (replyTo (l.value items) (.push .left value), l', m') ∧
      Represents base m' l' items' ∧
      l'.value items' = (l.value items).apply (.push .left value) := by
  obtain ⟨n, b, m₁, m₂, m₃, h₁, h₂, h₃, hn, ho, hnext, hprev⟩ := exists_attach a value hr.owns
    (fun j (hj : j ∈ items.head?) => List.mem_of_mem_head? hj) .left
    (if l.ordInitialized then l.minOrd - 1 else 0)
  rw [← hr.head_eq] at h₂ h₃ hnext hprev
  refine ⟨{ l with
    head := some n
    tail := if l.tail = none then some n else l.tail
    length := l.length + 1
    memoryUsage := l.memoryUsage + (sizeofListNode + byteSize value)
    minOrd := if l.ordInitialized then l.minOrd - 1 else 0
    maxOrd := if l.ordInitialized then l.maxOrd else 0
    ordInitialized := true }, m₃, _, ?_, ⟨ho, ?_⟩, rfl⟩
  · rw [LinkedList.lpush, h₁]
    simp only [Option.bind_eq_bind, Option.bind_some]
    exact Option.bind_eq_some_iff.2 ⟨m₂, h₂, Option.bind_eq_some_iff.2 ⟨m₃, h₃, rfl⟩⟩
  · exact (hr.links.pushFront hn).congr rfl rfl hnext hprev

theorem rpush (hr : Represents base m l items) (a : Palloc) (value : Bytes) :
    ∃ l' m' items', LinkedList.rpush a value l m =
        some (replyTo (l.value items) (.push .right value), l', m') ∧
      Represents base m' l' items' ∧
      l'.value items' = (l.value items).apply (.push .right value) := by
  obtain ⟨n, b, m₁, m₂, m₃, h₁, h₂, h₃, hn, ho, hprev, hnext⟩ := exists_attach a value hr.owns
    (fun j (hj : j ∈ items.getLast?) => List.mem_of_mem_getLast? hj) .right
    (if l.ordInitialized then l.maxOrd + 1 else 0)
  rw [← hr.tail_eq] at h₂ h₃ hnext hprev
  refine ⟨{ l with
    head := if l.head = none then some n else l.head
    tail := some n
    length := l.length + 1
    memoryUsage := l.memoryUsage + (sizeofListNode + byteSize value)
    minOrd := if l.ordInitialized then l.minOrd else 0
    maxOrd := if l.ordInitialized then l.maxOrd + 1 else 0
    ordInitialized := true }, m₃, _, ?_, ⟨ho.perm (List.perm_append_singleton _ _).symm, ?_⟩, ?_⟩
  · rw [LinkedList.rpush, h₁]
    simp only [Option.bind_eq_bind, Option.bind_some]
    exact Option.bind_eq_some_iff.2 ⟨m₂, h₂, Option.bind_eq_some_iff.2 ⟨m₃, h₃, rfl⟩⟩
  · rw [List.map_append]
    exact (hr.links.pushBack hn).congr rfl rfl hnext hprev
  · simp only [LinkedList.value, List.map_append]
    rfl

theorem lpop (hr : Represents base m l items) :
    ∃ l' m' items', LinkedList.lpop l m = some (replyTo (l.value items) (.pop .left), l', m') ∧
      Represents base m' l' items' ∧ l'.value items' = (l.value items).apply (.pop .left) := by
  rcases items with _ | ⟨i, rest⟩
  · refine ⟨l, m, [], ?_, hr, rfl⟩
    rw [LinkedList.lpop, hr.head_eq]
    rfl
  · obtain ⟨prev, next, m₁, m₂, m₃, hnode, h₁, h₂, hord, h₃, ho, hnext, hprev⟩ :=
      exists_detach hr.owns (fun j (hj : j ∈ rest.head?) => List.mem_of_mem_head? hj) .left
    have hlink := hr.next_eq
    -- What the node holds in `next` is the address of the node after it.
    obtain rfl : next = rest.head?.map Item.ptr := by
      have hcell : linkOf Node.next (m.chunk i.ptr) = rest.head?.map Item.ptr := hlink
      rw [hnode] at hcell
      exact hcell
    rw [← hlink] at h₂ hprev
    have hlinks := hr.links.popFront
    -- The last element leaves an empty list, with its bounds reset; else the node after it
    -- becomes the head, and its ordinal the least.
    rcases rest with _ | ⟨j, rest⟩
    · rw [hlink] at h₂
      obtain rfl : m₁ = m₂ := Option.some.inj h₂
      refine ⟨shrink (sizeofListNode + byteSize i.node.value)
        { recordPendingDelete (i.cell prev none) l with
          head := none
          tail := none
          ordInitialized := false
          minOrd := 0
          maxOrd := -1 }, m₃, [], ?_, ⟨ho, ?_⟩, rfl⟩
      · rw [LinkedList.lpop, hr.head_eq]
        simp only [List.head?_cons, Option.map_some, Memory.node_eq_some hnode, h₁,
          Option.bind_eq_bind, Option.bind_some]
        exact Option.bind_eq_some_iff.2 ⟨m₃, h₃, rfl⟩
      · exact hlinks.congr hlink.symm (if_pos hlink).symm hnext hprev
    · obtain ⟨y, hy, hyord⟩ := hord j rfl
      have hsome : (l.links m).next i.ptr ≠ none := by rw [hlink]; simp
      rw [hlink] at h₂
      refine ⟨shrink (sizeofListNode + byteSize i.node.value)
        { recordPendingDelete (i.cell prev (some j.ptr)) l with
          head := some j.ptr
          minOrd := y.ord }, m₃, j :: rest, ?_, ⟨ho, ?_⟩, ?_⟩
      · rw [LinkedList.lpop, hr.head_eq]
        simp only [List.head?_cons, Option.map_some, Memory.node_eq_some hnode, h₁,
          Option.bind_eq_bind, Option.bind_some]
        exact Option.bind_eq_some_iff.2 ⟨m₂, h₂, Option.bind_eq_some_iff.2 ⟨y, hy,
          Option.bind_eq_some_iff.2 ⟨m₃, h₃, rfl⟩⟩⟩
      · exact hlinks.congr hlink.symm (if_neg hsome).symm hnext hprev
      · rw [hyord]
        rfl

theorem rpop (hr : Represents base m l items) :
    ∃ l' m' items', LinkedList.rpop l m = some (replyTo (l.value items) (.pop .right), l', m') ∧
      Represents base m' l' items' ∧ l'.value items' = (l.value items).apply (.pop .right) := by
  rcases List.eq_nil_or_concat items with rfl | ⟨rest, i, rfl⟩
  · refine ⟨l, m, [], ?_, hr, rfl⟩
    rw [LinkedList.rpop, hr.tail_eq]
    rfl
  · rw [List.concat_eq_append] at hr ⊢
    obtain ⟨prev, next, m₁, m₂, m₃, hnode, h₁, h₂, hord, h₃, ho, hprev, hnext⟩ :=
      exists_detach (hr.owns.perm (List.perm_append_singleton i rest))
        (fun j (hj : j ∈ rest.getLast?) => List.mem_of_mem_getLast? hj) .right
    have hlink := hr.prev_eq
    -- What the node holds in `prev` is the address of the node before it.
    obtain rfl : prev = rest.getLast?.map Item.ptr := by
      have hcell : linkOf Node.prev (m.chunk i.ptr) = rest.getLast?.map Item.ptr := hlink
      rw [hnode] at hcell
      exact hcell
    rw [← hlink] at h₂ hnext
    have hlinks := hr.links
    rw [List.map_append] at hlinks
    replace hlinks := hlinks.popBack
    -- The last element leaves an empty list, with its bounds reset; else the node before it
    -- becomes the tail, and its ordinal the greatest.
    rcases List.eq_nil_or_concat rest with rfl | ⟨rest, j, rfl⟩
    · rw [hlink] at h₂
      obtain rfl : m₁ = m₂ := Option.some.inj h₂
      refine ⟨shrink (sizeofListNode + byteSize i.node.value)
        { recordPendingDelete (i.cell none next) l with
          head := none
          tail := none
          ordInitialized := false
          minOrd := 0
          maxOrd := -1 }, m₃, [], ?_, ⟨ho, ?_⟩, rfl⟩
      · rw [LinkedList.rpop, hr.tail_eq]
        simp only [List.getLast?_concat, Option.map_some, Memory.node_eq_some hnode, h₁,
          Option.bind_eq_bind, Option.bind_some]
        exact Option.bind_eq_some_iff.2 ⟨m₃, h₃, rfl⟩
      · exact hlinks.congr (if_pos hlink).symm hlink.symm hnext hprev
    · rw [List.concat_eq_append, List.getLast?_concat] at *
      obtain ⟨y, hy, hyord⟩ := hord j rfl
      have hpop : (l.value (rest ++ [j] ++ [i])).rpop =
          some (i.node.value, { (l.value (rest ++ [j] ++ [i])).forget i.node with
            nodes := (rest ++ [j]).map Item.node
            maxOrd := j.node.ord }) := by
        rw [ListValue.rpop_append List.map_append, List.getLast?_map, List.getLast?_concat]
        rfl
      have hsome : (l.links m).prev i.ptr ≠ none := by rw [hlink]; simp
      rw [hlink] at h₂
      refine ⟨shrink (sizeofListNode + byteSize i.node.value)
        { recordPendingDelete (i.cell (some j.ptr) next) l with
          tail := some j.ptr
          maxOrd := y.ord }, m₃, rest ++ [j], ?_, ⟨ho, ?_⟩, ?_⟩
      · rw [LinkedList.rpop, hr.tail_eq]
        simp only [List.getLast?_concat, Option.map_some, Memory.node_eq_some hnode, h₁,
          Option.bind_eq_bind, Option.bind_some, replyTo, ListValue.pop, hpop]
        exact Option.bind_eq_some_iff.2 ⟨m₂, h₂, Option.bind_eq_some_iff.2 ⟨y, hy,
          Option.bind_eq_some_iff.2 ⟨m₃, h₃, rfl⟩⟩⟩
      · exact hlinks.congr (if_neg hsome).symm hlink.symm hnext hprev
      · rw [hyord, ListValue.apply, ListValue.pop, hpop]
        rfl

end Represents

/-- One operation, on the list in memory and on the list it stands for. -/
theorem Represents.step (hr : Represents base m l items) (a : Palloc) (op : ListOp) :
    ∃ l' m' items', LinkedList.step a l m op = some (replyTo (l.value items) op, l', m') ∧
      Represents base m' l' items' ∧ l'.value items' = (l.value items).apply op := by
  cases op with
  | push side value =>
    cases side with
    | left => exact hr.lpush a value
    | right => exact hr.rpush a value
  | pop side =>
    cases side with
    | left => exact hr.lpop
    | right => exact hr.rpop

/-- The nodes freed from the first one on, and their buffers: the rest of the memory is left. -/
theorem exists_freeNodes (ho : Owns base m.chunk items) {o : Option Addr} {k : ℕ}
    (hc : Chain (linkOf Node.next ∘ m.chunk) o (items.map Item.ptr)) (hk : items.length ≤ k) :
    ∃ m', freeNodes k o m = some m' ∧ m'.chunk = base := by
  induction items generalizing base m o k with
  | nil =>
    cases hc
    exact ⟨m, by cases k <;> rfl, funext fun p => ho.frame p List.not_mem_nil⟩
  | cons i items ih =>
    obtain ⟨k, rfl⟩ : ∃ k', k = k' + 1 := Nat.exists_eq_add_one.2 (Nat.lt_of_lt_of_le
      (Nat.succ_pos _) hk)
    obtain ⟨rfl, hrest⟩ := hc.of_cons
    obtain ⟨hne, hptr, hbuf⟩ := ho.notMem_of_cons
    obtain ⟨⟨prev, next, hnode⟩, hbuffer⟩ := ho.holds i List.mem_cons_self
    obtain ⟨m₁, h₁, hm₁⟩ := Memory.exists_pfree hbuffer
    obtain ⟨m₂, h₂, hm₂⟩ := Memory.exists_pfree (m := m₁) (p := i.ptr)
      (by rw [hm₁, Function.update_of_ne hne, hnode])
    have ho₂ := (ho.release.update_frame hbuf none).update_frame hptr none
    rw [← hm₁, ← hm₂] at ho₂
    -- The links of the other nodes are where they were.
    have hc₂ : Chain (linkOf Node.next ∘ m₂.chunk) next (items.map Item.ptr) := by
      rw [Function.comp_apply, hnode] at hrest
      refine hrest.congr fun q hq => ?_
      obtain ⟨j, hj, rfl⟩ := List.mem_map.1 hq
      have hmem := Owns.ptr_mem hj
      rw [Function.comp_apply, hm₂, Function.update_of_ne (ne_of_mem_of_not_mem hmem hptr), hm₁,
        Function.update_of_ne (ne_of_mem_of_not_mem hmem hbuf)]
      rfl
    obtain ⟨m', hm', hbase⟩ := ih ho₂ hc₂ (Nat.le_of_succ_le_succ hk)
    refine ⟨m', ?_, ?_⟩
    · simp only [freeNodes, Memory.node_eq_some hnode, Item.cell, h₁, h₂, Option.bind_eq_bind,
        Option.bind_some]
      exact hm'
    · rw [hbase, ho.update_release]

/-! ## The deque -/

/-- An operation on a deque of values. -/
def dequeStep (vs : List Bytes) : ListOp → Reply × List Bytes
  | .push side value => (.length (vs.length + 1), ListValue.atEnd value vs side)
  | .pop side => match Cell.popped side vs with
    | none => (.value none 0, vs)
    | some (out, rest) => (.value (some (out ++ [0])) out.length, rest)

/-- Operations on a deque one after the other, and their replies. -/
def dequeRun : List ListOp → List Bytes → List Reply × List Bytes
  | [], vs => ([], vs)
  | op :: ops, vs =>
    ((dequeStep vs op).1 :: (dequeRun ops (dequeStep vs op).2).1,
      (dequeRun ops (dequeStep vs op).2).2)

/-- A list with the values of a deque, and ordered ordinals. -/
structure Shows (v : ListValue) (vs : List Bytes) : Prop where
  values : v.nodes.map ListNode.value = vs
  length : v.length = v.nodes.length
  ordered : v.Ordered

variable {v : ListValue} {vs : List Bytes}

theorem Shows.step (hs : Shows v vs) (op : ListOp) :
    replyTo v op = (dequeStep vs op).1 ∧ Shows (v.apply op) (dequeStep vs op).2 := by
  obtain ⟨rfl, hlen, hordered⟩ := hs
  cases op with
  | push side value =>
    have hlength : (ListValue.push side v value).length = v.length + 1 := by
      cases side <;> rfl
    refine ⟨?_, ?_, ?_, hordered.push⟩
    · rw [replyTo, dequeStep, hlength, hlen, List.length_map]
    · rw [ListValue.apply, ListValue.nodes_push, ListValue.map_atEnd]
      cases side <;> rfl
    · rw [ListValue.apply, ListValue.nodes_push, ListValue.length_atEnd, hlength, hlen]
      rfl
  | pop side =>
    have hpop := Entry.pop_shows side hlen
    rw [replyTo, dequeStep, ListValue.apply]
    cases hp : ListValue.pop side v with
    | none =>
      rw [hp] at hpop
      rw [show Cell.popped side _ = none from hpop]
      exact ⟨rfl, rfl, hlen, hordered⟩
    | some x =>
      rw [hp] at hpop
      obtain ⟨hpopped, hlen'⟩ := hpop
      rw [hpopped]
      exact ⟨rfl, rfl, hlen', hordered.pop hp⟩

/-- Operations one after the other, on the list in memory and on a deque. -/
theorem exists_run (a : Palloc) (ops : List ListOp) (hr : Represents base m l items)
    (hs : Shows (l.value items) vs) :
    ∃ l' m' items', run a ops l m = some ((dequeRun ops vs).1, l', m') ∧
      Represents base m' l' items' ∧ Shows (l'.value items') (dequeRun ops vs).2 := by
  induction ops generalizing l m items vs with
  | nil => exact ⟨l, m, items, rfl, hr, hs⟩
  | cons op ops ih =>
    obtain ⟨l₁, m₁, items₁, hstep, hr₁, hval⟩ := hr.step a op
    obtain ⟨hreply, hs₁⟩ := hs.step op
    rw [← hval] at hs₁
    obtain ⟨l', m', items', hrun, hr', hs'⟩ := ih hr₁ hs₁
    refine ⟨l', m', items', ?_, hr', hs'⟩
    simp only [run, hstep, hrun, hreply, dequeRun, Option.bind_eq_bind, Option.bind_some]

theorem represents_create (m : Memory) : Represents m.chunk m create [] where
  owns := .nil m.chunk
  links := ⟨.nil, .nil⟩

theorem shows_create : Shows (create.value []) [] where
  values := rfl
  length := rfl
  ordered := ListValue.ordered_create

/-! ## The nodes -/

/-- Following a link of the nodes, from the link `o` on, visits the nodes `ns`. -/
inductive Follows (m : Memory) (link : Node → Option Addr) :
    Option Addr → List (Addr × Node) → Prop
  | nil : Follows m link none []
  | cons {p : Addr} {x : Node} {ns : List (Addr × Node)} (found : m.node p = some x)
    (rest : Follows m link (link x) ns) : Follows m link (some p) ((p, x) :: ns)

/-- The buffer of a node has the value, and the node its length. -/
def HasValue (m : Memory) (x : Node) (value : Bytes) : Prop :=
  ∃ b, x.value = some b ∧ m.chunk b = some (.buffer (value ++ [0])) ∧ x.valueLen = value.length

/-- The nodes `ns` are linked in both directions. They have the values `vs`, and ordinals that
    grow from head to tail. -/
structure Deque (m : Memory) (l : LinkedList) (ns : List (Addr × Node)) (vs : List Bytes) :
    Prop where
  forward : Follows m Node.next l.head ns
  backward : Follows m Node.prev l.tail ns.reverse
  length : l.length = ns.length
  values : List.Forall₂ (fun n value => HasValue m n.2 value) ns vs
  sorted : ns.Pairwise fun n n' => n.2.ord < n'.2.ord
  minOrd : ∀ n, ns.head? = some n → l.minOrd = n.2.ord
  maxOrd : ∀ n, ns.getLast? = some n → l.maxOrd = n.2.ord
  initialized : l.ordInitialized = true ↔ ns ≠ []

theorem linkOf_eq {x : Node} (hx : m.node p = some x) : linkOf f (m.chunk p) = f x := by
  rw [Memory.node] at hx
  split at hx
  · rename_i y hy
    rw [hy, ← Option.some.inj hx]
    rfl
  · exact absurd hx (by simp)

/-- The address and the node of an item. -/
def Item.shown (m : Memory) (i : Item) : Addr × Node :=
  (i.ptr, i.cell (linkOf Node.prev (m.chunk i.ptr)) (linkOf Node.next (m.chunk i.ptr)))

theorem node_shown (ho : Owns base m.chunk items) (hi : i ∈ items) :
    m.node i.ptr = some (i.shown m).2 := by
  obtain ⟨⟨prev, next, hnode⟩, -⟩ := ho.holds i hi
  rw [Memory.node_eq_some hnode, Item.shown, hnode]
  rfl

theorem follows_of_chain {o : Option Addr}
    (hc : Chain (linkOf f ∘ m.chunk) o (items.map Item.ptr))
    (hnode : ∀ i ∈ items, m.node i.ptr = some (i.shown m).2) :
    Follows m f o (items.map (Item.shown m)) := by
  induction items generalizing o with
  | nil =>
    cases hc
    exact .nil
  | cons i items ih =>
    obtain ⟨rfl, hrest⟩ := hc.of_cons
    have hi := hnode i List.mem_cons_self
    refine .cons hi ?_
    rw [Function.comp_apply, linkOf_eq hi] at hrest
    exact ih hrest fun j hj => hnode j (List.mem_cons_of_mem i hj)

theorem Represents.deque (hr : Represents base m l items) (hs : Shows (l.value items) vs) :
    Deque m l (items.map (Item.shown m)) vs := by
  obtain ⟨rfl, hlen, hsorted, hinit, hmin, hmax⟩ := hs
  simp only [value, List.length_map, List.head?_map, List.getLast?_map, List.map_map,
    List.pairwise_map] at hlen hsorted hinit hmin hmax ⊢
  have hnode : ∀ i ∈ items, m.node i.ptr = some (i.shown m).2 := fun i hi =>
    node_shown hr.owns hi
  refine ⟨follows_of_chain hr.links.next hnode, ?_, ?_, ?_, ?_, ?_, ?_, ?_⟩
  · have hprev := hr.links.prev
    rw [← List.map_reverse] at hprev ⊢
    exact follows_of_chain hprev fun i hi => hnode i (List.mem_reverse.1 hi)
  · rw [List.length_map, hlen]
  · rw [List.forall₂_map_left_iff, List.forall₂_map_right_iff, List.forall₂_same]
    exact fun i hi => ⟨i.buf, rfl, (hr.owns.holds i hi).buffer, rfl⟩
  · exact List.pairwise_map.2 hsorted
  · intro n hn
    rw [List.head?_map, Option.map_eq_some_iff] at hn
    obtain ⟨i, hi, rfl⟩ := hn
    exact hmin i.node (by rw [hi]; rfl)
  · intro n hn
    rw [List.getLast?_map, Option.map_eq_some_iff] at hn
    obtain ⟨i, hi, rfl⟩ := hn
    exact hmax i.node (by rw [hi]; rfl)
  · rw [hinit, ne_eq, ne_eq, List.map_eq_nil_iff, List.map_eq_nil_iff]

/-- After any operations on a new list its nodes are a deque with ordered ordinals, and the
    replies are those of a deque of values. -/
theorem deque_of_run (a : Palloc) (m : Memory) (ops : List ListOp) :
    ∃ l m' ns, run a ops create m = some ((dequeRun ops []).1, l, m') ∧
      Deque m' l ns (dequeRun ops []).2 := by
  obtain ⟨l, m', items, hrun, hr, hs⟩ := exists_run a ops (represents_create m) shows_create
  exact ⟨l, m', _, hrun, hr.deque hs⟩

example : (run default [.push .left [97], .push .right [98], .pop .left, .pop .right, .pop .left]
    create ⟨∅, 0⟩).map Prod.fst =
    some [.length 1, .length 2, .value (some [97, 0]) 1, .value (some [98, 0]) 1,
      .value none 0] := by
  decide

/-- A run has two chunks for each node of the list, which it took, and has given back all
    others. It leaves the rest of the memory alone. -/
theorem frame_of_run {a : Palloc} {m m' : Memory} {ops : List ListOp} {rs : List Reply}
    (h : run a ops create m = some (rs, l, m')) :
    ∃ owned : List Addr, owned.Nodup ∧ (owned.length : ℤ) = 2 * l.length ∧
      (∀ p ∈ owned, m.chunk p = none) ∧ ∀ p ∉ owned, m'.chunk p = m.chunk p := by
  obtain ⟨l₁, m₁, items, hrun, hr, hs⟩ := exists_run a ops (represents_create m) shows_create
  obtain ⟨-, rfl, rfl⟩ := Option.some.inj (hrun.symm.trans h)
  refine ⟨_, hr.owns.nodup, ?_, hr.owns.fresh, hr.owns.frame⟩
  have hlen : l.length = (items.map Item.node).length := hs.length
  have htwo : (items.flatMap Item.addrs).length = items.length * 2 := by
    rw [List.length_flatMap]
    simp [Item.addrs]
  rw [htwo, hlen, List.length_map]
  omega

/-- A list that was drained has no memory. -/
theorem chunk_of_drained {a : Palloc} {m m' : Memory} {ops : List ListOp} {rs : List Reply}
    (h : run a ops create m = some (rs, l, m')) (hl : l.length = 0) : m'.chunk = m.chunk := by
  obtain ⟨owned, -, hlen, -, hframe⟩ := frame_of_run h
  have hnil : owned = [] := List.length_eq_zero_iff.1 (by omega)
  funext p
  exact hframe p (by rw [hnil]; exact List.not_mem_nil)

/-- Freeing the list leaves the memory as it was before the run. -/
theorem freeNodes_of_run {a : Palloc} {m m' : Memory} {ops : List ListOp} {rs : List Reply} {k : ℕ}
    (h : run a ops create m = some (rs, l, m')) (hk : l.length ≤ k) :
    ∃ m'', freeNodes k l.head m' = some m'' ∧ m''.chunk = m.chunk := by
  obtain ⟨l₁, m₁, items, hrun, hr, hs⟩ := exists_run a ops (represents_create m) shows_create
  obtain ⟨-, rfl, rfl⟩ := Option.some.inj (hrun.symm.trans h)
  have hlen : l.length = (items.map Item.node).length := hs.length
  rw [List.length_map] at hlen
  exact exists_freeNodes hr.owns hr.links.next (by omega)

end LinkedList

end PgRedis
