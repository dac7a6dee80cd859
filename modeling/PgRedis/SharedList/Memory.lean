import PgRedis.Lib.DoublyLinked
import PgRedis.Session.Deltas
import PgRedis.SharedStore.Writeback

/-!
# The linked list in shared memory

The list of `shared_list.c` as it is in the DSA segment: nodes that link to each other in both
directions by DSA pointers, each with a chunk for its value unless this is empty. Every
allocation may fail. An access to a chunk that is not allocated, or does not hold what is read of
it, and a chunk freed twice, are `none`.

`SharedList` has the nodes as a list, in the order in which they are linked.
`SharedListMeta.Represents` relates the two. Here are the memory, the code on it, and what a new
node at an end does to both.
-/

namespace PgRedis

open Lib

/-- `PgRedisSharedListNode`. -/
@[ext]
structure SharedCell where
  prev : Option ℕ
  next : Option ℕ
  ord : ℤ
  valueLen : UInt16
  valueDsa : Option ℕ
  deriving DecidableEq, Repr

/-- The DSA segment: the allocated chunks, and what is in those that hold a node of a list or the
    bytes of a value. -/
structure Segment where
  dsa : Dsa
  cells : Htab ℕ SharedCell
  buffers : Htab ℕ Bytes

namespace Segment

/-- A chunk for a node, filled with zeros. -/
def allocCell (g : Segment) : ℕ × Segment :=
  (g.dsa.palloc.1, ⟨g.dsa.palloc.2, g.cells.insert g.dsa.palloc.1 ⟨none, none, 0, 0, none⟩,
    g.buffers⟩)

/-- A chunk for a value, if it is not empty. -/
def allocBuffer (value : Bytes) (g : Segment) : Option ℕ × Segment :=
  if value.length > 0 then
    (some g.dsa.palloc.1, ⟨g.dsa.palloc.2, g.cells, g.buffers.insert g.dsa.palloc.1 value⟩)
  else (none, g)

/-- `pg_redis_shared_pfree`. -/
def pfree (p : Option ℕ) (g : Segment) : Option Segment :=
  match p with
  | none => some g
  | some q =>
    if q ∈ g.dsa.live then some ⟨g.dsa.pfree (some q), g.cells.erase q, g.buffers.erase q⟩
    else none

/-- Writing to fields of the node at an address. -/
def modify (p : ℕ) (f : SharedCell → SharedCell) (g : Segment) : Option Segment :=
  (g.cells.lookup p).map fun x => { g with cells := g.cells.insert p (f x) }

/-- Writing to fields of the node a link goes to, if it goes to one. -/
def modifyLink (o : Option ℕ) (f : SharedCell → SharedCell) (g : Segment) : Option Segment :=
  match o with
  | none => some g
  | some p => g.modify p f

/-- `copy_value_out`: the bytes of a node. -/
def copyValueOut (x : SharedCell) (g : Segment) : Option Bytes :=
  match x.valueDsa with
  | none => if x.valueLen = 0 then some [] else none
  | some q => (g.buffers.lookup q).bind fun b =>
      if x.valueLen.toNat ≤ b.length then some (b.take x.valueLen.toNat) else none

/-- `new_node`: `none` in the place of the node when an allocation fails. -/
def newNode (ok : NodeSite → Bool) (value : Bytes) (ord : ℤ) (g : Segment) :
    Option (Option ℕ × Segment) :=
  if ok .node then
    let p := g.allocCell.1
    let g := g.allocCell.2
    if value.length > 0 ∧ ok .value = false then (g.pfree (some p)).map fun g => (none, g)
    else
      let q := (g.allocBuffer value).1
      let g := (g.allocBuffer value).2
      (g.modify p fun _ => ⟨none, none, ord, UInt16.ofNat value.length, q⟩).map fun g =>
        (some p, g)
  else some (none, g)

/-- `free_node`. -/
def freeNode (p : ℕ) (g : Segment) : Option Segment := do
  let x ← g.cells.lookup p
  let g ← g.pfree x.valueDsa
  g.pfree (some p)

end Segment

/-- `PgRedisSharedListMeta`. -/
structure SharedListMeta where
  head : Option ℕ
  tail : Option ℕ
  length : ℤ
  minOrd : ℤ
  maxOrd : ℤ
  ordInitialized : Bool
  deriving DecidableEq, Repr

/-- What an operation gives back: the new length, the message of an error, or the value and the
    ordinal of the node taken out. -/
inductive SharedListReply
  | length (n : ℤ)
  | error (message : String)
  | popped (o : Option (Bytes × ℤ))
  deriving DecidableEq, Repr

namespace SharedListMeta

/-- A list without nodes. -/
def empty : SharedListMeta := ⟨none, none, 0, 0, -1, false⟩

/-- `pg_redis_shared_list_lpush`: `none` in the place of the list for the error. -/
def lpush (ok : NodeSite → Bool) (value : Bytes) (L : SharedListMeta) (g : Segment) :
    Option (Option SharedListMeta × Segment) := do
  let ord := if L.ordInitialized then L.minOrd - 1 else 0
  let r ← g.newNode ok value ord
  match r.1 with
  | none => some (none, r.2)
  | some p =>
    let g ← r.2.modify p fun x => { x with next := L.head }
    let g ← g.modifyLink L.head fun x => { x with prev := some p }
    some (some
      { head := some p
        tail := if L.head = none then some p else L.tail
        length := L.length + 1
        minOrd := ord
        maxOrd := if L.ordInitialized then L.maxOrd else ord
        ordInitialized := true }, g)

/-- `pg_redis_shared_list_rpush`. -/
def rpush (ok : NodeSite → Bool) (value : Bytes) (L : SharedListMeta) (g : Segment) :
    Option (Option SharedListMeta × Segment) := do
  let ord := if L.ordInitialized then L.maxOrd + 1 else 0
  let r ← g.newNode ok value ord
  match r.1 with
  | none => some (none, r.2)
  | some p =>
    let g ← r.2.modify p fun x => { x with prev := L.tail }
    let g ← g.modifyLink L.tail fun x => { x with next := some p }
    some (some
      { head := if L.tail = none then some p else L.head
        tail := some p
        length := L.length + 1
        minOrd := if L.ordInitialized then L.minOrd else ord
        maxOrd := ord
        ordInitialized := true }, g)

/-- `pg_redis_shared_list_lpop`. -/
def lpop (L : SharedListMeta) (g : Segment) :
    Option (Option (Bytes × ℤ) × SharedListMeta × Segment) :=
  match L.head with
  | none => some (none, L, g)
  | some p => do
    let x ← g.cells.lookup p
    let out ← g.copyValueOut x
    let L := { L with head := x.next }
    let r ← match L.head with
      | none =>
        some ({ L with tail := none, minOrd := 0, maxOrd := -1, ordInitialized := false }, g)
      | some h => do
        let g ← g.modify h fun y => { y with prev := none }
        let y ← g.cells.lookup h
        some ({ L with minOrd := y.ord }, g)
    let g ← r.2.freeNode p
    some (some (out, x.ord), { r.1 with length := r.1.length - 1 }, g)

/-- `pg_redis_shared_list_rpop`. -/
def rpop (L : SharedListMeta) (g : Segment) :
    Option (Option (Bytes × ℤ) × SharedListMeta × Segment) :=
  match L.tail with
  | none => some (none, L, g)
  | some p => do
    let x ← g.cells.lookup p
    let out ← g.copyValueOut x
    let L := { L with tail := x.prev }
    let r ← match L.tail with
      | none =>
        some ({ L with head := none, minOrd := 0, maxOrd := -1, ordInitialized := false }, g)
      | some t => do
        let g ← g.modify t fun y => { y with next := none }
        let y ← g.cells.lookup t
        some ({ L with maxOrd := y.ord }, g)
    let g ← r.2.freeNode p
    some (some (out, x.ord), { r.1 with length := r.1.length - 1 }, g)

/-- The loop of `pg_redis_shared_list_free`, from a link on. -/
def freeFrom : ℕ → Option ℕ → Segment → Option Segment
  | _, none, g => some g
  | 0, some _, _ => none
  | k + 1, some p, g => do
    let x ← g.cells.lookup p
    let g ← g.freeNode p
    freeFrom k x.next g

/-- `pg_redis_shared_list_free`, with a bound on the rounds of the loop. -/
def free (k : ℕ) (L : SharedListMeta) (g : Segment) : Option (SharedListMeta × Segment) :=
  (freeFrom k L.head g).map fun g => (empty, g)

/-- The loop of `populate_shared_from_scratch` over the values of a list: when a push fails, what
    was pushed is freed, and the error raised again. -/
def pushAll (ok : ℕ → NodeSite → Bool) : List Bytes → SharedListMeta → Segment →
    Option (Option SharedListMeta × Segment)
  | [], L, g => some (some L, g)
  | v :: vs, L, g => do
    let r ← L.rpush (ok L.length.toNat) v g
    match r.1 with
    | none => (L.free L.length.toNat r.2).map fun x => (none, x.2)
    | some L => pushAll ok vs L r.2

/-- The loop of `pg_redis_shared_list_materialize`, from a link on. -/
def materializeFrom : ℕ → Option ℕ → Segment → ListValue → Option ListValue
  | _, none, _, l => some l
  | 0, some _, _, _ => none
  | k + 1, some p, g, l => do
    let x ← g.cells.lookup p
    let b ← g.copyValueOut x
    materializeFrom k x.next g
      { l.rpush b with nodes := l.nodes ++ [⟨b, x.ord, false⟩] }

/-- `pg_redis_shared_list_materialize`: the inner `none` is `NULL`. -/
def materialize (k : ℕ) (L : SharedListMeta) (g : Segment) : Option (Option ListValue) :=
  if L.head = none then some none
  else (materializeFrom k L.head g .create).map fun l => some { l with
    minOrd := L.minOrd
    maxOrd := L.maxOrd
    ordInitialized := L.ordInitialized }

/-- The error of a push. -/
def outOfMemory : Side → String
  | .left => "pg_redis: out of shared memory in LPUSH"
  | .right => "pg_redis: out of shared memory in RPUSH"

/-- The reply of a push, and the list after it: the one before, when there is no memory. -/
def pushed (side : Side) (L : SharedListMeta) (r : Option SharedListMeta × Segment) :
    SharedListReply × SharedListMeta × Segment :=
  match r.1 with
  | none => (.error (outOfMemory side), L, r.2)
  | some L' => (.length L'.length, L', r.2)

/-- The reply of a pop. -/
def popped (r : Option (Bytes × ℤ) × SharedListMeta × Segment) :
    SharedListReply × SharedListMeta × Segment :=
  (.popped r.1, r.2)

/-- One operation on the list. -/
def step (ok : NodeSite → Bool) (L : SharedListMeta) (g : Segment) :
    ListOp → Option (SharedListReply × SharedListMeta × Segment)
  | .push .left value => (L.lpush ok value g).map (pushed .left L)
  | .push .right value => (L.rpush ok value g).map (pushed .right L)
  | .pop .left => (L.lpop g).map popped
  | .pop .right => (L.rpop g).map popped

/-- Operations one after the other, each with its allocations, and their replies. -/
def run : List (ListOp × (NodeSite → Bool)) → SharedListMeta → Segment →
    Option (List SharedListReply × SharedListMeta × Segment)
  | [], L, g => some ([], L, g)
  | (op, ok) :: ops, L, g => do
    let r ← step ok L g op
    let rs ← run ops r.2.1 r.2.2
    some (r.1 :: rs.1, rs.2)

end SharedListMeta

/-! ## The memory

What an access does, in terms of what is at each address. -/

namespace Segment

variable {g g' : Segment} {p : ℕ} {x : SharedCell}

/-- The chunks `ps` hold in `g'` what they hold in `g`. -/
def Same (ps : List ℕ) (g g' : Segment) : Prop :=
  ∀ p ∈ ps, g'.cells.lookup p = g.cells.lookup p ∧ g'.buffers.lookup p = g.buffers.lookup p

theorem Same.refl (ps : List ℕ) (g : Segment) : Same ps g g := fun _ _ => ⟨rfl, rfl⟩

theorem Same.trans {ps : List ℕ} {g'' : Segment} (h : Same ps g g') (h' : Same ps g' g'') :
    Same ps g g'' :=
  fun p hp => ⟨(h' p hp).1.trans (h p hp).1, (h' p hp).2.trans (h p hp).2⟩

theorem Same.mono {ps qs : List ℕ} (h : Same ps g g') (hsub : qs ⊆ ps) : Same qs g g' :=
  fun p hp => h p (hsub hp)

theorem exists_pfree (hp : p ∈ g.dsa.live) :
    ∃ g', g.pfree (some p) = some g' ∧ g'.dsa = g.dsa.pfree (some p) ∧
      ∀ q, q ≠ p → g'.cells.lookup q = g.cells.lookup q ∧
        g'.buffers.lookup q = g.buffers.lookup q :=
  ⟨_, if_pos hp, rfl, fun _ hq => ⟨AList.lookup_erase_ne hq, AList.lookup_erase_ne hq⟩⟩

theorem exists_modify (h : g.cells.lookup p = some x) (f : SharedCell → SharedCell) :
    ∃ g', g.modify p f = some g' ∧ g'.dsa = g.dsa ∧ g'.buffers = g.buffers ∧
      ∀ q, g'.cells.lookup q = if q = p then some (f x) else g.cells.lookup q :=
  ⟨{ g with cells := g.cells.insert p (f x) }, by rw [modify, h, Option.map_some], rfl, rfl,
    fun _ => Htab.lookup_insert_eq _ _ _ _⟩

/-- A chunk for a value is as the model of the nodes has it, and holds the value. -/
theorem allocBuffer_spec (value : Bytes) (g : Segment) {chunks : List ℕ} (hg : g.dsa.Has chunks) :
    (g.allocBuffer value).1 = (SharedHash.allocValue value g.dsa).1 ∧
      (g.allocBuffer value).2.dsa = (SharedHash.allocValue value g.dsa).2 ∧
      (g.allocBuffer value).2.cells = g.cells ∧
      (∀ q ∈ g.dsa.live, (g.allocBuffer value).2.buffers.lookup q = g.buffers.lookup q) ∧
      ∀ q ∈ (g.allocBuffer value).1, (g.allocBuffer value).2.buffers.lookup q = some value := by
  rw [allocBuffer, SharedHash.allocValue]
  split_ifs
  · refine ⟨rfl, rfl, rfl, fun q hq => AList.lookup_insert_ne ?_, fun q hq => ?_⟩
    · exact (hg.lt q hq).ne
    · obtain rfl := Option.some.inj hq
      exact AList.lookup_insert _
  · exact ⟨rfl, rfl, rfl, fun _ _ => rfl, fun q hq => absurd hq (by simp)⟩

end Segment

/-! ## Nodes in memory -/

/-- The segment has the node and its value. -/
structure SharedNode.In (n : SharedNode) (g : Segment) : Prop where
  cell : ∃ prev next, g.cells.lookup n.dsa = some ⟨prev, next, n.ord, n.valueLen, n.valueDsa⟩
  buffer : ∀ q ∈ n.valueDsa, g.buffers.lookup q = some n.value
  empty : n.valueDsa = none → n.value = []
  len : n.valueLen = UInt16.ofNat n.value.length

/-- The chunks of a node. -/
def SharedNode.chunks (n : SharedNode) : List ℕ := n.dsa :: n.valueDsa.toList

theorem SharedList.chunks_eq (l : SharedList) : l.chunks = l.nodes.flatMap SharedNode.chunks := rfl

namespace SharedNode

variable {n : SharedNode} {g g' : Segment}

/-- A node stays where its chunks are left alone, but for its links. -/
theorem In.same (h : n.In g) (hs : Segment.Same n.chunks g g') : n.In g' where
  cell := by
    rw [(hs n.dsa List.mem_cons_self).1]
    exact h.cell
  buffer q hq := by
    rw [(hs q (List.mem_cons_of_mem _ (Option.mem_toList.2 hq))).2]
    exact h.buffer q hq
  empty := h.empty
  len := h.len

/-- What is read of a node. -/
theorem In.copyValueOut (h : n.In g) {x : SharedCell} (hlen : x.valueLen = n.valueLen)
    (hdsa : x.valueDsa = n.valueDsa) : g.copyValueOut x = some n.bytes := by
  rw [Segment.copyValueOut, hdsa, hlen]
  cases hq : n.valueDsa with
  | none =>
    have hnil := h.empty hq
    have hlen := h.len
    rw [hnil] at hlen
    simp only [SharedNode.bytes, hnil, List.take_nil]
    rw [hlen]
    rfl
  | some q =>
    have hle : n.valueLen.toNat ≤ n.value.length := by
      rw [h.len, UInt16.toNat_ofNat']
      exact Nat.mod_le _ _
    simp only [h.buffer q hq, Option.bind_some, if_pos hle]
    rfl

end SharedNode

/-- A new node, as it is in memory. -/
theorem Segment.exists_newNode (ok : NodeSite → Bool) (value : Bytes) (ord : ℤ) (g : Segment)
    {chunks : List ℕ} (hg : g.dsa.Has chunks) :
    ∃ o g', g.newNode ok value ord = some (o.map SharedNode.dsa, g') ∧
      SharedList.newNode ok value ord g.dsa = (g'.dsa, o) ∧ Segment.Same g.dsa.live g g' ∧
      (o = none → g'.dsa.Has chunks) ∧
      ∀ n ∈ o, n.In g' ∧ n.ord = ord ∧ n.value = value ∧ g'.dsa.Has (n.chunks ++ chunks) ∧
        n.dsa ∉ g.dsa.live ∧
        g'.cells.lookup n.dsa = some ⟨none, none, n.ord, n.valueLen, n.valueDsa⟩ := by
  rw [newNode, SharedList.newNode]
  cases hnode : ok .node with
  | false =>
    exact ⟨none, g, by simp, by simp, .refl _ g, fun _ => hg, fun n hn => absurd hn (by simp)⟩
  | true =>
    have hp : g.dsa.palloc.1 ∉ g.dsa.live := fun hmem => absurd (hg.lt _ hmem) (Nat.lt_irrefl _)
    have hne : ∀ q ∈ g.dsa.live, q ≠ g.dsa.palloc.1 := fun q hq => ne_of_mem_of_not_mem hq hp
    simp only [if_true]
    by_cases hfail : value.length > 0 ∧ ok .value = false
    · -- The node is freed again.
      obtain ⟨g', hg', hdsa, hkeep⟩ := exists_pfree (g := g.allocCell.2) (p := g.dsa.palloc.1)
        List.mem_cons_self
      refine ⟨none, g', ?_, ?_, fun q hq => ?_, fun _ => ?_, fun n hn => absurd hn (by simp)⟩
      · rw [if_pos hfail]
        exact Option.map_eq_some_iff.2 ⟨g', hg', rfl⟩
      · rw [if_pos hfail, hdsa]
        rfl
      · rw [(hkeep q (hne q hq)).1, (hkeep q (hne q hq)).2]
        exact ⟨AList.lookup_insert_ne (hne q hq), rfl⟩
      · rw [hdsa]
        exact hg.palloc.pfree
    · rw [if_neg hfail, if_neg hfail]
      obtain ⟨hq, hdsa, hcells, hbuffers, hvalue⟩ := allocBuffer_spec value g.allocCell.2 hg.palloc
      have hcell : (g.allocCell.2.allocBuffer value).2.cells.lookup g.dsa.palloc.1 =
          some ⟨none, none, 0, 0, none⟩ := by
        rw [hcells]
        exact AList.lookup_insert _
      obtain ⟨g', hg', hdsa', hbuffers', hcells'⟩ := exists_modify hcell fun _ =>
        ⟨none, none, ord, UInt16.ofNat value.length, (g.allocCell.2.allocBuffer value).1⟩
      refine ⟨some ⟨g.dsa.palloc.1, ord, UInt16.ofNat value.length,
        (SharedHash.allocValue value g.dsa.palloc.2).1, value⟩, g', ?_, ?_, fun r hr => ?_,
        fun h => absurd h (by simp), fun n hn => ?_⟩
      · exact Option.map_eq_some_iff.2 ⟨g', hg', rfl⟩
      · rw [hdsa', hdsa]
        rfl
      · rw [hcells', if_neg (hne r hr), hcells, hbuffers',
          hbuffers r (List.mem_cons_of_mem _ hr)]
        exact ⟨AList.lookup_insert_ne (hne r hr), rfl⟩
      · obtain rfl := Option.some.inj hn
        have hself := hcells' g.dsa.palloc.1
        rw [if_pos rfl, hq] at hself
        refine ⟨⟨⟨none, none, hself⟩, fun q hmem => ?_, fun hnone => ?_, rfl⟩, rfl, rfl, ?_, hp,
          hself⟩
        · rw [hbuffers']
          refine hvalue q ?_
          rw [hq]
          exact hmem
        · by_contra hnil
          have hsome := (SharedHash.isSome_allocValue g.dsa.palloc.2 value).2 hnil
          exact absurd (hsome.symm.trans (congrArg Option.isSome hnone)) (by simp)
        · rw [hdsa', hdsa]
          exact (SharedHash.allocValue_has hg.palloc value).perm
            (List.perm_middle.trans (.refl _))

/-! ## The two ends

What the operations at either end do to the links is the same, with the two directions
exchanged. -/

namespace SharedCell

/-- The link away from an end. -/
def out : Side → SharedCell → Option ℕ
  | .left => next
  | .right => prev

/-- The link towards an end. -/
def back : Side → SharedCell → Option ℕ
  | .left => prev
  | .right => next

/-- Setting the link away from an end. -/
def setOut (side : Side) (o : Option ℕ) (x : SharedCell) : SharedCell :=
  match side with
  | .left => { x with next := o }
  | .right => { x with prev := o }

/-- Setting the link towards an end. -/
def setBack (side : Side) (o : Option ℕ) (x : SharedCell) : SharedCell :=
  match side with
  | .left => { x with prev := o }
  | .right => { x with next := o }

variable {x : SharedCell} {side : Side} {o : Option ℕ}

@[simp] theorem out_setOut : (x.setOut side o).out side = o := by
  cases side <;> rfl

@[simp] theorem back_setOut : (x.setOut side o).back side = x.back side := by
  cases side <;> rfl

@[simp] theorem out_setBack : (x.setBack side o).out side = x.out side := by
  cases side <;> rfl

@[simp] theorem back_setBack : (x.setBack side o).back side = o := by
  cases side <;> rfl

/-- The fields that are not links. -/
def Alike (x y : SharedCell) : Prop :=
  y.ord = x.ord ∧ y.valueLen = x.valueLen ∧ y.valueDsa = x.valueDsa

theorem alike_setOut : Alike x (x.setOut side o) := by
  cases side <;> exact ⟨rfl, rfl, rfl⟩

theorem alike_setBack : Alike x (x.setBack side o) := by
  cases side <;> exact ⟨rfl, rfl, rfl⟩

end SharedCell

namespace Segment

/-- The link of the node at an address. -/
def linkOf (f : SharedCell → Option ℕ) (g : Segment) (p : ℕ) : Option ℕ :=
  (g.cells.lookup p).bind f

variable {g g' : Segment} {p : ℕ} {f : SharedCell → SharedCell}

theorem linkOf_congr {h : SharedCell → Option ℕ} (hp : g'.cells.lookup p = g.cells.lookup p) :
    g'.linkOf h p = g.linkOf h p := by
  rw [linkOf, hp, linkOf]

/-- Writing to the links of a node. -/
theorem exists_relink {x : SharedCell} (h : g.cells.lookup p = some x)
    (hf : ∀ x, SharedCell.Alike x (f x)) :
    ∃ g', g.modify p f = some g' ∧ g'.dsa = g.dsa ∧ g'.cells.lookup p = some (f x) ∧
      (∀ q, q ≠ p → g'.cells.lookup q = g.cells.lookup q) ∧ g'.buffers = g.buffers ∧
      ∀ n : SharedNode, n.In g → n.In g' := by
  obtain ⟨g', hg', hdsa, hbuffers, hcells⟩ := exists_modify h f
  refine ⟨g', hg', hdsa, by rw [hcells, if_pos rfl], fun q hq => by rw [hcells, if_neg hq],
    hbuffers, fun n hn => ⟨?_, ?_, hn.empty, hn.len⟩⟩
  · obtain ⟨prev, next, hcell⟩ := hn.cell
    rw [hcells]
    split_ifs with heq
    · rw [heq, h, Option.some.injEq] at hcell
      subst hcell
      obtain ⟨hord, hlen, hval⟩ := hf ⟨prev, next, n.ord, n.valueLen, n.valueDsa⟩
      exact ⟨_, _, congrArg some (SharedCell.ext rfl rfl hord hlen hval)⟩
    · exact ⟨prev, next, hcell⟩
  · rw [hbuffers]
    exact hn.buffer

end Segment

namespace SharedListMeta

/-- The links of the list in memory. -/
def links (L : SharedListMeta) (g : Segment) : DLinks ℕ where
  head := L.head
  tail := L.tail
  next := g.linkOf SharedCell.next
  prev := g.linkOf SharedCell.prev

/-- The list in memory has the nodes of `l`, linked in their order, and what else is allocated
    is `others`. -/
structure Represents (g : Segment) (others : List ℕ) (L : SharedListMeta) (l : SharedList) :
    Prop where
  has : g.dsa.Has (l.chunks ++ others)
  nodes : ∀ n ∈ l.nodes, n.In g
  links : (L.links g).IsList (l.nodes.map SharedNode.dsa)
  length : L.length = l.length
  count : l.length = l.nodes.length
  minOrd : L.minOrd = l.minOrd
  maxOrd : L.maxOrd = l.maxOrd
  ordInitialized : L.ordInitialized = l.ordInitialized

variable {g g₁ : Segment} {others : List ℕ} {L : SharedListMeta} {l : SharedList} {n : SharedNode}
  {nb : Option SharedNode} {side : Side}

/-- The writes through the link to a neighbour. -/
theorem exists_modifyLink (hnb : ∀ j ∈ nb, j.In g) (side : Side) (o : Option ℕ) :
    ∃ g', g.modifyLink (nb.map SharedNode.dsa) (SharedCell.setBack side o) = some g' ∧
      g'.dsa = g.dsa ∧ (∀ q, (∀ j ∈ nb, q ≠ j.dsa) → g'.cells.lookup q = g.cells.lookup q) ∧
      g'.buffers = g.buffers ∧ (∀ n : SharedNode, n.In g → n.In g') ∧
      (∀ q, g'.linkOf (SharedCell.out side) q = g.linkOf (SharedCell.out side) q) ∧
      g'.linkOf (SharedCell.back side) =
        DLinks.setLink (nb.map SharedNode.dsa) o (g.linkOf (SharedCell.back side)) := by
  cases nb with
  | none => exact ⟨g, rfl, rfl, fun _ _ => rfl, rfl, fun _ h => h, fun _ => rfl, rfl⟩
  | some j =>
    obtain ⟨prev, next, hcell⟩ := (hnb j rfl).cell
    obtain ⟨g', hg', hdsa, hself, hkeep, hbuffers, hin⟩ :=
      Segment.exists_relink hcell fun x => (SharedCell.alike_setBack : x.Alike (x.setBack side o))
    refine ⟨g', hg', hdsa, fun q hq => hkeep q (hq j rfl), hbuffers, hin, fun q => ?_, ?_⟩
    · by_cases hq : q = j.dsa
      · rw [Segment.linkOf, hq, hself, Segment.linkOf, hcell]
        exact SharedCell.out_setBack
      · exact Segment.linkOf_congr (hkeep q hq)
    · funext q
      rw [Option.map_some, DLinks.setLink, Function.update_apply]
      split_ifs with hq
      · rw [Segment.linkOf, hq, hself]
        exact SharedCell.back_setBack
      · exact Segment.linkOf_congr (hkeep q hq)

theorem mem_chunks {nodes : List SharedNode} (h : n ∈ nodes) :
    n.dsa ∈ nodes.flatMap SharedNode.chunks :=
  List.mem_flatMap.2 ⟨n, h, List.mem_cons_self⟩

theorem map_dsa_subset (nodes : List SharedNode) :
    nodes.map SharedNode.dsa ⊆ nodes.flatMap SharedNode.chunks := by
  intro p hp
  obtain ⟨m, hm, rfl⟩ := List.mem_map.1 hp
  exact mem_chunks hm

/-- The memory of a push next to the neighbour `nb`. -/
theorem exists_attach (hr : Represents g others L l) (hnb : ∀ j ∈ nb, j ∈ l.nodes)
    (hn : n.In g₁) (hsame : Segment.Same g.dsa.live g g₁) (hfresh : n.dsa ∉ g.dsa.live)
    (hcell : g₁.cells.lookup n.dsa = some ⟨none, none, n.ord, n.valueLen, n.valueDsa⟩)
    (side : Side) :
    ∃ g₂ g₃, g₁.modify n.dsa (SharedCell.setOut side (nb.map SharedNode.dsa)) = some g₂ ∧
      g₂.modifyLink (nb.map SharedNode.dsa) (SharedCell.setBack side (some n.dsa)) = some g₃ ∧
      g₃.dsa = g₁.dsa ∧ Segment.Same others g g₃ ∧ (∀ m, m = n ∨ m ∈ l.nodes → m.In g₃) ∧
      (∀ p ∈ n.dsa :: l.nodes.map SharedNode.dsa, g₃.linkOf (SharedCell.out side) p =
        Function.update (g.linkOf (SharedCell.out side)) n.dsa (nb.map SharedNode.dsa) p) ∧
      ∀ p ∈ n.dsa :: l.nodes.map SharedNode.dsa, g₃.linkOf (SharedCell.back side) p =
        DLinks.setLink (nb.map SharedNode.dsa) (some n.dsa)
          (Function.update (g.linkOf (SharedCell.back side)) n.dsa none) p := by
  have hlive : l.chunks ++ others ⊆ g.dsa.live := fun p hp => hr.has.live.mem_iff.2 hp
  have hdsa : ∀ p ∈ l.nodes.map SharedNode.dsa, p ∈ g.dsa.live := fun p hp =>
    hlive (List.mem_append_left _ (map_dsa_subset l.nodes hp))
  have hin₁ : ∀ m ∈ l.nodes, m.In g₁ := fun m hm => (hr.nodes m hm).same
    (hsame.mono fun p hp => hlive (List.mem_append_left _ (List.mem_flatMap.2 ⟨m, hm, hp⟩)))
  obtain ⟨g₂, h₂, hdsa₂, hself₂, hkeep₂, hbuf₂, hin₂⟩ := Segment.exists_relink hcell fun x =>
    (SharedCell.alike_setOut : x.Alike (x.setOut side (nb.map SharedNode.dsa)))
  obtain ⟨g₃, h₃, hdsa₃, hkeep₃, hbuf₃, hin₃, hout, hback⟩ :=
    exists_modifyLink (fun j hj => hin₂ j (hin₁ j (hnb j hj))) side (some n.dsa)
  -- The link of any other node is as it was.
  have hlink : ∀ (f : SharedCell → Option ℕ), ∀ p ∈ l.nodes.map SharedNode.dsa,
      g₂.linkOf f p = g.linkOf f p := fun f p hp => Segment.linkOf_congr
    ((hkeep₂ p (ne_of_mem_of_not_mem (hdsa p hp) hfresh)).trans (hsame p (hdsa p hp)).1)
  refine ⟨g₂, g₃, h₂, h₃, hdsa₃.trans hdsa₂, fun p hp => ?_, fun m hm => hin₃ m (hin₂ m ?_),
    fun p hp => ?_, fun p hp => ?_⟩
  · have hplive := hlive (List.mem_append_right _ hp)
    have hne : ∀ j ∈ nb, p ≠ j.dsa := fun j hj heq => by
      have hnd := hr.has.live.nodup_iff.1 hr.has.nodup
      exact (List.nodup_append.1 hnd).2.2 j.dsa (mem_chunks (hnb j hj)) p hp heq.symm
    rw [hkeep₃ p hne, hkeep₂ p (ne_of_mem_of_not_mem hplive hfresh), hbuf₃, hbuf₂]
    exact hsame p hplive
  · rcases hm with rfl | hm
    · exact hn
    · exact hin₁ m hm
  · rw [hout]
    rcases List.mem_cons.1 hp with rfl | hp
    · rw [Segment.linkOf, hself₂, Function.update_self]
      exact SharedCell.out_setOut
    · rw [hlink _ p hp, Function.update_of_ne (ne_of_mem_of_not_mem (hdsa p hp) hfresh)]
  · rw [hback]
    refine DLinks.setLink_congr ?_
    rcases List.mem_cons.1 hp with rfl | hp
    · rw [Segment.linkOf, hself₂, Function.update_self]
      refine SharedCell.back_setOut.trans ?_
      cases side <;> rfl
    · rw [hlink _ p hp, Function.update_of_ne (ne_of_mem_of_not_mem (hdsa p hp) hfresh)]

/-- A node freed. -/
theorem exists_freeNode {chunks : List ℕ} (hg : g.dsa.Has (n.chunks ++ chunks)) (hn : n.In g) :
    ∃ g', g.freeNode n.dsa = some g' ∧ g'.dsa = SharedList.freeNode g.dsa n ∧
      g'.dsa.Has chunks ∧ Segment.Same chunks g g' := by
  obtain ⟨prev, next, hcell⟩ := hn.cell
  have hnd := hg.live.nodup_iff.1 hg.nodup
  have hne : ∀ p ∈ chunks, p ≠ n.dsa := fun p hp heq =>
    (List.nodup_append.1 hnd).2.2 n.dsa List.mem_cons_self p hp heq.symm
  -- The chunk of the value first, if there is one.
  obtain ⟨g₁, h₁, hdsa₁, hsame₁⟩ : ∃ g₁, g.pfree n.valueDsa = some g₁ ∧
      g₁.dsa = g.dsa.pfree n.valueDsa ∧ Segment.Same chunks g g₁ := by
    cases hq : n.valueDsa with
    | none => exact ⟨g, rfl, rfl, .refl _ g⟩
    | some q =>
      have hmem : q ∈ n.chunks := List.mem_cons_of_mem _ (Option.mem_toList.2 hq)
      obtain ⟨g₁, h₁, hdsa₁, hkeep⟩ := Segment.exists_pfree (g := g) (p := q)
        (hg.live.mem_iff.2 (List.mem_append_left _ hmem))
      exact ⟨g₁, h₁, hdsa₁, fun p hp =>
        hkeep p fun heq => (List.nodup_append.1 hnd).2.2 q hmem p hp heq.symm⟩
  have hhas₁ : g₁.dsa.Has (n.dsa :: chunks) := by
    rw [hdsa₁]
    exact (hg.perm List.perm_middle.symm).pfree_toList
  obtain ⟨g₂, h₂, hdsa₂, hkeep₂⟩ := Segment.exists_pfree (g := g₁) (p := n.dsa)
    (hhas₁.live.mem_iff.2 List.mem_cons_self)
  refine ⟨g₂, ?_, ?_, ?_, hsame₁.trans fun p hp => hkeep₂ p (hne p hp)⟩
  · rw [Segment.freeNode, hcell, Option.bind_eq_bind, Option.bind_some]
    exact Option.bind_eq_some_iff.2 ⟨g₁, h₁, h₂⟩
  · rw [hdsa₂, hdsa₁]
    rfl
  · rw [hdsa₂]
    exact hhas₁.pfree

/-- The memory of a pop of the node `n` next to the neighbour `nb`. -/
theorem exists_detach {nodes : List SharedNode}
    (hg : g.dsa.Has (n.chunks ++ (nodes.flatMap SharedNode.chunks ++ others))) (hn : n.In g)
    (hin : ∀ m ∈ nodes, m.In g) (hnb : ∀ j ∈ nb, j ∈ nodes) (side : Side) :
    ∃ x g₁ g₂, g.cells.lookup n.dsa = some x ∧ x.ord = n.ord ∧
      g.copyValueOut x = some n.bytes ∧
      g.modifyLink (nb.map SharedNode.dsa) (SharedCell.setBack side none) = some g₁ ∧
      (∀ j ∈ nb, ∃ y, g₁.cells.lookup j.dsa = some y ∧ y.ord = j.ord) ∧
      g₁.freeNode n.dsa = some g₂ ∧ g₂.dsa.Has (nodes.flatMap SharedNode.chunks ++ others) ∧
      Segment.Same others g g₂ ∧ (∀ m ∈ nodes, m.In g₂) ∧
      (∀ p ∈ nodes.map SharedNode.dsa, g₂.linkOf (SharedCell.out side) p =
        Function.update (g.linkOf (SharedCell.out side)) n.dsa none p) ∧
      ∀ p ∈ nodes.map SharedNode.dsa, g₂.linkOf (SharedCell.back side) p =
        DLinks.setLink (nb.map SharedNode.dsa) none
          (Function.update (g.linkOf (SharedCell.back side)) n.dsa none) p := by
  obtain ⟨prev, next, hcell⟩ := hn.cell
  obtain ⟨g₁, h₁, hdsa₁, hkeep₁, hbuf₁, hin₁, hout, hback⟩ :=
    exists_modifyLink (fun j hj => hin j (hnb j hj)) side none
  obtain ⟨g₂, h₂, hdsa₂, hhas₂, hsame₂⟩ := exists_freeNode (hdsa₁ ▸ hg) (hin₁ n hn)
  have hnd := hg.live.nodup_iff.1 hg.nodup
  -- The chunks of the other nodes are not those that are freed, since all are distinct.
  have hdsa : ∀ p ∈ nodes.map SharedNode.dsa, p ≠ n.dsa ∧
      p ∈ nodes.flatMap SharedNode.chunks ++ others := fun p hp => by
    have hp := List.mem_append_left others (map_dsa_subset nodes hp)
    exact ⟨fun heq => (List.nodup_append.1 hnd).2.2 n.dsa List.mem_cons_self p hp heq.symm, hp⟩
  have hlink : ∀ (f : SharedCell → Option ℕ), ∀ p ∈ nodes.map SharedNode.dsa,
      g₂.linkOf f p = g₁.linkOf f p := fun f p hp =>
    Segment.linkOf_congr (hsame₂ p (hdsa p hp).2).1
  refine ⟨_, g₁, g₂, hcell, rfl, hn.copyValueOut rfl rfl, h₁, fun j hj => ?_, h₂, hhas₂,
    fun p hp => ?_, fun m hm => (hin₁ m (hin m hm)).same ?_, fun p hp => ?_, fun p hp => ?_⟩
  · obtain ⟨prev, next, hcell⟩ := (hin₁ j (hin j (hnb j hj))).cell
    exact ⟨_, hcell, rfl⟩
  · have hne : ∀ j ∈ nb, p ≠ j.dsa := fun j hj heq =>
      (List.nodup_append.1 (List.nodup_append.1 hnd).2.1).2.2 j.dsa (mem_chunks (hnb j hj)) p hp
        heq.symm
    have hsame := hsame₂ p (List.mem_append_right _ hp)
    rw [hkeep₁ p hne, hbuf₁] at hsame
    exact hsame
  · exact hsame₂.mono fun p hp =>
      List.mem_append_left _ (List.mem_flatMap.2 ⟨m, hm, hp⟩)
  · rw [hlink _ p hp, hout, Function.update_of_ne (hdsa p hp).1]
  · rw [hlink _ p hp, hback]
    exact DLinks.setLink_congr (Function.update_of_ne (hdsa p hp).1 _ _).symm

end SharedListMeta

end PgRedis
