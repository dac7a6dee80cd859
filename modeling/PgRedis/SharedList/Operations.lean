import PgRedis.SharedList.Memory

/-!
# Operations on the list in shared memory

A push and a pop at an end, on the nodes (`SharedList.rpush` is the push at the right end, the
others are its like) and in memory: each keeps `SharedListMeta.Represents`. So do the loops that
build a list, free it and read it back: they compute in memory what they compute of the nodes
(`SharedListMeta.pushAll_refines`).
-/

namespace PgRedis

open Lib

/-! ## The operations on the nodes -/

namespace SharedList

/-- The ordinal of the next node at an end. -/
def nextOrd (side : Side) (l : SharedList) : ℤ :=
  if l.ordInitialized then
    match side with
    | .left => l.minOrd - 1
    | .right => l.maxOrd + 1
  else 0

/-- The list with a node more at an end, of the next ordinal. -/
def attach (side : Side) (n : SharedNode) (l : SharedList) : SharedList :=
  match side with
  | .left =>
    { nodes := n :: l.nodes
      length := l.length + 1
      minOrd := l.nextOrd .left
      maxOrd := if l.ordInitialized then l.maxOrd else l.nextOrd .left
      ordInitialized := true }
  | .right =>
    { nodes := l.nodes ++ [n]
      length := l.length + 1
      minOrd := if l.ordInitialized then l.minOrd else l.nextOrd .right
      maxOrd := l.nextOrd .right
      ordInitialized := true }

theorem nodes_attach_left (n : SharedNode) (l : SharedList) :
    (l.attach .left n).nodes = n :: l.nodes := rfl

theorem nodes_attach_right (n : SharedNode) (l : SharedList) :
    (l.attach .right n).nodes = l.nodes ++ [n] := rfl

/-- The list when the node at an end is taken out and `nodes` are left. -/
def detach (side : Side) (nodes : List SharedNode) (l : SharedList) : SharedList :=
  match side with
  | .left =>
    match nodes.head? with
    | none => ⟨nodes, l.length - 1, 0, -1, false⟩
    | some j => ⟨nodes, l.length - 1, j.ord, l.maxOrd, l.ordInitialized⟩
  | .right =>
    match nodes.getLast? with
    | none => ⟨nodes, l.length - 1, 0, -1, false⟩
    | some j => ⟨nodes, l.length - 1, l.minOrd, j.ord, l.ordInitialized⟩

/-- A push at an end: `none` when out of memory. -/
def push (side : Side) (ok : NodeSite → Bool) (value : Bytes) (l : SharedList) (d : Dsa) :
    Dsa × Option SharedList :=
  let r := newNode ok value (l.nextOrd side) d
  (r.1, r.2.map fun n => l.attach side n)

theorem push_right (ok : NodeSite → Bool) (value : Bytes) (l : SharedList) (d : Dsa) :
    l.push .right ok value d = l.rpush ok value d := by
  have hord : l.nextOrd .right = if l.ordInitialized then l.maxOrd + 1 else 0 := rfl
  rw [push, SharedList.rpush, ← hord]
  obtain ⟨d', o⟩ := newNode ok value (l.nextOrd .right) d
  cases o <;> rfl

end SharedList

namespace SharedListMeta

/-- A push that finds no memory changes nothing but the segment, and that back. -/
theorem Represents.same (hr : Represents g others L l) (hsame : Segment.Same g.dsa.live g g₁)
    (hhas : g₁.dsa.Has (l.chunks ++ others)) : Represents g₁ others L l := by
  have hlive : l.chunks ++ others ⊆ g.dsa.live := fun p hp => hr.has.live.mem_iff.2 hp
  refine ⟨hhas, fun n hn => (hr.nodes n hn).same (hsame.mono fun p hp => ?_),
    hr.links.congr_of_mem rfl rfl (fun p hp => ?_) (fun p hp => ?_), hr.length, hr.count,
    hr.minOrd, hr.maxOrd, hr.ordInitialized⟩
  · exact hlive (List.mem_append_left _ (List.mem_flatMap.2 ⟨n, hn, hp⟩))
  · exact Segment.linkOf_congr
      (hsame p (hlive (List.mem_append_left _ (map_dsa_subset l.nodes hp)))).1
  · exact Segment.linkOf_congr
      (hsame p (hlive (List.mem_append_left _ (map_dsa_subset l.nodes hp)))).1

theorem Represents.head_eq (hr : Represents g others L l) :
    L.head = l.nodes.head?.map SharedNode.dsa := by
  rw [← List.head?_map]
  exact hr.links.head_eq

theorem Represents.tail_eq (hr : Represents g others L l) :
    L.tail = l.nodes.getLast?.map SharedNode.dsa := by
  rw [← List.getLast?_map]
  exact hr.links.tail_eq

/-- A node that is not yet in the list is at none of its addresses. -/
theorem Represents.notMem (hr : Represents g others L l) {n : SharedNode}
    (hfresh : n.dsa ∉ g.dsa.live) : n.dsa ∉ l.nodes.map SharedNode.dsa := fun hmem =>
  hfresh (hr.has.live.mem_iff.2 (List.mem_append_left _ (map_dsa_subset l.nodes hmem)))

theorem Represents.lpush (hr : Represents g others L l) (ok : NodeSite → Bool) (value : Bytes) :
    ∃ o g', L.lpush ok value g = some (o, g') ∧ (l.push .left ok value g.dsa).1 = g'.dsa ∧
      Option.Rel (Represents g' others) o (l.push .left ok value g.dsa).2 ∧
      Segment.Same others g g' ∧ (o = none → Represents g' others L l) := by
  obtain ⟨o, g₁, h₁, habs, hsame, hnone, hsome⟩ :=
    Segment.exists_newNode ok value (l.nextOrd .left) g hr.has
  have hord : (if L.ordInitialized then L.minOrd - 1 else 0) = l.nextOrd .left := by
    rw [hr.ordInitialized, hr.minOrd]
    rfl
  rw [SharedListMeta.lpush, hord, SharedList.push, habs, h₁]
  simp only [Option.bind_eq_bind, Option.bind_some]
  -- Out of memory the list is as it was; else the node goes in front of the head.
  cases o with
  | none =>
    exact ⟨none, g₁, rfl, rfl, .none, hsame.mono fun p hp =>
      hr.has.live.mem_iff.2 (List.mem_append_right _ hp), fun _ => hr.same hsame (hnone rfl)⟩
  | some n =>
    obtain ⟨hn, hnord, -, hhas, hfresh, hcell⟩ := hsome n rfl
    obtain ⟨g₂, g₃, h₂, h₃, hdsa, hothers, hin, hnext, hprev⟩ := exists_attach hr
      (fun j (hj : j ∈ l.nodes.head?) => List.mem_of_mem_head? hj) hn hsame hfresh hcell .left
    rw [← hr.head_eq] at h₂ h₃ hnext hprev
    simp only [Option.map_some]
    have hlinks := hr.links.pushFront (hr.notMem hfresh)
    refine ⟨_, g₃, Option.bind_eq_some_iff.2 ⟨g₂, h₂, Option.bind_eq_some_iff.2 ⟨g₃, h₃, rfl⟩⟩,
      hdsa.symm, .some ⟨?_, fun m hm => hin m (List.mem_cons.1 hm), ?_, ?_, ?_, rfl, ?_, rfl⟩,
      hothers, fun h => absurd h (by simp)⟩
    · rw [hdsa]
      exact hhas.perm (.of_eq (List.append_assoc _ _ _).symm)
    · exact hlinks.congr_of_mem rfl (if_congr hr.links.head_eq_none_iff rfl rfl) hnext hprev
    · exact congrArg (· + 1) hr.length
    · rw [SharedList.nodes_attach_left, List.length_cons, Int.natCast_succ, ← hr.count]
      rfl
    · simp only [SharedList.attach, hr.ordInitialized, hr.maxOrd]

theorem Represents.rpush (hr : Represents g others L l) (ok : NodeSite → Bool) (value : Bytes) :
    ∃ o g', L.rpush ok value g = some (o, g') ∧ (l.push .right ok value g.dsa).1 = g'.dsa ∧
      Option.Rel (Represents g' others) o (l.push .right ok value g.dsa).2 ∧
      Segment.Same others g g' ∧ (o = none → Represents g' others L l) := by
  obtain ⟨o, g₁, h₁, habs, hsame, hnone, hsome⟩ :=
    Segment.exists_newNode ok value (l.nextOrd .right) g hr.has
  have hord : (if L.ordInitialized then L.maxOrd + 1 else 0) = l.nextOrd .right := by
    rw [hr.ordInitialized, hr.maxOrd]
    rfl
  rw [SharedListMeta.rpush, hord, SharedList.push, habs, h₁]
  simp only [Option.bind_eq_bind, Option.bind_some]
  cases o with
  | none =>
    exact ⟨none, g₁, rfl, rfl, .none, hsame.mono fun p hp =>
      hr.has.live.mem_iff.2 (List.mem_append_right _ hp), fun _ => hr.same hsame (hnone rfl)⟩
  | some n =>
    obtain ⟨hn, hnord, -, hhas, hfresh, hcell⟩ := hsome n rfl
    obtain ⟨g₂, g₃, h₂, h₃, hdsa, hothers, hin, hprev, hnext⟩ := exists_attach hr
      (fun j (hj : j ∈ l.nodes.getLast?) => List.mem_of_mem_getLast? hj) hn hsame hfresh hcell
      .right
    rw [← hr.tail_eq] at h₂ h₃ hnext hprev
    simp only [Option.map_some]
    have hlinks := hr.links.pushBack (hr.notMem hfresh)
    -- The node at the other end of the list of addresses is among those of the two laws.
    have hmem : ∀ p ∈ (l.nodes ++ [n]).map SharedNode.dsa,
        p ∈ n.dsa :: l.nodes.map SharedNode.dsa := fun p hp => by
      rwa [List.map_append, List.mem_append, or_comm, List.map_singleton, ← List.mem_append,
        List.singleton_append] at hp
    refine ⟨_, g₃, Option.bind_eq_some_iff.2 ⟨g₂, h₂, Option.bind_eq_some_iff.2 ⟨g₃, h₃, rfl⟩⟩,
      hdsa.symm, .some ⟨?_, fun m hm => hin m ?_, ?_, ?_, ?_, ?_, rfl, rfl⟩, hothers,
      fun h => absurd h (by simp)⟩
    · rw [hdsa]
      refine hhas.perm ?_
      rw [(l.attach .right n).chunks_eq, SharedList.nodes_attach_right, List.flatMap_append,
        List.flatMap_singleton, ← List.append_assoc]
      exact List.perm_append_comm.append_right others
    · rwa [SharedList.nodes_attach_right, List.mem_append, List.mem_singleton, or_comm] at hm
    · rw [SharedList.nodes_attach_right, List.map_append, List.map_singleton]
      refine hlinks.congr_of_mem (if_congr hr.links.head_eq_none_iff.symm rfl rfl) rfl
        (fun p hp => hnext p (hmem p ?_)) fun p hp => hprev p (hmem p ?_)
      · rwa [List.map_append, List.map_singleton]
      · rwa [List.map_append, List.map_singleton]
    · exact congrArg (· + 1) hr.length
    · rw [SharedList.nodes_attach_right, List.length_append, List.length_singleton,
        Int.natCast_succ, ← hr.count]
      rfl
    · simp only [SharedList.attach, hr.ordInitialized, hr.minOrd]

theorem Represents.lpop_nil (hr : Represents g others L l) (hl : l.nodes = []) :
    L.lpop g = some (none, L, g) := by
  rw [SharedListMeta.lpop, hr.head_eq, hl]
  rfl

theorem Represents.lpop {nodes : List SharedNode} (hr : Represents g others L l)
    (hl : l.nodes = n :: nodes) :
    ∃ L' g', L.lpop g = some (some (n.bytes, n.ord), L', g') ∧
      Represents g' others L' (l.detach .left nodes) ∧ Segment.Same others g g' := by
  have hhas := hr.has
  have hlinks := hr.links
  have hcount := hr.count
  rw [SharedList.chunks_eq, hl, List.flatMap_cons, List.append_assoc] at hhas
  rw [hl, List.map_cons] at hlinks
  rw [hl, List.length_cons, Int.natCast_succ] at hcount
  obtain ⟨x, g₁, g₂, hcell, hord, hout, h₁, hords, h₂, hhas₂, hothers, hin, hnext, hprev⟩ :=
    exists_detach hhas (hr.nodes n (hl ▸ List.mem_cons_self))
      (fun m hm => hr.nodes m (hl ▸ List.mem_cons_of_mem n hm))
      (fun j (hj : j ∈ nodes.head?) => List.mem_of_mem_head? hj) .left
  have hhead : L.head = some n.dsa := by rw [hr.head_eq, hl]; rfl
  -- The link of the node in memory is that of the abstract list.
  have hxnext : (L.links g).next n.dsa = x.next := by
    change (g.cells.lookup n.dsa).bind SharedCell.next = x.next
    rw [hcell, Option.bind_some]
  have hnextdsa : (L.links g).next n.dsa = nodes.head?.map SharedNode.dsa := by
    rw [hlinks.next_eq, List.head?_map]
  have hpop := hlinks.popFront
  rw [SharedListMeta.lpop, hhead]
  simp only [Option.bind_eq_bind, hcell, Option.bind_some, hout]
  rw [← hxnext, hnextdsa, hord]
  rw [DLinks.popFront, hnextdsa] at hpop
  -- The last node leaves an empty list; else the next one is the head, without a link back.
  cases hj : nodes.head? with
  | none =>
    rw [hj] at hpop h₁ hprev
    obtain rfl := Option.some.inj h₁
    obtain rfl := List.head?_eq_none_iff.1 hj
    refine ⟨⟨none, none, L.length - 1, 0, -1, false⟩, g₂, ?_,
      ⟨hhas₂, hin, hpop.congr_of_mem rfl rfl hnext hprev, congrArg (· - 1) hr.length, ?_, rfl,
        rfl, rfl⟩, hothers⟩
    · simp only [Option.map_none, Option.bind_some, h₂]
    · change l.length - 1 = _
      rw [hcount, Int.add_sub_cancel]
      rfl
  | some j =>
    rw [hj] at hpop h₁ hprev
    obtain ⟨y, hy, hyord⟩ := hords j hj
    have hdetach : l.detach .left nodes = ⟨nodes, l.length - 1, j.ord, l.maxOrd,
        l.ordInitialized⟩ := by
      rw [SharedList.detach, hj]
    have hmodify : g.modify j.dsa (fun y => { y with prev := none }) = some g₁ := h₁
    rw [hdetach]
    refine ⟨⟨some j.dsa, L.tail, L.length - 1, j.ord, L.maxOrd, L.ordInitialized⟩, g₂, ?_,
      ⟨hhas₂, hin, hpop.congr_of_mem rfl rfl hnext hprev, congrArg (· - 1) hr.length, ?_, rfl,
        hr.maxOrd, hr.ordInitialized⟩, hothers⟩
    · simp only [Option.map_some, hmodify, Option.bind_some, hy, hyord, h₂]
    · rw [hcount, Int.add_sub_cancel]

theorem Represents.rpop_nil (hr : Represents g others L l) (hl : l.nodes = []) :
    L.rpop g = some (none, L, g) := by
  rw [SharedListMeta.rpop, hr.tail_eq, hl]
  rfl

theorem Represents.rpop {nodes : List SharedNode} (hr : Represents g others L l)
    (hl : l.nodes = nodes ++ [n]) :
    ∃ L' g', L.rpop g = some (some (n.bytes, n.ord), L', g') ∧
      Represents g' others L' (l.detach .right nodes) ∧ Segment.Same others g g' := by
  have hhas := hr.has
  have hlinks := hr.links
  have hcount := hr.count
  rw [SharedList.chunks_eq, hl, List.flatMap_append, List.flatMap_singleton] at hhas
  rw [hl, List.map_append, List.map_singleton] at hlinks
  rw [hl, List.length_append, List.length_singleton, Int.natCast_succ] at hcount
  -- In the order of the chunks the node comes first.
  have hhas' : g.dsa.Has (n.chunks ++ (nodes.flatMap SharedNode.chunks ++ others)) :=
    hhas.perm ((List.perm_append_comm.append_right others).trans
      (.of_eq (List.append_assoc _ _ _)))
  obtain ⟨x, g₁, g₂, hcell, hord, hout, h₁, hords, h₂, hhas₂, hothers, hin, hprev, hnext⟩ :=
    exists_detach hhas' (hr.nodes n (hl ▸ List.mem_append_right _ List.mem_cons_self))
      (fun m hm => hr.nodes m (hl ▸ List.mem_append_left _ hm))
      (fun j (hj : j ∈ nodes.getLast?) => List.mem_of_mem_getLast? hj) .right
  have htail : L.tail = some n.dsa := by rw [hr.tail_eq, hl, List.getLast?_concat]; rfl
  have hxprev : (L.links g).prev n.dsa = x.prev := by
    change (g.cells.lookup n.dsa).bind SharedCell.prev = x.prev
    rw [hcell, Option.bind_some]
  have hprevdsa : (L.links g).prev n.dsa = nodes.getLast?.map SharedNode.dsa := by
    rw [hlinks.prev_eq, List.getLast?_map]
  have hmirror : (L.links g).mirror.next n.dsa = nodes.getLast?.map SharedNode.dsa := hprevdsa
  have hpop := hlinks.popBack
  rw [SharedListMeta.rpop, htail]
  simp only [Option.bind_eq_bind, hcell, Option.bind_some, hout]
  rw [← hxprev, hprevdsa, hord]
  rw [DLinks.popBack, DLinks.popFront, hmirror] at hpop
  cases hj : nodes.getLast? with
  | none =>
    rw [hj] at hpop h₁ hnext
    obtain rfl := Option.some.inj h₁
    obtain rfl := List.getLast?_eq_none_iff.1 hj
    refine ⟨⟨none, none, L.length - 1, 0, -1, false⟩, g₂, ?_,
      ⟨hhas₂, hin, hpop.congr_of_mem rfl rfl hnext hprev, congrArg (· - 1) hr.length, ?_, rfl,
        rfl, rfl⟩, hothers⟩
    · simp only [Option.map_none, Option.bind_some, h₂]
    · change l.length - 1 = _
      rw [hcount, Int.add_sub_cancel]
      rfl
  | some j =>
    rw [hj] at hpop h₁ hnext
    obtain ⟨y, hy, hyord⟩ := hords j hj
    have hdetach : l.detach .right nodes = ⟨nodes, l.length - 1, l.minOrd, j.ord,
        l.ordInitialized⟩ := by
      rw [SharedList.detach, hj]
    have hmodify : g.modify j.dsa (fun y => { y with next := none }) = some g₁ := h₁
    rw [hdetach]
    refine ⟨⟨L.head, some j.dsa, L.length - 1, L.minOrd, j.ord, L.ordInitialized⟩, g₂, ?_,
      ⟨hhas₂, hin, hpop.congr_of_mem rfl rfl hnext hprev, congrArg (· - 1) hr.length, ?_,
        hr.minOrd, rfl, hr.ordInitialized⟩, hothers⟩
    · simp only [Option.map_some, hmodify, Option.bind_some, hy, hyord, h₂]
    · rw [hcount, Int.add_sub_cancel]

/-! ## The loops -/

/-- The loop that frees takes each node once, and reads its link before. -/
theorem exists_freeFrom (others : List ℕ) (nodes : List SharedNode) :
    ∀ {o : Option ℕ} {g : Segment}, g.dsa.Has (nodes.flatMap SharedNode.chunks ++ others) →
      (∀ n ∈ nodes, n.In g) →
      Chain (g.linkOf SharedCell.next) o (nodes.map SharedNode.dsa) →
      ∃ g', freeFrom nodes.length o g = some g' ∧
        g'.dsa = nodes.foldl SharedList.freeNode g.dsa ∧ g'.dsa.Has others ∧
        Segment.Same others g g' := by
  induction nodes with
  | nil =>
    intro o g hg _ hchain
    obtain rfl := hchain.eq_head?
    exact ⟨g, rfl, rfl, hg, .refl _ g⟩
  | cons n nodes ih =>
    intro o g hg hin hchain
    obtain ⟨rfl, hchain'⟩ := hchain.of_cons
    obtain ⟨prev, next, hcell⟩ := (hin n List.mem_cons_self).cell
    have hnext : g.linkOf SharedCell.next n.dsa = next := by
      rw [Segment.linkOf, hcell, Option.bind_some]
    rw [List.flatMap_cons, List.append_assoc] at hg
    obtain ⟨g₁, h₁, hdsa₁, hhas₁, hsame₁⟩ := exists_freeNode hg (hin n List.mem_cons_self)
    obtain ⟨g₂, h₂, hdsa₂, hhas₂, hsame₂⟩ := ih hhas₁
      (fun m hm => (hin m (List.mem_cons_of_mem n hm)).same (hsame₁.mono fun p hp =>
        List.mem_append_left _ (List.mem_flatMap.2 ⟨m, hm, hp⟩)))
      (hchain'.congr fun p hp => Segment.linkOf_congr
        (hsame₁ p (List.mem_append_left _ (map_dsa_subset nodes hp))).1)
    rw [hnext] at h₂
    refine ⟨g₂, ?_, by rw [hdsa₂, hdsa₁, List.foldl_cons], hhas₂,
      (hsame₁.mono fun p hp => List.mem_append_right _ hp).trans hsame₂⟩
    simp only [List.length_cons, freeFrom, Option.bind_eq_bind, hcell, Option.bind_some, h₁, h₂]

theorem Represents.free (hr : Represents g others L l) :
    ∃ g', L.free l.nodes.length g = some (empty, g') ∧ g'.dsa = l.free g.dsa ∧
      g'.dsa.Has others ∧ Segment.Same others g g' := by
  have hchain : Chain (g.linkOf SharedCell.next) L.head (l.nodes.map SharedNode.dsa) :=
    hr.links.next
  obtain ⟨g', h, hg'⟩ := exists_freeFrom others l.nodes hr.has hr.nodes hchain
  refine ⟨g', ?_, hg'⟩
  change (freeFrom l.nodes.length L.head g).map _ = _
  rw [h, Option.map_some]

/-- The loop that reads the list back. -/
theorem materializeFrom_spec (nodes : List SharedNode) :
    ∀ {o : Option ℕ} {a : ListValue}, (∀ n ∈ nodes, n.In g) →
      Chain (g.linkOf SharedCell.next) o (nodes.map SharedNode.dsa) →
      materializeFrom nodes.length o g a = some (nodes.foldl SharedList.materializeNode a) := by
  induction nodes with
  | nil =>
    intro o a _ hchain
    obtain rfl := hchain.eq_head?
    rfl
  | cons n nodes ih =>
    intro o a hin hchain
    obtain ⟨rfl, hchain'⟩ := hchain.of_cons
    obtain ⟨prev, next, hcell⟩ := (hin n List.mem_cons_self).cell
    have hnext : g.linkOf SharedCell.next n.dsa = next := by
      rw [Segment.linkOf, hcell, Option.bind_some]
    have hout := (hin n List.mem_cons_self).copyValueOut
      (x := ⟨prev, next, n.ord, n.valueLen, n.valueDsa⟩) rfl rfl
    have hrest := ih (a := SharedList.materializeNode a n)
      (fun m hm => hin m (List.mem_cons_of_mem n hm)) hchain'
    rw [hnext] at hrest
    simp only [List.length_cons, materializeFrom, Option.bind_eq_bind, hcell, Option.bind_some,
      hout, List.foldl_cons]
    exact hrest

theorem Represents.materialize (hr : Represents g others L l) :
    L.materialize l.nodes.length g = some l.materialize := by
  have hhead : L.head = none ↔ l.nodes = [] := by
    rw [hr.head_eq, Option.map_eq_none_iff, List.head?_eq_none_iff]
  have hloop := materializeFrom_spec (a := .create) l.nodes hr.nodes hr.links.next
  rw [SharedListMeta.materialize, SharedList.materialize, if_congr hhead rfl rfl]
  split_ifs
  · rfl
  · change materializeFrom l.nodes.length L.head g .create = _ at hloop
    rw [hloop, Option.map_some, hr.minOrd, hr.maxOrd, hr.ordInitialized]

theorem represents_empty (hg : g.dsa.Has others) : Represents g others empty .empty where
  has := hg
  nodes _ hn := absurd hn List.not_mem_nil
  links := ⟨.nil, .nil⟩
  length := rfl
  count := rfl
  minOrd := rfl
  maxOrd := rfl
  ordInitialized := rfl

/-- The loop that pushes keeps the list in memory and the list of its nodes together. -/
theorem Represents.pushAll (ok : ℕ → NodeSite → Bool) :
    ∀ (vs : List Bytes) {g : Segment} {L : SharedListMeta} {l : SharedList},
      Represents g others L l →
      ∃ o g', SharedListMeta.pushAll ok vs L g = some (o, g') ∧
        (SharedList.pushAll ok vs l g.dsa).1 = g'.dsa ∧
        Option.Rel (Represents g' others) o (SharedList.pushAll ok vs l g.dsa).2 ∧
        Segment.Same others g g' ∧ (o = none → g'.dsa.Has others)
  | [], g, L, l, hr => ⟨some L, g, rfl, rfl, .some hr, .refl _ g, fun h => absurd h (by simp)⟩
  | v :: vs, g, L, l, hr => by
    have hlen : L.length.toNat = l.nodes.length := by
      rw [hr.length, hr.count, Int.toNat_natCast]
    obtain ⟨o, g₁, h₁, hdsa₁, hrel, hsame₁, hnone⟩ := hr.rpush (ok l.nodes.length) v
    rw [SharedList.push_right] at hdsa₁ hrel
    rcases hpush : l.rpush (ok l.nodes.length) v g.dsa with ⟨d, o'⟩
    rw [hpush] at hdsa₁ hrel
    obtain rfl : d = g₁.dsa := hdsa₁
    simp only [SharedListMeta.pushAll, SharedList.pushAll, Option.bind_eq_bind, hlen, h₁, hpush,
      Option.bind_some]
    cases hrel with
    | none =>
      obtain ⟨g₂, h₂, hdsa₂, hhas₂, hsame₂⟩ := (hnone rfl).free
      exact ⟨none, g₂, by simp only [h₂, Option.map_some], hdsa₂.symm, .none,
        hsame₁.trans hsame₂, fun _ => hhas₂⟩
    | some hr₁ =>
      obtain ⟨o₂, g₂, h₂, hdsa₂, hrel₂, hsame₂, hnone₂⟩ := Represents.pushAll ok vs hr₁
      exact ⟨o₂, g₂, h₂, hdsa₂, hrel₂, hsame₁.trans hsame₂, hnone₂⟩

/-- The list that is built in memory from values, whichever allocations fail: the segment has the
    same chunks as with a list of nodes, nothing else in it is touched, and all is given back if
    the list is not finished. A finished list is read back as the same value, and freed without
    a rest. -/
theorem pushAll_refines (ok : ℕ → NodeSite → Bool) (vs : List Bytes) (hg : g.dsa.Has others) :
    ∃ o g', pushAll ok vs empty g = some (o, g') ∧
      (SharedList.pushAll ok vs .empty g.dsa).1 = g'.dsa ∧ Segment.Same others g g' ∧
      (o = none → g'.dsa.Has others) ∧
      Option.Rel (fun L l =>
        L.materialize l.nodes.length g' = some l.materialize ∧
        ∃ g'', L.free l.nodes.length g' = some (empty, g'') ∧ g''.dsa = l.free g'.dsa ∧
          g''.dsa.Has others ∧ Segment.Same others g' g'')
        o (SharedList.pushAll ok vs .empty g.dsa).2 := by
  obtain ⟨o, g', h, hdsa, hrel, hsame, hnone⟩ := (represents_empty hg).pushAll ok vs
  refine ⟨o, g', h, hdsa, hsame, hnone, ?_⟩
  generalize (SharedList.pushAll ok vs .empty g.dsa).2 = o' at hrel ⊢
  cases hrel with
  | none => exact .none
  | some hr => exact .some ⟨hr.materialize, hr.free⟩

/-- A list of two values, of which the second is empty. -/
theorem pushAll_refines_two :
    let g : Segment := ⟨⟨0, []⟩, ∅, ∅⟩
    ∃ o g', pushAll (fun _ _ => true) [[1, 2], []] empty g = some (o, g') ∧
      (SharedList.pushAll (fun _ _ => true) [[1, 2], []] .empty g.dsa).1 = g'.dsa ∧
      Segment.Same [] g g' ∧ (o = none → g'.dsa.Has []) ∧
      Option.Rel (fun L l =>
        L.materialize l.nodes.length g' = some l.materialize ∧
        ∃ g'', L.free l.nodes.length g' = some (empty, g'') ∧ g''.dsa = l.free g'.dsa ∧
          g''.dsa.Has [] ∧ Segment.Same [] g' g'')
        o (SharedList.pushAll (fun _ _ => true) [[1, 2], []] .empty g.dsa).2 :=
  pushAll_refines _ _ ⟨.nil, .nil, fun _ h => absurd h List.not_mem_nil⟩

end SharedListMeta

end PgRedis
