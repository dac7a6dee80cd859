import PgRedis.Lib.Ledger
import PgRedis.Ring.Codec
import PgRedis.Ring.Publish

/-!
# The owners of spilled events

An event of more than 256 bytes has them in a chunk of shared memory. The chunk belongs
to the command which publishes the event, until the event is in a slot of the ring: there
it belongs to the slot, which frees it on release. A command giving up an event has to free
its chunk itself.

The commands publish on three paths (`Path`), which differ in what they do when the ring
is full. `pg_redis_shared_hash_set_atomic` frees the chunk before anything else. The other
two keep it to try again, and `publish_event_under_lock` does not free it when
`handle_ring_full_after_unlock` raises: its one event, a field delete, is thought never to
spill. `pg_redis_dirty_ring_publish_blocking` frees it when it has waited long enough, but
not when the synchronous drain raises, or when the wait is cancelled.

In every run without such a step, and in which no reservation is stale (see
`PgRedis.Ring.Publish`), each chunk has one owner until it is freed, once
(`spill_owned`). Such a step leaves the chunk to nobody (`Inv.not_owned_of_leak`).
-/

namespace PgRedis

/-- The chunk of an event that spilled. -/
def WireEvent.chunk? (ev : WireEvent) : Option ℕ :=
  match ev.bytes with
  | .inline _ => none
  | .spill chunk _ => some chunk

/-- A slot as `pg_redis_dirty_ring_shmem_init` leaves it. -/
instance : Inhabited WireEvent :=
  ⟨⟨.keyUpsert, .string, 0, 0, 0, none, 0, 0, .inline []⟩⟩

namespace Ring.Publish

/-- The event a producer is publishing. -/
def Pc.event? {ε : Type*} : Pc ε → Option ε
  | .idle => none
  | .readWrite ev | .readRead ev _ | .reserve ev _ _ | .stamp ev _ | .fill ev _
  | .publish ev _ | .advance ev _ => some ev

end Ring.Publish

namespace Ring.Spill

open Lib

/-- The loops around `pg_redis_dirty_ring_publish`. -/
inductive Path
  /-- `pg_redis_dirty_ring_publish_blocking`. -/
  | blocking
  /-- `pg_redis_shared_hash_set_atomic`. -/
  | setAtomic
  /-- `publish_event_under_lock`. -/
  | underLock
  deriving DecidableEq, Repr

/-- Where a command is. -/
inductive Cmd
  /-- It has returned or raised. -/
  | done
  /-- Between two events, with the number of times it has waited. -/
  | running (path : Path) (spin : ℕ)
  /-- Within `pg_redis_dirty_ring_publish`. -/
  | publishing (path : Path) (spin : ℕ) (ev : WireEvent)
  /-- `pg_redis_dirty_ring_publish` has returned `PG_REDIS_RING_FULL`. -/
  | full (path : Path) (spin : ℕ) (ev : WireEvent)
  deriving DecidableEq, Repr

/-- The event a command is still trying to publish. -/
def Cmd.event? : Cmd → Option WireEvent
  | .publishing _ _ ev | .full _ _ ev => some ev
  | _ => none

/-- Who may own a chunk: a command, for its event, or a slot of the ring. -/
inductive Owner (π : Type*)
  | event (q : π)
  | slot (p : ℕ)
  deriving DecidableEq, Repr

/-- The chunks allocated for events, and those freed so far with their last owner. -/
structure Spills (π : Type*) where
  dsa : Dsa
  freed : List (ℕ × Owner π)

/-- `free_event_spill`, and what `pg_redis_dirty_ring_release_batch` does of a slot. -/
def Spills.free {π : Type*} (o : Owner π) (ev : WireEvent) (m : Spills π) : Spills π :=
  match ev.chunk? with
  | none => m
  | some c => ⟨m.dsa.pfree (some c), m.freed ++ [(c, o)]⟩

/-- The ring with its producers and drainers, the commands of the producers, and the
    chunks. -/
structure State (cap : ℕ) (π δ : Type*) where
  pub : Publish.State cap WireEvent π δ
  cmd : π → Cmd
  spills : Spills π

/-- The steps: a command starts, encodes its next event, makes the next atomic access of
    `pg_redis_dirty_ring_publish`, reacts to a full ring, or returns; and the locked
    sections of the drainers, a command that drains synchronously being one. In `full`,
    `ok` says whether the drain returns, or whether the wait is not cancelled. -/
inductive Action (π δ : Type*)
  | start (q : π) (path : Path)
  | encode (q : π) (ok : Bool) (buf : Bytes) (args : EncodeArgs)
  | produce (q : π) (now : ℤ)
  | full (q : π) (action : FullAction) (ok : Bool)
  | finish (q : π)
  | collect (d : δ) (max : ℕ)
  | release (d : δ)
  | abort (d : δ)

variable {cap : ℕ} {π δ : Type*}

/-- A fresh ring, with no command running. -/
def init : State cap π δ := ⟨Publish.init, fun _ => .done, ⟨⟨0, []⟩, []⟩⟩

/-- `handle_ring_full_after_unlock`: the number of waits afterwards, `none` if it raises. -/
def handleRingFullAfterUnlock (action : FullAction) (ok : Bool) (spin : ℕ) : Option ℕ :=
  match action with
  | .syncFlush => if ok then some 0 else none
  | .block => if spin + 1 ≥ 100 then none else some (spin + 1)

/-- The command after an access of `pg_redis_dirty_ring_publish`: leaving it from its last
    compare-and-swap, it returns `PG_REDIS_RING_OK`, else `PG_REDIS_RING_FULL`. -/
def published (path : Path) (spin : ℕ) (ev : WireEvent) :
    (before after : Publish.Pc WireEvent) → Cmd
  | .advance _ _, .idle => .running path spin
  | _, .idle => .full path spin ev
  | _, _ => .publishing path spin ev

section

variable [DecidableEq π] [DecidableEq δ]

/-- The command of `q` becomes `c`. -/
def become (q : π) (c : Cmd) (s : State cap π δ) : State cap π δ :=
  { s with cmd := Function.update s.cmd q c }

/-- `pg_redis_dirty_ring_publish` is called, for the first time or again. -/
def call (q : π) (path : Path) (spin : ℕ) (ev : WireEvent) (s : State cap π δ) :
    State cap π δ :=
  { s with
    pub := Publish.goto q (.readWrite ev) s.pub
    cmd := Function.update s.cmd q (.publishing path spin ev) }

/-- The command `q` frees the chunk of `ev`, if it has one. -/
def giveUp (q : π) (ev : WireEvent) (s : State cap π δ) : State cap π δ :=
  { s with spills := s.spills.free (.event q) ev }

/-- An encoder, and the call of publish; the command raises if there is no shared memory.
    The number of waits is a variable of `pg_redis_dirty_ring_publish_blocking`, but one of
    the command on the other paths. -/
def encode (q : π) (path : Path) (spin : ℕ) (ok : Bool) (buf : Bytes) (args : EncodeArgs)
    (s : State cap π δ) : State cap π δ :=
  match args.encode ok buf s.spills.dsa with
  | (d, none) => become q .done { s with spills.dsa := d }
  | (d, some ev) =>
    call q path (if path = .blocking then 0 else spin) ev { s with spills.dsa := d }

/-- What the paths do about a full ring. -/
def full (q : π) (action : FullAction) (ok : Bool) (spin : ℕ) (ev : WireEvent)
    (s : State cap π δ) : Path → State cap π δ
  | .blocking => match action with
    | .syncFlush => if ok then call q .blocking 0 ev s else become q .done s
    | .block =>
      if spin + 1 ≥ 100 then become q .done (giveUp q ev s)
      -- `CHECK_FOR_INTERRUPTS`
      else if ok then call q .blocking (spin + 1) ev s else become q .done s
  | .setAtomic => match handleRingFullAfterUnlock action ok spin with
    -- The whole mutation is done again.
    | some spin => become q (.running .setAtomic spin) (giveUp q ev s)
    | none => become q .done (giveUp q ev s)
  | .underLock => match handleRingFullAfterUnlock action ok spin with
    | some spin => call q .underLock spin ev s
    | none => become q .done s

/-- The chunks after the release of `n` slots from `base` on. -/
def freeSlots (r : Ring cap WireEvent) (base n : ℕ) (m : Spills π) : Spills π :=
  (List.range n).foldl (fun m i => m.free (.slot (base + i)) (r.slot (base + i)).payload) m

/-- One step. -/
def step (s : State cap π δ) : Action π δ → Option (State cap π δ)
  | .start q path => match s.cmd q with
    | .done => some (become q (.running path 0) s)
    | _ => none
  | .encode q ok buf args => match s.cmd q with
    | .running path spin => some (encode q path spin ok buf args s)
    | _ => none
  | .produce q now => match s.cmd q with
    | .publishing path spin ev => (Publish.produce q now s.pub).map fun pub =>
      become q (published path spin ev (s.pub.pc q) (pub.pc q)) { s with pub := pub }
    | _ => none
  | .full q action ok => match s.cmd q with
    | .full path spin ev => some (full q action ok spin ev s path)
    | _ => none
  | .finish q => match s.cmd q with
    | .running _ _ => some (become q .done s)
    | _ => none
  | .collect d max => (Publish.step s.pub (.collect d max)).map fun pub => { s with pub := pub }
  | .release d => (s.pub.batch d).bind fun b =>
    (Publish.step s.pub (.release d)).map fun pub =>
      { s with pub := pub, spills := freeSlots s.pub.ring b.base b.size s.spills }
  | .abort d => (Publish.step s.pub (.abort d)).map fun pub => { s with pub := pub }

end

/-- The chunk an owner holds: a command for the event it is still trying to publish, a
    slot only between the heads. -/
def holds (s : State cap π δ) : Owner π → Option ℕ
  | .event q => (s.cmd q).event?.bind WireEvent.chunk?
  | .slot p =>
    if s.pub.ring.readHead ≤ p ∧ p < s.pub.ring.writeHead then
      (s.pub.ring.slot p).payload.chunk?
    else none

/-- Each chunk allocated is either live, and then has exactly one owner, or has been freed,
    once: by its command, or with its slot, then below `read_head`. With all commands
    returned or raised and the ring empty, no chunk is left. -/
structure Owned (s : State cap π δ) : Prop where
  owner : ∀ c ∈ s.spills.dsa.live, ∃! o, holds s o = some c
  live : ∀ o c, holds s o = some c → c ∈ s.spills.dsa.live
  freed : (s.spills.dsa.live ++ s.spills.freed.map Prod.fst).Perm (List.range s.spills.dsa.next)
  released : ∀ c p, (c, Owner.slot p) ∈ s.spills.freed → p < s.pub.ring.readHead
  empty : (∀ q, s.cmd q = .done) → s.pub.ring.readHead = s.pub.ring.writeHead →
    s.spills.dsa.live = []

/-- A full ring makes the command raise without freeing the chunk of its event. -/
def Path.Leaks (action : FullAction) (ok : Bool) (spin : ℕ) : Path → Prop
  | .blocking => ok = false ∧ (action = .block → spin + 1 < 100)
  | .setAtomic => False
  | .underLock => handleRingFullAfterUnlock action ok spin = none

/-- Reservations are fresh, and a command that raises without freeing the chunk of its event
    has an event without one. -/
def Kept [DecidableEq π] [DecidableEq δ] (s : State cap π δ) : Action π δ → Prop
  | .produce q now => Publish.Fresh s.pub (.produce q now)
  | .full q action ok => ∀ path spin ev, s.cmd q = .full path spin ev →
    path.Leaks action ok spin → ev.chunk? = none
  | _ => True

/-! ## What the accesses of publish keep -/

section

variable {ε : Type*} {r : Ring cap ε} {batch : δ → Option (Drain.Batch ε)}
  {acks : List (Publish.Ack ε)} {s s' : Publish.State cap ε π δ} {q : π}

theorem length_acks (h : Publish.Settled r batch acks) : acks.length = r.writeHead := by
  rw [← List.length_map (f := Publish.Ack.w), h.positions, List.length_range]

/-- The pending slots hold the events acknowledged last. -/
theorem payload_eq (h : Publish.Settled r batch acks) {p : ℕ} (hr : r.readHead ≤ p)
    (hw : p < r.writeHead) : acks[p]?.map Publish.Ack.ev = some (r.slot p).payload := by
  have hp : p < acks.length := length_acks h ▸ hw
  have hpos : acks[p].w = p := by
    have hget : (acks.map Publish.Ack.w)[p]? = some p := by
      rw [h.positions, List.getElem?_range hw]
    rw [List.getElem?_map, List.getElem?_eq_getElem hp, Option.map_some] at hget
    exact Option.some.inj hget
  have hev := (h.acked acks[p] (List.getElem_mem hp)).2 (hpos.symm ▸ hr)
  rw [List.getElem?_eq_getElem hp, Option.map_some, ← hev, hpos]

/-- The last access of publish acknowledges the event; the others do not, and stay with the
    event until publish returns. -/
theorem produce_cases [DecidableEq π] {now : ℤ} (hst : Publish.produce q now s = some s') :
    s'.ring.readHead = s.ring.readHead ∧ (∀ q' ≠ q, s'.pc q' = s.pc q') ∧
      ((∃ ev w adv, s.pc q = .advance ev w ∧ s'.pc q = .idle ∧
        s'.acks = s.acks ++ [⟨w, ev, adv⟩]) ∨
      ((∀ ev w, s.pc q ≠ .advance ev w) ∧
        (s'.pc q = .idle ∨ (s'.pc q).event? = (s.pc q).event?) ∧ s'.acks = s.acks)) := by
  rw [Publish.produce] at hst
  cases hpc : s.pc q <;> simp only [hpc] at hst
  case idle => exact absurd hst (by simp)
  -- The CAS of `write_head` may fail; publish acknowledges the event all the same.
  case advance ev w =>
    obtain rfl := Option.some.inj hst
    refine ⟨?_, fun q' hq => ?_, .inl ⟨ev, w, decide (s.ring.writeHead = w), rfl, ?_, ?_⟩⟩
    · simp only [Publish.goto, Publish.acknowledge]
      split_ifs <;> rfl
    · simp only [Publish.goto, Publish.acknowledge]
      split_ifs <;> exact Function.update_of_ne hq _ _
    · simp only [Publish.goto, Publish.acknowledge]
      split_ifs <;> exact Function.update_self ..
    · simp only [Publish.goto, Publish.acknowledge]
      split_ifs with hw <;> simp [hw]
  all_goals
    try split_ifs at hst
    all_goals
      obtain rfl := Option.some.inj hst
      refine ⟨rfl, fun q' hq => Function.update_of_ne hq _ _, .inr ⟨by simp, ?_, rfl⟩⟩
      simp [Publish.goto, Publish.Pc.event?]

end

/-! ## The invariant -/

/-- A command is within publish of its event, or not within publish. -/
def Linked (pc : Publish.Pc WireEvent) : Cmd → Prop
  | .publishing _ _ ev => pc.event? = some ev
  | _ => pc = .idle

/-- The chunks balance with what `held` says of the owners. -/
def Spills.Ledger (m : Spills π) (held : Owner π → Option ℕ) : Prop :=
  Balanced held m.dsa.live (m.freed.map Prod.fst) (List.range m.dsa.next)

/-- The invariant of the commands and the ring. -/
structure Inv (s : State cap π δ) : Prop where
  pub : Publish.Inv s.pub
  linked : ∀ q, Linked (s.pub.pc q) (s.cmd q)
  ledger : s.spills.Ledger (holds s)
  released : ∀ c p, (c, Owner.slot p) ∈ s.spills.freed → p < s.pub.ring.readHead

variable {s s' : State cap π δ} {q : π} {ev : WireEvent} {m : Spills π}
  {held : Owner π → Option ℕ} {o : Owner π}

theorem inv_init : Inv (init : State cap π δ) where
  pub := Publish.inv_init
  linked _ := rfl
  ledger := by
    have hnone : holds (init : State cap π δ) = fun _ => none := by
      funext o
      cases o with
      | event q => rfl
      | slot p =>
        have hno : ¬(0 ≤ p ∧ p < 0) := by omega
        rw [holds]
        exact if_neg hno
    rw [hnone]
    exact .nil
  released _ _ h := absurd h List.not_mem_nil

theorem Inv.owned (h : Inv s) : Owned s where
  owner _ hc := h.ledger.existsUnique hc
  live o c ho := (h.ledger.live_iff c).2 ⟨o, ho⟩
  freed := h.ledger.perm
  released := h.released
  empty hdone hempty := h.ledger.live_eq_nil fun o => by
    cases o with
    | event q => rw [holds, hdone q]; rfl
    | slot p => exact if_neg fun hp => by omega

/-- What a slot holds depends on `read_head` and the events acknowledged. -/
theorem holds_slot (h : Publish.Inv s.pub) (p : ℕ) : holds s (.slot p) =
    if s.pub.ring.readHead ≤ p then s.pub.acks[p]?.bind fun a => a.ev.chunk? else none := by
  have hset := h.settled
  rw [holds]
  by_cases hr : s.pub.ring.readHead ≤ p
  · rw [if_pos hr]
    by_cases hw : p < s.pub.ring.writeHead
    · have hev := congrArg (Option.bind · WireEvent.chunk?) (payload_eq hset hr hw)
      rw [if_pos ⟨hr, hw⟩]
      simpa [Option.bind_map, Function.comp_def] using hev.symm
    · rw [if_neg fun h => hw h.2, List.getElem?_eq_none (by rw [length_acks hset]; omega)]
      rfl
  · rw [if_neg hr, if_neg fun h => hr h.1]

variable [DecidableEq π]

/-- Freeing what an owner holds. -/
theorem Spills.Ledger.free (h : m.Ledger held) (ho : held o = ev.chunk?) :
    (m.free o ev).Ledger (Function.update held o none) := by
  rw [Spills.free]
  cases hc : ev.chunk? with
  | none =>
    rw [Function.update_eq_self_iff.2 (ho.trans hc).symm]
    exact h
  | some c =>
    have hfree := Balanced.free h (ho.trans hc)
    simp only [Spills.Ledger, List.map_append, List.map_cons, List.map_nil]
    exact hfree

omit [DecidableEq π] in
/-- What an owner frees is recorded as its own. -/
theorem mem_freed {x : ℕ × Owner π} (hx : x ∈ (m.free o ev).freed) : x ∈ m.freed ∨ x.2 = o := by
  rw [Spills.free] at hx
  split at hx
  · exact .inl hx
  · rcases List.mem_append.1 hx with hx | hx
    · exact .inl hx
    · exact .inr (congrArg Prod.snd (List.mem_singleton.1 hx))

/-- What the commands hold once that of `q` has become `c`. -/
theorem holds_event {c : Cmd} (hcmd : s'.cmd = Function.update s.cmd q c) (q' : π) :
    holds s' (.event q') =
      Function.update (holds s) (.event q) (c.event?.bind WireEvent.chunk?) (.event q') := by
  by_cases hq : q' = q
  · rw [hq, Function.update_self, holds, hcmd, Function.update_self]
  · rw [Function.update_of_ne (by simpa using hq), holds, hcmd, Function.update_of_ne hq, holds]

/-- A step of the command `q` which leaves the slots of the ring alone. -/
theorem Inv.command (h : Inv s) {c : Cmd} (hpub : Publish.Inv s'.pub)
    (hr : s'.pub.ring.readHead = s.pub.ring.readHead) (hacks : s'.pub.acks = s.pub.acks)
    (hcmd : s'.cmd = Function.update s.cmd q c) (hpc : ∀ q' ≠ q, s'.pub.pc q' = s.pub.pc q')
    (hlink : Linked (s'.pub.pc q) c)
    (hm : s'.spills.Ledger
      (Function.update (holds s) (.event q) (c.event?.bind WireEvent.chunk?)))
    (hfreed : ∀ d p, (d, Owner.slot p) ∈ s'.spills.freed → (d, Owner.slot p) ∈ s.spills.freed) :
    Inv s' where
  pub := hpub
  linked q' := by
    rw [hcmd]
    by_cases hq : q' = q
    · rw [hq, Function.update_self]
      exact hlink
    · rw [Function.update_of_ne hq, hpc q' hq]
      exact h.linked q'
  ledger := by
    -- Who holds which chunk changes for the event of `q` only.
    have hholds : holds s' =
        Function.update (holds s) (.event q) (c.event?.bind WireEvent.chunk?) := by
      funext o
      cases o with
      | slot p =>
        rw [Function.update_of_ne (by simp), holds_slot hpub, holds_slot h.pub, hr, hacks]
      | event q' => exact holds_event hcmd q'
    rw [hholds]
    exact hm
  released d p hd := hr ▸ h.released d p (hfreed d p hd)

/-- A command changes without letting go of its event or taking one. -/
theorem Inv.become [DecidableEq δ] (h : Inv s) {c : Cmd} (hlink : Linked (s.pub.pc q) c)
    (hc : c.event?.bind WireEvent.chunk? = holds s (.event q)) : Inv (Spill.become q c s) :=
  h.command h.pub rfl rfl rfl (fun _ _ => rfl) hlink
    (by rw [hc, Function.update_eq_self]; exact h.ledger) fun _ _ => id

/-- A command frees the chunk of its event. -/
theorem Inv.giveUp [DecidableEq δ] (h : Inv s) {path : Path} {spin : ℕ} {c : Cmd}
    (hcmd : s.cmd q = .full path spin ev) (hlink : Linked (s.pub.pc q) c)
    (hc : c.event? = none) : Inv (Spill.become q c (Spill.giveUp q ev s)) := by
  have hold : holds s (.event q) = ev.chunk? := by rw [holds, hcmd]; rfl
  refine h.command h.pub rfl rfl rfl (fun _ _ => rfl) hlink ?_ fun d p hd =>
    (mem_freed hd).resolve_right (by simp)
  rw [hc]
  exact h.ledger.free hold

/-- A command calls publish with its event, whose chunk it holds or has just allocated. -/
theorem Inv.call [DecidableEq δ] (h : Inv s) (hidle : s.pub.pc q = .idle) (path : Path) (spin : ℕ)
    {d : Dsa} (hm : Spills.Ledger ⟨d, s.spills.freed⟩
      (Function.update (holds s) (.event q) ev.chunk?)) :
    Inv (Spill.call q path spin ev { s with spills.dsa := d }) := by
  have hcall : Publish.step s.pub (.call q ev) = some (Publish.goto q (.readWrite ev) s.pub) := by
    rw [Publish.step, hidle]
  refine h.command (Publish.inv_step _ (.call q ev) _ h.pub trivial hcall) rfl rfl rfl
    (fun q' hq => Function.update_of_ne hq _ _) ?_ hm fun _ _ => id
  exact congrArg Publish.Pc.event? (Function.update_self q (Publish.Pc.readWrite ev) s.pub.pc)

theorem Inv.recall [DecidableEq δ] (h : Inv s) {path : Path} {spin : ℕ}
    (hcmd : s.cmd q = .full path spin ev) (path' : Path) (spin' : ℕ) :
    Inv (Spill.call q path' spin' ev s) := by
  have hidle : s.pub.pc q = .idle := by
    have hlink := h.linked q
    rwa [hcmd] at hlink
  refine h.call hidle path' spin' (d := s.spills.dsa) ?_
  have hold : holds s (.event q) = ev.chunk? := by rw [holds, hcmd]; rfl
  rw [← hold, Function.update_eq_self]
  exact h.ledger

/-! ## The steps of a command -/

/-- An encoder allocates at most one chunk, that of its event. -/
theorem encode_cases (ok : Bool) (buf : Bytes) (d : Dsa) (args : EncodeArgs) :
    args.encode ok buf d = (d, none) ∨
      (∃ ev : WireEvent, args.encode ok buf d = (d, some ev) ∧ ev.chunk? = none) ∨
      ∃ ev : WireEvent, args.encode ok buf d = (d.palloc.2, some ev) ∧
        ev.chunk? = some d.palloc.1 := by
  have hchunk : ∀ bytes, (args.header bytes).chunk? = (match bytes with
      | .inline _ => none
      | .spill chunk _ => some chunk) := by
    intro bytes
    cases args <;> rfl
  rw [EncodeArgs.encode, EncodeArgs.inlineWrite]
  split_ifs
  · exact .inr (.inr ⟨_, rfl, hchunk _⟩)
  · exact .inl rfl
  · exact .inr (.inl ⟨_, rfl, hchunk _⟩)

/-- An event of more than 256 bytes spills. -/
theorem encode_spills {args : EncodeArgs}
    (hlen : inlineBytes < (args.key ++ args.field ++ args.value).length) (buf : Bytes) (d : Dsa) :
    ∃ ev : WireEvent, args.encode true buf d = (d.palloc.2, some ev) ∧
      ev.chunk? = some d.palloc.1 := by
  refine ⟨args.header (.spill d.palloc.1 (args.key ++ args.field ++ args.value)), ?_, ?_⟩
  · simp only [EncodeArgs.encode, EncodeArgs.inlineWrite, gt_iff_lt, if_pos hlen, if_true]
  · cases args <;> rfl

theorem Inv.encode [DecidableEq δ] (h : Inv s) {path : Path} {spin : ℕ}
    (hcmd : s.cmd q = .running path spin) (ok : Bool) (buf : Bytes) (args : EncodeArgs) :
    Inv (Spill.encode q path spin ok buf args s) := by
  have hidle : s.pub.pc q = .idle := by
    have hlink := h.linked q
    rwa [hcmd] at hlink
  have hnone : holds s (.event q) = none := by rw [holds, hcmd]; rfl
  rw [Spill.encode]
  rcases encode_cases ok buf s.spills.dsa args with heq | ⟨ev, heq, hc⟩ | ⟨ev, heq, hc⟩ <;>
    rw [heq]
  · exact h.become hidle hnone.symm
  · refine h.call hidle path _ ?_
    rw [hc, ← hnone, Function.update_eq_self]
    exact h.ledger
  · refine h.call hidle path _ ?_
    rw [hc]
    refine Balanced.issue h.ledger hnone (by simp [Dsa.palloc]) ?_
    rw [Dsa.palloc, List.range_succ]
    exact (List.perm_append_singleton _ _).symm

/-- What the paths do about a full ring, unless it leaks. -/
theorem Inv.full [DecidableEq δ] (h : Inv s) {path : Path} {spin : ℕ}
    (hcmd : s.cmd q = .full path spin ev) {action : FullAction} {ok : Bool}
    (hkept : path.Leaks action ok spin → ev.chunk? = none) :
    Inv (Spill.full q action ok spin ev s path) := by
  have hidle : s.pub.pc q = .idle := by
    have hlink := h.linked q
    rwa [hcmd] at hlink
  have hold : holds s (.event q) = ev.chunk? := by rw [holds, hcmd]; rfl
  have hdone : path.Leaks action ok spin → Inv (Spill.become q .done s) := fun hleak =>
    h.become hidle (by rw [hold, hkept hleak]; rfl)
  cases path with
  | blocking =>
    cases action with
    | syncFlush =>
      rw [Spill.full]
      split_ifs with hok
      · exact h.recall hcmd .blocking 0
      · exact hdone ⟨Bool.eq_false_iff.2 hok, nofun⟩
    | block =>
      rw [Spill.full]
      split_ifs with hspin hok
      -- The waits are used up: this path frees the chunk before it raises.
      · exact h.giveUp hcmd hidle rfl
      · exact h.recall hcmd .blocking (spin + 1)
      · exact hdone ⟨Bool.eq_false_iff.2 hok, fun _ => Nat.not_le.1 hspin⟩
  | setAtomic =>
    rw [Spill.full]
    split
    · exact h.giveUp hcmd hidle rfl
    · exact h.giveUp hcmd hidle rfl
  | underLock =>
    rw [Spill.full]
    split
    · exact h.recall hcmd .underLock _
    next hraise => exact hdone hraise

theorem published_cases (path : Path) (spin : ℕ) {before after : Publish.Pc WireEvent}
    (hbefore : ∀ ev w, before ≠ .advance ev w) :
    (after = .idle ∧ published path spin ev before after = .full path spin ev) ∨
      (after ≠ .idle ∧ published path spin ev before after = .publishing path spin ev) := by
  fun_cases published path spin ev before after with
  | case1 ev' w => exact absurd rfl (hbefore ev' w)
  | case2 => exact .inl ⟨rfl, rfl⟩
  | case3 => exact .inr ⟨by assumption, rfl⟩

/-- The last access of publish hands the chunk of the event to the slot. -/
theorem Inv.handOver (h : Inv s) {path : Path} {spin : ℕ}
    (hcmd : s.cmd q = .publishing path spin ev)
    {pub : Publish.State cap WireEvent π δ} (hpub : Publish.Inv pub)
    (hr : pub.ring.readHead = s.pub.ring.readHead) (hpc : ∀ q' ≠ q, pub.pc q' = s.pub.pc q')
    (hidle : pub.pc q = .idle) {w : ℕ} {adv : Bool}
    (hacks : pub.acks = s.pub.acks ++ [⟨w, ev, adv⟩]) :
    Inv (Spill.become q (.running path spin) { s with pub := pub }) := by
  have hold : holds s (.event q) = ev.chunk? := by rw [holds, hcmd]; rfl
  have hlen := length_acks h.pub.settled
  have hnone : holds s (.slot s.pub.ring.writeHead) = none :=
    if_neg fun hlt => Nat.lt_irrefl _ hlt.2
  have hholds : holds (Spill.become q (.running path spin) { s with pub := pub }) =
      Function.update (Function.update (holds s) (.event q) none) (.slot s.pub.ring.writeHead)
        (holds s (.event q)) := by
    funext o
    cases o with
    | event q' =>
      rw [Function.update_of_ne (by simp)]
      exact holds_event (s := s) (c := .running path spin) rfl q'
    | slot p =>
      -- Below `write_head` nothing changes; at it the event just acknowledged comes to lie.
      rw [holds_slot (s := Spill.become q (.running path spin) { s with pub := pub }) hpub]
      simp only [Spill.become, hacks, hr]
      by_cases hp : p = s.pub.ring.writeHead
      · rw [hp, Function.update_self, hold, if_pos h.pub.settled.le, ← hlen,
          List.getElem?_concat_length]
        rfl
      · rw [Function.update_of_ne (by simpa using hp), Function.update_of_ne (by simp),
          holds_slot h.pub, List.getElem?_append]
        rcases Nat.lt_or_ge p s.pub.acks.length with hlt | hge
        · rw [if_pos hlt]
        · rw [if_neg (Nat.not_lt.2 hge), List.getElem?_eq_none hge,
            List.getElem?_eq_none (by rw [List.length_singleton]; omega)]
  refine ⟨hpub, fun q' => ?_, ?_, fun d p hd => Nat.lt_of_lt_of_eq (h.released d p hd) hr.symm⟩
  · by_cases hq : q' = q
    · simp only [Spill.become, hq, Function.update_self]
      exact hidle
    · simp only [Spill.become, Function.update_of_ne hq, hpc q' hq]
      exact h.linked q'
  · rw [hholds]
    exact Balanced.move h.ledger hnone

/-- An access of publish. -/
theorem Inv.produce (h : Inv s) {path : Path} {spin : ℕ} (hcmd : s.cmd q = .publishing path spin ev)
    {now : ℤ} (hfresh : ∀ ev w r, s.pub.pc q = .reserve ev w r →
      (s.pub.ring.slot w).state = .empty → w = s.pub.ring.writeHead)
    {pub : Publish.State cap WireEvent π δ} (hst : Publish.produce q now s.pub = some pub) :
    Inv (Spill.become q (published path spin ev (s.pub.pc q) (pub.pc q))
      { s with pub := pub }) := by
  have hpub := Publish.inv_produce h.pub now hfresh hst
  have hlink : (s.pub.pc q).event? = some ev := by
    have hlink := h.linked q
    rwa [hcmd] at hlink
  have hold : holds s (.event q) = ev.chunk? := by rw [holds, hcmd]; rfl
  obtain ⟨hr, hpc, ⟨ev', w, adv, hbefore, hidle, hacks⟩ | ⟨hbefore, hafter, hacks⟩⟩ :=
    produce_cases hst
  · obtain rfl : ev' = ev := by
      rw [hbefore] at hlink
      exact Option.some.inj hlink
    rw [hbefore, hidle]
    exact h.handOver hcmd hpub hr hpc hidle hacks
  -- Still within publish, or out of it with a full ring: the command keeps the event.
  · have hkeep : s.spills.Ledger (Function.update (holds s) (.event q) ev.chunk?) := by
      rw [← hold, Function.update_eq_self]
      exact h.ledger
    rcases published_cases path spin hbefore with ⟨hidle, heq⟩ | ⟨hne, heq⟩ <;> rw [heq]
    · exact h.command hpub hr hacks rfl hpc hidle hkeep fun _ _ => id
    · exact h.command hpub hr hacks rfl hpc ((hafter.resolve_left hne).trans hlink) hkeep
        fun _ _ => id

/-! ## The steps of a drainer -/

omit [DecidableEq π] in
/-- A drainer which leaves `read_head` alone. -/
theorem Inv.drain (h : Inv s) {pub : Publish.State cap WireEvent π δ} (hpub : Publish.Inv pub)
    (hr : pub.ring.readHead = s.pub.ring.readHead) (hacks : pub.acks = s.pub.acks)
    (hpc : pub.pc = s.pub.pc) : Inv { s with pub := pub } := by
  have hholds : holds { s with pub := pub } = holds s := by
    funext o
    cases o with
    | event q => rfl
    | slot p => rw [holds_slot (s := { s with pub := pub }) hpub, holds_slot h.pub, hr, hacks]
  refine ⟨hpub, fun q => ?_, ?_, fun d p hd => Nat.lt_of_lt_of_eq (h.released d p hd) hr.symm⟩
  · rw [hpc]
    exact h.linked q
  · rw [hholds]
    exact h.ledger

/-- What the owners hold once the `n` slots from `base` on hold nothing. -/
def cleared (base n : ℕ) (held : Owner π → Option ℕ) : Owner π → Option ℕ
  | .event q => held (.event q)
  | .slot p => if base ≤ p ∧ p < base + n then none else held (.slot p)

omit [DecidableEq π] in
theorem cleared_zero (base : ℕ) (held : Owner π → Option ℕ) : cleared base 0 held = held := by
  funext o
  cases o with
  | event q => rfl
  | slot p =>
    have hno : ¬(base ≤ p ∧ p < base + 0) := by omega
    rw [cleared, if_neg hno]

theorem cleared_succ (base n : ℕ) (held : Owner π → Option ℕ) :
    cleared base (n + 1) held = Function.update (cleared base n held) (.slot (base + n)) none := by
  funext o
  cases o with
  | event q => rw [Function.update_of_ne (by simp), cleared, cleared]
  | slot p =>
    by_cases hp : p = base + n
    · rw [hp, Function.update_self, cleared, if_pos (by omega)]
    · rw [Function.update_of_ne (by simpa using hp), cleared, cleared]
      exact if_congr (by omega) rfl rfl

/-- The slots freed no longer hold anything. -/
theorem Spills.Ledger.freeSlots (h : m.Ledger held) {r : Ring cap WireEvent} {base : ℕ} :
    ∀ {n : ℕ}, (∀ i < n, held (.slot (base + i)) = (r.slot (base + i)).payload.chunk?) →
      (Spill.freeSlots r base n m).Ledger (cleared base n held)
  | 0, _ => by
    rw [cleared_zero]
    exact h
  | n + 1, hslots => by
    have ih : (Spill.freeSlots r base n m).Ledger (cleared base n held) :=
      h.freeSlots fun i hi => hslots i (Nat.lt_succ_of_lt hi)
    have hlast : cleared base n held (.slot (base + n)) = (r.slot (base + n)).payload.chunk? := by
      rw [cleared, if_neg (by omega), hslots n (Nat.lt_succ_self n)]
    rw [Spill.freeSlots, List.range_succ, List.foldl_append, List.foldl_cons, List.foldl_nil,
      cleared_succ]
    exact ih.free hlast

omit [DecidableEq π] in
theorem mem_freed_freeSlots {r : Ring cap WireEvent} {base n d p : ℕ}
    (hd : (d, Owner.slot p) ∈ (freeSlots r base n m).freed) :
    (d, Owner.slot p) ∈ m.freed ∨ p < base + n := by
  induction n with
  | zero => exact .inl hd
  | succ n ih =>
    rw [freeSlots, List.range_succ, List.foldl_append, List.foldl_cons, List.foldl_nil] at hd
    rcases mem_freed hd with hd | hd
    · exact (ih hd).imp_right Nat.lt_succ_of_lt
    · exact .inr (by rw [Owner.slot.inj hd]; omega)

/-- The release of a batch frees what its slots hold. -/
theorem Inv.release [DecidableEq δ] (h : Inv s) {d : δ} {b : Drain.Batch WireEvent}
    (hb : s.pub.batch d = some b) {pub : Publish.State cap WireEvent π δ}
    (hst : Publish.step s.pub (.release d) = some pub) :
    Inv { s with pub := pub, spills := freeSlots s.pub.ring b.base b.size s.spills } := by
  have hset := h.pub.settled
  have hflight := hset.flight d b hb
  have hsize := hset.size d b hb
  have hle := hflight.le
  have hpub := Publish.inv_release h.pub d hst
  obtain ⟨hr, hacks, hpc⟩ : pub.ring.readHead = s.pub.ring.readHead + b.size ∧
      pub.acks = s.pub.acks ∧ pub.pc = s.pub.pc := by
    rw [Publish.step, hb, Option.map_some] at hst
    obtain rfl := Option.some.inj hst
    refine ⟨?_, rfl, rfl⟩
    simp only [Ring.releaseBatch, if_neg (Nat.ne_of_gt hsize), hflight.base]
  rw [hflight.base]
  have hfreed : Spills.Ledger _ (cleared s.pub.ring.readHead b.size (holds s)) :=
    h.ledger.freeSlots (r := s.pub.ring) fun i hi => if_pos ⟨by omega, by omega⟩
  have hholds : ∀ m, holds (⟨pub, s.cmd, m⟩ : State cap π δ) =
      cleared s.pub.ring.readHead b.size (holds s) := by
    intro m
    funext o
    cases o with
    | event q => rfl
    | slot p =>
      rw [holds_slot (s := ⟨pub, s.cmd, m⟩) hpub, cleared, holds_slot h.pub]
      simp only [hr, hacks]
      -- The slots cleared are those that `read_head` has passed.
      split_ifs <;> first | rfl | omega
  refine ⟨hpub, fun q => ?_, ?_, fun c p hc => ?_⟩
  · rw [hpc]
    exact h.linked q
  · rw [hholds]
    exact hfreed
  · rw [hr]
    rcases mem_freed_freeSlots hc with hc | hlt
    · exact Nat.lt_of_lt_of_le (h.released c p hc) (Nat.le_add_right _ _)
    · exact hlt

/-! ## Runs -/

variable [DecidableEq δ]

theorem inv_step (s : State cap π δ) (a : Action π δ) (s' : State cap π δ) (h : Inv s)
    (hok : Kept s a) (hst : step s a = some s') : Inv s' := by
  -- A producer's steps say whose the chunks of its event are; of the drainer's steps only
  -- `release` frees chunks, those of the slots it empties.
  cases a with
  | start q path =>
    rw [step] at hst
    split at hst
    next hcmd =>
      obtain rfl := Option.some.inj hst
      have hlink := h.linked q
      rw [hcmd] at hlink
      exact h.become hlink (by rw [holds, hcmd]; rfl)
    next => exact absurd hst (by simp)
  | encode q ok buf args =>
    rw [step] at hst
    split at hst
    next path spin hcmd =>
      obtain rfl := Option.some.inj hst
      exact h.encode hcmd ok buf args
    next => exact absurd hst (by simp)
  | produce q now =>
    rw [step] at hst
    split at hst
    next path spin ev hcmd =>
      obtain ⟨pub, hpub, rfl⟩ := Option.map_eq_some_iff.1 hst
      exact h.produce hcmd hok hpub
    next => exact absurd hst (by simp)
  | full q action ok =>
    rw [step] at hst
    split at hst
    next path spin ev hcmd =>
      obtain rfl := Option.some.inj hst
      exact h.full hcmd (hok path spin ev hcmd)
    next => exact absurd hst (by simp)
  | finish q =>
    rw [step] at hst
    split at hst
    next path spin hcmd =>
      obtain rfl := Option.some.inj hst
      have hlink := h.linked q
      rw [hcmd] at hlink
      exact h.become hlink (by rw [holds, hcmd]; rfl)
    next => exact absurd hst (by simp)
  | collect d max =>
    obtain ⟨pub, hpub, rfl⟩ := Option.map_eq_some_iff.1 hst
    have hinv := Publish.inv_collect h.pub d max hpub
    obtain ⟨-, rfl⟩ := Publish.step_collect hpub
    exact h.drain hinv rfl rfl rfl
  | release d =>
    obtain ⟨b, hb, hst⟩ := Option.bind_eq_some_iff.1 hst
    obtain ⟨pub, hpub, rfl⟩ := Option.map_eq_some_iff.1 hst
    exact h.release hb hpub
  | abort d =>
    obtain ⟨pub, hpub, rfl⟩ := Option.map_eq_some_iff.1 hst
    have hinv := Publish.inv_abort h.pub d hpub
    obtain ⟨b, -, rfl⟩ := Option.map_eq_some_iff.1 hpub
    exact h.drain hinv rfl rfl rfl

/-- In every run whose reservations are fresh, and in which no command raises on a full ring
    with the chunk of its event unfreed, each chunk has one owner until it is freed. -/
theorem spill_owned (h : Reachable step Kept (init : State cap π δ) s) : Owned s :=
  (h.invariant inv_init inv_step).owned

/-- A `DEL` of a key of 257 bytes, whose event is then drained. -/
def spilledDelete : List (Action Unit Unit) :=
  [.start () .blocking, .encode () true [] (.keyDelete (List.replicate 257 107))] ++
    List.replicate 7 (.produce () 0) ++ [.finish (), .collect () 1, .release ()]

set_option maxRecDepth 4000 in
/-- The chunk of the event of `spilledDelete` is freed. -/
theorem spill_owned_delete : ((run step (init : State 1024 Unit Unit) spilledDelete).get
    rfl).spills.dsa.live = [] := by
  have hkept : Meets step Kept (init : State 1024 Unit Unit) spilledDelete := by
    refine .cons trivial rfl (.cons trivial rfl (.cons ?_ rfl (.cons ?_ rfl (.cons ?_ rfl
      (.cons ?_ rfl (.cons ?_ rfl (.cons ?_ rfl (.cons ?_ rfl (.cons trivial rfl (.cons trivial rfl
        (.cons trivial rfl trivial))))))))))) <;> rintro _ _ _ ⟨⟩
    -- The reservation, at position `0` of an empty ring.
    exact fun _ => rfl
  exact (spill_owned (.of_run .init hkept (Option.some_get rfl).symm)).empty (fun _ => rfl) rfl

/-- A command that raises on a full ring with the chunk of its event unfreed leaves it to
    nobody. -/
theorem Inv.not_owned_of_leak (h : Inv s) {path : Path} {spin : ℕ}
    (hcmd : s.cmd q = .full path spin ev) {action : FullAction} {ok : Bool}
    (hleak : path.Leaks action ok spin) {c : ℕ} (hc : ev.chunk? = some c)
    (hst : step s (.full q action ok) = some s') : ¬Owned s' := by
  have hold : holds s (.event q) = some c := by rw [holds, hcmd]; exact hc
  obtain rfl : s' = Spill.become q .done s := by
    rw [step, hcmd] at hst
    rw [← Option.some.inj hst]
    cases path with
    | blocking =>
      obtain ⟨rfl, hspin⟩ := hleak
      cases action with
      | syncFlush => rfl
      | block =>
        simp only [Spill.full, if_neg (Nat.not_le.2 (hspin rfl)), Bool.false_eq_true, if_false]
    | setAtomic => exact hleak.elim
    | underLock =>
      have hraise : handleRingFullAfterUnlock action ok spin = none := hleak
      simp only [Spill.full, hraise]
  intro howned
  have hholds : holds (Spill.become q .done s) = Function.update (holds s) (.event q) none := by
    funext o
    cases o with
    | slot p =>
      rw [Function.update_of_ne (by simp)]
      rfl
    | event q' => exact holds_event (s := s) (c := .done) rfl q'
  -- The chunk is still live, and its only owner has gone.
  obtain ⟨o, ho, -⟩ := howned.owner c ((h.ledger.live_iff c).2 ⟨_, hold⟩)
  rw [hholds] at ho
  exact Balanced.not_of_dropped h.ledger hold o ho

/-- An access within publish, as a step of its command. -/
theorem reachable_access {p p' : Publish.State cap WireEvent π δ}
    {c : π → Cmd} {path : Path} {spin : ℕ} (h : Reachable step Kept init ⟨p, c, m⟩)
    (hcmd : c q = .publishing path spin ev) (hfresh : Publish.Fresh p (.produce q 0))
    (hbefore : ∀ ev w, p.pc q ≠ .advance ev w) (hst : Publish.produce q 0 p = some p')
    (hafter : p'.pc q ≠ .idle) : Reachable step Kept init ⟨p', c, m⟩ := by
  refine h.step (a := .produce q 0) hfresh ?_
  have hsame : published path spin ev (p.pc q) (p'.pc q) = .publishing path spin ev :=
    ((published_cases path spin hbefore).resolve_left fun h => hafter h.1).2
  simp only [step, hcmd, hst, Option.map_some, hsame, become]
  rw [← hcmd, Function.update_eq_self]

/-- A command publishes an event without a chunk, undisturbed. -/
theorem reachable_publish {s : State cap Unit Unit} (h : Reachable step Kept init s)
    (hcmd : s.cmd () = .running .blocking 0)
    (hroom : isFull cap s.pub.ring.writeHead s.pub.ring.readHead = false)
    (hempty : (s.pub.ring.slot s.pub.ring.writeHead).state = .empty) :
    ∃ s' : State cap Unit Unit, Reachable step Kept init s' ∧ s'.cmd () = .running .blocking 0 ∧
      s'.pub.ring.readHead = s.pub.ring.readHead ∧
      s'.pub.ring.writeHead = s.pub.ring.writeHead + 1 ∧
      ∀ p, s.pub.ring.writeHead < p → p < s.pub.ring.writeHead + cap →
        s'.pub.ring.slot p = s.pub.ring.slot p := by
  -- The accesses of publish one by one: nobody is in the way.
  obtain ⟨ev, hencode⟩ : ∃ ev, step s (.encode () true [] (.keyDelete [107])) =
      some (call () .blocking 0 ev s) := ⟨_, by rw [step, hcmd]; rfl⟩
  have h₁ := h.step (by exact trivial) hencode
  have h₂ := reachable_access (q := ()) h₁ rfl (by simp [Publish.Fresh, Publish.goto])
    (by simp [Publish.goto]) rfl (by simp [Publish.goto])
  have h₃ := reachable_access (q := ()) h₂ rfl (by simp [Publish.Fresh, Publish.goto])
    (by simp [Publish.goto]) (if_neg (by rw [Bool.not_eq_true]; exact hroom))
    (by simp [Publish.goto])
  have h₄ := reachable_access (q := ()) h₃ rfl (by simp [Publish.Fresh, Publish.goto])
    (by simp [Publish.goto]) (if_pos hempty) (by simp [Publish.goto])
  have h₅ := reachable_access (q := ()) h₄ rfl (by simp [Publish.Fresh, Publish.goto])
    (by simp [Publish.goto]) rfl (by simp [Publish.goto])
  have h₆ := reachable_access (q := ()) h₅ rfl (by simp [Publish.Fresh, Publish.goto])
    (by simp [Publish.goto]) rfl (by simp [Publish.goto])
  have h₇ := reachable_access (q := ()) h₆ rfl (by simp [Publish.Fresh, Publish.goto])
    (by simp [Publish.goto])
    (if_pos (by simp only [Publish.goto, Publish.write, slot, Cyclic.get_modify_self]))
    (by simp [Publish.goto])
  have h₈ := h₇.step (a := Action.produce () 0) (by rintro _ _ _ ⟨⟩)
    (congrArg (fun p => some (become () (.running .blocking 0) ⟨Publish.goto () .idle p, _, _⟩))
      (if_pos rfl))
  refine ⟨_, h₈, rfl, rfl, rfl, fun p hw hp => ?_⟩
  have hne := Nat.ne_of_gt hw
  simp only [become, Publish.goto, Publish.write, slot]
  rw [Cyclic.get_modify_of_ne _ _ hne hp (by omega), Cyclic.get_modify_of_ne _ _ hne hp (by omega),
    Cyclic.get_modify_of_ne _ _ hne hp (by omega), Cyclic.get_modify_of_ne _ _ hne hp (by omega)]

/-- The ring fills up. -/
theorem reachable_fill : ∀ k ≤ cap, ∃ s : State cap Unit Unit, Reachable step Kept init s ∧
    s.cmd () = .running .blocking 0 ∧ s.pub.ring.readHead = 0 ∧ s.pub.ring.writeHead = k ∧
    ∀ p, k ≤ p → p < cap → (s.pub.ring.slot p).state = .empty
  | 0, _ => ⟨_, .step .init (a := .start () .blocking) trivial rfl, rfl, rfl, rfl, fun _ _ _ => rfl⟩
  | k + 1, hk => by
    obtain ⟨s, hs, hcmd, hr, hw, hempty⟩ := reachable_fill k (Nat.le_of_succ_le hk)
    obtain ⟨s', hs', hcmd', hr', hw', hslot⟩ := reachable_publish hs hcmd
      (isFull_eq_false.2 (by omega)) (hw.symm ▸ hempty k le_rfl hk)
    refine ⟨s', hs', hcmd', hr'.trans hr, by omega, fun p hp hlt => ?_⟩
    rw [hslot p (by omega) (by omega)]
    exact hempty p (by omega) hlt

/-- A field delete of 257 bytes finds the ring full, and the synchronous drain fails: its
    chunk is left to nobody. -/
theorem field_delete_leaks : ¬∀ s : State 1024 Unit Unit,
    Reachable step (fun _ _ => True) init s → Owned s := by
  intro h
  obtain ⟨s, hs, hcmd, hr, hw, -⟩ := reachable_fill 1024 le_rfl
  -- The command that has filled the ring returns, and the field delete starts.
  have hfinish : step s (.finish ()) = some (become () .done s) := by rw [step, hcmd]
  have h₁ := (hs.step (by exact trivial) hfinish).step (a := Action.start () .underLock)
    (by exact trivial) rfl
  obtain ⟨ev, hencode, hc⟩ := @encode_spills (.hashFieldDelete [107] (List.replicate 256 102))
    (by simp only [EncodeArgs.key, EncodeArgs.field, EncodeArgs.value, inlineBytes,
      List.length_append, List.length_cons, List.length_nil, List.length_replicate,
      Nat.lt_add_one])
    [] s.spills.dsa
  have hcall : step (become () (.running .underLock 0) (become () .done s))
      (.encode () true [] (.hashFieldDelete [107] (List.replicate 256 102))) =
        some (call () .underLock 0 ev { become () (.running .underLock 0) (become () .done s) with
          spills.dsa := s.spills.dsa.palloc.2 }) := by
    simp only [step, become, Function.update_self, encode, hencode, reduceCtorEq, if_false]
  -- Publish reads the heads, and finds the ring full.
  have h₂ := h₁.step (by exact trivial) hcall
  have h₃ := reachable_access (q := ()) h₂ rfl (by simp [Publish.Fresh, Publish.goto])
    (by simp [Publish.goto]) rfl (by simp [Publish.goto])
  have hfull : isFull 1024 s.pub.ring.writeHead s.pub.ring.readHead = true := by rw [hr, hw]; rfl
  have h₄ := h₃.step (a := Action.produce () 0) (by simp [Kept, Publish.Fresh, Publish.goto])
    (congrArg (Option.map _) (if_pos hfull))
  obtain ⟨t, ht, hcmd⟩ : ∃ t : State 1024 Unit Unit, Reachable step Kept init t ∧
      t.cmd () = .full .underLock 0 ev := ⟨_, h₄, rfl⟩
  have hraise : step t (.full () .syncFlush false) = some (become () .done t) := by
    rw [step, hcmd]
    rfl
  have hleak : Path.underLock.Leaks .syncFlush false 0 := rfl
  exact (ht.invariant inv_init inv_step).not_owned_of_leak hcmd hleak hc hraise
    (h _ ((ht.mono fun _ _ _ => trivial).step trivial hraise))

end Ring.Spill

end PgRedis
