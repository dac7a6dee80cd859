import PgRedis.Lib.Cyclic

/-!
# The dirty ring

The shared multi-producer ring of `dirty_ring.c`: two head counters and an array
of slots, position `p` living in the slot `p % capacity`. A producer reserves
the slot at `write_head` (`EMPTY → WRITING`), fills it, publishes it
(`WRITING → READY`) and only then advances `write_head`. A drainer *collects* a
batch from `read_head` on (`READY → DRAINING`), gives up the consumer lock while
it persists the batch, and then *releases* the slots (`DRAINING → EMPTY`,
advancing `read_head`) or *aborts* (`DRAINING → READY`).

This file has the locked operations, and `publish` as one uninterrupted step;
`PgRedis.Ring.Publish` takes `publish` apart into its atomic accesses. The heads
are unbounded counters: only the difference `w - r`, an unsigned subtraction, is
looked at modulo `2 ^ 64` (`isFull`).

A ring *holds* a log (`Holds`) when the positions `[read_head, write_head)` are
the end of the log, each in a slot `READY` or `DRAINING`, and the other slots
are free: the abstract view is the list of all events ever published, together
with the number of those already released. Each operation is described once by
what it does to that view.
-/

namespace PgRedis

open Lib

/-- `TimestampDifferenceExceeds`, on times in microseconds. -/
def timestampDifferenceExceeds (start stop msec : ℤ) : Bool := stop - start ≥ msec * 1000

/-- The lifecycle of a slot: `SLOT_EMPTY`, `SLOT_WRITING`, `SLOT_READY`, `SLOT_DRAINING`. -/
inductive SlotState
  | empty
  | writing
  | ready
  | draining
  deriving DecidableEq, Repr

/-- A slot of the ring, carrying events `ε`. -/
structure Slot (ε : Type*) where
  state : SlotState
  writeStartedAt : ℤ
  payload : ε
  /-- The position the slot was last reserved for. The code does not store it:
      it only serves to say which position a slot is `READY` for. -/
  pos : ℕ
  deriving DecidableEq, Repr

namespace Slot

variable {ε : Type*}

/-- Writing the state word of a slot. -/
def setState (st : SlotState) (s : Slot ε) : Slot ε := { s with state := st }

@[simp] theorem setState_state (st : SlotState) (s : Slot ε) : (s.setState st).state = st := rfl
@[simp] theorem setState_payload (st : SlotState) (s : Slot ε) :
    (s.setState st).payload = s.payload := rfl

/-- A slot `READY` or `DRAINING`: it holds a published event not yet released. -/
def Live (s : Slot ε) : Prop := s.state = .ready ∨ s.state = .draining

instance (s : Slot ε) : Decidable s.Live := inferInstanceAs (Decidable (_ ∨ _))

end Slot

/-- The ring: `ring_write_head`, `ring_read_head` and the slots. -/
structure Ring (cap : ℕ) (ε : Type*) where
  writeHead : ℕ
  readHead : ℕ
  slots : Cyclic cap (Slot ε)

/-- The outcome of a publish attempt. -/
inductive PublishResult
  | ok
  | full
  deriving DecidableEq, Repr

namespace Ring

variable {cap : ℕ} {ε : Type*}

/-- The slot of position `p`. -/
def slot (r : Ring cap ε) (p : ℕ) : Slot ε := r.slots.get p

/-- The ring as `pg_redis_dirty_ring_shmem_init` leaves it. -/
def init [Inhabited ε] : Ring cap ε :=
  ⟨0, 0, ⟨fun _ => ⟨.empty, 0, default, 0⟩⟩⟩

/-- The test `w - r >= ring_capacity` on the two heads as a producer read them.
    The subtraction is unsigned: it wraps to a huge value when `r` has
    meanwhile gone past `w`. -/
def isFull (cap w r : ℕ) : Bool := !(decide (r ≤ w) && decide (w - r < cap))

theorem isFull_eq_false {w r : ℕ} : isFull cap w r = false ↔ r ≤ w ∧ w < r + cap := by
  simp only [isFull, Bool.not_eq_false', Bool.and_eq_true, decide_eq_true_eq]
  omega

/-- The ring with `ev` written into the slot at `write_head`, published there. -/
def append (now : ℤ) (ev : ε) (r : Ring cap ε) : Ring cap ε :=
  { r with
    writeHead := r.writeHead + 1
    slots := r.slots.modify r.writeHead fun _ => ⟨.ready, now, ev, r.writeHead⟩ }

/-- `pg_redis_dirty_ring_publish` run without interruption. `none` when the slot
    at `write_head` is not `EMPTY`: the reservation loop spins. -/
def publish (now : ℤ) (ev : ε) (r : Ring cap ε) : Option (Ring cap ε × PublishResult) :=
  if isFull cap r.writeHead r.readHead then some (r, .full)
  else if (r.slot r.writeHead).state = .empty then some (r.append now ev, .ok)
  else none

/-- The loop of `pg_redis_dirty_ring_collect`: copy events from `pos` on, up to
    `max` of them, flipping their slots to `DRAINING`; stop at the first slot
    that is not `READY`. -/
def collectFrom (w : ℕ) : (pos max : ℕ) → Cyclic cap (Slot ε) → List ε × Cyclic cap (Slot ε)
  | _, 0, c => ([], c)
  | pos, max + 1, c =>
    if pos < w ∧ (c.get pos).state = .ready then
      let rest := collectFrom w (pos + 1) max (c.modify pos (Slot.setState .draining))
      ((c.get pos).payload :: rest.1, rest.2)
    else ([], c)

/-- `pg_redis_dirty_ring_collect`: the events copied and the ring; the base of
    the batch is `read_head`, which does not move. -/
def collect (max : ℕ) (r : Ring cap ε) : List ε × Ring cap ε :=
  let res := collectFrom r.writeHead r.readHead max r.slots
  (res.1, { r with slots := res.2 })

/-- `pg_redis_dirty_ring_release_batch`: flip the `n` slots from `base` on to
    `EMPTY` and set `read_head` past them. -/
def releaseBatch (base n : ℕ) (r : Ring cap ε) : Ring cap ε :=
  if n = 0 then r
  else { r with
    readHead := base + n
    slots := Cyclic.modifyRange (Slot.setState .empty) base n r.slots }

/-- `pg_redis_dirty_ring_abort_batch`: flip the `n` slots from `base` on back to
    `READY`; `read_head` does not move. -/
def abortBatch (base n : ℕ) (r : Ring cap ε) : Ring cap ε :=
  { r with slots := Cyclic.modifyRange (Slot.setState .ready) base n r.slots }

/-- The loop of `pg_redis_dirty_ring_drop_all_pending`, over at most `fuel`
    positions from `pos` on: empty `READY` and `DRAINING` slots, stop at any
    other. The position it stops at and the slots. -/
def dropFrom : (pos fuel : ℕ) → Cyclic cap (Slot ε) → ℕ × Cyclic cap (Slot ε)
  | pos, 0, c => (pos, c)
  | pos, fuel + 1, c =>
    if (c.get pos).Live then dropFrom (pos + 1) fuel (c.modify pos (Slot.setState .empty))
    else (pos, c)

/-- `pg_redis_dirty_ring_drop_all_pending`. -/
def dropAllPending (r : Ring cap ε) : Ring cap ε :=
  let res := dropFrom r.readHead (r.writeHead - r.readHead) r.slots
  { r with readHead := res.1, slots := res.2 }

/-! ## What the loops do -/

/-- The collect loop takes the longest run of `READY` slots it is allowed to,
    in order. -/
theorem collectFrom_spec (w : ℕ) :
    ∀ (max pos : ℕ) (c : Cyclic cap (Slot ε)), w ≤ pos + cap →
      ∃ n ≤ max, collectFrom w pos max c =
          ((List.range n).map fun i => (c.get (pos + i)).payload,
            Cyclic.modifyRange (Slot.setState .draining) pos n c) ∧
        (∀ i < n, pos + i < w ∧ (c.get (pos + i)).state = .ready) ∧
        (n = max ∨ w ≤ pos + n ∨ (c.get (pos + n)).state ≠ .ready)
  | 0, _, _, _ => ⟨0, le_rfl, rfl, fun _ h => absurd h (by omega), .inl rfl⟩
  | max + 1, pos, c, hw => by
    by_cases h : pos < w ∧ (c.get pos).state = .ready
    · obtain ⟨n, hn, heq, hready, hstop⟩ :=
        collectFrom_spec w max (pos + 1) (c.modify pos (Slot.setState .draining)) (by omega)
      -- The slots after `pos` are other slots: the window is at most `cap` long.
      have hother : ∀ i, pos + 1 + i < w →
          (c.modify pos (Slot.setState .draining)).get (pos + 1 + i) = c.get (pos + (i + 1)) := by
        intro i hi
        rw [Cyclic.get_modify_of_ne _ _ (by omega) (by omega) (by omega)]
        congr 1
        omega
      refine ⟨n + 1, by omega, ?_, ?_, ?_⟩
      · rw [collectFrom, if_pos h, heq, List.range_succ_eq_map]
        simp only [List.map_cons, List.map_map, Cyclic.modifyRange, Nat.add_zero, Prod.mk.injEq,
          List.cons.injEq, true_and, and_true]
        refine List.map_congr_left fun i hi => ?_
        rw [hother i (hready i (List.mem_range.1 hi)).1]
        rfl
      · rintro (_ | i) hi
        · exact h
        · have := hready i (by omega)
          rw [hother i this.1] at this
          exact ⟨by omega, this.2⟩
      · rcases hstop with rfl | hle | hne
        · exact .inl rfl
        · exact .inr (.inl (by omega))
        · by_cases hle : w ≤ pos + 1 + n
          · exact .inr (.inl (by omega))
          · rw [hother n (by omega)] at hne
            exact .inr (.inr hne)
    · refine ⟨0, Nat.zero_le _, by rw [collectFrom, if_neg h]; rfl,
        fun _ hi => absurd hi (by omega), .inr ?_⟩
      by_cases hle : w ≤ pos
      · exact .inl hle
      · exact .inr fun hr => h ⟨by omega, hr⟩

/-- The drop loop empties everything when it meets live slots only. -/
theorem dropFrom_of_live :
    ∀ (fuel pos : ℕ) (c : Cyclic cap (Slot ε)), fuel ≤ cap →
      (∀ i < fuel, (c.get (pos + i)).Live) →
      dropFrom pos fuel c =
        (pos + fuel, Cyclic.modifyRange (Slot.setState .empty) pos fuel c)
  | 0, _, _, _, _ => rfl
  | fuel + 1, pos, c, hcap, hlive => by
    rw [dropFrom, if_pos (by simpa using hlive 0 (by omega)),
      dropFrom_of_live fuel (pos + 1) _ (by omega), Cyclic.modifyRange]
    · congr 1
      omega
    · intro i hi
      rw [Cyclic.get_modify_of_ne _ _ (by omega) (by omega) (by omega)]
      simpa [Nat.add_assoc, Nat.add_comm 1 i] using hlive (i + 1) (by omega)

/-! ## The log held by a ring -/

/-- The ring `r` holds the log of all published events: those from `read_head`
    on are in live slots, and the remaining slots are free. -/
structure Holds (r : Ring cap ε) (log : List ε) : Prop where
  write : r.writeHead = log.length
  le : r.readHead ≤ r.writeHead
  fit : r.writeHead ≤ r.readHead + cap
  live : ∀ p, r.readHead ≤ p → p < r.writeHead → (r.slot p).Live
  stored : ∀ p (hp : p < log.length), r.readHead ≤ p → (r.slot p).payload = log[p]
  free : ∀ p, r.writeHead ≤ p → p < r.readHead + cap → (r.slot p).state = .empty

theorem holds_init [Inhabited ε] : (init : Ring cap ε).Holds [] where
  write := rfl
  le := le_rfl
  fit := Nat.zero_le _
  live _ _ h := absurd h (Nat.not_lt_zero _)
  stored _ h := absurd h (Nat.not_lt_zero _)
  free _ _ _ := rfl

variable {r r' : Ring cap ε} {log : List ε}

/-- Appending an event leaves the other slots of the window alone. -/
theorem slot_append_of_ne (now : ℤ) (ev : ε) {p : ℕ} (hne : p ≠ r.writeHead)
    (hp : p < r.writeHead + cap) (hw : r.writeHead < p + cap) :
    (r.append now ev).slot p = r.slot p :=
  r.slots.get_modify_of_ne (fun _ => ⟨.ready, now, ev, r.writeHead⟩) hne hp hw

@[simp] theorem slot_append_self (now : ℤ) (ev : ε) :
    (r.append now ev).slot r.writeHead = ⟨.ready, now, ev, r.writeHead⟩ :=
  r.slots.get_modify_self _ fun _ => ⟨.ready, now, ev, r.writeHead⟩

/-- Appending an event where there is room extends the log. -/
theorem Holds.append (h : r.Holds log) (now : ℤ) (ev : ε)
    (hroom : r.writeHead < r.readHead + cap) : (r.append now ev).Holds (log ++ [ev]) := by
  have hle := h.le
  have hlen := h.write
  -- Only the slot at `write_head` is written, and within a turn of the ring no other position
  -- has it.
  have hslot : ∀ p, r.readHead ≤ p → p < r.readHead + cap → p ≠ r.writeHead →
      (r.append now ev).slot p = r.slot p := fun p hr hc hne =>
    slot_append_of_ne now ev hne (by omega) (by omega)
  constructor
  · simp [Ring.append, hlen]
  · exact Nat.le_succ_of_le h.le
  · exact hroom
  · intro p hr hw
    rcases Nat.lt_succ_iff_lt_or_eq.1 hw with hlt | rfl
    · rw [hslot p hr (by omega) (by omega)]
      exact h.live p hr hlt
    · rw [slot_append_self]
      exact .inl rfl
  · intro p hp hr
    rw [List.length_append, List.length_singleton, ← hlen] at hp
    rcases Nat.lt_succ_iff_lt_or_eq.1 hp with hlt | rfl
    · rw [hslot p hr (by omega) (by omega), List.getElem_append_left (hlen ▸ hlt)]
      exact h.stored p (hlen ▸ hlt) hr
    · rw [slot_append_self]
      simp [hlen]
  · intro p hw hr
    have hw : r.writeHead + 1 ≤ p := hw
    rw [hslot p (by omega) hr (by omega)]
    exact h.free p (by omega) hr

/-- A publish into a ring holding a log never spins: it finds the ring full,
    changing nothing, or appends its event. -/
theorem publish_cases (h : r.Holds log) (now : ℤ) (ev : ε) :
    (r.publish now ev = some (r, .full) ∧ r.writeHead = r.readHead + cap) ∨
      (r.publish now ev = some (r.append now ev, .ok) ∧ r.writeHead < r.readHead + cap) := by
  have hfit := h.fit
  by_cases hfull : isFull cap r.writeHead r.readHead
  · refine .inl ⟨by rw [publish, if_pos hfull], ?_⟩
    by_contra hne
    rw [isFull_eq_false.2 ⟨h.le, by omega⟩] at hfull
    exact absurd hfull (by decide)
  · have hroom := (isFull_eq_false.1 (Bool.not_eq_true _ ▸ hfull)).2
    exact .inr ⟨by rw [publish, if_neg hfull, if_pos (h.free _ le_rfl hroom)], hroom⟩

/-- A collect flips the longest allowed run of `READY` slots from `read_head` on
    to `DRAINING`, and copies their events. -/
theorem collect_run (hle : r.readHead ≤ r.writeHead) (hfit : r.writeHead ≤ r.readHead + cap)
    (max : ℕ) :
    ∃ n ≤ max, r.readHead + n ≤ r.writeHead ∧
      r.collect max = ((List.range n).map fun i => (r.slot (r.readHead + i)).payload,
        { r with slots := Cyclic.modifyRange (Slot.setState .draining) r.readHead n r.slots }) ∧
      (∀ i < n, (r.slot (r.readHead + i)).state = .ready) ∧
      (n = max ∨ r.readHead + n = r.writeHead ∨
        (r.slot (r.readHead + n)).state ≠ .ready) := by
  obtain ⟨n, hn, heq, hready, hstop⟩ :=
    collectFrom_spec r.writeHead max r.readHead r.slots hfit
  have hw : r.readHead + n ≤ r.writeHead := by
    rcases n with _ | n
    · omega
    · have := (hready n (by omega)).1
      omega
  refine ⟨n, hn, hw, by rw [collect, heq]; rfl, fun i hi => (hready i hi).2, ?_⟩
  rcases hstop with h₁ | h₁ | h₁
  · exact .inl h₁
  · exact .inr (.inl (by omega))
  · exact .inr (.inr h₁)

/-- What a collect returns from a ring holding a log: the next events of it. -/
theorem collect_spec (h : r.Holds log) (max : ℕ) :
    ∃ n ≤ max, r.readHead + n ≤ r.writeHead ∧
      (r.collect max).1 = (log.drop r.readHead).take n ∧ (r.collect max).1.length = n ∧
      (r.collect max).2 =
        { r with slots := Cyclic.modifyRange (Slot.setState .draining) r.readHead n r.slots } ∧
      (∀ i < n, (r.slot (r.readHead + i)).state = .ready) ∧
      (n = max ∨ r.readHead + n = r.writeHead ∨
        (r.slot (r.readHead + n)).state ≠ .ready) := by
  obtain ⟨n, hn, hw, heq, hready, hstop⟩ := collect_run h.le h.fit max
  refine ⟨n, hn, hw, ?_, by simp [heq], by rw [heq], hready, hstop⟩
  have hlen := h.write
  rw [heq]
  apply List.ext_getElem
  · simp only [List.length_map, List.length_range, List.length_take, List.length_drop]
    omega
  · intro i hi _
    simp only [List.length_map, List.length_range] at hi
    simp only [List.getElem_map, List.getElem_range, List.getElem_take, List.getElem_drop]
    exact h.stored _ (by omega) (by omega)

/-- Flipping live slots of the window between `READY` and `DRAINING` keeps the
    log. -/
theorem Holds.flip (h : r.Holds log) {st : SlotState} (hst : st = .ready ∨ st = .draining)
    {n : ℕ} (hn : r.readHead + n ≤ r.writeHead) :
    Holds { r with slots := Cyclic.modifyRange (Slot.setState st) r.readHead n r.slots } log := by
  have hfit := h.fit
  have hget : ∀ p, r.readHead ≤ p → p < r.readHead + cap →
      (Cyclic.modifyRange (Slot.setState st) r.readHead n r.slots).get p =
        if p < r.readHead + n then (r.slot p).setState st else r.slot p := by
    exact fun p hp hc => Cyclic.get_modifyRange _ hp hc (by omega)
  constructor
  · exact h.write
  · exact h.le
  · exact h.fit
  · intro p hr hw
    simp only at hr hw
    rw [slot, hget p hr (by omega)]
    split_ifs
    · exact hst
    · exact h.live p hr hw
  · intro p hp hr
    have := h.stored p hp hr
    have hlen := h.write
    simp only at hr
    rw [slot, hget p hr (by omega)]
    split_ifs <;> exact this
  · intro p hw hr
    simp only at hw hr
    rw [slot, hget p (by omega) hr, if_neg (by omega)]
    exact h.free p hw hr

/-- Releasing the first `n` pending events advances `read_head` and keeps the
    log. -/
theorem Holds.release (h : r.Holds log) {n : ℕ} (hn : r.readHead + n ≤ r.writeHead) :
    (r.releaseBatch r.readHead n).Holds log := by
  have hfit := h.fit
  have hle := h.le
  rw [releaseBatch]
  split_ifs with hz
  · exact h
  have hget : ∀ p, r.readHead + n ≤ p → p < r.readHead + cap →
      (Cyclic.modifyRange (Slot.setState .empty) r.readHead n r.slots).get p = r.slot p :=
    fun p hp hc => Cyclic.get_modifyRange_of_not_mem _ _ (by omega) (by omega) (by omega)
  constructor
  · exact h.write
  · exact hn
  · simp only
    omega
  · intro p hr hw
    simp only at hr hw
    rw [slot, hget p hr (by omega)]
    exact h.live p (by omega) hw
  · intro p hp hr
    simp only at hr
    have hlen := h.write
    rw [slot, hget p hr (by omega)]
    exact h.stored p hp (by omega)
  · intro p hw hr
    simp only at hw hr
    rcases Nat.lt_or_ge p (r.readHead + cap) with hlt | hge
    · rw [slot, hget p (by omega) hlt]
      exact h.free p hw hlt
    · -- A position freed by the release, one capacity further on.
      have hp : p = (p - cap) + cap := by omega
      rw [slot, hp, Cyclic.get_add_cap,
        Cyclic.get_modifyRange_of_mem _ (by omega) (by omega) (by omega), Slot.setState_state]

/-- Dropping everything pending is releasing everything pending. -/
theorem dropAllPending_eq (h : r.Holds log) :
    r.dropAllPending = r.releaseBatch r.readHead (r.writeHead - r.readHead) := by
  have hle := h.le
  have hfit := h.fit
  rw [dropAllPending, dropFrom_of_live _ _ _ (by omega) fun i hi =>
    h.live (r.readHead + i) (by omega) (by omega), releaseBatch]
  split_ifs with hz
  · simp [hz, Cyclic.modifyRange]
  · rfl

end Ring

end PgRedis
