import PgRedis.Ring.Shutdown

/-!
# A ring at which nobody is at work

The ring between the calls of its operations, each taken as one step: what is pending is
`READY`, and every other slot is free. A publish then appends or finds the ring full, a
drain takes the first pending events or, if it fails, nothing, and what it leaves is as it
was.
-/

namespace PgRedis

open Lib

namespace Ring

section

variable {cap : ℕ} {ε : Type*} {r : Ring cap ε}

/-- A slot between the heads is `READY`, any other is free. -/
structure Calm (r : Ring cap ε) : Prop where
  holds : ∃ log, r.Holds log
  ready : ∀ p, r.readHead ≤ p → p < r.writeHead → (r.slot p).state = .ready

theorem Calm.quiet (h : r.Calm) : r.Quiet := by
  obtain ⟨log, hlog⟩ := h.holds
  exact ⟨hlog.le, hlog.fit, h.ready⟩

theorem calm_init [Inhabited ε] : (init : Ring cap ε).Calm :=
  ⟨⟨[], holds_init⟩, fun _ _ h => absurd h (Nat.not_lt_zero _)⟩

/-- Appending leaves what is pending as it is. -/
theorem slot_append (now : ℤ) (ev : ε) {p : ℕ} (hr : r.readHead ≤ p) (hw : p < r.writeHead)
    (hroom : r.writeHead < r.readHead + cap) : (r.append now ev).slot p = r.slot p :=
  slot_append_of_ne now ev (Nat.ne_of_lt hw) (by omega) (by omega)

theorem Calm.append (h : r.Calm) (now : ℤ) (ev : ε) (hroom : r.writeHead < r.readHead + cap) :
    (r.append now ev).Calm := by
  obtain ⟨log, hlog⟩ := h.holds
  refine ⟨⟨_, hlog.append now ev hroom⟩, fun p hr hw => ?_⟩
  rcases Nat.lt_succ_iff_lt_or_eq.1 hw with hlt | rfl
  · rw [slot_append (r := r) now ev hr hlt hroom]
    exact h.ready p hr hlt
  · rw [slot_append_self]

/-- A publish never spins. -/
theorem Calm.publish_cases (h : r.Calm) (now : ℤ) (ev : ε) :
    (r.publish now ev = some (r, .full) ∧ r.writeHead = r.readHead + cap) ∨
      (r.publish now ev = some (r.append now ev, .ok) ∧ r.writeHead < r.readHead + cap) := by
  obtain ⟨log, hlog⟩ := h.holds
  exact Ring.publish_cases hlog now ev

/-- The state words of the first `n` pending slots rewritten. -/
def flip (st : SlotState) (n : ℕ) (r : Ring cap ε) : Ring cap ε :=
  { r with slots := Cyclic.modifyRange (Slot.setState st) r.readHead n r.slots }

theorem slot_flip {st : SlotState} {base n p : ℕ} (hbase : r.readHead = base) (hn : n ≤ cap)
    (hr : base ≤ p) (hw : p < base + cap) :
    (r.flip st n).slot p = if p < base + n then (r.slot p).setState st else r.slot p := by
  subst hbase
  exact Cyclic.get_modifyRange _ hr hw hn

/-- A batch that is given back is as it was before it was collected. -/
theorem Calm.abort (h : r.Calm) {n : ℕ} (hn : r.readHead + n ≤ r.writeHead) :
    ((r.flip .draining n).abortBatch r.readHead n).Calm ∧
      ∀ p, r.readHead ≤ p → p < r.writeHead →
        ((r.flip .draining n).abortBatch r.readHead n).slot p = r.slot p := by
  have hfit := h.quiet.fit
  obtain ⟨log, hlog⟩ := h.holds
  have hslot : ∀ p, r.readHead ≤ p → p < r.writeHead →
      ((r.flip .draining n).abortBatch r.readHead n).slot p = r.slot p := by
    intro p hr hw
    have hcap : n ≤ cap := by omega
    have hp : p < r.readHead + cap := by omega
    have hflip : (r.flip .draining n).abortBatch r.readHead n =
        (r.flip .draining n).flip .ready n := rfl
    have hbase : (r.flip .draining n).readHead = r.readHead := rfl
    rw [hflip, slot_flip hbase hcap hr hp, slot_flip rfl hcap hr hp]
    split_ifs
    · rw [← h.ready p hr hw]
      rfl
    · rfl
  refine ⟨⟨⟨log, (hlog.flip (.inr rfl) hn).flip (.inl rfl) hn⟩, fun p hr hw => ?_⟩, hslot⟩
  rw [hslot p hr hw]
  exact h.ready p hr hw

/-- A batch that is released leaves the other pending slots alone. -/
theorem Calm.release (h : r.Calm) {n : ℕ} (hn : r.readHead + n ≤ r.writeHead) (hpos : 0 < n) :
    ((r.flip .draining n).releaseBatch r.readHead n).Calm ∧
      ((r.flip .draining n).releaseBatch r.readHead n).readHead = r.readHead + n ∧
      ∀ p, r.readHead + n ≤ p → p < r.writeHead →
        ((r.flip .draining n).releaseBatch r.readHead n).slot p = r.slot p := by
  have hfit := h.quiet.fit
  obtain ⟨log, hlog⟩ := h.holds
  have hhead : ((r.flip .draining n).releaseBatch r.readHead n).readHead = r.readHead + n := by
    rw [releaseBatch, if_neg (Nat.ne_of_gt hpos)]
  have hslot : ∀ p, r.readHead + n ≤ p → p < r.writeHead →
      ((r.flip .draining n).releaseBatch r.readHead n).slot p = r.slot p := by
    intro p hr hw
    have hcap : n ≤ cap := by omega
    have hp : p < r.readHead + cap := by omega
    have hrp : r.readHead ≤ p := by omega
    -- Collecting and releasing touch the slots of the batch only.
    have hflip : ((r.flip .draining n).releaseBatch r.readHead n).slot p =
        ((r.flip .draining n).flip .empty n).slot p := by
      rw [releaseBatch, if_neg (Nat.ne_of_gt hpos)]
      rfl
    have hbase : (r.flip .draining n).readHead = r.readHead := rfl
    rw [hflip, slot_flip hbase hcap hrp hp, if_neg (Nat.not_lt.2 hr), slot_flip rfl hcap hrp hp,
      if_neg (Nat.not_lt.2 hr)]
  refine ⟨⟨⟨log, (hlog.flip (.inr rfl) hn).release hn⟩, fun p hr hw => ?_⟩, hhead, hslot⟩
  have hwrite : ((r.flip .draining n).releaseBatch r.readHead n).writeHead = r.writeHead := by
    rw [releaseBatch, if_neg (Nat.ne_of_gt hpos)]
    rfl
  rw [hhead] at hr
  rw [hwrite] at hw
  rw [hslot p hr hw]
  exact h.ready p (by omega) hw

/-- Dropping what is pending empties the ring. -/
theorem Calm.drop (h : r.Calm) : r.dropAllPending.Calm ∧
    r.dropAllPending.writeHead = r.writeHead ∧ r.dropAllPending.readHead = r.writeHead := by
  obtain ⟨log, hlog⟩ := h.holds
  have hle := hlog.le
  have hheads : r.dropAllPending.writeHead = r.writeHead ∧
      r.dropAllPending.readHead = r.writeHead := by
    rw [dropAllPending_eq hlog, releaseBatch]
    split_ifs with hz
    · exact ⟨rfl, by omega⟩
    · exact ⟨rfl, by simp only; omega⟩
  refine ⟨⟨⟨log, ?_⟩, fun p hr hw => ?_⟩, hheads⟩
  · rw [dropAllPending_eq hlog]
    exact hlog.release (by omega)
  · rw [hheads.1, ← hheads.2] at hw
    exact absurd hr (Nat.not_le.2 hw)

end

/-- A ring of 2048 slots as it is at startup. -/
def emptyRing : Ring 2048 DirtyEvent := @init 2048 DirtyEvent ⟨.keyDelete [107]⟩

theorem calm_emptyRing : emptyRing.Calm := @calm_init 2048 DirtyEvent ⟨.keyDelete [107]⟩

/-! ## A drain -/

variable {cap : ℕ} {r : Ring cap DirtyEvent} {D : Tables}

/-- What a drain does to the ring, be it enabled or not and whether its statements fail or
    succeed: it takes away events from the front, and nothing else. -/
structure Drained (r r' : Ring cap DirtyEvent) : Prop where
  calm : r'.Calm
  write : r'.writeHead = r.writeHead
  read : r.readHead ≤ r'.readHead
  slot : ∀ p, r'.readHead ≤ p → p < r.writeHead → r'.slot p = r.slot p

theorem Calm.drained_self (h : r.Calm) : Drained r r := ⟨h, rfl, le_rfl, fun _ _ _ => rfl⟩

theorem Calm.drained_drop (h : r.Calm) : Drained r r.dropAllPending := by
  obtain ⟨hcalm, hwrite, hread⟩ := h.drop
  exact ⟨hcalm, hwrite, hread ▸ h.quiet.le, fun p hr hw => absurd (hread ▸ hr) (Nat.not_le.2 hw)⟩

/-- What a drain does: nothing, when it is disabled or nothing is pending; or it takes the first
    batch; or it gives the batch back, when a statement fails. -/
theorem Calm.drain_cases (h : r.Calm) (enabled : Bool) (maxEvents : ℤ) (D : Tables) :
    (r.drain enabled maxEvents D = (r, .ok (0, D)) ∧
      (enabled = true → r.events.take (batchMax maxEvents) = [])) ∨
    ∃ n, n = min (batchMax maxEvents) r.pending ∧ 0 < n ∧
      ((∃ D', asyncDrain (r.events.take (batchMax maxEvents)) D = .ok D' ∧
          r.drain enabled maxEvents D =
            ((r.flip .draining n).releaseBatch r.readHead n, .ok (n, D'))) ∨
        ∃ err, asyncDrain (r.events.take (batchMax maxEvents)) D = .error err ∧
          r.drain enabled maxEvents D =
            ((r.flip .draining n).abortBatch r.readHead n, .error err)) := by
  have hq := h.quiet
  rw [drain]
  cases enabled with
  | false => exact .inl ⟨rfl, fun hf => absurd hf Bool.false_ne_true⟩
  | true =>
    rw [hq.collect]
    have hlen : (r.events.take (batchMax maxEvents)).length =
        min (batchMax maxEvents) r.pending := by
      rw [List.length_take, length_events]
    simp only [Bool.not_true, Bool.false_eq_true, if_false]
    rcases hevs : r.events.take (batchMax maxEvents) with _ | ⟨ev, evs⟩
    · -- nothing is pending: the collect flips no slot
      rw [hevs] at hlen
      rw [← hlen]
      exact .inl ⟨rfl, fun _ => rfl⟩
    · rw [hevs] at hlen
      refine .inr ⟨_, rfl, hlen ▸ Nat.succ_pos _, ?_⟩
      rw [← hlen]
      cases hd : asyncDrain (ev :: evs) D with
      | error err => exact .inr ⟨err, rfl, by simp only [hd]; rfl⟩
      | ok D' => exact .inl ⟨D', rfl, by simp only [hd]; rfl⟩

/-- A drain takes nothing, or the first batch, which it takes if it is enabled and the
    statements succeed. -/
theorem Calm.drained (h : r.Calm) (enabled : Bool) (maxEvents : ℤ) (D : Tables) :
    Drained r (r.drain enabled maxEvents D).1 ∧
      (∀ D', enabled = true → asyncDrain (r.events.take (batchMax maxEvents)) D = .ok D' →
        (r.drain enabled maxEvents D).1.readHead =
          r.readHead + min (batchMax maxEvents) r.pending) := by
  have hle := h.quiet.le
  have hpending := h.quiet.pending
  rcases h.drain_cases enabled maxEvents D with ⟨heq, hnil⟩ | ⟨n, hn, hpos, hcases⟩
  · rw [heq]
    refine ⟨h.drained_self, fun _ hon _ => ?_⟩
    have hlen := congrArg List.length (hnil hon)
    rw [List.length_take, length_events, List.length_nil] at hlen
    rw [hlen, Nat.add_zero]
  · have hfit : r.readHead + n ≤ r.writeHead := by omega
    rcases hcases with ⟨D', hD', heq⟩ | ⟨err, herr, heq⟩ <;> rw [heq]
    · obtain ⟨hcalm, hread, hslot⟩ := h.release hfit hpos
      have hwrite : ((r.flip .draining n).releaseBatch r.readHead n).writeHead = r.writeHead := by
        rw [releaseBatch, if_neg (Nat.ne_of_gt hpos)]
        rfl
      exact ⟨⟨hcalm, hwrite, hread ▸ Nat.le_add_right _ _, fun p hr => hslot p (hread ▸ hr)⟩,
        fun _ _ _ => hn ▸ hread⟩
    · obtain ⟨hcalm, hslot⟩ := h.abort hfit
      exact ⟨⟨hcalm, rfl, le_rfl, hslot⟩, fun D' _ hok => absurd (herr.symm.trans hok) (by simp)⟩

theorem Calm.drained_final (h : r.Calm) (enabled : Bool) (D : Tables) :
    Drained r (r.finalDrain enabled D).1 := by
  rw [finalDrain]
  split_ifs
  · have hdrained := (h.drained enabled 0 D).1
    rcases hd : r.drain enabled 0 D with ⟨r', _ | x⟩
    · rwa [hd] at hdrained
    · rwa [hd] at hdrained
  · exact h.drained_self

theorem Drained.pending_le {r' : Ring cap DirtyEvent} (h : Drained r r') (hr : r.Calm) :
    r'.pending ≤ r.pending := by
  have hread := h.read
  have hwrite := h.write
  rw [h.calm.quiet.pending, hr.quiet.pending]
  omega

/-! ## The pending events -/

theorem Calm.events_append (h : r.Calm) (now : ℤ) (ev : DirtyEvent)
    (hroom : r.writeHead < r.readHead + cap) : (r.append now ev).events = r.events ++ [ev] := by
  have hle := h.quiet.le
  have hpending := h.quiet.pending
  have hafter : (r.append now ev).pending = r.pending + 1 := by
    rw [(h.append now ev hroom).quiet.pending, hpending]
    exact Nat.succ_sub hle
  rw [events, events, hafter, List.range_succ, List.map_append]
  congr 1
  · refine List.map_congr_left fun i hi => ?_
    have hi := List.mem_range.1 hi
    have hp : r.readHead + i < r.writeHead := by omega
    exact congrArg Slot.payload (slot_append now ev (Nat.le_add_right _ _) hp hroom)
  · have hlast : r.readHead + r.pending = r.writeHead := by omega
    have hslot : ((r.append now ev).slot (r.readHead + r.pending)).payload = ev := by
      rw [hlast, slot_append_self]
    exact congrArg (fun x => [x]) hslot

/-- What a drain leaves is what came after the events it took. -/
theorem Drained.events {r' : Ring cap DirtyEvent} (h : Drained r r') (hr : r.Calm) :
    r'.events = r.events.drop (r'.readHead - r.readHead) := by
  have hread := h.read
  have hwrite := h.write
  have hafter := h.calm.quiet.pending
  have hbefore := hr.quiet.pending
  have hend := h.calm.quiet.le
  rw [Ring.events, Ring.events, ← List.map_drop]
  refine List.ext_getElem (by simp; omega) fun i hi _ => ?_
  have hi : i < r'.pending := by simpa using hi
  have hslot := h.slot (r'.readHead + i) (Nat.le_add_right _ _) (by omega)
  have hpos : r.readHead + (r'.readHead - r.readHead + i) = r'.readHead + i := by omega
  simp [hslot, hpos]

end Ring

end PgRedis
