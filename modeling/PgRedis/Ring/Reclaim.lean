import PgRedis.Ring.Publish

/-!
# Reclaiming stuck slots

`pg_redis_dirty_ring_reclaim_stuck` beside the publishes of `PgRedis.Ring.Publish`:
under the consumer lock it reads `write_head`, the state of the slot there and the time
stamp of that slot, and resets a slot `WRITING` for too long
(`CAS WRITING → EMPTY`). The producers may be at any access meanwhile, and may crash.

A slot says neither who reserved it nor since when: it is `WRITING` before its producer
has stamped it, and a producer whose slot was reset goes on writing into it. So a
reservation just made is reset for the stamp of an earlier one, and the producer it was
taken from then publishes over the one who reserved the slot next
(`reclaim_robs_live_producer`). Neither happens when the pass reads no stamp before the
reservation wrote it, and no slot is reserved while a producer it was taken from is still
in its publish (`reclaim_spares_live`).
-/

namespace PgRedis.Ring.Reclaim

open Lib Drain Publish

/-- Where the reclaim pass is; from `readState` on it holds the consumer lock. -/
inductive ReclaimPc
  | idle
  | readState (w : ℕ) (now : ℤ)
  /-- The slot was `WRITING`. -/
  | readStamp (w : ℕ) (now : ℤ)
  /-- The stamp `t` read is older than the timeout. -/
  | cas (w : ℕ) (now t : ℤ)
  deriving DecidableEq, Repr

/-- The reservation held on a slot: whose it is, and its stamp once it has written it.
    Nothing of this is in the ring. -/
structure Reservation (π : Type*) where
  owner : π
  stampedAt : Option ℤ
  deriving DecidableEq, Repr

/-- The producers and drainers, the reclaim pass, the reservation last made of each slot
    and not reset since, and the events released so far. -/
structure State (cap : ℕ) (ε π δ : Type*) where
  pub : Publish.State cap ε π δ
  reclaim : ReclaimPc
  holder : ℕ → Option (Reservation π)
  released : List ε

/-- The steps: those of the producers and drainers, a producer raising an error or dying
    within publish, and the next access of the reclaim pass. -/
inductive Action (ε π δ : Type*)
  | pub (a : Publish.Action ε π δ)
  | crash (q : π)
  | reclaim (now : ℤ)

variable {cap : ℕ} {ε π δ : Type*}

/-- A fresh ring, everybody idle. -/
def init [Inhabited ε] : State cap ε π δ := ⟨Publish.init, .idle, fun _ => none, []⟩

/-- The actions of the drainers, which take the consumer lock. -/
def takesLock : Publish.Action ε π δ → Bool
  | .collect _ _ | .release _ | .abort _ => true
  | .call _ _ | .produce _ _ => false

/-- The events released by an action. -/
def record (s : State cap ε π δ) : Publish.Action ε π δ → List ε
  | .release d => s.released ++ ((s.pub.batch d).map Batch.events).getD []
  | _ => s.released

/-- The next access of the reclaim pass. -/
def reclaimStep (timeout : ℤ) (now : ℤ) (s : State cap ε π δ) : State cap ε π δ :=
  match s.reclaim with
  | .idle => if 0 < cap then { s with reclaim := .readState s.pub.ring.writeHead now } else s
  | .readState w now =>
    if (s.pub.ring.slot w).state = .writing then { s with reclaim := .readStamp w now }
    else { s with reclaim := .idle }
  | .readStamp w now =>
    if timestampDifferenceExceeds (s.pub.ring.slot w).writeStartedAt now timeout then
      { s with reclaim := .cas w now (s.pub.ring.slot w).writeStartedAt }
    else { s with reclaim := .idle }
  | .cas w _ _ =>
    if (s.pub.ring.slot w).state = .writing then
      { s with
        pub := write w (Slot.setState .empty) s.pub
        reclaim := .idle
        holder := Function.update s.holder (w % cap) none }
    else { s with reclaim := .idle }

section

variable [DecidableEq π] [DecidableEq δ]

/-- The reservations after an action: a successful reservation is not stamped yet, and
    only its owner stamps it. -/
def reservations (s : State cap ε π δ) : Publish.Action ε π δ → ℕ → Option (Reservation π)
  | .produce q now => match s.pub.pc q with
    | .reserve _ w _ =>
      if (s.pub.ring.slot w).state = .empty then
        Function.update s.holder (w % cap) (some ⟨q, none⟩)
      else s.holder
    | .stamp _ w =>
      if (s.holder (w % cap)).map Reservation.owner = some q then
        Function.update s.holder (w % cap) (some ⟨q, some now⟩)
      else s.holder
    | _ => s.holder
  | _ => s.holder

/-- One step; `timeout` is `ring_slot_stuck_timeout`, in milliseconds. -/
def step (timeout : ℤ) (s : State cap ε π δ) : Action ε π δ → Option (State cap ε π δ)
  | .pub a =>
    if takesLock a ∧ s.reclaim ≠ .idle then none
    else (Publish.step s.pub a).map fun p =>
      { s with pub := p, holder := reservations s a, released := record s a }
  | .crash q => some { s with pub := goto q .idle s.pub }
  | .reclaim now => some (reclaimStep timeout now s)

end

/-- A slot is reserved at `write_head`, and only once every producer it was taken from
    has left publish; the stamp of a slot `WRITING` is read after its reservation wrote
    it. -/
def Undisturbed (s : State cap ε π δ) : Action ε π δ → Prop
  | .pub (.produce q _) => ∀ ev w r, s.pub.pc q = .reserve ev w r →
      (s.pub.ring.slot w).state = .empty →
        w = s.pub.ring.writeHead ∧ ∀ q', ¬(s.pub.pc q').Holding
  | .reclaim _ => ∀ w now, s.reclaim = .readStamp w now → (s.pub.ring.slot w).state = .writing →
      ∃ q t, s.holder (w % cap) = some ⟨q, some t⟩
  | _ => True

/-! ## Producers whose slot was taken -/

/-- A producer within publish as one that has given up its slot. -/
def withdrawn : Pc ε → Pc ε
  | .stamp _ _ | .fill _ _ | .publish _ _ | .advance _ _ => .idle
  | pc => pc

theorem withdrawn_of_not_holding {pc : Pc ε} (h : ¬pc.Holding) : withdrawn pc = pc := by
  cases pc <;> first | rfl | exact absurd trivial h

theorem not_holding_withdrawn (pc : Pc ε) : ¬(withdrawn pc).Holding := by
  cases pc <;> exact id

/-- The producers as they would be if those whose slot was reset had noticed: while the
    slot at `write_head` is free, nobody holds it. -/
def calm (s : Publish.State cap ε π δ) : Publish.State cap ε π δ :=
  { s with pc := fun q =>
      if (s.ring.slot s.ring.writeHead).state = .empty then withdrawn (s.pc q) else s.pc q }

/-- The producer `pc` finds its slot, the one at `write_head`, reset. -/
def Robbed (r : Ring cap ε) : Pc ε → Prop
  | .stamp _ w | .fill _ w | .publish _ w => w = r.writeHead ∧ w < r.readHead + cap
  | .advance _ _ => False
  | _ => True

/-- What the reclaim pass relies on at its next access. -/
def Watching (timeout : ℤ) (r : Ring cap ε) (holder : ℕ → Option (Reservation π)) :
    ReclaimPc → Prop
  | .idle => True
  | .readState w _ => 0 < cap ∧ r.readHead ≤ w ∧ w ≤ r.writeHead
  | .readStamp w _ =>
    (r.readHead ≤ w ∧ w ≤ r.writeHead ∧ w < r.readHead + cap) ∧ (r.slot w).state ≠ .empty
  | .cas w now t =>
    (r.readHead ≤ w ∧ w ≤ r.writeHead ∧ w < r.readHead + cap) ∧ (r.slot w).state ≠ .empty ∧
      timestampDifferenceExceeds t now timeout ∧
      ((r.slot w).state = .writing → ∃ q, holder (w % cap) = some ⟨q, some t⟩)

/-- What concerns the reservations: who is about to stamp holds the slot unstamped, a
    stamp recorded is the one in the slot, and the reclaim pass compares the stamp of the
    reservation it would reset. -/
structure Tracked (timeout : ℤ) (p : Publish.State cap ε π δ) (rc : ReclaimPc)
    (holder : ℕ → Option (Reservation π)) : Prop where
  unstamped : ∀ q ev w, p.pc q = .stamp ev w → w = p.ring.writeHead ∧
    ((p.ring.slot w).state = .writing → holder (w % cap) = some ⟨q, none⟩)
  stamped : ∀ q t, p.ring.writeHead < p.ring.readHead + cap →
    (p.ring.slot p.ring.writeHead).state = .writing →
      holder (p.ring.writeHead % cap) = some ⟨q, some t⟩ →
      (p.ring.slot p.ring.writeHead).writeStartedAt = t
  watching : Watching timeout p.ring holder rc

/-- The invariant: that of the producers and drainers once those robbed are set aside,
    and the events released are those acknowledged before `read_head`. -/
structure Inv (timeout : ℤ) (s : State cap ε π δ) : Prop where
  pub : Publish.Inv (calm s.pub)
  robbed : (s.pub.ring.slot s.pub.ring.writeHead).state = .empty →
    ∀ q, Robbed s.pub.ring (s.pub.pc q)
  tracked : Tracked timeout s.pub s.reclaim s.holder
  released : s.released = (s.pub.acks.map Ack.ev).take s.pub.ring.readHead

section

variable {p p' : Publish.State cap ε π δ}

/-- Where the invariant of the producers holds, nobody was robbed. -/
theorem calm_of_inv (h : Publish.Inv p) : calm p = p := by
  have hpc : (calm p).pc = p.pc := by
    funext q
    simp only [calm]
    split_ifs with he
    · exact withdrawn_of_not_holding fun hq => (h.frontier.not_empty hq).1 he
    · rfl
  exact congrArg (fun pc => { p with pc := pc }) hpc

theorem robbed_of_inv (h : Publish.Inv p) (he : (p.ring.slot p.ring.writeHead).state = .empty)
    (q : π) : Robbed p.ring (p.pc q) := by
  have hno : ¬(p.pc q).Holding := fun hq => (h.frontier.not_empty hq).1 he
  cases hpc : p.pc q <;> rw [hpc] at hno <;> first | exact trivial | exact absurd trivial hno

/-- Unless the slot at `write_head` is free, nobody is robbed of it. -/
theorem calm_of_not_empty (h : (p.ring.slot p.ring.writeHead).state ≠ .empty) : calm p = p := by
  simp [calm, h]

theorem calm_pc_of_empty (h : (p.ring.slot p.ring.writeHead).state = .empty) (q : π) :
    (calm p).pc q = withdrawn (p.pc q) := if_pos h

/-- Unless somebody is in the middle of publish, nobody is robbed. -/
theorem calm_of_idle (h : ∀ q, ¬(p.pc q).Holding) : calm p = p := by
  have hpc : (calm p).pc = p.pc := by
    funext q
    simp only [calm, withdrawn_of_not_holding (h q), ite_self]
  exact congrArg (fun pc => { p with pc := pc }) hpc

theorem inv_init [Inhabited ε] (timeout : ℤ) : Inv timeout (init : State cap ε π δ) where
  pub := by
    rw [init, calm_of_idle (p := Publish.init) fun _ => id]
    exact Publish.inv_init
  robbed _ _ := trivial
  tracked := ⟨fun _ _ _ h => absurd h (by simp [init, Publish.init]),
    fun _ _ _ _ h => absurd h (by simp [init]), trivial⟩
  released := rfl

variable {timeout : ℤ} {rc : ReclaimPc} {holder holder' : ℕ → Option (Reservation π)}

/-- The reclaim pass only looks at the slot it found at `write_head`, and at its
    reservation. -/
theorem Watching.congr {r r' : Ring cap ε} (h : Watching timeout r holder rc)
    (hr : r'.readHead = r.readHead) (hw : r.writeHead ≤ r'.writeHead)
    (hslot : ∀ w, r.readHead ≤ w → w ≤ r.writeHead → w < r.readHead + cap →
      (r.slot w).state ≠ .empty → (r'.slot w).state ≠ .empty ∧
        ((r'.slot w).state = .writing → (r.slot w).state = .writing ∧
          ∀ q t, holder (w % cap) = some ⟨q, some t⟩ → holder' (w % cap) = some ⟨q, some t⟩)) :
    Watching timeout r' holder' rc := by
  cases rc with
  | idle => exact trivial
  | readState w now => exact ⟨h.1, hr ▸ h.2.1, h.2.2.trans hw⟩
  | readStamp w now =>
    obtain ⟨⟨hle, hge, hlt⟩, hne⟩ := h
    exact ⟨⟨hr ▸ hle, hge.trans hw, hr ▸ hlt⟩, (hslot w hle hge hlt hne).1⟩
  | cas w now t =>
    obtain ⟨⟨hle, hge, hlt⟩, hne, hold, hown⟩ := h
    obtain ⟨hne', hwr⟩ := hslot w hle hge hlt hne
    refine ⟨⟨hr ▸ hle, hge.trans hw, hr ▸ hlt⟩, hne', hold, fun h' => ?_⟩
    obtain ⟨hwas, hheld⟩ := hwr h'
    obtain ⟨q, hq⟩ := hown hwas
    exact ⟨q, hheld q t hq⟩

end

/-! ## The accesses of the producers -/

section

variable [DecidableEq π] {timeout : ℤ} {s : State cap ε π δ} {p : Publish.State cap ε π δ}
  {q : π} {rc : ReclaimPc} {holder holder' : ℕ → Option (Reservation π)}

omit [DecidableEq π] in
/-- The slots of the window other than that at `write_head` are left alone by a write to it. -/
theorem slot_write_of_ne (hset : Settled p.ring p.batch p.acks)
    (hroom : p.ring.writeHead < p.ring.readHead + cap) (f : Slot ε → Slot ε) {w : ℕ}
    (hr : p.ring.readHead ≤ w) (hlt : w < p.ring.readHead + cap) (hne : w ≠ p.ring.writeHead) :
    (write p.ring.writeHead f p).ring.slot w = p.ring.slot w := by
  have hle := hset.le
  exact p.ring.slots.get_modify_of_ne f hne (by omega) (by omega)

/-- A producer leaving publish, or moving within the reservation loop. -/
theorem Tracked.goto (h : Tracked timeout p rc holder) {pc : Pc ε} (hno : ¬pc.Holding) :
    Tracked timeout (goto q pc p) rc holder where
  unstamped q' ev w hq' := by
    by_cases hq : q' = q
    · simp only [hq, Publish.goto, Function.update_self] at hq'
      exact absurd (hq' ▸ trivial) hno
    · simp only [Publish.goto, Function.update_of_ne hq] at hq'
      exact h.unstamped q' ev w hq'
  stamped := h.stamped
  watching := h.watching

/-- An access to the slot at `write_head`, which may change its reservation. -/
theorem Tracked.write (h : Tracked timeout p rc holder) (hset : Settled p.ring p.batch p.acks)
    {f : Slot ε → Slot ε} {pc : Pc ε} (hroom : p.ring.writeHead < p.ring.readHead + cap)
    (hother : ∀ c, c ≠ p.ring.writeHead % cap → holder' c = holder c)
    (hun : ∀ q' ev w, Function.update p.pc q pc q' = .stamp ev w → w = p.ring.writeHead ∧
      ((f (p.ring.slot p.ring.writeHead)).state = .writing →
        holder' (p.ring.writeHead % cap) = some ⟨q', none⟩))
    (hst : ∀ q t, (f (p.ring.slot p.ring.writeHead)).state = .writing →
      holder' (p.ring.writeHead % cap) = some ⟨q, some t⟩ →
        (f (p.ring.slot p.ring.writeHead)).writeStartedAt = t)
    (hw : (p.ring.slot p.ring.writeHead).state ≠ .empty →
      (f (p.ring.slot p.ring.writeHead)).state ≠ .empty ∧
        ((f (p.ring.slot p.ring.writeHead)).state = .writing →
          (p.ring.slot p.ring.writeHead).state = .writing ∧
          ∀ q t, holder (p.ring.writeHead % cap) = some ⟨q, some t⟩ →
            holder' (p.ring.writeHead % cap) = some ⟨q, some t⟩)) :
    Tracked timeout (Publish.goto q pc (Publish.write p.ring.writeHead f p)) rc holder' where
  unstamped q' ev w hq' := by
    obtain ⟨rfl, hwr⟩ := hun q' ev w hq'
    refine ⟨rfl, fun h' => hwr ?_⟩
    rwa [show (Publish.goto q pc (Publish.write p.ring.writeHead f p)).ring.slot p.ring.writeHead =
      _ from slot_write_self _ _ _] at h'
  stamped q' t _ h' hq' := by
    change ((Publish.write p.ring.writeHead f p).ring.slot p.ring.writeHead).state = _ at h'
    change ((Publish.write p.ring.writeHead f p).ring.slot p.ring.writeHead).writeStartedAt = _
    rw [slot_write_self] at h' ⊢
    exact hst q' t h' hq'
  watching := by
    refine h.watching.congr rfl le_rfl fun w hle hge hlt hne => ?_
    change ((Publish.write p.ring.writeHead f p).ring.slot w).state ≠ _ ∧
      (((Publish.write p.ring.writeHead f p).ring.slot w).state = _ → _)
    -- Of the slots in use only that at `write_head` is written to.
    by_cases hwh : w = p.ring.writeHead
    · rw [hwh, slot_write_self]
      rw [hwh] at hne
      exact hw hne
    · rw [slot_write_of_ne hset hroom f hle hlt hwh]
      have hcell : w % cap ≠ p.ring.writeHead % cap := fun hm =>
        hwh (eq_of_mod_eq hm (by omega) (by omega))
      exact ⟨hne, fun h' => ⟨h', fun q t hq => (hother _ hcell).trans hq⟩⟩

omit [DecidableEq π] in
/-- The slot at `write_head` written to and left free, with nobody holding it. -/
theorem inv_free (h : Publish.Inv p) (hroom : p.ring.writeHead < p.ring.readHead + cap)
    {f : Slot ε → Slot ε} (hf : (f (p.ring.slot p.ring.writeHead)).state = .empty)
    (pc : π → Pc ε) (hpc : ∀ q, ¬(pc q).Holding ∧ (pc q = p.pc q ∨ pc q = .idle)) :
    Publish.Inv { Publish.write p.ring.writeHead f p with pc := pc } := by
  have hle := h.settled.le
  refine ⟨h.settled.congr rfl rfl fun w hr hlt =>
    slot_write_of_ne h.settled hroom f hr (by omega) (by omega), ?_, ?_, ?_, ?_⟩
  · intro w hw hlt
    simp only [Publish.write] at hw hlt
    rw [show slot (Publish.write p.ring.writeHead f p).ring w = _ from
      slot_write_of_ne h.settled hroom f (by omega) hlt (by omega)]
    exact h.frontier.tail w hw hlt
  · intro _
    left
    change ((Publish.write p.ring.writeHead f p).ring.slot p.ring.writeHead).state = _
    rw [slot_write_self, hf]
  · intro q
    change (pc q).Owns (Publish.write p.ring.writeHead f p).ring
    rcases (hpc q).2 with hq | hq
    · rw [hq]
      exact (h.frontier.owns q).of_not_holding (hq ▸ (hpc q).1) le_rfl
    · rw [hq]
      exact trivial
  · exact fun q _ hq => absurd hq (hpc q).1

omit [DecidableEq π] in
/-- A state in which nobody is robbed. -/
theorem Inv.of_inv (hpub : Publish.Inv s.pub) (htr : Tracked timeout s.pub s.reclaim s.holder)
    (hrel : s.released = (s.pub.acks.map Ack.ev).take s.pub.ring.readHead) : Inv timeout s where
  pub := by rwa [calm_of_inv hpub]
  robbed := robbed_of_inv hpub
  tracked := htr
  released := hrel

omit [DecidableEq π] in
/-- Nobody is robbed while the slot at `write_head` is not free. -/
theorem Inv.publish (h : Inv timeout s)
    (hne : (s.pub.ring.slot s.pub.ring.writeHead).state ≠ .empty) : Publish.Inv s.pub :=
  calm_of_not_empty hne ▸ h.pub

/-- A producer leaving publish, or moving within the reservation loop. -/
theorem inv_goto (h : Inv timeout s) {pc : Pc ε} (howns : pc.Owns s.pub.ring)
    (hno : ¬pc.Holding) : Inv timeout { s with pub := Publish.goto q pc s.pub } where
  pub := by
    have hcalm : calm (Publish.goto q pc s.pub) = Publish.goto q pc (calm s.pub) := by
      simp only [calm, Publish.goto]
      congr 1
      funext q'
      by_cases hq : q' = q
      · simp only [hq, Function.update_self, withdrawn_of_not_holding hno, ite_self]
      · simp only [Function.update_of_ne hq]
    rw [hcalm]
    exact ⟨h.pub.settled, h.pub.frontier.goto (r := s.pub.ring) howns hno⟩
  robbed he q' := by
    by_cases hq : q' = q
    · simp only [Publish.goto, hq, Function.update_self]
      cases pc <;> first | exact trivial | exact absurd trivial hno
    · simp only [Publish.goto, Function.update_of_ne hq]
      exact h.robbed he q'
  tracked := h.tracked.goto hno
  released := h.released

omit [DecidableEq π] in
/-- A producer about to stamp or to fill its slot has it at `write_head`, within the
    window, even if it was robbed of it. -/
theorem Inv.at_writeHead (h : Inv timeout s) {ev : ε} {w : ℕ}
    (hpc : s.pub.pc q = .stamp ev w ∨ s.pub.pc q = .fill ev w) :
    w = s.pub.ring.writeHead ∧ s.pub.ring.writeHead < s.pub.ring.readHead + cap := by
  by_cases he : (s.pub.ring.slot s.pub.ring.writeHead).state = .empty
  · have hr := h.robbed he q
    rcases hpc with hpc | hpc <;> rw [hpc] at hr <;> exact ⟨hr.1, hr.1 ▸ hr.2⟩
  · have ho := (h.publish he).frontier.owns q
    rcases hpc with hpc | hpc <;> rw [hpc] at ho <;> exact ⟨ho.1, ho.1 ▸ ho.2.1⟩

omit [DecidableEq π] in
/-- Unless it was robbed, its slot is the one it reserved. -/
theorem Inv.writing (h : Inv timeout s) {ev : ε} {w : ℕ}
    (hpc : s.pub.pc q = .stamp ev w ∨ s.pub.pc q = .fill ev w)
    (he : (s.pub.ring.slot s.pub.ring.writeHead).state ≠ .empty) :
    (s.pub.ring.slot s.pub.ring.writeHead).state = .writing := by
  have ho := (h.publish he).frontier.owns q
  rcases hpc with hpc | hpc <;> rw [hpc] at ho <;> exact ho.1 ▸ ho.2.2

/-- A robbed producer stamping or filling the slot it no longer holds. -/
theorem inv_scribble (h : Inv timeout s) {f : Slot ε → Slot ε} {pc : Pc ε}
    (he : (s.pub.ring.slot s.pub.ring.writeHead).state = .empty)
    (hf : (f (s.pub.ring.slot s.pub.ring.writeHead)).state = .empty)
    (hroom : s.pub.ring.writeHead < s.pub.ring.readHead + cap)
    (hpc : ∃ ev, pc = .fill ev s.pub.ring.writeHead ∨ pc = .publish ev s.pub.ring.writeHead)
    (hother : ∀ c, c ≠ s.pub.ring.writeHead % cap → holder' c = s.holder c) :
    Inv timeout { s with
      pub := Publish.goto q pc (Publish.write s.pub.ring.writeHead f s.pub)
      holder := holder' } := by
  obtain ⟨ev, hpc⟩ := hpc
  have hempty : ((Publish.write s.pub.ring.writeHead f s.pub).ring.slot
      s.pub.ring.writeHead).state = .empty := by
    rw [slot_write_self, hf]
  constructor
  · -- Once the robbed are set aside, nobody holds the slot, before or after.
    have hcalm : ∀ q',
        (calm (Publish.goto q pc (Publish.write s.pub.ring.writeHead f s.pub))).pc q' =
          withdrawn (Function.update s.pub.pc q pc q') := fun q' => calm_pc_of_empty
      (p := Publish.goto q pc (Publish.write s.pub.ring.writeHead f s.pub)) hempty q'
    refine inv_free (p := calm s.pub) h.pub hroom hf (calm (Publish.goto q pc _)).pc fun q' => ?_
    rw [hcalm, calm_pc_of_empty he]
    refine ⟨not_holding_withdrawn _, ?_⟩
    by_cases hq : q' = q
    · right
      rw [hq, Function.update_self]
      rcases hpc with rfl | rfl <;> rfl
    · left
      rw [Function.update_of_ne hq]
  · intro _ q'
    by_cases hq : q' = q
    · simp only [Publish.goto, hq, Function.update_self]
      rcases hpc with rfl | rfl <;> exact ⟨rfl, hroom⟩
    · simp only [Publish.goto, Function.update_of_ne hq]
      exact h.robbed he q'
  · refine h.tracked.write h.pub.settled hroom hother (fun q' ev' w hq' => ⟨?_, fun h' => ?_⟩)
      (fun _ _ h' => ?_) fun hne => absurd he hne
    · by_cases hq : q' = q
      · rw [hq, Function.update_self] at hq'
        rcases hpc with rfl | rfl <;> exact absurd hq' (by simp)
      · rw [Function.update_of_ne hq] at hq'
        exact (h.tracked.unstamped q' ev' w hq').1
    · rw [hf] at h'
      exact absurd h' (by decide)
    · rw [hf] at h'
      exact absurd h' (by decide)
  · exact h.released

/-- The reservation of the slot at `write_head`, while nobody is in the middle of publish. -/
theorem tracked_reserve (h : Tracked timeout p rc holder)
    (hset : Settled p.ring p.batch p.acks) (ev : ε)
    (hroom : p.ring.writeHead < p.ring.readHead + cap)
    (he : (p.ring.slot p.ring.writeHead).state = .empty) (hno : ∀ q, ¬(p.pc q).Holding) :
    Tracked timeout (Publish.goto q (.stamp ev p.ring.writeHead) (Publish.write p.ring.writeHead
      (fun sl => { sl with state := .writing, pos := p.ring.writeHead }) p)) rc
      (Function.update holder (p.ring.writeHead % cap) (some ⟨q, none⟩)) := by
  refine h.write hset hroom (fun c hc => Function.update_of_ne hc _ _) (fun q' ev' w hq' => ?_)
    (fun q' t _ hq' => ?_) fun hne => absurd he hne
  · by_cases hq : q' = q
    · rw [hq, Function.update_self] at hq'
      cases hq'
      exact ⟨rfl, fun _ => by rw [Function.update_self, hq]⟩
    · rw [Function.update_of_ne hq] at hq'
      exact absurd (hq' ▸ trivial) (hno q')
  · rw [Function.update_self] at hq'
    exact absurd hq' (by simp)

/-- The stamp of the reservation held on the slot. -/
theorem tracked_stamp (h : Tracked timeout p rc holder) (hset : Settled p.ring p.batch p.acks)
    {ev : ε} (now : ℤ) (hroom : p.ring.writeHead < p.ring.readHead + cap)
    (hwr : (p.ring.slot p.ring.writeHead).state = .writing)
    (hpc : p.pc q = .stamp ev p.ring.writeHead) :
    Tracked timeout (Publish.goto q (.fill ev p.ring.writeHead) (Publish.write p.ring.writeHead
      (fun sl => { sl with writeStartedAt := now }) p)) rc
      (Function.update holder (p.ring.writeHead % cap) (some ⟨q, some now⟩)) := by
  have hmine := (h.unstamped q ev _ hpc).2 hwr
  refine h.write hset hroom (fun c hc => Function.update_of_ne hc _ _) (fun q' ev' w hq' => ?_)
    (fun q' t _ hq' => ?_) fun _ => ⟨?_, fun _ => ⟨hwr, fun q' t hq' => ?_⟩⟩
  · by_cases hq : q' = q
    · rw [hq, Function.update_self] at hq'
      exact absurd hq' (by simp)
    · -- Nobody else is about to stamp: the reservation is that of `q`.
      rw [Function.update_of_ne hq] at hq'
      obtain ⟨rfl, hother⟩ := h.unstamped q' ev' w hq'
      rw [hmine] at hother
      exact absurd (Reservation.mk.inj (Option.some.inj (hother hwr))).1.symm hq
  · rw [Function.update_self, Option.some.injEq, Reservation.mk.injEq, Option.some.injEq] at hq'
    exact hq'.2
  · rw [hwr]
    decide
  · rw [hmine] at hq'
    exact absurd hq' (by simp)

/-- A write of the holder that is no stamp. -/
theorem tracked_fill (h : Tracked timeout p rc holder) (hset : Settled p.ring p.batch p.acks)
    {f : Slot ε → Slot ε} {pc : Pc ε} (hroom : p.ring.writeHead < p.ring.readHead + cap)
    (hwr : (p.ring.slot p.ring.writeHead).state = .writing)
    (hne : (f (p.ring.slot p.ring.writeHead)).state ≠ .empty)
    (ht : (f (p.ring.slot p.ring.writeHead)).writeStartedAt =
      (p.ring.slot p.ring.writeHead).writeStartedAt)
    (hpc : ∀ ev w, pc ≠ .stamp ev w) :
    Tracked timeout (Publish.goto q pc (Publish.write p.ring.writeHead f p)) rc holder := by
  refine h.write hset hroom (fun c _ => rfl) (fun q' ev' w hq' => ?_)
    (fun q' t _ hq' => ?_) fun _ => ⟨hne, fun _ => ⟨hwr, fun _ _ hq => hq⟩⟩
  · by_cases hq : q' = q
    · rw [hq, Function.update_self] at hq'
      exact absurd hq' (hpc ev' w)
    · rw [Function.update_of_ne hq] at hq'
      obtain ⟨rfl, hother⟩ := h.unstamped q' ev' w hq'
      exact ⟨rfl, fun _ => hother hwr⟩
  · rw [ht]
    exact h.stamped q' t hroom hwr hq'

/-- The last compare-and-swap of a publish. -/
theorem tracked_advance (h : Tracked timeout p rc holder) (hinv : Publish.Inv p) {ev : ε}
    (hpc : p.pc q = .advance ev p.ring.writeHead) :
    Tracked timeout (Publish.goto q .idle (acknowledge p.ring.writeHead ev p)) rc holder := by
  rw [acknowledge, if_pos rfl]
  refine ⟨fun q' ev' w hq' => ?_, fun q' t hlt hwr _ => ?_, ?_⟩
  · -- Nobody else is in the middle of publish.
    by_cases hq : q' = q
    · simp only [Publish.goto, hq, Function.update_self] at hq'
      exact absurd hq' (by simp)
    · simp only [Publish.goto, Function.update_of_ne hq] at hq'
      exact absurd (hinv.frontier.alone q' q (hq' ▸ trivial) (hpc ▸ trivial)) hq
  · change (p.ring.slot (p.ring.writeHead + 1)).state = .writing at hwr
    rw [hinv.frontier.tail _ (Nat.lt_succ_self _) hlt] at hwr
    exact absurd hwr (by decide)
  · exact h.watching.congr rfl (Nat.le_succ _) fun w _ _ _ hne =>
      ⟨hne, fun h' => ⟨h', fun _ _ h => h⟩⟩

omit [DecidableEq π] in
/-- What was released is not touched by further acknowledgements. -/
theorem released_append (hset : Settled p.ring p.batch p.acks) (l : List (Ack ε)) :
    ((p.acks ++ l).map Ack.ev).take p.ring.readHead = (p.acks.map Ack.ev).take p.ring.readHead := by
  have hlen : p.acks.length = p.ring.writeHead := by
    rw [← List.length_map (f := Ack.w), hset.positions, List.length_range]
  rw [List.map_append, List.take_append_of_le_length]
  rw [List.length_map, hlen]
  exact hset.le

/-- Every access of a producer keeps the invariant, if a reservation is fresh and made
    while nobody else is in the middle of publish. -/
theorem inv_produce (h : Inv timeout s) (now : ℤ) {p' : Publish.State cap ε π δ}
    (hok : Undisturbed s (.pub (.produce q now))) (hst : produce q now s.pub = some p') :
    Inv timeout { s with pub := p', holder := reservations s (.produce q now) } := by
  have hset : Settled s.pub.ring s.pub.batch s.pub.acks := h.pub.settled
  have hnext : Publish.Inv s.pub → Publish.Inv p' := fun hinv =>
    Publish.inv_produce hinv now (fun ev w r hpc he => (hok ev w r hpc he).1) hst
  rw [produce] at hst
  cases hpc : s.pub.pc q <;> simp only [hpc] at hst <;> simp only [reservations, hpc]
  case idle => exact absurd hst (by simp)
  case readWrite ev =>
    obtain rfl := Option.some.inj hst
    exact inv_goto h trivial id
  case readRead ev w =>
    split_ifs at hst with hfull <;> obtain rfl := Option.some.inj hst
    · exact inv_goto h trivial id
    · exact inv_goto h ⟨le_rfl, (isFull_eq_false.1 (Bool.not_eq_true _ ▸ hfull)).2⟩ id
  case reserve ev w r₀ =>
    split_ifs at hst with hempty <;> obtain rfl := Option.some.inj hst
    · rw [if_pos hempty]
      obtain ⟨rfl, hno⟩ := hok ev w r₀ hpc hempty
      have hinv : Publish.Inv s.pub := calm_of_idle hno ▸ h.pub
      have hroom : s.pub.ring.writeHead < s.pub.ring.readHead + cap := by
        have hq := hinv.frontier.owns q
        rw [hpc] at hq
        exact lt_of_lt_of_le hq.2 (Nat.add_le_add_right hq.1 cap)
      exact .of_inv (hnext hinv) (tracked_reserve h.tracked hset ev hroom hempty hno) h.released
    · rw [if_neg hempty]
      exact inv_goto h trivial id
  case stamp ev w =>
    obtain rfl := Option.some.inj hst
    obtain ⟨rfl, hroom⟩ := h.at_writeHead (.inl hpc)
    by_cases he : (s.pub.ring.slot s.pub.ring.writeHead).state = .empty
    · refine inv_scribble h he he hroom ⟨ev, .inl rfl⟩ fun c hc => ?_
      split_ifs
      · exact Function.update_of_ne hc _ _
      · rfl
    · have hinv := h.publish he
      have hwr := h.writing (.inl hpc) he
      rw [(h.tracked.unstamped q ev _ hpc).2 hwr, Option.map_some, if_pos rfl]
      exact .of_inv (hnext hinv) (tracked_stamp h.tracked hset now hroom hwr hpc) h.released
  case fill ev w =>
    obtain rfl := Option.some.inj hst
    obtain ⟨rfl, hroom⟩ := h.at_writeHead (.inr hpc)
    by_cases he : (s.pub.ring.slot s.pub.ring.writeHead).state = .empty
    · exact inv_scribble h he he hroom ⟨ev, .inr rfl⟩ fun _ _ => rfl
    · have hinv := h.publish he
      have hwr := h.writing (.inr hpc) he
      exact .of_inv (hnext hinv) (tracked_fill h.tracked hset hroom hwr he rfl (by simp))
        h.released
  case publish ev w =>
    split_ifs at hst with hwr <;> obtain rfl := Option.some.inj hst
    · -- A producer that was robbed finds the slot empty.
      have he : (s.pub.ring.slot s.pub.ring.writeHead).state ≠ .empty := fun he => by
        have hr := h.robbed he q
        rw [hpc] at hr
        rw [hr.1, he] at hwr
        exact absurd hwr (by decide)
      have hinv := h.publish he
      have hq := hinv.frontier.owns q
      rw [hpc] at hq
      obtain ⟨rfl, hroom, -⟩ := hq
      exact .of_inv (hnext hinv)
        (tracked_fill h.tracked hset hroom hwr (by simp) rfl (by simp)) h.released
    · exact inv_goto h trivial id
  case advance ev w =>
    obtain rfl := Option.some.inj hst
    have he : (s.pub.ring.slot s.pub.ring.writeHead).state ≠ .empty := fun he => by
      have hr := h.robbed he q
      rw [hpc] at hr
      exact hr
    have hinv := h.publish he
    have hq := hinv.frontier.owns q
    rw [hpc] at hq
    obtain ⟨rfl, -⟩ := hq
    refine .of_inv (hnext hinv) (tracked_advance h.tracked hinv hpc) ?_
    simp only [acknowledge, if_true, Publish.goto]
    rw [released_append hset]
    exact h.released

end

/-! ## The locked sections of the drainers -/

section

variable {timeout : ℤ} {s : State cap ε π δ} {p p' : Publish.State cap ε π δ}

/-- A batch held is what was acknowledged from `read_head` on. -/
theorem events_eq (hset : Settled p.ring p.batch p.acks) {d : δ} {b : Batch ε}
    (hb : p.batch d = some b) :
    b.events = ((p.acks.map Ack.ev).drop p.ring.readHead).take b.size := by
  have hf := hset.flight d b hb
  have hle := hf.le
  have hlen : p.acks.length = p.ring.writeHead := by
    rw [← List.length_map (f := Ack.w), hset.positions, List.length_range]
  apply List.ext_getElem
  · rw [List.length_take, List.length_drop, List.length_map, hlen]
    change b.size = _
    omega
  · intro i hi hi'
    have hi₀ : p.ring.readHead + i < p.acks.length := by
      rw [hlen]
      exact lt_of_lt_of_le (Nat.add_lt_add_left hi _) hle
    have hw : (p.acks[p.ring.readHead + i]).w = p.ring.readHead + i := by
      have := List.getElem_map Ack.w (l := p.acks) (h := by rw [List.length_map]; exact hi₀)
      rw [← this]
      simp only [hset.positions, List.getElem_range]
    have hpay := (hset.acked _ (List.getElem_mem hi₀)).2 (by rw [hw]; exact Nat.le_add_right _ _)
    rw [hw, hf.payload i hi] at hpay
    rw [List.getElem_take, List.getElem_drop, List.getElem_map, hpay]

variable [DecidableEq π] [DecidableEq δ]

/-- The locked sections do not look at the producers. -/
theorem step_with_pc {a : Publish.Action ε π δ} (ha : takesLock a = true) (pc : π → Pc ε)
    (hst : Publish.step p a = some p') :
    Publish.step { p with pc := pc } a = some { p' with pc := pc } := by
  cases a with
  | call | produce => exact absurd ha Bool.false_ne_true
  | collect d max =>
    obtain ⟨hnone, rfl⟩ := step_collect hst
    exact if_pos hnone
  | release d | abort d =>
    rw [Publish.step, Option.map_eq_some_iff] at hst
    obtain ⟨b, hb, rfl⟩ := hst
    rw [Publish.step, show ({ p with pc := pc } : Publish.State cap ε π δ).batch d = _ from hb]
    rfl

/-- A locked section leaves alone the slot at `write_head`, or frees it if it is the one
    at `read_head`. -/
theorem drain_frame {a : Publish.Action ε π δ} (ha : takesLock a = true)
    (hset : Settled p.ring p.batch p.acks) (hst : Publish.step p a = some p') :
    p'.pc = p.pc ∧ p'.acks = p.acks ∧ p'.ring.writeHead = p.ring.writeHead ∧
      p.ring.readHead ≤ p'.ring.readHead ∧
      (p.ring.writeHead < p.ring.readHead + cap →
        p'.ring.slot p.ring.writeHead = p.ring.slot p.ring.writeHead) ∧
      (¬p.ring.writeHead < p.ring.readHead + cap → p.ring.writeHead < p'.ring.readHead + cap →
        (p'.ring.slot p.ring.writeHead).state = .empty) := by
  have hle := hset.le
  have hfit := hset.fit
  have hkept : ∀ (f : Slot ε → Slot ε) {n : ℕ}, p.ring.readHead + n ≤ p.ring.writeHead →
      p.ring.writeHead < p.ring.readHead + cap →
        (Cyclic.modifyRange f p.ring.readHead n p.ring.slots).get p.ring.writeHead =
          p.ring.slot p.ring.writeHead := fun f n hn hlt =>
    Cyclic.get_modifyRange_of_not_mem f _ (by omega) hlt (by omega)
  cases a with
  | call | produce => exact absurd ha Bool.false_ne_true
  | collect d max =>
    obtain ⟨-, rfl⟩ := step_collect hst
    obtain ⟨n, -, hn, heq, -⟩ := collect_run hle hfit max
    refine ⟨rfl, rfl, ?_, ?_, fun hroom => ?_, fun hno hlt => ?_⟩ <;> simp only [heq] at *
    · exact le_rfl
    · exact hkept _ hn hroom
    · exact absurd hlt hno
  | release d =>
    rw [Publish.step, Option.map_eq_some_iff] at hst
    obtain ⟨b, hb, rfl⟩ := hst
    have hf := hset.flight d b hb
    have hpos := hset.size d b hb
    have hbw := hf.le
    simp only [releaseBatch, if_neg hpos.ne', hf.base]
    refine ⟨trivial, trivial, trivial, Nat.le_add_right _ _, fun hroom => hkept _ hbw hroom,
      fun hno _ => ?_⟩
    -- The ring was full, so `write_head` is one capacity after the first slot released.
    change ((Cyclic.modifyRange (Slot.setState .empty) p.ring.readHead b.size p.ring.slots).get
      p.ring.writeHead).state = _
    rw [show p.ring.writeHead = p.ring.readHead + cap by omega, Cyclic.get_add_cap,
      Cyclic.get_modifyRange_of_mem _ le_rfl (by omega) (by omega), Slot.setState_state]
  | abort d =>
    rw [Publish.step, Option.map_eq_some_iff] at hst
    obtain ⟨b, hb, rfl⟩ := hst
    have hf := hset.flight d b hb
    simp only [abortBatch, hf.base]
    exact ⟨trivial, trivial, trivial, le_rfl, fun hroom => hkept _ hf.le hroom,
      fun hno hlt => absurd hlt hno⟩

/-- What a locked section adds to the events released. -/
theorem released_drain {a : Publish.Action ε π δ} (ha : takesLock a = true)
    (hset : Settled s.pub.ring s.pub.batch s.pub.acks) (hst : Publish.step s.pub a = some p')
    (h : s.released = (s.pub.acks.map Ack.ev).take s.pub.ring.readHead) :
    record s a = (p'.acks.map Ack.ev).take p'.ring.readHead := by
  cases a with
  | call | produce => exact absurd ha Bool.false_ne_true
  | collect d max =>
    obtain ⟨-, rfl⟩ := step_collect hst
    exact h
  | release d =>
    rw [Publish.step, Option.map_eq_some_iff] at hst
    obtain ⟨b, hb, rfl⟩ := hst
    simp only [record, hb, Option.map_some, Option.getD_some, releaseBatch,
      if_neg (hset.size d b hb).ne', (hset.flight d b hb).base]
    rw [List.take_add, ← events_eq hset hb, h]
  | abort d =>
    rw [Publish.step, Option.map_eq_some_iff] at hst
    obtain ⟨b, -, rfl⟩ := hst
    exact h

omit [DecidableEq π] [DecidableEq δ] in
/-- Somebody in the middle of publish has room for its event, even if robbed. -/
theorem Inv.room (h : Inv timeout s) {q : π} (hq : (s.pub.pc q).Holding) :
    s.pub.ring.writeHead < s.pub.ring.readHead + cap := by
  by_cases he : (s.pub.ring.slot s.pub.ring.writeHead).state = .empty
  · have hr := h.robbed he q
    cases hpc : s.pub.pc q <;> rw [hpc] at hq hr
    case stamp ev w | fill ev w | publish ev w => exact hr.1 ▸ hr.2
    case advance ev w => exact hr.elim
    all_goals exact hq.elim
  · exact ((h.publish he).frontier.not_empty hq).2

/-- The locked sections of the drainers keep the invariant while no reclaim pass runs. -/
theorem inv_drain (h : Inv timeout s) {a : Publish.Action ε π δ} (ha : takesLock a = true)
    (hidle : s.reclaim = .idle) (hst : Publish.step s.pub a = some p') :
    Inv timeout { s with pub := p', released := record s a } := by
  have hset : Settled s.pub.ring s.pub.batch s.pub.acks := h.pub.settled
  obtain ⟨hpc, -, hw, hr, hslot, hfreed⟩ := drain_frame ha hset hst
  by_cases hroom : s.pub.ring.writeHead < s.pub.ring.readHead + cap
  · have hsame := hslot hroom
    have hcalm : calm p' = { p' with pc := (calm s.pub).pc } := by
      simp only [calm, hpc, hw, hsame]
    constructor
    · rw [hcalm]
      exact Publish.inv_step _ a _ h.pub (by cases a <;> first | exact trivial | cases ha)
        (step_with_pc ha _ hst)
    · simp only [hw, hsame, hpc]
      intro he q
      have hrob := h.robbed he q
      cases hq : s.pub.pc q <;> rw [hq] at hrob
      case stamp ev w | fill ev w | publish ev w =>
        exact ⟨hrob.1.trans hw.symm, lt_of_lt_of_le hrob.2 (Nat.add_le_add_right hr cap)⟩
      case advance ev w => exact hrob
      all_goals exact trivial
    · refine ⟨fun q ev w hq => ?_, fun q t _ hwr hq => ?_, hidle ▸ trivial⟩
      · rw [hpc] at hq
        obtain ⟨rfl, hun⟩ := h.tracked.unstamped q ev w hq
        exact ⟨hw.symm, by rw [hsame]; exact hun⟩
      · simp only [hw, hsame] at hwr hq ⊢
        exact h.tracked.stamped q t hroom hwr hq
    · exact released_drain ha hset hst h.released
  · -- A full ring: nobody is in the middle of publish.
    have hno : ∀ q, ¬(s.pub.pc q).Holding := fun q hq => hroom (h.room hq)
    have hinv : Publish.Inv s.pub := calm_of_idle hno ▸ h.pub
    have hnext : Publish.Inv p' := Publish.inv_step _ a _ hinv
      (by cases a <;> first | exact trivial | cases ha) hst
    refine .of_inv hnext ⟨fun q ev w hq => ?_, fun q t hlt hwr _ => ?_, hidle ▸ trivial⟩
      (released_drain ha hset hst h.released)
    · rw [hpc] at hq
      exact absurd (hq ▸ trivial) (hno q)
    · simp only [hw] at hlt hwr
      rw [hfreed hroom hlt] at hwr
      exact absurd hwr (by decide)

end

/-! ## The reclaim pass -/

section

variable {timeout : ℤ} {s : State cap ε π δ} {r : Ring cap ε} {batch : δ → Option (Batch ε)}
  {acks : List (Ack ε)}

/-- A slot of the window found `WRITING` is the one at `write_head`. -/
theorem eq_writeHead (hset : Settled r batch acks) {w : ℕ} (hr : r.readHead ≤ w)
    (hw : w ≤ r.writeHead) (hwr : (r.slot w).state = .writing) : w = r.writeHead := by
  rcases Nat.lt_or_ge w r.writeHead with hlt | hge
  · rcases (hset.live w hr hlt).1 with hl | hl <;> exact absurd (hl.symm.trans hwr) (by decide)
  · exact le_antisymm hw hge

/-- In a full ring the slot at `write_head` is that at `read_head`, and not `WRITING`. -/
theorem room_of_writing (hset : Settled r batch acks) (hcap : 0 < cap) {w : ℕ}
    (hw : w ≤ r.writeHead) (hwr : (r.slot w).state = .writing) : w < r.readHead + cap := by
  have hfit := hset.fit
  by_contra hno
  rw [show w = r.readHead + cap by omega,
    show r.slot (r.readHead + cap) = _ from r.slots.get_add_cap _] at hwr
  rcases (hset.live r.readHead le_rfl (by omega)).1 with hl | hl <;>
    exact absurd (hl.symm.trans hwr) (by decide)

/-- Resetting the slot at `write_head` sets its producer aside. -/
theorem inv_reset (h : Inv timeout s) (hroom : s.pub.ring.writeHead < s.pub.ring.readHead + cap)
    (hwr : (s.pub.ring.slot s.pub.ring.writeHead).state = .writing) :
    Inv timeout { s with
      pub := Publish.write s.pub.ring.writeHead (Slot.setState .empty) s.pub
      reclaim := .idle
      holder := Function.update s.holder (s.pub.ring.writeHead % cap) none } := by
  -- As if the producer had withdrawn: from there on none owns the slot.
  have hinv := h.publish (by rw [hwr]; decide)
  have hempty : ((Publish.write s.pub.ring.writeHead (Slot.setState .empty) s.pub).ring.slot
      s.pub.ring.writeHead).state = .empty := by
    rw [slot_write_self, Slot.setState_state]
  constructor
  · refine inv_free hinv hroom (Slot.setState_state _ _)
      (calm (Publish.write s.pub.ring.writeHead _ s.pub)).pc fun q => ?_
    rw [calm_pc_of_empty (p := Publish.write s.pub.ring.writeHead (Slot.setState .empty) s.pub)
      hempty]
    refine ⟨not_holding_withdrawn _, ?_⟩
    simp only [Publish.write]
    cases s.pub.pc q <;> first | exact .inl rfl | exact .inr rfl
  · intro _ q
    have hown := hinv.frontier.owns q
    simp only [Publish.write]
    cases hpc : s.pub.pc q <;> rw [hpc] at hown
    case stamp ev w | fill ev w | publish ev w => exact ⟨hown.1, hown.2.1⟩
    case advance ev w =>
      obtain ⟨rfl, -, hready, -⟩ := hown
      exact absurd (hready.symm.trans hwr) (by decide)
    all_goals exact trivial
  · refine ⟨fun q ev w hq => ?_, fun q t _ hwr' _ => ?_, trivial⟩
    · obtain ⟨rfl, -⟩ := h.tracked.unstamped q ev w hq
      exact ⟨rfl, fun hwr' => absurd (hempty.symm.trans hwr') (by decide)⟩
    · exact absurd (hempty.symm.trans hwr') (by decide)
  · exact h.released

/-- The accesses of the reclaim pass keep the invariant, if it reads the stamp of a slot
    only after its reservation wrote it. -/
theorem inv_reclaim (h : Inv timeout s) (now : ℤ) (hok : Undisturbed s (.reclaim now)) :
    Inv timeout (reclaimStep timeout now s) := by
  have hset : Settled s.pub.ring s.pub.batch s.pub.acks := h.pub.settled
  have hwatch := h.tracked.watching
  -- An access that only reads changes where the pass is, and what it knows of the slot.
  have moved : ∀ rc, Watching timeout s.pub.ring s.holder rc →
      Inv timeout { s with reclaim := rc } := fun rc hrc =>
    ⟨h.pub, h.robbed, ⟨h.tracked.unstamped, h.tracked.stamped, hrc⟩, h.released⟩
  cases hrc : s.reclaim <;> simp only [reclaimStep, hrc] <;> rw [hrc] at hwatch
  case idle =>
    split_ifs with hcap
    · exact moved _ ⟨hcap, hset.le, le_rfl⟩
    · exact h
  case readState w now =>
    obtain ⟨hcap, hle, hge⟩ := hwatch
    split_ifs with hwr
    · exact moved _ ⟨⟨hle, hge, room_of_writing hset hcap hge hwr⟩, by rw [hwr]; decide⟩
    · exact moved _ trivial
  case readStamp w now =>
    obtain ⟨hwin, hne⟩ := hwatch
    split_ifs with hold
    · refine moved _ ⟨hwin, hne, hold, fun hwr => ?_⟩
      -- The stamp that was read is that of the reservation: it was written before.
      obtain ⟨q, t, hq⟩ := hok w now hrc hwr
      obtain rfl := eq_writeHead hset hwin.1 hwin.2.1 hwr
      exact ⟨q, (h.tracked.stamped q t hwin.2.2 hwr hq) ▸ hq⟩
    · exact moved _ trivial
  case cas w now t =>
    obtain ⟨hwin, -, -⟩ := hwatch
    split_ifs with hwr
    · obtain rfl := eq_writeHead hset hwin.1 hwin.2.1 hwr
      exact inv_reset h hwin.2.2 hwr
    · exact moved _ trivial

end

/-! ## Runs -/

variable [DecidableEq π] [DecidableEq δ] {timeout : ℤ}

theorem inv_step (s : State cap ε π δ) (a : Action ε π δ) (s' : State cap ε π δ)
    (h : Inv timeout s) (hok : Undisturbed s a) (hst : step timeout s a = some s') :
    Inv timeout s' := by
  cases a with
  | pub a =>
    rw [step] at hst
    by_cases hlock : takesLock a ∧ s.reclaim ≠ .idle
    · rw [if_pos hlock] at hst
      exact absurd hst (by simp)
    rw [if_neg hlock, Option.map_eq_some_iff] at hst
    obtain ⟨p, hp, rfl⟩ := hst
    -- The accesses of the reclaim pass and those of a drain exclude each other by the lock.
    have drain : takesLock a = true → s.reclaim = .idle := fun ha => by
      by_contra hno
      exact hlock ⟨ha, hno⟩
    cases a with
    | call q ev =>
      rw [Publish.step] at hp
      split at hp
      · obtain rfl := Option.some.inj hp
        exact inv_goto h trivial id
      · exact absurd hp (by simp)
    | produce q now => exact inv_produce h now hok hp
    | collect d max => exact inv_drain h (a := .collect d max) rfl (drain rfl) hp
    | release d => exact inv_drain h (a := .release d) rfl (drain rfl) hp
    | abort d => exact inv_drain h (a := .abort d) rfl (drain rfl) hp
  | crash q =>
    obtain rfl := Option.some.inj hst
    exact inv_goto h trivial id
  | reclaim now =>
    obtain rfl := Option.some.inj hst
    exact inv_reclaim h now hok

/-- In every run in which slots are reserved at `write_head`, after those robbed of them
    have left publish, and stamps are read after they were written: the pass only resets
    a slot whose reservation has a stamp of its own older than the timeout; the publishes
    acknowledged are those of the positions below `write_head`, one each; those released
    are the events of the acknowledged ones before `read_head`, in order, those in a batch
    the next ones, and all others are in the live slot of their position. -/
theorem reclaim_spares_live [Inhabited ε] {s : State cap ε π δ}
    (h : Reachable (step timeout) Undisturbed init s) :
    (∀ w now t, s.reclaim = .cas w now t → (s.pub.ring.slot w).state = .writing →
        ∃ q t', s.holder (w % cap) = some ⟨q, some t'⟩ ∧
          timestampDifferenceExceeds t' now timeout) ∧
      s.pub.acks.map Ack.w = List.range s.pub.ring.writeHead ∧
      s.released = (s.pub.acks.map Ack.ev).take s.pub.ring.readHead ∧
      (∀ d b, s.pub.batch d = some b →
        b.events = ((s.pub.acks.map Ack.ev).drop s.pub.ring.readHead).take b.size) ∧
      ∀ a ∈ s.pub.acks, a.advanced = true ∧ (s.pub.ring.readHead ≤ a.w →
        (s.pub.ring.slot a.w).Live ∧ (s.pub.ring.slot a.w).payload = a.ev) := by
  have hinv := h.invariant (inv_init timeout) inv_step
  have hset : Settled s.pub.ring s.pub.batch s.pub.acks := hinv.pub.settled
  refine ⟨fun w now t hrc hwr => ?_, hset.positions, hinv.released,
    fun d b hb => events_eq hset hb, fun a ha => ⟨(hset.acked a ha).1, fun hle => ?_⟩⟩
  · have hwatch := hinv.tracked.watching
    rw [hrc] at hwatch
    obtain ⟨-, -, hold, hown⟩ := hwatch
    obtain ⟨q, hq⟩ := hown hwr
    exact ⟨q, t, hq, hold⟩
  · exact ⟨(hset.live a.w hle (hset.lt_of_mem ha)).1, (hset.acked a ha).2 hle⟩

/-- A producer dies after stamping its slot; the slot is reclaimed six seconds later, and
    another producer's event is published there, collected and released. -/
def deadProducer : List (Action ℕ Bool Unit) :=
  .pub (.call false 10) :: List.replicate 4 (.pub (.produce false 0)) ++
    .crash false :: List.replicate 4 (.reclaim 6000000) ++
    .pub (.call true 11) :: List.replicate 7 (.pub (.produce true 6000000)) ++
    [.pub (.collect () 1), .pub (.release ())]

theorem reclaim_spares_live_of_dead :
    ((run (step 5000) (init : State 1024 ℕ Bool Unit) deadProducer).get rfl).released = [11] := by
  have hmeets : Meets (step 5000) Undisturbed (init : State 1024 ℕ Bool Unit) deadProducer := by
    refine .cons trivial rfl (.cons ?_ rfl (.cons ?_ rfl (.cons ?_ rfl (.cons ?_ rfl
      (.cons trivial rfl (.cons ?_ rfl (.cons ?_ rfl (.cons ?_ rfl (.cons ?_ rfl
      (.cons trivial rfl (.cons ?_ rfl (.cons ?_ rfl (.cons ?_ rfl (.cons ?_ rfl (.cons ?_ rfl
      (.cons ?_ rfl (.cons ?_ rfl (.cons trivial rfl (.cons trivial rfl trivial)))))))))))))))))))
    case refine_3 | refine_11 =>
      -- The reservations, at position `0`, with nobody else in the middle of publish.
      rintro _ _ _ ⟨⟩ -
      exact ⟨rfl, fun q' => by cases q' <;> exact id⟩
    case refine_7 =>
      rintro _ _ ⟨⟩ -
      exact ⟨false, 0, rfl⟩
    case refine_5 | refine_6 | refine_8 => rintro _ _ ⟨⟩
    all_goals rintro _ _ _ ⟨⟩
  rw [(reclaim_spares_live (.of_run .init hmeets (Option.some_get rfl).symm)).2.2.1]
  rfl

/-- A producer reserves the first slot of a fresh ring, whose time stamp is still `0`. -/
def unstampedSlot : List (Action ℕ Bool Unit) :=
  .pub (.call false 10) :: List.replicate 3 (.pub (.produce false 6000000)) ++
    List.replicate 3 (.reclaim 6000000)

/-- The slot is reset, another producer reserves and stamps it, and the first one goes on
    to publish; the second one fills the slot already `READY`, and is told it is full. -/
def robbedProducer : List (Action ℕ Bool Unit) :=
  unstampedSlot ++ .reclaim 6000000 ::
    .pub (.call true 11) :: List.replicate 4 (.pub (.produce true 6000000)) ++
    List.replicate 4 (.pub (.produce false 6000000)) ++
    List.replicate 2 (.pub (.produce true 6000000)) ++
    [.pub (.collect () 1), .pub (.release ())]

/-- The pass resets a reservation just made, and then the event acknowledged is not the
    one that is collected. -/
theorem reclaim_robs_live_producer :
    (¬∀ s : State 1024 ℕ Bool Unit, Reachable (step 5000) (fun _ _ => True) init s →
      ∀ w now t, s.reclaim = .cas w now t → (s.pub.ring.slot w).state = .writing →
        ∃ q t', s.holder (w % 1024) = some ⟨q, some t'⟩ ∧
          timestampDifferenceExceeds t' now 5000) ∧
    ¬∀ s : State 1024 ℕ Bool Unit, Reachable (step 5000) (fun _ _ => True) init s →
      s.released = (s.pub.acks.map Ack.ev).take s.pub.ring.readHead := by
  have reach : ∀ (as : List (Action ℕ Bool Unit)) (t : State 1024 ℕ Bool Unit),
      run (step 5000) init as = some t → Reachable (step 5000) (fun _ _ => True) init t :=
    fun as t ht => .of_run .init (meets_true as _) ht
  constructor
  · intro h
    obtain ⟨q, t', hq, -⟩ := h ((run (step 5000) init unstampedSlot).get rfl)
      (reach _ _ (Option.some_get _).symm) 0 6000000 0 rfl rfl
    exact absurd (show some (⟨false, none⟩ : Reservation Bool) = _ from hq) (by simp)
  · intro h
    have hrel := h ((run (step 5000) init robbedProducer).get rfl)
      (reach _ _ (Option.some_get _).symm)
    exact absurd (show [11] = [10] from hrel) (by decide)

end PgRedis.Ring.Reclaim
