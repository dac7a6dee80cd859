import PgRedis.Ring.Drain

/-!
# Publishing, one atomic access at a time

`pg_redis_dirty_ring_publish` taken apart into its atomic accesses: read
`write_head`, read `read_head`, reserve the slot (`CAS EMPTY → WRITING`), stamp
it, fill it, publish it (`CAS WRITING → READY`), advance `write_head`
(`CAS w → w + 1`). The accesses of any number of producers `π` interleave freely
with each other and with the locked sections of any number of drainers `δ`.

The code takes for granted that whoever reserved the slot of position `w` is the
unique owner of `w`, so that its last compare-and-swap cannot fail. But the slot
of `w` is also free again after `w` has been published, drained and released by
others: a producer delayed between reading `write_head` and reserving then
reserves a slot for a position long gone (`stale_publish_acks`). When every
reservation is *fresh*, made while `write_head` still is the `w` that was read,
ownership holds in every run (`publish_owns_position`).
-/

namespace PgRedis

/-- `pg_redis.async_full_action`: what a producer does about a full ring. -/
inductive FullAction
  | block
  | syncFlush
  deriving DecidableEq, Repr

namespace Ring.Publish

open Lib Drain

/-- Where a producer is within `pg_redis_dirty_ring_publish` of its event. -/
inductive Pc (ε : Type*)
  | idle
  /-- At the top of the reservation loop. -/
  | readWrite (ev : ε)
  | readRead (ev : ε) (w : ℕ)
  | reserve (ev : ε) (w r : ℕ)
  /-- The slot is reserved, its time stamp not yet written. -/
  | stamp (ev : ε) (w : ℕ)
  | fill (ev : ε) (w : ℕ)
  | publish (ev : ε) (w : ℕ)
  /-- The slot is `READY`, `write_head` not yet advanced. -/
  | advance (ev : ε) (w : ℕ)
  deriving DecidableEq, Repr

/-- A publish which returned `PG_REDIS_RING_OK`: the position it read, its event,
    and whether its `write_head` compare-and-swap succeeded (`Assert(ew == w)`). -/
structure Ack (ε : Type*) where
  w : ℕ
  ev : ε
  advanced : Bool
  deriving DecidableEq, Repr

/-- The ring, where each producer is, the batch each drainer holds, and the
    publishes acknowledged so far. -/
structure State (cap : ℕ) (ε π δ : Type*) where
  ring : Ring cap ε
  pc : π → Pc ε
  batch : δ → Option (Batch ε)
  acks : List (Ack ε)

/-- The steps: a call of publish, the next atomic access of a producer, and the
    locked sections of the drainers. -/
inductive Action (ε π δ : Type*)
  | call (q : π) (ev : ε)
  | produce (q : π) (now : ℤ)
  | collect (d : δ) (max : ℕ)
  | release (d : δ)
  | abort (d : δ)

variable {cap : ℕ} {ε π δ : Type*}

/-- A fresh ring, every producer and drainer idle. -/
def init [Inhabited ε] : State cap ε π δ := ⟨Ring.init, fun _ => .idle, fun _ => none, []⟩

section

variable [DecidableEq π] [DecidableEq δ]

/-- Moving the producer `q` to `pc`. -/
def goto (q : π) (pc : Pc ε) (s : State cap ε π δ) : State cap ε π δ :=
  { s with pc := Function.update s.pc q pc }

/-- Overwriting the slot of position `w`. -/
def write (w : ℕ) (f : Slot ε → Slot ε) (s : State cap ε π δ) : State cap ε π δ :=
  { s with ring := { s.ring with slots := s.ring.slots.modify w f } }

/-- Returning `PG_REDIS_RING_OK` for position `w` after the last compare-and-swap. -/
def acknowledge (w : ℕ) (ev : ε) (s : State cap ε π δ) : State cap ε π δ :=
  if s.ring.writeHead = w then
    { s with ring := { s.ring with writeHead := w + 1 }, acks := s.acks ++ [⟨w, ev, true⟩] }
  else { s with acks := s.acks ++ [⟨w, ev, false⟩] }

/-- The next atomic access of the producer `q`. -/
def produce (q : π) (now : ℤ) (s : State cap ε π δ) : Option (State cap ε π δ) :=
  match s.pc q with
  | .idle => none
  | .readWrite ev => some (goto q (.readRead ev s.ring.writeHead) s)
  | .readRead ev w =>
    if isFull cap w s.ring.readHead then some (goto q .idle s)
    else some (goto q (.reserve ev w s.ring.readHead) s)
  | .reserve ev w _ =>
    if (s.ring.slot w).state = .empty then
      some (goto q (.stamp ev w) (write w (fun sl => { sl with state := .writing, pos := w }) s))
    else some (goto q (.readWrite ev) s)
  | .stamp ev w =>
    some (goto q (.fill ev w) (write w (fun sl => { sl with writeStartedAt := now }) s))
  | .fill ev w => some (goto q (.publish ev w) (write w (fun sl => { sl with payload := ev }) s))
  | .publish ev w =>
    if (s.ring.slot w).state = .writing then
      some (goto q (.advance ev w) (write w (Slot.setState .ready) s))
    else some (goto q .idle s)
  | .advance ev w => some (goto q .idle (acknowledge w ev s))

/-- One step. -/
def step (s : State cap ε π δ) : Action ε π δ → Option (State cap ε π δ)
  | .call q ev => match s.pc q with
    | .idle => some (goto q (.readWrite ev) s)
    | _ => none
  | .produce q now => produce q now s
  | .collect d max => if (s.batch d).isNone then some { s with
      ring := (s.ring.collect max).2
      batch := if (s.ring.collect max).1.isEmpty then s.batch
        else Function.update s.batch d (some ⟨s.ring.readHead, (s.ring.collect max).1⟩) }
    else none
  | .release d => (s.batch d).map fun b =>
      { s with ring := s.ring.releaseBatch b.base b.size, batch := Function.update s.batch d none }
  | .abort d => (s.batch d).map fun b =>
      { s with ring := s.ring.abortBatch b.base b.size, batch := Function.update s.batch d none }

end

/-- A reservation that succeeds is made while `write_head` still is the position
    the producer read. -/
def Fresh (s : State cap ε π δ) : Action ε π δ → Prop
  | .produce q _ => ∀ ev w r, s.pc q = .reserve ev w r → (s.ring.slot w).state = .empty →
      w = s.ring.writeHead
  | _ => True

/-! ## The invariant -/

/-- What concerns the positions between the heads: they are live slots written
    for them, a batch held is the `DRAINING` run at `read_head`, held by one
    drainer only, and the acknowledged publishes are the positions below
    `write_head`, each event in its slot until released. -/
structure Settled (r : Ring cap ε) (batch : δ → Option (Batch ε)) (acks : List (Ack ε)) :
    Prop where
  le : r.readHead ≤ r.writeHead
  fit : r.writeHead ≤ r.readHead + cap
  live : ∀ p, r.readHead ≤ p → p < r.writeHead → (r.slot p).Live ∧ (r.slot p).pos = p
  size : ∀ d b, batch d = some b → 0 < b.size
  flight : ∀ d b, batch d = some b → InFlight r b
  unique : ∀ d d' b b', batch d = some b → batch d' = some b' → d = d'
  positions : acks.map Ack.w = List.range r.writeHead
  acked : ∀ a ∈ acks, a.advanced = true ∧ (r.readHead ≤ a.w → (r.slot a.w).payload = a.ev)

/-- The state a producer relies on at its next access. -/
def Pc.Owns (r : Ring cap ε) : Pc ε → Prop
  | .stamp _ w | .fill _ w =>
    w = r.writeHead ∧ w < r.readHead + cap ∧ (r.slot w).state = .writing
  | .publish ev w =>
    w = r.writeHead ∧ w < r.readHead + cap ∧ (r.slot w).state = .writing ∧
      (r.slot w).payload = ev
  | .advance ev w =>
    w = r.writeHead ∧ w < r.readHead + cap ∧ (r.slot w).state = .ready ∧
      (r.slot w).payload = ev
  | .reserve _ w r' => r' ≤ r.readHead ∧ w < r' + cap
  | _ => True

/-- The producer holds the slot at `write_head`. -/
def Pc.Holding : Pc ε → Prop
  | .stamp _ _ | .fill _ _ | .publish _ _ | .advance _ _ => True
  | _ => False

/-- What concerns the slots from `write_head` on: the one at `write_head` is free
    or in the hands of one producer, and the later ones are free. -/
structure Frontier (r : Ring cap ε) (pc : π → Pc ε) : Prop where
  tail : ∀ p, r.writeHead < p → p < r.readHead + cap → (r.slot p).state = .empty
  head : r.writeHead < r.readHead + cap → (r.slot r.writeHead).state = .empty ∨
    (((r.slot r.writeHead).state = .writing ∨ (r.slot r.writeHead).state = .ready) ∧
      (r.slot r.writeHead).pos = r.writeHead)
  owns : ∀ q, (pc q).Owns r
  alone : ∀ q q', (pc q).Holding → (pc q').Holding → q = q'

/-- The invariant of the producers and drainers. -/
structure Inv (s : State cap ε π δ) : Prop where
  settled : Settled s.ring s.batch s.acks
  frontier : Frontier s.ring s.pc

theorem inv_init [Inhabited ε] : Inv (init : State cap ε π δ) where
  settled :=
    { le := le_rfl
      fit := Nat.zero_le _
      live := fun _ _ h => absurd h (Nat.not_lt_zero _)
      size := fun _ _ h => absurd h (by simp [init])
      flight := fun _ _ h => absurd h (by simp [init])
      unique := fun _ _ _ _ h => absurd h (by simp [init])
      positions := rfl
      acked := fun _ h => absurd h (by simp [init]) }
  frontier :=
    { tail := fun _ _ _ => rfl
      head := fun _ => .inl rfl
      owns := fun _ => trivial
      alone := fun _ _ h => h.elim }

variable {r r' : Ring cap ε} {batch : δ → Option (Batch ε)} {acks : List (Ack ε)} {pc : π → Pc ε}

theorem Settled.lt_of_mem (h : Settled r batch acks) {a : Ack ε} (ha : a ∈ acks) :
    a.w < r.writeHead := by
  rw [← List.mem_range, ← h.positions]
  exact List.mem_map_of_mem ha

/-- Once the batch in flight is given up, there is none. -/
theorem Settled.none_in_flight [DecidableEq δ] (h : Settled r batch acks) {d : δ} {b : Batch ε}
    (hb : batch d = some b) (d' : δ) (b' : Batch ε) :
    Function.update batch d none d' ≠ some b' := by
  intro hb'
  by_cases hd : d' = d
  · rw [hd, Function.update_self] at hb'
    exact absurd hb' (by simp)
  · rw [Function.update_of_ne hd] at hb'
    exact hd (h.unique d' d b' b hb' hb)

/-- The settled part only looks at the slots between the heads. -/
theorem Settled.congr (h : Settled r batch acks) (hr : r'.readHead = r.readHead)
    (hw : r'.writeHead = r.writeHead)
    (hslot : ∀ p, r.readHead ≤ p → p < r.writeHead → r'.slot p = r.slot p) :
    Settled r' batch acks where
  le := hr ▸ hw ▸ h.le
  fit := hr ▸ hw ▸ h.fit
  live p hp hlt := by
    rw [hr] at hp
    rw [hw] at hlt
    rw [hslot p hp hlt]
    exact h.live p hp hlt
  size := h.size
  flight d b hb := by
    have hf := h.flight d b hb
    have hle := hf.le
    refine ⟨hf.base.trans hr.symm, by rw [hr, hw]; exact hf.le, fun i hi => ?_, fun i hi => ?_⟩
    · rw [hr, hslot _ (by omega) (by omega)]
      exact hf.draining i hi
    · simp only [hr, hslot _ (Nat.le_add_right r.readHead i) (by omega)]
      exact hf.payload i hi
  unique := h.unique
  positions := by rw [hw]; exact h.positions
  acked a ha := by
    refine ⟨(h.acked a ha).1, fun hle => ?_⟩
    rw [hr] at hle
    rw [hslot _ hle (h.lt_of_mem ha)]
    exact (h.acked a ha).2 hle

/-- The frontier only looks at the slots from `write_head` on. -/
theorem Pc.Owns.congr {p : Pc ε} (h : p.Owns r) (hr : r'.readHead = r.readHead)
    (hw : r'.writeHead = r.writeHead)
    (hslot : r.writeHead < r.readHead + cap → r'.slot r.writeHead = r.slot r.writeHead) :
    p.Owns r' := by
  cases p with
  | idle | readWrite | readRead => exact trivial
  | reserve ev w r₀ => exact ⟨hr ▸ h.1, h.2⟩
  | stamp ev w | fill ev w | publish ev w | advance ev w =>
    obtain ⟨rfl, hlt, hrest⟩ := h
    refine ⟨hw.symm, hr ▸ hlt, ?_⟩
    rw [hslot hlt]
    exact hrest

theorem Frontier.congr (h : Frontier r pc) (hr : r'.readHead = r.readHead)
    (hw : r'.writeHead = r.writeHead)
    (hslot : ∀ p, r.writeHead ≤ p → p < r.readHead + cap → r'.slot p = r.slot p) :
    Frontier r' pc where
  tail p hp hlt := by
    rw [hw] at hp
    rw [hr] at hlt
    rw [hslot p hp.le hlt]
    exact h.tail p hp hlt
  head hlt := by
    rw [hr, hw] at hlt
    rw [hw, hslot _ le_rfl hlt]
    exact h.head hlt
  owns q := (h.owns q).congr hr hw fun hlt => hslot _ le_rfl hlt
  alone := h.alone

/-- A producer within the reservation loop only relies on `read_head` not going back. -/
theorem Pc.Owns.of_not_holding {p : Pc ε} (h : p.Owns r) (hno : ¬p.Holding)
    (hr : r.readHead ≤ r'.readHead) : p.Owns r' := by
  cases p with
  | idle | readWrite | readRead => exact trivial
  | reserve ev w r₀ => exact ⟨h.1.trans hr, h.2⟩
  | stamp | fill | publish | advance => exact absurd trivial hno

/-- A producer moving within the reservation loop, or leaving publish. -/
theorem Frontier.goto [DecidableEq π] (h : Frontier r pc) {q : π} {p : Pc ε} (howns : p.Owns r)
    (hno : ¬p.Holding) : Frontier r (Function.update pc q p) where
  tail := h.tail
  head := h.head
  owns q' := by
    by_cases hq : q' = q
    · rw [hq, Function.update_self]
      exact howns
    · rw [Function.update_of_ne hq]
      exact h.owns q'
  alone q₁ q₂ h₁ h₂ := by
    have old : ∀ q', (Function.update pc q p q').Holding → (pc q').Holding := fun q' hq' => by
      by_cases hq : q' = q
      · rw [hq, Function.update_self] at hq'
        exact absurd hq' hno
      · rwa [Function.update_of_ne hq] at hq'
    exact h.alone q₁ q₂ (old q₁ h₁) (old q₂ h₂)

/-- Who holds the slot at `write_head` finds it not `EMPTY`. -/
theorem Frontier.not_empty (h : Frontier r pc) {q : π} (hq : (pc q).Holding) :
    (r.slot r.writeHead).state ≠ .empty ∧ r.writeHead < r.readHead + cap := by
  have ho := h.owns q
  cases hpc : pc q <;> simp only [hpc, Pc.Holding, Pc.Owns] at hq ho
  all_goals
    obtain ⟨rfl, hlt, hrest⟩ := ho
    refine ⟨fun he => ?_, hlt⟩
    simp [he] at hrest

/-- The slot at `write_head`, when held, was reserved for `write_head`. -/
theorem Frontier.pos_eq (h : Frontier r pc) {q : π} (hq : (pc q).Holding) :
    (r.slot r.writeHead).pos = r.writeHead := by
  obtain ⟨hne, hroom⟩ := h.not_empty hq
  rcases h.head hroom with he | ⟨-, hp⟩
  · exact absurd he hne
  · exact hp

/-! ## The accesses of the producers -/

@[simp] theorem slot_write_self (w : ℕ) (f : Slot ε → Slot ε) (s : State cap ε π δ) :
    (write w f s).ring.slot w = f (s.ring.slot w) :=
  s.ring.slots.get_modify_self w f

variable [DecidableEq π] {s s' : State cap ε π δ} {q : π}

omit [DecidableEq π] in
/-- Once `q` takes or keeps the slot at `write_head`, nobody else holds it. -/
theorem Frontier.owns_other (h : Frontier r pc) (r' : Ring cap ε) (hr : r.readHead ≤ r'.readHead)
    (hno : ∀ q', q' ≠ q → ¬(pc q').Holding) {q' : π} (hq : q' ≠ q) : (pc q').Owns r' :=
  (h.owns q').of_not_holding (hno q' hq) hr

/-- Writing the slot at `write_head`, by the producer who holds it. -/
theorem inv_write (h : Inv s) {p : Pc ε} {f : Slot ε → Slot ε}
    (hroom : s.ring.writeHead < s.ring.readHead + cap)
    (hno : ∀ q', q' ≠ q → ¬(s.pc q').Holding)
    (hf : ((f (s.ring.slot s.ring.writeHead)).state = .writing ∨
      (f (s.ring.slot s.ring.writeHead)).state = .ready) ∧
        (f (s.ring.slot s.ring.writeHead)).pos = s.ring.writeHead)
    (howns : p.Owns (write s.ring.writeHead f s).ring) :
    Inv (goto q p (write s.ring.writeHead f s)) := by
  have hle := h.settled.le
  have hfit := h.settled.fit
  -- Within a turn of the ring no other position has the slot of `write_head`.
  have hother : ∀ p, s.ring.readHead ≤ p → p < s.ring.readHead + cap → p ≠ s.ring.writeHead →
      (write s.ring.writeHead f s).ring.slot p = s.ring.slot p := fun p hr hlt hne =>
    s.ring.slots.get_modify_of_ne f hne (by omega) (by omega)
  have hfrontier : Frontier (write s.ring.writeHead f s).ring (Function.update s.pc q p) := by
    constructor
    · intro p hw hlt
      have hw : s.ring.writeHead < p := hw
      have hlt : p < s.ring.readHead + cap := hlt
      rw [hother p (by omega) hlt (by omega)]
      exact h.frontier.tail p hw hlt
    · intro _
      rw [show (write s.ring.writeHead f s).ring.writeHead = s.ring.writeHead from rfl,
        slot_write_self]
      exact .inr hf
    · intro q'
      by_cases hq : q' = q
      · rw [hq, Function.update_self]
        exact howns
      · rw [Function.update_of_ne hq]
        exact h.frontier.owns_other (write s.ring.writeHead f s).ring le_rfl hno hq
    · have only : ∀ q', (Function.update s.pc q p q').Holding → q' = q := fun q' hq' => by
        by_contra hne
        rw [Function.update_of_ne hne] at hq'
        exact hno q' hne hq'
      exact fun q₁ q₂ h₁ h₂ => (only q₁ h₁).trans (only q₂ h₂).symm
  exact ⟨h.settled.congr rfl rfl fun p hr hlt => hother p hr (by omega) (by omega), hfrontier⟩

/-- The last compare-and-swap: it succeeds, and position `w` is settled. -/
theorem inv_advance (h : Inv s) {ev : ε} {w : ℕ} (hpc : s.pc q = .advance ev w) :
    Inv (goto q .idle (acknowledge w ev s)) := by
  have hown := h.frontier.owns q
  have hhold : (s.pc q).Holding := by
    rw [hpc]
    trivial
  rw [hpc] at hown
  obtain ⟨rfl, hroom, hready, hpay⟩ := hown
  have hno : ∀ q', q' ≠ q → ¬(s.pc q').Holding := fun q' hne hq' =>
    hne (h.frontier.alone q' q hq' hhold)
  have hpos := h.frontier.pos_eq hhold
  have hset := h.settled
  rw [acknowledge, if_pos rfl]
  -- One more position is settled, and acknowledged; the frontier moves behind it.
  refine ⟨⟨Nat.le_succ_of_le hset.le, hroom, ?_, hset.size, ?_, hset.unique, ?_, ?_⟩,
    ?_, ?_, ?_, ?_⟩
  · intro p hr hlt
    rcases Nat.lt_succ_iff_lt_or_eq.1 hlt with hlt | rfl
    · exact hset.live p hr hlt
    · exact ⟨.inl hready, hpos⟩
  · intro d b hb
    have hf := hset.flight d b hb
    exact ⟨hf.base, Nat.le_succ_of_le hf.le, hf.draining, hf.payload⟩
  · simp only [goto, List.map_append, hset.positions, List.map_cons, List.map_nil, List.range_succ]
  · intro a ha
    rcases List.mem_append.1 ha with ha | ha
    · exact hset.acked a ha
    · obtain rfl := List.mem_singleton.1 ha
      exact ⟨rfl, fun _ => hpay⟩
  · intro p hw hlt
    exact h.frontier.tail p (Nat.lt_of_succ_lt hw) hlt
  · exact fun hlt => .inl (h.frontier.tail _ (Nat.lt_succ_self _) hlt)
  · intro q'
    by_cases hq : q' = q
    · simp only [goto, hq, Function.update_self]
      exact trivial
    · simp only [goto, Function.update_of_ne hq]
      exact h.frontier.owns_other
        { s.ring with writeHead := s.ring.writeHead + 1 } le_rfl hno hq
  · intro q₁ q₂ h₁ _
    by_cases hq : q₁ = q
    · simp only [goto, hq, Function.update_self] at h₁
      exact h₁.elim
    · simp only [goto, Function.update_of_ne hq] at h₁
      exact absurd h₁ (hno q₁ hq)

/-- Every access of a producer whose reservation is fresh keeps the invariant. -/
theorem inv_produce (h : Inv s) (now : ℤ)
    (hfresh : ∀ ev w r, s.pc q = .reserve ev w r → (s.ring.slot w).state = .empty →
      w = s.ring.writeHead) (hst : produce q now s = some s') : Inv s' := by
  have hown := h.frontier.owns q
  have hno : (s.pc q).Holding → ∀ q', q' ≠ q → ¬(s.pc q').Holding := fun hq q' hne hq' =>
    hne (h.frontier.alone q' q hq' hq)
  have hpos : (s.pc q).Holding → (s.ring.slot s.ring.writeHead).pos = s.ring.writeHead :=
    h.frontier.pos_eq
  rw [produce] at hst
  cases hpc : s.pc q <;> simp only [hpc] at hst hown hno hpos
  case readWrite ev =>
    obtain rfl := Option.some.inj hst
    exact ⟨h.settled, h.frontier.goto (r := s.ring) trivial id⟩
  case readRead ev w =>
    split_ifs at hst with hfull <;> obtain rfl := Option.some.inj hst
    · exact ⟨h.settled, h.frontier.goto (r := s.ring) trivial id⟩
    · have hroom := (isFull_eq_false.1 (Bool.not_eq_true _ ▸ hfull)).2
      exact ⟨h.settled, h.frontier.goto (r := s.ring) ⟨le_rfl, hroom⟩ id⟩
  case reserve ev w r₀ =>
    split_ifs at hst with hempty <;> obtain rfl := Option.some.inj hst
    · -- The reservation is fresh, so there is room at `write_head`, held by nobody.
      obtain rfl := hfresh ev w r₀ hpc hempty
      have hroom : s.ring.writeHead < s.ring.readHead + cap := by
        have := hown.1
        have := hown.2
        omega
      refine inv_write h hroom (fun q' _ hq' => (h.frontier.not_empty hq').1 hempty)
        ⟨.inl rfl, rfl⟩ ⟨rfl, hroom, ?_⟩
      rw [slot_write_self]
    · exact ⟨h.settled, h.frontier.goto (r := s.ring) trivial id⟩
  case stamp ev w =>
    obtain rfl := Option.some.inj hst
    obtain ⟨rfl, hroom, hwr⟩ := hown
    refine inv_write h hroom (hno trivial) ⟨.inl hwr, hpos trivial⟩ ⟨rfl, hroom, ?_⟩
    rw [slot_write_self]
    exact hwr
  case fill ev w =>
    obtain rfl := Option.some.inj hst
    obtain ⟨rfl, hroom, hwr⟩ := hown
    refine inv_write h hroom (hno trivial) ⟨.inl hwr, hpos trivial⟩ ⟨rfl, hroom, ?_, ?_⟩ <;>
      rw [slot_write_self]
    exact hwr
  case publish ev w =>
    obtain ⟨rfl, hroom, hwr, hpay⟩ := hown
    -- The slot is still `WRITING`: nobody reclaimed it.
    rw [if_pos hwr] at hst
    obtain rfl := Option.some.inj hst
    refine inv_write h hroom (hno trivial) ⟨.inr rfl, hpos trivial⟩ ⟨rfl, hroom, ?_, ?_⟩ <;>
      rw [slot_write_self]
    · exact Slot.setState_state _ _
    · exact hpay
  case advance ev w =>
    obtain rfl := Option.some.inj hst
    exact inv_advance h hpc
  case idle => exact absurd hst (by simp)

/-! ## The locked sections of the drainers -/

omit [DecidableEq π] in
/-- Flipping the first `n` pending slots leaves the frontier alone. -/
theorem Frontier.flip (h : Frontier r pc) (hset : Settled r batch acks) (st : SlotState) {n : ℕ}
    (hn : r.readHead + n ≤ r.writeHead) :
    Frontier { r with slots := Cyclic.modifyRange (Slot.setState st) r.readHead n r.slots } pc :=
  h.congr rfl rfl fun p hp hlt => by
    have hle := hset.le
    exact Cyclic.get_modifyRange_of_not_mem _ _ (by omega) (by omega) (by omega)

/-- The pending slots after flipping the first `n` of them to `st`. -/
theorem Settled.slot_flip (h : Settled r batch acks) (st : SlotState) {n p : ℕ}
    (hn : r.readHead + n ≤ r.writeHead) (hp : r.readHead ≤ p) (hw : p < r.writeHead) :
    slot { r with slots := Cyclic.modifyRange (Slot.setState st) r.readHead n r.slots } p =
      if p < r.readHead + n then (r.slot p).setState st else r.slot p := by
  have hfit := h.fit
  exact Cyclic.get_modifyRange _ hp (by omega) (by omega)

/-- Flipping pending slots between `READY` and `DRAINING`, once the batches of
    the result are accounted for. -/
theorem Settled.flip (h : Settled r batch acks) {st : SlotState}
    (hst : st = .ready ∨ st = .draining) {n : ℕ} (hn : r.readHead + n ≤ r.writeHead)
    {batch' : δ → Option (Batch ε)} (hsize : ∀ d b, batch' d = some b → 0 < b.size)
    (hflight : ∀ d b, batch' d = some b → InFlight
      { r with slots := Cyclic.modifyRange (Slot.setState st) r.readHead n r.slots } b)
    (hunique : ∀ d d' b b', batch' d = some b → batch' d' = some b' → d = d') :
    Settled { r with slots := Cyclic.modifyRange (Slot.setState st) r.readHead n r.slots }
      batch' acks where
  le := h.le
  fit := h.fit
  live p hp hlt := by
    -- A slot that is flipped keeps its event and its position.
    have hold := h.live p hp hlt
    rw [h.slot_flip st hn hp hlt]
    split_ifs
    · exact ⟨hst, hold.2⟩
    · exact hold
  size := hsize
  flight := hflight
  unique := hunique
  positions := h.positions
  acked a ha := by
    refine ⟨(h.acked a ha).1, fun hle => ?_⟩
    have hold := (h.acked a ha).2 hle
    rw [h.slot_flip st hn hle (h.lt_of_mem ha)]
    split_ifs
    · exact hold
    · exact hold

variable [DecidableEq δ]

theorem step_collect {d : δ} {max : ℕ} (hst : step s (.collect d max) = some s') :
    (s.batch d).isNone ∧ s' = { s with
      ring := (s.ring.collect max).2
      batch := if (s.ring.collect max).1.isEmpty then s.batch
        else Function.update s.batch d (some ⟨s.ring.readHead, (s.ring.collect max).1⟩) } := by
  rw [step] at hst
  by_cases hnone : (s.batch d).isNone
  · rw [if_pos hnone] at hst
    exact ⟨hnone, (Option.some.inj hst).symm⟩
  · rw [if_neg hnone] at hst
    exact absurd hst (by simp)

theorem inv_collect (h : Inv s) (d : δ) (max : ℕ)
    (hst : step s (.collect d max) = some s') : Inv s' := by
  obtain ⟨-, rfl⟩ := step_collect hst
  have hset := h.settled
  obtain ⟨n, -, hn, heq, hready, -⟩ := collect_run hset.le hset.fit max
  rw [heq]
  refine ⟨?_, h.frontier.flip hset .draining hn⟩
  rcases Nat.eq_zero_or_pos n with rfl | hpos
  · exact hset
  -- The slot at `read_head` was `READY`, so nobody held a batch.
  have hidle : ∀ d' b, s.batch d' ≠ some b := fun d' b hb => by
    have hd := (hset.flight d' b hb).draining 0 (hset.size d' b hb)
    rw [hready 0 hpos] at hd
    exact absurd hd (by decide)
  have hne : ((List.range n).map fun i => (s.ring.slot (s.ring.readHead + i)).payload).isEmpty =
      false := by
    simp
    omega
  simp only [hne, Bool.false_eq_true, if_false]
  have hbatch : ∀ d' b, Function.update s.batch d (some ⟨s.ring.readHead,
      (List.range n).map fun i => (s.ring.slot (s.ring.readHead + i)).payload⟩) d' = some b →
      d' = d ∧ b = ⟨s.ring.readHead,
        (List.range n).map fun i => (s.ring.slot (s.ring.readHead + i)).payload⟩ := by
    intro d' b hb
    by_cases hd : d' = d
    · rw [hd, Function.update_self] at hb
      exact ⟨hd, (Option.some.inj hb).symm⟩
    · rw [Function.update_of_ne hd] at hb
      exact absurd hb (hidle d' b)
  refine hset.flip (.inr rfl) hn (fun d' b hb => ?_) (fun d' b hb => ?_)
    fun d₁ d₂ b₁ b₂ h₁ h₂ => (hbatch d₁ b₁ h₁).1.trans (hbatch d₂ b₂ h₂).1.symm
  · rw [(hbatch d' b hb).2, Batch.size]
    simpa using hpos
  · obtain ⟨-, rfl⟩ := hbatch d' b hb
    refine ⟨rfl, by simpa [Batch.size] using hn, fun i hi => ?_, fun i hi => ?_⟩ <;>
      simp only [Batch.size, List.length_map, List.length_range] at hi
    · rw [hset.slot_flip .draining hn (Nat.le_add_right _ _) (by omega),
        if_pos (by omega), Slot.setState_state]
    · rw [hset.slot_flip .draining hn (Nat.le_add_right _ _) (by omega),
        if_pos (by omega), Slot.setState_payload]
      exact ((List.getElem_map _).trans (by rw [List.getElem_range])).symm

theorem inv_abort (h : Inv s) (d : δ) (hst : step s (.abort d) = some s') : Inv s' := by
  rw [step, Option.map_eq_some_iff] at hst
  obtain ⟨b, hb, rfl⟩ := hst
  have hset := h.settled
  have hf := hset.flight d b hb
  have hgone := hset.none_in_flight hb
  rw [abortBatch, hf.base]
  exact ⟨hset.flip (.inl rfl) hf.le (fun d' b' hb' => absurd hb' (hgone d' b'))
    (fun d' b' hb' => absurd hb' (hgone d' b')) (fun d' _ b' _ hb' => absurd hb' (hgone d' b')),
    h.frontier.flip hset .ready hf.le⟩

theorem inv_release (h : Inv s) (d : δ) (hst : step s (.release d) = some s') : Inv s' := by
  rw [step, Option.map_eq_some_iff] at hst
  obtain ⟨b, hb, rfl⟩ := hst
  have hset := h.settled
  have hf := hset.flight d b hb
  have hpos := hset.size d b hb
  have hle := hf.le
  have hfit := hset.fit
  have hgone := hset.none_in_flight hb
  rw [releaseBatch, if_neg (by omega), hf.base]
  -- What is left of the old window keeps its slots; what was released is one
  -- capacity further on, and free.
  have hkept : ∀ p, s.ring.readHead + b.size ≤ p → p < s.ring.readHead + cap →
      (Cyclic.modifyRange (Slot.setState .empty) s.ring.readHead b.size s.ring.slots).get p =
        s.ring.slot p := fun p hp hlt =>
    Cyclic.get_modifyRange_of_not_mem _ _ (by omega) (by omega) (by omega)
  have hfreed : ∀ p, s.ring.readHead + cap ≤ p → p < s.ring.readHead + b.size + cap →
      ((Cyclic.modifyRange (Slot.setState .empty) s.ring.readHead b.size s.ring.slots).get
        p).state = .empty := fun p hp hlt => by
    rw [show p = (p - cap) + cap by omega, Cyclic.get_add_cap,
      Cyclic.get_modifyRange_of_mem _ (by omega) (by omega) (by omega), Slot.setState_state]
  refine ⟨⟨hle, by simp only; omega, ?_, fun d' b' hb' => absurd hb' (hgone d' b'),
    fun d' b' hb' => absurd hb' (hgone d' b'), fun d' _ b' _ hb' => absurd hb' (hgone d' b'),
    hset.positions, ?_⟩, ?_, ?_, ?_, h.frontier.alone⟩
  · intro p hr hlt
    simp only at hr hlt
    rw [slot, hkept p hr (by omega)]
    exact hset.live p (by omega) hlt
  · intro a ha
    refine ⟨(hset.acked a ha).1, fun hr => ?_⟩
    simp only at hr
    have hlt := hset.lt_of_mem ha
    rw [slot, hkept _ hr (by omega)]
    exact (hset.acked a ha).2 (by omega)
  · intro p hw hlt
    simp only at hw hlt
    rcases Nat.lt_or_ge p (s.ring.readHead + cap) with hp | hp
    · rw [slot, hkept p (by omega) hp]
      exact h.frontier.tail p hw hp
    · exact hfreed p hp hlt
  · intro hlt
    simp only at hlt
    rcases Nat.lt_or_ge s.ring.writeHead (s.ring.readHead + cap) with hp | hp
    · rw [slot, hkept _ hle hp]
      exact h.frontier.head hp
    · exact .inl (hfreed _ hp hlt)
  · intro q
    have hown := h.frontier.owns q
    cases hpc : s.pc q <;> rw [hpc] at hown
    case reserve ev w r₀ => exact ⟨hown.1.trans (Nat.le_add_right _ _), hown.2⟩
    case stamp ev w | fill ev w | publish ev w | advance ev w =>
      obtain ⟨rfl, hroom, hrest⟩ := hown
      refine ⟨rfl, by simp only; omega, ?_⟩
      rw [slot, hkept _ hle hroom]
      exact hrest
    all_goals exact trivial

/-! ## Runs -/

/-- Every step with a fresh reservation keeps the invariant. -/
theorem inv_step (s : State cap ε π δ) (a : Action ε π δ) (s' : State cap ε π δ) (h : Inv s)
    (hok : Fresh s a) (hst : step s a = some s') : Inv s' := by
  cases a with
  | call q ev =>
    rw [step] at hst
    split at hst
    · obtain rfl := Option.some.inj hst
      exact ⟨h.settled, h.frontier.goto (r := s.ring) trivial id⟩
    · exact absurd hst (by simp)
  | produce q now => exact inv_produce h now hok hst
  | collect d max => exact inv_collect h d max hst
  | release d => exact inv_release h d hst
  | abort d => exact inv_abort h d hst

/-- In every run whose reservations are all fresh: the publishes acknowledged are
    those of the positions below `write_head`, one each; each advanced
    `write_head` from the position it read and has its event in the live slot of
    that position until released; and every `READY` slot was written for a
    position of `[read_head, write_head]`. -/
theorem publish_owns_position [Inhabited ε] (h : Reachable step Fresh init s) :
    s.acks.map Ack.w = List.range s.ring.writeHead ∧
      (∀ a ∈ s.acks, a.advanced = true ∧ (s.ring.readHead ≤ a.w →
        (s.ring.slot a.w).Live ∧ (s.ring.slot a.w).pos = a.w ∧
          (s.ring.slot a.w).payload = a.ev)) ∧
      ∀ i < cap, (s.ring.slots.cell i).state = .ready →
        s.ring.readHead ≤ (s.ring.slots.cell i).pos ∧
          (s.ring.slots.cell i).pos ≤ s.ring.writeHead := by
  have hinv := h.invariant inv_init inv_step
  have hset := hinv.settled
  refine ⟨hset.positions, fun a ha => ⟨(hset.acked a ha).1, fun hle => ?_⟩, fun i hi hready => ?_⟩
  · have hlive := hset.live a.w hle (hset.lt_of_mem ha)
    exact ⟨hlive.1, hlive.2, (hset.acked a ha).2 hle⟩
  · -- The slot is that of a position of the window: pending, at the frontier, or free.
    obtain ⟨p, hr, hc, rfl⟩ := exists_mem_window (by omega) s.ring.readHead i hi
    have hready : (s.ring.slot p).state = .ready := hready
    change s.ring.readHead ≤ (s.ring.slot p).pos ∧ (s.ring.slot p).pos ≤ s.ring.writeHead
    have hle := hset.le
    rcases lt_trichotomy p s.ring.writeHead with hlt | rfl | hgt
    · rw [(hset.live p hr hlt).2]
      exact ⟨hr, hlt.le⟩
    · rcases hinv.frontier.head hc with he | ⟨-, hp⟩
      · rw [hready] at he
        exact absurd he (by decide)
      · rw [hp]
        exact ⟨hle, le_rfl⟩
    · rw [hinv.frontier.tail p hgt hc] at hready
      exact absurd hready (by decide)

/-- One event published by the only producer, access by access. -/
def publishOne : List (Action ℕ Unit Unit) :=
  .call () 10 :: List.replicate 7 (.produce () 0)

/-- The slot of the event published by `publishOne`. -/
theorem publish_owns_position_first :
    (((run step (init : State 1024 ℕ Unit Unit) publishOne).get rfl).ring.slot 0).payload = 10 := by
  have hfresh : Meets step Fresh (init : State 1024 ℕ Unit Unit) publishOne := by
    refine .cons trivial rfl (.cons ?_ rfl (.cons ?_ rfl (.cons ?_ rfl (.cons ?_ rfl (.cons ?_ rfl
      (.cons ?_ rfl (.cons ?_ rfl trivial))))))) <;> rintro _ _ _ ⟨⟩
    -- The reservation, at position `0` of an empty ring.
    exact fun _ => rfl
  have h := (publish_owns_position (.of_run .init hfresh (Option.some_get rfl).symm)).2.1
    ⟨0, 10, true⟩ (by decide)
  exact (h.2 (by decide)).2.2

/-- A producer reads both heads and is delayed; another publishes position `0`,
    which is drained and released; then the first one goes on. -/
def delayedProducer : List (Action ℕ Bool Unit) :=
  [.call false 10, .produce false 0, .produce false 0, .call true 11] ++
    List.replicate 7 (.produce true 0) ++ [.collect () 1, .release ()] ++
    List.replicate 5 (.produce false 0)

/-- The delayed producer is told `OK`, though its last compare-and-swap failed. -/
theorem stale_publish_acks :
    ¬∀ s : State 1024 ℕ Bool Unit, Reachable step (fun _ _ => True) init s →
      ∀ a ∈ s.acks, a.advanced = true := by
  intro h
  have hrun : Reachable step (fun _ _ => True) (init : State 1024 ℕ Bool Unit)
      ((run step init delayedProducer).get rfl) :=
    .of_run .init (by simp [delayedProducer, Meets]) (Option.some_get _).symm
  exact absurd (h _ hrun ⟨0, 10, false⟩ (by decide)) (by decide)

end Ring.Publish

end PgRedis
