import PgRedis.Ring
import PgRedis.Lib.Run

/-!
# Drains beside publishes and `FLUSHALL`

Any number of drainers `δ` run beside producers and beside
`pg_redis_dirty_ring_drop_all_pending` (the ring part of `FLUSHALL`). A drainer
collects a batch under the consumer lock, gives the lock up while it persists
the batch, and comes back with the base and the length it collected to release
or abort it.

Nothing stops a drop from running in that gap, and then the drainer comes back
with a base that `read_head` has left behind: `releaseBatch` sets `read_head`
back to the end of the old batch (`readHead_decreases`). As long as no release
or abort comes back to a moved `read_head` (`Undisturbed`), the ring stays
well formed, its read head only moves forward, and a release or abort only
touches the slots of its own batch (`wellFormed_of_undisturbed`).
-/

namespace PgRedis.Ring.Drain

open Lib

/-- A collected batch: the base position and the events copied. -/
structure Batch (ε : Type*) where
  base : ℕ
  events : List ε
  deriving DecidableEq, Repr

/-- The number of events of a batch. -/
def Batch.size {ε : Type*} (b : Batch ε) : ℕ := b.events.length

/-- The ring, the batch each drainer holds, and the log of what was published. -/
structure State (cap : ℕ) (ε δ : Type*) where
  ring : Ring cap ε
  batch : δ → Option (Batch ε)
  published : List ε

/-- The steps: each is one locked section, or one uninterrupted publish. -/
inductive Action (ε δ : Type*)
  | publish (now : ℤ) (ev : ε)
  | collect (d : δ) (max : ℕ)
  | release (d : δ)
  | abort (d : δ)
  | dropAll

variable {cap : ℕ} {ε δ : Type*}

/-- The state of a fresh ring with no drain in flight. -/
def init [Inhabited ε] : State cap ε δ := ⟨Ring.init, fun _ => none, []⟩

/-- The log after a publish attempt of `ev`. -/
def record (log : List ε) (ev : ε) : PublishResult → List ε
  | .ok => log ++ [ev]
  | .full => log

/-- A collect: the drainer keeps the batch unless it is empty, in which case
    `pg_redis_persistence_async_drain` returns at once. -/
def collect [DecidableEq δ] (d : δ) (max : ℕ) (s : State cap ε δ) : State cap ε δ :=
  { s with
    ring := (s.ring.collect max).2
    batch := if (s.ring.collect max).1 = [] then s.batch
      else Function.update s.batch d (some ⟨s.ring.readHead, (s.ring.collect max).1⟩) }

/-- One step. A drainer collects when it holds no batch, and releases or aborts
    the batch it holds. -/
def step [DecidableEq δ] (s : State cap ε δ) : Action ε δ → Option (State cap ε δ)
  | .publish now ev => (s.ring.publish now ev).map fun res =>
      { s with ring := res.1, published := record s.published ev res.2 }
  | .collect d max => if s.batch d = none then some (collect d max s) else none
  | .release d => (s.batch d).map fun b =>
      { s with ring := s.ring.releaseBatch b.base b.size, batch := Function.update s.batch d none }
  | .abort d => (s.batch d).map fun b =>
      { s with ring := s.ring.abortBatch b.base b.size, batch := Function.update s.batch d none }
  | .dropAll => some { s with ring := s.ring.dropAllPending }

/-- No release or abort comes back to a moved `read_head`: the assertion of
    `pg_redis_dirty_ring_release_batch`, asked of the abort too. -/
def Undisturbed (s : State cap ε δ) : Action ε δ → Prop
  | .release d | .abort d => ∀ b, s.batch d = some b → b.base = s.ring.readHead
  | _ => True

/-- The ring is well formed: the heads are in order, the positions between them
    are `READY` or `DRAINING`, and every other slot is `EMPTY` or `WRITING`. -/
structure WellFormed (r : Ring cap ε) : Prop where
  le : r.readHead ≤ r.writeHead
  fit : r.writeHead ≤ r.readHead + cap
  live : ∀ p, r.readHead ≤ p → p < r.writeHead → (r.slot p).Live
  outside : ∀ i < cap, (∀ p, r.readHead ≤ p → p < r.writeHead → p % cap ≠ i) →
    (r.slots.cell i).state = .empty ∨ (r.slots.cell i).state = .writing

theorem wellFormed_of_holds {r : Ring cap ε} {log : List ε} (h : r.Holds log) : WellFormed r where
  le := h.le
  fit := h.fit
  live := h.live
  outside i hi hout := by
    obtain ⟨p, hr, hc, rfl⟩ := exists_mem_window (by omega) r.readHead i hi
    have hw : r.writeHead ≤ p := by
      by_contra hlt
      exact hout p hr (by omega) rfl
    exact .inl (h.free p hw hc)

/-- The batch `b` is in flight: it is the `DRAINING` run of slots at `read_head`. -/
structure InFlight (r : Ring cap ε) (b : Batch ε) : Prop where
  base : b.base = r.readHead
  le : r.readHead + b.size ≤ r.writeHead
  draining : ∀ i < b.size, (r.slot (r.readHead + i)).state = .draining
  payload : ∀ i (hi : i < b.size), (r.slot (r.readHead + i)).payload = b.events[i]

section

variable {r : Ring cap ε} {log : List ε} {b : Batch ε}

/-- The slots after flipping the first `n` pending ones to `st`. -/
theorem slot_flip (h : r.Holds log) (st : SlotState) {n p : ℕ}
    (hn : r.readHead + n ≤ r.writeHead) (hp : r.readHead ≤ p) (hw : p < r.writeHead) :
    (Cyclic.modifyRange (Slot.setState st) r.readHead n r.slots).get p =
      if p < r.readHead + n then (r.slot p).setState st else r.slot p := by
  have hfit := h.fit
  exact Cyclic.get_modifyRange _ hp (by omega) (by omega)

theorem InFlight.append (hf : InFlight r b) (now : ℤ) (ev : ε)
    (hroom : r.writeHead < r.readHead + cap) : InFlight (r.append now ev) b := by
  have hle := hf.le
  have hslot : ∀ i < b.size, (r.append now ev).slot (r.readHead + i) = r.slot (r.readHead + i) :=
    fun i hi => slot_append_of_ne now ev (by omega) (by omega) (by omega)
  exact ⟨hf.base, Nat.le_succ_of_le hle,
    fun i hi => (congrArg Slot.state (hslot i hi)).trans (hf.draining i hi),
    fun i hi => (congrArg Slot.payload (hslot i hi)).trans (hf.payload i hi)⟩

/-- No batch is in flight when the slot at `read_head` is `READY`. -/
theorem InFlight.not_ready (hf : InFlight r b) (hpos : 0 < b.size) :
    (r.slot r.readHead).state ≠ .ready := by
  have hd : (r.slot r.readHead).state = .draining := hf.draining 0 hpos
  rw [hd]
  decide

/-- A collect takes nothing and changes nothing, or finds the slot at `read_head`
    `READY` and puts the next events of the log in flight. -/
theorem collect_cases (h : r.Holds log) (max : ℕ) :
    ((r.collect max).1 = [] ∧ (r.collect max).2 = r) ∨
      (0 < (r.collect max).1.length ∧ (r.slot r.readHead).state = .ready ∧
        (r.collect max).2.Holds log ∧
        InFlight (r.collect max).2 ⟨r.readHead, (r.collect max).1⟩) := by
  obtain ⟨n, -, hn, hevs, hlen, hring, hready, -⟩ := collect_spec h max
  have hw := h.write
  rcases Nat.eq_zero_or_pos n with rfl | hpos
  · exact .inl ⟨List.length_eq_zero_iff.1 hlen, by rw [hring]; rfl⟩
  refine .inr ⟨hlen ▸ hpos, hready 0 hpos, hring ▸ h.flip (.inr rfl) hn, ?_⟩
  have hslot : ∀ i < n, (r.collect max).2.slot (r.readHead + i) =
      (r.slot (r.readHead + i)).setState .draining := fun i hi => by
    rw [hring]
    exact (slot_flip h .draining hn (by omega) (by omega)).trans (if_pos (by omega))
  have hread : (r.collect max).2.readHead = r.readHead := by rw [hring]
  refine ⟨hread.symm, ?_, fun i hi => ?_, fun i hi => ?_⟩
  · rw [Batch.size, hlen, hring]
    exact hn
  · rw [Batch.size, hlen] at hi
    rw [hread, hslot i hi, Slot.setState_state]
  · have hi' : i < n := by rw [Batch.size, hlen] at hi; exact hi
    simp only [hread, hslot i hi', hevs]
    rw [Slot.setState_payload, h.stored _ (by omega) (by omega)]
    simp

end

/-- The invariant of the drains. A batch whose base `read_head` has left behind
    (by a drop) owns nothing any more; any other is in flight, and every
    `DRAINING` slot belongs to it. -/
structure Inv (s : State cap ε δ) : Prop where
  holds : s.ring.Holds s.published
  pos : ∀ d b, s.batch d = some b → 0 < b.size
  past : ∀ d b, s.batch d = some b → b.base ≤ s.ring.readHead
  flight : ∀ d b, s.batch d = some b → b.base = s.ring.readHead → InFlight s.ring b
  unique : ∀ d d' b b', s.batch d = some b → s.batch d' = some b' →
    b.base = s.ring.readHead → b'.base = s.ring.readHead → d = d'
  owned : ∀ p, s.ring.readHead ≤ p → p < s.ring.writeHead → (s.ring.slot p).state = .draining →
    ∃ d b, s.batch d = some b ∧ b.base = s.ring.readHead ∧ p < s.ring.readHead + b.size

theorem inv_init [Inhabited ε] : Inv (init : State cap ε δ) where
  holds := holds_init
  pos _ _ h := absurd h (by simp [init])
  past _ _ h := absurd h (by simp [init])
  flight _ _ h := absurd h (by simp [init])
  unique _ _ _ _ h := absurd h (by simp [init])
  owned _ _ h := absurd h (Nat.not_lt_zero _)

/-! ## Steps -/

variable [DecidableEq δ] {s s' : State cap ε δ}

theorem inv_publish (h : Inv s) (now : ℤ) (ev : ε)
    (hst : step s (.publish now ev) = some s') : Inv s' := by
  rw [step, Option.map_eq_some_iff] at hst
  obtain ⟨res, hres, rfl⟩ := hst
  have hle := h.holds.le
  rcases publish_cases h.holds now ev with ⟨hp, -⟩ | ⟨hp, hroom⟩ <;>
    obtain rfl := Option.some.inj (hp.symm.trans hres)
  · exact ⟨h.holds, h.pos, h.past, h.flight, h.unique, h.owned⟩
  refine ⟨h.holds.append now ev hroom, h.pos, h.past,
    fun d b hb hbase => (h.flight d b hb hbase).append now ev hroom, h.unique,
    fun p hr hw hd => ?_⟩
  have hr : s.ring.readHead ≤ p := hr
  rcases Nat.lt_succ_iff_lt_or_eq.1 hw with hlt | rfl
  · have hslot : (s.ring.append now ev).slot p = s.ring.slot p :=
      slot_append_of_ne now ev (by omega) (by omega) (by omega)
    simp only [hslot] at hd
    exact h.owned p hr hlt hd
  · simp only [slot_append_self, reduceCtorEq] at hd

theorem inv_collect (h : Inv s) (d : δ) (max : ℕ)
    (hst : step s (.collect d max) = some s') : Inv s' := by
  rw [step] at hst
  split_ifs at hst with hnone
  obtain rfl := Option.some.inj hst
  rcases collect_cases h.holds max with ⟨hnil, hring⟩ | ⟨hpos, hready, hholds, hflight⟩
  · have : collect d max s = s := by rw [collect, if_pos hnil, hring]
    rw [this]
    exact h
  -- The slot at `read_head` was `READY`, so no batch held is still in flight.
  have hidle : ∀ d' b, s.batch d' = some b → b.base ≠ s.ring.readHead := fun d' b hb hbase =>
    (h.flight d' b hb hbase).not_ready (h.pos d' b hb) hready
  have hne : (s.ring.collect max).1 ≠ [] := List.length_pos_iff.1 hpos
  -- The batches of the new state: that of `d`, in flight, and the old ones, which are not.
  have hbatch : ∀ d' b, (collect d max s).batch d' = some b →
      (d' = d ∧ b = ⟨s.ring.readHead, (s.ring.collect max).1⟩) ∨
        (s.batch d' = some b ∧ b.base ≠ s.ring.readHead) := by
    intro d' b hb
    simp only [collect, if_neg hne] at hb
    by_cases hd : d' = d
    · subst hd
      rw [Function.update_self] at hb
      exact .inl ⟨rfl, (Option.some.inj hb).symm⟩
    · rw [Function.update_of_ne hd] at hb
      exact .inr ⟨hb, hidle d' b hb⟩
  have hread : (s.ring.collect max).2.readHead = s.ring.readHead := rfl
  constructor
  · exact hholds
  · intro d' b hb
    rcases hbatch d' b hb with ⟨-, rfl⟩ | ⟨hb, -⟩
    · exact hpos
    · exact h.pos d' b hb
  · intro d' b hb
    rcases hbatch d' b hb with ⟨-, rfl⟩ | ⟨hb, -⟩
    · exact hread.ge
    · exact (h.past d' b hb).trans hread.ge
  · intro d' b hb hbase
    rcases hbatch d' b hb with ⟨-, rfl⟩ | ⟨hb, hold⟩
    · exact hflight
    · exact absurd (hbase.trans hread) hold
  · intro d₁ d₂ b₁ b₂ h₁ h₂ hb₁ hb₂
    rcases hbatch d₁ b₁ h₁ with ⟨rfl, -⟩ | ⟨-, hold⟩
    · rcases hbatch d₂ b₂ h₂ with ⟨rfl, -⟩ | ⟨-, hold⟩
      · rfl
      · exact absurd (hb₂.trans hread) hold
    · exact absurd (hb₁.trans hread) hold
  · intro p hr hlt hd
    obtain ⟨n, -, hn, -, hlen, hring, -, -⟩ := collect_spec h.holds max
    have hslot : (s.ring.collect max).2.slot p = if p < s.ring.readHead + n then
        (s.ring.slot p).setState .draining else s.ring.slot p := by
      rw [hring]
      exact slot_flip h.holds .draining hn hr hlt
    simp only [collect, hslot] at hd
    split_ifs at hd with hp
    · refine ⟨d, ⟨s.ring.readHead, (s.ring.collect max).1⟩, ?_, rfl, ?_⟩
      · simp only [collect, if_neg hne, Function.update_self]
      · rw [Batch.size, hlen]
        exact hp
    · obtain ⟨d', b, hb, hbase, -⟩ := h.owned p hr hlt hd
      exact absurd hbase (hidle d' b hb)

/-- Once a batch in flight is given up, by `d` alone holding one, no batch of
    another drainer is based at the old `read_head`. -/
theorem not_base_of_update (h : Inv s) {d d' : δ} {b b' : Batch ε} (hb : s.batch d = some b)
    (hbase : b.base = s.ring.readHead) (hb' : Function.update s.batch d none d' = some b') :
    s.batch d' = some b' ∧ b'.base < s.ring.readHead := by
  by_cases hd : d' = d
  · subst hd
    rw [Function.update_self] at hb'
    exact absurd hb' (by simp)
  · rw [Function.update_of_ne hd] at hb'
    refine ⟨hb', lt_of_le_of_ne (h.past d' b' hb') fun heq => ?_⟩
    exact hd (h.unique d' d b' b hb' hb heq hbase)

theorem inv_release (h : Inv s) (d : δ) (hok : Undisturbed s (.release d))
    (hst : step s (.release d) = some s') : Inv s' := by
  rw [step, Option.map_eq_some_iff] at hst
  obtain ⟨b, hb, rfl⟩ := hst
  have hbase := hok b hb
  have hf := h.flight d b hb hbase
  have hpos := h.pos d b hb
  have hfit := h.holds.fit
  have hnd := @not_base_of_update _ _ _ _ _ h d
  have hread : (s.ring.releaseBatch b.base b.size).readHead = s.ring.readHead + b.size := by
    rw [Ring.releaseBatch, if_neg (by omega), hbase]
  have hwrite : (s.ring.releaseBatch b.base b.size).writeHead = s.ring.writeHead := by
    rw [Ring.releaseBatch, if_neg (by omega)]
  constructor
  · exact hbase ▸ h.holds.release hf.le
  · exact fun d' b' hb' => h.pos d' b' (hnd hb hbase hb').1
  · intro d' b' hb'
    have := (hnd hb hbase hb').2
    simp only [hread]
    omega
  · intro d' b' hb' hbase'
    have := (hnd hb hbase hb').2
    simp only [hread] at hbase'
    omega
  · intro d₁ d₂ b₁ b₂ h₁ _ hb₁ _
    have := (hnd hb hbase h₁).2
    simp only [hread] at hb₁
    omega
  · intro p hr hlt hd
    simp only [hread, hwrite] at hr hlt
    have hslot : (s.ring.releaseBatch b.base b.size).slot p = s.ring.slot p := by
      rw [Ring.releaseBatch, if_neg (by omega), hbase]
      exact Cyclic.get_modifyRange_of_not_mem _ _ (by omega) (by omega) (by omega)
    simp only [hslot] at hd
    -- A `DRAINING` slot beyond the batch would belong to a second batch in flight.
    obtain ⟨d', b', hb', hbase', hp⟩ := h.owned p (by omega) hlt hd
    obtain rfl := h.unique d' d b' b hb' hb hbase' hbase
    obtain rfl := Option.some.inj (hb.symm.trans hb')
    omega

theorem inv_abort (h : Inv s) (d : δ) (hok : Undisturbed s (.abort d))
    (hst : step s (.abort d) = some s') : Inv s' := by
  rw [step, Option.map_eq_some_iff] at hst
  obtain ⟨b, hb, rfl⟩ := hst
  have hbase := hok b hb
  have hf := h.flight d b hb hbase
  have hnd := @not_base_of_update _ _ _ _ _ h d
  have hslot : ∀ p, s.ring.readHead ≤ p → p < s.ring.writeHead →
      (s.ring.abortBatch b.base b.size).slot p =
        if p < s.ring.readHead + b.size then (s.ring.slot p).setState .ready
        else s.ring.slot p := by
    intro p hr hw
    rw [Ring.abortBatch, hbase]
    exact slot_flip h.holds .ready hf.le hr hw
  constructor
  · rw [Ring.abortBatch, hbase]
    exact h.holds.flip (.inl rfl) hf.le
  · exact fun d' b' hb' => h.pos d' b' (hnd hb hbase hb').1
  · exact fun d' b' hb' => (hnd hb hbase hb').2.le
  · -- Its batch given up, nobody has one at `read_head`.
    exact fun d' b' hb' hbase' => absurd hbase' (hnd hb hbase hb').2.ne
  · exact fun d₁ _ b₁ _ h₁ _ hb₁ _ => absurd hb₁ (hnd hb hbase h₁).2.ne
  · intro p hr hlt hd
    have hr : s.ring.readHead ≤ p := hr
    have hlt : p < s.ring.writeHead := hlt
    simp only [hslot p hr hlt] at hd
    split_ifs at hd with hp
    · simp at hd
    · obtain ⟨d', b', hb', hbase', hp'⟩ := h.owned p hr hlt hd
      obtain rfl := h.unique d' d b' b hb' hb hbase' hbase
      obtain rfl := Option.some.inj (hb.symm.trans hb')
      exact absurd hp' hp

theorem inv_dropAll (h : Inv s) (hst : step s .dropAll = some s') : Inv s' := by
  obtain rfl := Option.some.inj hst
  have hle := h.holds.le
  have hread : s.ring.dropAllPending.readHead = s.ring.writeHead := by
    rw [dropAllPending_eq h.holds, Ring.releaseBatch]
    split_ifs with hz
    · omega
    · exact Nat.add_sub_cancel' hle
  have hwrite : s.ring.dropAllPending.writeHead = s.ring.writeHead := by
    rw [dropAllPending_eq h.holds, Ring.releaseBatch]
    split_ifs <;> rfl
  -- Every batch is left behind: one in flight had its events before `write_head`.
  have hleft : ∀ d b, s.batch d = some b → b.base < s.ring.writeHead := fun d b hb => by
    have hpos := h.pos d b hb
    rcases Nat.eq_or_lt_of_le (h.past d b hb) with heq | hlt
    · have := (h.flight d b hb heq).le
      omega
    · omega
  constructor
  · rw [dropAllPending_eq h.holds]
    exact h.holds.release (by omega)
  · exact h.pos
  · intro d b hb
    simp only [hread]
    exact (hleft d b hb).le
  · intro d b hb hbase
    simp only [hread] at hbase
    exact absurd hbase (hleft d b hb).ne
  · intro d₁ _ b₁ _ h₁ _ hb₁ _
    simp only [hread] at hb₁
    exact absurd hb₁ (hleft d₁ b₁ h₁).ne
  · intro p hr hlt
    simp only [hread, hwrite] at hr hlt
    omega

/-- Every undisturbed step keeps the invariant. -/
theorem inv_step (s : State cap ε δ) (a : Action ε δ) (s' : State cap ε δ) (h : Inv s)
    (hok : Undisturbed s a) (hst : step s a = some s') : Inv s' := by
  cases a with
  | publish now ev => exact inv_publish h now ev hst
  | collect d max => exact inv_collect h d max hst
  | release d => exact inv_release h d hok hst
  | abort d => exact inv_abort h d hok hst
  | dropAll => exact inv_dropAll h hst

/-! ## Runs -/

/-- In every run of undisturbed steps the invariant holds. -/
theorem inv_of_reachable [Inhabited ε] (h : Reachable step Undisturbed init s) : Inv s :=
  h.invariant inv_init inv_step

/-- An undisturbed step never moves `read_head` back. -/
theorem readHead_mono (h : Inv s) {a : Action ε δ} (hok : Undisturbed s a)
    (hst : step s a = some s') : s.ring.readHead ≤ s'.ring.readHead := by
  -- The heads move by a publish, a release and a drop; only a release might move `read_head`
  -- back, to the base of an old batch.
  cases a with
  | publish now ev =>
    rw [step, Option.map_eq_some_iff] at hst
    obtain ⟨res, hres, rfl⟩ := hst
    rcases publish_cases h.holds now ev with ⟨hp, -⟩ | ⟨hp, -⟩ <;>
      obtain rfl := Option.some.inj (hp.symm.trans hres) <;> exact le_rfl
  | collect d max =>
    rw [step] at hst
    split_ifs at hst
    obtain rfl := Option.some.inj hst
    exact le_rfl
  | release d =>
    rw [step, Option.map_eq_some_iff] at hst
    obtain ⟨b, hb, rfl⟩ := hst
    rw [Ring.releaseBatch]
    split_ifs
    · exact le_rfl
    · exact (hok b hb).ge.trans (Nat.le_add_right _ _)
  | abort d =>
    rw [step, Option.map_eq_some_iff] at hst
    obtain ⟨b, -, rfl⟩ := hst
    exact le_rfl
  | dropAll =>
    obtain rfl := Option.some.inj hst
    rw [dropAllPending_eq h.holds, Ring.releaseBatch]
    split_ifs
    · exact le_rfl
    · exact Nat.le_add_right _ _

omit [DecidableEq δ] in
/-- A drain that finds pending events collects some, unless a batch in flight
    holds the head of the ring; and the release of that batch moves
    `read_head`. -/
theorem progress (h : Inv s) {max : ℕ} (hmax : 0 < max)
    (hpending : s.ring.readHead < s.ring.writeHead) :
    (s.ring.collect max).1 ≠ [] ∨ ∃ d b, s.batch d = some b ∧ InFlight s.ring b ∧
      s.ring.readHead < (s.ring.releaseBatch b.base b.size).readHead := by
  obtain ⟨n, -, -, -, hlen, -, -, hstop⟩ := collect_spec h.holds max
  rcases Nat.eq_zero_or_pos n with rfl | hpos
  · -- Nothing collected: the head slot is live but not `READY`, hence `DRAINING`.
    have hdr : (s.ring.slot s.ring.readHead).state = .draining := by
      rcases h.holds.live _ le_rfl hpending with hr | hd
      · rcases hstop with h₀ | h₀ | h₀
        · omega
        · omega
        · exact absurd hr h₀
      · exact hd
    obtain ⟨d, b, hb, hbase, -⟩ := h.owned _ le_rfl hpending hdr
    refine .inr ⟨d, b, hb, h.flight d b hb hbase, ?_⟩
    have hsize := h.pos d b hb
    rw [Ring.releaseBatch, if_neg (by omega), hbase]
    exact Nat.lt_add_of_pos_right hsize
  · refine .inl fun hnil => ?_
    rw [hnil] at hlen
    exact absurd hlen (by simp; omega)

/-- In every run in which no release or abort comes back to a moved `read_head`:
    the ring is well formed in every state, no step moves `read_head` back, a
    release or abort only touches slots of its own batch, still `DRAINING` and
    still holding the events it collected, exactly when it is undisturbed, and a
    drain that finds pending events makes progress. -/
theorem wellFormed_of_undisturbed [Inhabited ε] (h : Reachable step Undisturbed init s) :
    WellFormed s.ring ∧
      (∀ a s', Undisturbed s a → step s a = some s' → s.ring.readHead ≤ s'.ring.readHead) ∧
      (∀ d b, s.batch d = some b → (InFlight s.ring b ↔ Undisturbed s (.release d)) ∧
        (InFlight s.ring b ↔ Undisturbed s (.abort d))) ∧
      (∀ max, 0 < max → s.ring.readHead < s.ring.writeHead →
        (s.ring.collect max).1 ≠ [] ∨ ∃ d b, s.batch d = some b ∧ InFlight s.ring b ∧
          s.ring.readHead < (s.ring.releaseBatch b.base b.size).readHead) := by
  have hinv := inv_of_reachable h
  have hown : ∀ d b, s.batch d = some b → (InFlight s.ring b ↔
      ∀ b', s.batch d = some b' → b'.base = s.ring.readHead) := fun d b hb =>
    ⟨fun hf b' hb' => Option.some.inj (hb.symm.trans hb') ▸ hf.base,
      fun hok => hinv.flight d b hb (hok b hb)⟩
  exact ⟨wellFormed_of_holds hinv.holds, fun a s' hok hst => readHead_mono hinv hok hst,
    fun d b hb => ⟨hown d b hb, hown d b hb⟩, fun max hmax hp => progress hinv hmax hp⟩

/-- An event published, collected and released. -/
theorem wellFormed_of_released :
    WellFormed ((run step (init : State 1024 ℕ Unit)
      [.publish 0 10, .collect () 1, .release ()]).get rfl).ring :=
  (wellFormed_of_undisturbed (.step (a := .release ())
    (.step (a := .collect () 1) (.step (a := .publish 0 10) .init trivial rfl) trivial rfl)
    (fun _ hb => Option.some.inj hb ▸ rfl) rfl)).1

/-- Two events are published and collected, a third is published, `FLUSHALL`
    drops all three, and the drainer comes back to release its two. -/
def flushallInGap : List (Action ℕ Unit) :=
  [.publish 0 10, .publish 0 11, .collect () 2, .publish 0 12, .dropAll]

/-- With a drop between collect and release, the release moves `read_head` back. -/
theorem readHead_decreases :
    ¬∀ (s s' : State 1024 ℕ Unit) (a : Action ℕ Unit),
      Reachable step (fun _ _ => True) init s → step s a = some s' →
        s.ring.readHead ≤ s'.ring.readHead := by
  intro h
  have hrun : Reachable step (fun _ _ => True) (init : State 1024 ℕ Unit)
      ((run step init flushallInGap).get rfl) :=
    Reachable.of_run .init (by simp [flushallInGap, Meets]) (Option.some_get _).symm
  exact absurd (h _ _ (.release ()) hrun rfl) (by decide)

end PgRedis.Ring.Drain
