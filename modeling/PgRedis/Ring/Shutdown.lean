import PgRedis.Durable.Batch
import PgRedis.Ring

/-!
# The drain at shutdown

When the background worker is told to stop, it drains the ring once more before it exits. One
drain takes a single batch of at most `ASYNC_DRAIN_BATCH_MAX` events, whereas the ring may hold
many more; and it takes none when persistence is off. So the events pending at the end all
reach the tables if and only if they fit one batch (`finalDrain_complete_iff`).
-/

namespace PgRedis

open Lib

/-- `ASYNC_DRAIN_BATCH_MAX`. -/
def asyncDrainBatchMax : ℕ := 1024

/-- The bound of a batch in `pg_redis_persistence_async_drain`. -/
def batchMax (maxEvents : ℤ) : ℕ :=
  let bound := if maxEvents > 0 then maxEvents.toNat else asyncDrainBatchMax
  if bound > asyncDrainBatchMax then asyncDrainBatchMax else bound

namespace Ring

variable {cap : ℕ}

/-- `pg_redis_dirty_ring_pending`. -/
def pending {ε : Type*} (r : Ring cap ε) : ℕ :=
  if r.writeHead > r.readHead then r.writeHead - r.readHead else 0

/-- `pg_redis_persistence_async_drain`, with nobody else at the ring: the ring, and the number of
    events drained with the tables, or the error of a statement. `enabled` is
    `persistence_writes_enabled`. -/
def drain (enabled : Bool) (maxEvents : ℤ) (r : Ring cap DirtyEvent) (D : Tables) :
    Ring cap DirtyEvent × Except SqlError (ℕ × Tables) :=
  if !enabled then (r, .ok (0, D))
  else match r.collect (batchMax maxEvents) with
    | ([], r') => (r', .ok (0, D))
    | (events, r') => match asyncDrain events D with
      | .error err => (r'.abortBatch r.readHead events.length, .error err)
      | .ok D' => (r'.releaseBatch r.readHead events.length, .ok (events.length, D'))

/-- The end of `pg_redis_bgworker_main`: a last drain, whose error is reported and forgotten. -/
def finalDrain (enabled : Bool) (r : Ring cap DirtyEvent) (D : Tables) :
    Ring cap DirtyEvent × Tables :=
  if r.pending > 0 then
    match r.drain enabled 0 D with
    | (r', .error _) => (r', D)
    | (r', .ok (_, D')) => (r', D')
  else (r, D)

/-! ## Nobody else at the ring -/

/-- No producer and no drainer is at work: the slots between the heads are `READY`. -/
structure Quiet {ε : Type*} (r : Ring cap ε) : Prop where
  le : r.readHead ≤ r.writeHead
  fit : r.writeHead ≤ r.readHead + cap
  ready : ∀ p, r.readHead ≤ p → p < r.writeHead → (r.slot p).state = .ready

/-- The pending events, in order. -/
def events {ε : Type*} (r : Ring cap ε) : List ε :=
  (List.range r.pending).map fun i => (r.slot (r.readHead + i)).payload

section

variable {ε : Type*} {r : Ring cap ε}

@[simp] theorem length_events : r.events.length = r.pending := by
  rw [events, List.length_map, List.length_range]

theorem Quiet.pending (hq : r.Quiet) : r.pending = r.writeHead - r.readHead := by
  have hle := hq.le
  rw [Ring.pending]
  split_ifs <;> omega

/-- A collect takes the first pending events, as many as it is allowed to. -/
theorem Quiet.collect (hq : r.Quiet) (max : ℕ) : r.collect max = (r.events.take max,
    { r with slots :=
      Cyclic.modifyRange (Slot.setState .draining) r.readHead (min max r.pending) r.slots }) := by
  have hle := hq.le
  have hpending := hq.pending
  obtain ⟨n, hn, hw, heq, -, hstop⟩ := collect_run hq.le hq.fit max
  -- No slot but a `READY` one is met, so the batch is full or the ring exhausted.
  have hmin : n = min max r.pending := by
    rcases hstop with rfl | h | h
    · omega
    · omega
    · by_contra hne
      exact h (hq.ready (r.readHead + n) (by omega) (by omega))
  rw [heq, ← hmin, events, ← List.map_take, List.take_range, ← hmin]

end

variable {r : Ring cap DirtyEvent} {D D₁ : Tables} {enabled : Bool}

@[simp] theorem batchMax_zero : batchMax 0 = asyncDrainBatchMax := rfl

/-- The last drain persists the first batch and moves `read_head` past it. -/
theorem finalDrain_of_pending (hq : r.Quiet) (hpos : 0 < r.pending)
    (hpersist : asyncDrain (r.events.take asyncDrainBatchMax) D = .ok D₁) :
    (r.finalDrain true D).1.readHead = r.readHead + min asyncDrainBatchMax r.pending ∧
      (r.finalDrain true D).1.writeHead = r.writeHead ∧ (r.finalDrain true D).2 = D₁ := by
  have hlen : (r.events.take asyncDrainBatchMax).length = min asyncDrainBatchMax r.pending := by
    rw [List.length_take, length_events]
  obtain ⟨ev, evs, hevs⟩ : ∃ ev evs, r.events.take asyncDrainBatchMax = ev :: evs := by
    refine List.exists_cons_of_ne_nil (List.ne_nil_of_length_pos ?_)
    rw [hlen]
    exact Nat.lt_min.2 ⟨by decide, hpos⟩
  rw [hevs] at hpersist hlen
  have hdrain : r.drain true 0 D = ((r.collect asyncDrainBatchMax).2.releaseBatch r.readHead
      (ev :: evs).length, .ok ((ev :: evs).length, D₁)) := by
    rw [drain, batchMax_zero, hq.collect, hevs]
    simp only [Bool.not_true, Bool.false_eq_true, if_false, hpersist]
  rw [finalDrain, if_pos hpos, hdrain, ← hlen]
  exact ⟨rfl, by rw [hq.collect]; rfl, rfl⟩

theorem finalDrain_of_disabled (hoff : r.pending = 0 ∨ enabled = false) :
    r.finalDrain enabled D = (r, D) := by
  rw [finalDrain]
  split_ifs with hpos
  · rw [hoff.resolve_left (Nat.ne_of_gt hpos)]
    rfl
  · rfl

theorem asyncDrain_nil (D : Tables) : asyncDrain [] D = .ok D :=
  executePlans_eq_ok_iff.2 ⟨⟨by simp [dispatch], by simp [dispatch], by simp [dispatch],
    by simp [dispatch]⟩, ⟨fun k => by simp [dispatch, PlanArgs.storeAfter],
      fun k f => by simp [dispatch], fun k o => by simp [dispatch]⟩⟩

/-- The last drain leaves nothing pending, everything having been persisted, if and only if
    nothing was pending, or persistence is on and what was pending fits one batch. -/
theorem finalDrain_complete_iff (hq : r.Quiet)
    (hpersist : asyncDrain (r.events.take asyncDrainBatchMax) D = .ok D₁) :
    ((r.finalDrain enabled D).1.readHead = (r.finalDrain enabled D).1.writeHead ∧
        asyncDrain r.events D = .ok (r.finalDrain enabled D).2) ↔
      r.pending = 0 ∨ enabled = true ∧ r.pending ≤ asyncDrainBatchMax := by
  have hle := hq.le
  have hpending := hq.pending
  rcases Nat.eq_zero_or_pos r.pending with hzero | hpos
  · rw [finalDrain_of_disabled (.inl hzero)]
    refine iff_of_true ⟨?_, ?_⟩ (.inl hzero)
    · simp only
      omega
    · rw [events, hzero]
      exact asyncDrain_nil D
  · cases enabled with
    | false =>
      rw [finalDrain_of_disabled (.inr rfl)]
      refine iff_of_false (fun ⟨hheads, _⟩ => ?_) fun h => ?_
      · simp only at hheads
        omega
      · exact h.elim (Nat.ne_of_gt hpos) fun h => Bool.false_ne_true h.1
    | true =>
      obtain ⟨hread, hwrite, htables⟩ := finalDrain_of_pending hq hpos hpersist
      -- One batch is drained, of at most `ASYNC_DRAIN_BATCH_MAX` events.
      rw [hread, hwrite, htables]
      constructor
      · rintro ⟨hheads, -⟩
        exact .inr ⟨rfl, by omega⟩
      · intro h
        have hfits := (h.resolve_left (Nat.ne_of_gt hpos)).2
        refine ⟨by omega, ?_⟩
        rwa [List.take_of_length_le (by rwa [length_events])] at hpersist

/-- A full ring of 2048 slots, each holding the deletion of a key. -/
def fullRing : Ring 2048 DirtyEvent := ⟨2048, 0, ⟨fun _ => ⟨.ready, 0, .keyDelete [107], 0⟩⟩⟩

theorem quiet_fullRing : fullRing.Quiet := ⟨by decide, by decide, fun _ _ _ => rfl⟩

/-- Deletions of keys can always be persisted. -/
theorem asyncDrain_keyDeletes {evs : List DirtyEvent} (h : ∀ ev ∈ evs, ∃ k, ev = .keyDelete k)
    (D : Tables) : ∃ D', asyncDrain evs D = .ok D' := by
  have hnil : ∀ {β : Type} (f : DirtyEvent → Option β), (∀ k, f (.keyDelete k) = none) →
      evs.filterMap f = [] := fun f hf => List.filterMap_eq_nil_iff.2 fun ev hev => by
    obtain ⟨k, rfl⟩ := h ev hev
    exact hf k
  have hfields : (dispatch evs).hashFieldUpserts = [] :=
    hnil DirtyEvent.hashFieldUpsert? fun _ => rfl
  have hitems : (dispatch evs).listItemInserts = [] := hnil DirtyEvent.listItemInsert? fun _ => rfl
  exact exists_executePlans ⟨by simp [hfields], by simp [hitems], by simp [hitems],
    by simp [hitems]⟩

theorem keyDelete_of_mem_fullRing {ev : DirtyEvent} (h : ev ∈ fullRing.events) :
    ∃ k, ev = .keyDelete k := by
  obtain ⟨i, -, rfl⟩ := List.mem_map.1 h
  exact ⟨[107], rfl⟩

/-- The last drain of the full ring. -/
theorem finalDrain_complete_fullRing :
    ((fullRing.finalDrain true Tables.empty).1.readHead =
        (fullRing.finalDrain true Tables.empty).1.writeHead ∧
      asyncDrain fullRing.events Tables.empty = .ok (fullRing.finalDrain true Tables.empty).2) ↔
      fullRing.pending = 0 ∨ true = true ∧ fullRing.pending ≤ asyncDrainBatchMax := by
  obtain ⟨D₁, hD₁⟩ := asyncDrain_keyDeletes
    (fun ev hev => keyDelete_of_mem_fullRing (List.mem_of_mem_take hev)) Tables.empty
  exact finalDrain_complete_iff quiet_fullRing hD₁

/-- The worker exits with half of the events of the full ring still pending. -/
theorem finalDrain_leaves_pending :
    ¬∀ (cap : ℕ) (r : Ring cap DirtyEvent) (D : Tables), 1024 ≤ cap → cap ≤ 1048576 → r.Quiet →
      (∀ evs D', (∀ ev ∈ evs, ev ∈ r.events) → ∃ D'', asyncDrain evs D' = .ok D'') →
      (r.finalDrain true D).1.readHead = (r.finalDrain true D).1.writeHead ∧
        asyncDrain r.events D = .ok (r.finalDrain true D).2 := by
  intro h
  have hpersist : ∀ evs D', (∀ ev ∈ evs, ev ∈ fullRing.events) →
      ∃ D'', asyncDrain evs D' = .ok D'' := fun evs D' hevs =>
    asyncDrain_keyDeletes (fun ev hev => keyDelete_of_mem_fullRing (hevs ev hev)) D'
  obtain ⟨D₁, hD₁⟩ := hpersist _ Tables.empty fun ev hev => List.mem_of_mem_take hev
  obtain ⟨hread, hwrite, -⟩ := finalDrain_of_pending quiet_fullRing (by decide) hD₁
  have hheads := (h 2048 fullRing Tables.empty (by decide) (by decide) quiet_fullRing hpersist).1
  rw [hread, hwrite] at hheads
  exact absurd hheads (by decide)

end Ring

end PgRedis
