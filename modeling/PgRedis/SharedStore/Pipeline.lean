import PgRedis.Lib.Run
import PgRedis.Ring.Calm
import PgRedis.SharedStore.Converge

/-!
# From the shared keyspace through the ring to the tables

Shared mode under `async_table`, end to end: the commands of one backend change the shared
keyspace and publish their events into the ring; drains, of the background worker or of
producers, take batches of any size out of it at any time and write them to the tables.

What is still in the ring, applied to the tables one event at a time, always gives the rows
of the keyspace (`Pipeline.Follows`), so that they hold what the keyspace holds whenever the
ring is empty (`Pipeline.tables_follow`). Asked of the run is that the commands publish what
they do (`Mirror.Kept`) and that the order of the statements agrees with the order of the
events in every batch (`BatchSafe`). How the batches are cut is of no matter otherwise, nor
how many drains are refused.
-/

namespace PgRedis

open Lib

namespace Ring

variable {cap : ℕ}

/-- The events of a command published one after the other; `none` if the ring has no room. -/
def publishEach (now : ℤ) : List DirtyEvent → Ring cap DirtyEvent → Option (Ring cap DirtyEvent)
  | [], r => some r
  | ev :: evs, r =>
    match r.publish now ev with
    | some (r', .ok) => publishEach now evs r'
    | _ => none

/-- Published events come behind those that are pending. -/
theorem Calm.publishEach {now : ℤ} {evs : List DirtyEvent} {r r' : Ring cap DirtyEvent}
    (h : r.Calm) (hpub : r.publishEach now evs = some r') :
    r'.Calm ∧ r'.events = r.events ++ evs := by
  induction evs generalizing r with
  | nil =>
    obtain rfl := Option.some.inj hpub
    exact ⟨h, (List.append_nil _).symm⟩
  | cons ev evs ih =>
    rw [Ring.publishEach] at hpub
    rcases h.publish_cases now ev with ⟨hfull, -⟩ | ⟨hok, hroom⟩
    · rw [hfull] at hpub
      exact absurd hpub (by simp)
    · rw [hok] at hpub
      obtain ⟨hcalm, hevents⟩ := ih (h.append now ev hroom) hpub
      rw [h.events_append now ev hroom, List.append_assoc] at hevents
      exact ⟨hcalm, hevents⟩

end Ring

/-- The shared keyspace, the ring and the tables. -/
structure Pipeline (cap : ℕ) where
  store : SharedStore
  ring : Ring cap DirtyEvent
  tables : Tables

namespace Pipeline

inductive Action
  | call (c : Call)
  | drain (enabled : Bool) (maxEvents : ℤ)

variable {cap : ℕ} (hashBytes : Bytes → UInt32)

/-- A command, when the ring has room for its events, or a drain. -/
def step (s : Pipeline cap) : Action → Option (Pipeline cap)
  | .call c =>
    let res := s.store.exec hashBytes enough c.lim c.now c.now' c.cmd
    (s.ring.publishEach c.now res.2.1).map fun r => { s with store := res.1, ring := r }
  | .drain enabled maxEvents =>
    let res := s.ring.drain enabled maxEvents s.tables
    some { s with
      ring := res.1
      tables := match res.2 with
        | .ok x => x.2
        | .error _ => s.tables }

/-- The command publishes what it does; the batch may be written by kind. -/
def Guard (s : Pipeline cap) : Action → Prop
  | .call c => c.cmd.Considered ∧ Mirror.Kept hashBytes ⟨s.store, .ok s.tables⟩ c
  | .drain _ maxEvents => BatchSafe s.tables (s.ring.events.take (batchMax maxEvents))

/-- The tables as they are to become: with all that is in the ring applied to them. -/
def ahead (s : Pipeline cap) : Mirror := ⟨s.store, replay s.ring.events s.tables⟩

/-- The ring is between two operations, and the tables will hold what the keyspace holds. -/
structure Follows (s : Pipeline cap) : Prop where
  calm : s.ring.Calm
  agrees : s.ahead.Agrees hashBytes

variable {hashBytes} {s s' : Pipeline cap}

/-- What a command does that finds room: it leaves the tables alone. -/
theorem step_call (hr : s.ring.Calm) {c : Call} (hst : s.step hashBytes (.call c) = some s') :
    let res := s.store.exec hashBytes enough c.lim c.now c.now' c.cmd
    s'.store = res.1 ∧ s'.tables = s.tables ∧ s'.ring.Calm ∧
      s'.ring.events = s.ring.events ++ res.2.1 := by
  obtain ⟨r, hpub, rfl⟩ := Option.map_eq_some_iff.1 hst
  exact ⟨rfl, rfl, hr.publishEach hpub⟩

theorem Follows.call (h : s.Follows hashBytes) {c : Call} (hc : c.cmd.Considered)
    (hkept : Mirror.Kept hashBytes ⟨s.store, .ok s.tables⟩ c)
    (hst : s.step hashBytes (.call c) = some s') : s'.Follows hashBytes := by
  obtain ⟨hstore, htables, hcalm, hevents⟩ := step_call h.calm hst
  have hnext : (s.ahead.call hashBytes c).Agrees hashBytes := (h.agrees.call_iff hc).2 hkept
  refine ⟨hcalm, ?_⟩
  rw [ahead, hevents, hstore, htables, replay_append]
  exact hnext

/-- A batch that is safe takes the tables to where its events would, so that the rest of the
    events lead to the same rows as before. -/
theorem Follows.drain (h : s.Follows hashBytes) {enabled : Bool} {maxEvents : ℤ}
    (hsafe : BatchSafe s.tables (s.ring.events.take (batchMax maxEvents)))
    (hst : s.step hashBytes (.drain enabled maxEvents) = some s') : s'.Follows hashBytes := by
  obtain rfl := Option.some.inj hst
  have hdrained := (h.calm.drained enabled maxEvents s.tables).1
  refine ⟨hdrained.calm, ?_⟩
  have hevents := hdrained.events h.calm
  obtain ⟨K, D, hS, hD, hrows⟩ := h.agrees
  have hkept : ∀ {tables : Tables}, tables = s.tables →
      (s.ring.drain enabled maxEvents s.tables).1.readHead = s.ring.readHead →
      Mirror.Agrees hashBytes
        ⟨s.store, replay (s.ring.drain enabled maxEvents s.tables).1.events tables⟩ := by
    rintro _ rfl hread
    rw [hevents, hread, Nat.sub_self, List.drop_zero]
    exact ⟨K, D, hS, hD, hrows⟩
  rcases h.calm.drain_cases enabled maxEvents s.tables with ⟨heq, -⟩ | ⟨n, hn, hpos, hcases⟩
  · exact hkept (by rw [heq]) (by rw [heq])
  rcases hcases with ⟨D₁, hD₁, heq⟩ | ⟨err, -, heq⟩
  · -- the batch is the first `n` events
    have htake : s.ring.events.take (batchMax maxEvents) = s.ring.events.take n := by
      rw [hn, ← Ring.length_events (r := s.ring), List.take_eq_take_iff]
      omega
    have hread : (s.ring.drain enabled maxEvents s.tables).1.readHead = s.ring.readHead + n := by
      rw [heq]
      exact (h.calm.release (by
        have := h.calm.quiet.le
        have := h.calm.quiet.pending
        omega) hpos).2.1
    have hD : replay s.ring.events s.tables = .ok D := hD
    rw [← List.take_append_drop n s.ring.events, replay_append, bind_eq_ok_iff] at hD
    obtain ⟨D₂, hD₂, hD⟩ := hD
    rw [htake] at hD₁ hsafe
    obtain rfl : D₁ = D₂ := Except.ok.inj (hD₁.symm.trans (asyncDrain_of_safe hD₂ hsafe))
    refine ⟨K, D, hS, ?_, hrows⟩
    rw [hread, Nat.add_sub_cancel_left, heq] at hevents
    simp only [ahead, heq]
    exact hevents ▸ hD
  · refine hkept (by rw [heq]) ?_
    rw [heq]
    rfl

theorem Follows.step (h : s.Follows hashBytes) (a : Action) (hok : s.Guard hashBytes a)
    (hst : s.step hashBytes a = some s') : s'.Follows hashBytes := by
  cases a with
  | call c => exact h.call hok.1 hok.2 hst
  | drain enabled maxEvents => exact h.drain hok hst

theorem events_eq_nil {r : Ring cap DirtyEvent} (hempty : r.pending = 0) : r.events = [] :=
  List.eq_nil_of_length_eq_zero (Ring.length_events.trans hempty)

/-- The shared keyspace and the tables are empty, and so is the ring. -/
theorem follows_init {r : Ring cap DirtyEvent} (hr : r.Calm) (hempty : r.pending = 0) (d : Dsa) :
    Follows hashBytes ⟨⟨d, ∅⟩, r, .empty⟩ := by
  refine ⟨hr, ?_⟩
  rw [ahead, events_eq_nil hempty]
  exact Mirror.agrees_init d

/-- In every state reached, whatever drains have run, how they cut the events into batches and
    which of them were refused: once nothing is pending, the rows of every key are those of its
    cell in the shared keyspace. -/
theorem tables_follow {r : Ring cap DirtyEvent} (hr : r.Calm) (hempty : r.pending = 0) {d : Dsa}
    (hs : Reachable (step hashBytes) (Guard hashBytes) ⟨⟨d, ∅⟩, r, .empty⟩ s)
    (hdone : s.ring.pending = 0) :
    ∃ K, s.store.Shows hashBytes K ∧ ∀ k, s.tables.Shows k (K k) := by
  have hfollows : s.Follows hashBytes := hs.invariant (follows_init hr hempty d)
    fun _ a _ hinv hok hst => hinv.step a hok hst
  obtain ⟨K, D, hS, hD, hrows⟩ := hfollows.agrees
  rw [ahead, events_eq_nil hdone] at hD
  obtain rfl := Except.ok.inj hD
  exact ⟨K, hS, hrows⟩

/-- A batch of one row. -/
theorem batchSafe_upsert (D : Tables) (k : Key) (type : ValueType) (value : Bytes)
    (expireAt : Option ℤ) (version : ℤ) :
    BatchSafe D [.keyUpsert k type value expireAt version] where
  keys k' h := absurd h (by simp)
  fields k' f v _ h := absurd h (by simp)
  items k' o v _ h := absurd h (by simp)
  distinct := List.nodup_nil
  absent k' o v h := absurd h (by simp)

/-- `SET k v` and a drain. -/
def setAndDrain : List Action :=
  [.call ⟨⟨1024, 1048576⟩, 0, 0, .set [107] [118]⟩, .drain true 1]

theorem tables_follow_set :
    let s := (run (step fun _ => 0) ⟨⟨⟨0, []⟩, ∅⟩, Ring.emptyRing, .empty⟩ setAndDrain).get rfl
    ∃ K, s.store.Shows (fun _ => 0) K ∧ ∀ k, s.tables.Shows k (K k) := by
  have hmeets : Meets (step fun _ => 0) (Guard fun _ => 0)
      ⟨⟨⟨0, []⟩, ∅⟩, Ring.emptyRing, .empty⟩ setAndDrain := by
    refine ⟨⟨by simp [Command.Considered, Command.field?], fun _ K hK => ?_⟩, fun s' hst =>
      ⟨?_, fun _ _ => trivial⟩⟩
    · rw [hK.eq_none rfl]
      exact ⟨by decide, rfl, rfl⟩
    · obtain ⟨-, htables, -, hevents⟩ := step_call Ring.calm_emptyRing hst
      rw [Guard, hevents, events_eq_nil rfl, htables]
      exact batchSafe_upsert _ [107] .string _ none _
  exact tables_follow Ring.calm_emptyRing rfl (.of_run .init hmeets (Option.some_get _).symm) rfl

end Pipeline

end PgRedis
