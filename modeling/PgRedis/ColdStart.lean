import PgRedis.Ring
import PgRedis.Lib.Run

/-!
# The cold-start load

How the backends share the cold-start load (`pg_redis_persistence_load_if_needed` in
shared mode with persistence): one of them moves the word `loaded` from `0` to `1`,
notes the time in `last_load_attempt`, loads and sets the word to `2`, or back to `0`
when the load fails. The others poll; one that finds the time noted more than 30 seconds
ago takes the loader for dead and sets the word back to `0`.

The word and the time are written in two steps. Right after a backend has become the
loader the time is still that of an earlier attempt, and a backend that polls then steals
the load at once: two backends load (`two_loaders`). In runs in which every steal goes by
the time of the loader it steals from, all is well (`load_once`).

Any number of backends `β` run in any order; every access to shared memory and every
reading of the clock is a step.
-/

namespace PgRedis.ColdStart

open Lib

/-- `PG_REDIS_LOAD_WATCHDOG_MS`. -/
def loadWatchdogMs : ℤ := 30000

/-- The same in microseconds. -/
def watchdog : ℤ := loadWatchdogMs * 1000

/-- The values of `loaded`: `0`, `1` and `2`. -/
inductive Loaded
  | unloaded
  | loading
  | loaded
  deriving DecidableEq, Repr

/-- Where a backend is. A loader carries the time at which it became one. -/
inductive Pc
  /-- Outside, before the call or after an error. -/
  | idle
  | readLoaded
  /-- Before the exchange of `0` by `1`. -/
  | claim
  /-- Before the loader reads the clock, and before it writes the time `t`. -/
  | won (start : ℤ)
  | stamp (start t : ℤ)
  /-- In `pg_redis_persistence_do_load`. -/
  | loading (start : ℤ)
  /-- Before `loaded` is set to `2`, or to `0`. -/
  | storeLoaded (start : ℤ)
  | storeFailed (start : ℤ)
  /-- Before a backend that polls reads the time, the clock, and before it exchanges
      `1` by `0`. -/
  | readAttempt
  | readClock (attempt : ℤ)
  | steal (attempt now : ℤ)
  | wait
  | returned
  | dead
  deriving DecidableEq, Repr

/-- When a loader started. -/
def Pc.start? : Pc → Option ℤ
  | .won start | .stamp start _ | .loading start | .storeLoaded start | .storeFailed start =>
    some start
  | _ => none

/-- The backend that last moved `loaded` from `0` to `1`: when it did, and the time it has
    noted. The code does not store it. -/
structure Owner (β : Type*) where
  backend : β
  start : ℤ
  stamp : Option ℤ
  deriving DecidableEq, Repr

/-- The shared words, and the clock. The owner of `loaded`, and whether some backend has
    completed a load, are not stored by the code. -/
structure Shared (β : Type*) where
  loaded : Loaded
  lastLoadAttempt : ℤ
  clock : ℤ
  owner : Option (Owner β)
  completed : Bool
  deriving DecidableEq, Repr

/-- The shared words, and where every backend is. -/
structure State (β : Type*) where
  mem : Shared β
  pc : β → Pc

inductive Action (β : Type*)
  /-- A backend calls the function. -/
  | enter (b : β)
  /-- Its next access to shared memory or to the clock, or the end of its load. -/
  | run (b : β)
  /-- Its load raises an error. -/
  | fail (b : β)
  /-- It is cancelled while it waits. -/
  | cancel (b : β)
  /-- It is terminated while it loads. -/
  | die (b : β)
  /-- Time passes. -/
  | tick (d : ℕ)

variable {β : Type*}

/-- After `pg_redis_shmem_startup`, at the time `t`. -/
def init (t : ℤ) : State β := ⟨⟨.unloaded, 0, t, none, false⟩, fun _ => .idle⟩

/-- The time noted by its owner. -/
def noteStamp [DecidableEq β] (b : β) (t : ℤ) (o : Owner β) : Owner β :=
  if o.backend = b then { o with stamp := some t } else o

/-- The next step of a backend in the function. -/
def advance [DecidableEq β] (b : β) (m : Shared β) : Pc → Option (Shared β × Pc)
  | .readLoaded => match m.loaded with
    | .loaded => some (m, .returned)
    | .unloaded => some (m, .claim)
    | .loading => some (m, .readAttempt)
  | .claim => if m.loaded = .unloaded then
      some ({ m with loaded := .loading, owner := some ⟨b, m.clock, none⟩ }, .won m.clock)
    else some (m, .readLoaded)
  | .won start => some (m, .stamp start m.clock)
  | .stamp start t =>
    some ({ m with lastLoadAttempt := t, owner := m.owner.map (noteStamp b t) }, .loading start)
  | .loading start => some ({ m with completed := true }, .storeLoaded start)
  | .storeLoaded _ => some ({ m with loaded := .loaded, owner := none }, .returned)
  | .storeFailed _ => some ({ m with loaded := .unloaded, owner := none }, .idle)
  | .readAttempt => some (m, .readClock m.lastLoadAttempt)
  | .readClock attempt =>
    if attempt ≠ 0 ∧ timestampDifferenceExceeds attempt m.clock loadWatchdogMs then
      some (m, .steal attempt m.clock)
    else some (m, .wait)
  | .steal _ _ => if m.loaded = .loading then
      some ({ m with loaded := .unloaded, owner := none }, .readLoaded)
    else some (m, .wait)
  | .wait => some (m, .readLoaded)
  | .idle | .returned | .dead => none

/-- One step. -/
def step [DecidableEq β] (s : State β) : Action β → Option (State β)
  | .enter b => if s.pc b = .idle then some { s with pc := Function.update s.pc b .readLoaded }
    else none
  | .run b => (advance b s.mem (s.pc b)).map fun x => ⟨x.1, Function.update s.pc b x.2⟩
  | .fail b => match s.pc b with
    | .loading start => some { s with pc := Function.update s.pc b (.storeFailed start) }
    | _ => none
  | .cancel b => if s.pc b = .wait then some { s with pc := Function.update s.pc b .idle }
    else none
  | .die b => if (s.pc b).start?.isSome then some { s with pc := Function.update s.pc b .dead }
    else none
  | .tick d => some { s with mem := { s.mem with clock := s.mem.clock + d } }

/-- No load runs for 30 seconds or more. -/
def Timely (s : State β) : Action β → Prop
  | .tick d => ∀ b start, (s.pc b).start? = some start → s.mem.clock + d < start + watchdog
  | _ => True

/-- A steal goes by the time of the loader it steals from. -/
def Informed (s : State β) : Action β → Prop
  | .run b => ∀ attempt now, s.pc b = .steal attempt now → s.mem.loaded = .loading →
      ∃ o, s.mem.owner = some o ∧ o.stamp = some attempt
  | _ => True

/-! ## The invariant -/

/-- The word is owned by the backend `b`, loader since `start`. -/
structure Owns (m : Shared β) (b : β) (start : ℤ) : Prop where
  loading : m.loaded = .loading
  owner : ∃ t, m.owner = some ⟨b, start, t⟩
  started : start ≤ m.clock
  timely : m.clock < start + watchdog

/-- What holds where a backend is. -/
structure Fits (m : Shared β) (b : β) (p : Pc) : Prop where
  owns : ∀ start, p.start? = some start → Owns m b start
  stamp : ∀ start t, p = .stamp start t → start ≤ t
  steal : ∀ attempt now, p = .steal attempt now → attempt + watchdog ≤ now ∧ now ≤ m.clock
  done : (∃ start, p = .storeLoaded start) ∨ p = .returned → m.completed = true

/-- The owner notes a time after it started, and `loaded` is `2` after a load. -/
structure Shared.WF (m : Shared β) : Prop where
  noted : ∀ o t, m.owner = some o → o.stamp = some t → o.start ≤ t
  done : m.loaded = .loaded → m.completed = true

/-- The invariant. -/
structure Inv (s : State β) : Prop where
  mem : s.mem.WF
  fits : ∀ b, Fits s.mem b (s.pc b)

theorem inv_init (t : ℤ) : Inv (init t : State β) where
  mem := ⟨by simp [init], by simp [init]⟩
  fits _ := ⟨by simp [init, Pc.start?], by simp [init], by simp [init], by simp [init]⟩

theorem Owns.unique {m : Shared β} {b b' : β} {start start' : ℤ} (h : Owns m b start)
    (h' : Owns m b' start') : b = b' ∧ start = start' := by
  obtain ⟨t, ht⟩ := h.owner
  obtain ⟨t', ht'⟩ := h'.owner
  rw [ht, Option.some.injEq, Owner.mk.injEq] at ht'
  exact ⟨ht'.1, ht'.2.1⟩

/-- A place at which nothing is asked. -/
theorem fits_of_quiet {m : Shared β} {b : β} {p : Pc} (h : p.start? = none)
    (hsteal : ∀ attempt now, p ≠ .steal attempt now) (hret : p ≠ .returned) : Fits m b p where
  owns start hs := absurd hs (by simp [h])
  stamp start t hp := absurd h (by simp [hp, Pc.start?])
  steal attempt now hp := absurd hp (hsteal attempt now)
  done hp := by
    rcases hp with ⟨start, rfl⟩ | hp
    · exact absurd h (by simp [Pc.start?])
    · exact absurd hp hret

section

variable [DecidableEq β] {s : State β} {m : Shared β} {b : β} {p : Pc}

/-- A step of the backend `b`: it keeps the invariant if it does not disturb the loader,
    the clock and the record of a load, and `b` fits where it gets. -/
theorem Inv.update (h : Inv s) (hm : m.WF) (hp : Fits m b p) (hclock : m.clock = s.mem.clock)
    (hdone : s.mem.completed = true → m.completed = true)
    (hkeep : ∀ b' start, b' ≠ b → Owns s.mem b' start → Owns m b' start) :
    Inv ⟨m, Function.update s.pc b p⟩ := by
  refine ⟨hm, fun b' => ?_⟩
  by_cases hb : b' = b
  · subst hb
    simp only [Function.update_self]
    exact hp
  · simp only [Function.update_of_ne hb]
    have hf := h.fits b'
    refine ⟨fun start hs => hkeep b' start hb (hf.owns start hs), hf.stamp, ?_,
      fun hd => hdone (hf.done hd)⟩
    rw [hclock]
    exact hf.steal

/-- A step of `b` that leaves the shared words alone. -/
theorem Inv.goto (h : Inv s) (hp : Fits s.mem b p) :
    Inv { s with pc := Function.update s.pc b p } :=
  h.update h.mem hp rfl id fun _ _ _ ho => ho

end

/-! ## Steps -/

variable [DecidableEq β] {s s' : State β} {b : β}

omit [DecidableEq β] in
/-- A steal that goes by the time of the loader it steals from finds no loader alive, and
    that one started 30 seconds ago. -/
theorem Inv.steal (h : Inv s) {attempt now : ℤ} (hpc : s.pc b = .steal attempt now) {o : Owner β}
    (ho : s.mem.owner = some o) (hstamp : o.stamp = some attempt) :
    o.start + watchdog ≤ s.mem.clock ∧ ∀ b' start, ¬Owns s.mem b' start := by
  obtain ⟨hlate, hnow⟩ := (h.fits b).steal attempt now hpc
  have hnoted := h.mem.noted o attempt ho hstamp
  refine ⟨by omega, fun b' start hown => ?_⟩
  obtain ⟨t, ht⟩ := hown.owner
  obtain rfl := Option.some.inj (ho.symm.trans ht)
  have htimely := hown.timely
  simp only at hnoted
  omega

theorem inv_run (h : Inv s) (hinf : Informed s (.run b)) (hst : step s (.run b) = some s') :
    Inv s' := by
  rw [step, Option.map_eq_some_iff] at hst
  obtain ⟨⟨m, p⟩, hadv, rfl⟩ := hst
  have hfits := h.fits b
  -- A loader is the only one, so a step of its own cannot disturb another.
  have honly : ∀ {start}, (s.pc b).start? = some start → ∀ b' start', b' ≠ b →
      ¬Owns s.mem b' start' := fun hs b' start' hb ho =>
    hb (ho.unique (hfits.owns _ hs)).1
  cases hpc : s.pc b <;> rw [hpc] at hfits honly hadv <;>
    simp only [advance, Option.some.injEq, Prod.mk.injEq, reduceCtorEq] at hadv
  case readLoaded =>
    split at hadv <;> obtain ⟨rfl, rfl⟩ := Prod.mk.inj (Option.some.inj hadv)
    case h_1 hl =>
      refine h.goto ⟨by simp [Pc.start?], by simp, by simp, fun _ => h.mem.done hl⟩
    all_goals exact h.goto (fits_of_quiet rfl (by simp) (by simp))
  case claim =>
    split_ifs at hadv with hl <;> obtain ⟨rfl, rfl⟩ := Prod.mk.inj (Option.some.inj hadv)
    · refine h.update ⟨?_, by simp⟩ ⟨?_, by simp, by simp, by simp⟩ rfl id fun b' start _ ho => ?_
      · rintro o t ⟨⟩ ht
        exact absurd ht (by simp)
      · rintro start ⟨⟩
        exact ⟨rfl, ⟨none, rfl⟩, le_rfl, Int.lt_add_of_pos_right _ (by decide)⟩
      · exact absurd ho.loading (by simp [hl])
    · exact h.goto (fits_of_quiet rfl (by simp) (by simp))
  case won start =>
    obtain ⟨rfl, rfl⟩ := hadv
    have ho := hfits.owns start rfl
    refine h.goto ⟨?_, ?_, by simp, by simp⟩
    · rintro _ ⟨⟩
      exact ho
    · rintro _ _ ⟨⟩
      exact ho.started
  case stamp start t =>
    obtain ⟨rfl, rfl⟩ := hadv
    have ho := hfits.owns start rfl
    obtain ⟨t₀, ht₀⟩ := ho.owner
    have hown : s.mem.owner.map (noteStamp b t) = some ⟨b, start, some t⟩ := by
      rw [ht₀, Option.map_some, noteStamp, if_pos rfl]
    refine h.update ⟨?_, h.mem.done⟩ ⟨?_, by simp, by simp, by simp⟩ rfl id fun b' start' hb ho' =>
      absurd ho' (honly rfl b' start' hb)
    · intro o t' hr ht'
      obtain rfl := Option.some.inj (hown.symm.trans hr)
      obtain rfl := Option.some.inj ht'
      exact hfits.stamp start t rfl
    · rintro _ ⟨⟩
      exact ⟨ho.loading, ⟨some t, hown⟩, ho.started, ho.timely⟩
  case loading start =>
    obtain ⟨rfl, rfl⟩ := hadv
    have ho := hfits.owns start rfl
    refine h.update ⟨h.mem.noted, fun _ => rfl⟩ ⟨?_, by simp, by simp, fun _ => rfl⟩ rfl
      (fun _ => rfl) fun b' start' hb ho' => absurd ho' (honly rfl b' start' hb)
    rintro _ ⟨⟩
    exact ⟨ho.loading, ho.owner, ho.started, ho.timely⟩
  case storeLoaded start =>
    obtain ⟨rfl, rfl⟩ := hadv
    have hdone := hfits.done (.inl ⟨start, rfl⟩)
    exact h.update ⟨by simp, fun _ => hdone⟩ ⟨by simp [Pc.start?], by simp, by simp, fun _ => hdone⟩
      rfl id fun b' start' hb ho' => absurd ho' (honly rfl b' start' hb)
  case storeFailed start =>
    obtain ⟨rfl, rfl⟩ := hadv
    exact h.update ⟨by simp, by simp⟩ (fits_of_quiet rfl (by simp) (by simp)) rfl id
      fun b' start' hb ho' => absurd ho' (honly rfl b' start' hb)
  case readAttempt =>
    obtain ⟨rfl, rfl⟩ := hadv
    exact h.goto (fits_of_quiet rfl (by simp) (by simp))
  case readClock attempt =>
    split_ifs at hadv with hl <;> obtain ⟨rfl, rfl⟩ := Prod.mk.inj (Option.some.inj hadv)
    · refine h.goto ⟨by simp [Pc.start?], by simp, ?_, by simp⟩
      rintro _ _ ⟨⟩
      have hexc := of_decide_eq_true hl.2
      rw [watchdog]
      omega
    · exact h.goto (fits_of_quiet rfl (by simp) (by simp))
  case steal attempt now =>
    split_ifs at hadv with hl <;> obtain ⟨rfl, rfl⟩ := Prod.mk.inj (Option.some.inj hadv)
    · obtain ⟨o, ho, hstamp⟩ := hinf attempt now hpc hl
      exact h.update ⟨by simp, by simp⟩ (fits_of_quiet rfl (by simp) (by simp)) rfl id
        fun b' start' _ ho' => absurd ho' ((h.steal hpc ho hstamp).2 b' start')
    · exact h.goto (fits_of_quiet rfl (by simp) (by simp))
  case wait =>
    obtain ⟨rfl, rfl⟩ := hadv
    exact h.goto (fits_of_quiet rfl (by simp) (by simp))

theorem inv_step (s : State β) (a : Action β) (s' : State β) (h : Inv s)
    (hok : Timely s a ∧ Informed s a) (hst : step s a = some s') : Inv s' := by
  obtain ⟨htimely, hinf⟩ := hok
  -- Time that passes keeps the owner's start in the past; a backend that leaves gives up its
  -- start and owns nothing.
  cases a with
  | enter b =>
    rw [step] at hst
    split_ifs at hst
    obtain rfl := Option.some.inj hst
    exact h.goto (fits_of_quiet rfl (by simp) (by simp))
  | run b => exact inv_run h hinf hst
  | fail b =>
    rw [step] at hst
    split at hst
    · next start hpc =>
      obtain rfl := Option.some.inj hst
      refine h.goto ⟨?_, by simp, by simp, by simp⟩
      rintro _ ⟨⟩
      exact (h.fits b).owns start (by rw [hpc]; rfl)
    · exact absurd hst (by simp)
  | cancel b =>
    rw [step] at hst
    split_ifs at hst
    obtain rfl := Option.some.inj hst
    exact h.goto (fits_of_quiet rfl (by simp) (by simp))
  | die b =>
    rw [step] at hst
    split_ifs at hst
    obtain rfl := Option.some.inj hst
    exact h.goto (fits_of_quiet rfl (by simp) (by simp))
  | tick d =>
    obtain rfl := Option.some.inj hst
    refine ⟨⟨h.mem.noted, h.mem.done⟩, fun b => ?_⟩
    have hf := h.fits b
    refine ⟨fun start hs => ?_, hf.stamp, fun attempt now hp => ?_, hf.done⟩
    · have ho := hf.owns start hs
      exact ⟨ho.loading, ho.owner, ho.started.trans (Int.le_add_of_nonneg_right (by simp)),
        htimely b start hs⟩
    · obtain ⟨hlate, hnow⟩ := hf.steal attempt now hp
      exact ⟨hlate, hnow.trans (Int.le_add_of_nonneg_right (by simp))⟩

/-! ## Runs -/

/-- In every run in which no load takes 30 seconds and every steal goes by the time of the
    loader it steals from: at most one backend is loading, `loaded` is `2`, and a backend
    has returned, only when some backend has completed a load, and the load is stolen only
    from a loader that is dead and started 30 seconds ago. -/
theorem load_once {t : ℤ}
    (h : Reachable step (fun s a => Timely s a ∧ Informed s a) (init t) s) :
    (∀ b b' x x', s.pc b = .loading x → s.pc b' = .loading x' → b = b') ∧
      (s.mem.loaded = .loaded → s.mem.completed = true) ∧
      (∀ b, s.pc b = .returned → s.mem.completed = true) ∧
      ∀ b attempt now, s.pc b = .steal attempt now → s.mem.loaded = .loading →
        Informed s (.run b) → ∃ o, s.mem.owner = some o ∧ o.start + watchdog ≤ s.mem.clock ∧
          (s.pc o.backend).start? = none := by
  have hinv : Inv s := h.invariant (inv_init t) inv_step
  refine ⟨fun b b' x x' hb hb' => ?_, hinv.mem.done, fun b hb => (hinv.fits b).done (.inr hb),
    fun b attempt now hpc hl hinf => ?_⟩
  · have ho := (hinv.fits b).owns x (by rw [hb]; rfl)
    have ho' := (hinv.fits b').owns x' (by rw [hb']; rfl)
    exact (ho.unique ho').1
  · obtain ⟨o, ho, hstamp⟩ := hinf attempt now hpc hl
    obtain ⟨hlate, hnone⟩ := hinv.steal hpc ho hstamp
    refine ⟨o, ho, hlate, Option.eq_none_iff_forall_ne_some.2 fun start hs => ?_⟩
    exact hnone o.backend start ((hinv.fits o.backend).owns start hs)

/-- A backend loads, and another finds the load done. -/
theorem load_once_of_two : ∃ s : State (Fin 2), s.pc 0 = .returned ∧ s.pc 1 = .returned ∧
    s.mem.completed = true := by
  have hreach : Reachable step (fun s a => Timely s a ∧ Informed s a) (init 1 : State (Fin 2))
      ((run step (init 1) [.enter 0, .run 0, .run 0, .run 0, .run 0, .run 0, .run 0, .enter 1,
        .run 1]).get rfl) := by
    refine Reachable.of_run .init ?_ (Option.some_get _).symm
    exact .cons ⟨trivial, trivial⟩ rfl (.cons ⟨trivial, nofun⟩ rfl (.cons ⟨trivial, nofun⟩ rfl
      (.cons ⟨trivial, nofun⟩ rfl (.cons ⟨trivial, nofun⟩ rfl (.cons ⟨trivial, nofun⟩ rfl
        (.cons ⟨trivial, nofun⟩ rfl (.cons ⟨trivial, trivial⟩ rfl (.cons ⟨trivial, nofun⟩ rfl
          trivial))))))))
  exact ⟨_, rfl, rfl, (load_once hreach).2.2.1 1 rfl⟩

/-- A backend becomes the loader and fails. -/
def failedLoad : List (Action (Fin 3)) :=
  [.enter 0, .run 0, .run 0, .run 0, .run 0, .fail 0, .run 0]

/-- Thirty seconds later, a second one becomes the loader, and a third steals the load
    before the second has noted the time. -/
def stolenLoad : List (Action (Fin 3)) :=
  [.enter 1, .run 1, .run 1, .enter 2, .run 2, .run 2, .run 2, .run 2, .run 2, .run 2, .run 2,
    .run 2, .run 1, .run 1]

/-- Two backends load at a time. -/
theorem two_loaders : ¬∀ (t : ℤ) (s : State (Fin 3)), Reachable step Timely (init t) s →
    ∀ b b' x x', s.pc b = .loading x → s.pc b' = .loading x' → b = b' := by
  intro h
  have hfailed : Reachable step Timely (init 1) ((run step (init 1) failedLoad).get rfl) :=
    Reachable.of_run .init (by simp [failedLoad, Meets, Timely]) (Option.some_get _).symm
  have hlater : Reachable step Timely (init 1)
      ((step ((run step (init 1) failedLoad).get rfl) (.tick 30000000)).get rfl) := by
    refine .step (a := .tick 30000000) hfailed (fun b start hs => absurd hs ?_)
      (Option.some_get _).symm
    have hnone : ∀ b, (((run step (init 1) failedLoad).get rfl).pc b).start? = none := by decide
    rw [hnone b]
    simp
  have hstolen : Reachable step Timely (init 1) ((run step ((step ((run step (init 1)
      failedLoad).get rfl) (.tick 30000000)).get rfl) stolenLoad).get rfl) :=
    hlater.of_run (by simp [stolenLoad, Meets, Timely]) (Option.some_get _).symm
  exact absurd (h 1 _ hstolen 1 2 30000001 30000001 (by decide) (by decide)) (by decide)

end PgRedis.ColdStart
