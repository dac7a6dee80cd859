import Mathlib.Data.List.Basic
import Mathlib.Logic.Function.Basic
import PgRedis.Lib.Run

/-!
# The area of the shared keyspace

`pg_redis_shmem_attach_dsa`, run by any number of backends which may raise an error in every
call of the DSA library, and end at every moment. The first to take `startup_lock` creates the
area and publishes its handle in shared memory; the others attach the published one. A pointer
that one backend writes into the keyspace is read by the others in their own `cached_dsa`, so
that all of them have to mean one area.

* `one_area`: they do, at whatever moments the two are attached, and it is there for good: the
  handle is published only when the area is pinned, so that it outlives its creator;
* `attached`: a call that returns leaves the backend attached;
* `no_stray`: unless a call fails or a backend ends on the way, no area but this is created.

The case that there is no shared memory (session mode) is not in this model. An area is mapped
by the backends in a list; one that is mapped by nobody is gone unless it is pinned.
-/

namespace PgRedis.Area

open Lib

/-- A `dsa_handle`. -/
abbrev Handle := UInt32

/-- `DSM_HANDLE_INVALID`. -/
def dsmHandleInvalid : Handle := 0

/-- Where a backend is in `pg_redis_shmem_attach_dsa`. -/
inductive Pc
  /-- Not in the function. -/
  | idle
  /-- At `LWLockAcquire(startup_lock)`. -/
  | want
  /-- At the test of the published handle. -/
  | look
  /-- At `dsa_create`. -/
  | create
  /-- At `dsa_pin`. -/
  | pin (area : Handle)
  /-- At `dsa_pin_mapping` of the area it has created. -/
  | pinMapping (area : Handle)
  /-- At `PgRedisShared->dsa = dsa_get_handle(area)`. -/
  | publish (area : Handle)
  /-- At `cached_dsa = area`. -/
  | cache (area : Handle)
  /-- At `cached_dsa = dsa_attach(PgRedisShared->dsa)`. -/
  | attach
  /-- At `dsa_pin_mapping(cached_dsa)`. -/
  | pinAttached
  /-- At the `LWLockRelease` before the return. -/
  | release
  /-- In `PG_CATCH`. -/
  | caught
  deriving DecidableEq, Repr

namespace Pc

/-- Between the acquisition and the release of `startup_lock`. -/
def Inside (pc : Pc) : Prop := pc ≠ idle ∧ pc ≠ want

instance decidableInside (pc : Pc) : Decidable pc.Inside := inferInstanceAs (Decidable (_ ∧ _))

/-- At a call of the DSA library, which may raise an error. -/
def mayRaise : Pc → Bool
  | create | pin _ | pinMapping _ | attach | pinAttached => true
  | _ => false

end Pc

/-- An area in dynamic shared memory. -/
structure Segment (β : Type) where
  pinned : Bool
  mapped : List β

/-- Shared memory, and the own state of every backend. -/
structure State (β : Type) where
  /-- `PgRedisShared->dsa`. -/
  dsa : Handle
  startupLock : Option β
  areas : Handle → Option (Segment β)
  pc : β → Pc
  cachedDsa : β → Option Handle

inductive Action (β : Type)
  /-- A call of `pg_redis_shmem_attach_dsa`. -/
  | call (b : β)
  /-- The next step of a backend; an area it creates gets the handle. -/
  | run (b : β) (handle : Handle)
  /-- The call of the DSA library at which a backend is raises an error. -/
  | raise (b : β)
  /-- A backend ends. Its locks are released and its mappings undone. -/
  | exit (b : β)

namespace State

variable {β : Type}

def init : State β := ⟨dsmHandleInvalid, none, fun _ => none, fun _ => .idle, fun _ => none⟩

variable [DecidableEq β]

/-- The backend goes on to `pc`. -/
def goto (s : State β) (b : β) (pc : Pc) : State β := { s with pc := Function.update s.pc b pc }

theorem pc_goto_self (s : State β) (b : β) (pc : Pc) : (s.goto b pc).pc b = pc :=
  Function.update_self _ _ _

theorem pc_goto_of_ne (s : State β) {b c : β} (h : c ≠ b) (pc : Pc) : (s.goto b pc).pc c = s.pc c :=
  Function.update_of_ne h _ _

/-- `LWLockRelease(startup_lock)`, and the end of the function. -/
def unlock (s : State β) (b : β) : State β := { s with startupLock := none }.goto b .idle

/-- The area is changed. -/
def setArea (s : State β) (area : Handle) (a : Segment β) : State β :=
  { s with areas := Function.update s.areas area (some a) }

/-- What is left of an area when a backend is gone. -/
def unmap (b : β) (a : Segment β) : Option (Segment β) :=
  if a.pinned ∨ a.mapped.any (· ≠ b) then some { a with mapped := a.mapped.filter (· ≠ b) }
  else none

/-- The end of a backend. -/
def ended (s : State β) (b : β) : State β where
  dsa := s.dsa
  startupLock := if s.startupLock = some b then none else s.startupLock
  areas area := (s.areas area).bind (unmap b)
  pc := Function.update s.pc b .idle
  cachedDsa := Function.update s.cachedDsa b none

end State

section

variable {β : Type} [DecidableEq β]

/-- The next step of a backend. -/
def run (s : State β) (b : β) (handle : Handle) : Option (State β) :=
  match s.pc b with
  | .idle => none
  | .want =>
    if s.startupLock = none then some ({ s with startupLock := some b }.goto b .look) else none
  | .look => some (s.goto b (if s.dsa = dsmHandleInvalid then .create else .attach))
  | .create =>
    if handle ≠ dsmHandleInvalid ∧ (s.areas handle).isNone then
      some ((s.setArea handle ⟨false, [b]⟩).goto b (.pin handle))
    else none
  | .pin area => (s.areas area).map fun a =>
      (s.setArea area { a with pinned := true }).goto b (.pinMapping area)
  | .pinMapping area => some (s.goto b (.publish area))
  | .publish area => some ({ s with dsa := area }.goto b (.cache area))
  | .cache area =>
    some ({ s with cachedDsa := Function.update s.cachedDsa b (some area) }.goto b .release)
  | .attach => match s.areas s.dsa with
    | some a =>
      let s' := s.setArea s.dsa { a with mapped := b :: a.mapped }
      some ({ s' with cachedDsa := Function.update s.cachedDsa b (some s.dsa) }.goto b .pinAttached)
    | none => some (s.goto b .caught)
  | .pinAttached => some (s.goto b .release)
  | .release | .caught => some (s.unlock b)

def step (s : State β) : Action β → Option (State β)
  | .call b =>
    if s.pc b = .idle then some (if (s.cachedDsa b).isSome then s else s.goto b .want) else none
  | .run b handle => run s b handle
  | .raise b => if (s.pc b).mayRaise then some (s.goto b .caught) else none
  | .exit b => some (s.ended b)

end

/-! ## The invariant -/

namespace State

variable {β : Type}

/-- The backend has the area mapped. -/
def Mapped (s : State β) (b : β) (area : Handle) : Prop := ∃ a, s.areas area = some a ∧ b ∈ a.mapped

/-- The area is there and is pinned. -/
def Pinned (s : State β) (area : Handle) : Prop := ∃ a, s.areas area = some a ∧ a.pinned = true

/-- What a backend relies on, where it is. -/
def Ready (s : State β) (b : β) : Pc → Prop
  | .create => s.dsa = dsmHandleInvalid
  | .pin area => s.dsa = dsmHandleInvalid ∧ area ≠ dsmHandleInvalid ∧ s.Mapped b area
  | .pinMapping area | .publish area =>
    s.dsa = dsmHandleInvalid ∧ area ≠ dsmHandleInvalid ∧ s.Mapped b area ∧ s.Pinned area
  | .cache area => s.dsa = area ∧ area ≠ dsmHandleInvalid ∧ s.Mapped b area
  | .attach => s.dsa ≠ dsmHandleInvalid
  | .pinAttached | .release => (s.cachedDsa b).isSome
  | .idle | .want | .look | .caught => True

/-- Who is inside holds the lock, what is published is pinned, and who is attached is
    attached to it. -/
structure Sound (s : State β) : Prop where
  lock : ∀ b, (s.pc b).Inside → s.startupLock = some b
  ready : ∀ b, s.Ready b (s.pc b)
  pinned : s.dsa ≠ dsmHandleInvalid → s.Pinned s.dsa
  cached : ∀ b area, s.cachedDsa b = some area →
    area = s.dsa ∧ area ≠ dsmHandleInvalid ∧ s.Mapped b area

/-- No area is lost, unmapped or unpinned. -/
def Grows (s s' : State β) : Prop :=
  ∀ area a, s.areas area = some a → ∃ a', s'.areas area = some a' ∧ a.mapped ⊆ a'.mapped ∧
    (a.pinned = true → a'.pinned = true)

variable {s s' : State β} {b c : β} {area : Handle}

theorem grows_of_areas (h : s'.areas = s.areas) : s.Grows s' :=
  fun _ a ha => ⟨a, h ▸ ha, fun _ => id, id⟩

theorem Grows.mapped (h : s.Grows s') (hm : s.Mapped b area) : s'.Mapped b area := by
  obtain ⟨a, ha, hb⟩ := hm
  obtain ⟨a', ha', hsub, -⟩ := h area a ha
  exact ⟨a', ha', hsub hb⟩

theorem Grows.pinned (h : s.Grows s') (hp : s.Pinned area) : s'.Pinned area := by
  obtain ⟨a, ha, hpin⟩ := hp
  obtain ⟨a', ha', -, hkeep⟩ := h area a ha
  exact ⟨a', ha', hkeep hpin⟩

theorem areas_setArea_of_ne [DecidableEq β] {a : Segment β} {area' : Handle} (h : area' ≠ area) :
    (s.setArea area a).areas area' = s.areas area' :=
  Function.update_of_ne h _ _

theorem grows_setArea [DecidableEq β] {a : Segment β} (h : ∀ a₀, s.areas area = some a₀ →
    a₀.mapped ⊆ a.mapped ∧ (a₀.pinned = true → a.pinned = true)) : s.Grows (s.setArea area a) := by
  intro area' a₀ ha₀
  by_cases heq : area' = area
  · subst heq
    exact ⟨a, Function.update_self _ _ _, h a₀ ha₀⟩
  · exact ⟨a₀, (areas_setArea_of_ne heq).trans ha₀, fun _ => id, id⟩

section

variable [DecidableEq β]

theorem pc_ended_self : (s.ended b).pc b = .idle := Function.update_self _ _ _

theorem pc_ended_of_ne (hc : c ≠ b) : (s.ended b).pc c = s.pc c := Function.update_of_ne hc _ _

theorem cachedDsa_ended_self : (s.ended b).cachedDsa b = none := Function.update_self _ _ _

theorem cachedDsa_ended_of_ne (hc : c ≠ b) : (s.ended b).cachedDsa c = s.cachedDsa c :=
  Function.update_of_ne hc _ _

theorem areas_ended {a : Segment β} (ha : s.areas area = some a) :
    (s.ended b).areas area = unmap b a := by
  rw [← Option.bind_some (f := unmap b), ← ha]
  rfl

theorem Pinned.ended (h : s.Pinned area) (b : β) : (s.ended b).Pinned area := by
  obtain ⟨a, ha, hp⟩ := h
  refine ⟨{ a with mapped := a.mapped.filter (· ≠ b) }, ?_, hp⟩
  rw [areas_ended ha, unmap, if_pos (.inl hp)]

theorem Mapped.ended (h : s.Mapped c area) (hc : c ≠ b) : (s.ended b).Mapped c area := by
  obtain ⟨a, ha, hm⟩ := h
  refine ⟨{ a with mapped := a.mapped.filter (· ≠ b) }, ?_, ?_⟩
  · rw [areas_ended ha, unmap,
      if_pos (.inr (List.any_eq_true.2 ⟨c, hm, decide_eq_true hc⟩))]
  · exact List.mem_filter.2 ⟨hm, decide_eq_true hc⟩

end

/-- Outside of the function a backend relies on nothing. -/
theorem ready_of_outside {pc : Pc} (h : ¬pc.Inside) : s.Ready b pc := by
  cases pc with
  | idle | want => trivial
  | _ => exact absurd (show Pc.Inside _ from ⟨by simp, by simp⟩) h

theorem sound_init : (init : State β).Sound where
  lock b h := absurd rfl h.1
  ready b := trivial
  pinned h := absurd rfl h
  cached b area h := absurd h (by simp [init])

namespace Sound

/-- A backend that is inside is there alone. -/
theorem outside (h : s.Sound) (hb : s.startupLock = some b) (hc : c ≠ b) : ¬(s.pc c).Inside :=
  fun hin => hc (Option.some.inj ((h.lock c hin).symm.trans hb))

variable [DecidableEq β]

/-- A step of a backend that has the lock: what is to be shown is about this backend, the
    published area and the attached backends only. -/
theorem of_holder (h : s.Sound) (hb : s.startupLock = some b) {pc : Pc}
    (hpc : s'.pc = Function.update s.pc b pc) (hlock : pc.Inside → s'.startupLock = some b)
    (hready : s'.Ready b pc) (hpinned : s'.dsa ≠ dsmHandleInvalid → s'.Pinned s'.dsa)
    (hcached : ∀ c area, s'.cachedDsa c = some area →
      area = s'.dsa ∧ area ≠ dsmHandleInvalid ∧ s'.Mapped c area) : s'.Sound := by
  refine ⟨fun c hin => ?_, fun c => ?_, hpinned, hcached⟩
  all_goals
    rw [hpc] at *
    by_cases hc : c = b
  · subst hc
    rw [Function.update_self] at hin
    exact hlock hin
  · rw [Function.update_of_ne hc] at hin
    exact absurd hin (h.outside hb hc)
  · subst hc
    rwa [Function.update_self]
  · rw [Function.update_of_ne hc]
    exact ready_of_outside (h.outside hb hc)

/-- A step of a backend that has the lock, and does not change what is published nor who is
    attached. -/
theorem of_holder_of_grows (h : s.Sound) (hb : s.startupLock = some b) {pc : Pc}
    (hpc : s'.pc = Function.update s.pc b pc) (hlock : pc.Inside → s'.startupLock = some b)
    (hready : s'.Ready b pc) (hgrows : s.Grows s') (hdsa : s'.dsa = s.dsa)
    (hcached : s'.cachedDsa = s.cachedDsa) : s'.Sound := by
  refine h.of_holder hb hpc hlock hready (fun hne => ?_) fun c area hc => ?_
  · rw [hdsa] at hne ⊢
    exact hgrows.pinned (h.pinned hne)
  · rw [hcached] at hc
    obtain ⟨heq, hne, hm⟩ := h.cached c area hc
    exact ⟨hdsa ▸ heq, hne, hgrows.mapped hm⟩

theorem cached_self (cached : β → Option Handle) (b : β) :
    (Function.update cached b (some area) b).isSome := by
  rw [Function.update_self]
  rfl

/-- What holds of those that are attached, and of one that attaches. -/
theorem cached_update {cached : β → Option Handle} {P : β → Handle → Prop}
    (h : ∀ c area, cached c = some area → P c area) (hb : P b area) :
    ∀ c area', Function.update cached b (some area) c = some area' → P c area' := by
  intro c area' hc
  by_cases heq : c = b
  · subst heq
    rw [Function.update_self] at hc
    exact Option.some.inj hc ▸ hb
  · rw [Function.update_of_ne heq] at hc
    exact h c area' hc

/-- The lock is free: nobody is inside. -/
theorem enter (h : s.Sound) (hfree : s.startupLock = none) (b : β) :
    Sound ({ s with startupLock := some b }.goto b .look) := by
  have hout : ∀ c, ¬(s.pc c).Inside := fun c hin =>
    absurd (hfree.symm.trans (h.lock c hin)) (by simp)
  refine ⟨fun c hin => ?_, fun c => ?_, h.pinned, h.cached⟩
  all_goals
    by_cases hc : c = b
  · rw [hc]
    rfl
  · rw [pc_goto_of_ne _ hc] at hin
    exact absurd hin (hout c)
  · rw [hc, pc_goto_self]
    trivial
  · rw [pc_goto_of_ne _ hc]
    exact ready_of_outside (hout c)

theorem run (h : s.Sound) {handle : Handle} (hst : Area.run s b handle = some s') : s'.Sound := by
  have hlock := h.lock b
  have hready := h.ready b
  rw [Area.run] at hst
  cases hpc : s.pc b <;> rw [hpc] at hst hlock hready <;> simp only at hst
  case idle => exact absurd hst (by simp)
  case want =>
    split_ifs at hst with hfree
    obtain rfl := Option.some.inj hst
    exact h.enter hfree b
  all_goals replace hlock := hlock ⟨by simp, by simp⟩
  case look =>
    obtain rfl := Option.some.inj hst
    refine h.of_holder_of_grows hlock rfl (fun _ => hlock) ?_ (grows_of_areas rfl) rfl rfl
    split_ifs with hdsa
    · exact hdsa
    · exact hdsa
  case create =>
    split_ifs at hst with hnew
    obtain rfl := Option.some.inj hst
    refine h.of_holder_of_grows hlock rfl (fun _ => hlock)
      ⟨hready, hnew.1, _, Function.update_self _ _ _, List.mem_singleton_self b⟩ ?_ rfl rfl
    refine grows_setArea fun a₀ ha₀ => ?_
    rw [ha₀] at hnew
    exact absurd hnew.2 (by simp)
  case pin area =>
    obtain ⟨a, ha, rfl⟩ := Option.map_eq_some_iff.1 hst
    obtain ⟨hdsa, hne, a₀, ha₀, hb⟩ := hready
    obtain rfl := Option.some.inj (ha.symm.trans ha₀)
    refine h.of_holder_of_grows hlock rfl (fun _ => hlock) ⟨hdsa, hne,
      ⟨_, Function.update_self _ _ _, hb⟩, ⟨_, Function.update_self _ _ _, rfl⟩⟩ ?_ rfl rfl
    refine grows_setArea fun a₁ ha₁ => ?_
    obtain rfl := Option.some.inj (ha.symm.trans ha₁)
    exact ⟨fun _ => id, fun _ => rfl⟩
  case pinMapping area =>
    obtain rfl := Option.some.inj hst
    exact h.of_holder_of_grows hlock rfl (fun _ => hlock) hready (grows_of_areas rfl) rfl rfl
  case publish area =>
    obtain rfl := Option.some.inj hst
    obtain ⟨hdsa, hne, hm, hp⟩ := hready
    -- nobody is attached before a handle is published
    refine h.of_holder hlock rfl (fun _ => hlock) ⟨rfl, hne, hm⟩ (fun _ => hp) fun c area' hc => ?_
    obtain ⟨heq, hne', -⟩ := h.cached c area' hc
    exact absurd (heq.trans hdsa) hne'
  case cache area =>
    obtain rfl := Option.some.inj hst
    obtain ⟨rfl, hne, hm⟩ := hready
    exact h.of_holder hlock rfl (fun _ => hlock) (cached_self _ b) h.pinned
      (cached_update h.cached ⟨rfl, hne, hm⟩)
  case attach =>
    cases ha : s.areas s.dsa with
    | none =>
      rw [ha] at hst
      obtain rfl := Option.some.inj hst
      exact h.of_holder_of_grows hlock rfl (fun _ => hlock) trivial (grows_of_areas rfl) rfl rfl
    | some a =>
      rw [ha] at hst
      obtain rfl := Option.some.inj hst
      have hgrows : s.Grows (s.setArea s.dsa { a with mapped := b :: a.mapped }) :=
        grows_setArea fun a₀ ha₀ => by
          obtain rfl := Option.some.inj (ha.symm.trans ha₀)
          exact ⟨List.subset_cons_self b _, id⟩
      refine h.of_holder hlock rfl (fun _ => hlock) (cached_self _ b)
        (fun hne => hgrows.pinned (h.pinned hne)) (cached_update (fun c area hc => ?_)
        ⟨rfl, hready, _, Function.update_self _ _ _, List.mem_cons_self⟩)
      obtain ⟨heq, hne, hm⟩ := h.cached c area hc
      exact ⟨heq, hne, hgrows.mapped hm⟩
  case pinAttached =>
    obtain rfl := Option.some.inj hst
    exact h.of_holder_of_grows hlock rfl (fun _ => hlock) hready (grows_of_areas rfl) rfl rfl
  case release | caught =>
    obtain rfl := Option.some.inj hst
    exact h.of_holder_of_grows hlock rfl (fun hin => absurd rfl hin.1) trivial (grows_of_areas rfl)
      rfl rfl

theorem call (h : s.Sound) (b : β) : (s.goto b .want).Sound := by
  refine ⟨fun c hin => ?_, fun c => ?_, h.pinned, h.cached⟩
  all_goals
    by_cases hc : c = b
  · rw [hc, pc_goto_self] at hin
    exact absurd rfl hin.2
  · rw [pc_goto_of_ne _ hc] at hin
    exact h.lock c hin
  · rw [hc, pc_goto_self]
    trivial
  · rw [pc_goto_of_ne _ hc]
    exact h.ready c

/-- What another backend relies on is not about the one that is gone. -/
theorem ready_ended (h : s.Sound) (hc : c ≠ b) : (s.ended b).Ready c (s.pc c) := by
  have hready := h.ready c
  cases hpc : s.pc c <;> rw [hpc] at hready
  case idle | want | look | caught => trivial
  case create | attach => exact hready
  case pin area | cache area => exact ⟨hready.1, hready.2.1, hready.2.2.ended hc⟩
  case pinMapping area | publish area =>
    exact ⟨hready.1, hready.2.1, hready.2.2.1.ended hc, hready.2.2.2.ended b⟩
  case pinAttached | release =>
    rw [Ready, cachedDsa_ended_of_ne hc]
    exact hready

theorem exit (h : s.Sound) (b : β) : (s.ended b).Sound := by
  refine ⟨fun c hin => ?_, fun c => ?_, fun hne => (h.pinned hne).ended b, fun c area hca => ?_⟩
  all_goals
    by_cases hc : c = b
  · rw [hc, pc_ended_self] at hin
    exact absurd rfl hin.1
  · rw [pc_ended_of_ne hc] at hin
    have hlock := h.lock c hin
    rw [ended, if_neg fun hb => hc (Option.some.inj (hlock.symm.trans hb))]
    exact hlock
  · rw [hc, pc_ended_self]
    trivial
  · rw [pc_ended_of_ne hc]
    exact h.ready_ended hc
  · rw [hc, cachedDsa_ended_self] at hca
    exact absurd hca (by simp)
  · rw [cachedDsa_ended_of_ne hc] at hca
    obtain ⟨heq, hne, hm⟩ := h.cached c area hca
    exact ⟨heq, hne, hm.ended hc⟩

theorem step (h : s.Sound) (a : Action β) (hst : Area.step s a = some s') : s'.Sound := by
  cases a with
  | call b =>
    rw [Area.step] at hst
    split_ifs at hst with hidle hcached
    · exact Option.some.inj hst ▸ h
    · exact Option.some.inj hst ▸ h.call b
  | run b handle => exact h.run hst
  | raise b =>
    rw [Area.step] at hst
    split_ifs at hst with hmay
    obtain rfl := Option.some.inj hst
    have hin : (s.pc b).Inside := by
      constructor
      all_goals
        intro hpc
        rw [hpc] at hmay
        exact Bool.false_ne_true hmay
    exact h.of_holder_of_grows (h.lock b hin) rfl (fun _ => h.lock b hin) trivial
      (grows_of_areas rfl) rfl rfl
  | exit b => exact Option.some.inj hst ▸ h.exit b

theorem reachable (hs : s.Sound) (h : Reachable Area.step (fun _ _ => True) s s') : s'.Sound :=
  h.invariant hs fun _ a _ ht _ hst => ht.step a hst

end Sound

end State

/-! ## One area -/

section

open State

variable {β : Type} [DecidableEq β] {s s' : State β} {b c : β} {area area' : Handle}

/-- A backend creates the area. -/
def creator : List (Action Bool) := .call true :: List.replicate 8 (.run true 7)

/-- Another attaches it. -/
def attacher : List (Action Bool) := .call false :: List.replicate 5 (.run false 0)

/-- Another attaches it when the creator is gone. -/
def successor : List (Action Bool) := .exit true :: attacher

/-- A step publishes a handle only if none is published. -/
theorem dsa_step (h : s.Sound) (hdsa : s.dsa ≠ dsmHandleInvalid) (a : Action β)
    (hst : step s a = some s') : s'.dsa = s.dsa := by
  cases a with
  | call b =>
    rw [step] at hst
    split_ifs at hst
    all_goals exact Option.some.inj hst ▸ rfl
  | run b handle =>
    have hready := h.ready b
    have hst : run s b handle = some s' := hst
    rw [run] at hst
    cases hpc : s.pc b <;> rw [hpc] at hst hready <;> simp only at hst
    -- The lock is held, and whoever comes here has found no handle under it.
    case publish area => exact absurd hready.1 hdsa
    case pin area =>
      obtain ⟨a, -, rfl⟩ := Option.map_eq_some_iff.1 hst
      rfl
    case attach =>
      cases ha : s.areas s.dsa <;> rw [ha] at hst <;> exact Option.some.inj hst ▸ rfl
    case idle => exact absurd hst (by simp)
    case want | create =>
      split_ifs at hst
      exact Option.some.inj hst ▸ rfl
    all_goals exact Option.some.inj hst ▸ rfl
  | raise b =>
    rw [step] at hst
    split_ifs at hst
    exact Option.some.inj hst ▸ rfl
  | exit b => exact Option.some.inj hst ▸ rfl

/-- What is published stays. -/
theorem dsa_eq (hs : s.Sound) (hdsa : s.dsa ≠ dsmHandleInvalid)
    (h : Reachable step (fun _ _ => True) s s') : s'.dsa = s.dsa := by
  induction h with
  | init => rfl
  | step h _ hst ih => exact (dsa_step (hs.reachable h) (ih.symm ▸ hdsa) _ hst).trans ih

/-- In every run: when a backend is attached at one moment and a backend at the same or a later
    moment, be it gone and back or another, they are attached to the same area, which the second
    has mapped and which is pinned. -/
theorem one_area (hs : Reachable step (fun _ _ => True) init s)
    (hs' : Reachable step (fun _ _ => True) s s') (hb : s.cachedDsa b = some area)
    (hc : s'.cachedDsa c = some area') : area' = area ∧ s'.Mapped c area ∧ s'.Pinned area := by
  have hsound := sound_init.reachable hs
  have hsound' := hsound.reachable hs'
  obtain ⟨rfl, hne, -⟩ := hsound.cached b area hb
  obtain ⟨rfl, hne', hm⟩ := hsound'.cached c area' hc
  have heq := dsa_eq hsound hne hs'
  exact ⟨heq, heq ▸ hm, heq ▸ hsound'.pinned hne'⟩

/-- The creator is gone when the other backend attaches the area. -/
theorem one_area_hand_over :
    let s := (Lib.run step init creator).get rfl
    let s' := (Lib.run step s successor).get rfl
    (7 : Handle) = 7 ∧ s'.Mapped false 7 ∧ s'.Pinned 7 := by
  intro s s'
  exact one_area (.of_run .init (meets_true creator init) (Option.some_get _).symm)
    (.of_run .init (meets_true successor s) (Option.some_get _).symm)
    (b := true) (c := false) rfl rfl

/-! ## No other area -/

/-- No call fails, and no backend ends inside of the function. -/
def Calm (s : State β) : Action β → Prop
  | .call _ | .run .. => True
  | .raise _ => False
  | .exit b => ¬(s.pc b).Inside

/-- The backend has made the area and has not published it. -/
def Pc.Makes (area : Handle) : Pc → Prop
  | .pin area' | .pinMapping area' | .publish area' => area' = area
  | _ => False

/-- Every area is published, or about to be. -/
def State.Tidy (s : State β) : Prop :=
  ∀ area, (s.areas area).isSome →
    area ≠ dsmHandleInvalid ∧ (area = s.dsa ∨ ∃ b, (s.pc b).Makes area)

/-- A step that makes no area, of a backend that goes on with the one it is making, if any. -/
theorem State.Tidy.of_pc (h : s.Tidy) {pc : Pc} (hpc : s'.pc = Function.update s.pc b pc)
    (hareas : ∀ area, (s'.areas area).isSome → (s.areas area).isSome) (hdsa : s'.dsa = s.dsa)
    (hmakes : ∀ area, (s.pc b).Makes area → pc.Makes area) : s'.Tidy := by
  intro area ha
  obtain ⟨hne, hcase⟩ := h area (hareas area ha)
  refine ⟨hne, ?_⟩
  rcases hcase with rfl | ⟨c, hc⟩
  · exact .inl hdsa.symm
  · refine .inr ⟨c, ?_⟩
    rw [hpc]
    by_cases heq : c = b
    · subst heq
      rw [Function.update_self]
      exact hmakes area hc
    · rwa [Function.update_of_ne heq]

theorem isSome_setArea {a : Segment β} (ha : (s.areas area).isSome) :
    ∀ area', ((s.setArea area a).areas area').isSome → (s.areas area').isSome := by
  intro area' ha'
  by_cases heq : area' = area
  · rwa [heq]
  · rwa [areas_setArea_of_ne heq] at ha'

theorem tidy_run (hs : s.Sound) (h : s.Tidy) {handle : Handle} (hst : run s b handle = some s') :
    s'.Tidy := by
  have hready := hs.ready b
  have hlock := hs.lock b
  rw [run] at hst
  cases hpc : s.pc b <;> rw [hpc] at hst hready hlock <;> simp only at hst
  case idle => exact absurd hst (by simp)
  case create =>
    split_ifs at hst with hnew
    obtain rfl := Option.some.inj hst
    intro area ha
    by_cases heq : area = handle
    · exact ⟨heq ▸ hnew.1, .inr ⟨b, by rw [pc_goto_self]; exact heq.symm⟩⟩
    · obtain ⟨hne, hcase⟩ :=
        h area ((congrArg Option.isSome (areas_setArea_of_ne heq)).symm.trans ha)
      refine ⟨hne, hcase.imp_right ?_⟩
      rintro ⟨c, hc⟩
      refine ⟨c, ?_⟩
      rwa [pc_goto_of_ne]
      rintro rfl
      rw [hpc] at hc
      exact hc
  case publish area =>
    obtain rfl := Option.some.inj hst
    intro area' ha
    obtain ⟨hne, hcase⟩ := h area' ha
    refine ⟨hne, .inl ?_⟩
    rcases hcase with heq | ⟨c, hc⟩
    · exact absurd (heq.trans hready.1) hne
    · -- only the backend itself is inside
      have hcb : c = b := by
        by_contra hcb
        refine hs.outside (hlock ⟨by simp, by simp⟩) hcb ?_
        constructor
        all_goals
          intro hpc'
          rw [hpc'] at hc
          exact hc
      rw [hcb, hpc] at hc
      exact hc.symm
  case pin area =>
    obtain ⟨a, ha, rfl⟩ := Option.map_eq_some_iff.1 hst
    exact h.of_pc rfl (isSome_setArea (by rw [ha]; rfl)) rfl fun area' hm => by rwa [hpc] at hm
  case attach =>
    cases ha : s.areas s.dsa <;> rw [ha] at hst <;> obtain rfl := Option.some.inj hst
    · exact h.of_pc rfl (fun _ => id) rfl fun area' hm => by rw [hpc] at hm; exact hm.elim
    · exact h.of_pc rfl (isSome_setArea (by rw [ha]; rfl)) rfl
        fun area' hm => by rw [hpc] at hm; exact hm.elim
  case want =>
    split_ifs at hst
    obtain rfl := Option.some.inj hst
    exact h.of_pc rfl (fun _ => id) rfl fun area' hm => by rw [hpc] at hm; exact hm.elim
  case pinMapping area =>
    obtain rfl := Option.some.inj hst
    exact h.of_pc rfl (fun _ => id) rfl fun area' hm => by rwa [hpc] at hm
  all_goals
    obtain rfl := Option.some.inj hst
    exact h.of_pc rfl (fun _ => id) rfl fun area' hm => by rw [hpc] at hm; exact hm.elim

theorem tidy_step (hs : s.Sound) (h : s.Tidy) (a : Action β) (hok : Calm s a)
    (hst : step s a = some s') : s'.Tidy := by
  cases a with
  | call b =>
    rw [step] at hst
    split_ifs at hst with hidle hcached <;> obtain rfl := Option.some.inj hst
    · exact h
    · exact h.of_pc rfl (fun _ => id) rfl fun area hm => by rw [hidle] at hm; exact hm.elim
  | run b handle => exact tidy_run hs h hst
  | raise b => exact hok.elim
  | exit b =>
    obtain rfl := Option.some.inj hst
    refine h.of_pc rfl (fun area ha => ?_) rfl fun area hm => hok ?_
    · obtain ⟨a, ha⟩ := Option.isSome_iff_exists.1 ha
      obtain ⟨a₀, ha₀, -⟩ := Option.bind_eq_some_iff.1 ha
      rw [ha₀]
      rfl
    · constructor
      all_goals
        intro hpc
        rw [hpc] at hm
        exact hm

theorem tidy (h : Reachable step Calm init s) : s.Tidy := by
  induction h with
  | init => exact fun _ h => absurd h (by simp [init])
  | step h hok hst ih =>
    exact tidy_step (sound_init.reachable (h.mono fun _ _ _ => trivial)) ih _ hok hst

/-- In a run in which no call fails, and no backend ends inside of the function, there is never
    an area beside the published one, but for the one that is about to be. -/
theorem no_stray (h : Reachable step Calm init s) (ha : (s.areas area).isSome) :
    area = s.dsa ∨ ∃ b, (s.pc b).Makes area :=
  (tidy h area ha).2

theorem no_stray_attacher :
    let s := (Lib.run step init (creator ++ attacher)).get rfl
    (7 : Handle) = s.dsa ∨ ∃ b, (s.pc b).Makes 7 := by
  intro s
  have hmeets : Meets step Calm init (creator ++ attacher) := by
    simp [creator, attacher, Meets, Calm]
  exact no_stray (.of_run .init hmeets (Option.some_get _).symm) rfl

/-- A call that is about to return, not with an error, has attached the backend. -/
theorem attached (h : Reachable step (fun _ _ => True) init s) (hpc : s.pc b = .release) :
    (s.cachedDsa b).isSome := by
  have hready := (sound_init.reachable h).ready b
  rwa [hpc] at hready

/-- The published handle can be attached. -/
theorem attach_finds (h : Reachable step (fun _ _ => True) init s) (hpc : s.pc b = .attach) :
    (s.areas s.dsa).isSome := by
  have hready := (sound_init.reachable h).ready b
  rw [hpc] at hready
  obtain ⟨a, ha, -⟩ := (sound_init.reachable h).pinned hready
  rw [ha]
  rfl

end

end PgRedis.Area
