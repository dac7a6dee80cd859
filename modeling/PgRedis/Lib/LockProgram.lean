import Mathlib
import PgRedis.Lib.Run

/-!
# Lock programs

What threads do with their locks. A *lock program* keeps of a program the locks it takes and
gives back, the errors it may raise and where they are caught, and the work that must be done
with no lock held; everything it decides by its data is a choice. Threads run their programs at
the same time, one step of one of them after the other (`LockProgram.step`): a step that takes a
lock waits until no other thread holds it in a mode that conflicts.

The locks are ranked. `LockProgram.wp` is the weakest precondition of a program: of the locks
held, that the program never takes one that is not of a higher rank than all it holds, never
gives back one it does not hold, and works outside locks only when it holds none. Threads
that meet it (`Thread.Sound`) keep meeting it (`Sound.exec`), so that

* no lock is held in conflicting modes (`Exclusive.step`), and none twice (`Ascending.nodup`);
* of the threads that are not done, not all wait for each other: from every state they reach,
  they can all come to their ends (`exists_run_finished`).
-/

namespace PgRedis.Lib

/-- How a lock is held. -/
inductive LockMode
  | shared
  | exclusive
  deriving DecidableEq, Repr

/-- The locks a thread holds, the last one taken first. -/
abbrev Held (ι : Type*) := List (ι × LockMode)

/-- A program with locks in `ι`. -/
inductive LockProgram (ι : Type*)
  | skip
  | acquire (l : ι) (m : LockMode)
  | release (l : ι)
  /-- All locks held are given back. -/
  | releaseAll
  /-- Work that must be done with no lock held. -/
  | work
  | raise
  | seq (p q : LockProgram ι)
  | either (p q : LockProgram ι)
  /-- Any number of times. -/
  | loop (p : LockProgram ι)
  /-- An error of `p` is caught by `q`, which has the locks then held. -/
  | protect (p q : LockProgram ι)
  deriving DecidableEq, Repr

/-- What a thread has still to do: to run a program, or, when an error is raised, to catch it. -/
inductive Frame (ι : Type*)
  | run (p : LockProgram ι)
  | handler (p : LockProgram ι)
  deriving DecidableEq, Repr

/-- A thread: the locks it holds, and what it has to do. -/
structure Thread (ι : Type*) where
  held : Held ι
  stack : List (Frame ι)
  deriving DecidableEq, Repr

attribute [ext] Thread

namespace LockProgram

variable {ι τ : Type*}

/-- What takes no lock and may raise an error. -/
def mayRaise : LockProgram ι := either skip raise

/-- A program under a lock. -/
def under (l : ι) (m : LockMode) (p : LockProgram ι) : LockProgram ι :=
  seq (acquire l m) (seq p (release l))

/-- Programs one after the other. -/
def seqs (ps : List (LockProgram ι)) : LockProgram ι := ps.foldr seq skip

/-- One of several programs, or none. -/
def anyOf (ps : List (LockProgram ι)) : LockProgram ι := ps.foldr either skip

/-! ## Steps -/

/-- The stack after an error: it is caught by the innermost handler. -/
def unwind : List (Frame ι) → List (Frame ι)
  | [] => []
  | .run _ :: k => unwind k
  | .handler q :: k => .run q :: k

variable [DecidableEq ι]

/-- Giving a lock back. -/
def drop (l : ι) (H : Held ι) : Held ι := H.eraseP fun h => h.1 = l

/-- A step of a thread, where `free` tells the locks it may take and `b` decides a choice. The
    thread ends when an error is not caught, and its locks are given back. -/
def exec (free : ι → LockMode → Bool) (b : Bool) (th : Thread ι) : Option (Thread ι) :=
  match th.stack with
  | [] => none
  | .handler _ :: k => some ⟨th.held, k⟩
  | .run .skip :: k => some ⟨th.held, k⟩
  | .run (.acquire l m) :: k => if free l m then some ⟨(l, m) :: th.held, k⟩ else none
  | .run (.release l) :: k => if l ∈ th.held.map Prod.fst then some ⟨drop l th.held, k⟩ else none
  | .run .releaseAll :: k => some ⟨[], k⟩
  | .run .work :: k => some ⟨th.held, k⟩
  | .run .raise :: k => some ⟨if (unwind k).isEmpty then [] else th.held, unwind k⟩
  | .run (.seq p q) :: k => some ⟨th.held, .run p :: .run q :: k⟩
  | .run (.either p q) :: k => some ⟨th.held, .run (if b then p else q) :: k⟩
  | .run (.loop p) :: k => some ⟨th.held, if b then .run p :: .run (.loop p) :: k else k⟩
  | .run (.protect p q) :: k => some ⟨th.held, .run p :: .handler q :: k⟩

variable [Fintype τ] [DecidableEq τ]

/-- No thread holds the lock in a mode that conflicts. -/
def free (s : τ → Thread ι) (l : ι) (m : LockMode) : Bool :=
  decide (∀ u, ∀ h ∈ (s u).held, h.1 = l → h.2 = .shared ∧ m = .shared)

/-- A step of one of the threads. -/
def step (s : τ → Thread ι) (a : τ × Bool) : Option (τ → Thread ι) :=
  (exec (free s) a.2 (s a.1)).map (Function.update s a.1)

/-! ## Preconditions -/

variable (rank : ι → ℕ)

/-- The weakest precondition of a program, of the locks held: that it observes the order of the
    locks, that `Q` holds of the locks at its end, and `R` when it raises an error. -/
def wp : LockProgram ι → (Held ι → Prop) → (Held ι → Prop) → Held ι → Prop
  | skip, Q, _, H => Q H
  | acquire l m, Q, _, H => (∀ h ∈ H, rank h.1 < rank l) ∧ Q ((l, m) :: H)
  | release l, Q, _, H => l ∈ H.map Prod.fst ∧ Q (drop l H)
  | releaseAll, Q, _, _ => Q []
  | work, Q, _, H => H = [] ∧ Q H
  | raise, _, R, H => R H
  | seq p q, Q, R, H => wp p (wp q Q R) R H
  | either p q, Q, R, H => wp p Q R H ∧ wp q Q R H
  | loop p, Q, R, H => ∃ I : Held ι → Prop, I H ∧ ∀ H', I H' → wp p I R H' ∧ Q H'
  | protect p q, Q, R, H => wp p Q (wp q Q R) H

variable {rank}

/-- The rule of consequence. -/
theorem wp_mono {Q Q' R R' : Held ι → Prop} (p : LockProgram ι) {H : Held ι}
    (h : wp rank p Q R H) (hQ : ∀ H, Q H → Q' H) (hR : ∀ H, R H → R' H) :
    wp rank p Q' R' H := by
  induction p generalizing Q Q' R R' H with
  | skip => exact hQ H h
  | acquire l m => exact ⟨h.1, hQ _ h.2⟩
  | release l => exact ⟨h.1, hQ _ h.2⟩
  | releaseAll => exact hQ _ h
  | work => exact ⟨h.1, hQ _ h.2⟩
  | raise => exact hR H h
  | seq p q ihp ihq => exact ihp h (fun _ h => ihq h hQ hR) hR
  | either p q ihp ihq => exact ⟨ihp h.1 hQ hR, ihq h.2 hQ hR⟩
  | loop p ih =>
    obtain ⟨I, hI, hp⟩ := h
    exact ⟨I, hI, fun H' hH' => ⟨ih (hp H' hH').1 (fun _ h => h) hR, hQ _ (hp H' hH').2⟩⟩
  | protect p q ihp ihq => exact ihp h hQ fun _ h => ihq h hQ hR

/-- A program that is begun and ended with no lock held. When it raises an error, it may hold
    some. -/
def Closed (rank : ι → ℕ) (p : LockProgram ι) : Prop :=
  wp rank p (fun H => H = []) (fun _ => True) []

namespace Closed

variable {p q : LockProgram ι}

theorem skip : Closed rank (skip : LockProgram ι) := rfl

theorem work : Closed rank (work : LockProgram ι) := ⟨rfl, rfl⟩

theorem raise : Closed rank (raise : LockProgram ι) := trivial

theorem seq (hp : Closed rank p) (hq : Closed rank q) : Closed rank (p.seq q) :=
  wp_mono p hp (by rintro _ rfl; exact hq) fun _ h => h

theorem either (hp : Closed rank p) (hq : Closed rank q) : Closed rank (p.either q) := ⟨hp, hq⟩

theorem loop (hp : Closed rank p) : Closed rank p.loop :=
  ⟨fun H => H = [], rfl, by rintro _ rfl; exact ⟨hp, rfl⟩⟩

/-- An error is caught by what first gives all locks back. -/
theorem protect (hp : Closed rank p) (hq : Closed rank q) :
    Closed rank (p.protect (LockProgram.releaseAll.seq q)) :=
  wp_mono p hp (fun _ h => h) fun _ _ => hq

end Closed

/-! ## Derived programs -/

/-- The program has nothing to do with locks. -/
def LockFree : LockProgram ι → Prop
  | skip | raise => True
  | seq p q | either p q | protect p q => p.LockFree ∧ q.LockFree
  | loop p => p.LockFree
  | _ => False

/-- Under whatever locks it is run. -/
theorem LockFree.wp {p : LockProgram ι} {Q R : Held ι → Prop} {H : Held ι} (hp : p.LockFree)
    (hQ : Q H) (hR : R H) : wp rank p Q R H := by
  induction p generalizing Q R with
  | skip => exact hQ
  | raise => exact hR
  | seq p q ihp ihq => exact ihp hp.1 (ihq hp.2 hQ hR) hR
  | either p q ihp ihq => exact ⟨ihp hp.1 hQ hR, ihq hp.2 hQ hR⟩
  | loop p ih => exact ⟨fun H' => H' = H, rfl, by rintro _ rfl; exact ⟨ih hp rfl hR, hQ⟩⟩
  | protect p q ihp ihq => exact ihp hp.1 hQ (ihq hp.2 hQ hR)
  | acquire | release | releaseAll | work => exact absurd hp not_false

omit [DecidableEq ι] in
theorem lockFree_mayRaise : (mayRaise : LockProgram ι).LockFree := ⟨trivial, trivial⟩

theorem closed_mayRaise : Closed rank (mayRaise : LockProgram ι) := .either .skip .raise

theorem closed_seqs {ps : List (LockProgram ι)} (h : ∀ p ∈ ps, Closed rank p) :
    Closed rank (seqs ps) := by
  induction ps with
  | nil => exact .skip
  | cons p ps ih =>
    rw [List.forall_mem_cons] at h
    exact .seq h.1 (ih h.2)

theorem closed_anyOf {ps : List (LockProgram ι)} (h : ∀ p ∈ ps, Closed rank p) :
    Closed rank (anyOf ps) := by
  induction ps with
  | nil => exact .skip
  | cons p ps ih =>
    rw [List.forall_mem_cons] at h
    exact .either h.1 (ih h.2)

theorem drop_cons_self (l : ι) (m : LockMode) (H : Held ι) : drop l ((l, m) :: H) = H := by
  simp [drop]

/-- A program that has nothing to do with locks, under one. -/
theorem closed_under {l : ι} {m : LockMode} {p : LockProgram ι} (hp : p.LockFree) :
    Closed rank (under l m p) :=
  ⟨by simp, hp.wp ⟨List.mem_cons_self, drop_cons_self l m []⟩ trivial⟩

/-- Locks taken in their order. -/
theorem wp_acquireAll {m : LockMode} {Q R : Held ι → Prop} : ∀ {ls : List ι} {H : Held ι},
    ls.Pairwise (fun l l' => rank l < rank l') → (∀ l ∈ ls, ∀ h ∈ H, rank h.1 < rank l) →
      Q (ls.reverse.map (fun l => (l, m)) ++ H) →
        wp rank (seqs (ls.map fun l => acquire l m)) Q R H
  | [], _, _, _, h => h
  | l :: ls, H, hls, hH, h => by
    rw [List.pairwise_cons] at hls
    refine ⟨hH l List.mem_cons_self, wp_acquireAll hls.2 (fun l' hl' x hx => ?_) ?_⟩
    · rcases List.mem_cons.1 hx with rfl | hx
      · exact hls.1 l' hl'
      · exact hH l' (List.mem_cons_of_mem l hl') x hx
    · rwa [List.reverse_cons, List.map_append, List.append_assoc] at h

/-- Locks given back, the last one taken first. -/
theorem wp_releaseEach {m : LockMode} {Q R : Held ι → Prop} : ∀ {ls : List ι} {H : Held ι},
    Q H → wp rank (seqs (ls.map fun l => release l)) Q R (ls.map (fun l => (l, m)) ++ H)
  | [], _, h => h
  | l :: ls, H, h => by
    refine ⟨List.mem_cons_self, ?_⟩
    rw [List.map_cons, List.cons_append, drop_cons_self]
    exact wp_releaseEach h

/-! ## Sound threads -/

variable (rank) in
/-- What must hold of the locks for the rest of a stack to be run, and for an error to be
    caught by it. -/
def posts : List (Frame ι) → (Held ι → Prop) × (Held ι → Prop)
  | [] => (fun H => H = [], fun _ => True)
  | .run p :: k => (wp rank p (posts k).1 (posts k).2, (posts k).2)
  | .handler q :: k => ((posts k).1, wp rank q (posts k).1 (posts k).2)

end LockProgram

open LockProgram

variable {ι τ : Type*}

/-- The thread observes the order of the locks in all it has to do, and has none at its end. -/
def Thread.Sound (rank : ι → ℕ) [DecidableEq ι] (th : Thread ι) : Prop :=
  (posts rank th.stack).1 th.held

/-- A thread that has all of a program to do. -/
def Thread.start (p : LockProgram ι) : Thread ι := ⟨[], [.run p]⟩

namespace Thread

variable [DecidableEq ι] {rank : ι → ℕ} {th th' : Thread ι} {free : ι → LockMode → Bool} {b : Bool}

/-- Where an error is caught, the thread observes the order of the locks; where it is not, the
    thread has ended. -/
theorem sound_unwind : ∀ {k : List (Frame ι)} {H : Held ι}, (posts rank k).2 H →
    Sound rank ⟨if (unwind k).isEmpty then [] else H, unwind k⟩
  | [], _, _ => rfl
  | .run _ :: k, _, h => sound_unwind (k := k) h
  | .handler _ :: _, _, h => h

/-- A step keeps to the order of the locks. -/
theorem Sound.exec (h : th.Sound rank) (hex : LockProgram.exec free b th = some th') :
    th'.Sound rank := by
  obtain ⟨H, stack⟩ := th
  rcases stack with _ | ⟨f, k⟩
  · exact absurd hex (by simp [LockProgram.exec])
  -- A program on top of the stack takes its next step; a handler that is reached without an
  -- error is dropped.
  rcases f with p | q
  · cases p with
    | acquire l m =>
      simp only [LockProgram.exec] at hex
      split_ifs at hex
      exact Option.some.inj hex ▸ h.2
    | release l =>
      simp only [LockProgram.exec] at hex
      split_ifs at hex
      exact Option.some.inj hex ▸ h.2
    | work => exact Option.some.inj hex ▸ h.2
    | raise => exact Option.some.inj hex ▸ sound_unwind (k := k) h
    | either p q =>
      obtain rfl := Option.some.inj hex
      cases b
      · exact h.2
      · exact h.1
    -- The invariant of the loop holds where it starts again.
    | loop p =>
      obtain rfl := Option.some.inj hex
      obtain ⟨I, hI, hp⟩ := h
      cases b
      · exact (hp H hI).2
      · exact wp_mono p (hp H hI).1 (fun _ hI' => ⟨I, hI', hp⟩) fun _ h => h
    | _ => exact Option.some.inj hex ▸ h
  · exact Option.some.inj hex ▸ h

/-- A step of a thread goes ahead, or the thread waits for a lock, which is of a higher rank than
    all it holds. -/
theorem Sound.exec_or_waits (h : th.Sound rank) (hne : th.stack ≠ [])
    (free : ι → LockMode → Bool) (b : Bool) :
    (LockProgram.exec free b th).isSome = true ∨
      ∃ l m, free l m = false ∧ ∀ x ∈ th.held, rank x.1 < rank l := by
  obtain ⟨H, stack⟩ := th
  rcases stack with _ | ⟨f, k⟩
  · exact absurd rfl hne
  rcases f with p | q
  · cases p with
    | acquire l m =>
      cases hfree : free l m with
      | false => exact .inr ⟨l, m, hfree, h.1⟩
      | true => exact .inl (by simp [LockProgram.exec, hfree])
    | release l =>
      refine .inl ?_
      simp only [LockProgram.exec, if_pos h.1]
      rfl
    | _ => exact .inl rfl
  · exact .inl rfl

/-! ## Coming to an end -/

end Thread

namespace LockProgram

/-- How many steps a program takes at most, if it does not repeat its loops and takes the second
    of two branches. -/
def size : LockProgram ι → ℕ
  | seq p q => p.size + q.size + 1
  | either _ q => q.size + 1
  | protect p q => p.size + q.size + 2
  | _ => 1

/-- The same of what a thread has to do. -/
def stackSize : List (Frame ι) → ℕ
  | [] => 0
  | .run p :: k => p.size + stackSize k
  | .handler q :: k => q.size + 1 + stackSize k

theorem stackSize_unwind : ∀ k : List (Frame ι), stackSize (unwind k) ≤ stackSize k
  | [] => Nat.le_refl _
  | .run p :: k => (stackSize_unwind k).trans (Nat.le_add_left _ _)
  | .handler q :: k => by
    rw [unwind, stackSize, stackSize]
    omega

variable [DecidableEq ι] {rank : ι → ℕ}

/-- With no loop repeated, a step comes closer to the end. -/
theorem stackSize_exec {free : ι → LockMode → Bool} {th th' : Thread ι}
    (hex : exec free false th = some th') : stackSize th'.stack < stackSize th.stack := by
  obtain ⟨H, stack⟩ := th
  rcases stack with _ | ⟨f, k⟩
  · exact absurd hex (by simp [exec])
  rcases f with p | q
  · cases p with
    | acquire l m =>
      simp only [exec] at hex
      split_ifs at hex
      obtain rfl := Option.some.inj hex
      simp [stackSize, size]
    | release l =>
      simp only [exec] at hex
      split_ifs at hex
      obtain rfl := Option.some.inj hex
      simp [stackSize, size]
    -- An error drops programs and leaves handlers, each smaller than what it guards.
    | raise =>
      obtain rfl := Option.some.inj hex
      have hle := stackSize_unwind k
      simp only [stackSize, size]
      omega
    | _ =>
      obtain rfl := Option.some.inj hex
      simp only [stackSize, size, Bool.false_eq_true, if_false]
      omega
  · obtain rfl := Option.some.inj hex
    simp only [stackSize]
    omega

variable [Fintype τ] [DecidableEq τ] {s s' : τ → Thread ι}

/-- All threads keep to the order of the locks. -/
theorem sound_step {a : τ × Bool} (hs : ∀ t, (s t).Sound rank) (hst : step s a = some s') (t : τ) :
    (s' t).Sound rank := by
  obtain ⟨th, hex, rfl⟩ := Option.map_eq_some_iff.1 hst
  by_cases ht : t = a.1
  · rw [ht, Function.update_self]
    exact (hs a.1).exec hex
  · rw [Function.update_of_ne ht]
    exact hs t

omit [DecidableEq τ] in
/-- A lock that may not be taken is held. -/
theorem exists_held_of_free_eq_false {l : ι} {m : LockMode} (h : free s l m = false) :
    ∃ u m', (l, m') ∈ (s u).held := by
  simp only [free, decide_eq_false_iff_not, not_forall] at h
  obtain ⟨u, ⟨l', m'⟩, hmem, rfl, -⟩ := h
  exact ⟨u, m', hmem⟩

omit [DecidableEq τ] in
/-- Not all threads wait for each other: while one is not done, one can take a step. -/
theorem progress (hs : ∀ t, (s t).Sound rank) {t : τ} (ht : (s t).stack ≠ []) :
    ∃ u, (exec (free s) false (s u)).isSome = true := by
  by_contra hstuck
  push Not at hstuck
  -- Otherwise every thread that is not done waits for a lock; take the one of the highest rank.
  have hwaits : ∀ u : {u // (s u).stack ≠ []}, ∃ l m, free s l m = false ∧
      ∀ x ∈ (s u).held, rank x.1 < rank l := fun u =>
    ((hs u).exec_or_waits u.2 (free s) false).resolve_left (hstuck u)
  choose lock mode hlock hheld using hwaits
  have : Nonempty {u // (s u).stack ≠ []} := ⟨⟨t, ht⟩⟩
  obtain ⟨u, hu⟩ := Finite.exists_max fun u => rank (lock u)
  -- The thread that holds this lock has none at its end, so it is not done, and waits as well.
  obtain ⟨v, m', hmem⟩ := exists_held_of_free_eq_false (hlock u)
  have hv : (s v).stack ≠ [] := by
    intro hnil
    have hsound := hs v
    rw [Thread.Sound, hnil] at hsound
    exact absurd (hsound ▸ hmem) List.not_mem_nil
  exact absurd (hheld ⟨v, hv⟩ _ hmem) (Nat.not_lt.2 (hu ⟨v, hv⟩))

/-- All threads can come to their ends. -/
theorem exists_run_finished (hs : ∀ t, (s t).Sound rank) :
    ∃ as s', run step s as = some s' ∧ ∀ t, s' t = ⟨[], []⟩ := by
  -- On what is left of all threads together: some thread can take a step, and its step makes
  -- that smaller.
  induction hn : ∑ t, stackSize (s t).stack using Nat.strong_induction_on generalizing s with
  | _ n ih =>
    by_cases hdone : ∀ t, (s t).stack = []
    · refine ⟨[], s, rfl, fun t => ?_⟩
      have hsound := hs t
      rw [Thread.Sound, hdone t] at hsound
      exact Thread.ext hsound (hdone t)
    · push Not at hdone
      obtain ⟨t, ht⟩ := hdone
      obtain ⟨u, hu⟩ := progress hs ht
      obtain ⟨th, hex⟩ := Option.isSome_iff_exists.1 hu
      have hst : step s (u, false) = some (Function.update s u th) := by rw [step, hex]; rfl
      have hlt : ∑ t, stackSize (Function.update s u th t).stack < n := by
        rw [← hn]
        refine Finset.sum_lt_sum (fun v _ => ?_) ⟨u, Finset.mem_univ u, ?_⟩
        · by_cases hv : v = u
          · rw [hv, Function.update_self]
            exact (stackSize_exec hex).le
          · rw [Function.update_of_ne hv]
        · rw [Function.update_self]
          exact stackSize_exec hex
      obtain ⟨as, s', hrun, hs'⟩ := ih _ hlt (sound_step hs hst) rfl
      exact ⟨(u, false) :: as, s', by rw [run, hst]; exact hrun, hs'⟩

/-! ## Exclusion -/

/-- No two threads hold a lock in modes that conflict. -/
def Exclusive (s : τ → Thread ι) : Prop :=
  ∀ t u, t ≠ u → ∀ l m m', (l, m) ∈ (s t).held → (l, m') ∈ (s u).held →
    m = .shared ∧ m' = .shared

/-- What a thread holds after a step it held before, or it was free to take it. -/
theorem mem_held_exec {free : ι → LockMode → Bool} {b : Bool} {th th' : Thread ι}
    (hex : exec free b th = some th') {x : ι × LockMode} (hx : x ∈ th'.held) :
    x ∈ th.held ∨ free x.1 x.2 = true := by
  obtain ⟨H, stack⟩ := th
  rcases stack with _ | ⟨f, k⟩
  · exact absurd hex (by simp [exec])
  rcases f with p | q
  · cases p with
    | acquire l m =>
      simp only [exec] at hex
      split_ifs at hex with hfree
      obtain rfl := Option.some.inj hex
      rcases List.mem_cons.1 hx with rfl | hx
      · exact .inr hfree
      · exact .inl hx
    | release l =>
      simp only [exec] at hex
      split_ifs at hex
      obtain rfl := Option.some.inj hex
      exact .inl (List.mem_of_mem_eraseP hx)
    | releaseAll =>
      obtain rfl := Option.some.inj hex
      exact absurd hx List.not_mem_nil
    | raise =>
      obtain rfl := Option.some.inj hex
      simp only at hx
      split_ifs at hx
      · exact absurd hx List.not_mem_nil
      · exact .inl hx
    | _ =>
      obtain rfl := Option.some.inj hex
      exact .inl hx
  · obtain rfl := Option.some.inj hex
    exact .inl hx

omit [DecidableEq τ] in
/-- A lock free to be taken is held by others only in modes that do not conflict. -/
theorem shared_of_free {u : τ} {l : ι} {m m' : LockMode} (h : free s l m = true)
    (hu : (l, m') ∈ (s u).held) : m = .shared ∧ m' = .shared := by
  obtain ⟨hm', hm⟩ := of_decide_eq_true h u _ hu rfl
  exact ⟨hm, hm'⟩

theorem Exclusive.step {a : τ × Bool} (hs : Exclusive s) (hst : step s a = some s') :
    Exclusive s' := by
  obtain ⟨th, hex, rfl⟩ := Option.map_eq_some_iff.1 hst
  intro t u hne l m m' ht hu
  by_cases hta : t = a.1
  · subst hta
    rw [Function.update_self] at ht
    rw [Function.update_of_ne hne.symm] at hu
    rcases mem_held_exec hex ht with ht | hfree
    · exact hs _ u hne l m m' ht hu
    · exact shared_of_free hfree hu
  · rw [Function.update_of_ne hta] at ht
    by_cases hua : u = a.1
    · subst hua
      rw [Function.update_self] at hu
      rcases mem_held_exec hex hu with hu | hfree
      · exact hs t _ hne l m m' ht hu
      · exact (shared_of_free hfree ht).symm
    · rw [Function.update_of_ne hua] at hu
      exact hs t u hne l m m' ht hu

/-! ## The locks of a thread -/

/-- The locks are of ever higher ranks, as they were taken. -/
def Ascending (rank : ι → ℕ) (H : Held ι) : Prop := H.Pairwise fun x y => rank y.1 < rank x.1

omit [DecidableEq ι] in
/-- No lock is held twice. -/
theorem Ascending.nodup {H : Held ι} (h : Ascending rank H) : (H.map Prod.fst).Nodup := by
  rw [List.Nodup, List.pairwise_map]
  refine h.imp fun hlt heq => ?_
  rw [heq] at hlt
  exact Nat.lt_irrefl _ hlt

theorem Ascending.exec {free : ι → LockMode → Bool} {b : Bool} {th th' : Thread ι}
    (h : Ascending rank th.held) (hs : th.Sound rank) (hex : exec free b th = some th') :
    Ascending rank th'.held := by
  obtain ⟨H, stack⟩ := th
  rcases stack with _ | ⟨f, k⟩
  · exact absurd hex (by simp [LockProgram.exec])
  rcases f with p | q
  · cases p with
    | acquire l m =>
      simp only [LockProgram.exec] at hex
      split_ifs at hex
      obtain rfl := Option.some.inj hex
      exact List.pairwise_cons.2 ⟨hs.1, h⟩
    | release l =>
      simp only [LockProgram.exec] at hex
      split_ifs at hex
      obtain rfl := Option.some.inj hex
      exact h.sublist List.eraseP_sublist
    | releaseAll =>
      obtain rfl := Option.some.inj hex
      exact .nil
    | raise =>
      obtain rfl := Option.some.inj hex
      simp only
      split_ifs
      · exact .nil
      · exact h
    | _ =>
      obtain rfl := Option.some.inj hex
      exact h
  · obtain rfl := Option.some.inj hex
    exact h

/-! ## Runs -/

/-- What holds of threads with closed programs, whatever they have done. -/
structure Safe (rank : ι → ℕ) (s : τ → Thread ι) : Prop where
  sound : ∀ t, (s t).Sound rank
  exclusive : Exclusive s
  ascending : ∀ t, Ascending rank (s t).held

omit [Fintype τ] [DecidableEq τ] in
theorem safe_start {p : τ → LockProgram ι} (h : ∀ t, Closed rank (p t)) :
    Safe rank fun t => Thread.start (p t) where
  sound t := h t
  exclusive _ _ _ _ _ _ ht := absurd ht List.not_mem_nil
  ascending _ := .nil

theorem Safe.step {a : τ × Bool} (hs : Safe rank s) (hst : step s a = some s') : Safe rank s' where
  sound := sound_step hs.sound hst
  exclusive := hs.exclusive.step hst
  ascending t := by
    obtain ⟨th, hex, rfl⟩ := Option.map_eq_some_iff.1 hst
    by_cases ht : t = a.1
    · rw [ht, Function.update_self]
      exact (hs.ascending a.1).exec (hs.sound a.1) hex
    · rw [Function.update_of_ne ht]
      exact hs.ascending t

theorem safe_of_reachable {p : τ → LockProgram ι} (h : ∀ t, Closed rank (p t))
    (hr : Reachable step (fun _ _ => True) (fun t => Thread.start (p t)) s) : Safe rank s :=
  hr.invariant (safe_start h) fun _ _ _ hs _ hst => hs.step hst

omit [Fintype τ] [DecidableEq τ] in
/-- A thread that is about to work outside locks holds none. -/
theorem Safe.held_of_work (hs : Safe rank s) {t : τ} {k : List (Frame ι)}
    (hk : (s t).stack = .run .work :: k) : (s t).held = [] := by
  have hsound := hs.sound t
  rw [Thread.Sound, hk] at hsound
  exact hsound.1

omit [Fintype τ] [DecidableEq τ] in
/-- A lock that is given back is held. -/
theorem Safe.mem_held_of_release (hs : Safe rank s) {t : τ} {l : ι} {k : List (Frame ι)}
    (hk : (s t).stack = .run (.release l) :: k) : l ∈ (s t).held.map Prod.fst := by
  have hsound := hs.sound t
  rw [Thread.Sound, hk] at hsound
  exact hsound.1

end LockProgram

end PgRedis.Lib
