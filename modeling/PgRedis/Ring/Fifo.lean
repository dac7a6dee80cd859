import PgRedis.Ring.Drain

/-!
# Drains in order

The drains of `PgRedis.Ring.Drain` without `FLUSHALL`: publishes and any number of
drainers, with the batches released so far on record. The consumer lock is given up
between the collect of a batch and its release, so what keeps drainers apart is only
that the slots of a batch are `DRAINING`.

`fifo` shows that this suffices: at most one drainer holds a batch, a batch is the run
of events from `read_head` on, and the released batches one after the other are the
published events before `read_head`.
-/

namespace PgRedis.Ring.Fifo

open Lib

variable {cap : ℕ} {ε δ : Type*}

/-- The state of the drains, and the events of the batches released so far. -/
structure State (cap : ℕ) (ε δ : Type*) where
  drain : Drain.State cap ε δ
  released : List (List ε)

/-- The state of a fresh ring. -/
def init [Inhabited ε] : State cap ε δ := ⟨Drain.init, []⟩

/-- The record after an action on `s`. -/
def record (s : State cap ε δ) : Drain.Action ε δ → List (List ε)
  | .release d => s.released ++ ((s.drain.batch d).map Drain.Batch.events).toList
  | _ => s.released

/-- One step; there is no `FLUSHALL`. -/
def step [DecidableEq δ] (s : State cap ε δ) (a : Drain.Action ε δ) : Option (State cap ε δ) :=
  match a with
  | .dropAll => none
  | a => (Drain.step s.drain a).map fun d => ⟨d, record s a⟩

/-- The invariant: no batch is left behind by `read_head`, and what was released is what
    was published before `read_head`. -/
structure Inv (s : State cap ε δ) : Prop where
  drain : Drain.Inv s.drain
  base : ∀ d b, s.drain.batch d = some b → b.base = s.drain.ring.readHead
  released : s.released.flatten = s.drain.published.take s.drain.ring.readHead

theorem inv_init [Inhabited ε] : Inv (init : State cap ε δ) where
  drain := Drain.inv_init
  base _ _ h := absurd h (by simp [init, Drain.init])
  released := rfl

section

variable {s : State cap ε δ}

/-- The events of a batch are those published from `read_head` on. -/
theorem Inv.events (h : Inv s) {d : δ} {b : Drain.Batch ε} (hb : s.drain.batch d = some b) :
    b.events = (s.drain.published.drop s.drain.ring.readHead).take b.size := by
  have hf := h.drain.flight d b hb (h.base d b hb)
  have hle := hf.le
  have hw := h.drain.holds.write
  apply List.ext_getElem
  · rw [List.length_take, List.length_drop, Drain.Batch.size]
    rw [Drain.Batch.size] at hle
    omega
  · intro i hi _
    rw [List.getElem_take, List.getElem_drop, ← hf.payload i hi]
    exact h.drain.holds.stored _ (by rw [← hw]; have := hf.le; rw [Drain.Batch.size] at this; omega)
      (Nat.le_add_right _ _)

/-- A collect while a batch is held takes nothing. -/
theorem Inv.collect_of_held (h : Inv s) {d : δ} {b : Drain.Batch ε}
    (hb : s.drain.batch d = some b) (max : ℕ) : s.drain.ring.collect max = ([], s.drain.ring) := by
  have hf := h.drain.flight d b hb (h.base d b hb)
  rcases Drain.collect_cases h.drain.holds max with ⟨hnil, hring⟩ | ⟨-, hready, -⟩
  · exact Prod.ext hnil hring
  · exact absurd hready (hf.not_ready (h.drain.pos d b hb))

/-- A collect while no batch is held takes the next events, as many as it may. -/
theorem Inv.collect_of_idle (h : Inv s) (hidle : ∀ d, s.drain.batch d = none) (max : ℕ) :
    (s.drain.ring.collect max).1 =
      (s.drain.published.drop s.drain.ring.readHead).take max := by
  obtain ⟨n, hn, hle, hevs, -, -, -, hstop⟩ := collect_spec h.drain.holds max
  have hw := h.drain.holds.write
  rw [hevs]
  rcases hstop with rfl | hend | hne
  · rfl
  · rw [List.take_of_length_le (by rw [List.length_drop]; omega),
      List.take_of_length_le (by rw [List.length_drop]; omega)]
  · -- A pending slot that is not `READY` would be `DRAINING`, in a batch.
    rcases Nat.lt_or_ge (s.drain.ring.readHead + n) s.drain.ring.writeHead with hlt | hge
    · have hdr := (h.drain.holds.live _ (Nat.le_add_right _ n) hlt).resolve_left hne
      obtain ⟨d, b, hb, -⟩ := h.drain.owned _ (Nat.le_add_right _ n) hlt hdr
      exact absurd (hidle d) (by rw [hb]; simp)
    · rw [List.take_of_length_le (by rw [List.length_drop]; omega),
        List.take_of_length_le (by rw [List.length_drop]; omega)]

end

/-! ## Steps -/

variable [DecidableEq δ] {s s' : State cap ε δ}

/-- A step is one of the drains, and no drop. -/
theorem step_drain {a : Drain.Action ε δ} (h : step s a = some s') :
    Drain.step s.drain a = some s'.drain ∧ s'.released = record s a ∧ a ≠ .dropAll := by
  cases a <;> simp only [step, Option.map_eq_some_iff, reduceCtorEq] at h
  all_goals
    obtain ⟨d, hd, rfl⟩ := h
    exact ⟨hd, rfl, by simp⟩

omit [DecidableEq δ] in
/-- A drainer that holds a batch is the only one. -/
theorem Inv.unique (h : Inv s) {d d' : δ} {b b' : Drain.Batch ε} (hb : s.drain.batch d = some b)
    (hb' : s.drain.batch d' = some b') : d = d' :=
  h.drain.unique d d' b b' hb hb' (h.base d b hb) (h.base d' b' hb')

/-- Once its holder gives up a batch, nobody holds one. -/
theorem Inv.idle (h : Inv s) {d : δ} {b : Drain.Batch ε} (hb : s.drain.batch d = some b)
    (d' : δ) : Function.update s.drain.batch d none d' = none := by
  by_cases hd : d' = d
  · rw [hd, Function.update_self]
  · rw [Function.update_of_ne hd, Option.eq_none_iff_forall_ne_some]
    exact fun b' hb' => hd (h.unique hb' hb)

/-- The release is the only step that moves `read_head`; events are only published at the
    end, and batches only collected at `read_head`. -/
theorem step_frame (h : Inv s) {a : Drain.Action ε δ} (hst : step s a = some s')
    (ha : ∀ d, a ≠ .release d) : s'.drain.ring.readHead = s.drain.ring.readHead ∧
      s.drain.published <+: s'.drain.published ∧
      ∀ d b, s'.drain.batch d = some b → b.base = s.drain.ring.readHead := by
  obtain ⟨hst, -, hno⟩ := step_drain hst
  cases a with
  | publish now ev =>
    rw [Drain.step, Option.map_eq_some_iff] at hst
    obtain ⟨res, hres, hs'⟩ := hst
    rw [← hs']
    rcases publish_cases h.drain.holds now ev with ⟨hp, -⟩ | ⟨hp, -⟩ <;>
      obtain rfl := Option.some.inj (hp.symm.trans hres)
    · exact ⟨rfl, List.prefix_refl _, h.base⟩
    · exact ⟨rfl, List.prefix_append _ _, h.base⟩
  | collect d max =>
    rw [Drain.step] at hst
    split_ifs at hst
    rw [← Option.some.inj hst]
    refine ⟨rfl, List.prefix_refl _, fun d' b hb => ?_⟩
    -- The batches of the others are not collected anew.
    simp only [Drain.collect] at hb
    split_ifs at hb
    · exact h.base d' b hb
    · by_cases hd : d' = d
      · rw [hd, Function.update_self] at hb
        exact Option.some.inj hb ▸ rfl
      · rw [Function.update_of_ne hd] at hb
        exact h.base d' b hb
  | release d => exact absurd rfl (ha d)
  | abort d =>
    rw [Drain.step, Option.map_eq_some_iff] at hst
    obtain ⟨b, hb, hs'⟩ := hst
    rw [← hs']
    exact ⟨rfl, List.prefix_refl _, fun d' b' hb' => absurd hb' (by simp only [h.idle hb d']; simp)⟩
  | dropAll => exact absurd rfl hno

omit [DecidableEq δ] in
theorem Inv.undisturbed (h : Inv s) (a : Drain.Action ε δ) : Drain.Undisturbed s.drain a := by
  cases a with
  | release d => exact h.base d
  | abort d => exact h.base d
  | publish | collect | dropAll => exact trivial

theorem inv_step (s : State cap ε δ) (a : Drain.Action ε δ) (s' : State cap ε δ) (h : Inv s)
    (hst : step s a = some s') : Inv s' := by
  obtain ⟨hdrain, hrec, hno⟩ := step_drain hst
  have hinv := Drain.inv_step s.drain a s'.drain h.drain (h.undisturbed a) hdrain
  -- A release hands over the next events of the log; every other step leaves what was handed
  -- over.
  by_cases hrel : ∃ d, a = .release d
  · obtain ⟨d, rfl⟩ := hrel
    rw [Drain.step, Option.map_eq_some_iff] at hdrain
    obtain ⟨b, hb, hs'⟩ := hdrain
    refine ⟨hinv, fun d' b' hb' => ?_, ?_⟩
    · rw [← hs'] at hb'
      exact absurd hb' (by simp only [h.idle hb d']; simp)
    · have hread : s'.drain.ring.readHead = s.drain.ring.readHead + b.size := by
        have hpos := h.drain.pos d b hb
        rw [← hs', Ring.releaseBatch, if_neg (by omega), h.base d b hb]
      have hpub : s'.drain.published = s.drain.published := by rw [← hs']
      rw [hrec, record, hb, hread, hpub, List.take_add, List.flatten_append, h.released,
        ← h.events hb]
      simp
  · have hframe := step_frame h hst fun d hd => hrel ⟨d, hd⟩
    have hsame : s'.released = s.released := by
      rw [hrec]
      cases a <;> first | rfl | exact absurd ⟨_, rfl⟩ hrel
    refine ⟨hinv, fun d' b' hb' => (hframe.2.2 d' b' hb').trans hframe.1.symm, ?_⟩
    obtain ⟨l, hl⟩ := hframe.2.1
    rw [hsame, hframe.1, h.released, ← hl, List.take_append_of_le_length]
    rw [← h.drain.holds.write]
    exact h.drain.holds.le

/-! ## Runs -/

/-- In a state in which nobody holds a batch, as long as nothing is released after an
    abort, a collect finds the events of the aborted batch again. -/
theorem collect_again (h : Inv s) {d : δ} {b : Drain.Batch ε} (hb : s.drain.batch d = some b)
    (hst : step s (.abort d) = some s') {t : State cap ε δ}
    (hrun : Reachable step (fun _ a => ∀ d, a ≠ .release d) s' t)
    (hidle : ∀ d, t.drain.batch d = none) (max : ℕ) :
    (t.drain.ring.collect max).1.take b.size = b.events.take max := by
  have hfirst := step_frame h hst (by simp)
  -- Until `t` nothing happens to `read_head` and to the events from there on.
  have hkeep : Inv t ∧ t.drain.ring.readHead = s.drain.ring.readHead ∧
      s.drain.published <+: t.drain.published := by
    clear hidle
    induction hrun with
    | init => exact ⟨inv_step s _ s' h hst, hfirst.1, hfirst.2.1⟩
    | step _ ha hu' ih =>
      obtain ⟨hu, hread, hpre⟩ := ih
      have hframe := step_frame hu hu' ha
      exact ⟨inv_step _ _ _ hu hu', hframe.1.trans hread, hpre.trans hframe.2.1⟩
  obtain ⟨ht, hread, l, hl⟩ := hkeep
  have hle := (h.drain.flight d b hb (h.base d b hb)).le
  have hw := h.drain.holds.write
  rw [ht.collect_of_idle hidle, h.events hb, hread, ← hl, List.take_take, List.take_take,
    List.drop_append_of_le_length (by omega), Nat.min_comm,
    List.take_append_of_le_length (by rw [List.length_drop]; omega)]

/-- In every state of every run: at most one drainer holds a batch; a batch is not empty,
    its base is `read_head`, and it is the run of events published from there on; a
    collect takes nothing while a batch is held, else the next events, as many as it may;
    a batch aborted is collected again unchanged; and the batches released, one after the
    other, are the events published before `read_head`. -/
theorem fifo [Inhabited ε] (h : Reachable step (fun _ _ => True) init s) :
    (∀ d d' b b', s.drain.batch d = some b → s.drain.batch d' = some b' → d = d') ∧
      (∀ d b, s.drain.batch d = some b → b.events ≠ [] ∧ b.base = s.drain.ring.readHead ∧
        b.events = (s.drain.published.drop s.drain.ring.readHead).take b.size) ∧
      (∀ d b max, s.drain.batch d = some b → s.drain.ring.collect max = ([], s.drain.ring)) ∧
      (∀ max, (∀ d, s.drain.batch d = none) → (s.drain.ring.collect max).1 =
        (s.drain.published.drop s.drain.ring.readHead).take max) ∧
      (∀ d b s' t max, s.drain.batch d = some b → step s (.abort d) = some s' →
        Reachable step (fun _ a => ∀ d, a ≠ .release d) s' t → (∀ d, t.drain.batch d = none) →
          (t.drain.ring.collect max).1.take b.size = b.events.take max) ∧
      s.released.flatten = s.drain.published.take s.drain.ring.readHead := by
  have hinv : Inv s := h.invariant inv_init fun s a s' hs _ hst => inv_step s a s' hs hst
  refine ⟨fun d d' b b' hb hb' => hinv.unique hb hb', fun d b hb => ⟨?_, hinv.base d b hb,
    hinv.events hb⟩, fun d b max hb => hinv.collect_of_held hb max,
    fun max hidle => hinv.collect_of_idle hidle max,
    fun d b s' t max hb hst hrun hidle => collect_again hinv hb hst hrun hidle max,
    hinv.released⟩
  exact List.length_pos_iff.1 (hinv.drain.pos d b hb)

/-- Two events are published and the first is collected, aborted, collected again and
    released. -/
theorem fifo_of_abort : (((run step (init : State 1024 ℕ Unit) [.publish 0 10, .publish 0 11,
    .collect () 1, .abort (), .collect () 1, .release ()]).get rfl).released).flatten = [10] := by
  have hreach : Reachable step (fun _ _ => True) (init : State 1024 ℕ Unit)
      ((run step init [.publish 0 10, .publish 0 11, .collect () 1, .abort (), .collect () 1,
        .release ()]).get rfl) :=
    Reachable.of_run .init (by simp [Meets]) (Option.some_get _).symm
  rw [(fifo hreach).2.2.2.2.2]
  rfl

end PgRedis.Ring.Fifo
