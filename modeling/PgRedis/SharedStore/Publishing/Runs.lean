import PgRedis.SharedStore.Publishing.Step

/-!
# Runs of mutations and their events

In every run whose steps meet the guard, the tables with the events of the ring applied hold what
the keyspace does when all commands have returned (`agrees_of_ordered`), and also after a
`FLUSHALL` (`agrees_of_flushed`). Without it the tables may end with the older value
(`set_overtaken`), or lose the parent row of a field (`hset_parent_dropped`).
-/

namespace PgRedis

open Lib

namespace Publishing

variable {π : Type} [DecidableEq π] {hashBytes : Bytes → UInt32} {s s' : Publishing π} {K : Cells}
  {D D' : Tables} {p q : π}

/-- `FLUSHALL` empties the keyspace: nothing counts any more. -/
theorem Linked.reset (h : s.Linked hashBytes K D) (hfree : s.locks = []) :
    { s with store := s.store.resetAll, stale := s.stale ++ s.owed, owed := [],
             phase := .reset }.Inv hashBytes := by
  have hunlocked : ∀ p c, s.pc p ≠ some (.locked c) := fun p c hpc =>
    absurd (hfree ▸ h.locked.held p c hpc) List.not_mem_nil
  refine ⟨fun _ => none, .empty, fun k => ?_, rfl,
    fun k => .inl ((KeyRows.shows_iff.1 (Tables.shows_empty k)).nearly _), fun q => ?_,
    ⟨h.locked.held, h.locked.alone, fun p c key field value hpc => absurd hpc (hunlocked p c)⟩,
    fun hphase => absurd rfl hphase⟩
  · rw [show s.store.resetAll.entries.lookup k = none from AList.lookup_empty k]
    exact .none
  · have hfit := h.todo q
    have hash : ∀ {evs c}, HashFits D evs c → HashFits .empty [] c := by
      intro evs c hfit
      rw [HashFits] at hfit ⊢
      split at hfit
      · exact ⟨hfit.1, hfit.2.1, hfit.2.2.1, .inl rfl⟩
      · exact .inl rfl
      · exact hfit
    change Fits .empty [] (s.pc q)
    rcases hq : s.pc q with _ | ⟨_ | _ | _ | _ | _⟩ <;> rw [hq] at hfit
    · rfl
    · exact ⟨rfl, hfit.2⟩
    · exact fun ev hev => absurd hev List.not_mem_nil
    · exact hash hfit
    · exact ⟨rfl, hash hfit.2.1, hfit.2.2⟩
    · exact ⟨hash hfit.1, hfit.2⟩

/-- A step that meets the guard keeps the invariant. -/
theorem Inv.step (h : s.Inv hashBytes) {a : Act π} (hok : s.Guard hashBytes a)
    (hstep : s.step hashBytes a = some s') : s'.Inv hashBytes := by
  obtain ⟨K, D, h⟩ := h
  -- The sections of commands are those of the step lemmas; `FLUSHALL` gives up the events first,
  -- then the rows.
  cases a with
  | start p c =>
    rw [Publishing.step] at hstep
    cases hidle : s.pc p with
    | some t => simp [hidle] at hstep
    | none =>
      cases hcheck : c.cmd.check c.lim with
      | error err =>
        simp only [hidle, hcheck, Option.some.injEq] at hstep
        exact hstep ▸ ⟨K, D, h⟩
      | ok u =>
        simp only [hidle, hcheck] at hstep
        split_ifs at hstep with hlock
        exact h.start hidle hlock hcheck hok.1 (hok.2 hcheck K h.store) hstep
  | next p room now =>
    obtain ⟨t, hpc, hs'⟩ := Option.bind_eq_some_iff.1 hstep
    exact h.next hpc (hok t hpc) hs'
  | reset =>
    rw [Publishing.step] at hstep
    split_ifs at hstep with hcalm
    obtain rfl := Option.some.inj hstep
    exact h.reset hcalm.2
  | drop =>
    rw [Publishing.step] at hstep
    split_ifs at hstep with hphase
    obtain rfl := Option.some.inj hstep
    have hrep := h.replayed
    rw [live, if_pos hphase, base, if_neg (by rw [hphase]; decide)] at hrep
    exact ⟨K, D, h.store, hrep, h.rows, h.todo, h.locked, fun _ => hok⟩
  | truncate =>
    rw [Publishing.step] at hstep
    split_ifs at hstep with hphase
    obtain rfl := Option.some.inj hstep
    have hrep := h.replayed
    rw [live, if_neg (by rw [hphase]; decide), base, if_neg (by rw [hphase]; decide)] at hrep
    exact ⟨K, D, h.store, hrep, h.rows, h.todo, h.locked,
      fun _ => h.stale (by rw [hphase]; decide)⟩

theorem inv_init {S : SharedStore} {D₀ : Tables} {evs : List DirtyEvent}
    (h : (init S D₀ evs : Publishing π).Agrees hashBytes) :
    (init S D₀ evs : Publishing π).Inv hashBytes := by
  obtain ⟨K, D, hS, hD, hrows⟩ := h
  have hidle : ∀ (p : π) c, (init S D₀ evs : Publishing π).pc p ≠ some (.locked c) :=
    fun p c hpc => nomatch hpc
  exact ⟨K, D, hS, hD, fun k => .inl ((KeyRows.shows_iff.1 (hrows k)).nearly _), fun p => rfl,
    ⟨fun p c hpc => absurd hpc (hidle p c), fun p q c c' hpc => absurd hpc (hidle p c),
      fun p c key field value hpc => absurd hpc (hidle p c)⟩, fun _ => rfl⟩

/-- When all commands have returned, nothing is owed. -/
theorem Inv.agrees (h : s.Inv hashBytes) (hidle : ∀ p, s.pc p = none) (hphase : s.phase = .calm) :
    s.Agrees hashBytes := by
  obtain ⟨K, D, h⟩ := h
  have howed : s.owed = [] := by
    rw [List.eq_nil_iff_forall_not_mem]
    intro x hx
    have hfit := h.todo x.1
    rw [hidle] at hfit
    have hmem : x.2 ∈ s.mine x.1 := List.mem_map_of_mem (List.mem_filter.2 ⟨hx, by simp⟩)
    rw [show s.mine x.1 = [] from hfit] at hmem
    exact absurd hmem List.not_mem_nil
  have hdoing : ∀ P, ¬s.Doing P := fun P ⟨p, t, hpc, _⟩ =>
    absurd ((hidle p).symm.trans hpc) (by simp)
  have hrep := h.replayed
  rw [live, if_neg (by rw [hphase]; decide), base, if_pos hphase] at hrep
  refine ⟨K, D, h.store, hrep, fun k => KeyRows.shows_iff.2 ?_⟩
  have hrows := h.rows k
  rw [howed] at hrows
  exact (hrows.resolve_right fun hfresh => hdoing _ hfresh.2.1).shows fun f => hdoing _

/-- A step of a command, not of `FLUSHALL`. -/
def Act.OfCommand : Act π → Prop
  | .start .. | .next .. => True
  | _ => False

theorem phase_publish (s : Publishing π) (p : π) : (s.publish p).phase = s.phase := by
  rw [Publishing.publish]
  split
  · rfl
  · split <;> rfl

theorem phase_attempt {c : Call} (h : s.attempt hashBytes p c = some s') : s'.phase = s.phase := by
  have mutate : ∀ x, (s.mutate p c x).phase = s.phase := fun x => by
    rw [Publishing.mutate]
    split <;> rfl
  rw [attempt] at h
  split at h
  · exact Option.some.inj h ▸ mutate _
  · exact Option.some.inj h ▸ mutate _
  · exact absurd h (by simp)

theorem phase_of_command {a : Act π} (ha : a.OfCommand) (h : s.step hashBytes a = some s') :
    s'.phase = s.phase := by
  cases a with
  | reset | drop | truncate => exact ha.elim
  | start p c =>
    rw [Publishing.step] at h
    split at h
    · exact absurd h (by simp)
    · rw [Option.some.inj h]
    · split_ifs at h
      rw [begin] at h
      split at h
      case h_4 => exact phase_attempt h
      -- `SET`, `INCR` and `DECR` return, or go on to their writeback.
      all_goals
        split at h
        · rw [← Option.some.inj h]
        · rw [← Option.some.inj h]
          rfl
        · exact absurd h (by simp)
  | next p room now =>
    obtain ⟨t, -, h⟩ := Option.bind_eq_some_iff.1 h
    cases t with
    | write c e isNew =>
      rw [resume] at h
      split_ifs at h
      rw [← Option.some.inj h, writeback]
      split <;> rfl
    | publish =>
      rw [resume] at h
      split_ifs at h
      · rw [← Option.some.inj h, phase_publish]
      · rw [← Option.some.inj h]
        exact phase_publish s p
      · rw [Option.some.inj h]
    | locked c =>
      rw [resume] at h
      split_ifs at h
      · rw [← Option.some.inj h, phase_publish]
      · rw [← Option.some.inj h]
        exact phase_publish s p
      · rw [← Option.some.inj h, full]
        split <;> rfl
    | retry c =>
      rw [resume] at h
      split_ifs at h
      exact phase_attempt h
    | relock c =>
      rw [resume] at h
      split_ifs at h
      rw [← Option.some.inj h]
      rfl

/-- Commands alone, in every run where no event overtakes one for the same row and no mutation
    forgets its events: when all have returned, the events replayed in the order of the ring
    give what the keyspace holds. -/
theorem agrees_of_ordered {S : SharedStore} {D₀ : Tables} {evs : List DirtyEvent}
    (h₀ : (init S D₀ evs : Publishing π).Agrees hashBytes)
    (h : Reachable (Publishing.step hashBytes) (fun s a => a.OfCommand ∧ s.Guard hashBytes a)
      (init S D₀ evs) s) (hidle : ∀ p, s.pc p = none) : s.Agrees hashBytes := by
  have hinv : s.Inv hashBytes := h.invariant (inv_init h₀) fun _ _ _ hs hok hstep =>
    hs.step hok.2 hstep
  have hcalm : (init S D₀ evs : Publishing π).phase = .calm := rfl
  have hphase : s.phase = .calm := h.invariant hcalm fun _ _ _ hs hok hstep =>
    (phase_of_command hok.1 hstep).trans hs
  exact hinv.agrees hidle hphase

/-- With `FLUSHALL` too, in every run where moreover an event enters the ring between its
    emptying of the keyspace and its emptying of the ring only if it is that of a mutation
    before: once it has returned. -/
theorem agrees_of_flushed {S : SharedStore} {D₀ : Tables} {evs : List DirtyEvent}
    (h₀ : (init S D₀ evs : Publishing π).Agrees hashBytes)
    (h : Reachable (Publishing.step hashBytes) (Guard hashBytes) (init S D₀ evs) s)
    (hidle : ∀ p, s.pc p = none) (hphase : s.phase = .calm) : s.Agrees hashBytes := by
  have hinv : s.Inv hashBytes := h.invariant (inv_init h₀) fun _ _ _ hs hok hstep =>
    hs.step hok hstep
  exact hinv.agrees hidle hphase

/-! ## Runs on few keys -/

omit [DecidableEq π] in
theorem agrees_empty (hashBytes : Bytes → UInt32) :
    (init .empty .empty [] : Publishing π).Agrees hashBytes :=
  ⟨fun _ => none, .empty, fun _ => .none, rfl, Tables.shows_empty⟩

omit [DecidableEq π] in
theorem childless_of_lookupRaw {S : SharedStore} {key : Key} (h : S.Shows hashBytes K)
    (hkey : ∀ e ∈ S.lookupRaw key, e.type = .string ∨ e.type = .int) : Cell.Childless (K key) := by
  rcases rel_cases (h.lookupRaw key) with ⟨-, hK⟩ | ⟨e, c, hl, hK, hec⟩ <;> rw [hK]
  · exact ⟨rfl, rfl⟩
  · exact View.childless_of_scalar (hec.type ▸ hkey _ hl)

omit [DecidableEq π] in
/-- The oldest event of all overtakes none. -/
theorem ordered_of_head {ev : DirtyEvent} {post : List (π × DirtyEvent)}
    (hphase : s.phase ≠ .reset) (howed : s.owed = (p, ev) :: post) : s.Ordered p := by
  refine .inr ⟨hphase, fun pre ev' post' hsplit hpre x hx => ?_⟩
  cases pre with
  | nil => exact absurd hx List.not_mem_nil
  | cons y pre =>
    obtain ⟨rfl, -⟩ := List.cons.inj (howed.symm.trans hsplit)
    exact absurd rfl (hpre _ List.mem_cons_self)

/-- A run of two backends after which neither is in a command. -/
theorem exists_idle {as : List (Act Bool)} {f : Phase}
    (h : (run (Publishing.step hashBytes) (init .empty .empty [] : Publishing Bool) as).map
      (fun s => ((s.pc false).isNone, (s.pc true).isNone, s.phase)) = some (true, true, f)) :
    ∃ s, run (Publishing.step hashBytes) (init .empty .empty []) as = some s ∧
      (∀ p, s.pc p = none) ∧ s.phase = f := by
  obtain ⟨s, hrun, hobs⟩ := Option.map_eq_some_iff.1 h
  simp only [Prod.mk.injEq, Option.isNone_iff_eq_none] at hobs
  obtain ⟨hf, ht, hphase⟩ := hobs
  refine ⟨s, hrun, fun p => ?_, hphase⟩
  cases p
  · exact hf
  · exact ht

/-- Two `SET` of one key that have both fetched the entry before the first writes back. Each
    publishes before the other writes. -/
theorem agrees_of_set_twice :
    let a : Call := ⟨⟨0, 0⟩, 0, 0, .set [107] [97]⟩
    let b : Call := ⟨⟨0, 0⟩, 0, 0, .set [107] [98]⟩
    ∃ s : Publishing Bool, run (Publishing.step fun _ => 0) (init .empty .empty [])
        [.start false a, .start true b, .next false true 0, .next false true 0, .next true true 0,
          .next true true 0] = some s ∧ s.Agrees fun _ => 0 := by
  intro a b
  have htext : ∀ c : Command, c.field? = none → c.IsText := fun c hc f hf =>
    absurd (hc.symm.trans hf) (by simp)
  obtain ⟨s, hrun, hidle, -⟩ : ∃ s, run (Publishing.step fun _ => 0) (init .empty .empty [])
      [.start false a, .start true b, .next false true 0, .next false true 0, .next true true 0,
        .next true true 0] = some s ∧ (∀ p, s.pc p = none) ∧ s.phase = .calm :=
    exists_idle (by decide +kernel)
  refine ⟨s, hrun, agrees_of_ordered (agrees_empty _) (Reachable.of_run .init ?_ hrun) hidle⟩
  refine .cons ⟨trivial, htext _ rfl, fun _ K hS _ => ?_⟩ rfl
    (.cons ⟨trivial, htext _ rfl, fun _ K hS _ => ?_⟩ rfl
    (.cons ⟨trivial, fun t ht => ?_⟩ rfl (.cons ⟨trivial, fun t ht => ?_⟩ rfl
    (.cons ⟨trivial, fun t ht => ?_⟩ rfl (.cons ⟨trivial, fun t ht => ?_⟩ rfl trivial)))))
  · exact childless_of_lookupRaw hS (by decide +kernel)
  · exact childless_of_lookupRaw hS (by decide +kernel)
  · obtain rfl := Option.some.inj ht
    exact fun K hS => ⟨childless_of_lookupRaw hS (by decide +kernel), by decide⟩
  · obtain rfl := Option.some.inj ht
    exact fun _ => ordered_of_head (by decide) rfl
  · obtain rfl := Option.some.inj ht
    exact fun K hS => ⟨childless_of_lookupRaw hS (by decide +kernel), by decide⟩
  · obtain rfl := Option.some.inj ht
    exact fun _ => ordered_of_head (by decide) rfl

/-- `SET k a` and `SET k b` write back in this order and publish in the other: the keyspace
    holds `b`, the events leave `a`. -/
theorem set_overtaken :
    let a : Call := ⟨⟨0, 0⟩, 0, 0, .set [107] [97]⟩
    let b : Call := ⟨⟨0, 0⟩, 0, 0, .set [107] [98]⟩
    (init .empty .empty [] : Publishing Bool).Agrees (fun _ => 0) ∧ ∃ s : Publishing Bool,
      run (Publishing.step fun _ => 0) (init .empty .empty [])
        [.start false a, .next false true 0, .start true b, .next true true 0, .next true true 0,
          .next false true 0] = some s ∧
      (∀ p, s.pc p = none) ∧ ¬s.Agrees fun _ => 0 := by
  intro a b
  obtain ⟨s, hs, hidle, -⟩ : ∃ s, run (Publishing.step fun _ => 0) (init .empty .empty [])
      [.start false a, .next false true 0, .start true b, .next true true 0, .next true true 0,
        .next false true 0] = some s ∧ (∀ p, s.pc p = none) ∧ s.phase = .calm :=
    exists_idle (by decide +kernel)
  have hvals : (run (Publishing.step fun _ => 0) (init .empty .empty [] : Publishing Bool)
      [.start false a, .next false true 0, .start true b, .next true true 0, .next true true 0,
        .next false true 0]).map (fun s => ((s.store.lookupRaw [107]).bind Entry.encodeValue,
        ((replay s.ring s.tables).toOption.bind fun D => D.store [107]).bind StoreRow.value)) =
      some (some (encodeString [98]), some (encodeString [97])) := by
    decide +kernel
  rw [hs, Option.map_some, Option.some.injEq, Prod.mk.injEq] at hvals
  obtain ⟨hraw, hrow⟩ := hvals
  refine ⟨agrees_empty _, s, hs, hidle, ?_⟩
  rintro ⟨K, D, hS, hD, hrows⟩
  obtain ⟨e, he, henc⟩ := Option.bind_eq_some_iff.1 hraw
  have hD' := (hrows [107]).row
  obtain ⟨c, hK, hec⟩ := exists_of_rel_some (he ▸ hS.lookupRaw [107])
  rw [hD] at hrow
  obtain ⟨r, hr, hval⟩ := Option.bind_eq_some_iff.1 hrow
  rw [hK, show D.store [107] = some r from hr] at hD'
  have hcol := congrArg (fun d => d.2.1) (Option.some.inj hD')
  rw [show (StoreRow.data r).2.1 = r.value from rfl, hval, show (Cell.data c).2.1 =
    c.value.encode from rfl, ← hec.encodeValue, henc] at hcol
  exact absurd hcol (by decide)

/-- `HSET h f v` returns, `SET k a` fetches its entry, and `FLUSHALL` empties the keyspace
    before `SET` writes back and the ring before it publishes. -/
theorem agrees_of_hset_set_flushall :
    let a : Call := ⟨⟨0, 0⟩, 0, 0, .hset [104] [102] [118]⟩
    let b : Call := ⟨⟨0, 0⟩, 0, 0, .set [107] [97]⟩
    ∃ s : Publishing Bool, run (Publishing.step fun _ => 0) (init .empty .empty [])
        [.start true a, .next true true 0, .next true true 0, .start false b, .reset,
          .next false true 0, .drop, .next false true 0, .truncate] = some s ∧
      s.Agrees fun _ => 0 := by
  intro a b
  obtain ⟨s, hrun, hidle, hphase⟩ : ∃ s, run (Publishing.step fun _ => 0) (init .empty .empty [])
      [.start true a, .next true true 0, .next true true 0, .start false b, .reset,
        .next false true 0, .drop, .next false true 0, .truncate] = some s ∧
        (∀ p, s.pc p = none) ∧ s.phase = .calm :=
    exists_idle (by decide +kernel)
  refine ⟨s, hrun, agrees_of_flushed (agrees_empty _) (Reachable.of_run .init ?_ hrun) hidle
    hphase⟩
  have hevs : (SharedStore.empty.hset (fun _ => 0) enough a.now [104] [102] [118]).2.1 =
      [.keyUpsert [104] .hash [] none 1, .hashFieldUpsert [104] [102] [118]] := by
    decide +kernel
  refine .cons ⟨fun f hf => ?_, fun _ K hS => ?_⟩ (congrArg some (mutate_of_events hevs))
    (.cons (fun t ht => ?_) rfl (.cons (fun t ht => ?_) rfl
    (.cons ⟨fun f hf => ?_, fun _ K hS _ => ?_⟩ rfl (.cons trivial rfl
    (.cons (fun t ht => ?_) rfl (.cons rfl rfl (.cons (fun t ht => ?_) rfl
    (.cons trivial rfl trivial))))))))
  · obtain rfl := Option.some.inj hf
    decide
  · change Command.Kept 0 0 (K [104]) (.hset [104] [102] [118])
    rw [hS.eq_none rfl]
    exact fun _ => ⟨fun _ _ => Finmap.notMem_empty, rfl⟩
  · obtain rfl := Option.some.inj ht
    exact fun _ => ordered_of_head (by decide) rfl
  · obtain rfl := Option.some.inj ht
    exact fun _ => ordered_of_head (by decide) rfl
  · exact absurd (show none = some f from hf) (by simp)
  · exact childless_of_lookupRaw hS (by decide +kernel)
  · obtain rfl := Option.some.inj ht
    exact fun K hS => ⟨childless_of_lookupRaw hS (by decide +kernel), by decide⟩
  · obtain rfl := Option.some.inj ht
    exact fun _ => ordered_of_head (by decide) rfl

/-- `FLUSHALL` empties the keyspace, `HSET h f v` sets its field and publishes the row of `h`,
    `FLUSHALL` drops it, `HSET` publishes the field, and the tables are truncated. The event of
    the field has no row of `h` to refer to. -/
theorem hset_parent_dropped :
    let c : Call := ⟨⟨0, 0⟩, 0, 0, .hset [104] [102] [118]⟩
    (init .empty .empty [] : Publishing Bool).Agrees (fun _ => 0) ∧ ∃ s : Publishing Bool,
      run (Publishing.step fun _ => 0) (init .empty .empty [])
        [.reset, .start true c, .next true true 0, .drop, .next true true 0, .truncate] = some s ∧
      (∀ p, s.pc p = none) ∧ s.phase = .calm ∧ ¬s.Agrees fun _ => 0 := by
  intro c
  obtain ⟨s, hs, hidle, hphase⟩ : ∃ s, run (Publishing.step fun _ => 0) (init .empty .empty [])
      [.reset, .start true c, .next true true 0, .drop, .next true true 0, .truncate] = some s ∧
        (∀ p, s.pc p = none) ∧ s.phase = .calm :=
    exists_idle (by decide +kernel)
  have hreplay : (run (Publishing.step fun _ => 0) (init .empty .empty [] : Publishing Bool)
      [.reset, .start true c, .next true true 0, .drop, .next true true 0, .truncate]).map (fun s =>
        (replay s.ring s.tables).isOk) = some false := by
    decide +kernel
  rw [hs, Option.map_some, Option.some.injEq] at hreplay
  refine ⟨agrees_empty _, s, hs, hidle, hphase, ?_⟩
  rintro ⟨K, D, -, hD, -⟩
  rw [hD] at hreplay
  exact absurd hreplay (by simp [Except.isOk, Except.toBool])

end Publishing

end PgRedis
