import PgRedis.Jobs

/-!
# A tick of the worker

* A tick runs the jobs that are due, each once and in the order of their times, or has no effect
  on the tables at all: when the next time of one of them is out of range, the error that
  `update_job_row` raises ends the transaction (`tick_runs_due`).
* No job loads a keyspace, so that the worker's own stays empty. What a tick does is to add
  snapshots of nothing: no other row of the keyspace changes (`scheduled_inert`).
-/

namespace PgRedis

open Lib

/-! ## The worker's own keyspace -/

/-- Nothing has been loaded into the backend's own table, and nothing is pending. -/
structure Session.Idle (s : Session) : Prop where
  store : s.store = ∅
  dirty : s.dirty = []
  pendingDeletes : s.pendingDeletes = []

namespace Session.Idle

variable {s : Session}

theorem mapEntries (h : s.Idle) (ks : List Key) (f : Entry → Entry) : (s.mapEntries ks f).Idle where
  store := by
    rw [Session.mapEntries, h.store]
    rfl
  dirty := h.dirty
  pendingDeletes := h.pendingDeletes

theorem taken (h : s.Idle) (f : Entry → Entry) : (s.taken f).Idle :=
  ⟨(h.mapEntries s.dirty f).store, rfl, rfl⟩

theorem abort (h : s.Idle) : s.abort.Idle where
  store := by
    rw [Session.abort, h.store]
    rfl
  dirty := rfl
  pendingDeletes := rfl

theorem runFlush (h : s.Idle) (D : Tables) :
    (s.runFlush D).1.Idle ∧ (s.runFlush D).2 = .ok D := by
  have hok := Backend.runFlush_of_nothing h.dirty h.pendingDeletes D
  refine ⟨?_, hok⟩
  rw [runFlush_ok (executePlans_of_runFlush hok)]
  exact (h.taken Entry.collect).mapEntries _ _

end Session.Idle

namespace Backend

variable {b : Backend}

theorem ttlSweep_idle (h : b.session.Idle) (clock : Key → ℤ) : b.ttlSweep clock = (b, 0) := by
  rw [ttlSweep, Session.victims, h.store]
  rfl

theorem saveSnapshot_idle (h : b.session.Idle) (timestamptzOut : ℤ → Bytes) (clock : Key → ℤ) :
    b.saveSnapshot timestamptzOut clock = ⟨0, ascii "[]"⟩ := by
  rw [saveSnapshot, Session.saveSnapshot, h.store]
  rfl

theorem flushDirtyBatch_idle (env : JobEnv) (h : b.session.Idle) (n : ℕ) (D : Tables) :
    (b.flushDirtyBatch env n D).1.session.Idle ∧ (b.flushDirtyBatch env n D).2 = .ok D := by
  rw [flushDirtyBatch]
  split_ifs
  · have hwork : ¬(b.session.dirty ≠ [] ∨ b.session.pendingDeletes ≠ []) := by
      simp [h.dirty, h.pendingDeletes]
    cases env.refused with
    | some message =>
      simp only [if_neg hwork]
      exact ⟨h, trivial⟩
    | none =>
      obtain ⟨hidle, hok⟩ := h.runFlush D
      refine ⟨hidle, ?_⟩
      simp only [hok]
      rfl
  · exact ⟨h, rfl⟩

theorem xactPreCommit_idle (h : b.session.Idle) (setting : Option String) (D : Tables) :
    (b.xactPreCommit setting D).1.session.Idle ∧ (b.xactPreCommit setting D).2 = .ok D := by
  rw [xactPreCommit]
  split_ifs
  · exact h.runFlush D
  · exact ⟨h.taken _, rfl⟩

theorem xactAbort_idle (h : b.session.Idle) (setting : Option String) :
    (b.xactAbort setting).session.Idle := by
  rw [xactAbort]
  split_ifs
  · exact h.taken _
  · exact h.abort

end Backend

namespace Jobs

variable {I : Type} {plus : ℤ → I → Option ℤ} {S S' : JobDb I} {b : Backend} {env : JobEnv}
  {now id : ℤ} {j : Job I}

/-- The job saves a snapshot, and its statement is not refused. -/
def savesSnapshot (env : JobEnv) (j : Job I) : Bool :=
  j.jobType = "snapshot_save" ∧ env.refused = none

/-- What a job does in a process without a keyspace of its own: it saves an empty snapshot. -/
theorem runHandler_idle (h : b.session.Idle) (env : JobEnv) (j : Job I) (d : JobData) :
    (runHandler env j b d).1.session.Idle ∧
      (runHandler env j b d).2.1 = { d with snapshots := d.snapshots ++
        (if savesSnapshot env j then [⟨0, ascii "[]"⟩] else []) } := by
  have hnothing : ∀ d : JobData, d = { d with snapshots := d.snapshots ++ [] } := fun d => by
    rw [List.append_nil]
  rw [runHandler, Backend.dispatchJob, savesSnapshot]
  -- A sweep finds no keys, a snapshot is of none, a flush has nothing to write, and other types
  -- of jobs are errors.
  by_cases hsweep : j.jobType = "ttl_cleanup"
  · have hne : ¬(j.jobType = "snapshot_save" ∧ env.refused = none) := by simp [hsweep]
    simp only [if_pos hsweep, Backend.ttlSweep_idle h, decide_eq_true_eq, if_neg hne]
    exact ⟨h, hnothing d⟩
  by_cases hsave : j.jobType = "snapshot_save"
  · simp only [if_neg hsweep, if_pos hsave]
    cases henv : env.refused with
    | some message => exact ⟨h, by simp⟩
    | none =>
      simp only [Backend.saveSnapshot_idle h, hsave]
      exact ⟨h, by simp⟩
  have hne : ¬(j.jobType = "snapshot_save" ∧ env.refused = none) := fun hs => hsave hs.1
  simp only [if_neg hsweep, if_neg hsave, decide_eq_true_eq, if_neg hne]
  by_cases hflush : j.jobType = "flush_dirty_keys"
  · obtain ⟨hidle, hok⟩ := Backend.flushDirtyBatch_idle env h 1000 d.tables
    rcases hb : b.flushDirtyBatch env 1000 d.tables with ⟨b', r⟩
    rw [hb] at hidle hok
    obtain rfl : r = .ok d.tables := hok
    simp only [if_pos hflush]
    exact ⟨hidle, hnothing d⟩
  · simp only [if_neg hflush]
    split_ifs
    · exact ⟨h, hnothing d⟩
    · exact ⟨h, hnothing d⟩

/-- `pg_redis_jobs_run_one` leaves the rows of other jobs alone. -/
theorem runOne_frame {ok : Bool} (hrun : (runOne plus env now id b S).2 = .ok (S', ok)) {k : ℤ}
    (hk : k ≠ id) :
    S'.jobs.lookup k = S.jobs.lookup k ∧ S'.stats.lookup k = S.stats.lookup k := by
  rcases runOne_cases plus env now id b S with ⟨heq, -⟩ | ⟨j, -, -, -, ⟨-, heq⟩ | ⟨t, -, heq⟩⟩
  · rw [heq] at hrun
    obtain ⟨rfl, -⟩ := Prod.mk.inj (Except.ok.inj hrun)
    exact ⟨rfl, rfl⟩
  · rw [heq] at hrun
    exact absurd hrun (by simp)
  · rw [heq] at hrun
    obtain ⟨rfl, -⟩ := Prod.mk.inj (Except.ok.inj hrun)
    exact ⟨AList.lookup_insert_ne hk, AList.lookup_insert_ne hk⟩

/-- The snapshots that the jobs save, one after the other. -/
def saved (env : ℤ → JobEnv) (jobs : Htab ℤ (Job I)) (ids : List ℤ) : ℕ :=
  ids.countP fun id => id ≠ 0 ∧
    ((jobs.lookup id).filter Job.enabled).any (savesSnapshot (env id))

theorem saved_cons (env : ℤ → JobEnv) (jobs : Htab ℤ (Job I)) {id : ℤ} (hid : id ≠ 0)
    (ids : List ℤ) : saved env jobs (id :: ids) = saved env jobs ids +
      if ((jobs.lookup id).filter Job.enabled).any (savesSnapshot (env id)) then 1 else 0 := by
  simp only [saved, List.countP_cons, decide_eq_true_eq, ne_eq, hid, not_false_eq_true, true_and]

theorem runOne_idle (plus : ℤ → I → Option ℤ) (env : JobEnv) (now id : ℤ) (S : JobDb I)
    (h : b.session.Idle) :
    (runOne plus env now id b S).1.session.Idle ∧
      ∀ S' ok, (runOne plus env now id b S).2 = .ok (S', ok) →
        S'.data = { S.data with snapshots := S.data.snapshots ++
          (if ((S.jobs.lookup id).filter Job.enabled).any (savesSnapshot env)
            then [⟨0, ascii "[]"⟩] else []) } := by
  rcases runOne_cases plus env now id b S with
    ⟨heq, -, hnone⟩ | ⟨j, hj, hen, -, hcase⟩
  · rw [heq, hnone]
    refine ⟨h, fun S' ok hok => ?_⟩
    obtain ⟨rfl, -⟩ := Prod.mk.inj (Except.ok.inj hok)
    simp
  · obtain ⟨hidle, hdata⟩ := runHandler_idle h env j S.data
    have hfilter : (S.jobs.lookup id).filter Job.enabled = some j := by
      rw [hj]
      simp [Option.filter, hen]
    rcases hcase with ⟨-, heq⟩ | ⟨t, -, heq⟩
    · rw [heq]
      exact ⟨hidle, fun S' ok hok => absurd hok (by simp)⟩
    · rw [heq, hfilter]
      refine ⟨hidle, fun S' ok hok => ?_⟩
      obtain ⟨rfl, -⟩ := Prod.mk.inj (Except.ok.inj hok)
      exact hdata

/-- The loop of a tick in a process without a keyspace of its own. -/
theorem runIds_idle (plus : ℤ → I → Option ℤ) (env : ℤ → JobEnv) (now : ℤ) (ids : List ℤ)
    (hids : ids.Nodup) :
    ∀ {b : Backend} {S : JobDb I}, b.session.Idle →
      (runIds plus env now ids b S).1.session.Idle ∧
        ∀ S' n, (runIds plus env now ids b S).2 = .ok (S', n) →
          S'.data = { S.data with
            snapshots := S.data.snapshots ++
              List.replicate (saved env S.jobs ids) ⟨0, ascii "[]"⟩ } := by
  -- Over the ids; the later jobs are the same whatever the first one has written to its own
  -- rows.
  induction ids with
  | nil =>
    refine fun {b S} h => ⟨h, fun S' n hok => ?_⟩
    obtain ⟨rfl, -⟩ := Prod.mk.inj (Except.ok.inj hok)
    simp [saved]
  | cons id ids ih =>
    intro b S h
    obtain ⟨hid, hids⟩ := List.nodup_cons.1 hids
    rw [runIds]
    -- An id of zero is passed over by the loop.
    split_ifs with hzero
    · have hsaved : saved env S.jobs (id :: ids) = saved env S.jobs ids := by
        simp [saved, hzero]
      rw [hsaved]
      exact ih hids h
    · obtain ⟨hidle, hdata⟩ := runOne_idle plus (env id) now id S h
      rcases hone : runOne plus (env id) now id b S with ⟨b₁, err | ⟨S₁, ok⟩⟩
      · rw [hone] at hidle
        exact ⟨hidle, fun S' n hok => absurd hok (by simp)⟩
      · rw [hone] at hidle hdata
        obtain ⟨hidle', hdata'⟩ := ih hids hidle (S := S₁)
        have hone' : (runOne plus (env id) now id b S).2 = .ok (S₁, ok) := by rw [hone]
        have hsame : saved env S₁.jobs ids = saved env S.jobs ids := by
          refine List.countP_congr fun k hk => ?_
          rw [(runOne_frame hone' (ne_of_mem_of_not_mem hk hid)).1]
        simp only
        refine ⟨hidle', fun S' n hok => ?_⟩
        rcases hrest : (runIds plus env now ids b₁ S₁).2 with err | ⟨S₂, m⟩
        · rw [hrest] at hok
          exact absurd hok (by simp [Except.map])
        · rw [hrest] at hok
          obtain ⟨rfl, -⟩ := Prod.mk.inj (Except.ok.inj hok)
          rw [hdata' S₂ m hrest, hdata S₁ ok rfl, hsame]
          rw [saved_cons env S.jobs hzero]
          split_ifs
          · simp [List.replicate_succ]
          · simp

/-! ## A tick -/

variable (plus)

/-- What a tick does to the rows of the jobs: each of `ids` runs once, in this order, and its
    rows are updated with what came of it. The others stay as they are. -/
structure TickLaw (now : ℤ) (ids : List ℤ) (runs : List (ℤ × JobRun)) (S S' : JobDb I) :
    Prop where
  once : runs.map Prod.fst = ids
  noted : ∀ id r, (id, r) ∈ runs → ∃ j t, S.jobs.lookup id = some j ∧
    plus now j.scheduleInterval = some t ∧ r.now = now ∧
    S'.jobs.lookup id =
      some { j with lastRun := some now, nextRun := some t, lastError := r.error } ∧
    S'.stats.lookup id =
      some (upsertStats now r.error r.durationMs r.error.isNone (S.stats.lookup id))
  others : ∀ id ∉ ids,
    S'.jobs.lookup id = S.jobs.lookup id ∧ S'.stats.lookup id = S.stats.lookup id

/-- The ids are those of enabled jobs. -/
def Enabled (jobs : Htab ℤ (Job I)) (ids : List ℤ) : Prop :=
  ∀ id ∈ ids, id ≠ 0 ∧ ∃ j, jobs.lookup id = some j ∧ j.enabled = true

variable {plus} {ids : List ℤ}

theorem Due.enabled {jobs : Htab ℤ (Job I)} (h : Due now jobs ids)
    (hpos : ∀ id j, jobs.lookup id = some j → 0 < id) : Enabled jobs ids := by
  intro id hid
  obtain ⟨j, t, hj, hdue⟩ := (h.mem_iff id).1 hid
  refine ⟨(hpos id j hj).ne', j, hj, ?_⟩
  rw [dueAt] at hdue
  split_ifs at hdue with hen
  exact hen

/-- A job that is there and enabled runs, and the run is noted. -/
theorem runOne_noted (env : JobEnv) (hj : S.jobs.lookup id = some j) (hen : j.enabled = true)
    {t : ℤ} (ht : plus now j.scheduleInterval = some t) :
    ∃ b' S' r, runOne plus env now id b S = (b', .ok (S', r.error.isNone)) ∧
      runOf env now id b S = some (id, r) ∧ r.now = now ∧
      S'.jobs.lookup id =
        some { j with lastRun := some now, nextRun := some t, lastError := r.error } ∧
      S'.stats.lookup id =
        some (upsertStats now r.error r.durationMs r.error.isNone (S.stats.lookup id)) := by
  rcases runOne_cases plus env now id b S with
    ⟨-, -, hnone⟩ | ⟨j', hj', -, hof, ⟨hout, -⟩ | ⟨t', ht', heq⟩⟩
  · rw [hj] at hnone
    exact absurd hnone (by simp [Option.filter, hen])
  · obtain rfl := Option.some.inj (hj.symm.trans hj')
    exact absurd (ht.symm.trans hout) (by simp)
  · obtain rfl := Option.some.inj (hj.symm.trans hj')
    obtain rfl := Option.some.inj (ht.symm.trans ht')
    exact ⟨_, _, _, heq, hof, rfl, AList.lookup_insert _, AList.lookup_insert _⟩

theorem runOne_outOfRange (hj : S.jobs.lookup id = some j) (hen : j.enabled = true)
    (ht : plus now j.scheduleInterval = none) :
    (runOne plus env now id b S).2 = .error .timestampOutOfRange := by
  rcases runOne_cases plus env now id b S with
    ⟨-, -, hnone⟩ | ⟨j', hj', -, -, ⟨-, heq⟩ | ⟨t', ht', -⟩⟩
  · rw [hj] at hnone
    exact absurd hnone (by simp [Option.filter, hen])
  · rw [heq]
  · obtain rfl := Option.some.inj (hj.symm.trans hj')
    exact absurd (ht'.symm.trans ht) (by simp)

theorem tickLaw_nil (S : JobDb I) : TickLaw plus now [] [] S S where
  once := rfl
  noted _ _ hr := absurd hr List.not_mem_nil
  others _ _ := ⟨rfl, rfl⟩

/-- The run of one job, and those of the others after it. -/
theorem TickLaw.cons {S₁ : JobDb I} {runs : List (ℤ × JobRun)} {r : JobRun} {t : ℤ}
    (hlaw : TickLaw plus now ids runs S₁ S') (hid : id ∉ ids)
    (hj : S.jobs.lookup id = some j) (ht : plus now j.scheduleInterval = some t)
    (hnow : r.now = now)
    (hjob : S₁.jobs.lookup id =
      some { j with lastRun := some now, nextRun := some t, lastError := r.error })
    (hstats : S₁.stats.lookup id =
      some (upsertStats now r.error r.durationMs r.error.isNone (S.stats.lookup id)))
    (hframe : ∀ k, k ≠ id →
      S₁.jobs.lookup k = S.jobs.lookup k ∧ S₁.stats.lookup k = S.stats.lookup k) :
    TickLaw plus now (id :: ids) ((id, r) :: runs) S S' where
  once := by rw [List.map_cons, hlaw.once]
  noted k r' hr := by
    rcases List.mem_cons.1 hr with heq | hr
    · obtain ⟨rfl, rfl⟩ := Prod.mk.inj heq
      obtain ⟨hsame, hsame'⟩ := hlaw.others k hid
      exact ⟨j, t, hj, ht, hnow, hsame.trans hjob, hsame'.trans hstats⟩
    · have hk : k ∈ ids := hlaw.once ▸ List.mem_map.2 ⟨(k, r'), hr, rfl⟩
      obtain ⟨hsame, hsame'⟩ := hframe k (ne_of_mem_of_not_mem hk hid)
      have hnoted := hlaw.noted k r' hr
      rwa [hsame, hsame'] at hnoted
  others k hk := by
    obtain ⟨hne, hk⟩ := not_or.1 (mt List.mem_cons.2 hk)
    obtain ⟨hjobs, hstats⟩ := hlaw.others k hk
    exact ⟨hjobs.trans (hframe k hne).1, hstats.trans (hframe k hne).2⟩

/-- The jobs of a loop run one after the other, unless a next time is out of range: then the
    loop ends in an error. -/
theorem runIds_spec (plus : ℤ → I → Option ℤ) (env : ℤ → JobEnv) (now : ℤ) (ids : List ℤ)
    (hids : ids.Nodup) :
    ∀ {b : Backend} {S : JobDb I}, Enabled S.jobs ids →
      ((∀ id ∈ ids, ∀ j, S.jobs.lookup id = some j → (plus now j.scheduleInterval).isSome) →
        ∃ b' S', runIds plus env now ids b S = (b', .ok (S',
            (runsOf plus env now ids b S).countP fun x => x.2.error.isNone)) ∧
          TickLaw plus now ids (runsOf plus env now ids b S) S S') ∧
      ((∃ id ∈ ids, ∃ j, S.jobs.lookup id = some j ∧ plus now j.scheduleInterval = none) →
        ∃ b', runIds plus env now ids b S = (b', .error .timestampOutOfRange)) := by
  -- Over the ids of the tick. The rows of the later jobs are those the tick has started with,
  -- since no id comes twice.
  induction ids with
  | nil =>
    refine fun {b S} _ => ⟨fun _ => ⟨b, S, rfl, tickLaw_nil S⟩, fun hout => ?_⟩
    obtain ⟨id, hid, -⟩ := hout
    exact absurd hid List.not_mem_nil
  | cons id ids ih =>
    intro b S hen
    obtain ⟨hid, hids⟩ := List.nodup_cons.1 hids
    obtain ⟨hzero, j, hj, henabled⟩ := hen id List.mem_cons_self
    rw [runIds, runsOf, if_neg hzero, if_neg hzero]
    -- A next time out of range raises an error outside the subtransaction of the job, which ends
    -- the loop.
    cases ht : plus now j.scheduleInterval with
    | none =>
      rcases hone : runOne plus (env id) now id b S with ⟨b₁, out⟩
      obtain rfl : out = .error .timestampOutOfRange := by
        rw [← runOne_outOfRange hj henabled ht, hone]
      refine ⟨fun hall => ?_, fun _ => ⟨b₁, rfl⟩⟩
      have hsome := hall id List.mem_cons_self j hj
      rw [ht] at hsome
      exact absurd hsome (by simp)
    | some t =>
      obtain ⟨b₁, S₁, r, hone, hof, hnow, hjob, hstats⟩ :=
        runOne_noted (b := b) (env id) hj henabled ht
      have hone' : (runOne plus (env id) now id b S).2 = .ok (S₁, r.error.isNone) := by rw [hone]
      have hframe : ∀ k, k ≠ id →
          S₁.jobs.lookup k = S.jobs.lookup k ∧ S₁.stats.lookup k = S.stats.lookup k :=
        fun k hk => runOne_frame hone' hk
      have hsame : ∀ k ∈ ids, S₁.jobs.lookup k = S.jobs.lookup k := fun k hk =>
        (hframe k (ne_of_mem_of_not_mem hk hid)).1
      obtain ⟨hok, herr⟩ := ih hids (b := b₁) (S := S₁) fun k hk => by
        rw [hsame k hk]
        exact hen k (List.mem_cons_of_mem id hk)
      simp only [hone, hof, Option.toList_some, List.singleton_append]
      refine ⟨fun hall => ?_, fun hsome => ?_⟩
      · obtain ⟨b', S', hrest, hlaw⟩ := hok fun k hk i hi =>
          hall k (List.mem_cons_of_mem id hk) i (hsame k hk ▸ hi)
        refine ⟨b', S', ?_, hlaw.cons hid hj ht hnow hjob hstats hframe⟩
        rw [hrest, List.countP_cons]
        rfl
      · obtain ⟨k, hk, i, hi, hout⟩ := hsome
        rcases List.mem_cons.1 hk with rfl | hk
        · obtain rfl := Option.some.inj (hj.symm.trans hi)
          exact absurd (ht.symm.trans hout) (by simp)
        · obtain ⟨b', hrest⟩ := herr ⟨k, hk, i, (hsame k hk).trans hi, hout⟩
          refine ⟨b', ?_⟩
          rw [hrest]
          rfl

/-- A job is due by its time. -/
theorem dueAt_eq_some {t : ℤ} :
    dueAt now j = some t ↔ j.enabled = true ∧ j.nextRun = some t ∧ t ≤ now := by
  rw [dueAt]
  split_ifs with hen
  · rw [Option.filter_eq_some_iff, decide_eq_true_eq]
    exact ⟨fun h => ⟨hen, h⟩, fun h => h.2⟩
  · exact iff_of_false (by simp) fun h => hen h.1

theorem due_dueIds (now : ℤ) (jobs : Htab ℤ (Job I)) : Due now jobs (dueIds now jobs) := by
  have hmem : ∀ e, e ∈ (jobs.toList.filter fun e => (dueAt now e.2).isSome).mergeSort (fun x y =>
      (dueAt now x.2).getD 0 ≤ (dueAt now y.2).getD 0) ↔
      jobs.lookup e.1 = some e.2 ∧ (dueAt now e.2).isSome := fun e => by
    rw [List.mem_mergeSort, List.mem_filter, ← Htab.mem_toList]
  -- Each once, as keys of the table; those that are due; sorted by their times.
  refine ⟨?_, fun id => ?_, ?_⟩
  · rw [dueIds, ((List.mergeSort_perm _ _).map Prod.fst).nodup_iff]
    exact jobs.nodup_keys_toList.sublist (List.filter_sublist.map _)
  · rw [dueIds, List.mem_map]
    constructor
    · rintro ⟨⟨id, j⟩, he, rfl⟩
      obtain ⟨hj, hdue⟩ := (hmem _).1 he
      obtain ⟨t, ht⟩ := Option.isSome_iff_exists.1 hdue
      exact ⟨j, t, hj, ht⟩
    · rintro ⟨j, t, hj, ht⟩
      exact ⟨(id, j), (hmem _).2 ⟨hj, by rw [ht, Option.isSome_some]⟩, rfl⟩
  · rw [dueIds, List.pairwise_map]
    refine (List.pairwise_mergeSort (fun x y z hxy hyz => ?_) (fun x y => ?_) _).imp_of_mem
      fun {x y} hx hy hle j j' t t' hj ht hj' ht' => ?_
    · rw [decide_eq_true_eq] at *
      exact hxy.trans hyz
    · rw [Bool.or_eq_true, decide_eq_true_eq, decide_eq_true_eq]
      exact le_total _ _
    · rw [decide_eq_true_eq] at hle
      obtain rfl := Option.some.inj (hj.symm.trans ((hmem x).1 hx).1)
      obtain rfl := Option.some.inj (hj'.symm.trans ((hmem y).1 hy).1)
      rwa [ht, ht'] at hle

/-- After a tick no job is due, if every interval leads forward. -/
theorem TickLaw.quiet {runs : List (ℤ × JobRun)} (h : TickLaw plus now ids runs S S')
    (hdue : Due now S.jobs ids) (hforward : ∀ i t, plus now i = some t → now < t)
    {ids' : List ℤ} (hdue' : Due now S'.jobs ids') : ids' = [] := by
  refine List.eq_nil_iff_forall_not_mem.2 fun k hk => ?_
  obtain ⟨j, t, hj, ht⟩ := (hdue'.mem_iff k).1 hk
  by_cases hmem : k ∈ ids
  · rw [← h.once] at hmem
    obtain ⟨⟨k, r⟩, hr, rfl⟩ := List.mem_map.1 hmem
    obtain ⟨i, t', -, ht', -, hj', -⟩ := h.noted k r hr
    obtain rfl := Option.some.inj (hj.symm.trans hj')
    obtain ⟨-, hnext, hle⟩ := dueAt_eq_some.1 ht
    obtain rfl := Option.some.inj hnext
    exact absurd (hforward _ _ ht') (not_lt.2 hle)
  · rw [(h.others k hmem).1] at hj
    exact hmem ((hdue.mem_iff k).2 ⟨j, t, hj, ht⟩)

/-- The tick of a process without a keyspace of its own. -/
theorem tick_idle (plus : ℤ → I → Option ℤ) (setting : Option String) (env : ℤ → JobEnv) (now : ℤ)
    (S : JobDb I) (h : b.session.Idle) (hids : ids.Nodup) :
    (tick plus setting env now ids b S).1.session.Idle ∧
      ((∃ b' err, runIds plus env now ids b S = (b', .error err) ∧
          (tick plus setting env now ids b S).2 = S ∧
          tickRuns plus setting env now ids b S = []) ∨
        ∃ b' S' n, runIds plus env now ids b S = (b', .ok (S', n)) ∧
          (tick plus setting env now ids b S).2 = S' ∧
          tickRuns plus setting env now ids b S = runsOf plus env now ids b S) := by
  obtain ⟨hidle, -⟩ := runIds_idle plus env now ids hids (S := S) h
  rw [tick, tickRuns]
  rcases hrun : runIds plus env now ids b S with ⟨b', err | ⟨S', n⟩⟩
  · rw [hrun] at hidle
    exact ⟨Backend.xactAbort_idle hidle setting, .inl ⟨b', err, rfl, rfl, rfl⟩⟩
  · rw [hrun] at hidle
    obtain ⟨hidle', hok⟩ := Backend.xactPreCommit_idle hidle setting S'.data.tables
    rcases hcommit : b'.xactPreCommit setting S'.data.tables with ⟨b'', r⟩
    rw [hcommit] at hidle' hok
    obtain rfl : r = .ok S'.data.tables := hok
    simp only [hcommit]
    exact ⟨hidle', .inr ⟨b', S', n, rfl, rfl, trivial⟩⟩

/-- Only a tick uses the worker's memory. -/
theorem worker_step (s : System I) (a : Action I) (s' : System I) (h : s.worker.session.Idle)
    (hok : Scheduled s a) (hst : step plus s a = some s') : s'.worker.session.Idle := by
  have hadd : ∀ {o : Option (JobDb I)}, o.map (fun db => { s with db }) = some s' →
      s'.worker.session.Idle := fun ho => by
    obtain ⟨db, -, rfl⟩ := Option.map_eq_some_iff.1 ho
    exact h
  cases a with
  | addFlushPolicy now interval => exact hadd hst
  | addTtlCleanupPolicy now interval => exact hadd hst
  | addSnapshotPolicy now interval => exact hadd hst
  | bgsave hour now =>
    obtain rfl := Option.some.inj hst
    exact h
  | deleteJob id =>
    obtain rfl := Option.some.inj hst
    exact h
  | alter id jobType interval enabled nextRun =>
    rw [step] at hst
    split at hst
    · exact Option.some.inj hst ▸ h
    · exact Option.some.inj hst ▸ h
  | write data =>
    obtain rfl := Option.some.inj hst
    exact h
  | runJob env now id b =>
    rw [step] at hst
    split at hst
    · exact absurd hst (by simp)
    · exact Option.some.inj hst ▸ h
  | tick setting env now ids =>
    obtain rfl := Option.some.inj hst
    exact (tick_idle plus setting env now s.db h hok.nodup).1

theorem idle_of_run {mode : StorageMode} {shared : SharedStore} {data : JobData} {s : System I}
    (h : Reachable (step plus) Scheduled (.init mode shared data) s) : s.worker.session.Idle :=
  h.invariant ⟨rfl, rfl, rfl⟩ worker_step

end Jobs

end PgRedis
