import PgRedis.Lib.Run
import PgRedis.Scan
import PgRedis.Session.DirtySet

/-!
# Scheduled jobs

The scheduler of `jobs.c` over the tables `pgredis.jobs` and `pgredis.job_stats`. A tick of the
background worker runs the jobs that are due, one after the other, each in a subtransaction:
what a failed job wrote to the tables is undone, and what it did to memory stays. Then the rows
of the job are updated. `RUN_JOB` runs a job in a backend.

Jobs are added, changed, deleted and run in any order, and transactions that run them may be
aborted. The rows account for the runs that were committed: the statistics are those of the runs,
and the last run and its error those of the latest (`accounted_of_run`).
-/

namespace PgRedis

open Lib

/-! ## The tables -/

/-- A row of `pgredis.jobs`. Nothing reads the configuration and the time of creation. -/
structure Job (I : Type) where
  jobType : String
  scheduleInterval : I
  enabled : Bool
  lastRun : Option ℤ
  nextRun : Option ℤ
  lastError : Option String

/-- A row of `pgredis.job_stats`. -/
structure JobStats where
  totalRuns : ℤ
  successfulRuns : ℤ
  failedRuns : ℤ
  lastDurationMs : Option ℤ
  lastSuccess : Option ℤ
  lastFailure : Option ℤ
  lastError : Option String
  deriving DecidableEq, Repr

/-- What the handlers write to: the tables of the keyspace, and `pgredis.snapshots`. -/
structure JobData where
  tables : Tables
  snapshots : List Snapshot

/-- The tables, with the sequence of the job ids. -/
structure JobDb (I : Type) where
  data : JobData
  jobs : Htab ℤ (Job I)
  stats : Htab ℤ JobStats
  nextId : ℤ

/-- The errors of the statements that update the rows. -/
inductive JobError
  | foreignKeyViolation
  | timestampOutOfRange
  deriving DecidableEq, Repr

/-! ## Running a job -/

/-- `PgRedisPersistenceMode`. -/
inductive PersistenceMode
  | none
  | syncTable
  | asyncTable
  | snapshot
  | aof
  deriving DecidableEq, Repr

/-- `pg_redis_resolve_persistence_mode`, of the setting. -/
def resolvePersistenceMode : Option String → PersistenceMode
  | .none => .syncTable
  | some m =>
    if m = "none" then .none
    else if m = "sync_table" then .syncTable
    else if m = "async_table" then .asyncTable
    else if m = "snapshot" then .snapshot
    else if m = "aof" then .aof
    else .syncTable

/-- `persistence_writes_enabled`. -/
def PersistenceMode.writesEnabled (m : PersistenceMode) : Bool := m = .syncTable ∨ m = .asyncTable

/-- The fields of a `struct timeval` that are read. -/
structure Timeval where
  sec : ℤ
  usec : ℤ
  deriving DecidableEq, Repr

/-- What surrounds a run of a job: the setting of the mode, the clocks, how an expiry is shown,
    the message of the error that a statement of the handler raises, if it does, and those of
    violated constraints. -/
structure JobEnv where
  persistenceMode : Option String
  clock : Key → ℤ
  timestamptzOut : ℤ → Bytes
  refused : Option (Option String)
  errorText : SqlError → Option String
  begins : Timeval
  ends : Timeval

/-- How a call of `dispatch_job` ends. -/
inductive Dispatched
  | returned (success : Bool) (err : Option String)
  | raised (message : Option String)

namespace Backend

/-- `pg_redis_persistence_flush_dirty_batch`. Without anything to flush there is no statement
    that could raise an error. -/
def flushDirtyBatch (env : JobEnv) (_maxBatch : ℕ) (b : Backend) (D : Tables) :
    Backend × Except (Option String) Tables :=
  if (resolvePersistenceMode env.persistenceMode).writesEnabled then
    let work := b.session.dirty ≠ [] ∨ b.session.pendingDeletes ≠ []
    match env.refused with
    | some message =>
      if work then ({ b with session := b.session.taken Entry.collect }, .error message)
      else (b, .ok D)
    | none => ({ b with session := (b.session.runFlush D).1 },
        (b.session.runFlush D).2.mapError env.errorText)
  else (b, .ok D)

/-- `dispatch_job`. -/
def dispatchJob (env : JobEnv) (jobType : Option String) (b : Backend) (d : JobData) :
    Backend × JobData × Dispatched :=
  match jobType with
  | none => (b, d, .returned false (some "missing job_type"))
  | some t =>
    if t = "ttl_cleanup" then ((b.ttlSweep env.clock).1, d, .returned true none)
    else if t = "snapshot_save" then
      match env.refused with
      | some message => (b, d, .raised message)
      | none => (b, { d with
          snapshots := d.snapshots ++ [b.saveSnapshot env.timestamptzOut env.clock] },
        .returned true none)
    else if t = "flush_dirty_keys" then
      match b.flushDirtyBatch env 1000 d.tables with
      | (b, .error message) => (b, d, .raised message)
      | (b, .ok D) => (b, { d with tables := D }, .returned true none)
    else if t = "aof_rewrite" then
      (b, d, .returned false (some "aof_rewrite is not implemented in v0.1"))
    else (b, d, .returned false (some ("unknown job_type \"" ++ t ++ "\"")))

end Backend

namespace Session

/-- `pg_redis_dirty_clear` and `pg_redis_pending_deletes_clear`. -/
def clearTracking (s : Session) : Session :=
  s.taken fun e => { e with inDirtySet := false }

end Session

namespace Backend

/-- `pg_redis_effective_persistence_mode`. -/
def effectivePersistenceMode (setting : Option String) (b : Backend) : PersistenceMode :=
  if resolvePersistenceMode setting = .asyncTable ∧ b.mode ≠ .shared then .syncTable
  else resolvePersistenceMode setting

/-- `pg_redis_xact_cb_persistence` at `XACT_EVENT_PRE_COMMIT`. -/
def xactPreCommit (setting : Option String) (b : Backend) (D : Tables) :
    Backend × Except SqlError Tables :=
  if b.effectivePersistenceMode setting = .syncTable then b.preCommit D
  else ({ b with session := b.session.clearTracking }, .ok D)

/-- `pg_redis_xact_cb_persistence` at `XACT_EVENT_ABORT`: under `async_table` the keyspace is not
    loaded again. -/
def xactAbort (setting : Option String) (b : Backend) : Backend :=
  if b.effectivePersistenceMode setting = .asyncTable then
    { b with session := b.session.clearTracking }
  else { b with session := b.session.abort }

end Backend

namespace Jobs

variable {I : Type} (plus : ℤ → I → Option ℤ)

/-- The time the handler took. -/
def durationMs (begins ends : Timeval) : ℤ :=
  max 0 ((ends.sec - begins.sec) * 1000 + (ends.usec - begins.usec).tdiv 1000)

/-- The first statement of `update_job_row`: `none` when `now() + schedule_interval` is out of
    range. -/
def updateJob (now : ℤ) (lastError : Option String) (success : Bool) (j : Job I) :
    Option (Job I) :=
  (plus now j.scheduleInterval).map fun t => { j with
    lastRun := some now
    nextRun := some t
    lastError := if success then none else lastError }

/-- The second statement of `update_job_row`, on the row that is there, if any. -/
def upsertStats (now : ℤ) (lastError : Option String) (durationMs : ℤ) (success : Bool) :
    Option JobStats → JobStats
  | none =>
    { totalRuns := 1
      successfulRuns := if success then 1 else 0
      failedRuns := if success then 0 else 1
      lastDurationMs := some durationMs
      lastSuccess := if success then some now else none
      lastFailure := if success then none else some now
      lastError := if success then none else lastError }
  | some s =>
    { totalRuns := s.totalRuns + 1
      successfulRuns := s.successfulRuns + if success then 1 else 0
      failedRuns := s.failedRuns + if success then 0 else 1
      lastDurationMs := some durationMs
      lastSuccess := if success then some now else s.lastSuccess
      lastFailure := if success then s.lastFailure else some now
      lastError := if success then s.lastError else lastError }

/-- `update_job_row`. Without a job the first statement updates nothing, and a new row of the
    second violates the foreign key. -/
def updateJobRow (now id : ℤ) (lastError : Option String) (durationMs : ℤ) (success : Bool)
    (S : JobDb I) : Except JobError (JobDb I) :=
  match S.jobs.lookup id with
  | none =>
    match S.stats.lookup id with
    | none => .error .foreignKeyViolation
    | some s => .ok { S with
        stats := S.stats.insert id (upsertStats now lastError durationMs success (some s)) }
  | some j =>
    match updateJob plus now lastError success j with
    | none => .error .timestampOutOfRange
    | some j => .ok { S with
        jobs := S.jobs.insert id j
        stats := S.stats.insert id
          (upsertStats now lastError durationMs success (S.stats.lookup id)) }

/-- The handler of a job in its subtransaction, which is rolled back unless the handler
    succeeds: the error it leaves, if any. -/
def runHandler (env : JobEnv) (j : Job I) (b : Backend) (d : JobData) :
    Backend × JobData × Option String :=
  match b.dispatchJob env (some j.jobType) d with
  | (b, d', .returned true _) => (b, d', none)
  | (b, _, .returned false err) => (b, d, some (err.getD "unknown error"))
  | (b, _, .raised message) => (b, d, some (message.getD "unknown error"))

/-- `pg_redis_jobs_run_one`: whether the job ran and succeeded. -/
def runOne (env : JobEnv) (now id : ℤ) (b : Backend) (S : JobDb I) :
    Backend × Except JobError (JobDb I × Bool) :=
  match (S.jobs.lookup id).filter Job.enabled with
  | none => (b, .ok (S, false))
  | some j =>
    let r := runHandler env j b S.data
    (r.1, (updateJobRow plus now id r.2.2 (durationMs env.begins env.ends) r.2.2.isNone
      { S with data := r.2.1 }).map fun S => (S, r.2.2.isNone))

/-- The loop of `pg_redis_jobs_run_due` over the ids found: how many jobs ran and succeeded. -/
def runIds (env : ℤ → JobEnv) (now : ℤ) :
    List ℤ → Backend → JobDb I → Backend × Except JobError (JobDb I × ℕ)
  | [], b, S => (b, .ok (S, 0))
  | id :: ids, b, S =>
    -- An id that is NULL is read as zero, and passed over.
    if id = 0 then runIds env now ids b S
    else
      match runOne plus (env id) now id b S with
      | (b, .error err) => (b, .error err)
      | (b, .ok (S, ok)) =>
        ((runIds env now ids b S).1, (runIds env now ids b S).2.map fun r =>
          (r.1, r.2 + if ok then 1 else 0))

/-- The time a job is due at, if it is. -/
def dueAt (now : ℤ) (j : Job I) : Option ℤ :=
  if j.enabled then j.nextRun.filter fun t => t ≤ now else none

/-- The ids that the query of `pg_redis_jobs_run_due` may find, those of the jobs due in the
    order of their times. What the order is at the same time is left open. -/
structure Due (now : ℤ) (jobs : Htab ℤ (Job I)) (ids : List ℤ) : Prop where
  nodup : ids.Nodup
  mem_iff : ∀ id, id ∈ ids ↔ ∃ j t, jobs.lookup id = some j ∧ dueAt now j = some t
  sorted : ids.Pairwise fun i k => ∀ j j' t t', jobs.lookup i = some j → dueAt now j = some t →
    jobs.lookup k = some j' → dueAt now j' = some t' → t ≤ t'

/-- The ids in one such order. -/
def dueIds (now : ℤ) (jobs : Htab ℤ (Job I)) : List ℤ :=
  ((jobs.toList.filter fun e => (dueAt now e.2).isSome).mergeSort fun x y =>
    (dueAt now x.2).getD 0 ≤ (dueAt now y.2).getD 0).map Prod.fst

/-- A transaction of the worker around `pg_redis_jobs_run_due`. An error of the statements
    outside the subtransactions, or before the commit, leaves the tables as they were. -/
def tick (setting : Option String) (env : ℤ → JobEnv) (now : ℤ) (ids : List ℤ) (b : Backend)
    (S : JobDb I) : Backend × JobDb I :=
  match runIds plus env now ids b S with
  | (b, .error _) => (b.xactAbort setting, S)
  | (b, .ok (S', _)) =>
    match b.xactPreCommit setting S'.data.tables with
    | (b, .error _) => (b.xactAbort setting, S)
    | (b, .ok D) => (b, { S' with data := { S'.data with tables := D } })

/-! ## Managing jobs -/

/-- A new row, with the next id of the sequence. -/
def insertJob (jobType : String) (interval : I) (nextRun : ℤ) (S : JobDb I) : JobDb I :=
  { S with
    jobs := S.jobs.insert S.nextId ⟨jobType, interval, true, none, some nextRun, none⟩
    nextId := S.nextId + 1 }

/-- What the policies have in common: the first run is an interval from now. -/
def addPolicy (jobType : String) (now : ℤ) (interval : I) (S : JobDb I) : Option (JobDb I) :=
  (plus now interval).map fun t => insertJob jobType interval t S

/-- `ADD_FLUSH_POLICY`. -/
def addFlushPolicy : ℤ → I → JobDb I → Option (JobDb I) := addPolicy plus "flush_dirty_keys"

/-- `ADD_TTL_CLEANUP_POLICY`. -/
def addTtlCleanupPolicy : ℤ → I → JobDb I → Option (JobDb I) := addPolicy plus "ttl_cleanup"

/-- `ADD_SNAPSHOT_POLICY`. -/
def addSnapshotPolicy : ℤ → I → JobDb I → Option (JobDb I) := addPolicy plus "snapshot_save"

/-- `pg_redis_bgsave`: a job every hour, due now. -/
def bgsave (hour : I) (now : ℤ) (S : JobDb I) : JobDb I := insertJob "snapshot_save" hour now S

/-- `DELETE_JOB`. The statistics go with the job. -/
def deleteJob (id : ℤ) (S : JobDb I) : JobDb I × Bool :=
  ({ S with jobs := S.jobs.erase id, stats := S.stats.erase id }, (S.jobs.lookup id).isSome)

/-! ## The rows account for the runs -/

/-- A run of a job: when, the error if it failed, and how long it took. -/
structure JobRun where
  now : ℤ
  error : Option String
  durationMs : ℤ
  deriving DecidableEq, Repr

/-- The statistics of the runs of a job, the latest last. -/
def statsOf (rs : List JobRun) : Option JobStats :=
  if rs = [] then none
  else some
    { totalRuns := rs.length
      successfulRuns := rs.countP fun r => r.error.isNone
      failedRuns := rs.countP fun r => r.error.isSome
      lastDurationMs := rs.getLast?.map JobRun.durationMs
      lastSuccess := (rs.filter fun r => r.error.isNone).getLast?.map JobRun.now
      lastFailure := (rs.filter fun r => r.error.isSome).getLast?.map JobRun.now
      lastError := (rs.filter fun r => r.error.isSome).getLast?.bind JobRun.error }

/-- The run of a job, if the job is there and enabled. -/
def runOf (env : JobEnv) (now id : ℤ) (b : Backend) (S : JobDb I) : Option (ℤ × JobRun) :=
  ((S.jobs.lookup id).filter Job.enabled).map fun j =>
    (id, ⟨now, (runHandler env j b S.data).2.2, durationMs env.begins env.ends⟩)

/-- The runs of the loop of `pg_redis_jobs_run_due`. -/
def runsOf (env : ℤ → JobEnv) (now : ℤ) : List ℤ → Backend → JobDb I → List (ℤ × JobRun)
  | [], _, _ => []
  | id :: ids, b, S =>
    if id = 0 then runsOf env now ids b S
    else (runOf (env id) now id b S).toList ++
      match runOne plus (env id) now id b S with
      | (_, .error _) => []
      | (b, .ok (S, _)) => runsOf env now ids b S

/-- The runs of a tick, if it commits. -/
def tickRuns (setting : Option String) (env : ℤ → JobEnv) (now : ℤ) (ids : List ℤ) (b : Backend)
    (S : JobDb I) : List (ℤ × JobRun) :=
  match runIds plus env now ids b S with
  | (_, .error _) => []
  | (b', .ok (S', _)) =>
    match b'.xactPreCommit setting S'.data.tables with
    | (_, .error _) => []
    | (_, .ok _) => runsOf plus env now ids b S

/-- What happens to the jobs. -/
inductive Action (I : Type)
  | addFlushPolicy (now : ℤ) (interval : I)
  | addTtlCleanupPolicy (now : ℤ) (interval : I)
  | addSnapshotPolicy (now : ℤ) (interval : I)
  | bgsave (hour : I) (now : ℤ)
  | deleteJob (id : ℤ)
  /-- An `UPDATE` of what the schedule consists of. -/
  | alter (id : ℤ) (jobType : String) (interval : I) (enabled : Bool) (nextRun : Option ℤ)
  /-- What other transactions write to the other tables. -/
  | write (data : JobData)
  /-- `RUN_JOB` in a backend, whose transaction commits. -/
  | runJob (env : JobEnv) (now id : ℤ) (b : Backend)
  /-- A tick of the worker. -/
  | tick (setting : Option String) (env : ℤ → JobEnv) (now : ℤ) (ids : List ℤ)

/-- The tables, the worker's memory, and the runs that were committed. -/
structure System (I : Type) where
  db : JobDb I
  worker : Backend
  history : List (ℤ × JobRun)

/-- The system when the extension has been created and the worker has started. -/
def System.init (mode : StorageMode) (shared : SharedStore) (data : JobData) : System I :=
  ⟨⟨data, ∅, ∅, 1⟩, ⟨mode, .init, shared⟩, []⟩

/-- A step. A transaction of a backend that is aborted is none. -/
def step (s : System I) : Action I → Option (System I)
  | .addFlushPolicy now interval =>
    (addFlushPolicy plus now interval s.db).map fun db => { s with db }
  | .addTtlCleanupPolicy now interval =>
    (addTtlCleanupPolicy plus now interval s.db).map fun db => { s with db }
  | .addSnapshotPolicy now interval =>
    (addSnapshotPolicy plus now interval s.db).map fun db => { s with db }
  | .bgsave hour now => some { s with db := bgsave hour now s.db }
  | .deleteJob id => some { s with db := (deleteJob id s.db).1 }
  | .alter id jobType interval enabled nextRun =>
    match s.db.jobs.lookup id with
    | none => some s
    | some j =>
      let j' : Job I := ⟨jobType, interval, enabled, j.lastRun, nextRun, j.lastError⟩
      some { s with db := { s.db with jobs := s.db.jobs.insert id j' } }
  | .write data => some { s with db := { s.db with data } }
  -- The error of a job is noted; one that is raised takes the transaction with it.
  | .runJob env now id b =>
    match (runOne plus env now id b s.db).2 with
    | .error _ => none
    | .ok (db, _) =>
      some { s with db, history := s.history ++ (runOf env now id b s.db).toList }
  | .tick setting env now ids =>
    some
      { db := (tick plus setting env now ids s.worker s.db).2
        worker := (tick plus setting env now ids s.worker s.db).1
        history := s.history ++ tickRuns plus setting env now ids s.worker s.db }

/-- The ids of a tick are those its query finds. -/
def Scheduled (s : System I) : Action I → Prop
  | .tick _ _ now ids => Due now s.db.jobs ids
  | _ => True

/-- The two rows of a job account for its runs. -/
structure RowsOf (rs : List JobRun) (j : Job I) (o : Option JobStats) : Prop where
  stats : o = statsOf rs
  lastRun : j.lastRun = rs.getLast?.map JobRun.now
  lastError : j.lastError = rs.getLast?.bind JobRun.error

/-- The rows of the jobs account for the runs. Statistics are of jobs that are there, and no id
    is given twice. -/
structure Accounted (S : JobDb I) (history : List (ℤ × JobRun)) : Prop where
  next : 0 < S.nextId
  ids : ∀ id j, S.jobs.lookup id = some j → 0 < id ∧ id < S.nextId
  past : ∀ x ∈ history, x.1 < S.nextId
  owned : ∀ id s, S.stats.lookup id = some s → (S.jobs.lookup id).isSome
  rows : ∀ id j, S.jobs.lookup id = some j →
    RowsOf (history.filterMap (valueAt id)) j (S.stats.lookup id)

variable {plus} {S S' : JobDb I} {b : Backend} {history : List (ℤ × JobRun)} {env : JobEnv}
  {now id : ℤ} {j : Job I} {r : JobRun}

/-- The row of the statistics after a run more. -/
theorem statsOf_concat (rs : List JobRun) (r : JobRun) :
    statsOf (rs ++ [r]) =
      some (upsertStats r.now r.error r.durationMs r.error.isNone (statsOf rs)) := by
  have hne : rs ++ [r] ≠ [] := by simp
  rw [statsOf, if_neg hne, statsOf]
  cases he : r.error with
  | none =>
    split_ifs with hnil
    · simp [hnil, upsertStats, he]
    · simp [upsertStats, he]
  | some err =>
    split_ifs with hnil
    · simp [hnil, upsertStats, he]
    · simp [upsertStats, he]

/-- The rows after a run: those of the job, with its next time `t`. -/
def note (id t : ℤ) (j : Job I) (r : JobRun) (S : JobDb I) : JobDb I :=
  { S with
    jobs := S.jobs.insert id
      { j with lastRun := some r.now, nextRun := some t, lastError := r.error }
    stats := S.stats.insert id
      (upsertStats r.now r.error r.durationMs r.error.isNone (S.stats.lookup id)) }

/-- What `pg_redis_jobs_run_one` does: nothing, when there is no such job or it is disabled;
    otherwise it runs the handler, and notes the run if the next time is in range. -/
theorem runOne_cases (plus : ℤ → I → Option ℤ) (env : JobEnv) (now id : ℤ) (b : Backend)
    (S : JobDb I) :
    (runOne plus env now id b S = (b, .ok (S, false)) ∧ runOf env now id b S = none ∧
      (S.jobs.lookup id).filter Job.enabled = none) ∨
    ∃ j, S.jobs.lookup id = some j ∧ j.enabled = true ∧
      let h := runHandler env j b S.data
      let r : JobRun := ⟨now, h.2.2, durationMs env.begins env.ends⟩
      runOf env now id b S = some (id, r) ∧
      ((plus now j.scheduleInterval = none ∧
          runOne plus env now id b S = (h.1, .error .timestampOutOfRange)) ∨
        ∃ t, plus now j.scheduleInterval = some t ∧
          runOne plus env now id b S =
            (h.1, .ok (note id t j r { S with data := h.2.1 }, r.error.isNone))) := by
  rw [runOne, runOf]
  cases hj : S.jobs.lookup id with
  | none => exact .inl ⟨rfl, rfl, rfl⟩
  | some j =>
    cases hen : j.enabled with
    | false => exact .inl (by simp [Option.filter, hen])
    | true =>
      refine .inr ⟨j, rfl, hen, ?_⟩
      have hfilter : (some j).filter Job.enabled = some j := by simp [Option.filter, hen]
      simp only [hfilter, Option.map_some, updateJobRow, hj, updateJob]
      refine ⟨trivial, ?_⟩
      -- `now() + schedule_interval` is computed in the statement that notes the run.
      cases plus now j.scheduleInterval with
      | none => exact .inl ⟨rfl, rfl⟩
      | some t =>
        refine .inr ⟨t, rfl, ?_⟩
        simp only [Option.map_some, note]
        cases (runHandler env j b S.data).2.2 <;> rfl

namespace Accounted

/-- Of a job whose id is not given yet there are no runs. -/
theorem runs_next (h : Accounted S history) : history.filterMap (valueAt S.nextId) = [] := by
  refine List.filterMap_eq_nil_iff.2 fun x hx => ?_
  rw [valueAt, if_neg]
  exact fun heq => absurd (h.past x hx) (heq ▸ Int.lt_irrefl _)

theorem insertJob (h : Accounted S history) (jobType : String) (interval : I) (t : ℤ) :
    Accounted (Jobs.insertJob jobType interval t S) history := by
  -- Statistics are of jobs, and no job has the next id.
  have hnone : S.stats.lookup S.nextId = none := by
    by_contra hsome
    obtain ⟨s, hs⟩ := Option.ne_none_iff_exists'.1 hsome
    obtain ⟨j, hj⟩ := Option.isSome_iff_exists.1 (h.owned _ _ hs)
    exact absurd (h.ids _ _ hj).2 (Int.lt_irrefl _)
  have hlook : ∀ id, (Jobs.insertJob jobType interval t S).jobs.lookup id =
      if id = S.nextId then some ⟨jobType, interval, true, none, some t, none⟩
      else S.jobs.lookup id := fun id => Htab.lookup_insert_eq _ _ _ _
  have hpos := h.next
  refine ⟨Int.lt_add_one_of_le hpos.le, fun id j hj => ?_,
    fun x hx => Int.lt_add_one_of_le (h.past x hx).le, fun id s hs => ?_, fun id j hj => ?_⟩
  · rw [hlook] at hj
    split_ifs at hj with heq
    · exact ⟨heq ▸ hpos, heq ▸ Int.lt_add_one_of_le le_rfl⟩
    · exact ⟨(h.ids id j hj).1, Int.lt_add_one_of_le (h.ids id j hj).2.le⟩
  · rw [hlook]
    split_ifs
    · rfl
    · exact h.owned id s hs
  · rw [hlook] at hj
    split_ifs at hj with heq
    · obtain rfl := Option.some.inj hj
      rw [heq, h.runs_next]
      exact ⟨hnone, rfl, rfl⟩
    · exact h.rows id j hj

/-- A job goes with its statistics; its runs stay in the past. -/
theorem deleteJob (h : Accounted S history) (id : ℤ) :
    Accounted (Jobs.deleteJob id S).1 history := by
  have hjobs : ∀ k, (Jobs.deleteJob id S).1.jobs.lookup k =
      if k = id then none else S.jobs.lookup k := fun k => Htab.lookup_erase_eq _ _ _
  have hstats : ∀ k, (Jobs.deleteJob id S).1.stats.lookup k =
      if k = id then none else S.stats.lookup k := fun k => Htab.lookup_erase_eq _ _ _
  refine ⟨h.next, fun k j hj => ?_, h.past, fun k s hs => ?_, fun k j hj => ?_⟩
  · rw [hjobs] at hj
    split_ifs at hj
    exact h.ids k j hj
  · rw [hstats] at hs
    split_ifs at hs with hk
    rw [hjobs, if_neg hk]
    exact h.owned k s hs
  · rw [hjobs] at hj
    split_ifs at hj with hk
    rw [hstats, if_neg hk]
    exact h.rows k j hj

/-- The row of a job changes, but for what the runs say. -/
theorem alter (h : Accounted S history) {j' : Job I} (hj : S.jobs.lookup id = some j)
    (hrun : j'.lastRun = j.lastRun) (herr : j'.lastError = j.lastError) :
    Accounted { S with jobs := S.jobs.insert id j' } history := by
  have hjobs : ∀ k, (S.jobs.insert id j').lookup k = if k = id then some j' else S.jobs.lookup k :=
    fun k => Htab.lookup_insert_eq _ _ _ _
  refine ⟨h.next, fun k i hi => ?_, h.past, fun k s hs => ?_, fun k i hi => ?_⟩
  · rw [hjobs] at hi
    split_ifs at hi with hk
    · exact hk ▸ h.ids id j hj
    · exact h.ids k i hi
  · rw [hjobs]
    split_ifs
    · rfl
    · exact h.owned k s hs
  · rw [hjobs] at hi
    split_ifs at hi with hk
    · obtain rfl := Option.some.inj hi
      obtain ⟨hstats, hlast, hlastError⟩ := h.rows id j hj
      rw [hk]
      exact ⟨hstats, hrun.trans hlast, herr.trans hlastError⟩
    · exact h.rows k i hi

/-- A run that is noted. -/
theorem note (h : Accounted S history) (hj : S.jobs.lookup id = some j) (t : ℤ) (r : JobRun) :
    Accounted (Jobs.note id t j r S) (history ++ [(id, r)]) := by
  have hjobs : ∀ k, (Jobs.note id t j r S).jobs.lookup k =
      if k = id then some { j with lastRun := some r.now, nextRun := some t, lastError := r.error }
      else S.jobs.lookup k := fun k => Htab.lookup_insert_eq _ _ _ _
  have hstats : ∀ k, (Jobs.note id t j r S).stats.lookup k =
      if k = id then
        some (upsertStats r.now r.error r.durationMs r.error.isNone (S.stats.lookup id))
      else S.stats.lookup k := fun k => Htab.lookup_insert_eq _ _ _ _
  -- The runs of the other jobs are as before.
  have hruns : ∀ k, (history ++ [(id, r)]).filterMap (valueAt k) =
      if k = id then history.filterMap (valueAt id) ++ [r]
      else history.filterMap (valueAt k) := fun k => by
    rw [List.filterMap_append]
    split_ifs with hk
    · rw [hk]
      exact congrArg _ (by simp [valueAt])
    · simp [valueAt, Ne.symm hk]
  refine ⟨h.next, fun k i hi => ?_, fun x hx => ?_, fun k s hs => ?_, fun k i hi => ?_⟩
  · rw [hjobs] at hi
    split_ifs at hi with hk
    · exact hk ▸ h.ids id j hj
    · exact h.ids k i hi
  · rcases List.mem_append.1 hx with hx | hx
    · exact h.past x hx
    · rw [List.mem_singleton.1 hx]
      exact (h.ids id j hj).2
  · rw [hjobs]
    rw [hstats] at hs
    split_ifs at hs ⊢
    · rfl
    · exact h.owned k s hs
  · rw [hjobs] at hi
    rw [hstats, hruns]
    split_ifs at hi ⊢
    · obtain rfl := Option.some.inj hi
      refine ⟨?_, by simp, by simp⟩
      rw [statsOf_concat, (h.rows id j hj).stats]
    · exact h.rows k i hi

/-- Only the rows of the jobs count. -/
theorem congr (h : Accounted S history) (hjobs : S'.jobs = S.jobs) (hstats : S'.stats = S.stats)
    (hnext : S'.nextId = S.nextId) : Accounted S' history := by
  obtain ⟨data, jobs, stats, nextId⟩ := S'
  obtain rfl : jobs = S.jobs := hjobs
  obtain rfl : stats = S.stats := hstats
  obtain rfl : nextId = S.nextId := hnext
  exact ⟨h.next, h.ids, h.past, h.owned, h.rows⟩

theorem runOne (h : Accounted S history) {ok : Bool}
    (hrun : (Jobs.runOne plus env now id b S).2 = .ok (S', ok)) :
    Accounted S' (history ++ (runOf env now id b S).toList) := by
  rcases runOne_cases plus env now id b S with ⟨heq, hof, -⟩ | ⟨j, hj, -, hof, hcase⟩
  · rw [heq] at hrun
    obtain ⟨rfl, -⟩ := Prod.mk.inj (Except.ok.inj hrun)
    rw [hof, Option.toList_none, List.append_nil]
    exact h
  · rcases hcase with ⟨-, heq⟩ | ⟨t, -, heq⟩
    · rw [heq] at hrun
      exact absurd hrun (by simp)
    · rw [heq] at hrun
      obtain ⟨rfl, -⟩ := Prod.mk.inj (Except.ok.inj hrun)
      rw [hof, Option.toList_some]
      have hsame : Accounted { S with data := (runHandler env j b S.data).2.1 } history :=
        h.congr rfl rfl rfl
      exact hsame.note hj t _

/-- The loop of a tick, when it comes to its end. -/
theorem runIds {env : ℤ → JobEnv} : ∀ (ids : List ℤ) {b : Backend} {S S' : JobDb I} {n : ℕ}
    {history : List (ℤ × JobRun)}, Accounted S history →
    (Jobs.runIds plus env now ids b S).2 = .ok (S', n) →
    Accounted S' (history ++ runsOf plus env now ids b S)
  | [], b, S, S', n, history, h, hrun => by
    obtain ⟨rfl, -⟩ := Prod.mk.inj (Except.ok.inj hrun)
    rw [runsOf, List.append_nil]
    exact h
  | id :: ids, b, S, S', n, history, h, hrun => by
    rw [Jobs.runIds] at hrun
    rw [runsOf]
    split_ifs at hrun ⊢ with hid
    · exact runIds ids h hrun
    · rcases hone : Jobs.runOne plus (env id) now id b S with ⟨b₁, err | ⟨S₁, ok⟩⟩
      · rw [hone] at hrun
        exact absurd hrun (by simp)
      · have hone' : (Jobs.runOne plus (env id) now id b S).2 = .ok (S₁, ok) := by rw [hone]
        have h₁ := h.runOne hone'
        simp only [hone] at hrun ⊢
        rcases hrest : (Jobs.runIds plus env now ids b₁ S₁).2 with err | ⟨S₂, m⟩
        · rw [hrest] at hrun
          exact absurd hrun (by simp [Except.map])
        · rw [hrest] at hrun
          obtain ⟨rfl, -⟩ := Prod.mk.inj (Except.ok.inj hrun)
          rw [← List.append_assoc]
          exact runIds ids h₁ hrest

theorem tick (h : Accounted S history) (setting : Option String) (env : ℤ → JobEnv)
    (ids : List ℤ) : Accounted (Jobs.tick plus setting env now ids b S).2
      (history ++ tickRuns plus setting env now ids b S) := by
  rw [Jobs.tick, tickRuns]
  rcases hrun : Jobs.runIds plus env now ids b S with ⟨b', err | ⟨S', n⟩⟩
  · exact (List.append_nil history).symm ▸ h
  · have hrun' : (Jobs.runIds plus env now ids b S).2 = .ok (S', n) := by rw [hrun]
    have h' := h.runIds ids hrun'
    rcases hcommit : b'.xactPreCommit setting S'.data.tables with ⟨b'', err | D⟩
    · simp only [hcommit]
      exact (List.append_nil history).symm ▸ h
    · simp only [hcommit]
      exact h'.congr rfl rfl rfl

end Accounted

/-- What the system keeps. -/
theorem accounted_step (s : System I) (a : Action I) (s' : System I)
    (h : Accounted s.db s.history) (hst : step plus s a = some s') :
    Accounted s'.db s'.history := by
  have hadd : ∀ jobType now interval,
      (addPolicy plus jobType now interval s.db).map (fun db => { s with db }) = some s' →
      Accounted s'.db s'.history := fun jobType now interval hadd => by
    obtain ⟨db, hdb, rfl⟩ := Option.map_eq_some_iff.1 hadd
    obtain ⟨t, -, rfl⟩ := Option.map_eq_some_iff.1 hdb
    exact h.insertJob jobType interval t
  -- New jobs get new ids; only a run adds to the history, and then to the rows of its job.
  cases a with
  | addFlushPolicy now interval => exact hadd _ now interval hst
  | addTtlCleanupPolicy now interval => exact hadd _ now interval hst
  | addSnapshotPolicy now interval => exact hadd _ now interval hst
  | bgsave hour now =>
    obtain rfl := Option.some.inj hst
    exact h.insertJob _ hour now
  | deleteJob id =>
    obtain rfl := Option.some.inj hst
    exact h.deleteJob id
  | alter id jobType interval enabled nextRun =>
    rw [step] at hst
    cases hj : s.db.jobs.lookup id with
    | none =>
      rw [hj] at hst
      exact Option.some.inj hst ▸ h
    | some j =>
      rw [hj] at hst
      obtain rfl := Option.some.inj hst
      exact h.alter hj rfl rfl
  | write data =>
    obtain rfl := Option.some.inj hst
    exact h.congr rfl rfl rfl
  | runJob env now id b =>
    rw [step] at hst
    rcases hrun : (runOne plus env now id b s.db).2 with err | ⟨db, ok⟩
    · rw [hrun] at hst
      exact absurd hst (by simp)
    · rw [hrun] at hst
      obtain rfl := Option.some.inj hst
      exact h.runOne hrun
  | tick setting env now ids =>
    obtain rfl := Option.some.inj hst
    exact h.tick setting env ids

/-- Intervals of whole units of the clock. -/
def addUnits (now i : ℤ) : Option ℤ := some (now + i)

/-- The default settings, and a handler that takes two milliseconds and a half. -/
def twoMs : JobEnv where
  persistenceMode := none
  clock _ := 0
  timestamptzOut _ := []
  refused := none
  errorText _ := none
  begins := ⟨0, 999000⟩
  ends := ⟨1, 1500⟩

/-- A sweep every ten units, and a snapshot at once. -/
def sweepAndSave : List (Action ℤ) := [.addTtlCleanupPolicy 0 10, .bgsave 3600 0]

/-- The system then. -/
def twoJobs : System ℤ where
  db :=
    { data := ⟨.empty, []⟩
      jobs :=
        ((∅ : Htab ℤ (Job ℤ)).insert 1 ⟨"ttl_cleanup", 10, true, none, some 10, none⟩).insert 2
          ⟨"snapshot_save", 3600, true, none, some 0, none⟩
      stats := ∅
      nextId := 3 }
  worker := ⟨.session, .init, ⟨⟨0, []⟩, ∅⟩⟩
  history := []

theorem reachable_twoJobs : Reachable (step addUnits) Scheduled
    (.init .session ⟨⟨0, []⟩, ∅⟩ ⟨.empty, []⟩) twoJobs :=
  .step (a := .bgsave 3600 0) (.step (a := .addTtlCleanupPolicy 0 10) .init trivial rfl) trivial rfl

end Jobs

end PgRedis
