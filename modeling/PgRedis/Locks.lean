import PgRedis.Lib.LockProgram
import PgRedis.Session.Command

/-!
# The locks of shared mode

What the functions of shared mode do with their locks, as lock programs
(`PgRedis.Lib.LockProgram`): the partition locks of the keyspace, `startup_lock` of the DSA
segment, `ring_consumer_lock` of the drains, and `snapshot_lock`. A call to the SPI, and an
assertion that no lock is held, is work outside locks. Whatever allocates memory may raise an
error, also under a lock; the end of the transaction or subtransaction then gives all locks
back.

The locks are ranked: the partition locks by their number, in which order `FLUSHALL` takes
them all, and the lock of the drains above them. Every function observes the order, begun with
no lock held (`closed_request`, `closed_bgworkerMain`). So, whatever any number of backends
and the background worker do,

* they never wait for each other so that one could not come to its end (`no_deadlock`);
* no lock is held where the SPI is called, and the locks exclude each other
  (`spi_outside_locks`), so that `FLUSHALL` resets the keyspace alone (`flushall_alone`).
-/

namespace PgRedis

open Lib

/-- A lock of `PgRedisSharedHeader`, or one of the partition locks. -/
inductive LWLock (n : ℕ)
  | snapshot
  | startup
  | partition (i : Fin n)
  | ringConsumer
  deriving DecidableEq, Repr

namespace LWLock

variable {n : ℕ}

/-- The order in which locks are taken. -/
def rank : LWLock n → ℕ
  | snapshot => 0
  | startup => 0
  | partition i => i + 1
  | ringConsumer => n + 1

end LWLock

namespace Locks

open LockProgram LWLock

variable {n : ℕ}

/-- What a function does with the locks. -/
abbrev Program (n : ℕ) := LockProgram (LWLock n)

/-! ## Shared memory -/

/-- `pg_redis_shmem_attach_dsa`: an error of the DSA is caught, the lock given back, and the
    error raised again. -/
def attachDsa : Program n :=
  either skip
    (seq (acquire .startup .exclusive)
      (seq (protect mayRaise (seq (release .startup) raise)) (release .startup)))

/-- `pg_redis_shmem_try_begin_snapshot` and `pg_redis_shmem_end_snapshot`. -/
def markSnapshot : Program n := either skip (under .snapshot .exclusive skip)

/-- `pg_redis_shmem_acquire_all_partition_locks_exclusive`. -/
def acquireAllPartitionLocks : Program n :=
  seqs ((List.finRange n).map fun i => acquire (.partition i) .exclusive)

/-- `pg_redis_shmem_release_all_partition_locks`. -/
def releaseAllPartitionLocks : Program n :=
  seqs ((List.finRange n).reverse.map fun i => release (.partition i))

/-! ## The ring and its drains -/

/-- `pg_redis_dirty_ring_publish`, which takes no lock. -/
def dirtyRingPublish : Program n := mayRaise

/-- The consumers of the ring: nothing, when there is no ring, or a pass under their lock. -/
def consume : Program n := either skip (under .ringConsumer .exclusive skip)

/-- `pg_redis_dirty_ring_collect`, which asserts that no lock is held. -/
def dirtyRingCollect : Program n := seq work consume

/-- `pg_redis_dirty_ring_release_batch`. -/
def dirtyRingReleaseBatch : Program n := consume

/-- `pg_redis_dirty_ring_abort_batch`. -/
def dirtyRingAbortBatch : Program n := consume

/-- `pg_redis_dirty_ring_reclaim_stuck`. -/
def dirtyRingReclaimStuck : Program n := consume

/-- `pg_redis_dirty_ring_drop_all_pending`. -/
def dirtyRingDropAllPending : Program n := consume

/-- A call to the SPI: `pg_redis_spi_connect` asserts that no lock is held. -/
def spi : Program n := seq work mayRaise

/-- `pg_redis_persistence_async_drain`. -/
def asyncDrain : Program n :=
  either skip <| seq mayRaise <| seq dirtyRingCollect <|
    either skip <| seq mayRaise <| seq work <|
      either (seq dirtyRingAbortBatch raise)
        (seq (protect spi (seq dirtyRingAbortBatch raise)) dirtyRingReleaseBatch)

/-- `pg_redis_xact_cb_persistence` before a commit: `run_flush`, or only memory. -/
def preCommit : Program n := either skip spi

/-- `pg_redis_persistence_sync_drain`, in a subtransaction or in a transaction of its own. The
    end of either gives all locks back when the drain fails. -/
def syncDrain : Program n :=
  seq work (seq (protect asyncDrain (seq releaseAll raise)) (either skip preCommit))

/-- `handle_ring_full_after_unlock`. -/
def handleRingFullAfterUnlock : Program n := either syncDrain mayRaise

/-- `pg_redis_dirty_ring_publish_blocking`: the ring may be found full any number of times. -/
def dirtyRingPublishBlocking : Program n :=
  seq (loop (seq dirtyRingPublish handleRingFullAfterUnlock)) dirtyRingPublish

/-! ## The shared keyspace -/

/-- `pg_redis_shared_store_lookup_raw`. -/
def sharedStoreLookupRaw (i : Fin n) : Program n := under (.partition i) .shared mayRaise

/-- `pg_redis_shared_hash_lookup_field`. -/
def sharedHashLookupField (i : Fin n) : Program n := under (.partition i) .shared mayRaise

/-- `pg_redis_shared_store_upsert`. -/
def sharedStoreUpsert (i : Fin n) : Program n := under (.partition i) .exclusive mayRaise

/-- `pg_redis_shared_store_remove`. -/
def sharedStoreRemove (i : Fin n) : Program n := under (.partition i) .exclusive mayRaise

/-- `pg_redis_shared_store_writeback`. -/
def sharedStoreWriteback (i : Fin n) : Program n := under (.partition i) .exclusive mayRaise

/-- `pg_redis_store_lookup`, which removes an expired entry. -/
def storeLookup (i : Fin n) : Program n :=
  seq (sharedStoreLookupRaw i) (either skip (sharedStoreRemove i))

/-- `pg_redis_shared_hash_set_atomic`: when the ring is full, for either event, the lock is given
    back and all is done again. -/
def sharedHashSetAtomic (i : Fin n) : Program n :=
  let l := .partition i
  let mutate := seq mayRaise (seq dirtyRingPublish (either skip (seq mayRaise dirtyRingPublish)))
  seq (loop (seq (acquire l .exclusive) (seq mutate (seq (release l) handleRingFullAfterUnlock))))
    (seq (acquire l .exclusive) (either (release l) (seq mutate (release l))))

/-- `publish_event_under_lock`: when the ring is full, the lock is given back, and taken again. -/
def publishEventUnderLock (i : Fin n) : Program n :=
  let l := .partition i
  seq (loop (seq dirtyRingPublish
    (seq (release l) (seq handleRingFullAfterUnlock (acquire l .exclusive))))) dirtyRingPublish

/-- `pg_redis_shared_hash_del_atomic`. -/
def sharedHashDelAtomic (i : Fin n) : Program n :=
  let l := .partition i
  seq (acquire l .exclusive)
    (either (release l) (seq mayRaise (seq (either skip (publishEventUnderLock i)) (release l))))

/-- `pg_redis_mark_dirty`: the writeback, then the events, each with what encodes it. -/
def markDirty (i : Fin n) : Program n :=
  seq (sharedStoreWriteback i) (either skip (loop (seq mayRaise dirtyRingPublishBlocking)))

/-! ## The load -/

/-- A row loaded: its entry upserted, and written back, or removed. -/
def loadRow (i : Fin n) : Program n :=
  either skip (seq mayRaise (seq (sharedStoreUpsert i)
    (either (sharedStoreRemove i) (seq mayRaise (sharedStoreWriteback i)))))

/-- `pg_redis_persistence_do_load`: the statements of the three loaders, and rows of any keys. -/
def persistenceDoLoad : Program n :=
  seq work (seq mayRaise (protect (loop (either spi (anyOf (List.ofFn loadRow)))) raise))

/-- `pg_redis_persistence_load_if_needed`: no lock is held while another backend loads. -/
def persistenceLoadIfNeeded : Program n :=
  either skip (seq (loop (seq work mayRaise)) (either skip (protect persistenceDoLoad raise)))

/-- `ensure_loaded`. -/
def ensureLoaded : Program n := seq attachDsa persistenceLoadIfNeeded

/-! ## The commands -/

/-- `pg_redis_set_expire_seconds`. -/
def setExpireSeconds (i : Fin n) : Program n :=
  seq (storeLookup i) (either skip (sharedStoreRemove i))

/-- `pg_redis_ttl_seconds`. -/
def ttlSeconds (i : Fin n) : Program n :=
  seq (storeLookup i) (either skip (sharedStoreRemove i))

/-- `pg_redis_set`, `incrdecr` and `list_push`: the entry is upserted, changed and marked. -/
def upsertThenMark (i : Fin n) : Program n :=
  seq (sharedStoreUpsert i) (seq mayRaise (markDirty i))

/-- `pg_redis_hget` and `pg_redis_hexists`: the field is read at once, or, in an expired entry, as
    in session mode. -/
def readField (i : Fin n) : Program n :=
  seq (sharedHashLookupField i) (either mayRaise (seq (storeLookup i) mayRaise))

/-- The body of a command in shared mode, on the key of the partition. -/
def command (i : Fin n) : Command → Program n
  | .set .. | .incr .. | .decr .. | .push .. => upsertThenMark i
  | .get .. | .exists? .. | .llen .. => seq (storeLookup i) mayRaise
  | .del .. => sharedStoreRemove i
  | .expire .. => seq (setExpireSeconds i)
      (either skip (seq (sharedStoreLookupRaw i) (either skip (markDirty i))))
  | .ttl .. => ttlSeconds i
  | .hset .. => seq (sharedHashSetAtomic i) mayRaise
  | .hget .. | .hexists .. => readField i
  | .hdel .. => seq (sharedHashDelAtomic i) mayRaise
  | .pop .. => seq (storeLookup i) (either skip (seq mayRaise (markDirty i)))

/-- `pg_redis_partition_lock`, of the key of a command. -/
def partitionOf [NeZero n] (hashBytes : Bytes → UInt32) (key : Key) : Fin n :=
  Fin.ofNat n (hashBytes key).toNat

/-- `pg_redis_flushall`: the partition locks are given back also after an error. -/
def flushall : Program n :=
  seq attachDsa <|
    seq (protect (seq acquireAllPartitionLocks mayRaise) (seq releaseAllPartitionLocks raise)) <|
      seq releaseAllPartitionLocks (seq dirtyRingDropAllPending (either skip spi))

/-! ## The jobs and the worker -/

/-- `pg_redis_ttl_sweep`, in shared mode: victims of any keys. -/
def ttlSweep : Program n := seq mayRaise (loop (anyOf (List.ofFn sharedStoreRemove)))

/-- `dispatch_job`: the sweep, or what only calls the SPI. -/
def dispatchJob : Program n := either ttlSweep (either spi mayRaise)

/-- `pg_redis_jobs_run_one`: an error of the job ends its subtransaction. -/
def jobsRunOne : Program n :=
  seq spi (either skip (seq (protect dispatchJob (seq releaseAll skip)) spi))

/-- `pg_redis_jobs_run_due`. -/
def jobsRunDue : Program n := seq spi (loop jobsRunOne)

/-- A transaction of the worker, whose error is reported and forgotten. -/
def workerTransaction (p : Program n) : Program n :=
  seq (protect p (seq releaseAll skip)) preCommit

/-- `pg_redis_bgworker_main`: the ticks of the loop, and the last drain. -/
def bgworkerMain : Program n :=
  seq attachDsa <|
    seq (loop (seq (workerTransaction jobsRunDue)
      (seq (either skip (workerTransaction asyncDrain)) (either skip dirtyRingReclaimStuck)))) <|
      either skip (workerTransaction asyncDrain)

/-- What a client asks for: a command on a key, or a command about the whole keyspace. -/
inductive Request
  | command (c : Command)
  | flushall
  /-- `KEYS`, `MEMORY_USAGE`, `INFO`, `STATS`, `SAVE` and `BGSAVE`. -/
  | scan
  | runJob
  deriving DecidableEq, Repr

/-- What a request does with the locks. -/
def request [NeZero n] (hashBytes : Bytes → UInt32) : Request → Program n
  | .command c => seq ensureLoaded (seq mayRaise (command (partitionOf hashBytes c.key) c))
  | .flushall => flushall
  | .scan => seq ensureLoaded (seq mayRaise (either skip spi))
  | .runJob => seq ensureLoaded jobsRunOne

/-- A transaction of a backend: requests, and the flush before the commit. An error aborts it. -/
def transaction [NeZero n] (hashBytes : Bytes → UInt32) (rs : List Request) : Program n :=
  protect (seq (seqs (rs.map (request hashBytes))) preCommit) (seq releaseAll skip)

/-- A process: a backend with its transactions, or the background worker. -/
inductive Process
  | backend (transactions : List (List Request))
  | worker
  deriving DecidableEq, Repr

/-- What a process does with the locks. -/
def process [NeZero n] (hashBytes : Bytes → UInt32) : Process → Program n
  | .backend txs => seqs (txs.map (transaction hashBytes))
  | .worker => bgworkerMain

/-! ## The order of the locks -/

variable {hashBytes : Bytes → UInt32} (i : Fin n)

theorem closed_under_mayRaise (l : LWLock n) (m : LockMode) : Closed rank (under l m mayRaise) :=
  closed_under lockFree_mayRaise

theorem closed_attachDsa : Closed rank (attachDsa : Program n) := by
  refine .either .skip ⟨by simp, ?_⟩
  -- The lock is given back whether the DSA is attached or an error is raised.
  have hmem : LWLock.startup ∈ [((LWLock.startup : LWLock n), LockMode.exclusive)].map Prod.fst :=
    List.mem_cons_self
  exact ⟨⟨hmem, drop_cons_self _ _ []⟩, ⟨hmem, trivial⟩⟩

theorem closed_consume : Closed rank (consume : Program n) :=
  .either .skip (closed_under trivial)

theorem closed_spi : Closed rank (spi : Program n) := .seq .work closed_mayRaise

/-- A drain that fails has no lock when its batch is given back. -/
theorem closed_asyncDrain : Closed rank (asyncDrain : Program n) := by
  refine .either .skip (.seq closed_mayRaise (.seq (.seq .work closed_consume) (.either .skip
    (.seq closed_mayRaise (.seq .work (.either (.seq closed_consume .raise) ?_))))))
  refine ⟨rfl, closed_consume, ?_⟩
  exact wp_mono dirtyRingAbortBatch closed_consume (fun _ _ => trivial) fun _ _ => trivial

theorem closed_preCommit : Closed rank (preCommit : Program n) := .either .skip closed_spi

theorem closed_syncDrain : Closed rank (syncDrain : Program n) :=
  .seq .work (.seq (.protect closed_asyncDrain .raise) (.either .skip closed_preCommit))

theorem closed_handleRingFull : Closed rank (handleRingFullAfterUnlock : Program n) :=
  .either closed_syncDrain closed_mayRaise

theorem closed_publishBlocking : Closed rank (dirtyRingPublishBlocking : Program n) :=
  .seq (.loop (.seq closed_mayRaise closed_handleRingFull)) closed_mayRaise

theorem closed_storeLookup : Closed rank (storeLookup i) :=
  .seq (closed_under_mayRaise _ _) (.either .skip (closed_under_mayRaise _ _))

/-- What follows the release of the one lock held. -/
theorem wp_release {p : Program n} (hp : Closed rank p) (l : LWLock n) (m : LockMode) :
    wp rank (seq (release l) p) (fun H => H = []) (fun _ => True) [(l, m)] := by
  refine ⟨List.mem_cons_self, ?_⟩
  rw [drop_cons_self]
  exact hp

theorem closed_sharedHashSetAtomic : Closed rank (sharedHashSetAtomic i) := by
  have hmutate : (seq mayRaise (seq dirtyRingPublish (either skip (seq mayRaise
      dirtyRingPublish))) : Program n).LockFree := by
    simp [dirtyRingPublish, mayRaise, LockFree]
  refine .seq (.loop ⟨by simp, ?_⟩) ⟨by simp, ?_⟩
  · exact hmutate.wp (wp_release closed_handleRingFull _ _) trivial
  · exact ⟨⟨List.mem_cons_self, drop_cons_self _ _ []⟩,
      hmutate.wp ⟨List.mem_cons_self, drop_cons_self _ _ []⟩ trivial⟩

/-- The loop is begun, and ended, with the lock of the partition. -/
theorem wp_publishEventUnderLock {Q : Held (LWLock n) → Prop}
    (hQ : Q [(.partition i, .exclusive)]) :
    wp rank (publishEventUnderLock i) Q (fun _ => True) [(.partition i, .exclusive)] := by
  refine ⟨fun H => H = [(.partition i, .exclusive)], rfl, ?_⟩
  rintro _ rfl
  refine ⟨lockFree_mayRaise.wp ⟨List.mem_cons_self, ?_⟩ trivial, lockFree_mayRaise.wp hQ trivial⟩
  rw [drop_cons_self]
  refine wp_mono handleRingFullAfterUnlock closed_handleRingFull ?_ fun _ h => h
  rintro _ rfl
  exact ⟨by simp, rfl⟩

theorem closed_sharedHashDelAtomic : Closed rank (sharedHashDelAtomic i) := by
  have hrelease : wp rank (release (.partition i) : Program n) (fun H => H = []) (fun _ => True)
      [(.partition i, .exclusive)] := ⟨List.mem_cons_self, drop_cons_self _ _ []⟩
  exact ⟨by simp, hrelease, lockFree_mayRaise.wp
    ⟨hrelease, wp_publishEventUnderLock i hrelease⟩ trivial⟩

theorem closed_markDirty : Closed rank (markDirty i) :=
  .seq (closed_under_mayRaise _ _)
    (.either .skip (.loop (.seq closed_mayRaise closed_publishBlocking)))

theorem closed_loadRow : Closed rank (loadRow i) :=
  .either .skip (.seq closed_mayRaise (.seq (closed_under_mayRaise _ _)
    (.either (closed_under_mayRaise _ _) (.seq closed_mayRaise (closed_under_mayRaise _ _)))))

/-- An error that is only raised again. -/
theorem closed_rethrow {p : Program n} (hp : Closed rank p) : Closed rank (protect p raise) :=
  wp_mono p hp (fun _ h => h) fun _ _ => trivial

theorem closed_persistenceDoLoad : Closed rank (persistenceDoLoad : Program n) := by
  refine .seq .work (.seq closed_mayRaise (closed_rethrow (.loop (.either closed_spi
    (closed_anyOf fun p hp => ?_)))))
  obtain ⟨i, rfl⟩ := (List.mem_ofFn' _ _).1 hp
  exact closed_loadRow i

theorem closed_ensureLoaded : Closed rank (ensureLoaded : Program n) :=
  .seq closed_attachDsa (.either .skip (.seq (.loop (.seq .work closed_mayRaise))
    (.either .skip (closed_rethrow closed_persistenceDoLoad))))

theorem closed_command (c : Command) : Closed rank (command i c) := by
  have hupsert : Closed rank (upsertThenMark i) :=
    .seq (closed_under_mayRaise _ _) (.seq closed_mayRaise (closed_markDirty i))
  have hread : Closed rank (readField i) := .seq (closed_under_mayRaise _ _)
    (.either closed_mayRaise (.seq (closed_storeLookup i) closed_mayRaise))
  have hlookup : Closed rank (seq (storeLookup i) mayRaise) :=
    .seq (closed_storeLookup i) closed_mayRaise
  have hremove : Closed rank (seq (storeLookup i) (either skip (sharedStoreRemove i))) :=
    .seq (closed_storeLookup i) (.either .skip (closed_under_mayRaise _ _))
  cases c with
  | set | incr | decr | push => exact hupsert
  | get | exists? | llen => exact hlookup
  | del => exact closed_under_mayRaise _ _
  | expire => exact .seq hremove (.either .skip (.seq (closed_under_mayRaise _ _)
      (.either .skip (closed_markDirty i))))
  | ttl => exact hremove
  | hset => exact .seq (closed_sharedHashSetAtomic i) closed_mayRaise
  | hget | hexists => exact hread
  | hdel => exact .seq (closed_sharedHashDelAtomic i) closed_mayRaise
  | pop =>
    exact .seq (closed_storeLookup i)
      (.either .skip (.seq closed_mayRaise (closed_markDirty i)))

/-- All partition locks, as they are held when they have been taken. -/
def allPartitions (n : ℕ) : Held (LWLock n) :=
  ((List.finRange n).reverse.map LWLock.partition).map fun l => (l, .exclusive)

/-- The partition locks are taken in their order. -/
theorem wp_acquireAllPartitionLocks {Q R : Held (LWLock n) → Prop} (h : Q (allPartitions n)) :
    wp rank acquireAllPartitionLocks Q R [] := by
  have hmap : (acquireAllPartitionLocks : Program n) =
      seqs (((List.finRange n).map LWLock.partition).map fun l => acquire l .exclusive) := by
    rw [acquireAllPartitionLocks, List.map_map]
    rfl
  rw [hmap]
  refine wp_acquireAll ?_ (by simp) ?_
  · rw [List.pairwise_map]
    exact (List.pairwise_lt_finRange n).imp fun hlt => Nat.succ_lt_succ hlt
  · rwa [← List.map_reverse, List.append_nil]

theorem wp_releaseAllPartitionLocks {Q R : Held (LWLock n) → Prop} (h : Q []) :
    wp rank releaseAllPartitionLocks Q R (allPartitions n) := by
  have hmap : (releaseAllPartitionLocks : Program n) =
      seqs (((List.finRange n).reverse.map LWLock.partition).map fun l => release l) := by
    rw [releaseAllPartitionLocks, List.map_map]
    rfl
  rw [hmap, ← List.append_nil (allPartitions n)]
  exact wp_releaseEach h

/-- Whether the reset raises an error or not, all partition locks are given back. -/
theorem closed_flushall : Closed rank (flushall : Program n) := by
  have hlast : Closed rank (seq dirtyRingDropAllPending (either skip spi) : Program n) :=
    .seq closed_consume (.either .skip closed_spi)
  refine .seq closed_attachDsa (wp_acquireAllPartitionLocks (lockFree_mayRaise.wp ?_ ?_))
  · exact wp_releaseAllPartitionLocks hlast
  · exact wp_releaseAllPartitionLocks trivial

theorem closed_ttlSweep : Closed rank (ttlSweep : Program n) := by
  refine .seq closed_mayRaise (.loop (closed_anyOf fun p hp => ?_))
  obtain ⟨i, rfl⟩ := (List.mem_ofFn' _ _).1 hp
  exact closed_under_mayRaise _ _

theorem closed_jobsRunOne : Closed rank (jobsRunOne : Program n) :=
  .seq closed_spi (.either .skip (.seq (.protect
    (.either closed_ttlSweep (.either closed_spi closed_mayRaise)) .skip) closed_spi))

theorem closed_workerTransaction {p : Program n} (hp : Closed rank p) :
    Closed rank (workerTransaction p) :=
  .seq (.protect hp .skip) closed_preCommit

/-- The background worker observes the order of the locks. -/
theorem closed_bgworkerMain : Closed rank (bgworkerMain : Program n) := by
  have hjobs := closed_workerTransaction (.seq closed_spi (.loop closed_jobsRunOne) :
    Closed rank (jobsRunDue : Program n))
  have hdrain := Closed.either .skip (closed_workerTransaction (closed_asyncDrain (n := n)))
  exact .seq closed_attachDsa (.seq (.loop (.seq hjobs (.seq hdrain
    (.either .skip closed_consume)))) hdrain)

variable [NeZero n]

/-- A request observes the order of the locks. -/
theorem closed_request (r : Request) : Closed rank (request hashBytes r : Program n) := by
  cases r with
  | command c => exact .seq closed_ensureLoaded (.seq closed_mayRaise (closed_command _ c))
  | flushall => exact closed_flushall
  | scan => exact .seq closed_ensureLoaded (.seq closed_mayRaise (.either .skip closed_spi))
  | runJob => exact .seq closed_ensureLoaded closed_jobsRunOne

theorem closed_process (p : Process) : Closed rank (process hashBytes p : Program n) := by
  cases p with
  | backend txs =>
    refine closed_seqs fun p hp => ?_
    obtain ⟨rs, -, rfl⟩ := List.mem_map.1 hp
    refine .protect (.seq (closed_seqs fun p hp => ?_) closed_preCommit) .skip
    obtain ⟨r, -, rfl⟩ := List.mem_map.1 hp
    exact closed_request r
  | worker => exact closed_bgworkerMain

/-! ## Processes side by side -/

variable {τ : Type*} [Fintype τ] [DecidableEq τ] {procs : τ → Process} {s : τ → Thread (LWLock n)}

/-- The processes before they have done anything. -/
def start (hashBytes : Bytes → UInt32) (procs : τ → Process) (t : τ) : Thread (LWLock n) :=
  .start (process hashBytes (procs t))

/-- What any number of backends and workers may have come to. -/
abbrev Reached (hashBytes : Bytes → UInt32) (procs : τ → Process) (s : τ → Thread (LWLock n)) :
    Prop :=
  Reachable step (fun _ _ => True) (start hashBytes procs) s

theorem Reached.safe (h : Reached hashBytes procs s) : Safe rank s :=
  safe_of_reachable (fun t => closed_process (procs t)) h

/-- From whatever they have come to, all processes can come to their ends, and no lock is
    then held: they never wait for each other. -/
theorem no_deadlock (h : Reached hashBytes procs s) :
    ∃ as s', run step s as = some s' ∧ ∀ t, s' t = ⟨[], []⟩ :=
  exists_run_finished h.safe.sound

/-- Two backends, one of which flushes the keyspace, and the worker. -/
def threeProcesses : Fin 3 → Process :=
  ![.backend [[.command (.set [107] [118])]], .backend [[.flushall]], .worker]

/-- The backend that flushes has come to the reset, with both partition locks, and the other one
    has taken `startup_lock`. -/
def untilReset (flusher other : Fin 3) : List (Fin 3 × Bool) :=
  List.replicate 15 (flusher, true) ++ List.replicate 9 (other, false)

/-- The three processes come to their ends from there. -/
theorem no_deadlock_reset : ∃ as s', run step ((run step
    (start (fun _ => 0) threeProcesses : Fin 3 → Thread (LWLock 2)) (untilReset 1 0)).get rfl) as =
      some s' ∧ ∀ t, s' t = ⟨[], []⟩ :=
  no_deadlock (.of_run .init (meets_true _ _) (Option.some_get _).symm)

/-- A process has no more locks than there are ranks. -/
theorem length_held_le (h : Reached hashBytes procs s) (t : τ) : (s t).held.length ≤ n + 2 := by
  have hle : ∀ l : LWLock n, rank l < n + 2 := by
    intro l
    cases l with
    | snapshot | startup => exact Nat.succ_pos _
    | partition i => exact Nat.succ_lt_succ (Nat.lt_succ_of_lt i.2)
    | ringConsumer => exact Nat.lt_succ_self _
  have hnodup : ((s t).held.map fun x => rank x.1).Nodup :=
    List.pairwise_map.2 ((h.safe.ascending t).imp fun hlt => hlt.ne')
  have hsub : ((s t).held.map fun x => rank x.1) ⊆ List.range (n + 2) := by
    intro r hr
    obtain ⟨x, -, rfl⟩ := List.mem_map.1 hr
    exact List.mem_range.2 (hle x.1)
  have hlen := (hnodup.subperm hsub).length_le
  rwa [List.length_map, List.length_range] at hlen

/-- Whatever the processes have come to: the SPI is called, and asserted to be, outside all
    locks; a lock that is given back is held; no two processes hold a lock in modes that
    conflict; and no process holds a lock twice, or more of them than there are ranks. -/
theorem spi_outside_locks (h : Reached hashBytes procs s) :
    (∀ t k, (s t).stack = .run work :: k → (s t).held = []) ∧
      (∀ t l k, (s t).stack = .run (release l) :: k → l ∈ (s t).held.map Prod.fst) ∧
      (∀ t u, t ≠ u → ∀ l m m', (l, m) ∈ (s t).held → (l, m') ∈ (s u).held →
        m = .shared ∧ m' = .shared) ∧
      ∀ t, ((s t).held.map Prod.fst).Nodup ∧ (s t).held.length ≤ n + 2 :=
  ⟨fun _ _ => h.safe.held_of_work, fun _ _ _ => h.safe.mem_held_of_release, h.safe.exclusive,
    fun t => ⟨(h.safe.ascending t).nodup, length_held_le h t⟩⟩

/-- The backend that flushes holds two locks at the reset, as many as it may. -/
theorem length_held_reset :
    ((((run step (start (fun _ => 0) threeProcesses : Fin 3 → Thread (LWLock 2))
      (untilReset 1 0)).get rfl) 1).held.length = 2) ∧
    ((((run step (start (fun _ => 0) threeProcesses : Fin 3 → Thread (LWLock 2))
      (untilReset 1 0)).get rfl) 1).held.length ≤ 2 + 2) :=
  ⟨by decide, ((spi_outside_locks (.of_run .init (meets_true _ _)
    (Option.some_get _).symm)).2.2.2 1).2⟩

/-- While a process has all partition locks, no other has any. -/
theorem flushall_alone (h : Reached hashBytes procs s) {t : τ}
    (ht : (s t).held = allPartitions n) {u : τ} (hu : t ≠ u) (i : Fin n) (m : LockMode) :
    (.partition i, m) ∉ (s u).held := by
  intro hmem
  have hall : (LWLock.partition i, LockMode.exclusive) ∈ (s t).held := by
    rw [ht, allPartitions, List.mem_map]
    exact ⟨_, List.mem_map_of_mem (List.mem_reverse.2 (List.mem_finRange i)), rfl⟩
  exact absurd (h.safe.exclusive t u hu _ _ _ hall hmem).1 (by simp)

end Locks

end PgRedis
