import PgRedis.Jobs
import PgRedis.Session.Restore

/-!
# A flush run as a job

`RUN_JOB` of a `flush_dirty_keys` job makes early, in a subtransaction, the flush that the commit
would make. If it succeeds the commit has nothing left to do, and the tables are those of the
commit alone. If a statement raises an error, this is noted in the rows of the job, and the
transaction goes on. But the chain has been taken: the commit does not write the changes, and
neither does any later one, as the marks of the entries keep them off the chain. This ends when
the key is removed (`flush_job_law`).
-/

namespace PgRedis

open Lib

namespace Session

variable {s s' : Session} {D D' : Tables} {k : Key}

theorem mapEntries_nil (f : Entry → Entry) (s : Session) : s.mapEntries [] f = s := by
  have hsame : (s.store.mapValues fun k e => if k ∈ ([] : List Key) then f e else e) = s.store := by
    refine AList.ext ?_
    simp [Htab.mapValues]
  rw [mapEntries, hsame]

/-- A flush after a flush does nothing. -/
theorem runFlush_runFlush (h : (s.runFlush D).2 = .ok D') :
    (s.runFlush D).1.runFlush D' = s.runFlush D := by
  have hok := Backend.runFlush_of_nothing (s := (s.runFlush D).1) dirty_runFlush
    pendingDeletes_runFlush D'
  rw [runFlush_ok (executePlans_of_runFlush hok), dirty_runFlush, mapEntries_nil, mapEntries_nil]
  refine Prod.ext ?_ h.symm
  rw [runFlush_ok (executePlans_of_runFlush h)]
  rfl

/-- The mark of the entry keeps the key off the chain. -/
structure Stuck (k : Key) (s : Session) : Prop where
  marked : ∀ e, s.store.lookup k = some e → e.inDirtySet = true
  unlisted : k ∉ s.dirty
  kept : k ∉ s.pendingDeletes

/-- Writing to a stuck key, or to another. -/
theorem Stuck.write (h : s.Stuck k) {key : Key} {e : Entry}
    (he : k = key → e.inDirtySet = true) : (s.write key e).Stuck k where
  marked e' he' := by
    rw [lookup_write] at he'
    split_ifs at he'
    · obtain rfl := Option.some.inj he'
      rfl
    · exact h.marked e' he'
  unlisted := by
    rw [dirty_write]
    split_ifs with hd
    · exact h.unlisted
    · exact fun hmem => (List.mem_cons.1 hmem).elim (fun hk => hd (he hk)) h.unlisted
  kept := by
    rw [pendingDeletes_write]
    exact h.kept

/-- Removing another key. -/
theorem Stuck.remove (h : s.Stuck k) {key : Key} {e : Entry} (he : s.store.lookup key = some e)
    (hk : k ≠ key) : (s.remove key).1.Stuck k := by
  refine ⟨fun e' he' => ?_, ?_, ?_⟩
  · rw [lookup_remove, if_neg hk] at he'
    exact h.marked e' he'
  · rw [remove_of_lookup he]
    change k ∉ if e.inDirtySet then s.dirty.erase key else s.dirty
    split_ifs
    · exact fun hmem => h.unlisted (List.mem_of_mem_erase hmem)
    · exact h.unlisted
  · rw [remove_of_lookup he]
    change k ∉ if key = [] then s.pendingDeletes else key :: s.pendingDeletes
    split_ifs
    · exact h.kept
    · exact fun hmem => (List.mem_cons.1 hmem).elim hk h.kept

/-- A call leaves a key stuck, unless it removes it. -/
theorem Stuck.call (h : s.Stuck k) (hs : s.WellTyped) (hk : (s.store.lookup k).isSome) (a : Call)
    (hk' : ((s.call a).store.lookup k).isSome) : (s.call a).Stuck k := by
  rcases call_cases hs a with heq | ⟨-, hout⟩
  · rw [heq]
    exact h
  obtain ⟨e₀, he₀⟩ := Option.isSome_iff_exists.1 hk
  generalize s.call a = s' at hout hk'
  cases hout with
  | same => exact h
  | removed he =>
    refine h.remove he fun heq => ?_
    rw [lookup_remove, if_pos heq] at hk'
    exact absurd hk' (by simp)
  | started _ _ _ hmark =>
    refine h.write fun heq => ?_
    rw [hmark, ← heq, he₀, Option.any_some]
    exact h.marked e₀ he₀
  | edited he _ _ _ hmark =>
    refine h.write fun heq => ?_
    rw [hmark]
    exact h.marked _ (heq ▸ he)

/-- No flush writes a stuck key. -/
theorem Stuck.runFlush (h : s.Stuck k) (hok : (s.runFlush D).2 = .ok D') :
    (s.runFlush D).1.Stuck k ∧ D'.store k = D.store k ∧ D'.hashFields k = D.hashFields k ∧
      D'.listItems k = D.listItems k := by
  have hexec := executePlans_of_runFlush hok
  obtain ⟨-, hres⟩ := executePlans_ok hexec
  have hnot : k ∉ s.flushArgs.storeDeletes := fun hmem => h.kept (mem_storeDeletes.1 hmem).1
  refine ⟨⟨fun e he => ?_, ?_, ?_⟩, ?_, ?_, ?_⟩
  · rw [lookup_runFlush hexec, Option.map_eq_some_iff] at he
    obtain ⟨e₀, he₀, rfl⟩ := he
    rw [if_neg h.unlisted]
    exact h.marked e₀ he₀
  · rw [dirty_runFlush]
    exact List.not_mem_nil
  · rw [pendingDeletes_runFlush]
    exact List.not_mem_nil
  · rw [hres.store, if_neg hnot, storeAfter_of_not_dirty h.unlisted]
  · funext f
    rw [hres.hashFields, if_neg hnot]
    exact cell_of_not_dirty h.unlisted _
  · funext o
    rw [hres.listItems, if_neg hnot]
    exact cell_of_not_dirty h.unlisted _

theorem wellTyped_call (hs : s.WellTyped) (a : Call) : (s.call a).WellTyped := by
  rcases call_cases hs a with heq | ⟨-, hout⟩
  · rw [heq]
    exact hs
  · exact wellTyped_of_outcome hout hs

theorem wellTyped_runFlush (hs : s.WellTyped) (hok : (s.runFlush D).2 = .ok D') :
    (s.runFlush D).1.WellTyped := by
  intro k e he
  rw [lookup_runFlush (executePlans_of_runFlush hok), Option.map_eq_some_iff] at he
  obtain ⟨e₀, he₀, rfl⟩ := he
  split_ifs
  · rw [Entry.content_clear_collect, Option.isSome_map]
    exact hs k e₀ he₀
  · exact hs k e₀ he₀

/-- The rows of a key are as they were. -/
structure KeepsRows (k : Key) (D D' : Tables) : Prop where
  store : D'.store k = D.store k
  hashFields : D'.hashFields k = D.hashFields k
  listItems : D'.listItems k = D.listItems k

/-- As long as a stuck key is not removed, nothing that the session does changes its rows. -/
theorem Stuck.along (as : List Action) : ∀ {s : Session} {D₁ : Tables}, s.Stuck k → s.WellTyped →
    KeepsRows k D D₁ → Along step (fun st => (st.1.store.lookup k).isSome) (s, D₁) as →
    Along step (fun st => KeepsRows k D st.2) (s, D₁) as := by
  -- Over the actions: the key is marked as in the dirty set, but not in the chain, so that no
  -- flush collects it again.
  induction as with
  | nil => exact fun _ _ hrows _ => hrows
  | cons a as ih =>
    intro s D₁ h hs hrows halong
    refine ⟨hrows, fun st hst => ?_⟩
    have hnext := halong.2 st hst
    cases a with
    | call a =>
      obtain rfl := Option.some.inj hst
      exact ih (h.call hs halong.1 a hnext.head) (wellTyped_call hs a) hrows hnext
    | commit =>
      obtain ⟨s', D₂⟩ := st
      obtain ⟨hok, hs'⟩ : (s.runFlush D₁).2 = .ok D₂ ∧ (s.runFlush D₁).1 = s' := by
        rw [step] at hst
        split at hst
        · rename_i hflush
          obtain ⟨rfl, rfl⟩ := Prod.mk.inj (Option.some.inj hst)
          rw [hflush]
          exact ⟨rfl, rfl⟩
        · exact absurd hst (by simp)
      obtain ⟨hstuck, hstore, hfields, hitems⟩ := h.runFlush hok
      subst hs'
      exact ih hstuck (wellTyped_runFlush hs hok)
        ⟨hstore.trans hrows.store, hfields.trans hrows.hashFields,
          hitems.trans hrows.listItems⟩ hnext

theorem inDirtySet_collect (e : Entry) : e.collect.inDirtySet = e.inDirtySet := by
  rw [Entry.collect]
  split <;> rfl

/-- The keys of a chain that is taken and not written are stuck. -/
theorem Tracks.stuck_taken (hs : s.Tracks D) (hk : k ∈ s.dirty) :
    (s.taken Entry.collect).Stuck k where
  marked e he := by
    obtain ⟨e₀, he₀, hmark⟩ := (hs.dirty k).1 hk
    rw [taken, mapEntries, Htab.lookup_mapValues, he₀, Option.map_some, if_pos hk] at he
    rw [← Option.some.inj he, inDirtySet_collect, hmark]
  unlisted := List.not_mem_nil
  kept := List.not_mem_nil

theorem wellTyped_taken (hs : s.WellTyped) : (s.taken Entry.collect).WellTyped := by
  intro k e he
  rw [taken, mapEntries, Htab.lookup_mapValues, Option.map_eq_some_iff] at he
  obtain ⟨e₀, he₀, rfl⟩ := he
  split_ifs
  · exact Entry.isSome_content_collect (hs k e₀ he₀)
  · exact hs k e₀ he₀

end Session

namespace Jobs

variable {I : Type} {plus : ℤ → I → Option ℤ} {S : JobDb I} {b : Backend} {env : JobEnv}
  {now id t : ℤ} {j : Job I}

/-- A commit after an early flush does nothing more. -/
theorem preCommit_flushed {D D' : Tables} (h : (b.session.runFlush D).2 = .ok D') :
    Backend.preCommit { b with session := (b.session.runFlush D).1 } D' = b.preCommit D := by
  simp only [Backend.preCommit, Session.runFlush_runFlush h]

/-- What the handler of the flush leaves. -/
theorem runHandler_flush (htype : j.jobType = "flush_dirty_keys")
    (hmode : (resolvePersistenceMode env.persistenceMode).writesEnabled = true) :
    (env.refused = none → ∀ D', (b.session.runFlush S.data.tables).2 = .ok D' →
      runHandler env j b S.data =
        ({ b with session := (b.session.runFlush S.data.tables).1 },
          { S.data with tables := D' }, none)) ∧
    ∀ message, env.refused = some message →
      (b.session.dirty ≠ [] ∨ b.session.pendingDeletes ≠ []) →
      runHandler env j b S.data =
        ({ b with session := b.session.taken Entry.collect }, S.data,
          some (message.getD "unknown error")) := by
  rw [runHandler, Backend.dispatchJob, htype]
  simp only [String.reduceEq, if_false, if_true, Backend.flushDirtyBatch, hmode]
  refine ⟨fun henv D' hD' => ?_, fun message henv hwork => ?_⟩
  · rw [henv]
    simp only [hD', Except.mapError]
  · rw [henv]
    simp only [if_pos hwork]

/-- A flush in a job, in a backend whose deltas stand for its difference to the tables. One that
    succeeds leaves to the commit what the commit alone leaves. One that the database refuses is
    noted as the job's failure; the commit goes through and writes nothing, and as long as a
    changed key is not removed, its rows stay as they are. -/
theorem flush_job_law (hb : b.session.Tracks S.data.tables) (hj : S.jobs.lookup id = some j)
    (hen : j.enabled = true) (htype : j.jobType = "flush_dirty_keys")
    (ht : plus now j.scheduleInterval = some t)
    (hmode : (resolvePersistenceMode env.persistenceMode).writesEnabled = true) :
    (env.refused = none → ∃ b' S', runOne plus env now id b S = (b', .ok (S', true)) ∧
      (b.preCommit S.data.tables).2 = .ok S'.data.tables ∧
      b'.preCommit S'.data.tables = b.preCommit S.data.tables) ∧
    ∀ message, env.refused = some message →
      (b.session.dirty ≠ [] ∨ b.session.pendingDeletes ≠ []) →
      ∃ b' S', runOne plus env now id b S = (b', .ok (S', false)) ∧ S'.data = S.data ∧
        (S'.jobs.lookup id).map Job.lastError = some (some (message.getD "unknown error")) ∧
        (b'.preCommit S.data.tables).2 = .ok S.data.tables ∧
        ∀ k ∈ b.session.dirty, ∀ as,
          Along Session.step (fun st => (st.1.store.lookup k).isSome)
            (b'.session, S.data.tables) as →
          Along Session.step (fun st => Session.KeepsRows k S.data.tables st.2)
            (b'.session, S.data.tables) as := by
  obtain ⟨hok, hrefused⟩ := runHandler_flush (S := S) (b := b) htype hmode
  rcases runOne_cases plus env now id b S with
    ⟨-, -, hnone⟩ | ⟨j', hj', -, -, ⟨hout, -⟩ | ⟨t', -, heq⟩⟩
  · rw [hj] at hnone
    exact absurd hnone (by simp [Option.filter, hen])
  · obtain rfl := Option.some.inj (hj.symm.trans hj')
    exact absurd (ht.symm.trans hout) (by simp)
  obtain rfl := Option.some.inj (hj.symm.trans hj')
  refine ⟨fun henv => ?_, fun message henv hwork => ?_⟩
  · obtain ⟨D', hD', -⟩ := hb.runFlush
    rw [hok henv D' hD'] at heq
    refine ⟨_, _, heq, hD', ?_⟩
    exact preCommit_flushed hD'
  · rw [hrefused message henv hwork] at heq
    -- The chain has been taken by the flush that failed: nothing is left to the commit.
    have hnothing := Backend.runFlush_of_nothing (s := b.session.taken Entry.collect) rfl rfl
      S.data.tables
    refine ⟨_, _, heq, rfl, ?_, hnothing, fun k hk as halong => ?_⟩
    · simp only [note, AList.lookup_insert, Option.map_some]
    · exact (hb.stuck_taken hk).along as (Session.wellTyped_taken hb.typed) ⟨rfl, rfl, rfl⟩ halong

/-- A backend that has set the key `k`. -/
def setInSession : Backend where
  mode := .session
  session := Session.init.call ⟨⟨1024, 1048576⟩, 0, 0, .set [107] [118]⟩
  shared := ⟨⟨0, []⟩, ∅⟩

/-- A job that flushes every ten units. -/
def flushJob : JobDb ℤ where
  data := ⟨.empty, []⟩
  jobs := (∅ : Htab ℤ (Job ℤ)).insert 1 ⟨"flush_dirty_keys", 10, true, none, some 10, none⟩
  stats := ∅
  nextId := 2

/-- The disk is full. -/
theorem flush_job_law_refused :
    let env : JobEnv := { twoMs with refused := some (some "disk full") }
    (env.refused = none → ∃ b' S', runOne addUnits env 5 1 setInSession flushJob =
        (b', .ok (S', true)) ∧
      (setInSession.preCommit flushJob.data.tables).2 = .ok S'.data.tables ∧
      b'.preCommit S'.data.tables = setInSession.preCommit flushJob.data.tables) ∧
    ∀ message, env.refused = some message →
      (setInSession.session.dirty ≠ [] ∨ setInSession.session.pendingDeletes ≠ []) →
      ∃ b' S', runOne addUnits env 5 1 setInSession flushJob = (b', .ok (S', false)) ∧
        S'.data = flushJob.data ∧
        (S'.jobs.lookup 1).map Job.lastError = some (some (message.getD "unknown error")) ∧
        (b'.preCommit flushJob.data.tables).2 = .ok flushJob.data.tables ∧
        ∀ k ∈ setInSession.session.dirty, ∀ as,
          Along Session.step (fun st => (st.1.store.lookup k).isSome)
            (b'.session, flushJob.data.tables) as →
          Along Session.step (fun st => Session.KeepsRows k flushJob.data.tables st.2)
            (b'.session, flushJob.data.tables) as :=
  flush_job_law (Session.synced_init.tracks.call fun _ _ => ⟨fun _ => rfl, fun _ => rfl⟩) rfl rfl
    rfl rfl rfl

end Jobs

end PgRedis
