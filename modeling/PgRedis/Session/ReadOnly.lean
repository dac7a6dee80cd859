import PgRedis.Session.Isolation

/-!
# A load and a read write nothing

The loaders work through the functions that also change the keyspace. A row whose value its
decoder rejects is taken out again with `pg_redis_store_remove`, which notes the key as deleted;
the next commit then deletes the row. Rows of every other kind leave the dirty chain and the
deletions as they were. So a load only reads if and only if no such row is among those it
selects (`load_keeps_iff`), and then a transaction with a single read writes at most the removal
of a key found expired.
-/

namespace PgRedis

open Lib

namespace Session

/-- The row is taken out again after its key was upserted, and this leaves a trace: the key is
    noted as deleted, or leaves the dirty chain. -/
def Spoils (s : Session) (r : LoadRow ValueType) : Prop :=
  r.key.length ≤ maxKeySize ∧ Entry.fresh.loadScalar r = none ∧
    (r.key ≠ [] ∨ r.key ∈ s.dirty ∧ ∃ e, s.store.lookup r.key = some e ∧ e.inDirtySet = true)

/-- The deltas of the keyspace: the dirty chain and the pending deletions. -/
def deltas (s : Session) : List Key × List Key := (s.dirty, s.pendingDeletes)

/-- A number that grows when a deletion is noted or a key leaves the dirty chain. -/
def traces (s : Session) : ℤ := s.pendingDeletes.length - s.dirty.length

variable {s : Session} {now : ℤ} {r : LoadRow ValueType}

theorem traces_eq_of_deltas {s s' : Session} (h : s'.deltas = s.deltas) : s'.traces = s.traces := by
  obtain ⟨hd, hp⟩ := Prod.mk.inj h
  rw [traces, traces, hd, hp]

@[simp] theorem deltas_upsert (k : Key) : (s.upsert now k).1.deltas = s.deltas := by
  rw [deltas, dirty_upsert, pendingDeletes_upsert]
  rfl

@[simp] theorem deltas_put (k : Key) (e : Entry) : (s.put k e).deltas = s.deltas := rfl

theorem inDirtySet_upserted_eq (o : Option Entry) :
    (upserted now o).1.inDirtySet = o.any Entry.inDirtySet := by
  cases o with
  | none => rfl
  | some e =>
    rw [upserted]
    split_ifs <;> rfl

/-- A row of a string or an integer that does not spoil the deltas keeps them. -/
theorem deltas_loadScalar (h : ¬s.Spoils r) : (s.loadScalar now r).deltas = s.deltas := by
  by_cases hlen : r.key.length > maxKeySize
  · rw [loadScalar, if_pos hlen]
  rw [Nat.not_lt] at hlen
  cases hr : (upserted now (s.store.lookup r.key)).1.loadScalar r with
  | some e => rw [loadScalar_of_some hlen hr, deltas_put]
  | none =>
    -- Only the empty key is removed without being noted.
    have hbad : Entry.fresh.loadScalar r = none := Entry.loadScalar_eq_none_iff.1 hr
    have hclean : r.key = [] ∧ ¬(r.key ∈ s.dirty ∧
        ∃ e, s.store.lookup r.key = some e ∧ e.inDirtySet = true) := by
      rw [← not_ne_iff, ← not_or]
      exact fun htrace => h ⟨hlen, hbad, htrace⟩
    rw [loadScalar_of_none hlen hbad, remove_of_lookup (lookup_put_self _ _ _), deltas, deltas,
      if_pos hclean.1, inDirtySet_upserted_eq]
    refine Prod.ext ?_ rfl
    simp only
    split_ifs with hd
    · refine List.erase_of_not_mem fun hmem => hclean.2 ⟨hmem, ?_⟩
      exact (Option.any_eq_true _ _).1 hd
    · rfl

/-- A row that spoils them leaves a trace. -/
theorem traces_loadScalar (h : s.Spoils r) : s.traces < (s.loadScalar now r).traces := by
  obtain ⟨hlen, hbad, htrace⟩ := h
  rw [loadScalar_of_none hlen hbad, remove_of_lookup (lookup_put_self _ _ _), traces, traces,
    inDirtySet_upserted_eq]
  simp only [dirty_put, pendingDeletes_put]
  have herase : (s.dirty.erase r.key).length ≤ s.dirty.length := List.length_erase_le
  by_cases hk : r.key = []
  · obtain ⟨hmem, e, he, hd⟩ := htrace.resolve_left (not_not.2 hk)
    have hdirty : (s.store.lookup r.key).any Entry.inDirtySet = true := by rw [he]; exact hd
    have hpos := List.length_pos_of_mem hmem
    rw [if_pos hdirty, if_pos hk, List.length_erase_of_mem hmem]
    omega
  · rw [if_neg hk, List.length_cons]
    split_ifs <;> omega

theorem traces_loadScalar_le (r : LoadRow ValueType) : s.traces ≤ (s.loadScalar now r).traces := by
  by_cases h : s.Spoils r
  · exact Int.le_of_lt (traces_loadScalar h)
  · exact Int.le_of_eq (traces_eq_of_deltas (deltas_loadScalar h)).symm

theorem traces_foldl_le (rows : List (LoadRow ValueType)) :
    s.traces ≤ (rows.foldl (loadScalar now) s).traces := by
  induction rows generalizing s with
  | nil => exact Int.le_refl _
  | cons r rows ih => exact Int.le_trans (traces_loadScalar_le r) ih

/-- Rows of distinct keys keep the deltas if and only if none of them spoils them. -/
theorem deltas_foldl_iff {rows : List (LoadRow ValueType)} (hnd : (rows.map LoadRow.key).Nodup) :
    (rows.foldl (loadScalar now) s).deltas = s.deltas ↔ ∀ r ∈ rows, ¬s.Spoils r := by
  induction rows generalizing s with
  | nil => exact iff_of_true rfl (by simp)
  | cons r rows ih =>
    rw [List.map_cons, List.nodup_cons] at hnd
    rw [List.foldl_cons, List.forall_mem_cons]
    by_cases h : s.Spoils r
    · refine iff_of_false (fun heq => ?_) fun hno => hno.1 h
      have hle : (s.loadScalar now r).traces ≤
          (rows.foldl (loadScalar now) (s.loadScalar now r)).traces := traces_foldl_le rows
      rw [traces_eq_of_deltas heq] at hle
      exact Int.lt_irrefl _ (Int.lt_of_lt_of_le (traces_loadScalar h) hle)
    · have hkeep : (s.loadScalar now r).deltas = s.deltas := deltas_loadScalar h
      -- The other rows have other keys, whose entries the row left alone.
      have hsame : ∀ r' ∈ rows, (s.loadScalar now r).Spoils r' ↔ s.Spoils r' := fun r' hr' => by
        have hne : r'.key ≠ r.key := fun heq => hnd.1 (heq ▸ List.mem_map_of_mem hr')
        rw [Spoils, Spoils, lookup_loadScalar, if_neg hne, (Prod.mk.inj hkeep).1]
      rw [← hkeep, ih hnd.2, and_iff_right h]
      exact forall₂_congr fun r' hr' => not_congr (hsame r' hr')

theorem deltas_loadField (r : LoadRow Field) : (s.loadField now r).deltas = s.deltas := by
  rw [loadField]
  split_ifs
  · rfl
  · rfl
  · exact deltas_upsert r.key

theorem deltas_loadItem (r : LoadRow ℤ) : (s.loadItem now r).deltas = s.deltas := by
  rw [loadItem]
  split_ifs
  · rfl
  · exact deltas_upsert r.key

theorem deltas_foldl {α : Type} {f : Session → LoadRow α → Session}
    (hf : ∀ s r, (f s r).deltas = s.deltas) (rows : List (LoadRow α)) :
    (rows.foldl f s).deltas = s.deltas := by
  induction rows generalizing s with
  | nil => rfl
  | cons r rows ih => rw [List.foldl_cons, ih, hf]

/-- A load keeps the deltas if and only if no row that it selects spoils them. -/
theorem load_keeps_iff {D : Tables} {q : Query} (hq : q.Selects D now) :
    (s.load now q).deltas = s.deltas ↔ ∀ r ∈ q.scalars, ¬s.Spoils r := by
  rw [load, deltas_foldl (fun _ => deltas_loadItem), deltas_foldl (fun _ => deltas_loadField)]
  exact deltas_foldl_iff hq.scalars_nodup

end Session

/-! ## A read -/

/-- The commands that only read. -/
def Command.reads : Command → Bool
  | get _ | exists? _ | ttl _ | hget .. | hexists .. | llen _ => true
  | _ => false

namespace Session

/-- The command finds the entry of its key expired, at one of its readings of the clock. -/
def FindsExpired (s : Session) (c : Call) : Prop :=
  ∃ e, s.store.lookup c.cmd.key = some e ∧ (e.isExpired c.now = true ∨ e.isExpired c.now' = true)

variable {s : Session} {now : ℤ}

theorem lookup_removes (now : ℤ) (key : Key) (s : Session) : (s.lookup now key).1 = s ∨
    ∃ e, s.store.lookup key = some e ∧ e.isExpired now = true ∧
      (s.lookup now key).1 = (s.remove key).1 := by
  rw [lookup]
  cases hl : s.store.lookup key with
  | none => exact .inl rfl
  | some e =>
    cases he : e.isExpired now with
    | true => exact .inr ⟨e, rfl, he, by simp [he]⟩
    | false => exact .inl (by simp [he])

/-- A body that writes nothing leaves the keyspace of the lookup. -/
theorem query_of_reads {missing : Reply} {f : Entry → Except EntryError (Option Entry × Reply)}
    (hf : ∀ e x r, f e = .ok (x, r) → x = none) (now : ℤ) (key : Key) (s : Session) :
    (s.query now key missing f).1 = (s.lookup now key).1 := by
  rw [query]
  split
  next s' hl => rw [hl]
  next s' e hl =>
    rw [hl]
    split
    next => rfl
    next => rfl
    next e' r hfe => exact absurd (hf e _ r hfe) (by simp)

theorem get_reads (e : Entry) (x : Option Entry) (r : Reply) (h : e.get = .ok (x, r)) :
    x = none := by
  rw [Entry.get] at h
  split at h <;> simp_all

theorem withHash_reads {f : Hash → Option Hash × Reply} (hf : ∀ h, (f h).1 = none) (e : Entry)
    (x : Option Entry) (r : Reply) (h : e.withHash f = .ok (x, r)) : x = none := by
  rw [Entry.withHash] at h
  split_ifs at h
  split at h
  · obtain ⟨rfl, -⟩ := Prod.mk.inj (Except.ok.inj h)
    rw [hf, Option.map_none]
  · exact (Prod.mk.inj (Except.ok.inj h)).1.symm

theorem withList_reads {null : Reply} {f : ListValue → Option ListValue × Reply}
    (hf : ∀ l, (f l).1 = none) (e : Entry) (x : Option Entry) (r : Reply)
    (h : e.withList null f = .ok (x, r)) : x = none := by
  rw [Entry.withList] at h
  split_ifs at h
  split at h
  · obtain ⟨rfl, -⟩ := Prod.mk.inj (Except.ok.inj h)
    rw [hf, Option.map_none]
  · exact (Prod.mk.inj (Except.ok.inj h)).1.symm

theorem ttl_removes (now now' : ℤ) (key : Key) (s : Session) : (s.ttl now now' key).1 = s ∨
    ∃ e, s.store.lookup key = some e ∧ (e.isExpired now = true ∨ e.isExpired now' = true) ∧
      (s.ttl now now' key).1 = (s.remove key).1 := by
  have hlookup := lookup_removes now key s
  rw [ttl]
  split
  next s' hl =>
    rw [hl] at hlookup
    rcases hlookup with hsame | ⟨e, he, hexp, hs⟩
    · exact .inl hsame
    · exact .inr ⟨e, he, .inl hexp, hs⟩
  next s' e hl =>
    -- The lookup found the entry, and so left the keyspace alone.
    rcases lookup_cases now key s with ⟨e', he', -, hl'⟩ | ⟨hnone, -⟩
    · rw [hl] at hl'
      obtain ⟨rfl, heq⟩ := Prod.mk.inj hl'
      obtain rfl := Option.some.inj heq
      split
      next => exact .inl rfl
      next t ht =>
        split_ifs with hexp
        · exact .inr ⟨e, he', .inr (by simp [Entry.isExpired, ht, hexp]), rfl⟩
        · exact .inl rfl
    · rw [hl] at hnone
      exact absurd hnone (by simp)

/-- What a read does to the keyspace: at most, it removes its key, found expired. -/
theorem call_of_reads {c : Call} (hc : c.cmd.reads = true) (s : Session) : s.call c = s ∨
    c.cmd.key ≠ [] ∧ s.FindsExpired c ∧ s.call c = (s.remove c.cmd.key).1 := by
  rw [call, exec]
  cases hcheck : c.cmd.check c.lim with
  | error err => exact .inl rfl
  | ok u =>
    have hkey := Command.key_ne_nil hcheck
    have hquery : ∀ {missing f}, (∀ e x r, f e = .ok (x, r) → x = none) →
        (s.query c.now c.cmd.key missing f).1 = s ∨
          c.cmd.key ≠ [] ∧ s.FindsExpired c ∧
            (s.query c.now c.cmd.key missing f).1 = (s.remove c.cmd.key).1 := by
      intro missing f hf
      rw [query_of_reads hf]
      rcases lookup_removes c.now c.cmd.key s with hsame | ⟨e, he, hexp, hs⟩
      · exact .inl hsame
      · exact .inr ⟨hkey, ⟨e, he, .inl hexp⟩, hs⟩
    obtain ⟨lim, now, now', cmd⟩ := c
    cases cmd with
    | get key => exact hquery get_reads
    | exists? key => exact hquery fun e x r h => (congrArg Prod.fst (Except.ok.inj h)).symm
    | ttl key =>
      rcases ttl_removes now now' key s with hsame | ⟨e, he, hexp, hs⟩
      · exact .inl hsame
      · exact .inr ⟨hkey, ⟨e, he, hexp⟩, hs⟩
    | hget key field => exact hquery (withHash_reads fun _ => rfl)
    | hexists key field => exact hquery (withHash_reads fun _ => rfl)
    | llen key => exact hquery (withList_reads fun _ => rfl)
    | set | del | expire | incr | decr | hset | hdel | push | pop =>
      exact absurd hc Bool.false_ne_true

/-! ## The commit -/

/-- A transaction whose only command is `c`, in a backend that has yet to load: what its commit
    makes of the tables. -/
def commitOne (now : ℤ) (q : Query) (c : Call) (s : Session) (D : Tables) :
    Except SqlError Tables :=
  (((s.loadIfNeeded now q).call c).runFlush D).2

/-- The commit removes no key but that of the command, and this only if the command found it
    expired. -/
def WritesNothing (now : ℤ) (q : Query) (c : Call) (s : Session) (D : Tables) : Prop :=
  ∃ expired : List Key, (∀ k ∈ expired, k = c.cmd.key ∧ (s.loadIfNeeded now q).FindsExpired c) ∧
    s.commitOne now q c D = .ok (D.storeDelete expired)

/-- A keyspace without dirty keys commits the deletions only. -/
theorem runFlush_of_clean (hd : s.dirty = []) (D : Tables) :
    (s.runFlush D).2 = .ok (D.storeDelete s.pendingDeletes) := by
  have hargs : s.flushArgs = ⟨[], [], [], [], [], s.pendingDeletes⟩ := by
    simp [flushArgs, dirtyEntries, childDeletes, childUpserts, hd]
  have hexec : executePlans s.flushArgs D = .ok (D.storeDelete s.pendingDeletes) := by
    refine executePlans_eq_ok_iff.2 ?_
    rw [hargs]
    refine ⟨⟨by simp, by simp, by simp, by simp⟩, fun k => ?_, fun k f => ?_, fun k o => ?_⟩
    · rfl
    · simp
    · simp
  rw [runFlush_ok hexec]

section

variable {D : Tables} {q : Query}

/-- A row is corrupt or not whatever the keyspace, if no key is dirty. -/
theorem spoils_iff_corrupt (hd : s.dirty = []) (r : LoadRow ValueType) :
    s.Spoils r ↔ Corrupt r := by
  rw [Spoils, Corrupt, hd]
  simp only [List.not_mem_nil, false_and, or_false]
  constructor
  · rintro ⟨hlen, hbad, hk⟩
    exact ⟨hk, hlen, hbad⟩
  · rintro ⟨hk, hlen, hbad⟩
    exact ⟨hlen, hbad, hk⟩

/-- A corrupt row leaves its key out of the keyspace. -/
theorem lookup_load_of_corrupt (hq : q.Selects D now) {r : LoadRow ValueType}
    (hr : r ∈ q.scalars) (hc : Corrupt r) : (s.load now q).store.lookup r.key = none := by
  obtain ⟨ht, p, hp, hexp, hval⟩ := (hq.mem_scalars r).1 hr
  rw [lookup_load_scalar hq s hp ht, scalarCell, if_neg (Nat.not_lt.2 hc.2.1), hexp, hval]
  exact Entry.loadScalar_eq_none_iff.1 hc.2.2

/-- What the commit after a single read deletes: what was noted before, and maybe the key of the
    command, found expired. -/
theorem runFlush_call_of_reads (hd : s.dirty = []) {c : Call} (hc : c.cmd.reads = true)
    (D : Tables) : ∃ expired : List Key, (∀ k ∈ expired, k = c.cmd.key ∧ s.FindsExpired c) ∧
      ((s.call c).runFlush D).2 = .ok (D.storeDelete (expired ++ s.pendingDeletes)) := by
  rcases call_of_reads hc s with h | ⟨hkey, hexp, h⟩
  · refine ⟨[], by simp, ?_⟩
    rw [h]
    exact runFlush_of_clean hd D
  · obtain ⟨e, he, -⟩ := id hexp
    refine ⟨[c.cmd.key], fun k hk => ⟨List.mem_singleton.1 hk, hexp⟩, ?_⟩
    rw [h, runFlush_of_clean (dirty_remove hd), remove_of_lookup he, if_neg hkey]
    rfl

/-- A transaction with a single read writes nothing if and only if no row that its load selects
    is corrupt. -/
theorem writesNothing_iff (hq : q.Selects D now) (hs : s.Unmarked) (hp : s.pendingDeletes = [])
    (hl : s.loaded = false) {c : Call} (hc : c.cmd.reads = true) :
    s.WritesNothing now q c D ↔ ∀ r ∈ q.scalars, ¬Corrupt r := by
  have hload : s.loadIfNeeded now q = { s.load now q with loaded := true } := by
    rw [loadIfNeeded, hl]
    rfl
  have hclean : (s.loadIfNeeded now q).dirty = [] := by rw [hload]; exact (hs.load q).dirty
  have hstore : (s.loadIfNeeded now q).store = (s.load now q).store := by rw [hload]
  constructor
  · rintro ⟨expired, hexpired, hcommit⟩ r hr hbad
    -- The key of a corrupt row is noted as deleted, and stays so over the read.
    have hpend : r.key ∈ (s.loadIfNeeded now q).pendingDeletes := by
      rw [hload]
      exact (mem_pendingDeletes_load q).2 (.inr ⟨r, hr, rfl, hbad⟩)
    obtain ⟨expired', -, hcommit'⟩ := runFlush_call_of_reads hclean hc D
    rw [commitOne, hcommit', Except.ok.injEq] at hcommit
    have hrow := congrFun (congrArg Tables.store hcommit) r.key
    simp only [Tables.storeDelete_store, List.mem_append, hpend, or_true, if_true] at hrow
    obtain ⟨-, p, hparent, -⟩ := (hq.mem_scalars r).1 hr
    split_ifs at hrow with hmem
    · obtain ⟨hk, e, he, -⟩ := hexpired r.key hmem
      rw [← hk, hstore, lookup_load_of_corrupt hq hr hbad] at he
      exact absurd he (by simp)
    · rw [hparent.row] at hrow
      exact absurd hrow (by simp)
  · intro hno
    have hpend : (s.loadIfNeeded now q).pendingDeletes = [] := by
      rw [hload, List.eq_nil_iff_forall_not_mem]
      intro k hk
      rcases (mem_pendingDeletes_load q).1 hk with h | ⟨r, hr, -, hbad⟩
      · rw [hp] at h
        exact absurd h List.not_mem_nil
      · exact hno r hr hbad
    obtain ⟨expired, hexpired, hcommit⟩ := runFlush_call_of_reads hclean hc D
    rw [hpend, List.append_nil] at hcommit
    exact ⟨expired, hexpired, hcommit⟩

/-- A load keeps the dirty chain and the pending deletions, and a transaction with a single read
    writes nothing, exactly when no row that the load selects has a value its decoder rejects. -/
theorem load_only_reads_iff (hq : q.Selects D now) (s : Session) :
    ((s.load now q).deltas = s.deltas ↔ ∀ r ∈ q.scalars, ¬s.Spoils r) ∧
      (s.Unmarked → s.pendingDeletes = [] → s.loaded = false → ∀ c : Call, c.cmd.reads = true →
        (s.WritesNothing now q c D ↔ ∀ r ∈ q.scalars, ¬Corrupt r)) :=
  ⟨load_keeps_iff hq, fun hs hp hl _ hc => writesNothing_iff hq hs hp hl hc⟩

/-- A row of type string whose value is no encoding. -/
def corruptRow : StoreRow := ⟨.known .string, some [9], none, 2⟩

/-- Tables with the corrupt row only. -/
def corruptTables : Tables := .oneKey [107] corruptRow [] []

/-- The rows of `corruptTables`. -/
def corruptQuery : Query := .oneKey .string [107] corruptRow [] []

theorem selects_corruptQuery : corruptQuery.Selects corruptTables 0 :=
  selects_oneKey rfl alive_none List.nodup_nil .nil

/-- A new backend loads the corrupt row. -/
theorem load_only_reads_corrupt :
    ((init.load 0 corruptQuery).deltas = init.deltas ↔ ∀ r ∈ corruptQuery.scalars, ¬init.Spoils r) ∧
      (init.Unmarked → init.pendingDeletes = [] → init.loaded = false →
        ∀ c : Call, c.cmd.reads = true →
        (init.WritesNothing 0 corruptQuery c corruptTables ↔
          ∀ r ∈ corruptQuery.scalars, ¬Corrupt r)) :=
  load_only_reads_iff selects_corruptQuery init

/-- `GET x` in a new backend commits the deletion of the row of `k`, whose value is no encoding. -/
theorem get_deletes_corrupt_row :
    ¬∀ (D : Tables) (now : ℤ) (q : Query) (s : Session), q.Selects D now →
      (s.load now q).deltas = s.deltas ∧
        (s.Unmarked → s.pendingDeletes = [] → s.loaded = false → ∀ c : Call,
          c.cmd.reads = true → s.WritesNothing now q c D) := by
  intro h
  have hget := (h corruptTables 0 corruptQuery init selects_corruptQuery).2 unmarked_init rfl rfl
    (callNow (.get [120])) rfl
  have hrow : (⟨[107], .string, some [9], none⟩ : LoadRow ValueType) ∈ corruptQuery.scalars :=
    List.mem_singleton.2 rfl
  exact (writesNothing_iff selects_corruptQuery unmarked_init rfl rfl rfl).1 hget _ hrow
    ⟨by simp, by decide, rfl⟩

end

end Session

end PgRedis
