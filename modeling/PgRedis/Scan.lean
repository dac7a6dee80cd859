import PgRedis.Keyspace
import PgRedis.Session.Memory
import PgRedis.Snapshot

/-!
# Scans of the keyspace

`KEYS`, `SAVE`, `STATS` and the sweep of expired keys each walk a table of entries from
`pg_redis_store_seq_init` on. That table is the backend's own, whatever the storage mode; only
the removals of the sweep go where the mode says.

What a scan should say of the keyspace is in terms of the cells that commands work on
(`SeesKeyspace`). In session mode the scans say it, and in shared mode only of a keyspace that
holds nothing (`sees_keyspace_iff`).
-/

namespace PgRedis

open Lib

/-! ## The scans -/

namespace Session

/-- `pg_redis_keys`. `clock` is the time at which the walk is at a key. -/
def keys (clock : Key → ℤ) (s : Session) : List Key :=
  (s.store.toList.filter fun e => !e.2.isExpired (clock e.1)).map fun e => cstr e.1

/-- The keys that the first pass of `pg_redis_ttl_sweep` collects. -/
def victims (clock : Key → ℤ) (s : Session) : List Key :=
  (s.store.toList.filter fun e => e.2.isExpired (clock e.1)).map fun e => cstr e.1

end Session

namespace Backend

/-- `pg_redis_keys`: the table is the backend's own. -/
def keys (clock : Key → ℤ) (b : Backend) : List Key := b.session.keys clock

/-- `pg_redis_save`. -/
def saveSnapshot (timestamptzOut : ℤ → Bytes) (clock : Key → ℤ) (b : Backend) : Snapshot :=
  b.session.saveSnapshot timestamptzOut clock

/-- `pg_redis_store_collect_stats`. -/
def collectStats (b : Backend) : Stats := b.session.collectStats

/-- `pg_redis_store_remove`: the backend, and whether the key was there. -/
def remove (key : Key) (b : Backend) : Backend × Bool :=
  match b.mode with
  | .session => ({ b with session := (b.session.remove key).1 }, (b.session.remove key).2)
  | .shared => ({ b with shared := (b.shared.remove key).1 }, (b.shared.remove key).2)

/-- The second pass of `pg_redis_ttl_sweep`: the backend, and how many keys were there. -/
def removeAll (keys : List Key) (b : Backend) : Backend × ℤ :=
  keys.foldl (fun st key => ((st.1.remove key).1, if (st.1.remove key).2 then st.2 + 1 else st.2))
    (b, 0)

/-- `pg_redis_ttl_sweep`. -/
def ttlSweep (clock : Key → ℤ) (b : Backend) : Backend × ℤ :=
  b.removeAll (b.session.victims clock)

end Backend

/-! ## What scans should say -/

/-- The cells that have not expired. -/
def Cells.unexpired (clock : Key → ℤ) (K : Cells) : Cells :=
  fun k => (K k).filter fun c => !c.isExpired (clock k)

/-- `n` is the number of keys with `p`. -/
def Counts (p : Key → Prop) (n : ℤ) : Prop := ∃ ks : Finset Key, (∀ k, k ∈ ks ↔ p k) ∧ n = ks.card

/-- The number of keys of a type. -/
def Stats.typeCount (st : Stats) : ValueType → ℤ
  | .string => st.stringCount
  | .int => st.intCount
  | .hash => st.hashCount
  | .list => st.listCount

/-- The snapshot has an element for every cell, and says nothing else. -/
structure Snapshot.Saves (sn : Snapshot) (timestamptzOut : ℤ → Bytes) (K : Cells) : Prop where
  elements : ∃ els : List Element, sn.payload = document els ∧ sn.keyCount = els.length ∧
    (els.map Element.key).Nodup ∧ (∀ k, k ∈ els.map Element.key ↔ (K k).isSome) ∧
    (∀ el ∈ els, ∃ c, K el.key = some c ∧ el.value.Shows c.value ∧
      el.expireAt = c.expireAt.map fun t => cstr (timestamptzOut t)) ∧
    ∀ els' : List Element, (∀ el ∈ els', el.NulFree) → document els' = sn.payload → els' = els

/-- The statistics count the cells, by type. -/
structure Stats.CountsCells (st : Stats) (K : Cells) : Prop where
  keyCount : Counts (fun k => (K k).isSome) st.keyCount
  typeCount : ∀ t, Counts (fun k => ∃ c, K k = some c ∧ c.value.type = t) (st.typeCount t)
  sum : st.keyCount = st.stringCount + st.intCount + st.hashCount + st.listCount

/-- The scans see the cells that commands work on. -/
structure Backend.SeesKeyspace (hashBytes : Bytes → UInt32) (timestamptzOut : ℤ → Bytes)
    (clock : Key → ℤ) (b : Backend) (K : Cells) : Prop where
  keys_nodup : (b.keys clock).Nodup
  mem_keys : ∀ k, k ∈ b.keys clock ↔ (Cells.unexpired clock K k).isSome
  save : (b.saveSnapshot timestamptzOut clock).Saves timestamptzOut (Cells.unexpired clock K)
  stats : b.collectStats.CountsCells K
  sweep_count : Counts (fun k => ∃ c, K k = some c ∧ c.isExpired (clock k) = true)
    (b.ttlSweep clock).2
  sweep : (b.ttlSweep clock).1.Sound hashBytes (Cells.unexpired clock K)

/-! ## Texts -/

/-- The value that a command gives. -/
def Command.value? : Command → Option Bytes
  | set _ value | hset _ _ value | push _ _ value => some value
  | _ => none

/-- The arguments of a command are SQL text, without NUL bytes. -/
structure Command.SqlText (c : Command) : Prop where
  key : 0 ∉ c.key
  field : c.Text
  value : ∀ v, c.value? = some v → 0 ∉ v

/-- The keys are C strings and the values printable. -/
def Cells.Printable (K : Cells) : Prop := ∀ k c, K k = some c → 0 ∉ k ∧ c.value.Printable

/-- Commands keep values printable. -/
theorem Command.SqlText.keeps {c : Command} (h : c.SqlText) : Cell.Keeps View.Printable c where
  set key value hc := ⟨value, rfl, h.value value (by rw [hc, Command.value?])⟩
  int _ := trivial
  hashNew f v hv := absurd hv (by simp)
  hset key field value m hc hm f v hv := by
    by_cases hf : f = field
    · rw [hf, Finmap.lookup_insert] at hv
      rw [← Option.some.inj hv, hf]
      exact ⟨h.field field (by rw [hc, Command.field?]), h.value value (by rw [hc, Command.value?])⟩
    · rw [Finmap.lookup_insert_of_ne m hf] at hv
      exact hm f v hv
  hdel field m hm f v hv := by
    by_cases hf : f = field
    · rw [hf, Finmap.lookup_erase] at hv
      exact absurd hv (by simp)
    · rw [Finmap.lookup_erase_ne hf] at hv
      exact hm f v hv
  listNew v hv := absurd hv List.not_mem_nil
  push side key value vs hc hvs v hv := by
    rcases ListValue.mem_atEnd.1 hv with rfl | hv
    · exact h.value v (by rw [hc, Command.value?])
    · exact hvs v hv
  pop side v vs vs' hpop hvs w hw := by
    refine hvs w ?_
    cases side with
    | left =>
      cases vs with
      | nil => exact absurd hpop (by simp [Cell.popped])
      | cons x xs =>
        obtain ⟨-, rfl⟩ := Prod.mk.inj (Option.some.inj hpop)
        exact List.mem_cons_of_mem _ hw
    | right =>
      obtain ⟨x, -, heq⟩ := Option.map_eq_some_iff.1 hpop
      obtain ⟨-, rfl⟩ := Prod.mk.inj heq
      exact List.mem_of_mem_dropLast hw

theorem Cells.unexpired_eq_some {clock : Key → ℤ} {K : Cells} {k : Key} {c : Cell} :
    Cells.unexpired clock K k = some c ↔ K k = some c ∧ c.isExpired (clock k) = false := by
  rw [Cells.unexpired, Option.filter_eq_some_iff, Bool.not_eq_true']

theorem Cells.isSome_unexpired {clock : Key → ℤ} {K : Cells} {k : Key} :
    (Cells.unexpired clock K k).isSome ↔ ∃ c, K k = some c ∧ c.isExpired (clock k) = false := by
  rw [Option.isSome_iff_exists]
  exact exists_congr fun c => Cells.unexpired_eq_some

theorem Cells.Printable.unexpired {K : Cells} (h : Cells.Printable K) (clock : Key → ℤ) :
    Cells.Printable (Cells.unexpired clock K) :=
  fun k c hc => h k c (Cells.unexpired_eq_some.1 hc).1

/-! ## The table of the backend -/

namespace Stats

/-- The entries are counted, all of them and by type. -/
theorem foldl_add (es : List (Key × Entry)) (st : Stats) :
    (es.foldl (fun st e => st.add e.2) st).keyCount = st.keyCount + es.length ∧
      ∀ t, (es.foldl (fun st e => st.add e.2) st).typeCount t =
        st.typeCount t + es.countP fun e => e.2.type = t := by
  induction es generalizing st with
  | nil => exact ⟨(Int.add_zero _).symm, fun t => (Int.add_zero _).symm⟩
  | cons e es ih =>
    obtain ⟨hkeys, htypes⟩ := ih (st.add e.2)
    rw [List.foldl_cons]
    refine ⟨?_, fun t => ?_⟩
    · have hadd : (st.add e.2).keyCount = st.keyCount + 1 := rfl
      rw [hkeys, hadd, List.length_cons]
      omega
    · have hadd : (st.add e.2).typeCount t =
          st.typeCount t + if e.2.type = t then 1 else 0 := by
        cases t <;> simp only [add, typeCount] <;> split_ifs <;> omega
      rw [htypes, hadd, List.countP_cons]
      simp only [decide_eq_true_eq]
      split_ifs <;> omega

/-- Each entry is of one type. -/
theorem sum_foldl_add (es : List (Key × Entry)) {st : Stats}
    (h : st.keyCount = st.stringCount + st.intCount + st.hashCount + st.listCount) :
    let st' := es.foldl (fun st e => st.add e.2) st
    st'.keyCount = st'.stringCount + st'.intCount + st'.hashCount + st'.listCount := by
  induction es generalizing st with
  | nil => exact h
  | cons e es ih =>
    refine ih ?_
    cases ht : e.2.type <;> simp only [add, ht, reduceCtorEq, if_true, if_false] <;> omega

end Stats

namespace Session

variable {s : Session} {K : Cells} {clock : Key → ℤ}

/-- A scan for the entries with `p` meets the keys of the cells with `q`. -/
theorem Shows.mem_keysWhere (h : s.Shows K) {p : Key → Entry → Bool} {q : Key → Cell → Prop}
    (hpq : ∀ k e c, e.Shows c → (p k e = true ↔ q k c)) {k : Key} :
    k ∈ s.store.keysWhere p ↔ ∃ c, K k = some c ∧ q k c := by
  rw [Htab.mem_keysWhere]
  constructor
  · rintro ⟨e, hl, hp⟩
    obtain ⟨c, hK, hec⟩ := h.eq_some hl
    exact ⟨c, hK, (hpq k e c hec).1 hp⟩
  · rintro ⟨c, hK, hq⟩
    obtain ⟨e, hl, hec⟩ := h.exists_entry hK
    exact ⟨e, hl, (hpq k e c hec).2 hq⟩

theorem Shows.counts (h : s.Shows K) {p : Key → Entry → Bool} {q : Key → Cell → Prop}
    (hpq : ∀ k e c, e.Shows c → (p k e = true ↔ q k c)) :
    Counts (fun k => ∃ c, K k = some c ∧ q k c) (s.store.keysWhere p).length :=
  ⟨(s.store.keysWhere p).toFinset, fun k => List.mem_toFinset.trans (h.mem_keysWhere hpq), by
    rw [List.toFinset_card_of_nodup (s.store.nodup_keysWhere p)]⟩

/-- The keys that a scan returns are C strings. -/
theorem map_cstr_keys (h : s.Shows K) (hK : Cells.Printable K) (p : Key → Entry → Bool) :
    ((s.store.toList.filter fun e => p e.1 e.2).map fun e => cstr e.1) = s.store.keysWhere p := by
  refine List.map_congr_left fun e he => cstr_eq_self ?_
  obtain ⟨c, hc, -⟩ := h.eq_some (Htab.mem_toList.1 (List.mem_of_mem_filter he))
  exact (hK e.1 c hc).1

/-! ### Each scan -/

theorem keys_eq (h : s.Shows K) (hK : Cells.Printable K) (clock : Key → ℤ) :
    s.keys clock = s.store.keysWhere fun k e => !e.isExpired (clock k) :=
  map_cstr_keys h hK fun k e => !e.isExpired (clock k)

theorem victims_eq (h : s.Shows K) (hK : Cells.Printable K) (clock : Key → ℤ) :
    s.victims clock = s.store.keysWhere fun k e => e.isExpired (clock k) :=
  map_cstr_keys h hK fun k e => e.isExpired (clock k)

theorem mem_keys (h : s.Shows K) (hK : Cells.Printable K) (k : Key) :
    k ∈ s.keys clock ↔ (Cells.unexpired clock K k).isSome := by
  rw [keys_eq h hK, Cells.isSome_unexpired]
  exact h.mem_keysWhere (q := fun k c => c.isExpired (clock k) = false) fun k e c hec => by
    rw [hec.isExpired, Bool.not_eq_true']

theorem mem_victims (h : s.Shows K) (hK : Cells.Printable K) (k : Key) :
    k ∈ s.victims clock ↔ ∃ c, K k = some c ∧ c.isExpired (clock k) = true := by
  rw [victims_eq h hK]
  exact h.mem_keysWhere (q := fun k c => c.isExpired (clock k) = true) fun k e c hec => by
    rw [hec.isExpired]

/-- The snapshot of the table saves the cells it holds that have not expired. -/
theorem saves (hw : s.WellTyped) (h : s.Shows K) (hK : Cells.Printable K)
    (timestamptzOut : ℤ → Bytes) (clock : Key → ℤ) :
    (s.saveSnapshot timestamptzOut clock).Saves timestamptzOut (Cells.unexpired clock K) := by
  have hkeys : (s.elements timestamptzOut clock).map Element.key =
      s.store.keysWhere fun k e => !e.isExpired (clock k) := by
    rw [elements, List.map_map]
    rfl
  -- Each element is that of an entry, and so shows the cell of its key.
  have hel : ∀ el ∈ s.elements timestamptzOut clock, el.NulFree ∧
      ∃ c, Cells.unexpired clock K el.key = some c ∧ el.value.Shows c.value ∧
        el.expireAt = c.expireAt.map fun t => cstr (timestamptzOut t) := by
    intro el hmem
    obtain ⟨⟨k, e⟩, he, rfl⟩ := List.mem_map.1 hmem
    obtain ⟨hstore, hexp⟩ := List.mem_filter.1 he
    obtain ⟨c, hc, hec⟩ := h.eq_some (Htab.mem_toList.1 hstore)
    obtain ⟨hkey, hprint⟩ := hK k c hc
    obtain ⟨hshown, hnul⟩ := hec.shown hprint
    simp only [hec.isExpired, Bool.not_eq_true'] at hexp
    refine ⟨⟨hkey, hnul, fun t ht => ?_⟩, c, Cells.unexpired_eq_some.2 ⟨hc, hexp⟩, hshown, ?_⟩
    · obtain ⟨x, -, rfl⟩ := Option.map_eq_some_iff.1 ht
      exact fun h0 => absurd (List.mem_takeWhile_imp h0) (by simp)
    · rw [Entry.element, hec.expireAt]
  rw [saveSnapshot_eq hw]
  refine ⟨_, rfl, rfl, ?_, fun k => ?_, fun el hmem => (hel el hmem).2, fun els' hnul heq =>
    document_injective hnul (fun el hmem => (hel el hmem).1) heq⟩
  · rw [hkeys]
    exact s.store.nodup_keysWhere _
  · rw [hkeys, ← keys_eq h hK]
    exact mem_keys h hK k

/-- The statistics of the table count the cells it holds. -/
theorem countsCells (h : s.Shows K) : s.collectStats.CountsCells K := by
  obtain ⟨hkeys, htypes⟩ := Stats.foldl_add s.store.toList .zero
  refine ⟨?_, fun t => ?_, Stats.sum_foldl_add _ rfl⟩
  · have hcount := h.counts (p := fun _ _ => true) (q := fun _ _ => True) (by simp)
    rw [Htab.length_keysWhere, List.countP_true] at hcount
    rw [collectStats, hkeys]
    simpa [Option.isSome_iff_exists, Stats.zero] using hcount
  · have hcount := h.counts (p := fun _ e => e.type = t) (q := fun _ c => c.value.type = t)
      fun k e c hec => by rw [hec.type, decide_eq_true_eq]
    rw [Htab.length_keysWhere] at hcount
    have hzero : Stats.zero.typeCount t = 0 := by cases t <;> rfl
    rw [collectStats, htypes, hzero, Int.zero_add]
    exact hcount

end Session

/-! ## The sweep -/

namespace Backend

variable {hashBytes : Bytes → UInt32} {b : Backend} {K : Cells} {clock : Key → ℤ}

theorem remove_session (h : b.mode = .session) (key : Key) :
    b.remove key = ({ b with session := (b.session.remove key).1 }, (b.session.remove key).2) := by
  rw [remove, h]

theorem remove_shared (h : b.mode = .shared) (key : Key) :
    b.remove key = ({ b with shared := (b.shared.remove key).1 }, (b.shared.remove key).2) := by
  rw [remove, h]

theorem Sound.remove (h : b.Sound hashBytes K) (key : Key) :
    (b.remove key).1.Sound hashBytes (Function.update K key none) ∧
      (b.remove key).2 = (K key).isSome := by
  cases hm : b.mode with
  | session =>
    obtain ⟨ht, hs⟩ := h.session hm
    obtain ⟨hfound, hs'⟩ := Session.remove_shows hs
    have htyped : (b.session.remove key).1.WellTyped := fun k e he => ht k e (by
      rw [Session.lookup_remove] at he
      split_ifs at he
      exact he)
    rw [remove_session hm]
    exact ⟨sound_session hm htyped hs', hfound⟩
  | shared =>
    obtain ⟨hfound, hS'⟩ := (h.shared hm).remove key
    rw [remove_shared hm]
    exact ⟨sound_shared hm hS', hfound⟩

/-- The second pass removes the keys and counts them. -/
theorem Sound.foldl_remove (h : b.Sound hashBytes K) {keys : List Key} (hnodup : keys.Nodup)
    (hkeys : ∀ k ∈ keys, (K k).isSome) (n : ℤ) :
    let st := keys.foldl (fun st key =>
      ((st.1.remove key).1, if (st.1.remove key).2 then st.2 + 1 else st.2)) (b, n)
    st.1.Sound hashBytes (fun k => if k ∈ keys then none else K k) ∧ st.2 = n + keys.length := by
  induction keys generalizing b K n with
  | nil => exact ⟨by simpa using h, by simp⟩
  | cons key keys ih =>
    -- The others are still there once the first is gone, as no key comes twice.
    obtain ⟨hnotin, hnodup⟩ := List.nodup_cons.1 hnodup
    obtain ⟨h', hfound⟩ := h.remove key
    rw [hkeys key List.mem_cons_self] at hfound
    obtain ⟨hsound, hcount⟩ := ih h' hnodup (fun k hk => by
      rw [Function.update_of_ne (ne_of_mem_of_not_mem hk hnotin)]
      exact hkeys k (List.mem_cons_of_mem _ hk)) (n + 1)
    simp only [List.foldl_cons, hfound, if_true]
    refine ⟨?_, ?_⟩
    · have hcells : (fun k => if k ∈ key :: keys then none else K k) =
          fun k => if k ∈ keys then none else Function.update K key none k := by
        funext k
        by_cases hk : k = key
        · rw [hk, Function.update_self, if_pos List.mem_cons_self, ite_self]
        · rw [Function.update_of_ne hk]
          exact if_congr (List.mem_cons.trans (or_iff_right hk)) rfl rfl
      rw [hcells]
      exact hsound
    · rw [hcount, List.length_cons]
      omega

/-- The scans see the cells if the table they walk holds them. -/
theorem Sound.sees (h : b.Sound hashBytes K) (ht : b.session.WellTyped) (hs : b.session.Shows K)
    (hK : Cells.Printable K) (timestamptzOut : ℤ → Bytes) (clock : Key → ℤ) :
    b.SeesKeyspace hashBytes timestamptzOut clock K := by
  have hvictims : ∀ k, k ∈ b.session.victims clock ↔
      ∃ c, K k = some c ∧ c.isExpired (clock k) = true := Session.mem_victims hs hK
  have hnodup : (b.session.victims clock).Nodup := by
    rw [Session.victims_eq hs hK]
    exact b.session.store.nodup_keysWhere _
  obtain ⟨hsound, hcount⟩ := h.foldl_remove hnodup (fun k hk => by
    obtain ⟨c, hc, -⟩ := (hvictims k).1 hk
    rw [hc, Option.isSome_some]) 0
  -- What is left without the victims are the cells that have not expired.
  have hcells : (fun k => if k ∈ b.session.victims clock then none else K k) =
      Cells.unexpired clock K := by
    funext k
    refine Option.ext fun c => ?_
    rw [Cells.unexpired_eq_some, Option.ite_none_left_eq_some, hvictims]
    constructor
    · rintro ⟨hne, hc⟩
      exact ⟨hc, Bool.not_eq_true _ ▸ fun hexp => hne ⟨c, hc, hexp⟩⟩
    · rintro ⟨hc, hexp⟩
      refine ⟨?_, hc⟩
      rintro ⟨c', hc', hexp'⟩
      rw [Option.some.inj (hc'.symm.trans hc), hexp] at hexp'
      exact absurd hexp' Bool.false_ne_true
  refine ⟨?_, Session.mem_keys hs hK, Session.saves ht hs hK _ _, Session.countsCells hs, ?_, ?_⟩
  · rw [keys, Session.keys_eq hs hK]
    exact b.session.store.nodup_keysWhere _
  · refine ⟨(b.session.victims clock).toFinset, fun k => List.mem_toFinset.trans (hvictims k), ?_⟩
    rw [List.toFinset_card_of_nodup hnodup]
    exact hcount.trans (Int.zero_add _)
  · rw [← hcells]
    exact hsound

/-- Scans of an empty table see cells only if there are none. -/
theorem SeesKeyspace.eq_none {timestamptzOut : ℤ → Bytes}
    (h : b.SeesKeyspace hashBytes timestamptzOut clock K) (hs : b.session = .init) (k : Key) :
    K k = none := by
  obtain ⟨ks, hks, hcard⟩ := h.stats.keyCount
  rw [collectStats, hs] at hcard
  have hempty : ks = ∅ := Finset.card_eq_zero.1 (Int.natCast_eq_zero.1 hcard.symm)
  rw [hempty] at hks
  rw [← Option.not_isSome_iff_eq_none]
  exact fun hsome => Finset.notMem_empty k ((hks k).2 hsome)

/-! ## After commands -/

/-- A backend as commands leave it: what the keys hold is text, and in shared mode the table of
    the backend is empty. -/
structure Settled (hashBytes : Bytes → UInt32) (mode : StorageMode) (b : Backend) (K : Cells) :
    Prop where
  sound : b.Sound hashBytes K
  printable : mode = .session → Cells.Printable K
  session : mode = .shared → b.session = .init
  mode : b.mode = mode

variable {mode : StorageMode}

theorem settled_init (mode : StorageMode) :
    (⟨mode, .init, .empty⟩ : Backend).Settled hashBytes mode fun _ => none :=
  ⟨sound_init mode, fun _ _ _ hc => absurd hc (by simp), fun _ => rfl, rfl⟩

theorem Settled.exec (h : b.Settled hashBytes mode K) (ok : StoreSite → Bool) {c : Call}
    (hc : c.cmd.SqlText) : ∃ K', (b.exec hashBytes ok c).1.Settled hashBytes mode K' := by
  -- In session mode the values stay text; in shared mode the session's keyspace stays empty.
  cases mode with
  | session =>
    cases hcheck : c.cmd.check c.lim with
    | error err => exact ⟨K, by rwa [exec_refused hcheck]⟩
    | ok u =>
      obtain ⟨ht, hs⟩ := h.sound.session h.mode
      have htyped := ht.call c
      rw [exec_session h.mode]
      simp only [Session.call, Session.exec, hcheck] at htyped ⊢
      have hs' := (Session.perform_shows hs ht hcheck c.now c.now').2
      refine ⟨_, sound_session h.mode htyped hs', fun _ k c' hk => ?_,
        fun hm => absurd hm (by decide), h.mode⟩
      by_cases hkey : k = c.cmd.key
      · rw [hkey, Function.update_self] at hk
        refine ⟨hkey ▸ hc.key, Cell.perform_keeps hc.keeps (fun c₀ hc₀ => ?_) hk⟩
        exact (h.printable rfl _ c₀ hc₀).2
      · rw [Function.update_of_ne hkey] at hk
        exact h.printable rfl k c' hk
  | shared =>
    obtain ⟨K', hsound, -⟩ := h.sound.exec ok hc.field
    refine ⟨K', hsound, fun hm => absurd hm (by decide), fun _ => ?_,
      (mode_exec ok c).trans h.mode⟩
    rw [exec_shared h.mode]
    exact h.session rfl

theorem Settled.runs (h : b.Settled hashBytes mode K) {cs : List Request}
    (hcs : ∀ c ∈ cs, c.1.cmd.SqlText) : ∃ K', (b.runs hashBytes cs).Settled hashBytes mode K' := by
  induction cs generalizing b K with
  | nil => exact ⟨K, h⟩
  | cons c cs ih =>
    rw [List.forall_mem_cons] at hcs
    obtain ⟨K', h'⟩ := h.exec c.2 hcs.1
    exact ih h' hcs.2

/-- After any data commands, and at any reading of the clock, the scans see the cells that the
    commands work on in session mode; in shared mode only when there are none. -/
theorem sees_keyspace_iff (mode : StorageMode) {cs : List Request}
    (hcs : ∀ c ∈ cs, c.1.cmd.SqlText) :
    ∃ K, ((⟨mode, .init, .empty⟩ : Backend).runs hashBytes cs).Sound hashBytes K ∧
      ∀ timestamptzOut clock,
        ((⟨mode, .init, .empty⟩ : Backend).runs hashBytes cs).SeesKeyspace hashBytes
          timestamptzOut clock K ↔ mode = .session ∨ ∀ k, K k = none := by
  obtain ⟨K, h⟩ := (settled_init mode).runs hcs
  refine ⟨K, h.sound, fun timestamptzOut clock => ?_⟩
  cases mode with
  | session =>
    obtain ⟨ht, hs⟩ := h.sound.session h.mode
    exact ⟨fun _ => .inl rfl, fun _ => h.sound.sees ht hs (h.printable rfl) _ _⟩
  | shared =>
    have hempty := h.session rfl
    constructor
    · exact fun hsees => .inr (hsees.eq_none hempty)
    · rintro (hm | hnone)
      · exact absurd hm (by decide)
      · -- The empty table of the backend holds the cells of an empty keyspace.
        obtain rfl : K = fun _ => none := funext hnone
        refine h.sound.sees ?_ ?_ (fun _ _ hc => absurd hc (by simp)) _ _
        · rw [hempty]
          exact fun _ _ he => absurd he (by simp [Session.init])
        · rw [hempty]
          exact Session.shows_init

/-- In session mode the scans see the key of `SET k v`. -/
theorem sees_keyspace_set :
    ∃ K, ((⟨.session, .init, .empty⟩ : Backend).runs (fun _ => 0)
        [(⟨⟨0, 0⟩, 0, 0, .set [107] [118]⟩, enough)]).Sound (fun _ => 0) K ∧
      ∀ timestamptzOut clock, ((⟨.session, .init, .empty⟩ : Backend).runs (fun _ => 0)
        [(⟨⟨0, 0⟩, 0, 0, .set [107] [118]⟩, enough)]).SeesKeyspace (fun _ => 0)
          timestamptzOut clock K := by
  have htext : (Command.set [107] [118]).SqlText :=
    ⟨by decide, fun _ hf => absurd hf (by simp [Command.field?]), fun v hv => by
      rw [← Option.some.inj hv]
      decide⟩
  obtain ⟨K, hK, hiff⟩ := @sees_keyspace_iff (fun _ => 0) .session
    [(⟨⟨0, 0⟩, 0, 0, .set [107] [118]⟩, enough)] fun c hc => List.mem_singleton.1 hc ▸ htext
  exact ⟨K, hK, fun timestamptzOut clock => (hiff timestamptzOut clock).2 (.inl rfl)⟩

/-- In shared mode `GET k` replies what `SET k v` has set, and `KEYS` does not return the key. -/
theorem keys_empty_shared :
    let b := (⟨.shared, .init, .empty⟩ : Backend).runs (fun _ => 0)
      [(⟨⟨0, 0⟩, 0, 0, .set [107] [118]⟩, enough)]
    (b.exec (fun _ => 0) enough ⟨⟨0, 0⟩, 0, 0, .get [107]⟩).2 = .ok (.text (some [118])) ∧
      b.keys (fun _ => 0) = [] ∧
      ¬∃ K, b.Sound (fun _ => 0) K ∧ b.SeesKeyspace (fun _ => 0) (fun _ => []) (fun _ => 0) K := by
  refine ⟨rfl, rfl, ?_⟩
  rintro ⟨K, hK, hsees⟩
  have hk := hK.shared rfl [107]
  rw [hsees.eq_none rfl [107]] at hk
  exact absurd hk (by rintro ⟨⟩)

end Backend

end PgRedis
