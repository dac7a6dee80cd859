import PgRedis.SharedStore.Cells

/-!
# The shared keyspace when memory runs out

Whatever allocations fail, a command leaves every key with a value that reads well: its old
one, its new one, or an empty one of its type (`exec_sound`), so that every keyspace the
commands reach has cells (`runs_sound`).

On such keyspaces `HGET` and `HEXISTS` answer alike from the table and from a copy of the hash
exactly if this has a field (`reads_agree_iff`), as there is no copy of an empty one.
-/

namespace PgRedis

open Lib

/-! ## Values written back with what memory there is -/

section

variable {hashBytes : Bytes → UInt32} {ok : StoreSite → Bool}

/-- The value of an entry without payloads. -/
def View.empty : ValueType → View
  | .string => .str none
  | .int => .int 0
  | .hash => .hash ∅
  | .list => .list []

theorem SharedValue.empty_shows (t : ValueType) :
    (SharedValue.empty t).Shows hashBytes (View.empty t) := by
  cases t with
  | string => rfl
  | int => rfl
  | hash => exact ⟨fun _ => rfl, fun f v hv => absurd hv (by simp)⟩
  | list => exact ⟨SharedList.numbered_empty, rfl⟩

theorem SharedList.newNode_any (ok : NodeSite → Bool) (value : Bytes) (ord : ℤ) (d : Dsa) :
    newNode ok value ord d = newNode (fun _ => true) value ord d ∨
      (newNode ok value ord d).2 = none := by
  rw [newNode]
  split_ifs with hnode hvalue
  · exact .inr rfl
  · exact .inl (by simp [newNode])
  · exact .inr rfl

/-- Values are pushed as if there were enough memory, or not at all. -/
theorem SharedList.pushAll_any (ok : ℕ → NodeSite → Bool) (vs : List Bytes) (l : SharedList)
    (d : Dsa) : pushAll ok vs l d = pushAll (fun _ _ => true) vs l d ∨
      (pushAll ok vs l d).2 = none := by
  induction vs generalizing l d with
  | nil => exact .inl rfl
  | cons v vs ih =>
    rw [pushAll, pushAll]
    have hpush : l.rpush (ok l.nodes.length) v d = l.rpush (fun _ => true) v d ∨
        (l.rpush (ok l.nodes.length) v d).2 = none := by
      rw [rpush, rpush]
      rcases newNode_any (ok l.nodes.length) v (if l.ordInitialized then l.maxOrd + 1 else 0) d with
        heq | hnone
      · exact .inl (by rw [heq])
      · right
        obtain ⟨d', hx⟩ : ∃ d', newNode (ok l.nodes.length) v
          (if l.ordInitialized then l.maxOrd + 1 else 0) d = (d', none) := ⟨_, Prod.ext rfl hnone⟩
        rw [hx]
    rcases hpush with heq | hnone
    · rw [heq]
      obtain ⟨d', _ | l', hx⟩ : ∃ d' o, l.rpush (fun _ => true) v d = (d', o) := ⟨_, _, rfl⟩
      · exact .inl (by rw [hx])
      · rw [hx]
        exact ih l' d'
    · right
      obtain ⟨d', hx⟩ : ∃ d', l.rpush (ok l.nodes.length) v d = (d', none) :=
        ⟨_, Prod.ext rfl hnone⟩
      rw [hx]

/-- Anything but a hash is built as if there were enough memory, or left empty. -/
theorem SharedValue.populate_any (ok : StoreSite → Bool) {e : Entry} (ht : e.type ≠ .hash)
    (d : Dsa) :
    populate hashBytes ok e d = populate hashBytes enough e d ∨
      ∃ d' err, populate hashBytes ok e d = (d', .empty e.type, .error err) := by
  obtain ⟨t, v, x, n, b⟩ := e
  cases t with
  | hash => exact absurd rfl ht
  | int => exact .inl (by cases v <;> rfl)
  | string =>
    cases v with
    | str s =>
      simp only [populate]
      by_cases hfail : s.length > 0 ∧ ok .string = false
      · exact .inr ⟨_, _, if_pos hfail⟩
      · exact .inl (by simp [hfail, enough])
    | _ => exact .inl rfl
  | list =>
    cases v with
    | list l =>
      simp only [populate]
      rcases SharedList.pushAll_any (fun i site => ok (.push i site)) (l.nodes.map ListNode.value)
        .empty d with heq | hnone
      · left
        rw [heq]
        rfl
      · right
        obtain ⟨d', hx⟩ : ∃ d', SharedList.pushAll (fun i site => ok (.push i site))
          (l.nodes.map ListNode.value) .empty d = (d', none) := ⟨_, Prod.ext rfl hnone⟩
        rw [hx]
        exact ⟨_, _, rfl⟩
    | _ => exact .inl rfl

/-- So is it written back. -/
theorem SharedEntry.writeback_any (hashBytes : Bytes → UInt32) (ok : StoreSite → Bool) {e : Entry}
    (ht : e.type ≠ .hash) (d : Dsa) (o : Option SharedEntry) :
    writeback hashBytes ok e d o = writeback hashBytes enough e d o ∨
      ∃ d' err, writeback hashBytes ok e d o =
        (d', some ⟨.empty e.type, e.expireAt, e.version⟩, .error err) := by
  have built : ∀ d, overwrite e (SharedValue.populate hashBytes ok e d) =
        overwrite e (SharedValue.populate hashBytes enough e d) ∨
      ∃ d' err, overwrite e (SharedValue.populate hashBytes ok e d) =
        (d', some ⟨.empty e.type, e.expireAt, e.version⟩, .error err) := fun d => by
    rcases SharedValue.populate_any ok ht d with heq | ⟨d', err, heq⟩ <;> rw [heq]
    · exact .inl rfl
    · exact .inr ⟨d', err, rfl⟩
  cases o with
  | none => exact built d
  | some se =>
    rw [writeback, writeback]
    split_ifs with hne
    · exact built _
    · cases hv : se.value with
      | hash table count =>
        rw [hv, not_not] at hne
        exact absurd hne.symm ht
      | str | int | list => exact built _

theorem SharedValue.keepPointer_eq (old new : Option SharedTable) :
    keepPointer old new = old ∨ keepPointer old new = new := by
  rcases old with _ | t
  · exact .inl rfl
  · rcases new with _ | t'
    · exact .inl rfl
    · rw [keepPointer]
      split_ifs
      · exact .inr rfl
      · exact .inl rfl

namespace SharedEntry

variable {c : Cell} {o : Option SharedEntry} {o' : Option Cell}

/-- Anything but a hash written back: it is there, or an error has left nothing of it. -/
theorem writeback_sound (hashBytes : Bytes → UInt32) (ok : StoreSite → Bool) {e : Entry}
    (h : e.Shows c) (ht : c.value.type ≠ .hash) (d : Dsa) (o : Option SharedEntry) :
    ∃ d' se r c', writeback hashBytes ok e d o = (d', some se, r) ∧
      se.Shows hashBytes c' ∧ c'.expireAt = c.expireAt ∧
      (r = .ok () ∧ c' = c.stored .shared ∨
        ∃ err, r = .error err ∧ c'.value = .empty c.value.type) := by
  have he : e.type ≠ .hash := by rwa [h.type]
  rcases writeback_any hashBytes ok he d o with heq | ⟨d', err, heq⟩
  · obtain ⟨d', se, heq', hse⟩ : ∃ d' se, writeback hashBytes enough e d o = (d', some se, .ok ()) ∧
        se.Shows hashBytes (c.stored .shared) := writeback_shows enough_eq h ht d o
    exact ⟨d', se, _, _, heq.trans heq', hse, rfl, .inl ⟨rfl, rfl⟩⟩
  · refine ⟨d', _, _, ⟨.empty c.value.type, c.expireAt⟩, heq, ⟨?_, h.expireAt⟩, rfl,
      .inr ⟨err, rfl, rfl⟩⟩
    rw [h.type]
    exact SharedValue.empty_shows _

/-- `HSET` finds another value than a hash, or opens a hash: the one it finds, or one that it
    makes of nothing or of an expired entry. -/
theorem opened_cases (h : Option.Rel (Shows hashBytes) o o') (now : ℤ) :
    (∃ se c, o = some se ∧ o' = some c ∧ Cell.found now o' = some c ∧ opened now o = se ∧
      se.value.type = c.value.type ∧ c.value.type ≠ .hash) ∨
    ∃ table count m x version, opened now o = ⟨.hash table count, x, version⟩ ∧
      SharedValue.Shows hashBytes (.hash table count) (.hash m) ∧
      (Cell.found now o' = none ∧ m = ∅ ∧ opened now o = freshHash ∨
        o' = some ⟨.hash m, x⟩ ∧ Cell.found now o' = some ⟨.hash m, x⟩ ∧
          o = some (opened now o)) := by
  have hfresh : SharedValue.Shows hashBytes (.hash none 0) (.hash ∅) :=
    SharedValue.empty_shows .hash
  -- Nothing, an expired entry, and an entry by its type.
  cases h with
  | none => exact .inr ⟨none, 0, ∅, none, 0, rfl, hfresh, .inl ⟨rfl, rfl, rfl⟩⟩
  | some hec =>
    rename_i se c
    by_cases hexp : se.isExpired now
    · have hop : opened now (some se) = freshHash := if_pos hexp
      have hfound : Cell.found now (some c) = none := if_pos (hec.isExpired now ▸ hexp)
      exact .inr ⟨none, 0, ∅, none, 0, hop, hfresh, .inl ⟨hfound, rfl, hop⟩⟩
    · have hop : opened now (some se) = se := if_neg hexp
      have hfound : Cell.found now (some c) = some c := if_neg (hec.isExpired now ▸ hexp)
      by_cases ht : c.value.type = .hash
      · obtain ⟨table, count, m, hval, hm, hshow⟩ := hec.hash ht
        obtain ⟨v, x⟩ := c
        obtain rfl : v = .hash m := hm
        have hse : opened now (some se) = ⟨.hash table count, x, se.version⟩ := by
          rw [hop, ← hval, ← show se.expireAt = x from hec.expireAt]
        exact .inr ⟨table, count, m, x, se.version, hse, hshow,
          .inr ⟨rfl, hfound, by rw [hop]⟩⟩
      · exact .inl ⟨se, c, rfl, rfl, hfound, hop, hec.type, ht⟩

/-- A hash of which a copy is written back holds what it did, even if an error has left a part
    of the fields to be set. -/
theorem writeback_hash_sound (ok : StoreSite → Bool) {se : SharedEntry} (h : se.Shows hashBytes c)
    (ht : c.value.type = .hash) (d : Dsa) :
    ∃ d' se' r, writeback hashBytes ok se.materialize d (some se) = (d', some se', r) ∧
      se'.Shows hashBytes c := by
  obtain ⟨hfields, htomb⟩ := dirty_of_copy h (.refl _) ht
  obtain ⟨table, count, m, hs, hc, hholds, hvalid⟩ := h.hash ht
  have hsame : ¬se.value.type ≠ se.materialize.type := fun hne => hne rfl
  obtain ⟨pre, suf, s', count', r, hpre, heq, hs', -⟩ := SharedValue.setAll_prefix
    (fun i site => ok (.set i site)) se.materialize.dirtyFields count (hholds d)
  have hkeep : SharedHash.Holds hashBytes s' m := by
    rwa [setFields_eq_self fun f hf => hfields m hc f (hpre ▸ List.mem_append_left _ hf)] at hs'
  rw [writeback, if_neg hsame, hs]
  simp only [SharedValue.surgicalApplyHash, heq, htomb]
  cases r with
  | ok u =>
    refine ⟨_, ⟨.hash s'.table count', se.expireAt, se.version⟩, _, rfl, ?_, h.expireAt⟩
    change SharedValue.Shows hashBytes (.hash s'.table count') c.value
    rw [hc]
    exact ⟨fun _ => hkeep, hvalid⟩
  | error err =>
    -- The pointer may be that of before a growth.
    refine ⟨_, ⟨.hash (SharedValue.keepPointer table s'.table) count, se.expireAt, se.version⟩, _,
      rfl, ?_, h.expireAt⟩
    change SharedValue.Shows hashBytes (.hash _ count) c.value
    rw [hc]
    refine ⟨fun d => ?_, hvalid⟩
    rcases SharedValue.keepPointer_eq table s'.table with hptr | hptr <;> rw [hptr]
    · exact hholds d
    · exact hkeep

end SharedEntry

end

namespace SharedStore

variable {hashBytes : Bytes → UInt32} {ok : StoreSite → Bool} {S : SharedStore} {K : Cells}
  {key : Key} {now : ℤ}

/-! ## Commands -/

theorem markDirty_fst (e : Entry) (r : Reply) :
    (S.markDirty hashBytes ok key e r).1 = (S.writeback hashBytes ok key e).1 := by
  rw [markDirty]
  split <;> rename_i hw <;> rw [hw]

theorem markDirty_sound (h : S.Shows hashBytes K) {e : Entry} {c : Cell} (hec : e.Shows c)
    (ht : c.value.type ≠ .hash) (key : Key) (r : Reply) :
    ∃ K', (S.markDirty hashBytes ok key e r).1.Shows hashBytes K' := by
  obtain ⟨d', se, x, c', heq, hse, -⟩ := SharedEntry.writeback_sound hashBytes ok hec ht
    S.dsa (S.entries.lookup key)
  have hback : (S.writeback hashBytes ok key e).1.Shows hashBytes
      (Function.update K key (some c')) := h.locked (by rw [heq]; exact .some hse)
  exact ⟨_, markDirty_fst e r ▸ hback⟩

/-- Unless it raises an error, a copy of no hash is written back and published as if there were
    enough memory. -/
theorem markDirty_any (hashBytes : Bytes → UInt32) (ok : StoreSite → Bool) (S : SharedStore)
    {e : Entry} (ht : e.type ≠ .hash) (key : Key) (r : Reply) :
    S.markDirty hashBytes ok key e r = S.markDirty hashBytes enough key e r ∨
      ∃ S' err, S.markDirty hashBytes ok key e r = (S', [], .error err) := by
  rw [markDirty, markDirty, writeback, writeback, locked, locked]
  rcases SharedEntry.writeback_any hashBytes ok ht S.dsa (S.entries.lookup key) with heq |
    ⟨d', err, heq⟩
  · exact .inl (by rw [heq])
  · exact .inr ⟨_, _, by rw [heq]⟩

theorem update_sound (h : S.Shows hashBytes K) (now : ℤ) (key : Key)
    {f : Bool → Entry → Except EntryError (Entry × Reply)}
    {g : Bool → Cell → Except EntryError (Cell × Reply)} (hfg : UpdateSim f g)
    (hno : ∀ isNew c c' r, g isNew c = .ok (c', r) → c'.value.type ≠ .hash) :
    ∃ K', (S.update hashBytes ok now key f).1.Shows hashBytes K' := by
  obtain ⟨hec, -⟩ := SharedEntry.upserted_shows (h key) now
  have hup : S.upsert now key = ((S.upsert now key).1,
      (SharedEntry.upserted now (S.entries.lookup key)).1.materialize,
      (SharedEntry.upserted now (S.entries.lookup key)).2) := Prod.ext rfl upsert_snd
  rw [SharedStore.update, hup]
  simp only
  rcases hfg (SharedEntry.upserted now (S.entries.lookup key)).2 _ _
    (SharedEntry.materialize_shows hec) with ⟨err, hf, -⟩ | ⟨e', c', r, hf, hg, hec'⟩
  · rw [hf]
    exact ⟨_, h.upsert now key⟩
  · rw [hf]
    exact markDirty_sound (h.upsert now key) hec' (hno _ _ _ _ hg) key r

/-- So is an upserted key edited. -/
theorem update_any (h : S.Shows hashBytes K) (ok : StoreSite → Bool) (now : ℤ) (key : Key)
    {f : Bool → Entry → Except EntryError (Entry × Reply)}
    {g : Bool → Cell → Except EntryError (Cell × Reply)} (hfg : UpdateSim f g)
    (hno : ∀ isNew c c' r, g isNew c = .ok (c', r) → c'.value.type ≠ .hash) :
    S.update hashBytes ok now key f = S.update hashBytes enough now key f ∨
      ∃ S' err, S.update hashBytes ok now key f = (S', [], .error err) := by
  obtain ⟨hec, -⟩ := SharedEntry.upserted_shows (h key) now
  have hup : S.upsert now key = ((S.upsert now key).1,
      (SharedEntry.upserted now (S.entries.lookup key)).1.materialize,
      (SharedEntry.upserted now (S.entries.lookup key)).2) := Prod.ext rfl upsert_snd
  rw [SharedStore.update, SharedStore.update, hup]
  simp only
  rcases hfg (SharedEntry.upserted now (S.entries.lookup key)).2 _ _
    (SharedEntry.materialize_shows hec) with ⟨err, hf, -⟩ | ⟨e', c', r, hf, hg, hec'⟩
  · rw [hf]
    exact .inl rfl
  · rw [hf]
    exact markDirty_any hashBytes ok _ (hec'.type ▸ hno _ _ _ _ hg) key r

theorem query_sound (h : S.Shows hashBytes K) (now : ℤ) (key : Key) (missing : Reply)
    {f : Entry → Except EntryError (Option Entry × Reply)}
    {g : Cell → Except EntryError (Option Cell × Reply)} (hfg : QuerySim (fun _ => True) f g)
    (hno : ∀ c c' r, g c = .ok (some c', r) → c'.value.type ≠ .hash) :
    ∃ K', (S.query hashBytes ok now key missing f).1.Shows hashBytes K' := by
  rw [query]
  rcases h.lookup now key with ⟨hnone, -, hs'⟩ | ⟨e, c, hl, -, -, -, hec⟩
  · have hpair : S.lookup now key = ((S.lookup now key).1, none) := Prod.ext rfl hnone
    rw [hpair]
    exact ⟨_, hs'⟩
  · rw [hl]
    simp only
    rcases hfg e c trivial hec with ⟨err, hf, -⟩ | ⟨r, hf, -⟩ | ⟨e', c', r, hf, hg, hec'⟩
    · rw [hf]
      exact ⟨K, h⟩
    · rw [hf]
      exact ⟨K, h⟩
    · rw [hf]
      exact markDirty_sound h hec' (hno c c' r hg) key r

/-- And so is a key that is found. -/
theorem query_any (h : S.Shows hashBytes K) (ok : StoreSite → Bool) (now : ℤ) (key : Key)
    (missing : Reply)
    {f : Entry → Except EntryError (Option Entry × Reply)}
    {g : Cell → Except EntryError (Option Cell × Reply)} (hfg : QuerySim (fun _ => True) f g)
    (hno : ∀ c c' r, g c = .ok (some c', r) → c'.value.type ≠ .hash) :
    S.query hashBytes ok now key missing f = S.query hashBytes enough now key missing f ∨
      ∃ S' err, S.query hashBytes ok now key missing f = (S', [], .error err) := by
  rw [query, query]
  rcases h.lookup now key with ⟨hnone, -, -⟩ | ⟨e, c, hl, -, -, -, hec⟩
  · have hpair : S.lookup now key = ((S.lookup now key).1, none) := Prod.ext rfl hnone
    rw [hpair]
    exact .inl rfl
  · rw [hl]
    simp only
    rcases hfg e c trivial hec with ⟨err, hf, -⟩ | ⟨r, hf, -⟩ | ⟨e', c', r, hf, hg, hec'⟩
    · rw [hf]
      exact .inl rfl
    · rw [hf]
      exact .inl rfl
    · rw [hf]
      exact markDirty_any hashBytes ok S (hec'.type ▸ hno c c' r hg) key r

/-- A copy of a hash as it was found, written back. -/
theorem writeback_hash_shows (h : S.Shows hashBytes K) {se : SharedEntry} {c : Cell}
    (hse : S.entries.lookup key = some se) (hK : K key = some c) (ht : c.value.type = .hash) :
    (S.writeback hashBytes ok key se.materialize).1.Shows hashBytes K := by
  have hkey := h key
  rw [hse, hK, Option.rel_some_some] at hkey
  obtain ⟨d', se', r, heq, hse'⟩ := SharedEntry.writeback_hash_sound ok hkey ht S.dsa
  have hback : (S.writeback hashBytes ok key se.materialize).1.Shows hashBytes
      (Function.update K key (some c)) := h.locked (by rw [hse, heq]; exact .some hse')
  rwa [← hK, Function.update_eq_self] at hback

/-- `EXPIRE`. Only here a hash is written back. -/
theorem expire_sound (h : S.Shows hashBytes K) (now : ℤ) (key : Key) (seconds : ℤ) :
    ∃ K', (S.expire hashBytes ok now key seconds).1.Shows hashBytes K' := by
  rw [expire]
  rcases h.lookup now key with ⟨hnone, -, hs'⟩ | ⟨e, c, hl, he, hK, -, hec⟩
  · have hpair : S.lookup now key = ((S.lookup now key).1, none) := Prod.ext rfl hnone
    rw [hpair]
    exact ⟨_, hs'⟩
  · rw [hl]
    simp only
    split_ifs
    · exact ⟨_, (h.remove key).2⟩
    rw [he]
    by_cases ht : c.value.type = .hash
    swap
    · exact markDirty_sound h hec ht key _
    obtain ⟨se, hse, rfl⟩ := Option.map_eq_some_iff.1 he
    exact ⟨K, markDirty_fst se.materialize (.bool true) ▸ writeback_hash_shows h hse hK ht⟩

/-- An `EXPIRE` that publishes something has changed nothing. -/
theorem expire_published (h : S.Shows hashBytes K) {seconds : ℤ}
    (hev : (S.expire hashBytes ok now key seconds).2.1 ≠ []) :
    (S.expire hashBytes ok now key seconds).1.Shows hashBytes K := by
  rw [expire] at hev ⊢
  rcases h.lookup now key with ⟨hnone, -, -⟩ | ⟨e, c, hl, he, hK, -, hec⟩
  · have hpair : S.lookup now key = ((S.lookup now key).1, none) := Prod.ext rfl hnone
    rw [hpair] at hev
    exact absurd rfl hev
  · rw [hl] at hev ⊢
    simp only at hev ⊢
    split_ifs at hev ⊢ with hneg
    · exact absurd rfl hev
    rw [he] at hev ⊢
    obtain ⟨se, hse, rfl⟩ := Option.map_eq_some_iff.1 he
    by_cases ht : c.value.type = .hash
    · exact markDirty_fst se.materialize (.bool true) ▸ writeback_hash_shows h hse hK ht
    rcases markDirty_any hashBytes ok S (hec.type ▸ ht) key (.bool true) with heq | ⟨S', err, heq⟩
    · obtain ⟨S', heq', hS'⟩ := markDirty_shows enough_eq h hec ht key (.bool true)
      have hkey := h key
      rw [hse, hK, Option.rel_some_some] at hkey
      rw [hkey.stored, ← hK, Function.update_eq_self] at hS'
      simp only [heq, heq']
      exact hS'
    · simp only [heq] at hev
      exact absurd rfl hev

/-- The hash that `HSET` has opened, after the call. -/
theorem hset_sound (h : S.Shows hashBytes K) {field : Field} (hfield : SharedHash.ValidField field)
    (now : ℤ) (key : Key) (value : Bytes) :
    ∃ K', (S.hset hashBytes ok now key field value).1.Shows hashBytes K' := by
  rcases SharedEntry.opened_cases (h key) now with ⟨se, c, ho, hK, -, hop, htype, ht⟩ |
    ⟨table, count, m, x, version, hop, hshow, -⟩
  · refine ⟨_, h.locked (o := K key) ?_⟩
    rw [SharedEntry.setAtomic_of_wrongType hop (htype ▸ ht)]
    exact h key
  · rcases SharedEntry.setAtomic_of_opened hop hshow.1 (fun site => ok (.set 0 site)) key field
      value S.dsa with ⟨hlen, d', table', heq, hm⟩ | ⟨d', table', err, heq, -, hm⟩
    · refine ⟨_, h.locked (o := some ⟨.hash (m.insert field value), x⟩) ?_⟩
      rw [heq]
      exact .some ⟨hshow.insert hfield hlen hm, rfl⟩
    · refine ⟨_, h.locked (o := some ⟨.hash m, x⟩) ?_⟩
      rw [heq]
      exact .some ⟨⟨hm, hshow.2⟩, rfl⟩

theorem lookup_sound (h : S.Shows hashBytes K) (now : ℤ) (key : Key) :
    ∃ K', (S.lookup now key).1.Shows hashBytes K' := by
  rcases h.lookup now key with ⟨-, -, hs'⟩ | ⟨e, c, hl, -⟩
  · exact ⟨_, hs'⟩
  · rw [hl]
    exact ⟨K, h⟩

/-- Reading a field from the copy of the hash publishes nothing. -/
theorem query_readHash (now : ℤ) (key : Key) (missing : Reply) (slow : Hash → Reply) :
    (S.query hashBytes ok now key missing (Entry.readHash missing slow)).1 = (S.lookup now key).1 ∧
      (S.query hashBytes ok now key missing (Entry.readHash missing slow)).2.1 = [] := by
  rw [query]
  obtain ⟨S', _ | e, hx⟩ : ∃ S' o, S.lookup now key = (S', o) := ⟨_, _, rfl⟩
  · rw [hx]
    exact ⟨rfl, rfl⟩
  · rw [hx]
    simp only [Entry.readHash]
    split_ifs
    · exact ⟨rfl, rfl⟩
    · cases e.value <;> exact ⟨rfl, rfl⟩

/-- `HGET` and `HEXISTS` change nothing but that they may evict their key. -/
theorem queryField_sound (h : S.Shows hashBytes K) (now now' : ℤ) (key : Key) {α : Type}
    (read : SharedHash → Except SharedHashError (Option α)) (reply : Option α → Reply)
    (slow : Hash → Reply) :
    ∃ K', (S.queryField hashBytes ok now now' key read reply slow).1.Shows hashBytes K' := by
  rw [queryField]
  split
  · exact ⟨K, h⟩
  · exact ⟨K, h⟩
  · exact ⟨K, h⟩
  · exact ⟨K, h⟩
  · rw [(query_readHash now' key (reply none) slow).1]
    exact lookup_sound h now' key

/-- Every command leaves a keyspace with cells, whatever allocations fail. A field is SQL
    text. -/
theorem exec_sound (h : S.Shows hashBytes K) (ok : StoreSite → Bool) (lim : Limits) (now now' : ℤ)
    {c : Command} (htext : ∀ field, c.field? = some field → 0 ∉ field) :
    ∃ K', (S.exec hashBytes ok lim now now' c).1.Shows hashBytes K' := by
  rw [exec]
  cases hcheck : c.check lim with
  | error err => exact ⟨K, h⟩
  | ok u =>
    -- By the section the command begins with; the copy it writes back is of the type that was
    -- there.
    cases c with
    | set key value =>
      exact update_sound h now key (Entry.updateSim_set value) fun _ _ _ _ h => Cell.type_of_set h
    | incr key =>
      exact update_sound h now key (Entry.updateSim_incrdecr 1) fun _ _ _ _ h =>
        Cell.type_of_incrdecr h
    | decr key =>
      exact update_sound h now key (Entry.updateSim_incrdecr (-1)) fun _ _ _ _ h =>
        Cell.type_of_incrdecr h
    | push side key value =>
      exact update_sound h now key (Entry.updateSim_listPush side value) fun _ _ _ _ h =>
        Cell.type_of_listPush h
    | get key =>
      exact query_sound h now key _ Entry.querySim_get fun _ _ _ h =>
        absurd h (Cell.get_ne_some _ _ _)
    | exists? key =>
      exact query_sound h now key _ Entry.querySim_exists fun _ _ _ h =>
        absurd (congrArg Prod.fst (Except.ok.inj h)) (by simp)
    | pop side key =>
      exact query_sound h now key _ (Entry.querySim_listPop side) fun _ _ _ h =>
        Cell.type_of_withList h
    | llen key =>
      exact query_sound h now key _ Entry.querySim_llen fun _ _ _ h => Cell.type_of_withList h
    | del key => exact ⟨_, (h.remove key).2⟩
    | expire key seconds => exact expire_sound h now key seconds
    | ttl key =>
      obtain ⟨S', hS', heq⟩ := ttl_shows h now now' key
      exact ⟨_, by simp only [perform, heq]; exact hS'⟩
    | hset key field value =>
      obtain ⟨hpos, hmax⟩ := Command.field_length_le hcheck rfl
      exact hset_sound h ⟨hpos, hmax, htext field rfl⟩ now key value
    | hdel key field =>
      obtain ⟨S', hS', heq⟩ := hdel_shows h ok now key field
      exact ⟨_, by simp only [perform, heq]; exact hS'⟩
    | hget key field => exact queryField_sound h now now' key _ _ _
    | hexists key field => exact queryField_sound h now now' key _ _ _

/-- Commands one after the other, each with what memory there is for it. -/
def runs (hashBytes : Bytes → UInt32) (S : SharedStore) (cs : List (Call × (StoreSite → Bool))) :
    SharedStore :=
  cs.foldl (fun S c => (S.exec hashBytes c.2 c.1.lim c.1.now c.1.now' c.1.cmd).1) S

/-- Every keyspace the commands reach from one with cells has cells. -/
theorem runs_sound {cs : List (Call × (StoreSite → Bool))} (h : S.Shows hashBytes K)
    (htext : ∀ c ∈ cs, ∀ field, c.1.cmd.field? = some field → 0 ∉ field) :
    ∃ K', (S.runs hashBytes cs).Shows hashBytes K' := by
  induction cs generalizing S K with
  | nil => exact ⟨K, h⟩
  | cons c cs ih =>
    obtain ⟨K', h'⟩ := exec_sound h c.2 c.1.lim c.1.now c.1.now'
      (htext c List.mem_cons_self)
    exact ih h' fun c hc => htext c (List.mem_cons_of_mem _ hc)

/-! ## An `HSET` that fails -/

variable {field : Field} {value : Bytes}

theorem shows_init (d : Dsa) : (⟨d, ∅⟩ : SharedStore).Shows hashBytes fun _ => none :=
  fun _ => .none

/-- A field set under a missing key. -/
theorem hset_first_shows (h : S.Shows hashBytes K) (hK : K key = none)
    (hfield : SharedHash.ValidField field) (hlen : value.length ≤ uint16Max) (now : ℤ) :
    (S.hset hashBytes enough now key field value).1.Shows hashBytes
      (Function.update K key (some ⟨.hash (Finmap.insert field value ∅), none⟩)) := by
  obtain ⟨S', hS', hcase⟩ := hset_shows enough_eq h hfield hlen now key
  have heq : (S.hset hashBytes enough now key field value).1 = S' := by
    rcases hcase with ⟨err, -, heq⟩ | ⟨c', r, version, -, heq⟩ <;> rw [heq]
  rw [heq]
  rwa [hK] at hS'

/-! ## Fast and slow reads -/

/-- The reply of the slow path of `HGET` and `HEXISTS`: the key is looked up and a copy of its
    hash is read. There is none if it has no hash to read. -/
def slowRead (now : ℤ) (key : Key) (missing : Reply) (read : Hash → Reply) (S : SharedStore) :
    Option (Except SharedCommandError Reply) :=
  match (S.lookup now key).2 with
  | none => some (.ok missing)
  | some e =>
    if e.type ≠ .hash then some (SharedEntry.notHash key e.type)
    else match e.value with
      | .hash h => some (.ok (read h))
      | _ => none

/-- What the slow path meets: nothing, another value than a hash, an empty hash, of which there
    is no copy, or a hash and its copy. -/
theorem slowRead_cases (h : S.Shows hashBytes K) (now : ℤ) (key : Key) (missing : Reply)
    (read : Hash → Reply) :
    (Cell.found now (K key) = none ∧ S.slowRead now key missing read = some (.ok missing)) ∨
    ∃ c, Cell.found now (K key) = some c ∧
      ((c.value.type ≠ .hash ∧
        S.slowRead now key missing read = some (SharedEntry.notHash key c.value.type)) ∨
      (c.value = .hash ∅ ∧ S.slowRead now key missing read = none) ∨
      ∃ m h', c.value = .hash m ∧ m ≠ ∅ ∧ S.slowRead now key missing read = some (.ok (read h')) ∧
        (∀ f, (h'.fields.lookup f).map HashField.value = m.lookup f) ∧
        ∀ f v, m.lookup f = some v → SharedHash.ValidField f) := by
  rw [slowRead]
  rcases h.lookup now key with ⟨hnone, hfound, -⟩ | ⟨e, c, hl, he, hK, hfound, hec⟩
  · rw [hnone]
    exact .inl ⟨hfound, rfl⟩
  refine .inr ⟨c, hfound, ?_⟩
  obtain ⟨se, hse, rfl⟩ := Option.map_eq_some_iff.1 he
  have hkey := h key
  rw [hse, hK, Option.rel_some_some] at hkey
  simp only [hl, hec.type]
  by_cases ht : c.value.type = .hash
  swap
  · exact .inl ⟨ht, if_pos ht⟩
  rw [if_neg (not_not.2 ht)]
  right
  obtain ⟨table, count, m, hs, hc, hholds, hvalid⟩ := hkey.hash ht
  have hfields : ∀ f v, m.lookup f = some v → SharedHash.ValidField f := fun f v hv =>
    (hvalid f v hv).1
  obtain ⟨hnull, hlook⟩ := SharedHash.materialize_spec (hholds ⟨0, []⟩) fun field hf => by
    obtain ⟨v, hv⟩ := Finmap.mem_iff.1 hf
    exact hfields field v hv
  rw [SharedHash.materialize] at hnull hlook
  have hval : se.materialize.value = se.value.payload := rfl
  rw [hval, hs, SharedValue.payload]
  -- The copy is a null pointer exactly if the hash is empty.
  cases hm : SharedHash.materializeTable table with
  | none =>
    obtain rfl := hnull.1 hm
    exact .inl ⟨hc, rfl⟩
  | some h' =>
    rw [hm] at hlook
    refine .inr ⟨m, h', hc, fun hempty => ?_, rfl, hlook, hfields⟩
    rw [hnull.2 hempty] at hm
    cases hm

/-- What the slow path replies is what the command replies after it. -/
theorem query_of_slowRead {missing : Reply} {read : Hash → Reply}
    {r : Except SharedCommandError Reply} (hr : S.slowRead now key missing read = some r) :
    (S.query hashBytes ok now key missing (Entry.readHash missing read)).2.2 = r := by
  rw [slowRead] at hr
  rw [query]
  obtain ⟨S', _ | e, hx⟩ : ∃ S' o, S.lookup now key = (S', o) := ⟨_, _, rfl⟩
  · rw [hx] at hr ⊢
    exact Option.some.inj hr
  · rw [hx] at hr ⊢
    simp only [Entry.readHash] at hr ⊢
    split_ifs at hr ⊢
    · exact Option.some.inj hr
    · cases hv : e.value with
      | hash h' =>
        rw [hv] at hr
        exact Option.some.inj hr
      | _ =>
        rw [hv] at hr
        exact absurd hr (by simp)

/-- What the fast path replies, if the slow path replies at all. -/
theorem queryField_of_slowRead {α : Type} {read : SharedHash → Except SharedHashError (Option α)}
    {reply : Option α → Reply} {slow : Hash → Reply}
    (look : (Finmap fun _ : Field => Bytes) → Option α)
    (hread : ∀ s m, SharedHash.Holds hashBytes s m → read s = .ok (look m))
    (hslow : ∀ (h : Hash) m, (∀ f, (h.fields.lookup f).map HashField.value = m.lookup f) →
      (∀ f v, m.lookup f = some v → SharedHash.ValidField f) → slow h = reply (look m))
    (h : S.Shows hashBytes K) (now now' : ℤ) {r : Except SharedCommandError Reply}
    (hr : S.slowRead (Cell.lookupTime .shared now now' (K key)) key (reply none) slow = some r) :
    (S.queryField hashBytes ok now now' key read reply slow).2.2 = r := by
  have hkey := h key
  rw [queryField]
  cases hl : S.entries.lookup key <;> cases hK : K key <;> rw [hl, hK] at hkey
  · rw [slowRead, lookup, lookupRaw, hl] at hr
    exact Option.some.inj hr
  · exact absurd hkey (by simp)
  · exact absurd hkey (by simp)
  rename_i se c
  rw [Option.rel_some_some] at hkey
  rw [hK] at hr
  rw [SharedEntry.lookupField, hkey.isExpired]
  by_cases hexp : c.isExpired now
  · -- The fast path gives up and the slow one is taken, with its own reading of the clock.
    rw [if_pos hexp]
    rw [Cell.lookupTime, if_pos hexp] at hr
    exact query_of_slowRead hr
  rw [if_neg hexp]
  rw [Cell.lookupTime, if_neg hexp] at hr
  have hfound : Cell.found now (K key) = some c := by
    rw [hK]
    exact if_neg hexp
  rcases slowRead_cases h now key (reply none) slow with ⟨hnone, -⟩ | ⟨c', hc', hcase⟩
  · exact absurd (hfound.symm.trans hnone) (by simp)
  obtain rfl := Option.some.inj (hfound.symm.trans hc')
  rcases hcase with ⟨hne, heq⟩ | ⟨-, heq⟩ | ⟨m, h', hm, -, heq, hfields, hvalid⟩
  · obtain rfl := Option.some.inj (heq.symm.trans hr)
    rw [← hkey.type] at hne ⊢
    cases hs : se.value with
    | hash table count =>
      rw [hs] at hne
      exact absurd rfl hne
    | str | int | list => rfl
  · exact absurd (heq.symm.trans hr) (by simp)
  · obtain rfl := Option.some.inj (heq.symm.trans hr)
    obtain ⟨table, count, m', hs, hm', hholds, -⟩ := hkey.hash (by rw [hm]; rfl)
    obtain rfl := View.hash.inj (hm.symm.trans hm')
    simp only [hs, hread _ _ (hholds S.dsa), Except.map]
    rw [hslow h' m hfields hvalid]

/-- A reading of the table of a hash, and one of its copy, that both read `look` of the map. -/
theorem queryField_agrees_iff (ok : StoreSite → Bool) {α : Type}
    (read : SharedHash → Except SharedHashError (Option α)) (reply : Option α → Reply)
    (slow : Hash → Reply) (look : (Finmap fun _ : Field => Bytes) → Option α)
    (hread : ∀ s m, SharedHash.Holds hashBytes s m → read s = .ok (look m))
    (hslow : ∀ (h : Hash) m, (∀ f, (h.fields.lookup f).map HashField.value = m.lookup f) →
      (∀ f v, m.lookup f = some v → SharedHash.ValidField f) → slow h = reply (look m))
    (h : S.Shows hashBytes K) (now now' : ℤ) (key : Key) :
    S.slowRead (Cell.lookupTime .shared now now' (K key)) key (reply none) slow =
        some (S.queryField hashBytes ok now now' key read reply slow).2.2 ↔
      ∀ x, Cell.found (Cell.lookupTime .shared now now' (K key)) (K key) ≠ some ⟨.hash ∅, x⟩ := by
  -- An empty hash has no copy: only there the slow reading knows no reply. The other direction
  -- is by the same cases, from the reading that has one.
  constructor
  · intro heq x hfound
    rcases slowRead_cases h (Cell.lookupTime .shared now now' (K key)) key (reply none) slow with
      ⟨hnone, -⟩ | ⟨c, hc, ⟨hne, -⟩ | ⟨-, hnone⟩ | ⟨m, h', hm, hne, -⟩⟩
    · exact absurd (hfound.symm.trans hnone) (by simp)
    · obtain rfl := Option.some.inj (hfound.symm.trans hc)
      exact hne rfl
    · exact absurd (hnone.symm.trans heq) (by simp)
    · obtain rfl := Option.some.inj (hfound.symm.trans hc)
      exact hne (View.hash.inj hm).symm
  · intro hfound
    cases hr : S.slowRead (Cell.lookupTime .shared now now' (K key)) key (reply none) slow with
    | some r => rw [queryField_of_slowRead look hread hslow h now now' hr]
    | none =>
      rcases slowRead_cases h (Cell.lookupTime .shared now now' (K key)) key (reply none) slow with
        ⟨-, hsome⟩ | ⟨⟨v, x⟩, hc, ⟨-, hsome⟩ | ⟨hv, -⟩ | ⟨m, h', -, -, hsome, -⟩⟩
      · exact absurd (hr.symm.trans hsome) (by simp)
      · exact absurd (hr.symm.trans hsome) (by simp)
      · obtain rfl : v = .hash ∅ := hv
        exact absurd hc (hfound x)
      · exact absurd (hr.symm.trans hsome) (by simp)

/-- The fields of the copy of a map with valid fields. -/
theorem get_of_copy {h : Hash} {m : Finmap fun _ : Field => Bytes}
    (hfields : ∀ f, (h.fields.lookup f).map HashField.value = m.lookup f)
    (hvalid : ∀ f v, m.lookup f = some v → SharedHash.ValidField f) (field : Field) :
    h.get field = m.lookup field := by
  rw [Hash.get]
  split_ifs with hlen
  · cases hv : m.lookup field with
    | none => rfl
    | some v => exact absurd (hvalid field v hv).2.1 (Nat.not_le.2 hlen)
  · exact hfields field

/-- For every keyspace with cells, every key and field, and any readings of the clock: `HGET`
    and `HEXISTS` reply what their slow path does, at the reading at which they look the key up,
    and the slow path has a hash to read, exactly if the key does not hold an empty hash then. -/
theorem reads_agree_iff (h : S.Shows hashBytes K) (ok : StoreSite → Bool) (now now' : ℤ)
    (key : Key) (field : Field) :
    let t := Cell.lookupTime .shared now now' (K key)
    (S.slowRead t key (.text none) (fun h => .text (h.get field)) =
        some (S.hget hashBytes ok now now' key field).2.2 ∧
      S.slowRead t key (.bool false) (fun h => .bool (h.exists? field)) =
        some (S.hexists hashBytes ok now now' key field).2.2) ↔
    ∀ x, Cell.found t (K key) ≠ some ⟨.hash ∅, x⟩ := by
  intro t
  have hget := queryField_agrees_iff ok (SharedHash.get hashBytes field) .text
    (fun h => .text (h.get field)) (fun m => m.lookup field)
    (fun _ _ hs => SharedHash.get_spec hs field)
    (fun _ _ hm hvalid => congrArg Reply.text (get_of_copy hm hvalid field)) h now now' key
  have hexists := queryField_agrees_iff ok
    (fun s => (SharedHash.exists? hashBytes field s).map fun b => if b then some () else none)
    (fun a => .bool a.isSome) (fun h => .bool (h.exists? field))
    (fun m => if field ∈ m then some () else none)
    (fun s m hs => by rw [SharedHash.exists_spec hs]; simp [Except.map])
    (fun h m hm hvalid => by
      rw [Hash.exists?, get_of_copy hm hvalid]
      by_cases hf : field ∈ m
      · simp [hf, Finmap.lookup_isSome]
      · simp [hf, Finmap.lookup_eq_none.2 hf]) h now now' key
  exact ⟨fun hboth => hget.1 hboth.1, fun hne => ⟨hget.2 hne, hexists.2 hne⟩⟩

/-- A field is set, and read at once. -/
theorem reads_agree_of_field :
    let S := ((⟨⟨0, []⟩, ∅⟩ : SharedStore).hset (fun _ => 7) enough 0 [107] [102] [118]).1
    S.slowRead 0 [107] (.text none) (fun h => .text (h.get [102])) =
        some (S.hget (fun _ => 7) enough 0 0 [107] [102]).2.2 ∧
      S.slowRead 0 [107] (.bool false) (fun h => .bool (h.exists? [102])) =
        some (S.hexists (fun _ => 7) enough 0 0 [107] [102]).2.2 := by
  intro S
  have hS : S.Shows (fun _ => 7) _ := hset_first_shows (shows_init ⟨0, []⟩) rfl
    ⟨by decide, by decide, by decide⟩ (by decide) 0
  refine (reads_agree_iff hS enough 0 0 [107] [102]).2 fun x hempty => ?_
  rw [Function.update_self] at hempty
  have hmap := View.hash.inj (congrArg Cell.value (Option.some.inj hempty))
  have hlook : (Finmap.insert [102] [118] ∅ : Finmap fun _ : Field => Bytes).lookup [102] =
    some [118] := Finmap.lookup_insert _
  rw [hmap] at hlook
  exact absurd hlook (by simp)

/-- A field is set and deleted. -/
def emptied : List (Call × (StoreSite → Bool)) :=
  [(⟨⟨1024, 0⟩, 0, 0, .hset [107] [102] [118]⟩, enough),
    (⟨⟨1024, 0⟩, 0, 0, .hdel [107] [102]⟩, enough)]

/-- After the field of a hash is deleted, the slow path reads through a null pointer. -/
theorem slowRead_of_emptied : ¬∀ (hashBytes : Bytes → UInt32) (S : SharedStore) (K : Cells)
    (ok : StoreSite → Bool) (now now' : ℤ) (key : Key) (field : Field), S.Shows hashBytes K →
    S.slowRead (Cell.lookupTime .shared now now' (K key)) key (.text none)
        (fun h => .text (h.get field)) = some (S.hget hashBytes ok now now' key field).2.2 ∧
      S.slowRead (Cell.lookupTime .shared now now' (K key)) key (.bool false)
        (fun h => .bool (h.exists? field)) =
          some (S.hexists hashBytes ok now now' key field).2.2 := by
  intro hall
  obtain ⟨K, hS⟩ : ∃ K, ((⟨⟨0, []⟩, ∅⟩ : SharedStore).runs (fun _ => 7) emptied).Shows _ K :=
    runs_sound (shows_init _) (by decide)
  have hread := (hall _ _ K enough 0 0 [107] [102] hS).1
  have htime : Cell.lookupTime .shared 0 0 (K [107]) = 0 := by
    cases K [107] with
    | none => rfl
    | some c => exact ite_self 0
  have hnull : (((⟨⟨0, []⟩, ∅⟩ : SharedStore).runs (fun _ => 7) emptied).slowRead 0 [107]
      (.text none) fun h => .text (h.get [102])).isNone = true := by
    decide +kernel
  rw [htime] at hread
  rw [hread] at hnull
  exact absurd hnull (by simp)

end SharedStore

end PgRedis
