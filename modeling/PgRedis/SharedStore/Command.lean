import PgRedis.Durable.Batch
import PgRedis.SharedStore

/-!
# Commands on the shared keyspace

How a command runs in shared mode with the persistence mode `async_table`: it upserts
or looks up the entry of its key, changes the copy, writes it back and publishes an
event for the parent row and one for every delta of the copy, in this order. The
bodies of the commands on the copy are those of session mode.

The commands on lists are `ListCommand`. `push_spec` and `pop_spec` say what they do to
a list in shared memory and which events they publish.
-/

namespace PgRedis

open Lib

/-! ## Events -/

namespace Entry

/-- The event of `publish_async_key_upsert`. The length of the value has 16 bits. -/
def upsertEvent (key : Key) (e : Entry) : DirtyEvent :=
  .keyUpsert key e.type (clip (e.encodeValue.getD [])) e.expireAt
    (Int.bmod e.version.toNat (2 ^ 64))

/-- What `pg_redis_mark_dirty` publishes: the event of the parent row, then those of
    `publish_async_hash_deltas` or `publish_async_list_deltas`. -/
def events (key : Key) (e : Entry) : List DirtyEvent :=
  e.upsertEvent key ::
    (e.dirtyFields.map (fun f => .hashFieldUpsert key f.1 (clip f.2)) ++
      e.tombstones.map (.hashFieldDelete key) ++
      e.pendingInserts.map (fun n => .listItemInsert key n.1 (clip n.2)) ++
      e.pendingDeleteOrds.map (.listItemDelete key))

end Entry

/-! ## Commands -/

/-- The errors of a command in shared mode: its own, or that of the writeback. -/
inductive SharedCommandError
  | command (err : CommandError)
  | writeback (err : SharedError)
  deriving DecidableEq, Repr

/-- `LPUSH`, `RPUSH`, `LPOP` and `RPOP`. -/
inductive ListCommand
  | push (side : Side) (key : Key) (value : Bytes)
  | pop (side : Side) (key : Key)
  deriving DecidableEq, Repr

/-- The command in the list of all commands. -/
def ListCommand.toCommand : ListCommand → Command
  | .push side key value => .push side key value
  | .pop side key => .pop side key

namespace SharedStore

variable (hashBytes : Bytes → UInt32) (ok : StoreSite → Bool)

/-- `pg_redis_mark_dirty` in shared mode: the events, unless the writeback fails. -/
def markDirty (key : Key) (e : Entry) (S : SharedStore) (r : Reply) :
    SharedStore × List DirtyEvent × Except SharedCommandError Reply :=
  match S.writeback hashBytes ok key e with
  | (S, .error err) => (S, [], .error (.writeback err))
  | (S, .ok ()) => (S, e.events key, .ok r)

/-- A command that upserts the entry of `key` and edits the copy with `f`. -/
def update (now : ℤ) (key : Key) (f : Bool → Entry → Except EntryError (Entry × Reply))
    (S : SharedStore) : SharedStore × List DirtyEvent × Except SharedCommandError Reply :=
  match S.upsert now key with
  | (S, e, isNew) => match f isNew e with
    | .error err => (S, [], .error (.command (.entry key err)))
    | .ok (e', r) => S.markDirty hashBytes ok key e' r

/-- A command that looks the entry of `key` up and reads or edits the copy with `f`. -/
def query (now : ℤ) (key : Key) (missing : Reply)
    (f : Entry → Except EntryError (Option Entry × Reply)) (S : SharedStore) :
    SharedStore × List DirtyEvent × Except SharedCommandError Reply :=
  match S.lookup now key with
  | (S, none) => (S, [], .ok missing)
  | (S, some e) => match f e with
    | .error err => (S, [], .error (.command (.entry key err)))
    | .ok (none, r) => (S, [], .ok r)
    | .ok (some e', r) => S.markDirty hashBytes ok key e' r

/-- A command on a list whose arguments have been checked. -/
def performList (now : ℤ) (S : SharedStore) :
    ListCommand → SharedStore × List DirtyEvent × Except SharedCommandError Reply
  | .push side key value => S.update hashBytes ok now key (Entry.listPush side value)
  | .pop side key => S.query hashBytes ok now key (.text none) (Entry.listPop side)

/-- A command on a list: the keyspace, the events published, and the reply. -/
def execList (lim : Limits) (now : ℤ) (c : ListCommand) (S : SharedStore) :
    SharedStore × List DirtyEvent × Except SharedCommandError Reply :=
  match c.toCommand.check lim with
  | .error err => (S, [], .error (.command err))
  | .ok () => S.performList hashBytes ok now c

/-! ## Lists -/

/-- The list under a key, empty if there is none. -/
def list (S : SharedStore) (k : Key) : SharedList :=
  match S.entries.lookup k with
  | some ⟨.list l, _, _⟩ => l
  | _ => .empty

/-- The key is absent or holds a list, numbered and without expiry. -/
def HoldsList (S : SharedStore) (k : Key) : Prop :=
  S.entries.lookup k = none ∨
    ∃ l version, S.entries.lookup k = some ⟨.list l, none, version⟩ ∧ l.Numbered

variable {hashBytes ok} {S : SharedStore} {key : Key} {now : ℤ} {side : Side} {value : Bytes}

theorem list_eq {l : SharedList} {x : Option ℤ} {version : UInt64}
    (h : S.entries.lookup key = some ⟨.list l, x, version⟩) : S.list key = l := by
  rw [list, h]

theorem HoldsList.numbered (h : S.HoldsList key) : (S.list key).Numbered := by
  rcases h with h | ⟨l, version, h, hnum⟩
  · rw [list, h]
    exact SharedList.numbered_empty
  · rw [list_eq h]
    exact hnum

/-- What `list_push` makes of the copy. -/
theorem listPush_upserted (h : S.HoldsList key) (now : ℤ) (side : Side) (value : Bytes) :
    ∃ e r, Entry.listPush side value (SharedEntry.upserted now (S.entries.lookup key)).2
        (SharedEntry.upserted now (S.entries.lookup key)).1.materialize = .ok (e, r) ∧
      e.type = .list ∧ e.value = .list ((S.list key).scratch.push side value) ∧
        e.expireAt = none := by
  rcases h with h | ⟨l, version, h, -⟩
  · rw [list, h]
    exact ⟨_, _, rfl, rfl, rfl, rfl⟩
  · have hup : SharedEntry.upserted now (some ⟨.list l, none, version⟩) =
        (⟨.list l, none, version⟩, false) := rfl
    rw [list_eq h, h, hup]
    refine ⟨_, _, rfl, rfl, ?_, rfl⟩
    simp only [Entry.listOrCreate, SharedEntry.materialize, SharedValue.payload,
      SharedList.scratch]
    cases l.materialize with
    | none => rfl
    | some a => rfl

/-- The events of a copy that holds a list. -/
theorem events_list {e : Entry} {a : ListValue} (ht : e.type = .list) (hv : e.value = .list a)
    (key : Key) : e.events key = e.upsertEvent key ::
      ((a.nodes.filterMap fun n => if n.pendingInsert then some (n.ord, n.value) else none).map
        (fun n => .listItemInsert key n.1 (clip n.2)) ++
      a.pendingDeleteOrds.map (.listItemDelete key)) := by
  simp [Entry.events, Entry.dirtyFields, Entry.tombstones, Entry.pendingInserts,
    Entry.pendingDeleteOrds, ht, hv]

variable (hok : ∀ site, ok site = true)

include hok

/-- The copy of a list written back and published. -/
theorem markDirty_list {e : Entry} {a : ListValue} (ht : e.type = .list) (hv : e.value = .list a)
    (hx : e.expireAt = none) (hashBytes : Bytes → UInt32) (S : SharedStore) (key : Key)
    (r : Reply) :
    ∃ S', S.markDirty hashBytes ok key e r = (S', e.events key, .ok r) ∧ S'.HoldsList key ∧
      (S'.list key).values = a.nodes.map (fun n => clip n.value) ∧
      ∀ k ≠ key, S'.entries.lookup k = S.entries.lookup k := by
  obtain ⟨d, l, heq, hnum, hvals⟩ := SharedEntry.writeback_list hok ht hv hashBytes S.dsa
    (S.entries.lookup key)
  have hsnd : (S.writeback hashBytes ok key e).2 = .ok () := by rw [writeback_snd, heq]
  have hlook : (S.writeback hashBytes ok key e).1.entries.lookup key =
      some ⟨.list l, none, e.version⟩ := by rw [lookup_writeback, if_pos rfl, heq, hx]
  have hpair : S.writeback hashBytes ok key e = ((S.writeback hashBytes ok key e).1, .ok ()) :=
    Prod.ext rfl hsnd
  refine ⟨_, by rw [markDirty, hpair], .inr ⟨l, _, hlook, hnum⟩, ?_, fun k hk => ?_⟩
  · rw [list_eq hlook, hvals]
  · rw [lookup_writeback, if_neg hk]

/-- A push: it publishes the ordinal it has on the copy, while the list in shared memory
    is numbered anew. -/
theorem push_spec (h : S.HoldsList key) (hashBytes : Bytes → UInt32) (now : ℤ) (side : Side)
    (value : Bytes) :
    ∃ (S' : SharedStore) (e : Entry) (r : Reply),
      S.performList hashBytes ok now (.push side key value) = (S', [e.upsertEvent key,
        .listItemInsert key ((S.list key).pushOrd side) (clip value)], .ok r) ∧
      S'.HoldsList key ∧
      (S'.list key).values = ListValue.atEnd (clip value) (S.list key).values side ∧
      ∀ k ≠ key, S'.entries.lookup k = S.entries.lookup k := by
  obtain ⟨e, r, hpush, ht, hv, hx⟩ := listPush_upserted h now side value
  obtain ⟨S', heq, hholds, hvals, hframe⟩ := markDirty_list hok ht hv hx hashBytes
    (S.upsert now key).1 key r
  obtain ⟨hnodes, hdel⟩ := (S.list key).nodes_scratch
  have hup : S.upsert now key = ((S.upsert now key).1, _) := Prod.ext rfl upsert_snd
  refine ⟨S', e, r, ?_, hholds, ?_, fun k hk => ?_⟩
  · rw [performList, update, hup]
    simp only [hpush]
    rw [heq, events_list ht hv, ListValue.nodes_push, hnodes, ListValue.filterMap_atEnd,
      ListValue.pendingDeleteOrds_push, hdel, h.numbered.pushed_scratch]
    · rfl
    · -- The nodes read back are not to be inserted.
      intro n hn
      obtain ⟨m, -, rfl⟩ := List.mem_map.1 hn
      rfl
  · rw [hvals, ListValue.nodes_push, hnodes, ListValue.map_atEnd, List.map_map]
    congr 1
    exact List.map_congr_left fun n _ => n.clip_bytes
  · rw [hframe k hk, lookup_upsert, if_neg hk]

omit hok in
/-- A lookup of a key that holds a list: its copy. -/
theorem lookup_list {l : SharedList} {version : UInt64}
    (h : S.entries.lookup key = some ⟨.list l, none, version⟩) (now : ℤ) :
    S.lookup now key = (S, some (⟨.list l, none, version⟩ : SharedEntry).materialize) := by
  rw [lookup, lookupRaw, h]
  rfl

omit hok in
/-- A pop from an empty list does nothing. -/
theorem pop_of_nil (h : S.HoldsList key) (hnil : (S.list key).nodes = []) (now : ℤ) (side : Side) :
    S.performList hashBytes ok now (.pop side key) = (S, [], .ok (.text none)) := by
  rcases h with h | ⟨l, version, h, -⟩
  · rw [performList, query, lookup, lookupRaw, h]
    rfl
  · rw [list_eq h] at hnil
    have hnull : l.materialize = none := if_pos hnil
    rw [performList, query, lookup_list h]
    simp [Entry.listPop, Entry.withList, SharedEntry.materialize, SharedValue.type,
      SharedValue.payload, hnull, Payload.null]

/-- A pop: it publishes the ordinal that the node has in shared memory. -/
theorem pop_spec (h : S.HoldsList key) (hne : (S.list key).nodes ≠ []) (hashBytes : Bytes → UInt32)
    (now : ℤ) (side : Side) :
    ∃ (S' : SharedStore) (e : Entry) (v : Bytes),
      S.performList hashBytes ok now (.pop side key) = (S', [e.upsertEvent key,
        .listItemDelete key ((S.list key).popOrd side)], .ok (.text (some v))) ∧
      S'.HoldsList key ∧
      (S.list key).values = ListValue.atEnd v (S'.list key).values side ∧
      ∀ k ≠ key, S'.entries.lookup k = S.entries.lookup k := by
  obtain ⟨hnodes, hdel⟩ := (S.list key).nodes_scratch
  have hnum := h.numbered
  -- Without an entry there is nothing to pop; the entry of a list is copied, and the copy
  -- popped.
  rcases h with h | ⟨l, version, h, -⟩
  · rw [list, h] at hne
    exact absurd rfl hne
  · obtain ⟨a, ha⟩ : ∃ a, l.materialize = some a := ⟨_, if_neg (list_eq h ▸ hne)⟩
    have hscratch : (S.list key).scratch = a := by rw [list_eq h, SharedList.scratch, ha]; rfl
    rw [hscratch] at hnodes hdel
    have ha_ne : a.nodes ≠ [] := by rw [hnodes]; exact List.map_eq_nil_iff.not.2 hne
    obtain ⟨v, a', hpop⟩ := ListValue.exists_pop side ha_ne
    obtain ⟨n, rfl, hdel', hnodes'⟩ := ListValue.exists_of_pop hpop
    obtain ⟨hord, hpending⟩ := hnum.ord_of_scratch (hscratch ▸ hnodes')
    -- What is copied out has been in shared memory: it is no longer than its limit, and nothing
    -- of it is pending.
    have hrest : ∀ m ∈ a.nodes, m.pendingInsert = false ∧ clip m.value = m.value := by
      intro m hm
      obtain ⟨m, -, rfl⟩ := List.mem_map.1 (hnodes ▸ hm)
      exact ⟨rfl, m.clip_bytes⟩
    have hrest' : ∀ m ∈ a'.nodes, m.pendingInsert = false ∧ clip m.value = m.value := fun m hm =>
      hrest m (hnodes' ▸ ListValue.mem_atEnd.2 (.inr hm))
    obtain ⟨S', heq, hholds, hvals, hframe⟩ := markDirty_list hok
      (e := ⟨.list, .list a', none, version + 1, false⟩) rfl rfl rfl hashBytes S key
      (.text (some n.value))
    refine ⟨S', ⟨.list, .list a', none, version + 1, false⟩, n.value, ?_, hholds, ?_, hframe⟩
    · have hinserts : (a'.nodes.filterMap fun n =>
          if n.pendingInsert then some (n.ord, n.value) else none) = [] :=
        List.filterMap_eq_nil_iff.2 fun m hm => by rw [(hrest' m hm).1]; rfl
      rw [events_list rfl rfl, hinserts, hdel', ListValue.pendingDeleteOrds_forget, hpending, hdel,
        hord] at heq
      rw [performList, query, lookup_list h]
      simp only [SharedEntry.materialize, SharedValue.type, SharedValue.payload, ha, Entry.listPop,
        Entry.withList, hpop]
      exact heq
    · have hclip : a'.nodes.map (fun n => clip n.value) = a'.nodes.map ListNode.value :=
        List.map_congr_left fun m hm => (hrest' m hm).2
      rw [hvals, hclip, ← ListValue.map_atEnd, ← hnodes', hnodes, List.map_map]
      rfl

/-- What a command does to lists, with enough memory: nothing, a push or a pop. -/
inductive Ran (lim : Limits) (S : SharedStore) :
    ListCommand → SharedStore × List DirtyEvent × Except SharedCommandError Reply → Prop
  | idle (c : ListCommand) (r : Except SharedCommandError Reply)
      (reason : c.toCommand.check lim = .ok () →
        ∃ side key, c = .pop side key ∧ (S.list key).nodes = []) :
      Ran lim S c (S, [], r)
  | push (side : Side) (key : Key) (value : Bytes) (S' : SharedStore) (e : Entry) (r : Reply)
      (checked : (Command.push side key value).check lim = .ok ()) (holds : S'.HoldsList key)
      (values : (S'.list key).values = ListValue.atEnd (clip value) (S.list key).values side)
      (frame : ∀ k ≠ key, S'.entries.lookup k = S.entries.lookup k) :
      Ran lim S (.push side key value) (S', [e.upsertEvent key,
        .listItemInsert key ((S.list key).pushOrd side) (clip value)], .ok r)
  | pop (side : Side) (key : Key) (S' : SharedStore) (e : Entry) (v : Bytes)
      (checked : (Command.pop side key).check lim = .ok ()) (holds : S'.HoldsList key)
      (values : (S.list key).values = ListValue.atEnd v (S'.list key).values side)
      (frame : ∀ k ≠ key, S'.entries.lookup k = S.entries.lookup k) :
      Ran lim S (.pop side key) (S', [e.upsertEvent key,
        .listItemDelete key ((S.list key).popOrd side)], .ok (.text (some v)))

omit hok in
/-- A command on lists runs in one of these ways. -/
theorem execList_ran {lim : Limits} {c : ListCommand} (h : ∀ k, S.HoldsList k)
    (hok : c.toCommand.check lim = .ok () → ∀ site, ok site = true) :
    Ran lim S c (S.execList hashBytes ok lim now c) := by
  rw [execList]
  cases hcheck : c.toCommand.check lim with
  | error err => exact .idle c _ fun h => absurd (hcheck.symm.trans h) (by simp)
  | ok u =>
    cases c with
    | push side key value =>
      obtain ⟨S', e, r, heq, hholds, hvals, hframe⟩ :=
        push_spec (hok hcheck) (h key) hashBytes now side value
      simp only [heq]
      exact .push side key value S' e r hcheck hholds hvals hframe
    | pop side key =>
      by_cases hnil : (S.list key).nodes = []
      · simp only [pop_of_nil (h key) hnil]
        exact .idle _ _ fun _ => ⟨side, key, rfl, hnil⟩
      · obtain ⟨S', e, v, heq, hholds, hvals, hframe⟩ :=
          pop_spec (hok hcheck) (h key) hnil hashBytes now side
        simp only [heq]
        exact .pop side key S' e v hcheck hholds hvals hframe

end SharedStore

end PgRedis
