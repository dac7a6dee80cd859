import PgRedis.Durable.Cells
import PgRedis.SharedStore.Ordinals

/-!
# The tables behind the shared keyspace

One backend in shared mode under `async_table`, with every event it publishes applied to the
tables in order. The rows of a key are to be those of its cell (`Mirror.Agrees`).

A removal from the shared keyspace publishes nothing, so that `DEL`, `EXPIRE` without delay and
every eviction of an expired key leave its rows behind. An upsert of the row leaves the child
rows, so that a collection overwritten, or started anew after its expiry, keeps the old ones.
The length of an encoded value is cut to 16 bits. And `HSET` leaves the entry it has made when
it then fails. `agrees_iff_kept` shows that there is nothing else: along a run the tables agree
with the keyspace exactly if no command of the run does any of this.
-/

namespace PgRedis

open Lib

/-! ## When a command publishes what it does -/

namespace Command

/-- The commands considered: all but those on lists and `EXPIRE` with a delay. A field is SQL
    text. -/
def Considered : Command → Prop
  | .expire _ seconds => seconds ≤ 0
  | .push .. | .pop .. => False
  | c => ∀ field, c.field? = some field → 0 ∉ field

/-- The command publishes what it does to its key, given what this holds before. -/
def Kept (now now' : ℤ) (o : Option Cell) : Command → Prop
  | .set _ value => value.length + tlvHeaderSize ≤ uint16Max ∧ Cell.Childless o
  | .incr _ | .decr _ => Cell.found now o = none → Cell.Childless o
  | .hset _ field value =>
    if value.length ≤ uint16Max then
      Cell.found now o = none →
        (∀ f ≠ field, f ∉ Cell.fieldsOf o) ∧ Cell.itemsOf o = []
    else Cell.found now o ≠ none
  | .del _ | .expire .. => o = none
  | .ttl _ => Cell.found now o = o ∧ Cell.found now' o = o
  | .hget .. | .hexists .. => Cell.found (Cell.lookupTime .shared now now' o) o = o
  | _ => Cell.found now o = o

end Command

namespace Mirror

variable (hashBytes : Bytes → UInt32)

/-- A call, and its events applied to the tables. -/
def call (m : Mirror) (c : Call) : Mirror :=
  ⟨(m.store.exec hashBytes enough c.lim c.now c.now' c.cmd).1,
    m.tables >>= replay (m.store.exec hashBytes enough c.lim c.now c.now' c.cmd).2.1⟩

/-- The rows of every key are those of its cell in the shared keyspace. -/
def Agrees (m : Mirror) : Prop :=
  ∃ K D, m.store.Shows hashBytes K ∧ m.tables = .ok D ∧ ∀ k, D.Shows k (K k)

/-- The call is rejected, or publishes what it does. -/
def Kept (m : Mirror) (c : Call) : Prop :=
  c.cmd.check c.lim = .ok () →
    ∀ K, m.store.Shows hashBytes K → c.cmd.Kept c.now c.now' (K c.cmd.key)

end Mirror

/-! ## What is published of a command -/

section

variable {hashBytes : Bytes → UInt32} {S : SharedStore} {K : Cells} {D : Tables} {key : Key}
  {now now' : ℤ}

/-- What a command does to its key and to the rows of the key, and when the two agree again. -/
def Effect (hashBytes : Bytes → UInt32) (K : Cells) (D : Tables) (key : Key)
    (x : SharedStore × List DirtyEvent × Except SharedCommandError Reply) (kept : Prop) : Prop :=
  ∃ o' D', x.1.Shows hashBytes (Function.update K key o') ∧ replay x.2.1 D = .ok D' ∧
    Tables.Frame key D D' ∧ (D'.Shows key o' ↔ kept)

theorem Effect.congr {x : SharedStore × List DirtyEvent × Except SharedCommandError Reply}
    {kept kept' : Prop} (h : Effect hashBytes K D key x kept) (hiff : kept ↔ kept') :
    Effect hashBytes K D key x kept' := by
  obtain ⟨o', D', hx, hD', hframe, hkept⟩ := h
  exact ⟨o', D', hx, hD', hframe, hkept.trans hiff⟩

/-- Nothing is published. -/
theorem effect_of_silent {x : SharedStore × List DirtyEvent × Except SharedCommandError Reply}
    {o' : Option Cell} (hx : x.1.Shows hashBytes (Function.update K key o')) (hevs : x.2.1 = [])
    {kept : Prop} (hkept : D.Shows key o' ↔ kept) : Effect hashBytes K D key x kept :=
  ⟨o', D, hx, by rw [hevs]; rfl, fun _ _ _ h => h, hkept⟩

/-- What a lookup leaves agrees with the rows unless it has evicted the key. -/
theorem shows_found_iff {o : Option Cell} (hD : D.Shows key o) :
    D.Shows key (Cell.found now o) ↔ Cell.found now o = o := by
  cases o with
  | none => exact iff_of_true hD rfl
  | some c =>
    rw [Cell.found]
    split_ifs
    · exact hD.of_removed.trans (iff_of_false (by simp) id)
    · exact iff_of_true hD rfl

theorem query_fst {missing : Reply} {g : Cell → Except EntryError (Option Cell × Reply)}
    (hg : ∀ c c' r, g c ≠ .ok (some c', r)) (o : Option Cell) :
    (Cell.query .shared now key missing g o).1 = Cell.found now o := by
  rw [Cell.query]
  cases Cell.found now o with
  | none => rfl
  | some c =>
    simp only
    split
    · rfl
    · rfl
    · rename_i c' r heq
      exact absurd heq (hg c c' r)

/-- The events of a string or an integer: one, for its row. -/
theorem events_of_scalar {e : Entry} {c : Cell} (h : e.Shows c)
    (ht : c.value.type = .string ∨ c.value.type = .int) (key : Key) :
    ∃ version, e.events key =
      [.keyUpsert key c.value.type (clip (c.value.encode.getD [])) c.expireAt version] := by
  refine ⟨Int.bmod e.version.toNat (2 ^ 64), ?_⟩
  have hnone : e.dirtyFields = [] ∧ e.tombstones = [] ∧ e.pendingInserts = [] ∧
      e.pendingDeleteOrds = [] := by
    rw [← h.type] at ht
    rcases ht with ht | ht <;>
      simp [Entry.dirtyFields, Entry.tombstones, Entry.pendingInserts, Entry.pendingDeleteOrds, ht]
  rw [Entry.events, hnone.1, hnone.2.1, hnone.2.2.1, hnone.2.2.2, Entry.upsertEvent,
    h.encodeValue, h.type, h.expireAt]
  rfl

theorem data_stored {c : Cell} (ht : c.value.type = .string ∨ c.value.type = .int) :
    (c.stored .shared).value.encode = c.value.encode := by
  obtain ⟨v, x⟩ := c
  cases v with
  | str t => rcases t with _ | _ | _ <;> rfl
  | int i => rfl
  | hash | list => simp [View.type] at ht

/-- A command that makes a string or an integer of its key, and cannot fail on a new one. -/
theorem effect_update (h : S.Shows hashBytes K) (hD : D.Shows key (K key)) (now : ℤ)
    {f : Bool → Entry → Except EntryError (Entry × Reply)}
    {g : Bool → Cell → Except EntryError (Cell × Reply)} (hfg : UpdateSim f g)
    (hno : ∀ isNew c c' r, g isNew c = .ok (c', r) →
      c'.value.type = .string ∨ c'.value.type = .int)
    (hnew : ∀ c err, g true c ≠ .error err) :
    (∃ err, g (Cell.upserted now (K key)).2 (Cell.upserted now (K key)).1 = .error err ∧
      Cell.found now (K key) ≠ none ∧
      Effect hashBytes K D key (S.update hashBytes enough now key f) True) ∨
    ∃ c' r, g (Cell.upserted now (K key)).2 (Cell.upserted now (K key)).1 = .ok (c', r) ∧
      Effect hashBytes K D key (S.update hashBytes enough now key f)
        ((c'.value.encode.getD []).length ≤ uint16Max ∧ Cell.Childless (K key)) := by
  obtain ⟨S', hS', ⟨err, hg, heq⟩ | ⟨e', c', r, hg, hec, heq⟩⟩ := SharedStore.update_shows enough_eq
    h now key hfg fun isNew c c' r hg => by
      rcases hno isNew c c' r hg with ht | ht <;> rw [ht] <;> decide
  · -- Only a key that is there, and has not expired, is refused.
    rcases Cell.upserted_cases now (K key) with ⟨-, hup⟩ | ⟨c, hK, hfound, hup⟩
    · rw [hup] at hg
      exact absurd hg (hnew _ err)
    refine .inl ⟨err, hg, by rw [hfound]; simp, ?_⟩
    rw [Cell.update, hg, hup] at hS'
    rw [heq]
    exact effect_of_silent hS' rfl (iff_of_true (hK ▸ hD) trivial)
  · refine .inr ⟨c', r, hg, ?_⟩
    have ht := hno _ _ _ _ hg
    have ht' : (c'.stored .shared).value.type = .string ∨
        (c'.stored .shared).value.type = .int := by
      rwa [show (c'.stored .shared).value.type = c'.value.type from View.type_stored _ _]
    obtain ⟨version, hevs⟩ := events_of_scalar hec ht key
    obtain ⟨D', hD', hframe, hiff⟩ := hD.keyUpsert ht' version
    rw [Cell.update, hg] at hS'
    rw [heq, hevs]
    rw [data_stored ht, show (c'.stored .shared).value.type = c'.value.type from
      View.type_stored _ _] at hD'
    rw [data_stored ht] at hiff
    exact ⟨_, D', hS', hD', hframe, hiff⟩

/-- A command that only reads. -/
theorem effect_query (h : S.Shows hashBytes K) (hD : D.Shows key (K key)) (now : ℤ)
    {missing : Reply} {f : Entry → Except EntryError (Option Entry × Reply)}
    {g : Cell → Except EntryError (Option Cell × Reply)} (hfg : QuerySim (fun _ => True) f g)
    (hg : ∀ c c' r, g c ≠ .ok (some c', r)) :
    Effect hashBytes K D key (S.query hashBytes enough now key missing f)
      (Cell.found now (K key) = K key) := by
  obtain ⟨S', evs, hS', heq, hevs⟩ := SharedStore.query_shows enough_eq h now key missing hfg
    fun c c' r hc => absurd hc (hg c c' r)
  rw [query_fst hg] at hS'
  rw [heq]
  exact effect_of_silent hS' (hevs fun c c' r _ => hg c c' r) (shows_found_iff hD)

/-- `HGET` and `HEXISTS`. -/
theorem effect_queryField {x : SharedStore × List DirtyEvent × Except SharedCommandError Reply}
    (hD : D.Shows key (K key)) {reply : Reply} {r : Except SharedCommandError Reply}
    {g : Cell → Except EntryError (Option Cell × Reply)} (hg : ∀ c c' r, g c ≠ .ok (some c', r))
    (hx : ∃ S', S'.Shows hashBytes (Function.update K key
        (Cell.query .shared (Cell.lookupTime .shared now now' (K key)) key reply g (K key)).1) ∧
      x = (S', [], r)) :
    Effect hashBytes K D key x
      (Cell.found (Cell.lookupTime .shared now now' (K key)) (K key) = K key) := by
  obtain ⟨S', hS', rfl⟩ := hx
  rw [query_fst hg] at hS'
  exact effect_of_silent hS' rfl (shows_found_iff hD)

/-- A key removed. -/
theorem effect_remove (h : S.Shows hashBytes K) (hD : D.Shows key (K key))
    (r : Except SharedCommandError Reply) :
    Effect hashBytes K D key ((S.remove key).1, [], r) (K key = none) :=
  effect_of_silent (h.remove key).2 rfl hD.of_removed

/-- `EXPIRE` without delay. -/
theorem effect_expire (h : S.Shows hashBytes K) (hD : D.Shows key (K key)) (now now' : ℤ)
    {seconds : ℤ} (hneg : seconds ≤ 0) :
    Effect hashBytes K D key (S.expire hashBytes enough now key seconds) (K key = none) := by
  obtain ⟨S', evs, hS', heq, hevs⟩ := SharedStore.expire_shows enough_eq h now now' key seconds
  have hgone : (Cell.expire .shared now now' seconds (K key)).1 = none := by
    rw [Cell.expire]
    cases Cell.found now (K key) with
    | none => rfl
    | some c => simp [hneg]
  rw [hgone] at hS'
  rw [heq]
  exact effect_of_silent hS' (hevs hneg) hD.of_removed

/-- `TTL`, which looks at the clock twice. -/
theorem effect_ttl (h : S.Shows hashBytes K) (hD : D.Shows key (K key)) (now now' : ℤ) :
    Effect hashBytes K D key (S.ttl now now' key)
      (Cell.found now (K key) = K key ∧ Cell.found now' (K key) = K key) := by
  obtain ⟨S', hS', heq⟩ := SharedStore.ttl_shows h now now' key
  rw [heq]
  refine effect_of_silent hS' rfl ?_
  cases hK : K key with
  | none =>
    rw [hK] at hD
    exact iff_of_true hD ⟨rfl, rfl⟩
  | some c =>
    rw [hK] at hD
    rw [Cell.ttl, Cell.found]
    -- The lookup evicts by the first reading, what follows by the second.
    by_cases hexp : c.isExpired now
    · simp only [hexp, if_true]
      exact hD.of_removed.trans (by simp)
    simp only [if_neg hexp, true_and]
    cases hx : c.expireAt with
    | none =>
      refine iff_of_true hD ?_
      rw [Cell.found, Cell.isExpired, hx]
      rfl
    | some t =>
      rw [Cell.found, Cell.isExpired, hx]
      by_cases hlate : now' ≥ t
      · simp only [hlate, decide_true, if_true]
        exact hD.of_removed.trans (by simp)
      · simp only [hlate, decide_false, if_false]
        exact iff_of_true hD (by simp)

/-- What `HSET` does: it is refused, or it sets the field of a hash that is there or that it
    makes, or it makes a hash but the value is too long. -/
theorem SharedStore.hset_cases (h : S.Shows hashBytes K) {field : Field}
    (hfield : SharedHash.ValidField field) (now : ℤ) (key : Key) (value : Bytes) :
    ∃ S', (∃ c r, K key = some c ∧ Cell.found now (K key) = some c ∧
        (value.length ≤ uint16Max → c.value.type ≠ .hash) ∧ S'.Shows hashBytes K ∧
        S.hset hashBytes enough now key field value = (S', [], r)) ∨
      (value.length ≤ uint16Max ∧ ∃ m x version r,
        (Cell.found now (K key) = none ∧ m = ∅ ∨
          Cell.found now (K key) = K key ∧ K key = some ⟨.hash m, x⟩) ∧
        S'.Shows hashBytes (Function.update K key (some ⟨.hash (m.insert field value), x⟩)) ∧
        S.hset hashBytes enough now key field value =
          (S', [.keyUpsert key .hash [] x version, .hashFieldUpsert key field value], r)) ∨
      (uint16Max < value.length ∧ Cell.found now (K key) = none ∧
        S'.Shows hashBytes (Function.update K key (some ⟨.hash ∅, none⟩)) ∧
        ∃ r, S.hset hashBytes enough now key field value = (S', [], r)) := by
  -- A value that is too long is found out after the entry has been made; what `HSET` finds of
  -- another type it leaves.
  rcases Nat.lt_or_ge uint16Max value.length with hlong | hlen
  · obtain ⟨S', hS', heq⟩ := SharedStore.hset_long enough_eq h hlong now key field
    refine ⟨S', ?_⟩
    rcases Cell.upserted_cases now (K key) with ⟨hfound, -⟩ | ⟨c, hK, hfound, -⟩
    · rw [hfound] at hS'
      exact .inr (.inr ⟨hlong, hfound, hS', _, heq⟩)
    · rw [hfound, Option.some_or, ← hK, Function.update_eq_self] at hS'
      exact .inl ⟨c, _, hK, hfound, fun hlen => absurd hlong (Nat.not_lt.2 hlen), hS', heq⟩
  obtain ⟨S', hS', hcase⟩ := SharedStore.hset_shows enough_eq h hfield hlen now key
  refine ⟨S', ?_⟩
  -- An entry that is made anew is a hash; one that is found may be of another type.
  rcases Cell.upserted_cases now (K key) with ⟨hfound, hup⟩ | ⟨c, hK, hfound, hup⟩
  · rcases hcase with ⟨err, hg, -⟩ | ⟨c', r, version, hg, heq⟩
    · rw [hup] at hg
      exact absurd hg (by simp [Cell.hset])
    rw [Cell.update, hg] at hS'
    rw [hup] at hg
    obtain ⟨rfl, -⟩ := Prod.mk.inj (Except.ok.inj hg)
    exact .inr (.inl ⟨hlen, ∅, none, version, _, .inl ⟨hfound, rfl⟩, hS', heq⟩)
  · rcases hcase with ⟨err, hg, heq⟩ | ⟨c', r, version, hg, heq⟩
    · rw [Cell.update, hg, hup, ← hK, Function.update_eq_self] at hS'
      refine .inl ⟨c, _, hK, hfound, fun _ hhash => ?_, hS', heq⟩
      rw [hup, Cell.hset, hhash] at hg
      exact absurd hg (by simp)
    rw [Cell.update, hg] at hS'
    rw [hup, Cell.hset] at hg
    split_ifs at hg with hwrong
    obtain ⟨rfl, -⟩ := Prod.mk.inj (Except.ok.inj hg)
    obtain ⟨v, x⟩ := c
    cases v with
    | hash m =>
      exact .inr (.inl ⟨hlen, m, x, version, _, .inr ⟨hfound.trans hK.symm, hK⟩, hS', heq⟩)
    | str | int | list => simp [View.type] at hwrong

/-- `HSET`. -/
theorem effect_hset (h : S.Shows hashBytes K) (hD : D.Shows key (K key)) (now : ℤ)
    {field : Field} (hfield : SharedHash.ValidField field) (value : Bytes) :
    Effect hashBytes K D key (S.hset hashBytes enough now key field value)
      (if value.length ≤ uint16Max then Cell.found now (K key) = none →
        (∀ f ≠ field, f ∉ Cell.fieldsOf (K key)) ∧ Cell.itemsOf (K key) = []
      else Cell.found now (K key) ≠ none) := by
  obtain ⟨S', ⟨c, r, hK, hfound, -, hS', heq⟩ | ⟨hlen, m, x, version, r, hm, hS', heq⟩ |
    ⟨hlong, hfound, hS', r, heq⟩⟩ := SharedStore.hset_cases h hfield now key value
  · rw [← Function.update_eq_self key K] at hS'
    rw [heq]
    exact effect_of_silent hS' rfl (iff_of_true hD (by simp [hfound]))
  · obtain ⟨D', hD', hframe, hiff⟩ := hD.hset m field value x version
    rw [heq, if_pos hlen]
    refine ⟨_, D', hS', hD', hframe, hiff.trans ?_⟩
    rcases hm with ⟨hfound, rfl⟩ | ⟨hfound, hK⟩
    · simp only [hfound, true_imp_iff, Finmap.lookup_empty, Finmap.lookup_eq_none]
    · refine iff_of_true ?_ fun hnone => absurd (hK.symm.trans (hfound.symm.trans hnone)) (by simp)
      simp [Cell.fieldsOf, Cell.itemsOf, hK, View.fields, View.items]
  · rw [heq, if_neg (Nat.not_le.2 hlong)]
    -- The hash it has made has no row, or still that of the expired entry.
    refine effect_of_silent hS' rfl (iff_of_false (fun hshow => ?_) (by simp [hfound]))
    have hrow := hD.row.symm.trans hshow.row
    cases hK : K key with
    | none =>
      rw [hK] at hrow
      exact absurd hrow (by simp)
    | some c =>
      rw [hK] at hrow hfound
      have hx : c.expireAt = none := congrArg (fun d => d.2.2) (Option.some.inj hrow)
      rw [Cell.found, Cell.isExpired, hx] at hfound
      exact absurd hfound (by simp)

/-- What `HDEL` does: it takes the field away, or only evicts the key if this has expired. -/
theorem SharedStore.hdel_cases (h : S.Shows hashBytes K) (now : ℤ) (key : Key) (field : Field) :
    ∃ S', (∃ m x r, K key = some ⟨.hash m, x⟩ ∧ Cell.found now (K key) = K key ∧
        S'.Shows hashBytes (Function.update K key (some ⟨.hash (m.erase field), x⟩)) ∧
        S.hdel hashBytes enough now key field = (S', [.hashFieldDelete key field], r)) ∨
      (S'.Shows hashBytes (Function.update K key (Cell.found now (K key))) ∧
        ∃ r, S.hdel hashBytes enough now key field = (S', [], r)) := by
  obtain ⟨S', hS', heq⟩ := SharedStore.hdel_shows h enough now key field
  refine ⟨S', ?_⟩
  rw [heq]
  rw [Cell.query] at hS' ⊢
  rcases Cell.upserted_cases now (K key) with ⟨hfound, -⟩ | ⟨c, hK, hfound, -⟩
  · rw [hfound] at hS' ⊢
    exact .inr ⟨hS', _, rfl⟩
  rw [hfound] at hS' ⊢
  simp only at hS' ⊢
  obtain ⟨v, x⟩ := c
  -- Only a field that is there is published, and a command that fails changes nothing.
  cases v with
  | hash m =>
    by_cases hmem : field ∈ m
    · have hdel : Cell.hdel field ⟨.hash m, x⟩ =
          .ok (some ⟨.hash (m.erase field), x⟩, .bool true) := by
        simp [Cell.hdel, Cell.withHash, hmem]
      simp only [hdel] at hS' ⊢
      exact .inl ⟨m, x, _, hK, hK.symm, hS', rfl⟩
    · have hdel : Cell.hdel field ⟨.hash m, x⟩ = .ok (none, .bool false) := by
        simp [Cell.hdel, Cell.withHash, hmem]
      simp only [hdel] at hS' ⊢
      exact .inr ⟨hS', _, rfl⟩
  | str | int | list => exact .inr ⟨hS', _, rfl⟩

/-- `HDEL`. -/
theorem effect_hdel (h : S.Shows hashBytes K) (hD : D.Shows key (K key)) (now : ℤ)
    (field : Field) :
    Effect hashBytes K D key (S.hdel hashBytes enough now key field)
      (Cell.found now (K key) = K key) := by
  obtain ⟨S', ⟨m, x, r, hK, hfound, hS', heq⟩ | ⟨hS', r, heq⟩⟩ :=
    SharedStore.hdel_cases h now key field
  · obtain ⟨D', hD', hframe, hshow⟩ := (hK ▸ hD).hdel field
    rw [heq]
    exact ⟨_, D', hS', hD', hframe, iff_of_true hshow hfound⟩
  · rw [heq]
    exact effect_of_silent hS' rfl (shows_found_iff hD)

theorem length_encodeString (t : Bytes) : (encodeString t).length = t.length + tlvHeaderSize := by
  simp [encodeString, putLe, tlvHeaderSize]

/-- `SET`. -/
theorem effect_set (h : S.Shows hashBytes K) (hD : D.Shows key (K key)) (now : ℤ)
    (value : Bytes) :
    Effect hashBytes K D key (S.update hashBytes enough now key (Entry.set value))
      (value.length + tlvHeaderSize ≤ uint16Max ∧ Cell.Childless (K key)) := by
  rcases effect_update h hD now (Entry.updateSim_set value)
    (fun isNew c c' r hc => .inl (by obtain ⟨rfl, -⟩ := Prod.mk.inj (Except.ok.inj hc); rfl))
    (fun c err hc => by cases hc) with ⟨err, hc, -⟩ | ⟨c', r, hc, heff⟩
  · cases hc
  · obtain ⟨rfl, -⟩ := Prod.mk.inj (Except.ok.inj hc)
    refine heff.congr (and_congr_left' ?_)
    simp only [View.encode, Option.getD_some, length_encodeString]

/-- `INCR` and `DECR`. -/
theorem effect_incrdecr (h : S.Shows hashBytes K) (hD : D.Shows key (K key)) (now : ℤ)
    (delta : ℤ) :
    Effect hashBytes K D key (S.update hashBytes enough now key (Entry.incrdecr delta))
      (Cell.found now (K key) = none → Cell.Childless (K key)) := by
  rcases effect_update h hD now (Entry.updateSim_incrdecr delta)
    (fun isNew c c' r hc => .inr (by
      obtain ⟨i, hi⟩ := Cell.exists_int_of_incrdecr hc
      rw [hi]
      rfl))
    (fun c err hc => by cases hc) with ⟨err, hc, hfound, heff⟩ | ⟨c', r, hc, heff⟩
  · exact heff.congr (iff_of_true trivial fun hno => absurd hno hfound)
  · obtain ⟨i, hi⟩ := Cell.exists_int_of_incrdecr hc
    refine heff.congr ?_
    have hlen : (c'.value.encode.getD []).length ≤ uint16Max := by
      rw [hi]
      simp [View.encode, encodeInt, putLe, uint16Max]
    simp only [hlen, true_and]
    rcases Cell.upserted_cases now (K key) with ⟨hfound, -⟩ | ⟨c, hK, hfound, hup⟩
    · simp [hfound]
    · -- A key that is found and not refused holds a string or an integer.
      refine iff_of_true ?_ (by simp [hfound])
      rw [hup, Cell.incrdecr, Cell.counter] at hc
      rw [hK, Cell.Childless, Cell.fieldsOf, Cell.itemsOf]
      cases hv : c.value with
      | str | int => simp [hv, View.fields, View.items]
      | hash | list => simp [hv] at hc

end

namespace Mirror

variable {hashBytes : Bytes → UInt32} {m : Mirror}

/-- The keyspace and the tables after a command. -/
theorem agrees_of_effect {K : Cells} {D : Tables} (key : Key)
    {x : SharedStore × List DirtyEvent × Except SharedCommandError Reply} {kept : Prop}
    (hrows : ∀ k, D.Shows k (K k)) (h : Effect hashBytes K D key x kept) :
    Agrees hashBytes ⟨x.1, replay x.2.1 D⟩ ↔ kept := by
  obtain ⟨o', D', hx, hD', hframe, hkept⟩ := h
  rw [← hkept]
  constructor
  · rintro ⟨K', D'', hK', hD'', hshow⟩
    obtain rfl := Except.ok.inj (hD'.symm.trans hD'')
    have hkey := hshow key
    rwa [hK'.unique hx, Function.update_self] at hkey
  · intro hshow
    refine ⟨_, D', hx, hD', fun k => ?_⟩
    by_cases hk : k = key
    · rw [hk, Function.update_self]
      exact hshow
    · rw [Function.update_of_ne hk]
      exact hframe k hk _ (hrows k)

/-- A call keeps the agreement exactly if it publishes what it does. -/
theorem Agrees.call_iff (hm : m.Agrees hashBytes) {c : Call} (hc : c.cmd.Considered) :
    (m.call hashBytes c).Agrees hashBytes ↔ m.Kept hashBytes c := by
  obtain ⟨K, D, hS, hD, hrows⟩ := hm
  have hkept : m.Kept hashBytes c ↔
      (c.cmd.check c.lim = .ok () → c.cmd.Kept c.now c.now' (K c.cmd.key)) := by
    refine imp_congr_right fun _ => ⟨fun h => h K hS, fun h K' hK' => ?_⟩
    rw [hK'.unique hS]
    exact h
  rw [hkept, call, SharedStore.exec]
  -- A call that is rejected does nothing; the others are told apart by their effect on one key.
  cases hcheck : c.cmd.check c.lim with
  | error err =>
    refine iff_of_true ⟨K, D, hS, ?_, hrows⟩ (by simp)
    rw [hD]
    rfl
  | ok u =>
    rw [hD]
    simp only [true_imp_iff]
    have hkey := hrows c.cmd.key
    have hvalid : ∀ field, c.cmd.field? = some field → 0 ∉ field → SharedHash.ValidField field :=
      fun field hf htext => ⟨(Command.field_length_le hcheck hf).1,
        (Command.field_length_le hcheck hf).2, htext⟩
    refine agrees_of_effect c.cmd.key hrows ?_
    obtain ⟨lim, now, now', cmd⟩ := c
    simp only at hcheck hkey hc hvalid ⊢
    cases cmd with
    | set key value => exact effect_set hS hkey now value
    | get key => exact effect_query hS hkey now Entry.querySim_get Cell.get_ne_some
    | del key => exact effect_remove hS hkey _
    | exists? key =>
      exact effect_query hS hkey now Entry.querySim_exists fun _ _ _ h =>
        absurd (congrArg Prod.fst (Except.ok.inj h)) (by simp)
    | expire key seconds => exact effect_expire hS hkey now now' hc
    | ttl key => exact effect_ttl hS hkey now now'
    | incr key => exact effect_incrdecr hS hkey now 1
    | decr key => exact effect_incrdecr hS hkey now (-1)
    | hset key field value =>
      exact effect_hset hS hkey now (hvalid field rfl (hc field rfl)) value
    | hget key field =>
      exact effect_queryField hkey (Cell.withHash_ne_some _)
        (SharedStore.hget_shows enough_eq hS (Command.field_length_le hcheck rfl).2 now now' key)
    | hdel key field => exact effect_hdel hS hkey now field
    | hexists key field =>
      exact effect_queryField hkey (Cell.withHash_ne_some _)
        (SharedStore.hexists_shows enough_eq hS (Command.field_length_le hcheck rfl).2 now now'
          key)
    | push side key value => exact hc.elim
    | pop side key => exact hc.elim
    | llen key => exact effect_query hS hkey now Entry.querySim_llen (Cell.withList_ne_some _)

/-- Along a run the tables agree with the shared keyspace exactly if every command publishes
    what it does. -/
theorem agrees_iff_kept (hm : m.Agrees hashBytes) (cs : List Call)
    (hcs : ∀ c ∈ cs, c.cmd.Considered) :
    Along (fun m c => some (call hashBytes m c)) (Agrees hashBytes) m cs ↔
      Meets (fun m c => some (call hashBytes m c)) (Kept hashBytes) m cs := by
  induction cs generalizing m with
  | nil => exact iff_of_true hm trivial
  | cons c cs ih =>
    have hstep := hm.call_iff (hcs c List.mem_cons_self)
    have htail := fun hm' => @ih (m.call hashBytes c) hm' fun c' hc' =>
      hcs c' (List.mem_cons_of_mem _ hc')
    simp only [Along, Meets, Option.some.injEq, forall_eq']
    constructor
    · rintro ⟨-, hal⟩
      exact ⟨hstep.1 hal.head, (htail hal.head).1 hal⟩
    · rintro ⟨hkept, hmeets⟩
      exact ⟨hm, (htail (hstep.2 hkept)).2 hmeets⟩

/-- An empty keyspace over empty tables. -/
theorem agrees_init (d : Dsa) : (init d).Agrees hashBytes :=
  ⟨fun _ => none, .empty, fun _ => .none, rfl, Tables.shows_empty⟩

/-- `SET k v`, `HSET h f v`, `HDEL h f`: the tables agree at every moment. -/
theorem agrees_of_set_hset :
    let cs : List Call := [⟨⟨0, 0⟩, 0, 0, .set [107] [118]⟩,
      ⟨⟨0, 0⟩, 0, 0, .hset [104] [102] [118]⟩, ⟨⟨0, 0⟩, 0, 0, .hdel [104] [102]⟩]
    Along (fun m c => some (call (fun _ => 0) m c)) (Agrees fun _ => 0) (init ⟨0, []⟩) cs := by
  refine (agrees_iff_kept (agrees_init _) _ fun c hc => ?_).2 ?_
  · simp only [List.mem_cons, List.not_mem_nil, or_false] at hc
    rcases hc with rfl | rfl | rfl <;> simp [Command.Considered, Command.field?]
  · simp only [Meets, Option.some.injEq, forall_eq', and_true]
    refine ⟨fun _ K hK => ?_, fun _ K hK => ?_, fun _ K hK => ?_⟩
    · exact ⟨by decide, by rw [hK.eq_none rfl]; exact ⟨rfl, rfl⟩⟩
    · simp only [Command.Kept]
      rw [if_pos (by decide), hK.eq_none rfl]
      exact fun _ => ⟨fun _ _ => Finmap.notMem_empty, rfl⟩
    · obtain ⟨c, hc, hse⟩ := @SharedStore.Shows.eq_some _ _ K [104] hK _ rfl
      change Cell.found 0 (K [104]) = K [104]
      rw [hc, Cell.found, Cell.isExpired, ← hse.expireAt]
      rfl

/-- `SET k v` and `DEL k`: the key is gone from the keyspace, its row is not. -/
theorem deleted_key_keeps_row :
    let m := [(⟨⟨0, 0⟩, 0, 0, .set [107] [118]⟩ : Call), ⟨⟨0, 0⟩, 0, 0, .del [107]⟩].foldl
      (call fun _ => 0) (init ⟨0, []⟩)
    m.store.entries.lookup [107] = none ∧ ∃ D, m.tables = .ok D ∧ (D.store [107]).isSome := by
  exact ⟨rfl, _, rfl, rfl⟩

end Mirror

end PgRedis
