import PgRedis.Session.Flush

/-!
# Alike keyspaces

Two keyspaces are *alike* if they differ at most in the versions of entries, in
counters, and in the order of scans (`Session.Alike`). The same commands keep alike
keyspaces alike (`Alike.calls`), and the flushes of alike keyspaces leave the same
rows up to versions (`Alike.runFlush`).
-/

namespace PgRedis

open Lib Session

/-! ## Alike keyspaces -/

/-- Hashes with the same fields and deltas. -/
structure Hash.Alike (h h' : Hash) : Prop where
  fields : ∀ f, h.fields.lookup f = h'.fields.lookup f
  tombstones : h.tombstones = h'.tombstones

/-- Lists with the same nodes, ordinals and deltas. -/
structure ListValue.Alike (l l' : ListValue) : Prop where
  nodes : l.nodes = l'.nodes
  minOrd : l.minOrd = l'.minOrd
  maxOrd : l.maxOrd = l'.maxOrd
  ordInitialized : l.ordInitialized = l'.ordInitialized
  pendingDeleteOrds : l.pendingDeleteOrds = l'.pendingDeleteOrds

/-- Alike contents of the union. -/
inductive Payload.Alike : Payload → Payload → Prop
  | word (i : ℤ) : Alike (.word i) (.word i)
  | str (s : Bytes) : Alike (.str s) (.str s)
  | hash {h h' : Hash} : h.Alike h' → Alike (.hash h) (.hash h')
  | list {l l' : ListValue} : l.Alike l' → Alike (.list l) (.list l')

/-- Entries that differ at most in their version. -/
structure Entry.Alike (e e' : Entry) : Prop where
  type : e.type = e'.type
  value : e.value.Alike e'.value
  expireAt : e.expireAt = e'.expireAt
  inDirtySet : e.inDirtySet = e'.inDirtySet

/-- Alike keyspaces. -/
structure Session.Alike (s t : Session) : Prop where
  store : ∀ k, Option.Rel Entry.Alike (s.store.lookup k) (t.store.lookup k)
  dirty : s.dirty = t.dirty
  pendingDeletes : ∀ k, k ∈ s.pendingDeletes ↔ k ∈ t.pendingDeletes

theorem Entry.Alike.isSome_content {e e' : Entry} (h : e.Alike e') :
    e.content.isSome = e'.content.isSome := by
  obtain ⟨type, value, x, n, d⟩ := e
  obtain ⟨type', value', x', n', d'⟩ := e'
  obtain ⟨ht, hv, -, -⟩ := h
  simp only at ht hv
  subst ht
  cases hv with
  | word i => rfl
  | str | hash | list => cases type <;> rfl

/-- Alike keyspaces hold values of the types of their entries alike. -/
theorem Session.Alike.wellTyped {s t : Session} (h : s.Alike t) (ht : t.WellTyped) :
    s.WellTyped := by
  intro k e he
  have hrel := h.store k
  rw [he] at hrel
  cases hk : t.store.lookup k with
  | none =>
    rw [hk] at hrel
    cases hrel
  | some e' =>
    rw [hk] at hrel
    cases hrel with
    | some hee =>
      rw [hee.isSome_content]
      exact ht k e' hk

/-- Both fail, or both succeed with related results. -/
inductive BothOk {ε ε' α β : Type} (R : α → β → Prop) : Except ε α → Except ε' β → Prop
  | ok {a : α} {b : β} : R a b → BothOk R (.ok a) (.ok b)
  | error (x : ε) (y : ε') : BothOk R (.error x) (.error y)

theorem rel_map {α α' β β' : Type} {R : α → α' → Prop} {S : β → β' → Prop} {f : α → β}
    {g : α' → β'} {x : Option α} {y : Option α'} (h : Option.Rel R x y)
    (hfg : ∀ a b, R a b → S (f a) (g b)) : Option.Rel S (x.map f) (y.map g) := by
  cases h with
  | none => exact .none
  | some h => exact .some (hfg _ _ h)

namespace Hash.Alike

variable {h h' : Hash}

theorem set (hh : h.Alike h') (f : Field) (v : Bytes) : (h.set f v).1.Alike (h'.set f v).1 where
  fields g := by
    rw [fields_set, fields_set, Htab.lookup_insert_eq, Htab.lookup_insert_eq, hh.fields]
  tombstones := by rw [tombstones_set, tombstones_set, hh.tombstones]

theorem del_eq (hh : h.Alike h') (f : Field) : (h.del f).2 = (h'.del f).2 := by
  rw [del_snd, del_snd, hh.fields]

theorem del (hh : h.Alike h') {f : Field} (hdel : (h.del f).2 = true) :
    (h.del f).1.Alike (h'.del f).1 := by
  obtain ⟨hf, ht⟩ := fields_tombstones_del hdel
  obtain ⟨hf', ht'⟩ := fields_tombstones_del ((hh.del_eq f).symm.trans hdel)
  refine ⟨fun g => ?_, by rw [ht, ht', hh.tombstones]⟩
  rw [hf, hf', Htab.lookup_erase_eq, Htab.lookup_erase_eq, hh.fields]

end Hash.Alike

namespace ListValue.Alike

variable {l l' : ListValue}

theorem push (hl : l.Alike l') (side : Side) (v : Bytes) :
    (push side l v).Alike (push side l' v) := by
  obtain ⟨h₁, h₂, h₃, h₄, h₅⟩ := hl
  cases side <;> constructor <;> simp [ListValue.push, lpush, rpush, h₁, h₂, h₃, h₄, h₅]

/-- Alike lists pop the same value and stay alike. -/
theorem pop (hl : l.Alike l') (side : Side) :
    Option.Rel (fun x y => x.1 = y.1 ∧ x.2.Alike y.2) (pop side l) (pop side l') := by
  obtain ⟨h₁, h₂, h₃, h₄, h₅⟩ := hl
  cases side with
  | left =>
    rw [ListValue.pop, lpop, lpop, ← h₁]
    split
    · exact .none
    · exact .some ⟨rfl, rfl, rfl, rfl, rfl, by simp [drained, forget, h₅]⟩
    · exact .some ⟨rfl, rfl, rfl, h₃, h₄, by simp [forget, h₅]⟩
  | right =>
    rw [ListValue.pop, rpop, rpop, ← h₁]
    split
    · exact .none
    · split
      · exact .some ⟨rfl, rfl, rfl, rfl, rfl, by simp [drained, forget, h₅]⟩
      · exact .some ⟨rfl, rfl, h₂, rfl, h₄, by simp [forget, h₅]⟩

end ListValue.Alike

/-! ## Commands on alike entries -/

/-- The body of an upserting command does alike to alike entries. -/
def AlikeUpdates (f : Bool → Entry → Except EntryError (Entry × Reply)) : Prop :=
  ∀ ⦃e e'⦄, e.Alike e' → ∀ isNew, BothOk (fun x y => x.1.Alike y.1) (f isNew e) (f isNew e')

/-- The body of a command on an entry found does alike to alike entries. -/
def AlikeQueries (f : Entry → Except EntryError (Option Entry × Reply)) : Prop :=
  ∀ ⦃e e'⦄, e.Alike e' → BothOk (fun x y => Option.Rel Entry.Alike x.1 y.1) (f e) (f e')

namespace Entry

theorem Alike.set (value : Bytes) : AlikeUpdates (set value) := by
  intro e e' h isNew
  refine .ok ⟨rfl, .str value, ?_, ?_⟩
  · simp only [h.type]
    split_ifs <;> exact h.expireAt
  · simp only [h.type]
    split_ifs <;> exact h.inDirtySet

theorem Alike.counter {e e' : Entry} (h : e.Alike e') (isNew : Bool) :
    e.counter isNew = e'.counter isNew := by
  cases isNew with
  | true => rfl
  | false =>
    rw [Entry.counter, Entry.counter, h.type]
    have hv := h.value
    generalize e.value = v at hv ⊢
    generalize e'.value = v' at hv ⊢
    cases hv <;> cases e'.type <;> rfl

theorem Alike.incrdecr (delta : ℤ) : AlikeUpdates (incrdecr delta) := by
  intro e e' h isNew
  rw [Entry.incrdecr, Entry.incrdecr, h.counter]
  split
  · exact .error _ _
  · exact .ok ⟨rfl, .word _, h.expireAt, h.inDirtySet⟩

theorem Alike.hashOrCreate {e e' : Entry} (h : e.Alike e') (isNew : Bool) :
    (e.hashOrCreate isNew).Alike (e'.hashOrCreate isNew) := by
  unfold Entry.hashOrCreate
  have hv := h.value
  generalize e.value = v at hv ⊢
  generalize e'.value = v' at hv ⊢
  cases isNew <;> cases hv <;> first | exact ⟨fun _ => rfl, rfl⟩ | assumption

theorem Alike.hset (field : Field) (value : Bytes) : AlikeUpdates (hset field value) := by
  intro e e' h isNew
  rw [Entry.hset, Entry.hset, h.type]
  split_ifs
  · exact .error _ _
  · exact .ok ⟨rfl, .hash ((h.hashOrCreate isNew).set field value), h.expireAt, h.inDirtySet⟩

theorem Alike.listOrCreate {e e' : Entry} (h : e.Alike e') (isNew : Bool) :
    (e.listOrCreate isNew).Alike (e'.listOrCreate isNew) := by
  unfold Entry.listOrCreate
  have hv := h.value
  generalize e.value = v at hv ⊢
  generalize e'.value = v' at hv ⊢
  cases isNew <;> cases hv <;> first | exact ⟨rfl, rfl, rfl, rfl, rfl⟩ | assumption

theorem Alike.listPush (side : Side) (value : Bytes) : AlikeUpdates (listPush side value) := by
  intro e e' h isNew
  rw [Entry.listPush, Entry.listPush, h.type]
  split_ifs
  · exact .error _ _
  · exact .ok ⟨rfl, .list ((h.listOrCreate isNew).push side value), h.expireAt, h.inDirtySet⟩

theorem Alike.expire (now' seconds : ℤ) : AlikeQueries (expire now' seconds) :=
  fun _ _ h => .ok (.some ⟨h.type, h.value, rfl, h.inDirtySet⟩)

theorem Alike.get : AlikeQueries get := by
  intro e e' h
  rw [Entry.get, Entry.get, h.type]
  have hv := h.value
  generalize e.value = v at hv ⊢
  generalize e'.value = v' at hv ⊢
  cases hv <;> cases e'.type <;> first | exact .ok .none | exact .error _ _

theorem Alike.withHash {f : Hash → Option Hash × Reply}
    (hf : ∀ h h', h.Alike h' → Option.Rel Hash.Alike (f h).1 (f h').1) :
    AlikeQueries (withHash f) := by
  intro e e' h
  rw [Entry.withHash, Entry.withHash, h.type]
  split_ifs
  · exact .error _ _
  · have hv := h.value
    generalize e.value = v at hv ⊢
    generalize e'.value = v' at hv ⊢
    cases hv with
    | hash hh =>
      exact .ok (rel_map (hf _ _ hh) fun _ _ hh' => ⟨rfl, .hash hh', h.expireAt, h.inDirtySet⟩)
    | word | str | list => exact .ok .none

theorem Alike.withList {null : Reply} {f : ListValue → Option ListValue × Reply}
    (hf : ∀ l l', l.Alike l' → Option.Rel ListValue.Alike (f l).1 (f l').1) :
    AlikeQueries (withList null f) := by
  intro e e' h
  rw [Entry.withList, Entry.withList, h.type]
  split_ifs
  · exact .error _ _
  · have hv := h.value
    generalize e.value = v at hv ⊢
    generalize e'.value = v' at hv ⊢
    cases hv with
    | list hl =>
      exact .ok (rel_map (hf _ _ hl) fun _ _ hl' => ⟨rfl, .list hl', h.expireAt, h.inDirtySet⟩)
    | word | str | hash => exact .ok .none

theorem Alike.hdel (field : Field) : AlikeQueries (hdel field) :=
  Alike.withHash fun h h' hh => by
    simp only [hh.del_eq field]
    split_ifs with hdel
    · exact .some (hh.del ((hh.del_eq field).trans hdel))
    · exact .none

theorem Alike.listPop (side : Side) : AlikeQueries (listPop side) :=
  Alike.withList fun l l' hl => by
    have h := hl.pop side
    generalize ListValue.pop side l = x at h ⊢
    generalize ListValue.pop side l' = y at h ⊢
    cases h with
    | none => exact .none
    | some h => exact .some h.2

end Entry

/-! ## Commands on alike keyspaces -/

theorem Entry.Alike.isExpired {e e' : Entry} (h : e.Alike e') (now : ℤ) :
    e.isExpired now = e'.isExpired now := by
  rw [Entry.isExpired, Entry.isExpired, h.expireAt]

namespace Session.Alike

variable {s t : Session} {now now' : ℤ} {key : Key}

theorem put (h : s.Alike t) {e e' : Entry} (he : e.Alike e') :
    (s.put key e).Alike (t.put key e') where
  store k := by
    rw [lookup_put, lookup_put]
    split_ifs
    · exact .some he
    · exact h.store k
  dirty := h.dirty
  pendingDeletes := h.pendingDeletes

theorem write (h : s.Alike t) {e e' : Entry} (he : e.Alike e') :
    (s.write key e).Alike (t.write key e') where
  store k := by
    rw [lookup_write, lookup_write]
    split_ifs
    · exact .some ⟨he.type, he.value, he.expireAt, rfl⟩
    · exact h.store k
  dirty := by rw [dirty_write, dirty_write, he.inDirtySet, h.dirty]
  pendingDeletes k := by rw [pendingDeletes_write, pendingDeletes_write, h.pendingDeletes]

/-- Alike keyspaces have a key both, with alike entries, or both not. -/
theorem lookup_cases (h : s.Alike t) (k : Key) :
    s.store.lookup k = none ∧ t.store.lookup k = none ∨
      ∃ e e', s.store.lookup k = some e ∧ t.store.lookup k = some e' ∧ e.Alike e' := by
  have hk := h.store k
  generalize s.store.lookup k = x at hk ⊢
  generalize t.store.lookup k = y at hk ⊢
  cases hk with
  | none => exact .inl ⟨rfl, rfl⟩
  | some he => exact .inr ⟨_, _, rfl, rfl, he⟩

theorem remove (h : s.Alike t) (k : Key) : (s.remove k).1.Alike (t.remove k).1 := by
  rcases h.lookup_cases k with ⟨hs, ht⟩ | ⟨e, e', hs, ht, he⟩
  · rw [remove_of_lookup_none hs, remove_of_lookup_none ht]
    exact h
  · refine ⟨fun k' => ?_, ?_, fun k' => ?_⟩
    · rw [lookup_remove, lookup_remove]
      split_ifs
      · exact .none
      · exact h.store k'
    · rw [remove_of_lookup hs, remove_of_lookup ht, he.inDirtySet, h.dirty]
    · rw [remove_of_lookup hs, remove_of_lookup ht]
      simp only
      split_ifs
      · exact h.pendingDeletes k'
      · rw [List.mem_cons, List.mem_cons, h.pendingDeletes]

/-- Alike keyspaces find alike entries, or none, and stay alike. -/
theorem lookup (h : s.Alike t) (now : ℤ) (k : Key) :
    (s.lookup now k).1.Alike (t.lookup now k).1 ∧
      Option.Rel Entry.Alike (s.lookup now k).2 (t.lookup now k).2 := by
  rcases h.lookup_cases k with ⟨hs, ht⟩ | ⟨e, e', hs, ht, he⟩
  · rw [Session.lookup, Session.lookup, hs, ht]
    exact ⟨h, .none⟩
  · rw [Session.lookup, Session.lookup, hs, ht]
    simp only [he.isExpired now]
    split_ifs
    · exact ⟨h.remove k, .none⟩
    · exact ⟨h, .some he⟩

theorem upsert (h : s.Alike t) (now : ℤ) (k : Key) :
    (s.upsert now k).1.Alike (t.upsert now k).1 ∧
      (s.upsert now k).2.1.Alike (t.upsert now k).2.1 ∧
        (s.upsert now k).2.2 = (t.upsert now k).2.2 := by
  have hfresh : Entry.fresh.Alike .fresh := ⟨rfl, .word 0, rfl, rfl⟩
  rcases h.lookup_cases k with ⟨hs, ht⟩ | ⟨e, e', hs, ht, he⟩
  · rw [Session.upsert, Session.upsert, hs, ht]
    exact ⟨h.put hfresh, hfresh, rfl⟩
  · rw [Session.upsert, Session.upsert, hs, ht]
    simp only [he.isExpired now]
    split_ifs
    · have hnew : ({ Entry.fresh with inDirtySet := e.inDirtySet } : Entry).Alike
          { Entry.fresh with inDirtySet := e'.inDirtySet } := ⟨rfl, .word 0, rfl, he.inDirtySet⟩
      exact ⟨h.put hnew, hnew, rfl⟩
    · exact ⟨h, he, rfl⟩

theorem update (h : s.Alike t) {f : Bool → Entry → Except EntryError (Entry × Reply)}
    (hf : AlikeUpdates f) : (s.update now key f).1.Alike (t.update now key f).1 := by
  obtain ⟨hst, he, hnew⟩ := h.upsert now key
  have hbody := hf he (s.upsert now key).2.2
  rw [Session.update, Session.update]
  generalize s.upsert now key = x at hst he hnew hbody ⊢
  generalize t.upsert now key = y at hst he hnew hbody ⊢
  obtain ⟨s', e, isNew⟩ := x
  obtain ⟨t', e', isNew'⟩ := y
  obtain rfl : isNew = isNew' := hnew
  simp only at hbody ⊢
  generalize f isNew e = x at hbody ⊢
  generalize f isNew e' = y at hbody ⊢
  cases hbody with
  | error => exact hst
  | ok h => exact hst.write h

theorem query (h : s.Alike t) {missing : Reply}
    {f : Entry → Except EntryError (Option Entry × Reply)} (hf : AlikeQueries f) :
    (s.query now key missing f).1.Alike (t.query now key missing f).1 := by
  obtain ⟨hst, he⟩ := h.lookup now key
  rw [Session.query, Session.query]
  generalize s.lookup now key = x at hst he ⊢
  generalize t.lookup now key = y at hst he ⊢
  obtain ⟨s', o⟩ := x
  obtain ⟨t', o'⟩ := y
  -- Both lookups find nothing, or entries alike; then both bodies fail alike or write alike.
  cases he with
  | none => exact hst
  | some he =>
    have hbody := hf he
    rename_i e e'
    simp only
    generalize f e = x at hbody ⊢
    generalize f e' = y at hbody ⊢
    cases hbody with
    | error => exact hst
    | @ok a b h =>
      obtain ⟨a, r⟩ := a
      obtain ⟨b, r'⟩ := b
      cases h with
      | none => exact hst
      | some h => exact hst.write h

theorem expire (h : s.Alike t) {seconds : ℤ} :
    (s.expire now now' key seconds).1.Alike (t.expire now now' key seconds).1 := by
  rw [Session.expire, Session.expire]
  split_ifs
  · exact h.query (Entry.Alike.expire now' seconds)
  · obtain ⟨hst, he⟩ := h.lookup now key
    generalize s.lookup now key = x at hst he ⊢
    generalize t.lookup now key = y at hst he ⊢
    obtain ⟨s', o⟩ := x
    obtain ⟨t', o'⟩ := y
    cases he with
    | none => exact hst
    | some he => exact hst.remove key

theorem ttl (h : s.Alike t) : (s.ttl now now' key).1.Alike (t.ttl now now' key).1 := by
  obtain ⟨hst, he⟩ := h.lookup now key
  rw [Session.ttl, Session.ttl]
  generalize s.lookup now key = x at hst he ⊢
  generalize t.lookup now key = y at hst he ⊢
  obtain ⟨s', o⟩ := x
  obtain ⟨t', o'⟩ := y
  cases he with
  | none => exact hst
  | some he =>
    simp only [he.expireAt]
    split
    · exact hst
    · split_ifs
      · exact hst.remove key
      · exact hst

theorem call (h : s.Alike t) (a : Call) : (s.call a).Alike (t.call a) := by
  rw [Session.call, Session.call, exec, exec]
  split
  · exact h
  · cases a.cmd with
    | set key value => exact h.update (Entry.Alike.set value)
    | get key => exact h.query Entry.Alike.get
    | del key => exact h.remove key
    | exists? key => exact h.query fun _ _ _ => .ok .none
    | expire key seconds => exact h.expire
    | ttl key => exact h.ttl
    | incr key => exact h.update (Entry.Alike.incrdecr 1)
    | decr key => exact h.update (Entry.Alike.incrdecr (-1))
    | hset key field value => exact h.update (Entry.Alike.hset field value)
    | hget key field => exact h.query (Entry.Alike.withHash fun _ _ _ => .none)
    | hdel key field => exact h.query (Entry.Alike.hdel field)
    | hexists key field => exact h.query (Entry.Alike.withHash fun _ _ _ => .none)
    | push side key value => exact h.update (Entry.Alike.listPush side value)
    | pop side key => exact h.query (Entry.Alike.listPop side)
    | llen key => exact h.query (Entry.Alike.withList fun _ _ _ => .none)

/-- The run lemma: the same calls keep alike keyspaces alike. -/
theorem calls (h : s.Alike t) (cs : List Call) : (s.calls cs).Alike (t.calls cs) := by
  induction cs generalizing s t with
  | nil => exact h
  | cons a cs ih => exact ih (h.call a)

end Session.Alike

/-! ## The flush of alike keyspaces -/

namespace Entry.Alike

variable {e e' : Entry}

theorem data_row (h : e.Alike e') : e.row.data = e'.row.data := by
  rw [row, row, StoreRow.data, StoreRow.data, h.expireAt, encodeValue, encodeValue, h.type]
  have hv := h.value
  generalize e.value = v at hv ⊢
  generalize e'.value = v' at hv ⊢
  cases hv <;> cases e'.type <;> rfl

theorem tombstones_eq (h : e.Alike e') : e.tombstones = e'.tombstones := by
  rw [tombstones, tombstones, h.type]
  have hv := h.value
  generalize e.value = v at hv ⊢
  generalize e'.value = v' at hv ⊢
  cases hv <;> cases e'.type <;> first | rfl | exact Hash.Alike.tombstones ‹_›

theorem pendingInserts_eq (h : e.Alike e') : e.pendingInserts = e'.pendingInserts := by
  rw [pendingInserts, pendingInserts, h.type]
  have hv := h.value
  generalize e.value = v at hv ⊢
  generalize e'.value = v' at hv ⊢
  cases hv <;> cases e'.type <;> first | rfl | simp only [ListValue.Alike.nodes ‹_›]

theorem pendingDeleteOrds_eq (h : e.Alike e') : e.pendingDeleteOrds = e'.pendingDeleteOrds := by
  rw [pendingDeleteOrds, pendingDeleteOrds, h.type]
  have hv := h.value
  generalize e.value = v at hv ⊢
  generalize e'.value = v' at hv ⊢
  cases hv <;> cases e'.type <;> first | rfl | exact ListValue.Alike.pendingDeleteOrds ‹_›

theorem mem_dirtyFields (h : e.Alike e') (x : Field × Bytes) :
    x ∈ e.dirtyFields ↔ x ∈ e'.dirtyFields := by
  rw [dirtyFields, dirtyFields, h.type]
  have hv := h.value
  generalize e.value = v at hv ⊢
  generalize e'.value = v' at hv ⊢
  cases hv with
  | hash hh =>
    cases e'.type with
    | hash => simp only [List.mem_filterMap, Prod.exists, Htab.mem_toList, hh.fields]
    | string | int | list => exact Iff.rfl
  | word | str | list => cases e'.type <;> exact Iff.rfl

end Entry.Alike

namespace Session.Alike

variable {s t : Session} {D : Tables}

/-- Arrays filled alike from alike entries are the same. -/
theorem flatMap_dirtyEntries (h : s.Alike t) {γ : Type} {g : Key × Entry → List γ}
    (hg : ∀ k e e', e.Alike e' → g (k, e) = g (k, e')) :
    s.dirtyEntries.flatMap g = t.dirtyEntries.flatMap g := by
  rw [dirtyEntries, dirtyEntries, h.dirty]
  induction t.dirty with
  | nil => rfl
  | cons k ks ih =>
    rcases h.lookup_cases k with ⟨hs, ht⟩ | ⟨e, e', hs, ht, he⟩
    · simp only [List.filterMap_cons, hs, ht, Option.map_none]
      exact ih
    · simp only [List.filterMap_cons, hs, ht, Option.map_some, List.flatMap_cons, hg k e e' he, ih]

theorem hashFieldDeletes (h : s.Alike t) :
    s.flushArgs.hashFieldDeletes = t.flushArgs.hashFieldDeletes :=
  h.flatMap_dirtyEntries fun k e e' he => by rw [he.tombstones_eq]

theorem listItemDeletes (h : s.Alike t) :
    s.flushArgs.listItemDeletes = t.flushArgs.listItemDeletes :=
  h.flatMap_dirtyEntries fun k e e' he => by rw [he.pendingDeleteOrds_eq]

theorem listItemInserts (h : s.Alike t) :
    s.flushArgs.listItemInserts = t.flushArgs.listItemInserts :=
  h.flatMap_dirtyEntries fun k e e' he => by rw [he.pendingInserts_eq]

theorem mem_hashFieldUpserts (h : s.Alike t) (x : (Key × Field) × Option Bytes) :
    x ∈ s.flushArgs.hashFieldUpserts ↔ x ∈ t.flushArgs.hashFieldUpserts := by
  obtain ⟨⟨k, f⟩, v⟩ := x
  refine (mem_childUpserts (s := s)).trans (.trans ?_ mem_childUpserts.symm)
  rw [h.dirty]
  refine and_congr_right' ?_
  rcases h.lookup_cases k with ⟨hs, ht⟩ | ⟨e, e', hs, ht, he⟩
  · rw [hs, ht]
  · rw [hs, ht]
    simp only [Option.some.injEq, exists_eq_left', he.mem_dirtyFields]

theorem mem_storeDeletes (h : s.Alike t) (k : Key) :
    k ∈ s.flushArgs.storeDeletes ↔ k ∈ t.flushArgs.storeDeletes := by
  rw [Session.mem_storeDeletes, Session.mem_storeDeletes, h.pendingDeletes, h.dirty]

theorem storeAfter (h : s.Alike t) (D : Tables) (k : Key) :
    (s.flushArgs.storeAfter D k).map StoreRow.data =
      (t.flushArgs.storeAfter D k).map StoreRow.data := by
  rcases h.lookup_cases k with ⟨hs, ht⟩ | ⟨e, e', hs, ht, he⟩
  · have hno : ∀ {s : Session}, s.store.lookup k = none →
        s.flushArgs.storeAfter D k = D.store k := fun hs => by
      rw [PlanArgs.storeAfter, last_valueAt_eq_none, Option.none_or]
      intro v hv
      obtain ⟨-, e, he, -⟩ := mem_storeUpserts.1 hv
      rw [hs] at he
      exact absurd he (by simp)
    rw [hno hs, hno ht]
  · by_cases hk : k ∈ s.dirty
    · rw [storeAfter_of_dirty hk hs, storeAfter_of_dirty (h.dirty ▸ hk) ht, Option.map_some,
        Option.map_some, he.data_row]
    · rw [storeAfter_of_not_dirty hk, storeAfter_of_not_dirty (h.dirty ▸ hk)]

theorem admissible_iff (h : s.Alike t) :
    s.flushArgs.Admissible D ↔ t.flushArgs.Admissible D := by
  have hparent : ∀ k, (s.flushArgs.storeAfter D k).isSome = (t.flushArgs.storeAfter D k).isSome :=
    fun k => by simpa using congrArg Option.isSome (h.storeAfter D k)
  constructor
  · rintro ⟨hhash, hlist, hnd, habs⟩
    rw [h.listItemInserts] at hlist hnd habs
    rw [h.listItemDeletes] at habs
    refine ⟨fun row hrow => ?_, fun row hrow => ?_, hnd, habs⟩
    · rw [← hparent]
      exact hhash row ((h.mem_hashFieldUpserts row).2 hrow)
    · rw [← hparent]
      exact hlist row hrow
  · rintro ⟨hhash, hlist, hnd, habs⟩
    rw [← h.listItemInserts] at hlist hnd habs
    rw [← h.listItemDeletes] at habs
    refine ⟨fun row hrow => ?_, fun row hrow => ?_, hnd, habs⟩
    · rw [hparent]
      exact hhash row ((h.mem_hashFieldUpserts row).1 hrow)
    · rw [hparent]
      exact hlist row hrow

/-- The statements of alike keyspaces leave the same rows up to versions. -/
theorem sameRows (h : s.Alike t) {D₁ D₂ : Tables} (h₁ : s.flushArgs.Result D D₁)
    (h₂ : t.flushArgs.Result D D₂) : D₁.SameRows D₂ where
  store k := by
    rw [h₁.store, h₂.store, apply_ite (Option.map StoreRow.data),
      apply_ite (Option.map StoreRow.data), h.storeAfter]
    exact if_congr (h.mem_storeDeletes k) rfl rfl
  hashFields k f := by
    rw [h₁.hashFields, h₂.hashFields, h.hashFieldDeletes,
      last_valueAt_congr (fun v => h.mem_hashFieldUpserts ((k, f), v))]
    · exact if_congr (h.mem_storeDeletes k) rfl rfl
    · -- A field has one value among the dirty ones of its hash.
      intro v v' hv hv'
      obtain ⟨-, e, he, x, hx, rfl⟩ := mem_childUpserts.1 hv
      obtain ⟨-, e', he', x', hx', rfl⟩ := mem_childUpserts.1 hv'
      obtain rfl := Option.some.inj (he.symm.trans he')
      rw [Entry.dirtyFields_unique hx hx']
  listItems k o := by
    rw [h₁.listItems, h₂.listItems, h.listItemDeletes, h.listItemInserts]
    exact if_congr (h.mem_storeDeletes k) rfl rfl

/-- A flush of alike keyspaces fails for both or leaves the same rows up to versions. -/
theorem runFlush (h : s.Alike t) (D : Tables) :
    BothOk Tables.SameRows (s.runFlush D).2 (t.runFlush D).2 := by
  by_cases hadm : s.flushArgs.Admissible D
  · obtain ⟨D₁, h₁⟩ := exists_executePlans hadm
    obtain ⟨D₂, h₂⟩ := exists_executePlans (h.admissible_iff.1 hadm)
    rw [runFlush_ok h₁, runFlush_ok h₂]
    exact .ok (h.sameRows (executePlans_ok h₁).2 (executePlans_ok h₂).2)
  · have herr : ∀ {s : Session}, ¬s.flushArgs.Admissible D →
        ∃ err, (s.runFlush D).2 = .error err := by
      intro s hs
      rw [Session.runFlush]
      cases hx : executePlans s.flushArgs D with
      | error err => exact ⟨err, rfl⟩
      | ok D' => exact absurd (executePlans_ok hx).1 hs
    obtain ⟨x, hx⟩ := herr hadm
    obtain ⟨y, hy⟩ := herr (mt h.admissible_iff.2 hadm)
    rw [hx, hy]
    exact .error x y

end Session.Alike

end PgRedis
