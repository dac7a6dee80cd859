import PgRedis.Session.Load

/-!
# Loading again after an abort

An abort forgets the deltas of the keyspace but keeps its entries, and the next
command loads the tables over them. `Resyncs` says of one key when that gives what a
new backend would load: a key the tables do not offer must be gone, a hash must have
no field beside those of the tables, a list must be empty, and an expiry must not
survive where the row has none. Values of strings and integers are replaced. A row that
does not decode takes its key out, but a string row does so after it has given the entry
its type, and so frees an integer as a pointer: `Reloads` excludes that.

`reload_eq_iff` shows that this is exactly when the reload is right. It is not right
after an abort that touched nothing: a list read back appends its rows to the nodes
it has (`reload_duplicates_list`).
-/

namespace PgRedis

open Lib Session

/-! ## What a command sees -/

/-- The content of the union as the commands show it. -/
inductive Look
  | word (i : ℤ)
  | str (s : Bytes)
  | hash (fields : Field → Option Bytes)
  | list (values : List Bytes)

/-- The content of the union, without marks, ordinals and counters. -/
def Payload.look : Payload → Look
  | .word i => .word i
  | .str s => .str s
  | .hash h => .hash fun f => (h.fields.lookup f).map HashField.value
  | .list l => .list (l.nodes.map ListNode.value)

/-- What the keyspace holds under a key: type, value and expiry. -/
def Entry.view (e : Entry) : ValueType × Look × Option ℤ := (e.type, e.value.look, e.expireAt)

/-- The entry of a key as seen. -/
def Session.view (s : Session) (k : Key) : Option (ValueType × Look × Option ℤ) :=
  (s.store.lookup k).map Entry.view

/-- The value of a field that the load takes from the tables. -/
def loadedField (D : Tables) (k : Key) (f : Field) : Option Bytes :=
  if f.length ≤ maxFieldSize then (D.hashFields k f).map fun v => v.getD [] else none

/-- The load replaces what is left of a key by what the tables hold. -/
structure Resyncs (D : Tables) (now : ℤ) (k : Key) (o : Option Entry) : Prop where
  gone : ¬Offered D now k → o = none
  null : ∀ {t p}, k.length ≤ maxKeySize → Parent D now k t p → (t = .string ∨ t = .int) →
    p.value = none → ∀ e, o = some e → e.isExpired now = false → e.value = .null
  expiry : ∀ {t p}, Offered D now k → Parent D now k t p → (t = .hash ∨ t = .list) →
    p.expireAt = none → ∀ e, o = some e → e.isExpired now = false → e.expireAt = none
  fields : ∀ {p}, Offered D now k → Parent D now k .hash p → ∀ e h, o = some e →
    e.isExpired now = false → e.content = some (.hash h) →
    ∀ f, (h.fields.lookup f).isSome → (loadedField D k f).isSome
  nodes : ∀ {p}, Offered D now k → Parent D now k .list p → ∀ e l, o = some e →
    e.isExpired now = false → e.content = some (.list l) → l.nodes = []

/-- As `Resyncs`, and no integer is freed as if it were a string: under a row of type
    string that does not decode, the load removes an entry after it has changed its
    type. -/
structure Reloads (D : Tables) (now : ℤ) (k : Key) (o : Option Entry) : Prop
    extends Resyncs D now k o where
  int : ∀ p raw, k.length ≤ maxKeySize → Parent D now k .string p → p.value = some raw →
    decodeString raw = none → ∀ e i, o = some e → e.isExpired now = false →
    e.content = some (.int i) → i = 0

/-! ## One key -/

section

variable {D : Tables} {now : ℤ} {k : Key} {q q' : Query} {s : Session} {p : StoreRow}

theorem Payload.look_eq_word {v : Payload} {i : ℤ} : v.look = .word i ↔ v = .word i := by
  cases v <;> simp [look]

theorem holds_hashes {o : Option Entry} (ho : ∀ e, o = some e → e.content.isSome) :
    Collection.hashes.Holds o :=
  fun e he ht => Collection.hashes.typed e ht (ho e he)

theorem holds_lists {o : Option Entry} (ho : ∀ e, o = some e → e.content.isSome) :
    Collection.lists.Holds o :=
  fun e he ht => Collection.lists.typed e ht (ho e he)

/-- A row of the hash is there exactly for the fields the load takes. -/
theorem find_fieldRows (hq : q.Selects D now) (hp : Parent D now k .hash p) (f : Field) :
    ((q.fieldRows k).find? fun r => r.item = f).map (fun r => r.value.getD []) =
      loadedField D k f := by
  rw [loadedField]
  cases hfind : (q.fieldRows k).find? fun r => r.item = f with
  | none =>
    rw [List.find?_eq_none] at hfind
    split_ifs with hlen
    · cases hf : D.hashFields k f with
      | none => rfl
      | some v =>
        refine absurd (decide_eq_true rfl) (hfind ⟨k, f, v, p.expireAt⟩ ?_)
        exact hq.mem_fieldRows.2 ⟨rfl, hlen, p, hp, rfl, hf⟩
    · rfl
  | some r =>
    obtain ⟨-, hlen, -, -, -, hf⟩ := hq.mem_fieldRows.1 (List.mem_of_find?_eq_some hfind)
    obtain rfl : r.item = f := by simpa using List.find?_some hfind
    rw [if_pos hlen, hf]
    rfl

theorem fieldRows_ne_nil (hq : q.Selects D now) (hp : Parent D now k .hash p)
    (ho : Offered D now k) : q.fieldRows k ≠ [] := by
  cases ho with
  | scalar _ hp' ht =>
    rw [(Query.parent_unique hp' hp).1] at ht
    exact absurd ht (by simp)
  | list _ hp' _ => exact absurd (Query.parent_unique hp' hp).1 (by simp)
  | hash _ hp' hlen hf =>
    obtain ⟨v, hv⟩ := Option.isSome_iff_exists.1 hf
    exact List.ne_nil_of_mem ((hq.mem_fieldRows (r := ⟨k, _, v, _⟩)).2 ⟨rfl, hlen, _, hp', rfl, hv⟩)

theorem itemRows_ne_nil (hq : q.Selects D now) (hp : Parent D now k .list p)
    (ho : Offered D now k) : q.itemRows k ≠ [] := by
  cases ho with
  | scalar _ hp' ht =>
    rw [(Query.parent_unique hp' hp).1] at ht
    exact absurd ht (by simp)
  | hash _ hp' _ _ => exact absurd (Query.parent_unique hp' hp).1 (by simp)
  | list _ hp' hf =>
    obtain ⟨v, hv⟩ := Option.isSome_iff_exists.1 hf
    exact List.ne_nil_of_mem ((hq.mem_itemRows (r := ⟨k, _, v, _⟩)).2 ⟨rfl, _, hp', rfl, hv⟩)

/-- The items of a list come in one order only. -/
theorem itemRows_eq (hq : q.Selects D now) (hq' : q'.Selects D now) :
    q.itemRows k = q'.itemRows k := by
  have hanti : ∀ r r' : LoadRow ℤ, r.item < r'.item → r'.item < r.item → r = r' :=
    fun r r' h h' => absurd h' (Int.not_lt.2 (Int.le_of_lt h))
  have hnd : ∀ {q : Query}, q.Selects D now → (q.itemRows k).Nodup := fun h =>
    h.itemRows_sorted.imp fun hlt heq => Int.ne_of_lt hlt (congrArg LoadRow.item heq)
  refine List.Perm.eq_of_pairwise (fun r r' _ _ => hanti r r') hq.itemRows_sorted
    hq'.itemRows_sorted ((List.perm_ext_iff_of_nodup (hnd hq) (hnd hq')).2 fun r => ?_)
  rw [hq.mem_itemRows, hq'.mem_itemRows]

theorem expireAt_fieldRows (hq : q.Selects D now) (hp : Parent D now k .hash p) :
    ∀ r ∈ q.fieldRows k, r.expireAt = p.expireAt := fun r hr => by
  obtain ⟨-, -, p', hp', hexp, -⟩ := hq.mem_fieldRows.1 hr
  rw [← hexp, (Query.parent_unique hp hp').2]

theorem expireAt_itemRows (hq : q.Selects D now) (hp : Parent D now k .list p) :
    ∀ r ∈ q.itemRows k, r.expireAt = p.expireAt := fun r hr => by
  obtain ⟨-, p', hp', hexp, -⟩ := hq.mem_itemRows.1 hr
  rw [← hexp, (Query.parent_unique hp hp').2]

/-- A hash after the load: the fields of the tables, over those kept. -/
theorem view_load_hash (hq : q.Selects D now) (ho : Offered D now k) (hp : Parent D now k .hash p)
    (hk : k.length ≤ maxKeySize) (hs : ∀ e, s.store.lookup k = some e → e.content.isSome) :
    (s.load now q).view k = some (.hash,
      .hash (fun f => (loadedField D k f).or (((Collection.hashes.base now
        (s.store.lookup k)).2.fields.lookup f).map HashField.value)),
      p.expireAt.or (Collection.hashes.base now (s.store.lookup k)).1.expireAt) := by
  rw [Session.view, lookup_load_hash hq s hp hk,
    Collection.foldl_cell hp.alive (fieldRows_ne_nil hq hp ho)
      (expireAt_fieldRows hq hp) (holds_hashes hs)]
  simp only [Option.map_some, Entry.view, Collection.type_base]
  congr 3
  rw [show Collection.hashes.wrap = Payload.hash from rfl, Payload.look]
  congr 1
  funext f
  rw [Hash.lookup_loadAll hq.fieldRows_nodup (fieldRows_ne_nil hq hp ho),
    ← find_fieldRows hq hp f]
  cases (q.fieldRows k).find? fun r => r.item = f with
  | none => simp [Function.comp_def, HashField.clean]
  | some r => rfl

/-- A list after the load: the nodes kept, then the items of the tables. -/
theorem view_load_list (hq : q.Selects D now) (ho : Offered D now k) (hp : Parent D now k .list p)
    (hk : k.length ≤ maxKeySize) (hs : ∀ e, s.store.lookup k = some e → e.content.isSome) :
    (s.load now q).view k = some (.list,
      .list ((Collection.lists.base now (s.store.lookup k)).2.nodes.map ListNode.value ++
        (q.itemRows k).map fun r => r.value.getD []),
      p.expireAt.or (Collection.lists.base now (s.store.lookup k)).1.expireAt) := by
  rw [Session.view, lookup_load_list hq s hp hk,
    Collection.foldl_cell hp.alive (itemRows_ne_nil hq hp ho)
      (expireAt_itemRows hq hp) (holds_lists hs)]
  simp only [Option.map_some, Entry.view, Collection.type_base]
  congr 3
  rw [show Collection.lists.wrap = Payload.list from rfl, Payload.look, ListValue.nodes_loadAll,
    List.map_append, List.map_map]
  rfl

/-- A hash as a new backend loads it. -/
theorem view_init_hash (hq : q.Selects D now) (ho : Offered D now k) (hp : Parent D now k .hash p)
    (hk : k.length ≤ maxKeySize) :
    (init.load now q).view k = some (.hash, .hash (loadedField D k), p.expireAt) := by
  rw [view_load_hash (s := init) hq ho hp hk (fun e h => absurd h (by simp [init]))]
  simp [init, Collection.base, upserted, Collection.hashes, Entry.releaseValue, Entry.fresh]

/-- A list as a new backend loads it. -/
theorem view_init_list (hq : q.Selects D now) (ho : Offered D now k) (hp : Parent D now k .list p)
    (hk : k.length ≤ maxKeySize) : (init.load now q).view k =
      some (.list, .list ((q.itemRows k).map fun r => r.value.getD []), p.expireAt) := by
  rw [view_load_list (s := init) hq ho hp hk (fun e h => absurd h (by simp [init]))]
  simp [init, Collection.base, upserted, Collection.lists, Entry.releaseValue, Entry.fresh,
    ListValue.create]

theorem or_eq_left_iff {x y : Option ℤ} : x.or y = x ↔ (x = none → y = none) := by
  cases x <;> simp

/-- What is asked of the entry of a key that has not expired. -/
theorem forall_live_iff {o : Option Entry} {e : Entry} (he : o = some e)
    (hexp : e.isExpired now = false) {P : Entry → Prop} :
    (∀ e', o = some e' → e'.isExpired now = false → P e') ↔ P e :=
  ⟨fun h => h e he hexp, fun h _ he' _ => Option.some.inj (he.symm.trans he') ▸ h⟩

/-- A hash is loaded as by a new backend exactly if no other field and no other
    expiry is kept. -/
theorem view_hash_iff (hq : q.Selects D now) (hq' : q'.Selects D now) (ho : Offered D now k)
    (hp : Parent D now k .hash p) (hk : k.length ≤ maxKeySize)
    (hs : ∀ e, s.store.lookup k = some e → e.content.isSome) :
    (s.load now q).view k = (init.load now q').view k ↔ ∀ e, s.store.lookup k = some e →
      e.isExpired now = false → (p.expireAt = none → e.expireAt = none) ∧
        ∀ h, e.content = some (.hash h) →
          ∀ f, (h.fields.lookup f).isSome → (loadedField D k f).isSome := by
  have hfields : ∀ h : Hash, ((fun f => (loadedField D k f).or
      ((h.fields.lookup f).map HashField.value)) = loadedField D k) ↔
        ∀ f, (h.fields.lookup f).isSome → (loadedField D k f).isSome := fun h => by
    rw [funext_iff]
    refine forall_congr' fun f => ?_
    cases loadedField D k f <;> cases h.fields.lookup f <;> simp
  rw [view_load_hash hq ho hp hk hs, view_init_hash hq' ho hp hk]
  simp only [Option.some.injEq, Prod.mk.injEq, true_and, Look.hash.injEq, hfields, or_eq_left_iff]
  rcases Collection.base_cases now (holds_hashes hs) with
    ⟨hexp, hy, hcreate⟩ | ⟨e, he, hexp, hy, hbase⟩
  · rw [hy, hcreate]
    refine iff_of_true ⟨fun f hf => absurd hf (by simp [Collection.hashes]), fun _ => rfl⟩ ?_
    intro e he hne
    exact absurd (hexp e he) (by simp [hne])
  · rw [forall_live_iff he hexp, hy, and_comm]
    refine and_congr_right' ?_
    rcases hbase with ⟨ht, hcreate⟩ | ⟨ht, hv⟩
    · rw [hcreate]
      refine iff_of_true (fun f hf => absurd hf (by simp [Collection.hashes])) fun h hh => ?_
      exact absurd (Entry.content_eq_hash.1 hh).1 ht
    · constructor
      · intro h h' hh'
        obtain rfl := Payload.hash.inj (hv.symm.trans (Entry.content_eq_hash.1 hh').2)
        exact h
      · exact fun h => h _ (Entry.content_eq_hash.2 ⟨ht, hv⟩)

/-- A list is loaded as by a new backend exactly if no node and no other expiry is
    kept. -/
theorem view_list_iff (hq : q.Selects D now) (hq' : q'.Selects D now) (ho : Offered D now k)
    (hp : Parent D now k .list p) (hk : k.length ≤ maxKeySize)
    (hs : ∀ e, s.store.lookup k = some e → e.content.isSome) :
    (s.load now q).view k = (init.load now q').view k ↔ ∀ e, s.store.lookup k = some e →
      e.isExpired now = false → (p.expireAt = none → e.expireAt = none) ∧
        ∀ l, e.content = some (.list l) → l.nodes = [] := by
  rw [view_load_list hq ho hp hk hs, view_init_list hq' ho hp hk, itemRows_eq hq hq']
  simp only [Option.some.injEq, Prod.mk.injEq, true_and, Look.list.injEq, or_eq_left_iff,
    List.append_left_eq_self, List.map_eq_nil_iff]
  rcases Collection.base_cases now (holds_lists hs) with
    ⟨hexp, hy, hcreate⟩ | ⟨e, he, hexp, hy, hbase⟩
  · rw [hy, hcreate]
    refine iff_of_true ⟨rfl, fun _ => rfl⟩ fun e he hne => ?_
    exact absurd (hexp e he) (by simp [hne])
  · rw [forall_live_iff he hexp, hy, and_comm]
    refine and_congr_right' ?_
    rcases hbase with ⟨ht, hcreate⟩ | ⟨ht, hv⟩
    · rw [hcreate]
      refine iff_of_true rfl fun l hl => ?_
      exact absurd (Entry.content_eq_list.1 hl).1 ht
    · constructor
      · intro h l hl
        obtain rfl := Payload.list.inj (hv.symm.trans (Entry.content_eq_list.1 hl).2)
        exact h
      · exact fun h => h _ (Entry.content_eq_list.2 ⟨ht, hv⟩)

/-- An upsert finds a null pointer if it does in an entry that has not expired. -/
theorem value_upserted_null {o : Option Entry} : (upserted now o).1.value = .null ↔
    ∀ e, o = some e → e.isExpired now = false → e.value = .null := by
  cases o with
  | none => exact iff_of_true rfl fun e h => absurd h (by simp)
  | some e =>
    cases hexp : e.isExpired now with
    | true =>
      rw [upserted, if_pos hexp]
      exact iff_of_true rfl fun e' h h' => absurd (Option.some.inj h ▸ hexp) (by simp [h'])
    | false =>
      rw [upserted_some hexp]
      exact ⟨fun h e' he' _ => Option.some.inj he' ▸ h, fun h => h e rfl hexp⟩

/-- A string or an integer is loaded as by a new backend, unless its row has no value
    and another one is kept. -/
theorem view_scalar_iff (hq : q.Selects D now) (hq' : q'.Selects D now) {t : ValueType}
    (hp : Parent D now k t p) (ht : t = .string ∨ t = .int) (hk : k.length ≤ maxKeySize) :
    (s.load now q).view k = (init.load now q').view k ↔ (p.value = none →
      ∀ e, s.store.lookup k = some e → e.isExpired now = false → e.value = .null) := by
  rw [Session.view, Session.view, lookup_load_scalar hq s hp ht, lookup_load_scalar hq' init hp ht,
    scalarCell, if_neg (Nat.not_lt.2 hk), scalarCell, if_neg (Nat.not_lt.2 hk),
    ← value_upserted_null]
  rcases ht with rfl | rfl <;> cases hv : p.value <;>
    simp only [Entry.loadScalar, Option.map_some, Option.map_map, Entry.view, true_implies,
      reduceCtorEq, false_implies, iff_true]
  · simp only [Option.some.injEq, Prod.mk.injEq, true_and, and_true]
    exact Payload.look_eq_word
  · rfl
  · simp only [Option.some.injEq, Prod.mk.injEq, true_and, and_true]
    exact Payload.look_eq_word
  · rfl

theorem Offered.key_le (h : Offered D now k) : k.length ≤ maxKeySize := by
  cases h <;> assumption

theorem Offered.parent (h : Offered D now k) : ∃ t p, Parent D now k t p := by
  cases h with
  | scalar _ hp _ | hash _ hp _ _ | list _ hp _ => exact ⟨_, _, hp⟩

/-- The load of a key is that of a new backend exactly if it replaces what is left. -/
theorem view_load_iff (hq : q.Selects D now) (hq' : q'.Selects D now)
    (hs : ∀ e, s.store.lookup k = some e → e.content.isSome) :
    (s.load now q).view k = (init.load now q').view k ↔
      Resyncs D now k (s.store.lookup k) := by
  by_cases ho : Offered D now k
  · obtain ⟨t, p, hp⟩ := ho.parent
    have huniq : ∀ {t' p'}, Parent D now k t' p' → t' = t ∧ p' = p :=
      fun hp' => Query.parent_unique hp' hp
    have hne : ¬(t = .string ∨ t = .int) → ∀ {t' p'}, Parent D now k t' p' →
        ¬(t' = .string ∨ t' = .int) := fun ht t' p' hp' => by rwa [(huniq hp').1]
    cases t with
    | string | int =>
      rw [view_scalar_iff hq hq' hp (by simp) ho.key_le]
      constructor
      · intro h
        refine ⟨fun hno => absurd ho hno, fun _ hp' _ hv => h ((huniq hp').2 ▸ hv), ?_, ?_, ?_⟩
        · intro t' p' _ hp' ht'
          rw [(huniq hp').1] at ht'
          exact absurd ht' (by simp)
        · exact fun _ hp' => absurd (huniq hp').1 (by simp)
        · exact fun _ hp' => absurd (huniq hp').1 (by simp)
      · exact fun h => h.null ho.key_le hp (by simp)
    | hash =>
      rw [view_hash_iff hq hq' ho hp ho.key_le hs]
      constructor
      · intro h
        refine ⟨fun hno => absurd ho hno, fun _ hp' ht' => absurd ht' (hne (by simp) hp'),
          fun _ hp' _ hx e he hexp => (h e he hexp).1 ((huniq hp').2 ▸ hx), ?_, ?_⟩
        · exact fun _ _ e h' he hexp hh => (h e he hexp).2 h' hh
        · exact fun _ hp' => absurd (huniq hp').1 (by simp)
      · intro h e he hexp
        exact ⟨fun hx => h.expiry ho hp (.inl rfl) hx e he hexp,
          fun h' hh => h.fields ho hp e h' he hexp hh⟩
    | list =>
      rw [view_list_iff hq hq' ho hp ho.key_le hs]
      constructor
      · intro h
        refine ⟨fun hno => absurd ho hno, fun _ hp' ht' => absurd ht' (hne (by simp) hp'),
          fun _ hp' _ hx e he hexp => (h e he hexp).1 ((huniq hp').2 ▸ hx), ?_, ?_⟩
        · exact fun _ hp' => absurd (huniq hp').1 (by simp)
        · exact fun _ _ e l he hexp hl => (h e he hexp).2 l hl
      · intro h e he hexp
        exact ⟨fun hx => h.expiry ho hp (.inr rfl) hx e he hexp,
          fun l hl => h.nodes ho hp e l he hexp hl⟩
  · -- The load does not touch the key, which a new backend does not have.
    rw [Session.view, Session.view, lookup_load_of_not_offered hq s ho,
      lookup_load_of_not_offered hq' init ho]
    constructor
    · intro h
      have hnone : s.store.lookup k = none := by simpa [init] using h
      rw [hnone]
      exact ⟨fun _ => rfl, fun _ _ _ _ e he => absurd he (by simp),
        fun ho' => absurd ho' ho, fun ho' => absurd ho' ho, fun ho' => absurd ho' ho⟩
    · intro h
      rw [h.gone ho]
      rfl

end

/-! ## The reload -/

namespace Session

variable {D : Tables} {q : Query} {now : ℤ}

/-- A new backend loads values that fit the types of their entries. -/
theorem wellTyped_load_init (hq : q.Selects D now) : (init.load now q).WellTyped := by
  intro k e he
  have hinit : ∀ e, init.store.lookup k = some e → e.content.isSome :=
    fun e h => absurd h (by simp [init])
  by_cases ho : Offered D now k
  · obtain ⟨t, p, hp⟩ := ho.parent
    cases t with
    | string | int =>
      rw [lookup_load_scalar hq init hp (by simp), scalarCell,
        if_neg (Nat.not_lt.2 ho.key_le)] at he
      cases hv : p.value <;>
        simp only [Entry.loadScalar, hv, Option.some.injEq, Option.map_eq_some_iff] at he
      · subst he
        rfl
      · obtain ⟨x, -, rfl⟩ := he
        rfl
    | hash =>
      rw [lookup_load_hash hq init hp ho.key_le, Collection.foldl_cell hp.alive
        (fieldRows_ne_nil hq hp ho) (expireAt_fieldRows hq hp) (holds_hashes hinit),
        Option.some.injEq] at he
      subst he
      rfl
    | list =>
      rw [lookup_load_list hq init hp ho.key_le, Collection.foldl_cell hp.alive
        (itemRows_ne_nil hq hp ho) (expireAt_itemRows hq hp) (holds_lists hinit),
        Option.some.injEq] at he
      subst he
      rfl
  · rw [lookup_load_of_not_offered hq init ho] at he
    exact hinit e he

/-- The load of the row frees an integer. -/
def frees (now : ℤ) (r : LoadRow ValueType) (o : Option Entry) : Bool :=
  r.key.length ≤ maxKeySize && (Entry.fresh.loadScalar r).isNone &&
    Entry.wild { (upserted now o).1 with type := r.item }

theorem crashed_loadScalar (s : Session) (r : LoadRow ValueType) :
    (s.loadScalar now r).crashed = (s.crashed || frees now r (s.store.lookup r.key)) := by
  rw [frees]
  by_cases hlen : r.key.length > maxKeySize
  · rw [Session.loadScalar, if_pos hlen, decide_eq_false (Nat.not_le.2 hlen)]
    simp
  · rw [Nat.not_lt] at hlen
    cases hr : (upserted now (s.store.lookup r.key)).1.loadScalar r with
    | none =>
      have hbad : Entry.fresh.loadScalar r = none := Entry.loadScalar_eq_none_iff.1 hr
      rw [loadScalar_of_none hlen hbad, crashed_remove_put, decide_eq_true hlen, hbad]
      rfl
    | some e =>
      have hfresh : (Entry.fresh.loadScalar r).isNone = false := by
        rw [Option.isNone_eq_false_iff, Option.isSome_iff_ne_none]
        intro h
        rw [Entry.loadScalar_eq_none_iff.1 h] at hr
        exact absurd hr (by simp)
      rw [loadScalar_of_some hlen hr, crashed_put, hfresh]
      simp

/-- Every key has one row at most, so each row finds the entry from before the load. -/
theorem crashed_loadScalars : ∀ (rows : List (LoadRow ValueType)) (s : Session),
    (rows.map LoadRow.key).Nodup → (rows.foldl (Session.loadScalar now) s).crashed =
      (s.crashed || rows.any fun r => frees now r (s.store.lookup r.key))
  | [], s, _ => (Bool.or_false _).symm
  | r :: rows, s, h => by
    rw [List.map_cons, List.nodup_cons] at h
    have hrest : (rows.any fun r' => frees now r' ((s.loadScalar now r).store.lookup r'.key)) =
        rows.any fun r' => frees now r' (s.store.lookup r'.key) := by
      rw [Bool.eq_iff_iff, List.any_eq_true, List.any_eq_true]
      refine exists_congr fun r' => and_congr_right fun hr' => ?_
      have hne : r'.key ≠ r.key := fun heq => h.1 (List.mem_map.2 ⟨r', hr', heq⟩)
      rw [lookup_loadScalar, if_neg hne]
    rw [List.foldl_cons, crashed_loadScalars rows _ h.2, crashed_loadScalar, List.any_cons,
      Bool.or_assoc, hrest]

theorem crashed_load (hq : q.Selects D now) (s : Session) : (s.load now q).crashed =
    (s.crashed || q.scalars.any fun r => frees now r (s.store.lookup r.key)) := by
  have hfield : ∀ (s : Session) (r : LoadRow Field),
      (s.loadField now r).crashed = s.crashed := by
    intro s r
    rw [Session.loadField]
    split_ifs
    · rfl
    · rfl
    · exact crashed_upsert _ _ _
  have hitem : ∀ (s : Session) (r : LoadRow ℤ), (s.loadItem now r).crashed = s.crashed := by
    intro s r
    rw [Session.loadItem]
    split_ifs
    · rfl
    · exact crashed_upsert _ _ _
  rw [Session.load, foldl_keeps hitem, foldl_keeps hfield,
    crashed_loadScalars _ _ hq.scalars_nodup]

theorem wild_string_iff {e : Entry} :
    Entry.wild { e with type := .string } = true ↔ ∃ i, e.value = .word i ∧ i ≠ 0 := by
  obtain ⟨type, value, x, v, d⟩ := e
  cases value <;> simp [Entry.wild]

/-- The union of an entry that fits its type is a word other than zero in integers
    only. -/
theorem word_iff_int {e : Entry} (he : e.content.isSome) {i : ℤ} (hi : i ≠ 0) :
    e.value = .word i ↔ e.content = some (.int i) := by
  rw [Entry.content] at he ⊢
  constructor
  · intro hv
    split at he <;> simp_all
  · intro h
    split at h <;> simp_all

/-- A row frees an integer exactly if it is that of a string, does not decode, and
    finds an integer other than zero. -/
theorem frees_iff {r : LoadRow ValueType} {o : Option Entry}
    (ho : ∀ e, o = some e → e.content.isSome) (hr : r.item = .string ∨ r.item = .int) :
    frees now r o = true ↔ (r.key.length ≤ maxKeySize ∧ r.item = .string ∧
      ∃ raw, r.value = some raw ∧ decodeString raw = none) ∧
      ∃ e i, o = some e ∧ e.isExpired now = false ∧ e.content = some (.int i) ∧ i ≠ 0 := by
  have hlive : (∃ i, (upserted now o).1.value = .word i ∧ i ≠ 0) ↔
      ∃ e i, o = some e ∧ e.isExpired now = false ∧ e.content = some (.int i) ∧ i ≠ 0 := by
    cases o with
    | none => simp [upserted, Entry.fresh, Payload.null]
    | some e =>
      cases hexp : e.isExpired now with
      | true => simp [upserted, Entry.fresh, Payload.null, hexp]
      | false =>
        rw [upserted_some hexp]
        constructor
        · rintro ⟨i, hv, hi⟩
          exact ⟨e, i, rfl, hexp, (word_iff_int (ho e rfl) hi).1 hv, hi⟩
        · rintro ⟨_, i, ⟨⟩, -, hv, hi⟩
          exact ⟨i, (word_iff_int (ho e rfl) hi).2 hv, hi⟩
  obtain ⟨key, item, value, x⟩ := r
  rcases hr with rfl | rfl
  · cases value with
    | none => simp [frees, Entry.loadScalar]
    | some raw => simp [frees, Entry.loadScalar, wild_string_iff, hlive, and_assoc]
  · simp [frees, Entry.wild]

/-- An abort keeps the values. -/
theorem WellTyped.abort {s : Session} (hs : s.WellTyped) : s.abort.WellTyped := by
  intro k e he
  rw [Session.abort] at he
  simp only [Htab.lookup_mapValues, Option.map_eq_some_iff] at he
  obtain ⟨e', he', rfl⟩ := he
  split_ifs
  · exact hs k e' he'
  · exact hs k e' he'

/-- The load does not crash exactly if it frees no integer under any key. -/
theorem crashed_load_iff (hq : q.Selects D now) {s : Session} (hs : s.WellTyped) :
    (s.load now q).crashed = false ↔ s.crashed = false ∧ ∀ k p raw, k.length ≤ maxKeySize →
      Parent D now k .string p → p.value = some raw → decodeString raw = none →
      ∀ e i, s.store.lookup k = some e → e.isExpired now = false →
        e.content = some (.int i) → i = 0 := by
  rw [crashed_load hq, Bool.or_eq_false_iff, List.any_eq_false]
  refine and_congr_right fun _ => ⟨fun h k p raw hk hp hv hraw e i he hexp hi => ?_, ?_⟩
  · by_contra hne
    have hr : (⟨k, .string, p.value, p.expireAt⟩ : LoadRow ValueType) ∈ q.scalars :=
      (hq.mem_scalars _).2 ⟨.inl rfl, p, hp, rfl, rfl⟩
    exact h _ hr ((frees_iff (hs k) (.inl rfl)).2
      ⟨⟨hk, rfl, raw, hv, hraw⟩, e, i, he, hexp, hi, hne⟩)
  · intro h r hr hfrees
    obtain ⟨hitem, p, hp, -, hval⟩ := (hq.mem_scalars r).1 hr
    obtain ⟨⟨hk, ht, raw, hv, hraw⟩, e, i, he, hexp, hi, hne⟩ :=
      (frees_iff (hs r.key) hitem).1 hfrees
    exact hne (h r.key p raw hk (ht ▸ hp) (hval.trans hv) hraw e i he hexp hi)

/-- The first load and the calls crash nothing; the load after the abort may. -/
theorem crashed_reload_iff {D : Tables} {now₀ now : ℤ} {q₀ q₁ : Query} (h₀ : q₀.Selects D now₀)
    (h₁ : q₁.Selects D now) (cs : List Call) :
    (((init.loadIfNeeded now₀ q₀).calls cs).abort.loadIfNeeded now q₁).crashed = false ↔
      ∀ k p raw, k.length ≤ maxKeySize → Parent D now k .string p → p.value = some raw →
        decodeString raw = none → ∀ e i,
        ((init.loadIfNeeded now₀ q₀).calls cs).abort.store.lookup k = some e →
          e.isExpired now = false → e.content = some (.int i) → i = 0 := by
  have htyped : (init.loadIfNeeded now₀ q₀).WellTyped := wellTyped_load_init h₀
  have hbefore : ((init.loadIfNeeded now₀ q₀).calls cs).abort.crashed = false :=
    (htyped.crashed_calls cs).trans ((crashed_load_iff h₀ wellTyped_init).2
      ⟨rfl, fun _ _ _ _ _ _ _ _ _ he => absurd he (by simp [init])⟩)
  exact (crashed_load_iff h₁ (htyped.calls cs).abort).trans (and_iff_right hbefore)

/-- A backend loads the tables, runs calls in a transaction that aborts, and loads
    again: it does not crash and its keyspace is that of a new backend exactly if the
    load replaces what is left of every key and frees no integer. -/
theorem reload_eq_iff {D : Tables} {now₀ now : ℤ} {q₀ q₁ q : Query} (h₀ : q₀.Selects D now₀)
    (h₁ : q₁.Selects D now) (h : q.Selects D now) (cs : List Call) :
    ((((init.loadIfNeeded now₀ q₀).calls cs).abort.loadIfNeeded now q₁).crashed = false ∧
      ∀ k, (((init.loadIfNeeded now₀ q₀).calls cs).abort.loadIfNeeded now q₁).view k =
        (init.loadIfNeeded now q).view k) ↔
    ∀ k, Reloads D now k (((init.loadIfNeeded now₀ q₀).calls cs).abort.store.lookup k) := by
  have htyped : (init.loadIfNeeded now₀ q₀).WellTyped := wellTyped_load_init h₀
  have hview := fun k => view_load_iff (k := k) h₁ h ((htyped.calls cs).abort k)
  rw [crashed_reload_iff h₀ h₁]
  constructor
  · rintro ⟨hc, hv⟩ k
    exact ⟨(hview k).1 (hv k), hc k⟩
  · intro hk
    exact ⟨fun k => (hk k).int, fun k => (hview k).2 (hk k).toResyncs⟩

theorem reloads_stringTables (e : Entry) (k : Key) :
    Reloads stringTables 0 k ((AList.singleton [107] e : Htab Key Entry).lookup k) := by
  have hscalar : ∀ {t p}, Parent stringTables 0 k t p → t = .string ∧ p.value.isSome := by
    rintro t p hp
    obtain ⟨-, rfl, rfl⟩ := parent_stringTables.1 hp
    exact ⟨rfl, rfl⟩
  refine ⟨⟨fun hno => ?_, fun _ hp _ hv => ?_, fun _ hp ht => ?_, fun _ hp => ?_, fun _ hp => ?_⟩,
    fun p raw _ hp hv hraw => ?_⟩
  · by_cases hk : k = [107]
    · refine absurd (Offered.scalar ?_ (parent_stringTables.2 ⟨hk, rfl, rfl⟩) (.inl rfl)) hno
      rw [hk]
      decide
    · exact AList.lookup_eq_none.2 fun h => hk (by simpa [AList.mem_keys] using h)
  · have hsome := (hscalar hp).2
    rw [hv] at hsome
    exact absurd hsome (by simp)
  · rw [(hscalar hp).1] at ht
    exact absurd ht (by simp)
  · exact absurd (hscalar hp).1 (by simp)
  · exact absurd (hscalar hp).1 (by simp)
  · -- The row holds an encoded string.
    obtain ⟨-, -, rfl⟩ := parent_stringTables.1 hp
    obtain rfl := Option.some.inj hv
    exact absurd hraw (by decide)

/-- A string is set anew in a transaction that aborts: the load gives the old value
    back. -/
theorem reload_string :
    (((init.loadIfNeeded 0 stringQuery).calls
      [⟨⟨1024, 1048576⟩, 0, 0, .set [107] [119]⟩]).abort.loadIfNeeded 0 stringQuery).crashed =
        false ∧
    ∀ k, (((init.loadIfNeeded 0 stringQuery).calls
      [⟨⟨1024, 1048576⟩, 0, 0, .set [107] [119]⟩]).abort.loadIfNeeded 0 stringQuery).view k =
        (init.loadIfNeeded 0 stringQuery).view k := by
  refine (reload_eq_iff (selects_stringQuery 0) (selects_stringQuery 0)
    (selects_stringQuery 0) [⟨⟨1024, 1048576⟩, 0, 0, .set [107] [119]⟩]).2 fun k => ?_
  obtain ⟨e, he⟩ : ∃ e, (((init.loadIfNeeded 0 stringQuery).calls
      [⟨⟨1024, 1048576⟩, 0, 0, .set [107] [119]⟩]).abort.store) = AList.singleton [107] e :=
    ⟨_, rfl⟩
  rw [he]
  exact reloads_stringTables e k

/-- The row of `k` does not decode as a string: the first load takes the key out, and
    `INCR k` makes an integer of it. After an abort the load frees the integer. -/
example : (((init.loadIfNeeded 0 (.oneKey .string [107] ⟨.known .string, some [1], none, 2⟩ []
    [])).calls [⟨⟨1024, 1048576⟩, 0, 0, .incr [107]⟩]).abort.loadIfNeeded 0
      (.oneKey .string [107] ⟨.known .string, some [1], none, 2⟩ [] [])).crashed = true :=
  rfl

/-- A list of one item is read in a transaction that aborts: the load appends the item
    to the one that is there. -/
theorem reload_duplicates_list :
    ¬∀ (D : Tables) (now₀ now : ℤ) (q₀ q₁ q : Query), q₀.Selects D now₀ → q₁.Selects D now →
      q.Selects D now → ∀ (cs : List Call) (k : Key),
        (((init.loadIfNeeded now₀ q₀).calls cs).abort.loadIfNeeded now q₁).view k =
          (init.loadIfNeeded now q).view k := by
  intro h
  have h107 := h listTables 0 0 listQuery listQuery listQuery (selects_listQuery 0)
    (selects_listQuery 0) (selects_listQuery 0) [⟨⟨1024, 1048576⟩, 0, 0, .llen [107]⟩] [107]
  have hlist : (ValueType.list, Look.list [[118], [118]], (none : Option ℤ)) =
      (.list, .list [[118]], none) := Option.some.inj h107
  exact absurd hlist (by simp)

end Session

end PgRedis
