import PgRedis.Session.Cells
import PgRedis.Session.Exact
import PgRedis.Session.Isolation

/-!
# Restoring a keyspace

A new backend loads tables that hold exactly the rows of a keyspace. What the commands put
under a key is *regular* (`Cells.Regular`): keys and fields that the loaders do not skip,
strings and integers that the encoding gives back. So every key that has not expired is loaded
as it was, without deltas, with one exception: a hash or a list that has been emptied has a
parent row but no child rows, and the loaders of collections join the two. `restore_iff` shows
that the load is right exactly if there is no such key.
-/

namespace PgRedis

open Lib Session

/-! ## Regular cells -/

/-- A value that its rows give back. -/
def View.Regular : View → Prop
  | .str s => s ≠ none
  | .int i => Int.bmod i (2 ^ 64) = i
  | .hash m => ∀ f ∈ m, f.length ≤ maxFieldSize
  | .list _ => True

/-- Every key is short enough and holds such a value. -/
def Cells.Regular (K : Cells) : Prop :=
  ∀ k c, K k = some c → k.length ≤ maxKeySize ∧ c.value.Regular

namespace Cell

variable {P : View → Prop} {o : Option Cell} {c c' : Cell} {r : Reply} {now now' : ℤ}

/-- A command that edits an upserted cell. On a new one it cannot fail. -/
theorem keeps_update (key : Key) {g : Bool → Cell → Except EntryError (Cell × Reply)}
    (ho : ∀ c, o = some c → P c.value) (hnew : ∀ c err, g true c ≠ .error err)
    (hg : ∀ isNew c c' r, (isNew = false → P c.value) → g isNew c = .ok (c', r) → P c'.value)
    (h : (update .session now key g o).1 = some c) : P c.value := by
  rw [update] at h
  rcases upserted_cases now o with ⟨-, hup⟩ | ⟨c₀, hc₀, -, hup⟩ <;> rw [hup] at h <;>
    simp only at h
  · split at h
    · rename_i err herr
      exact absurd herr (hnew _ err)
    · rename_i c' r hok
      rw [← Option.some.inj h]
      exact hg true _ c' r (by simp) hok
  · split at h
    · rw [← Option.some.inj h]
      exact ho c₀ hc₀
    · rename_i c' r hok
      rw [← Option.some.inj h]
      exact hg false _ c' r (fun _ => ho c₀ hc₀) hok

/-- A command that reads or edits the cell it finds. -/
theorem keeps_query (key : Key) {missing : Reply}
    {g : Cell → Except EntryError (Option Cell × Reply)} (ho : ∀ c, o = some c → P c.value)
    (hg : ∀ c c' r, P c.value → g c = .ok (some c', r) → P c'.value)
    (h : (query .session now key missing g o).1 = some c) : P c.value := by
  rw [query] at h
  cases hfound : found now o with
  | none =>
    rw [hfound] at h
    exact absurd h (by simp)
  | some c₀ =>
    have hc₀ := ho c₀ (found_eq_some hfound).1
    rw [hfound] at h
    simp only at h
    split at h
    · rwa [← Option.some.inj h]
    · rwa [← Option.some.inj h]
    · rename_i c' r hok
      rw [← Option.some.inj h]
      exact hg c₀ c' r hc₀ hok

/-- What `P` has to say of the values that the command makes, for the command to keep it. -/
structure Keeps (P : View → Prop) (cmd : Command) : Prop where
  set : ∀ key value, cmd = .set key value → P (.str (some value))
  int : ∀ i, P (.int (Int.bmod i (2 ^ 64)))
  hashNew : P (.hash ∅)
  hset : ∀ key field value m, cmd = .hset key field value → P (.hash m) →
    P (.hash (m.insert field value))
  hdel : ∀ field m, P (.hash m) → P (.hash (m.erase field))
  listNew : P (.list [])
  push : ∀ side key value vs, cmd = .push side key value → P (.list vs) →
    P (.list (ListValue.atEnd value vs side))
  pop : ∀ side v vs vs', popped side vs = some (v, vs') → P (.list vs) → P (.list vs')

variable {cmd : Command}

theorem Keeps.incrdecr (hk : Keeps P cmd) (delta : ℤ) {isNew : Bool}
    (h : incrdecr delta isNew c = .ok (c', r)) : P c'.value := by
  rw [Cell.incrdecr] at h
  split at h
  · exact absurd h (by simp)
  · obtain ⟨rfl, -⟩ := Prod.mk.inj (Except.ok.inj h)
    exact hk.int _

theorem Keeps.ofHset (hk : Keeps P cmd) {key : Key} {field : Field} {value : Bytes}
    (hcmd : cmd = .hset key field value) {isNew : Bool} (hc : isNew = false → P c.value)
    (h : Cell.hset field value isNew c = .ok (c', r)) : P c'.value := by
  have hold : P (.hash (c.hashOrCreate isNew)) := by
    unfold hashOrCreate
    split
    · rename_i hm
      exact hm ▸ hc rfl
    · exact hk.hashNew
  rw [Cell.hset] at h
  split_ifs at h
  obtain ⟨rfl, -⟩ := Prod.mk.inj (Except.ok.inj h)
  exact hk.hset key field value _ hcmd hold

theorem Keeps.ofPush (hk : Keeps P cmd) {side : Side} {key : Key} {value : Bytes}
    (hcmd : cmd = .push side key value) {isNew : Bool} (hc : isNew = false → P c.value)
    (h : listPush side value isNew c = .ok (c', r)) : P c'.value := by
  have hold : P (.list (c.listOrCreate isNew)) := by
    unfold listOrCreate
    split
    · rename_i hvs
      exact hvs ▸ hc rfl
    · exact hk.listNew
  rw [listPush] at h
  split_ifs at h
  obtain ⟨rfl, -⟩ := Prod.mk.inj (Except.ok.inj h)
  exact hk.push side key value _ hcmd hold

theorem Keeps.ofHdel (hk : Keeps P cmd) {field : Field} (hc : P c.value)
    (h : Cell.hdel field c = .ok (some c', r)) : P c'.value := by
  rw [Cell.hdel, withHash] at h
  split at h
  · rename_i m hm
    obtain ⟨hmap, -⟩ := Prod.mk.inj (Except.ok.inj h)
    obtain ⟨m', hm', rfl⟩ := Option.map_eq_some_iff.1 hmap
    simp only [ite_eq_iff, Option.some.injEq, reduceCtorEq, and_false, or_false] at hm'
    rw [hm] at hc
    obtain ⟨-, rfl⟩ := hm'
    exact hk.hdel field m hc
  · exact absurd h (by simp)

theorem Keeps.ofPop (hk : Keeps P cmd) {side : Side} (hc : P c.value)
    (h : listPop side c = .ok (some c', r)) : P c'.value := by
  rw [listPop, withList] at h
  split at h
  · rename_i vs hvs
    obtain ⟨hmap, -⟩ := Prod.mk.inj (Except.ok.inj h)
    obtain ⟨vs', hvs', rfl⟩ := Option.map_eq_some_iff.1 hmap
    obtain ⟨⟨v, rest⟩, hpop, rfl⟩ := Option.map_eq_some_iff.1 hvs'
    rw [hvs] at hc
    exact hk.pop side v vs rest hpop hc
  · exact absurd h (by simp)

/-- The commands keep what their values have. -/
theorem perform_keeps (hk : Keeps P cmd) (ho : ∀ c, o = some c → P c.value)
    (h : (perform .session now now' o cmd).1 = some c) : P c.value := by
  -- A query that leaves the cell as it is has nothing to keep.
  have hnone : ∀ {g : Cell → Except EntryError (Option Cell × Reply)},
      (∀ c c' r, g c ≠ .ok (some c', r)) →
      ∀ c c' r, P c.value → g c = .ok (some c', r) → P c'.value :=
    fun hg c c' r _ hok => absurd hok (hg c c' r)
  cases cmd with
  | set key value =>
    refine keeps_update key (g := set value) ho (by simp [set]) (fun isNew c c' r _ hok => ?_) h
    obtain ⟨rfl, -⟩ := Prod.mk.inj (Except.ok.inj hok)
    exact hk.set key value rfl
  | incr key =>
    exact keeps_update key (g := incrdecr 1) ho (by simp [incrdecr, counter])
      (fun _ _ _ _ _ hok => hk.incrdecr 1 hok) h
  | decr key =>
    exact keeps_update key (g := incrdecr (-1)) ho (by simp [incrdecr, counter])
      (fun _ _ _ _ _ hok => hk.incrdecr (-1) hok) h
  | hset key field value =>
    exact keeps_update key (g := hset field value) ho (by simp [hset])
      (fun _ _ _ _ hc hok => hk.ofHset rfl hc hok) h
  | push side key value =>
    exact keeps_update key (g := listPush side value) ho (by simp [listPush])
      (fun _ _ _ _ hc hok => hk.ofPush rfl hc hok) h
  | get key => exact keeps_query key ho (hnone get_ne_some) h
  | exists? key =>
    exact keeps_query key ho
      (hnone fun _ _ _ hok => absurd (congrArg Prod.fst (Except.ok.inj hok)) (by simp)) h
  | hget key field => exact keeps_query key ho (hnone (withHash_ne_some _)) h
  | hexists key field => exact keeps_query key ho (hnone (withHash_ne_some _)) h
  | hdel key field => exact keeps_query key ho (fun _ _ _ hc hok => hk.ofHdel hc hok) h
  | pop side key => exact keeps_query key ho (fun _ _ _ hc hok => hk.ofPop hc hok) h
  | llen key => exact keeps_query key ho (hnone (withList_ne_some _)) h
  | del key => exact absurd h (by simp [perform])
  | expire key seconds =>
    rw [perform, expire] at h
    cases hfound : found now o with
    | none =>
      rw [hfound] at h
      exact absurd h (by simp)
    | some c₀ =>
      rw [hfound] at h
      simp only at h
      split_ifs at h
      rw [← Option.some.inj h]
      exact ho c₀ (found_eq_some hfound).1
  | ttl key =>
    rw [perform, ttl] at h
    cases hfound : found now o with
    | none =>
      rw [hfound] at h
      exact absurd h (by simp)
    | some c₀ =>
      rw [hfound] at h
      have hc₀ := ho c₀ (found_eq_some hfound).1
      simp only at h
      split at h
      · rwa [← Option.some.inj h]
      · split_ifs at h
        rwa [← Option.some.inj h]

/-- The commands keep cells regular. -/
theorem regular_perform {lim : Limits} (hcheck : cmd.check lim = .ok ())
    (ho : ∀ c, o = some c → c.value.Regular)
    (h : (perform .session now now' o cmd).1 = some c) : c.value.Regular := by
  refine perform_keeps (P := View.Regular) ?_ ho h
  exact
    { set := fun _ _ _ => by simp [View.Regular]
      int := fun _ => Int.bmod_bmod
      hashNew := fun _ hf => absurd hf Finmap.notMem_empty
      hset := fun key field value m hcmd hm f hf => by
        rcases Finmap.mem_insert.1 hf with rfl | hf
        · exact (Command.field_length_le hcheck (by rw [hcmd]; rfl)).2
        · exact hm f hf
      hdel := fun _ _ hm f hf => hm f (Finmap.mem_erase.1 hf).2
      listNew := trivial
      push := fun _ _ _ _ _ _ => trivial
      pop := fun _ _ _ _ _ _ => trivial }

end Cell

/-- The length of a key is checked first. -/
theorem Command.key_length_le {lim : Limits} {c : Command} (h : c.check lim = .ok ()) :
    c.key.length ≤ maxKeySize := by
  have hkey : ∀ {key : Key} {u : Unit}, checkKeyLen lim key = .ok u → key.length ≤ maxKeySize := by
    intro key u hk
    simp only [checkKeyLen] at hk
    split_ifs at hk with h0 hlim hmax hmax
    · omega
    · omega
  cases c <;> simp only [check, bind_eq_ok_iff] at h
  all_goals first
    | exact hkey h
    | exact hkey h.choose_spec.1

/-! ## Marks do not matter -/

namespace Entry

variable {e : Entry} {c : Cell}

theorem Shows.collect (h : e.Shows c) : e.collect.Shows c := by
  obtain ⟨type, value, x, n, b⟩ := e
  obtain ⟨ht, hv, hx⟩ := h
  cases type <;> cases value <;> first
    | exact ⟨ht, hv, hx⟩
    | skip
  case hash.hash h =>
    refine ⟨ht, ?_, hx⟩
    cases hc : c.value <;> rw [hc] at hv <;> simp only [Payload.Shows, Entry.collect] at hv ⊢
    intro f
    rw [Htab.lookup_mapValues, Option.map_map, ← hv f]
    rfl
  case list.list l =>
    refine ⟨ht, ?_, hx⟩
    cases hc : c.value <;> rw [hc] at hv <;> simp only [Payload.Shows, Entry.collect] at hv ⊢
    rw [List.map_map]
    exact hv

theorem Shows.clear (h : e.Shows c) : e.clear.Shows c := by
  obtain ⟨type, value, x, n, b⟩ := e
  obtain ⟨ht, hv, hx⟩ := h
  cases type <;> cases value <;> first
    | exact ⟨ht, hv, hx⟩
    | skip
  case hash.hash h =>
    refine ⟨ht, ?_, hx⟩
    cases hc : c.value <;> rw [hc] at hv <;> exact hv
  case list.list l =>
    refine ⟨ht, ?_, hx⟩
    cases hc : c.value <;> rw [hc] at hv <;> exact hv

theorem isSome_content_collect (h : e.content.isSome) : e.collect.content.isSome := by
  obtain ⟨type, value, x, n, b⟩ := e
  cases type <;> cases value <;> exact h

theorem isSome_content_clear (h : e.content.isSome) : e.clear.content.isSome := by
  obtain ⟨type, value, x, n, b⟩ := e
  cases type <;> cases value <;> exact h

end Entry

namespace Session

variable {s : Session} {K : Cells} {D : Tables}

theorem Shows.unique {K' : Cells} (h : s.Shows K) (h' : s.Shows K') : K = K' := by
  funext k
  have hk := h k
  have hk' := h' k
  revert hk hk'
  generalize s.store.lookup k = o, K k = a, K' k = a'
  rintro (⟨h⟩ | _) (⟨h'⟩ | _)
  · rw [h.unique h']
  · rfl

/-- Entries changed in their marks only. -/
theorem Shows.mapValues {f : Key → Entry → Entry} (hf : ∀ k e c, e.Shows c → (f k e).Shows c)
    (h : s.Shows K) {s' : Session} (hs : s'.store = s.store.mapValues f) : s'.Shows K := by
  intro k
  rw [hs, Htab.lookup_mapValues]
  have hk := h k
  revert hk
  generalize s.store.lookup k = o, K k = a
  rintro (⟨hec⟩ | _)
  · exact .some (hf k _ _ hec)
  · exact .none

theorem WellTyped.mapValues {f : Key → Entry → Entry}
    (hf : ∀ k e, e.content.isSome → (f k e).content.isSome) (h : s.WellTyped) {s' : Session}
    (hs : s'.store = s.store.mapValues f) : s'.WellTyped := by
  intro k e he
  rw [hs, Htab.lookup_mapValues] at he
  obtain ⟨e₀, he₀, rfl⟩ := Option.map_eq_some_iff.1 he
  exact hf k e₀ (h k e₀ he₀)

end Session

/-! ## One key -/

/-- A value of the server has less than a gigabyte. -/
def Tables.Fits (D : Tables) : Prop :=
  ∀ k p raw, D.store k = some p → p.value = some raw → raw.length < 2 ^ 30

/-- A collection without elements. -/
def View.Emptied (v : View) : Prop := v = .hash ∅ ∨ v = .list []

/-- An entry from which a flush would write nothing. -/
structure Entry.Settled (e : Entry) : Prop where
  unmarked : e.inDirtySet = false
  dirtyFields : e.dirtyFields = []
  tombstones : e.tombstones = []
  pendingInserts : e.pendingInserts = []
  pendingDeleteOrds : e.pendingDeleteOrds = []

namespace Entry

variable {e : Entry} {c : Cell}

/-- An entry of a hash that is no null pointer. -/
theorem Shows.content_hash (h : e.Shows c) (he : e.content.isSome)
    {m : Finmap fun _ : Field => Bytes} (hc : c.value = .hash m) :
    ∃ a, e.content = some (.hash a) ∧
      ∀ f, (a.fields.lookup f).map HashField.value = m.lookup f := by
  have hv := h.value
  have ht := h.type
  obtain ⟨type, value, x, n, b⟩ := e
  rw [hc] at hv ht
  obtain rfl : type = .hash := ht
  cases value <;> simp only [Payload.Shows] at hv
  · exact absurd he (by simp [content])
  · exact ⟨_, rfl, hv⟩

/-- An entry of a list that is no null pointer. -/
theorem Shows.content_list (h : e.Shows c) (he : e.content.isSome) {vs : List Bytes}
    (hc : c.value = .list vs) :
    ∃ l, e.content = some (.list l) ∧ l.nodes.map ListNode.value = vs := by
  have hv := h.value
  have ht := h.type
  obtain ⟨type, value, x, n, b⟩ := e
  rw [hc] at hv ht
  obtain rfl : type = .list := ht
  cases value <;> simp only [Payload.Shows] at hv
  · exact absurd he (by simp [content])
  · exact ⟨_, rfl, hv.1⟩

end Entry

/-- The rows of a collection in the place of no entry. -/
theorem Collection.foldl_cell_none {α C : Type} {a : Collection α C} {now : ℤ} {x : Option ℤ}
    (hx : Alive now x) {rows : List (LoadRow α)} (hne : rows ≠ [])
    (hrows : ∀ r ∈ rows, r.expireAt = x) :
    rows.foldl (a.cell now) none =
      some ⟨a.type, a.wrap (a.loadAll rows a.create), x, 1, false⟩ := by
  rw [foldl_cell hx hne hrows fun e he => absurd he (by simp)]
  simp [base, upserted, Entry.releaseValue, Entry.fresh]

namespace Session

variable {s : Session} {K : Cells} {D : Tables} {q : Query} {now : ℤ} {k : Key} {c : Cell}

/-- The row of a key that has not expired. -/
theorem exists_parent (hK : s.Shows K) (hD : s.Exact D) (hfound : Cell.found now (K k) = some c) :
    ∃ e p, s.store.lookup k = some e ∧ e.Shows c ∧ e.IsRow p ∧
      Parent D now k c.value.type p := by
  obtain ⟨hkey, hexp⟩ := Cell.found_eq_some hfound
  obtain ⟨e, hl, hec⟩ := hK.exists_entry hkey
  obtain ⟨p, hp, hrow⟩ := hD.present k e hl
  refine ⟨e, p, hl, hec, hrow, hp, hrow.1.trans (congrArg _ hec.type), fun t ht => ?_⟩
  rw [hrow.2.2, hec.expireAt] at ht
  rw [Cell.isExpired, ht] at hexp
  exact Int.not_le.1 (of_decide_eq_false hexp)

/-- No key is loaded that has expired or is not there. -/
theorem not_offered (hK : s.Shows K) (hD : s.Exact D) (hfound : Cell.found now (K k) = none) :
    ¬Offered D now k := by
  intro ho
  obtain ⟨t, p, hp⟩ := ho.parent
  rcases rel_cases (hK k) with ⟨hl, -⟩ | ⟨e, c, hl, hkey, hec⟩
  · exact absurd (hp.row.symm.trans (hD.absent k hl)) (by simp)
  · obtain ⟨p', hp', hrow⟩ := hD.present k e hl
    obtain rfl := Option.some.inj (hp.row.symm.trans hp')
    rw [hkey, Cell.found] at hfound
    split_ifs at hfound with hexp
    rw [Cell.isExpired] at hexp
    split at hexp
    · exact absurd hexp (by simp)
    · rename_i t' ht'
      have halive := hp.alive t' (hrow.2.2.trans (hec.expireAt.trans ht'))
      exact absurd halive (Int.not_lt.2 (of_decide_eq_true hexp))

/-- Nor is one whose collection has been emptied. -/
theorem not_offered_of_emptied (ht : s.WellTyped) (hK : s.Shows K) (hD : s.Exact D)
    (hfound : Cell.found now (K k) = some c) (hempty : c.value.Emptied) : ¬Offered D now k := by
  obtain ⟨e, p, hl, hec, -, hp⟩ := exists_parent hK hD hfound
  rcases hempty with hc | hc
  -- The parent row is there, but the inner join finds no row of a field or an item.
  · obtain ⟨h, hh, hfields⟩ := hec.content_hash (ht k e hl) hc
    have hrows := (hD.children k e _ hl hh).1
    rintro (⟨-, hp', ht'⟩ | ⟨-, hp', -, hf⟩ | ⟨-, hp', -⟩)
    · rw [(Query.parent_unique hp' hp).1, hc] at ht'
      exact absurd ht' (by simp [View.type])
    · rename_i f
      have hnone := hfields f
      rw [Finmap.lookup_empty, Option.map_eq_none_iff] at hnone
      rw [hrows, hnone] at hf
      exact absurd hf (by simp)
    · exact absurd ((Query.parent_unique hp' hp).1.trans (congrArg View.type hc))
        (by simp [View.type])
  · obtain ⟨l, hl', hnodes⟩ := hec.content_list (ht k e hl) hc
    have hrows := (hD.children k e _ hl hl').2.2
    rintro (⟨-, hp', ht'⟩ | ⟨-, hp', -, -⟩ | ⟨-, hp', ho⟩)
    · rw [(Query.parent_unique hp' hp).1, hc] at ht'
      exact absurd ht' (by simp [View.type])
    · exact absurd ((Query.parent_unique hp' hp).1.trans (congrArg View.type hc))
        (by simp [View.type])
    · obtain ⟨v, hv⟩ := Option.isSome_iff_exists.1 ho
      obtain ⟨n, hn, -⟩ := (hrows _ v).1 hv
      rw [List.map_eq_nil_iff.1 hnodes] at hn
      exact absurd hn (by simp)

/-- A string or an integer is decoded to what was encoded. -/
theorem load_scalar (hq : q.Selects D now) (hK : s.Shows K) (hreg : K.Regular) (hD : s.Exact D)
    (hfit : D.Fits) (hfound : Cell.found now (K k) = some c)
    (hc : c.value.type = .string ∨ c.value.type = .int) :
    ∃ e, (init.load now q).store.lookup k = some e ∧ e.Shows c ∧ e.Settled := by
  obtain ⟨e, p, -, hec, hrow, hp⟩ := exists_parent hK hD hfound
  obtain ⟨hlen, hval⟩ := hreg k c (Cell.found_eq_some hfound).1
  have hx : p.expireAt = c.expireAt := hrow.2.2.trans hec.expireAt
  have hcell : (init.load now q).store.lookup k =
      Entry.fresh.loadScalar ⟨k, c.value.type, e.encodeValue, c.expireAt⟩ := by
    rw [lookup_load_scalar hq init hp hc, scalarCell, if_neg (Nat.not_lt.2 hlen), hrow.2.1, hx]
    rfl
  have hraw : ∀ raw, e.encodeValue = some raw → raw.length < 2 ^ 30 := fun raw hraw =>
    hfit k p raw hp.row (hrow.2.1.trans hraw)
  rcases hec.cases with ⟨ht, ⟨x, he, hv⟩ | ⟨-, hv⟩⟩ | ⟨i, ht, he, hv⟩ | ⟨-, m, hv, -⟩ |
    ⟨-, vs, hv, -⟩ <;> rw [hv] at hc hval hcell
  · -- The length field has four bytes, enough for what fits a column.
    have henc : e.encodeValue = some (encodeString x) := by rw [Entry.encodeValue, ht, he]
    have hshort := hraw _ henc
    simp only [encodeString, List.cons_append, List.length_cons, List.length_append,
      length_putLe] at hshort
    rw [hcell, henc]
    simp only [View.type, Entry.loadScalar]
    rw [decodeString_encodeString (by omega)]
    exact ⟨_, rfl, ⟨by rw [hv]; rfl, by rw [hv]; rfl, rfl⟩, ⟨rfl, rfl, rfl, rfl, rfl⟩⟩
  · exact absurd rfl hval
  · have henc : e.encodeValue = some (encodeInt i) := by rw [Entry.encodeValue, ht, he]
    rw [hcell, henc]
    simp only [View.type, Entry.loadScalar]
    rw [decodeInt_encodeInt, show Int.bmod i (2 ^ 64) = i from hval]
    exact ⟨_, rfl, ⟨by rw [hv]; rfl, by rw [hv]; rfl, rfl⟩, ⟨rfl, rfl, rfl, rfl, rfl⟩⟩
  · exact absurd hc (by simp [View.type])
  · exact absurd hc (by simp [View.type])

/-- A hash is loaded with the fields of its rows. -/
theorem load_hash (hq : q.Selects D now) (ht : s.WellTyped) (hK : s.Shows K) (hreg : K.Regular)
    (hD : s.Exact D) (hfound : Cell.found now (K k) = some c)
    {m : Finmap fun _ : Field => Bytes} (hc : c.value = .hash m) (hne : m ≠ ∅) :
    ∃ e, (init.load now q).store.lookup k = some e ∧ e.Shows c ∧ e.Settled := by
  obtain ⟨e, p, hl, hec, hrow, hp⟩ := exists_parent hK hD hfound
  obtain ⟨hlen, hval⟩ := hreg k c (Cell.found_eq_some hfound).1
  obtain ⟨h, hh, hfields⟩ := hec.content_hash (ht k e hl) hc
  have hrows : ∀ f, D.hashFields k f = (h.fields.lookup f).map fun x => some x.value :=
    (hD.children k e _ hl hh).1
  rw [hc] at hp hval
  -- The load takes the fields of the map.
  have hloaded : ∀ f, loadedField D k f = m.lookup f := by
    intro f
    rw [loadedField, hrows, Option.map_map, ← hfields f]
    split_ifs with hf
    · rfl
    · have hnot : m.lookup f = none := Finmap.lookup_eq_none.2 fun hmem => hf (hval f hmem)
      rw [hfields f, hnot]
  -- The join finds the parent through any of its fields.
  obtain ⟨f, v, hv⟩ : ∃ f v, m.lookup f = some v := by
    by_contra hnot
    refine hne (Finmap.ext_lookup fun f => ?_)
    cases hv : m.lookup f with
    | none => rw [Finmap.lookup_empty]
    | some v => exact absurd ⟨f, v, hv⟩ hnot
  have ho : Offered D now k := by
    refine .hash hlen hp (hval f (Finmap.mem_of_lookup_eq_some hv)) ?_
    have hsome := hfields f
    rw [hv] at hsome
    obtain ⟨x, hx, -⟩ := Option.map_eq_some_iff.1 hsome
    rw [hrows, hx]
    rfl
  have hlook : (init.load now q).store.lookup k = some ⟨.hash,
      .hash (Collection.hashes.loadAll (q.fieldRows k) .create), p.expireAt, 1, false⟩ := by
    rw [lookup_load_hash hq init hp hlen]
    exact Collection.foldl_cell_none hp.alive (fieldRows_ne_nil hq hp ho)
      (expireAt_fieldRows hq hp)
  have hfield : ∀ f, ((Collection.hashes.loadAll (q.fieldRows k) .create).fields.lookup f) =
      (m.lookup f).map fun v => ⟨v, false⟩ := by
    intro f
    rw [Hash.lookup_loadAll hq.fieldRows_nodup (fieldRows_ne_nil hq hp ho), ← hloaded f,
      ← find_fieldRows hq hp f, Hash.fields_create, AList.lookup_empty, Option.map_none,
      Option.or_none, Option.map_map]
    rfl
  refine ⟨_, hlook, ⟨?_, ?_, hrow.2.2.trans hec.expireAt⟩, ⟨rfl, ?_, ?_, rfl, rfl⟩⟩
  · rw [hc]
    rfl
  · rw [hc]
    intro f
    rw [hfield f, Option.map_map]
    simp [Function.comp_def]
  · rw [List.eq_nil_iff_forall_not_mem]
    rintro ⟨f, v⟩ hmem
    rw [mem_dirtyFields rfl, hfield f] at hmem
    obtain ⟨v', -, hfalse⟩ := Option.map_eq_some_iff.1 hmem
    exact absurd hfalse (by simp)
  · exact Hash.tombstones_loadAll

/-- The rows of a list are its nodes in their order. -/
theorem itemRows_of_exact (hq : q.Selects D now) {p : StoreRow} (hp : Parent D now k .list p)
    {l : ListValue} (hsorted : l.nodes.Pairwise fun n m => n.ord < m.ord)
    (hrows : ∀ o v, D.listItems k o = some v ↔ ∃ n ∈ l.nodes, n.ord = o ∧ v = some n.value) :
    q.itemRows k = l.nodes.map fun n => ⟨k, n.ord, some n.value, p.expireAt⟩ := by
  have hsorted' : (l.nodes.map fun n => (⟨k, n.ord, some n.value, p.expireAt⟩ : LoadRow ℤ)).Pairwise
      fun r r' => r.item < r'.item := List.pairwise_map.2 hsorted
  have hnd : ∀ {rows : List (LoadRow ℤ)}, rows.Pairwise (fun r r' => r.item < r'.item) →
      rows.Nodup := fun h => h.imp fun hlt heq => Int.ne_of_lt hlt (congrArg LoadRow.item heq)
  -- Both are sorted by strictly growing ordinals and hold the same rows.
  refine List.Perm.eq_of_pairwise (fun r r' _ _ h h' => absurd h' (Int.not_lt.2 (Int.le_of_lt h)))
    hq.itemRows_sorted hsorted'
    ((List.perm_ext_iff_of_nodup (hnd hq.itemRows_sorted) (hnd hsorted')).2 fun r => ?_)
  rw [hq.mem_itemRows, List.mem_map]
  constructor
  · rintro ⟨rfl, p', hp', hx, hrow⟩
    obtain ⟨n, hn, ho, hv⟩ := (hrows _ _).1 hrow
    obtain ⟨key, item, value, x⟩ := r
    obtain rfl : n.ord = item := ho
    obtain rfl : value = some n.value := hv
    obtain rfl : p'.expireAt = x := hx
    exact ⟨n, hn, by rw [(Query.parent_unique hp hp').2]⟩
  · rintro ⟨n, hn, rfl⟩
    exact ⟨rfl, p, hp, rfl, (hrows _ _).2 ⟨n, hn, rfl, rfl⟩⟩

/-- A list is loaded with the items of its rows. -/
theorem load_list (hq : q.Selects D now) (ht : s.WellTyped) (hK : s.Shows K) (hreg : K.Regular)
    (hD : s.Exact D) (hfound : Cell.found now (K k) = some c) {vs : List Bytes}
    (hc : c.value = .list vs) (hne : vs ≠ []) :
    ∃ e, (init.load now q).store.lookup k = some e ∧ e.Shows c ∧ e.Settled := by
  obtain ⟨e, p, hl, hec, hrow, hp⟩ := exists_parent hK hD hfound
  obtain ⟨hlen, -⟩ := hreg k c (Cell.found_eq_some hfound).1
  obtain ⟨l, hl', hnodes⟩ := hec.content_list (ht k e hl) hc
  obtain ⟨-, hsorted, hrows⟩ := hD.children k e _ hl hl'
  rw [hc] at hp
  have hitems := itemRows_of_exact hq hp hsorted hrows
  have hrows_ne : q.itemRows k ≠ [] := by
    rw [hitems, Ne, List.map_eq_nil_iff, ← List.map_eq_nil_iff, hnodes]
    exact hne
  have hlook : (init.load now q).store.lookup k = some ⟨.list,
      .list (Collection.lists.loadAll (q.itemRows k) .create), p.expireAt, 1, false⟩ := by
    rw [lookup_load_list hq init hp hlen]
    exact Collection.foldl_cell_none hp.alive hrows_ne (expireAt_itemRows hq hp)
  refine ⟨_, hlook, ⟨?_, ?_, hrow.2.2.trans hec.expireAt⟩, ⟨rfl, rfl, rfl, ?_, ?_⟩⟩
  · rw [hc]
    rfl
  · rw [hc]
    refine ⟨?_, ?_⟩
    · rw [ListValue.nodes_loadAll, hitems, ← hnodes, List.map_append, List.map_map, List.map_map]
      rfl
    · rw [ListValue.length_loadAll, hitems, ← hnodes, List.length_map, List.length_map]
      exact Int.zero_add _
  · rw [List.eq_nil_iff_forall_not_mem]
    rintro ⟨o, v⟩ hmem
    rw [mem_pendingInserts rfl, ListValue.nodes_loadAll] at hmem
    obtain ⟨r, -, hr⟩ := List.mem_map.1 hmem
    exact absurd (congrArg ListNode.pendingInsert hr) (by simp [ListValue.ofRow])
  · exact ListValue.pendingDeleteOrds_loadAll

/-! ## The keyspace -/

/-- A keyspace from which a flush would write nothing. -/
structure Settled (s : Session) : Prop where
  dirty : s.dirty = []
  pendingDeletes : s.pendingDeletes = []
  entry : ∀ k e, s.store.lookup k = some e → e.Settled

/-- What a new backend finds under a key: what was there, unless it has been emptied. -/
theorem load_cases (hq : q.Selects D now) (ht : s.WellTyped) (hK : s.Shows K) (hreg : K.Regular)
    (hD : s.Exact D) (hfit : D.Fits) (k : Key) :
    (init.load now q).store.lookup k = none ∧
      (∀ c, Cell.found now (K k) = some c → c.value.Emptied) ∨
    ∃ c e, Cell.found now (K k) = some c ∧ ¬c.value.Emptied ∧
      (init.load now q).store.lookup k = some e ∧ e.Shows c ∧ e.Settled := by
  cases hfound : Cell.found now (K k) with
  | none =>
    refine .inl ⟨?_, by simp⟩
    rw [lookup_load_of_not_offered hq init (not_offered hK hD hfound)]
    rfl
  | some c =>
    by_cases hempty : c.value.Emptied
    · refine .inl ⟨?_, fun c' hc' => Option.some.inj hc' ▸ hempty⟩
      rw [lookup_load_of_not_offered hq init (not_offered_of_emptied ht hK hD hfound hempty)]
      rfl
    · suffices hload : ∃ e, (init.load now q).store.lookup k = some e ∧ e.Shows c ∧ e.Settled by
        obtain ⟨e, he, hec, hset⟩ := hload
        exact .inr ⟨c, e, rfl, hempty, he, hec, hset⟩
      cases hc : c.value with
      | str x => exact load_scalar hq hK hreg hD hfit hfound (.inl (by rw [hc]; rfl))
      | int i => exact load_scalar hq hK hreg hD hfit hfound (.inr (by rw [hc]; rfl))
      | hash m =>
        exact load_hash hq ht hK hreg hD hfound hc fun hm => hempty (.inl (by rw [hc, hm]))
      | list vs =>
        exact load_list hq ht hK hreg hD hfound hc fun hvs => hempty (.inr (by rw [hc, hvs]))

/-- The load of exact rows leaves no deltas. -/
theorem settled_load (hq : q.Selects D now) (ht : s.WellTyped) (hK : s.Shows K) (hreg : K.Regular)
    (hD : s.Exact D) (hfit : D.Fits) : (init.load now q).Settled where
  dirty := (unmarked_init.load q).dirty
  pendingDeletes := by
    rw [List.eq_nil_iff_forall_not_mem]
    intro k hk
    rcases (mem_pendingDeletes_load q).1 hk with hk | ⟨r, hr, -, -, hlen, hbad⟩
    · exact absurd hk (by simp [init])
    · -- The row is that of a key that is there.
      obtain ⟨hitem, p, hp, hx, hv⟩ := (hq.mem_scalars r).1 hr
      have hnone : (init.load now q).store.lookup r.key = none := by
        rw [lookup_load_scalar hq init hp hitem, scalarCell, if_neg (Nat.not_lt.2 hlen), hv, hx]
        exact hbad
      have ho : Offered D now r.key := .scalar hlen hp hitem
      rcases load_cases hq ht hK hreg hD hfit r.key with ⟨-, hempty⟩ | ⟨c, e, -, -, he, -⟩
      · cases hfound : Cell.found now (K r.key) with
        | none => exact not_offered hK hD hfound ho
        | some c => exact not_offered_of_emptied ht hK hD hfound (hempty c hfound) ho
      · exact absurd (hnone.symm.trans he) (by simp)
  entry k e he := by
    rcases load_cases hq ht hK hreg hD hfit k with ⟨hnone, -⟩ | ⟨c, e', -, -, he', -, hset⟩
    · exact absurd (hnone.symm.trans he) (by simp)
    · exact Option.some.inj (he'.symm.trans he) ▸ hset

/-- The keyspaces that commands reach: with commits, whether they succeed or not, with aborts,
    and in new backends that load what another has left. -/
inductive Reached : Session → Prop
  | init : Reached init
  | call {s : Session} (a : Call) : Reached s → Reached (s.call a)
  | flush {s : Session} (D : Tables) : Reached s → Reached (s.runFlush D).1
  | abort {s : Session} : Reached s → Reached s.abort
  | load {s : Session} {D : Tables} {q : Query} {now : ℤ} : Reached s → s.Exact D → D.Fits →
      q.Selects D now → Reached (Session.init.load now q)

theorem Shows.abort (h : s.Shows K) : s.abort.Shows K := by
  refine h.mapValues (f := fun k e => if k ∈ s.dirty then { e with inDirtySet := false } else e)
    (fun k e c hec => ?_) rfl
  split_ifs
  · exact ⟨hec.type, hec.value, hec.expireAt⟩
  · exact hec

theorem Shows.mapEntries {ks : List Key} {f : Entry → Entry} (hf : ∀ e c, e.Shows c → (f e).Shows c)
    (h : s.Shows K) : (s.mapEntries ks f).Shows K := by
  refine h.mapValues (f := fun k e => if k ∈ ks then f e else e) (fun k e c hec => ?_) rfl
  split_ifs
  · exact hf e c hec
  · exact hec

theorem WellTyped.mapEntries {ks : List Key} {f : Entry → Entry}
    (hf : ∀ e, e.content.isSome → (f e).content.isSome) (h : s.WellTyped) :
    (s.mapEntries ks f).WellTyped := by
  refine h.mapValues (f := fun k e => if k ∈ ks then f e else e) (fun k e he => ?_) rfl
  split_ifs
  · exact hf e he
  · exact he

theorem Shows.runFlush (h : s.Shows K) (D : Tables) : (s.runFlush D).1.Shows K := by
  have htaken : (s.mapEntries s.dirty Entry.collect).Shows K :=
    h.mapEntries fun _ _ hec => hec.collect
  rw [Session.runFlush]
  split
  · exact htaken
  · exact Shows.mapEntries (fun _ _ hec => hec.clear) htaken

theorem WellTyped.runFlush (h : s.WellTyped) (D : Tables) : (s.runFlush D).1.WellTyped := by
  have htaken : (s.mapEntries s.dirty Entry.collect).WellTyped :=
    h.mapEntries fun _ he => Entry.isSome_content_collect he
  rw [Session.runFlush]
  split
  · exact htaken
  · exact WellTyped.mapEntries (fun _ he => Entry.isSome_content_clear he) htaken

theorem Shows.call (h : s.Shows K) (ht : s.WellTyped) (hreg : K.Regular) (a : Call) :
    ∃ K' : Cells, (s.call a).Shows K' ∧ K'.Regular := by
  rw [Session.call, exec]
  cases hcheck : a.cmd.check a.lim with
  | error err => exact ⟨K, h, hreg⟩
  | ok u =>
    refine ⟨_, (perform_shows h ht hcheck a.now a.now').2, fun k c hc => ?_⟩
    by_cases hk : k = a.cmd.key
    · rw [hk, Function.update_self] at hc
      exact ⟨hk ▸ Command.key_length_le hcheck,
        Cell.regular_perform hcheck (fun c hc => (hreg _ c hc).2) hc⟩
    · rw [Function.update_of_ne hk] at hc
      exact hreg k c hc

/-- What they hold is regular. -/
theorem Reached.regular (h : Reached s) :
    s.WellTyped ∧ ∃ K : Cells, s.Shows K ∧ K.Regular := by
  induction h with
  | init =>
    exact ⟨fun _ _ h => absurd h (by simp [Session.init]), _, shows_init,
      fun _ _ h => absurd h (by simp)⟩
  | call a _ ih =>
    obtain ⟨ht, K, hK, hreg⟩ := ih
    exact ⟨ht.call a, hK.call ht hreg a⟩
  | flush D _ ih =>
    obtain ⟨ht, K, hK, hreg⟩ := ih
    exact ⟨ht.runFlush D, K, hK.runFlush D, hreg⟩
  | abort _ ih =>
    obtain ⟨ht, K, hK, hreg⟩ := ih
    exact ⟨ht.abort, K, hK.abort, hreg⟩
  | load _ hD hfit hq ih =>
    obtain ⟨ht, K, hK, hreg⟩ := ih
    rename_i s D q now _
    refine ⟨wellTyped_load_init hq,
      fun k => ((Session.init.load now q).store.lookup k).bind fun _ => Cell.found now (K k),
      fun k => ?_, fun k c hc => ?_⟩
    · rcases load_cases hq ht hK hreg hD hfit k with ⟨hnone, -⟩ | ⟨c, e, hfound, -, he, hec, -⟩
      · simp only [hnone, Option.bind_none]
        exact .none
      · simp only [he, hfound, Option.bind_some]
        exact .some hec
    · obtain ⟨e, -, hfound⟩ := Option.bind_eq_some_iff.1 hc
      exact hreg k c (Cell.found_eq_some hfound).1

/-- For every keyspace that commands reach, all tables that hold exactly its rows and every
    result of the queries on them: a new backend loads exactly the keys that have not expired,
    with their values and expiries, and without deltas, if and only if none of these is an
    emptied hash or list. -/
theorem restore_iff (h : Reached s) (hK : s.Shows K) (hD : s.Exact D) (hfit : D.Fits)
    (hq : q.Selects D now) :
    ((init.load now q).Shows (fun k => Cell.found now (K k)) ∧ (init.load now q).Settled) ↔
      ∀ k x, Cell.found now (K k) ≠ some ⟨.hash ∅, x⟩ ∧
        Cell.found now (K k) ≠ some ⟨.list [], x⟩ := by
  obtain ⟨ht, K', hK', hreg⟩ := h.regular
  obtain rfl := hK'.unique hK
  have hcases := load_cases hq ht hK hreg hD hfit
  constructor
  · rintro ⟨hshows, -⟩
    have hno : ∀ k c, Cell.found now (K' k) = some c → ¬c.value.Emptied := by
      intro k c hfound hempty
      rcases hcases k with ⟨hnone, -⟩ | ⟨c', e, hfound', hne, -⟩
      · have hk : Option.Rel Entry.Shows _ (Cell.found now (K' k)) := hshows k
        rw [hnone, hfound] at hk
        exact absurd hk (by simp)
      · exact hne (Option.some.inj (hfound.symm.trans hfound') ▸ hempty)
    exact fun k x => ⟨fun hfound => hno k _ hfound (.inl rfl),
      fun hfound => hno k _ hfound (.inr rfl)⟩
  · intro hne
    refine ⟨fun k => ?_, settled_load hq ht hK hreg hD hfit⟩
    rcases hcases k with ⟨hnone, hempty⟩ | ⟨c, e, hfound, -, he, hec, -⟩
    · cases hfound : Cell.found now (K' k) with
      | none =>
        simp only [hnone, hfound]
        exact .none
      | some c =>
        obtain ⟨v, x⟩ := c
        rcases hempty _ hfound with hv | hv <;> obtain rfl := hv
        · exact absurd hfound (hne k x).1
        · exact absurd hfound (hne k x).2
    · simp only [he, hfound]
      exact .some hec

/-- The rows of a keyspace of one key. -/
theorem exact_oneKey {key : Key} {e : Entry} {p : StoreRow} {v : Value}
    {fields : List (Field × Bytes)} {items : List (ℤ × Bytes)}
    (hs : s.store = (∅ : Htab Key Entry).insert key e) (hrow : e.IsRow p)
    (hv : e.content = some v) (hrows : v.ExactRows (rowAt fields) (rowAt items)) :
    s.Exact (.oneKey key p fields items) := by
  have hlook : ∀ k, s.store.lookup k = if k = key then some e else none := fun k => by
    rw [hs, Htab.lookup_insert_eq, AList.lookup_empty]
  refine ⟨fun k hk => ?_, fun k e' hk => ?_, fun k e' v' hk hv' => ?_⟩ <;> rw [hlook] at hk <;>
    split_ifs at hk with heq
  · exact if_neg heq
  · obtain rfl := Option.some.inj hk
    exact ⟨p, if_pos heq, hrow⟩
  · obtain rfl := Option.some.inj hk
    obtain rfl := Option.some.inj (hv.symm.trans hv')
    have hf : (Tables.oneKey key p fields items).hashFields k = rowAt fields :=
      funext fun f => if_pos heq
    have hi : (Tables.oneKey key p fields items).listItems k = rowAt items :=
      funext fun o => if_pos heq
    rwa [hf, hi]

theorem fits_oneKey {key : Key} {p : StoreRow} {fields : List (Field × Bytes)}
    {items : List (ℤ × Bytes)} (hp : ∀ raw, p.value = some raw → raw.length < 2 ^ 30) :
    (Tables.oneKey key p fields items).Fits := by
  intro k p' raw hp' hraw
  simp only [Tables.oneKey] at hp'
  split_ifs at hp'
  exact hp raw (Option.some.inj hp' ▸ hraw)

/-- A hash with one field is restored. -/
theorem restore_field :
    let s := init.call (callNow (.hset [107] [97] [49]))
    ∃ K, s.Shows K ∧ s.Exact hashTables ∧
      (init.load 0 hashQuery).Shows (fun k => Cell.found 0 (K k)) ∧
      (init.load 0 hashQuery).Settled := by
  intro s
  have hreached : Reached s := .call _ .init
  obtain ⟨-, K, hK, -⟩ := hreached.regular
  obtain ⟨e, h, hs, hcontent, hfields, hrow⟩ : ∃ e h,
      s.store = (∅ : Htab Key Entry).insert [107] e ∧ e.content = some (.hash h) ∧
      h.fields = (∅ : Htab Field HashField).insert [97] ⟨[49], true⟩ ∧ e.IsRow hashRow :=
    ⟨_, _, rfl, rfl, rfl, rfl, rfl, rfl⟩
  have hexact : s.Exact hashTables := by
    refine exact_oneKey hs hrow hcontent ⟨fun f => ?_, fun _ => rfl⟩
    rw [hfields, Htab.lookup_insert_eq, AList.lookup_empty]
    split_ifs with hf
    · rw [hf]
      rfl
    · exact rowAt_eq_none (by simpa using hf)
  refine ⟨K, hK, hexact, (restore_iff hreached hK hexact ?_ (selects_hashQuery 0)).2 ?_⟩
  · exact fits_oneKey fun raw hraw => absurd hraw (by simp [hashRow])
  · -- Only the one key is there, and its hash has the field.
    suffices hne : ∀ k c, Cell.found 0 (K k) = some c → ¬c.value.Emptied from
      fun k x => ⟨fun h => hne k _ h (.inl rfl), fun h => hne k _ h (.inr rfl)⟩
    intro k c hfound hempty
    obtain ⟨e', p, hl, hec, -, -⟩ := exists_parent hK hexact hfound
    rw [hs, Htab.lookup_insert_eq, AList.lookup_empty] at hl
    split_ifs at hl
    obtain rfl := Option.some.inj hl
    rcases hempty with hc | hc
    · obtain ⟨h', hh', hm⟩ := hec.content_hash (by rw [hcontent]; rfl) hc
      obtain rfl := Value.hash.inj (Option.some.inj (hcontent.symm.trans hh'))
      have hnone := hm [97]
      rw [hfields, AList.lookup_insert, Finmap.lookup_empty] at hnone
      exact absurd hnone (by simp)
    · obtain ⟨l, hl, -⟩ := hec.content_list (by rw [hcontent]; rfl) hc
      exact absurd (hcontent.symm.trans hl) (by simp)

/-- A hash whose only field is deleted is there, and is not restored. -/
theorem restore_loses_emptied : ¬∀ (s : Session) (K : Cells) (D : Tables) (q : Query) (now : ℤ),
    Reached s → s.Shows K → s.Exact D → D.Fits → q.Selects D now →
    (init.load now q).Shows (fun k => Cell.found now (K k)) ∧ (init.load now q).Settled := by
  intro hall
  have hreached : Reached ((init.call (callNow (.hset [107] [97] [49]))).call
    (callNow (.hdel [107] [97]))) := .call _ (.call _ .init)
  obtain ⟨-, K, hK, -⟩ := hreached.regular
  have hexact : ((init.call (callNow (.hset [107] [97] [49]))).call
      (callNow (.hdel [107] [97]))).Exact (.oneKey [107] hashRow [] []) :=
    exact_oneKey rfl ⟨rfl, rfl, rfl⟩ rfl ⟨fun _ => rfl, fun _ => rfl⟩
  obtain ⟨hshows, -⟩ := hall _ K _ (.oneKey .hash [107] hashRow [] []) 0 hreached hK hexact
    (fits_oneKey fun raw hraw => absurd hraw (by simp [hashRow]))
    (selects_oneKey rfl alive_none List.nodup_nil .nil)
  have hload : Option.Rel Entry.Shows none (Cell.found 0 (K [107])) := hshows [107]
  obtain ⟨e, he, hx⟩ : ∃ e, ((init.call (callNow (.hset [107] [97] [49]))).call
      (callNow (.hdel [107] [97]))).store.lookup [107] = some e ∧ e.expireAt = none :=
    ⟨_, rfl, rfl⟩
  obtain ⟨c, hc, hec⟩ := hK.eq_some he
  rw [hc, Cell.found, Cell.isExpired, ← hec.expireAt, hx] at hload
  exact absurd hload (by simp)

end Session

end PgRedis
