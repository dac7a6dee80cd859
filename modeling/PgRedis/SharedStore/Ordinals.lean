import PgRedis.Lib.Run
import PgRedis.SharedStore.Command

/-!
# The ordinals of shared lists

A command on a list gives a pushed element an ordinal on its copy of the list, and the
event it publishes carries that ordinal; a popped element is deleted under the ordinal
it has in shared memory. But writing the copy back numbers the list in shared memory
anew, from zero. Rows and list agree only as long as nothing shifts the numbers.

A `Mirror` is the shared keyspace together with the tables to which all events are
applied, one at a time. `ordinals_stable_iff` shows along which runs the ordinals agree:
those in which no element is put before another (an `LPUSH` goes to an empty list) and
none is taken from before another (an `LPOP` takes the only element). Along such runs
every insertion finds its ordinal free, every deletion hits the row of the element
popped, and the rows in order are the list. A third `LPUSH` already violates the
primary key (`third_lpush_is_stuck`).
-/

namespace PgRedis

open Lib

/-- The shared keyspace, and the tables with every event applied; an error when one of
    them could not be. -/
structure Mirror where
  store : SharedStore
  tables : Except SqlError Tables

/-- A command on a list, with the settings and the reading of the clock it is run with,
    and which of its allocations succeed. -/
structure ListCall where
  lim : Limits
  now : ℤ
  ok : StoreSite → Bool
  cmd : ListCommand

namespace Mirror

variable (hashBytes : Bytes → UInt32)

/-- An empty keyspace over empty tables. -/
def init (d : Dsa) : Mirror := ⟨⟨d, ∅⟩, .ok .empty⟩

/-- A call on the keyspace: the keyspace, the events and the reply. -/
def exec (m : Mirror) (a : ListCall) :
    SharedStore × List DirtyEvent × Except SharedCommandError Reply :=
  m.store.execList hashBytes a.ok a.lim a.now a.cmd

/-- A call, and its events applied to the tables. -/
def step (m : Mirror) (a : ListCall) : Mirror :=
  ⟨(m.exec hashBytes a).1, m.tables >>= replay (m.exec hashBytes a).2.1⟩

/-- The step as one of a labelled system in which every call is enabled. -/
def next (m : Mirror) (a : ListCall) : Option Mirror := some (m.step hashBytes a)

/-! ## Properties -/

/-- The ordinals and values of the lists in shared memory are those of the rows. -/
def Aligned (m : Mirror) : Prop :=
  ∃ D, m.tables = .ok D ∧ ∀ k o v, D.listItems k o = some v ↔
    ∃ n ∈ (m.store.list k).nodes, n.ord = o ∧ some n.bytes = v

/-- The rows of every list, in the order of their ordinals, hold its values. -/
def Exact (m : Mirror) : Prop :=
  ∃ D, m.tables = .ok D ∧ ∀ k, InOrder (D.listItems k) (m.store.list k).values

/-- The row at one end of the rows of a list. -/
structure EndRow (rows : ℤ → Option (Option Bytes)) (side : Side) (o : ℤ) (v : Bytes) : Prop where
  row : rows o = some (some v)
  last : ∀ o', (rows o').isSome → match side with
    | .left => o ≤ o'
    | .right => o' ≤ o

/-- The events of a call fit the tables: an item is inserted where there is none, and
    the one deleted is the row of the element that the call pops. -/
structure Faithful (m : Mirror) (a : ListCall) : Prop where
  inserts : ∀ k o v, .listItemInsert k o v ∈ (m.exec hashBytes a).2.1 →
    ∃ D, m.tables = .ok D ∧ D.listItems k o = none
  deletes : ∀ k o, .listItemDelete k o ∈ (m.exec hashBytes a).2.1 →
    ∃ D side v, m.tables = .ok D ∧ a.cmd = .pop side k ∧
      (m.exec hashBytes a).2.2 = .ok (.text (some v)) ∧ EndRow (D.listItems k) side o v

/-- The command does not shift the numbers of the list: it puts no element before
    another and takes none from before another. -/
def Unshifted (m : Mirror) : ListCommand → Prop
  | .push .left key _ => (m.store.list key).nodes = []
  | .pop .left key => (m.store.list key).nodes.length ≤ 1
  | _ => True

/-- The call is rejected, or it has enough memory and does not shift the numbers. -/
def Safe (m : Mirror) (a : ListCall) : Prop :=
  a.cmd.toCommand.check a.lim = .ok () → (∀ site, a.ok site = true) ∧ m.Unshifted a.cmd

end Mirror

/-! ## Rows counted from zero -/

/-- The rows of values counted from zero. -/
def rowsOf (vs : List Bytes) (o : ℤ) : Option (Option Bytes) :=
  if 0 ≤ o then vs[o.toNat]?.map some else none

theorem rowsOf_of_neg {vs : List Bytes} {o : ℤ} (h : o < 0) : rowsOf vs o = none :=
  if_neg (Int.not_le.2 h)

theorem rowsOf_natCast (vs : List Bytes) (i : ℕ) : rowsOf vs i = vs[i]?.map some := by
  rw [rowsOf, if_pos (Int.natCast_nonneg i), Int.toNat_natCast]

theorem isSome_rowsOf {vs : List Bytes} {o : ℤ} :
    (rowsOf vs o).isSome ↔ 0 ≤ o ∧ o < vs.length := by
  rcases lt_or_ge o 0 with h | h
  · rw [rowsOf_of_neg h]
    exact iff_of_false (by simp) fun h' => absurd h (Int.not_lt.2 h'.1)
  · obtain ⟨i, rfl⟩ := Int.eq_ofNat_of_zero_le h
    rw [rowsOf_natCast, Option.isSome_map]
    simp

theorem rowsOf_append (vs : List Bytes) (v : Bytes) (o : ℤ) :
    rowsOf (vs ++ [v]) o = if o = vs.length then some (some v) else rowsOf vs o := by
  rcases lt_or_ge o 0 with h | h
  · rw [rowsOf_of_neg h, rowsOf_of_neg h, if_neg (by omega)]
  · obtain ⟨i, rfl⟩ := Int.eq_ofNat_of_zero_le h
    rw [rowsOf_natCast, rowsOf_natCast]
    by_cases hi : i = vs.length
    · subst hi
      simp
    · rw [if_neg (by exact_mod_cast hi), List.getElem?_append]
      split_ifs with hlt
      · rfl
      · rw [List.getElem?_eq_none (by simp; omega), List.getElem?_eq_none (by omega)]

theorem inOrder_rowsOf (vs : List Bytes) : InOrder (rowsOf vs) vs := by
  refine ⟨(List.range vs.length).map Int.ofNat, ?_, fun o => ?_, ?_⟩
  · exact List.pairwise_map.2 (List.pairwise_lt_range.imp fun h => Int.ofNat_lt.2 h)
  · rw [isSome_rowsOf, List.mem_map]
    constructor
    · rintro ⟨i, hi, rfl⟩
      have := List.mem_range.1 hi
      exact ⟨Int.natCast_nonneg i, Int.ofNat_lt.2 this⟩
    · rintro ⟨h₁, h₂⟩
      exact ⟨o.toNat, List.mem_range.2 (by omega), Int.toNat_of_nonneg h₁⟩
  · apply List.ext_getElem (by simp)
    intro i h₁ h₂
    simp [rowsOf_natCast, h₁]

/-- The nodes of a numbered list are the rows of its values. -/
theorem SharedList.Numbered.rowsOf_iff {l : SharedList} (h : l.Numbered) {o : ℤ}
    {v : Option Bytes} :
    rowsOf l.values o = some v ↔ ∃ n ∈ l.nodes, n.ord = o ∧ some n.bytes = v := by
  have hord : ∀ (i : ℕ) (n : SharedNode), l.nodes[i]? = some n → n.ord = i := by
    intro i n hi
    obtain ⟨hlen, rfl⟩ := List.getElem?_eq_some_iff.1 hi
    have hget := congrArg (fun ords : List ℤ => ords[i]?) h.ords
    simpa [hlen] using hget
  constructor
  · intro hv
    have hsome : (rowsOf l.values o).isSome := by rw [hv]; rfl
    obtain ⟨i, rfl⟩ := Int.eq_ofNat_of_zero_le (isSome_rowsOf.1 hsome).1
    rw [rowsOf_natCast, SharedList.values, List.getElem?_map, Option.map_map] at hv
    obtain ⟨n, hn, hb⟩ := Option.map_eq_some_iff.1 hv
    exact ⟨n, List.mem_of_getElem? hn, hord i n hn, hb⟩
  · rintro ⟨n, hn, rfl, rfl⟩
    obtain ⟨i, hi⟩ := List.getElem?_of_mem hn
    rw [hord i n hi, rowsOf_natCast, SharedList.values, List.getElem?_map, hi]
    rfl

/-! ## The events applied -/

section

variable {D : Tables} {key : Key}

/-- The event of a parent row: the items stay, and the key has a row. -/
theorem asyncDrain_upsertEvent (e : Entry) (key : Key) (D : Tables) :
    ∃ D', asyncDrain [e.upsertEvent key] D = .ok D' ∧ (D'.store key).isSome ∧
      D'.listItems = D.listItems := by
  obtain ⟨D', h⟩ := @exists_executePlans (dispatch [e.upsertEvent key]) D
    ⟨List.forall_mem_nil _, List.forall_mem_nil _, List.nodup_nil, List.forall_mem_nil _⟩
  have hrows := asyncDrain_singleton h
  refine ⟨D', h, ?_, ?_⟩
  · rw [hrows.store, replayed_cons, replayed_nil, Entry.upsertEvent, storeCell, if_pos rfl]
    rfl
  · funext k o
    rw [hrows.listItems]
    rfl

/-- The events of a push applied, where there is no item of its ordinal. -/
theorem replay_insert (e : Entry) {o : ℤ} (v : Bytes) (h : D.listItems key o = none) :
    ∃ D', replay [e.upsertEvent key, .listItemInsert key o v] D = .ok D' ∧
      ∀ k o', D'.listItems k o' =
        if (key, o) = (k, o') then some (some v) else D.listItems k o' := by
  obtain ⟨D₁, h₁, hstore, hitems⟩ := asyncDrain_upsertEvent e key D
  obtain ⟨D₂, h₂⟩ := @exists_executePlans (dispatch [.listItemInsert key o v]) D₁
    ⟨List.forall_mem_nil _, List.forall_mem_singleton.2 hstore, List.nodup_singleton _,
      List.forall_mem_singleton.2 fun _ => hitems ▸ h⟩
  refine ⟨D₂, bind_eq_ok_iff.2 ⟨D₁, h₁, bind_eq_ok_iff.2 ⟨D₂, h₂, rfl⟩⟩, fun k o' => ?_⟩
  rw [(asyncDrain_singleton h₂).listItems, replayed_cons, replayed_nil, itemCell, hitems]
  split_ifs <;> rfl

/-- The events of a pop applied. -/
theorem replay_delete (e : Entry) (key : Key) (o : ℤ) (D : Tables) :
    ∃ D', replay [e.upsertEvent key, .listItemDelete key o] D = .ok D' ∧
      ∀ k o', D'.listItems k o' = if (key, o) = (k, o') then none else D.listItems k o' := by
  obtain ⟨D₁, h₁, hstore, hitems⟩ := asyncDrain_upsertEvent e key D
  obtain ⟨D₂, h₂⟩ := @exists_executePlans (dispatch [.listItemDelete key o]) D₁
    ⟨List.forall_mem_nil _, List.forall_mem_nil _, List.nodup_nil, List.forall_mem_nil _⟩
  refine ⟨D₂, bind_eq_ok_iff.2 ⟨D₁, h₁, bind_eq_ok_iff.2 ⟨D₂, h₂, rfl⟩⟩, fun k o' => ?_⟩
  rw [(asyncDrain_singleton h₂).listItems, replayed_cons, replayed_nil, itemCell, hitems]
  split_ifs <;> rfl

end

/-! ## The invariant -/

namespace SharedStore

variable {S S' : SharedStore} {k : Key}

theorem list_congr (h : S'.entries.lookup k = S.entries.lookup k) : S'.list k = S.list k := by
  rw [list, list, h]

theorem HoldsList.congr (hk : S.HoldsList k) (h : S'.entries.lookup k = S.entries.lookup k) :
    S'.HoldsList k := by
  rw [HoldsList, h]
  exact hk

end SharedStore

namespace Mirror

variable {hashBytes : Bytes → UInt32} {m : Mirror} {a : ListCall}

/-- All keys hold lists, and the rows of each list are counted from zero. -/
structure Inv (m : Mirror) : Prop where
  holds : ∀ k, m.store.HoldsList k
  rows : ∃ D, m.tables = .ok D ∧ ∀ k o, D.listItems k o = rowsOf (m.store.list k).values o

theorem inv_init (d : Dsa) : (init d).Inv := by
  refine ⟨fun k => .inl rfl, .empty, rfl, fun k o => ?_⟩
  rw [rowsOf]
  split_ifs <;> rfl

theorem Inv.aligned (h : m.Inv) : m.Aligned := by
  obtain ⟨D, hD, hrows⟩ := h.rows
  refine ⟨D, hD, fun k o v => ?_⟩
  rw [hrows]
  exact (h.holds k).numbered.rowsOf_iff

theorem Inv.exact (h : m.Inv) : m.Exact := by
  obtain ⟨D, hD, hrows⟩ := h.rows
  refine ⟨D, hD, fun k => ?_⟩
  rw [funext (hrows k)]
  exact inOrder_rowsOf _

/-- One list changed, and its rows in one place. -/
theorem Inv.update {S' : SharedStore} {D D' : Tables} {key : Key} {o : ℤ}
    {x : Option (Option Bytes)} (h : m.Inv) (hD : m.tables = .ok D)
    (hholds : S'.HoldsList key) (hframe : ∀ k ≠ key, S'.entries.lookup k = m.store.entries.lookup k)
    (hitems : ∀ k o', D'.listItems k o' = if (key, o) = (k, o') then x else D.listItems k o')
    (hvals : ∀ o', rowsOf (S'.list key).values o' =
      if o' = o then x else rowsOf (m.store.list key).values o') :
    Inv ⟨S', .ok D'⟩ := by
  obtain ⟨D₀, hD₀, hrows⟩ := h.rows
  obtain rfl := Except.ok.inj (hD.symm.trans hD₀)
  refine ⟨fun k => ?_, D', rfl, fun k o' => ?_⟩
  · by_cases hk : k = key
    · exact hk ▸ hholds
    · exact (h.holds k).congr (hframe k hk)
  · rw [hitems, hrows]
    by_cases hk : k = key
    · subst hk
      simp only [hvals, Prod.mk.injEq, true_and, eq_comm]
    · rw [if_neg fun he => hk (Prod.mk.inj he).1.symm, SharedStore.list_congr (hframe k hk)]

/-- A push that does not shift numbers appends, under the next number. -/
theorem pushOrd_of_unshifted {side : Side} {key : Key} {value : Bytes}
    (h : m.Unshifted (.push side key value)) :
    (m.store.list key).pushOrd side = (m.store.list key).values.length ∧
      ListValue.atEnd (clip value) (m.store.list key).values side =
        (m.store.list key).values ++ [clip value] := by
  rw [SharedList.values, List.length_map]
  cases side with
  | left =>
    have hnil : (m.store.list key).nodes = [] := h
    simp [SharedList.pushOrd, ListValue.atEnd, hnil]
  | right => exact ⟨rfl, rfl⟩

/-- A pop that does not shift numbers takes the last element. -/
theorem popOrd_of_unshifted {side : Side} {key : Key} {v : Bytes} {vs : List Bytes}
    (h : m.Unshifted (.pop side key))
    (hvals : (m.store.list key).values = ListValue.atEnd v vs side) :
    (m.store.list key).popOrd side = vs.length ∧ (m.store.list key).values = vs ++ [v] ∧
      (side = .left → vs = []) := by
  have hlen : (m.store.list key).nodes.length = vs.length + 1 := by
    rw [← List.length_map SharedNode.bytes, ← SharedList.values, hvals]
    cases side <;> simp [ListValue.atEnd]
  cases side with
  | left =>
    have hle : (m.store.list key).nodes.length ≤ 1 := h
    obtain rfl : vs = [] := List.length_eq_zero_iff.1 (by omega)
    exact ⟨rfl, hvals, fun _ => rfl⟩
  | right =>
    refine ⟨?_, hvals, by simp⟩
    rw [SharedList.popOrd, hlen]
    omega

/-- The last of the rows counted from zero, also the first if there is no other. -/
theorem endRow_rowsOf {vs : List Bytes} {v : Bytes} {side : Side} (h : side = .left → vs = []) :
    EndRow (rowsOf (vs ++ [v])) side vs.length v := by
  refine ⟨by rw [rowsOf_append, if_pos rfl], fun o' ho' => ?_⟩
  rw [isSome_rowsOf, List.length_append, List.length_singleton] at ho'
  cases side with
  | left =>
    rw [h rfl]
    exact ho'.1
  | right =>
    show o' ≤ vs.length
    omega

theorem step_of_exec {x : SharedStore × List DirtyEvent × Except SharedCommandError Reply}
    {D : Tables} (hx : m.exec hashBytes a = x) (hD : m.tables = .ok D) :
    m.step hashBytes a = ⟨x.1, replay x.2.1 D⟩ := by
  rw [step, hx, hD]
  rfl

/-- What a call with enough memory does. -/
theorem Inv.ran (h : m.Inv) (hashBytes : Bytes → UInt32)
    (hok : a.cmd.toCommand.check a.lim = .ok () → ∀ site, a.ok site = true) :
    ∃ x, m.exec hashBytes a = x ∧ SharedStore.Ran a.lim m.store a.cmd x :=
  ⟨_, rfl, SharedStore.execList_ran h.holds hok⟩

/-- A safe call keeps the invariant, and its events fit the tables. -/
theorem inv_step (h : m.Inv) (hsafe : m.Safe a) :
    (m.step hashBytes a).Inv ∧ Faithful hashBytes m a := by
  obtain ⟨D, hD, hrows⟩ := h.rows
  obtain ⟨x, hx, hran⟩ := h.ran hashBytes fun hc => (hsafe hc).1
  rw [step_of_exec hx hD]
  obtain ⟨lim, now, ok, cmd⟩ := a
  cases hran with
  | idle _ r reason =>
    refine ⟨?_, fun k o v hev => ?_, fun k o hev => ?_⟩
    · rw [replay, ← hD]
      exact h
    · rw [hx] at hev
      exact absurd hev List.not_mem_nil
    · rw [hx] at hev
      exact absurd hev List.not_mem_nil
  | push side key value S' e r checked holds values frame =>
    -- The element comes last, under the number that the list has next.
    obtain ⟨hord, happ⟩ := pushOrd_of_unshifted (hsafe checked).2
    have hfree : D.listItems key ((m.store.list key).pushOrd side) = none := by
      rw [hrows, hord, rowsOf_natCast, List.getElem?_eq_none le_rfl]
      rfl
    obtain ⟨D', hD', hitems⟩ := replay_insert e (clip value) hfree
    refine ⟨?_, fun k o v hev => ?_, fun k o hev => ?_⟩
    · rw [hD']
      refine h.update hD holds frame hitems fun o' => ?_
      rw [values, happ, rowsOf_append, hord]
    · simp only [hx, Entry.upsertEvent, List.mem_cons, reduceCtorEq, List.not_mem_nil, or_false,
        false_or, DirtyEvent.listItemInsert.injEq] at hev
      obtain ⟨rfl, rfl, -⟩ := hev
      exact ⟨D, hD, hfree⟩
    · simp [hx, Entry.upsertEvent] at hev
  | pop side key S' e v checked holds values frame =>
    -- The element popped is the last, so no other changes its number.
    obtain ⟨hord, happ, hleft⟩ := popOrd_of_unshifted (hsafe checked).2 values
    obtain ⟨D', hD', hitems⟩ := replay_delete e key ((m.store.list key).popOrd side) D
    refine ⟨?_, fun k o v hev => ?_, fun k o hev => ?_⟩
    · rw [hD']
      refine h.update hD holds frame hitems fun o' => ?_
      rw [happ, rowsOf_append, hord]
      split_ifs with ho
      · rw [ho, rowsOf_natCast, List.getElem?_eq_none le_rfl]
        rfl
      · rfl
    · simp [hx, Entry.upsertEvent] at hev
    · simp only [hx, Entry.upsertEvent, List.mem_cons, reduceCtorEq, List.not_mem_nil, or_false,
        false_or, DirtyEvent.listItemDelete.injEq] at hev
      obtain ⟨rfl, rfl⟩ := hev
      refine ⟨D, side, v, hD, rfl, by rw [hx], ?_⟩
      rw [funext (hrows k), hord, happ]
      exact endRow_rowsOf hleft

/-- Aligned tables hold the rows of a numbered list counted from zero. -/
theorem Aligned.rows (h : m.Aligned) {D : Tables} (hD : m.tables = .ok D) {k : Key}
    (hk : m.store.HoldsList k) (o : ℤ) : D.listItems k o = rowsOf (m.store.list k).values o := by
  obtain ⟨D₀, hD₀, hrows⟩ := h
  obtain rfl := Except.ok.inj (hD.symm.trans hD₀)
  exact Option.ext fun v => (hrows k o v).trans hk.numbered.rowsOf_iff.symm

/-- A call that shifts the numbers of a list misaligns its rows. -/
theorem not_aligned_step (h : m.Inv) (hok : ∀ site, a.ok site = true) (hno : ¬m.Safe a) :
    ¬(m.step hashBytes a).Aligned := by
  obtain ⟨D, hD, hrows⟩ := h.rows
  obtain ⟨x, hx, hran⟩ := h.ran hashBytes fun _ => hok
  rw [step_of_exec hx hD]
  obtain ⟨lim, now, ok, cmd⟩ := a
  obtain ⟨hcheck, hbad⟩ := Classical.not_imp.1 hno
  have hshift : ¬m.Unshifted cmd := fun hun => hbad ⟨hok, hun⟩
  intro haligned
  cases hran with
  | idle _ r reason =>
    obtain ⟨side, key, rfl, hnil⟩ := reason hcheck
    cases side with
    | left => exact hshift (show _ ≤ 1 by rw [hnil]; exact Nat.zero_le 1)
    | right => exact hshift trivial
  | push side key value S' e r checked holds values frame =>
    cases side with
    | right => exact hshift trivial
    | left =>
      -- The element gets the ordinal `-1`, but the number `0` in shared memory.
      have hord : (m.store.list key).pushOrd .left = -1 := if_neg hshift
      have hneg : ∀ vs, rowsOf vs (-1) = none := fun vs => rowsOf_of_neg (by decide)
      obtain ⟨D', hD', hitems⟩ := replay_insert e (clip value) ((hrows key (-1)).trans (hneg _))
      have hrow := haligned.rows (by rw [hord]; exact hD') holds (-1)
      rw [hitems, if_pos rfl] at hrow
      exact absurd (hrow.trans (hneg _)) (by simp)
  | pop side key S' e v checked holds values frame =>
    cases side with
    | right => exact hshift trivial
    | left =>
      -- The row `0` is deleted, but the element after it gets the number `0`.
      obtain ⟨D', hD', hitems⟩ := replay_delete e key 0 D
      have hrow := haligned.rows hD' holds 0
      rw [hitems, if_pos rfl] at hrow
      have hlen : 1 < (m.store.list key).nodes.length := Nat.lt_of_not_le hshift
      rw [← List.length_map SharedNode.bytes, ← SharedList.values, values, ListValue.atEnd,
        List.length_cons] at hlen
      have hsome : (rowsOf (S'.list key).values 0).isSome := isSome_rowsOf.2 ⟨le_rfl, by omega⟩
      rw [← hrow] at hsome
      exact absurd hsome (by simp)

/-- Along every run from empty tables whose calls are safe, every insertion finds its
    ordinal free, every deletion hits the row of the element popped, and the rows in
    order are the list. As long as there is enough memory, the runs whose calls are safe
    are those along which the ordinals in shared memory are those of the rows. -/
theorem ordinals_stable_iff (hashBytes : Bytes → UInt32) (d : Dsa) (as : List ListCall) :
    (Meets (next hashBytes) Safe (init d) as →
      Meets (next hashBytes) (Faithful hashBytes) (init d) as ∧
        Along (next hashBytes) Exact (init d) as) ∧
    ((∀ a ∈ as, ∀ site, a.ok site = true) →
      (Along (next hashBytes) Aligned (init d) as ↔ Meets (next hashBytes) Safe (init d) as)) := by
  have hkeep : ∀ m a m', Inv m → Safe m a → next hashBytes m a = some m' → Inv m' :=
    fun m a m' h hsafe hst => Option.some.inj hst ▸ (inv_step h hsafe).1
  refine ⟨fun hsafe => ⟨?_, ?_⟩, fun hok => ?_⟩
  · exact meets_of_meets hkeep (fun m a h hs => (inv_step h hs).2) (inv_init d) hsafe
  · exact along_of_meets hkeep (fun m h => h.exact) (inv_init d) hsafe
  · refine along_iff_meets (fun m h => h.aligned) (fun m a m' h _ => hkeep m a m' h)
      (fun m a m' h hok hno hst => ?_) as _ _ (meets_of_forall hok) (inv_init d)
      (run_some (step hashBytes) as _)
    exact Option.some.inj hst ▸ not_aligned_step h hok hno

/-- A call on the key `k` with the default settings and enough memory. -/
def onKey (c : Key → ListCommand) : ListCall := ⟨⟨1024, 1048576⟩, 0, enough, c [107]⟩

/-- `LPUSH k a`, `RPUSH k b`, `RPOP k`: no number is shifted. -/
theorem ordinals_stable_rpop :
    Along (next fun _ => 0) Exact (init ⟨0, []⟩) [onKey (.push .left · [97]),
      onKey (.push .right · [98]), onKey (.pop .right ·)] := by
  refine ((ordinals_stable_iff _ _ _).1 ?_).2
  exact ⟨fun _ => ⟨fun _ => rfl, rfl⟩, fun _ _ => ⟨fun _ => ⟨fun _ => rfl, trivial⟩,
    fun _ _ => ⟨fun _ => ⟨fun _ => rfl, trivial⟩, fun _ _ => trivial⟩⟩⟩

/-- The state after two `LPUSH`es. -/
def twoPushed : Mirror :=
  ((init ⟨0, []⟩).step (fun _ => 0) (onKey (.push .left · [97]))).step (fun _ => 0)
    (onKey (.push .left · [98]))

/-- The third `LPUSH` on a key publishes the ordinal of the second. -/
theorem third_lpush_is_stuck :
    ¬∀ (hashBytes : Bytes → UInt32) (d : Dsa) (as : List ListCall),
      (∀ a ∈ as, ∀ site, a.ok site = true) →
        Meets (next hashBytes) (Faithful hashBytes) (init d) as ∧
          Along (next hashBytes) Exact (init d) as := by
  intro h
  obtain ⟨hm, -⟩ := h (fun _ => 0) ⟨0, []⟩ [onKey (.push .left · [97]),
    onKey (.push .left · [98]), onKey (.push .left · [99])] (by simp [onKey, enough])
  have hthird : Faithful (fun _ => 0) twoPushed (onKey (.push .left · [99])) :=
    ((hm.2 _ rfl).2 _ rfl).1
  obtain ⟨D, hD, hnone⟩ := hthird.inserts [107] (-1) [99] (by decide)
  have hrow : twoPushed.tables.toOption.bind (fun D => D.listItems [107] (-1)) =
      some (some [98]) := by decide
  rw [hD] at hrow
  exact absurd (hrow.symm.trans hnone) (by simp)

end Mirror

end PgRedis
