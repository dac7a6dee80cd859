import PgRedis.SharedStore.Sections

/-!
# Interleaved commands

Between the two locked sections of a command any section of another backend may run.
`Sections` is the system of any number of backends that run the commands of
`PgRedis.SharedStore.Sections` on one key, section by section.

Nothing holds two commands apart. Of two `INCR` that copy the same integer one is lost
(`incr_lost`), and the *placeholder* an upsert makes of a missing or expired entry is a string
for the others until the command that has made it writes to it. What has to be asked of an
interleaving (`Guard`) is that no other command takes a placeholder for a value, and that when
a command writes back, its key holds what it has copied: for `SET`, which replaces any value,
the same expiry; for a removal, that there is a value or that there is none. Then the commands
have the replies and the effect of the same commands one after the other, in the order in
which they end (`sequential_of_guarded`).
-/

namespace PgRedis

open Lib

/-- Copies of the two entries are the same. -/
def SharedEntry.Alike (se se' : SharedEntry) : Prop := se.materialize.Same se'.materialize

/-- An entry, unless it has expired. -/
def SharedEntry.live (now : ℤ) (o : Option SharedEntry) : Option SharedEntry :=
  o.filter fun se => !se.isExpired now

section

variable {hashBytes : Bytes → UInt32} {o : Option SharedEntry} {o' : Option Cell}

theorem SharedEntry.live_rel (h : Option.Rel (SharedEntry.Shows hashBytes) o o') (now : ℤ) :
    Option.Rel (SharedEntry.Shows hashBytes) (SharedEntry.live now o) (Cell.found now o') := by
  rcases rel_cases h with ⟨rfl, rfl⟩ | ⟨se, c, rfl, rfl, hse⟩
  · exact .none
  · rw [SharedEntry.live, Option.filter_some, Cell.found, hse.isExpired]
    cases c.isExpired now with
    | true => exact .none
    | false => exact .some hse

theorem SharedEntry.isSome_rel (h : Option.Rel (SharedEntry.Shows hashBytes) o o') :
    o.isSome = o'.isSome := by
  rcases rel_cases h with ⟨rfl, rfl⟩ | ⟨se, c, rfl, rfl, -⟩ <;> rfl

theorem SharedEntry.expireAt_rel (h : Option.Rel (SharedEntry.Shows hashBytes) o o') :
    o.bind SharedEntry.expireAt = o'.bind Cell.expireAt := by
  rcases rel_cases h with ⟨rfl, rfl⟩ | ⟨se, c, rfl, rfl, hse⟩
  · rfl
  · exact hse.expireAt

/-- Entries with the same copies hold the same cell. -/
theorem SharedEntry.Alike.unique {se se' : SharedEntry} {k k' : Cell} (h : se.Alike se')
    (hk : se.Shows hashBytes k) (hk' : se'.Shows hashBytes k') : k = k' :=
  (SharedEntry.materialize_shows hk).unique (h.shows (SharedEntry.materialize_shows hk'))

end

/-- `SET` gives its key the value, and of what it finds it keeps the expiry only. -/
theorem Cell.exec_overwrites {c : Call} (hcheck : c.cmd.check c.lim = .ok ())
    (hset : c.cmd.overwrites = true) {o o' : Option Cell}
    (h : (found c.now o).bind expireAt = (found c.now o').bind expireAt) :
    exec c o = exec c o' := by
  have hup : ∀ o, (upserted c.now o).1.expireAt = (found c.now o).bind expireAt := fun o => by
    rcases upserted_cases c.now o with ⟨hfound, hup⟩ | ⟨k, -, hfound, hup⟩ <;> rw [hup, hfound] <;>
      rfl
  cases hc : c.cmd <;> rw [hc] at hset <;> simp only [Command.overwrites, reduceCtorEq] at hset
  have hlen : ∀ key field value, c.cmd = .hset key field value → value.length ≤ uint16Max :=
    fun _ _ _ heq => absurd (hc.symm.trans heq) (by simp)
  rw [exec_of_check hcheck hlen, exec_of_check hcheck hlen, hc]
  simp only [perform, update, set, hup, h]

/-- The commands that go on to another section wherever there is an entry. -/
def Command.goesOn : Command → Bool
  | .set .. | .expire .. => true
  | _ => false

/-- The section of an upsert that has made the entry, or reset an expired one. -/
def Progress.makes : Progress → Bool
  | .goesOn (.write _ true _) => true
  | _ => false

/-- A later section that only reads. -/
def Rest.reads : Rest → Bool
  | .reread => true
  | _ => false

/-! ## One section -/

namespace SharedStore

variable {hashBytes : Bytes → UInt32} {K : Cells} {key : Key}

/-- A command that goes on wherever there is an entry. -/
theorem first_goesOn {S : SharedStore} {c : Command} {now : ℤ} {x : SharedStore × Progress}
    (hx : S.first hashBytes enough now c = some x) (hgoes : c.goesOn = true) {se : SharedEntry}
    (hse : S.entries.lookup c.key = some se) : ∃ rest, x.2 = .goesOn rest := by
  cases c <;> simp only [Command.goesOn, reduceCtorEq] at hgoes
  case set key value =>
    obtain rfl := Option.some.inj hx
    exact ⟨_, rfl⟩
  case expire key seconds =>
    obtain rfl := Option.some.inj hx
    have hlookup : S.entries.lookup key = some se := hse
    rw [expireFirst, lookupRaw, hlookup]
    simp only [Option.map_some]
    split_ifs
    · exact ⟨_, rfl⟩
    · exact ⟨_, rfl⟩
    · exact ⟨_, rfl⟩

/-- `SET` reads its key once. -/
theorem first_reread {S S' : SharedStore} {c : Command} {now : ℤ}
    (hx : S.first hashBytes enough now c = some (S', .goesOn .reread)) :
    c.overwrites = false := by
  cases c <;> try rfl
  have hgoes := congrArg Prod.snd (Option.some.inj hx)
  exact absurd hgoes (by simp [updateFirst, Entry.set])

/-- A copy of no hash written back by a call that returns with `r`. -/
theorem second_write {S : SharedStore} (hS : S.Shows hashBytes K) {e : Entry} {cell : Cell}
    (hec : e.Shows cell) (hne : cell.value.type ≠ .hash) (isNew : Bool) (r : Reply) :
    ∃ S', S.second hashBytes enough key (.write e isNew r) = (S', .returns (.ok r)) ∧
      S'.Shows hashBytes (Function.update K key (some (cell.stored .shared))) := by
  obtain ⟨S', heq, hS'⟩ := hS.writeback enough_eq hec hne key
  exact ⟨S', by rw [second, heq], hS'⟩

/-- The copy `EXPIRE` has made, written back over an entry that gives the same. -/
theorem second_reread {S : SharedStore} (hS : S.Shows hashBytes K) {e e' : Entry}
    (hraw : S.lookupRaw key = some e') (hsame : e.Same e') {cell : Cell} (hK : K key = some cell)
    (isNew : Bool) (r : Reply) :
    ∃ S', S.second hashBytes enough key (.write e isNew r) = (S', .returns (.ok r)) ∧
      S'.Shows hashBytes (Function.update K key (some (cell.stored .shared))) := by
  obtain ⟨se, hse, rfl⟩ := Option.map_eq_some_iff.1 hraw
  have hkey := hS key
  rw [hse, hK, Option.rel_some_some] at hkey
  obtain ⟨d', se', heq, hse'⟩ := SharedEntry.writeback_copy_shows enough_eq hkey hsame S.dsa
  have hpair : S.writeback hashBytes enough key e =
      ((S.writeback hashBytes enough key e).1, .ok ()) :=
    Prod.ext rfl (by rw [writeback_snd, hse, heq])
  refine ⟨(S.writeback hashBytes enough key e).1, by rw [second, hpair],
    hS.locked ?_⟩
  rw [hse, heq, hkey.stored]
  exact .some hse'

end SharedStore

/-! ## Backends -/

/-- A call that has gone through a section and not yet returned. `seen` is for the proofs: the
    entry of the key as that section has left it. -/
structure Pending where
  call : Call
  rest : Rest
  seen : Option SharedEntry

/-- The shared keyspace, the call each backend is in, and the calls that have returned, with
    their replies. `placeholder` is for the proofs: if the entry of the key is one that an upsert
    has made and nothing has written to, what that upsert has found in its place. -/
structure Sections (π : Type) where
  store : SharedStore
  placeholder : Option (Option SharedEntry)
  pc : π → Option Pending
  done : List (Call × Except SharedCommandError Reply)

namespace Sections

variable {π : Type}

/-- No backend is in a call. -/
def init (S : SharedStore) : Sections π := ⟨S, none, fun _ => none, []⟩

/-- A backend starts a call, or goes through the next section of the call it is in. -/
inductive Act (π : Type)
  | start (p : π) (c : Call)
  | next (p : π)

/-- The replies and what the key holds are those of some order of the calls, run one after the
    other. -/
def Sequential (hashBytes : Bytes → UInt32) (S₀ : SharedStore) (s : Sections π) : Prop :=
  ∃ order : List (Call × Except SharedCommandError Reply), order.Perm s.done ∧
    S₀.replies hashBytes enough (order.map Prod.fst) = order.map Prod.snd ∧
    ∃ K, s.store.Shows hashBytes K ∧
      (S₀.calls hashBytes enough (order.map Prod.fst)).Shows hashBytes K

section

variable [DecidableEq π] (hashBytes : Bytes → UInt32) (key : Key)

/-- The end of a section of the call `c` of `p`. -/
def advance (s : Sections π) (p : π) (c : Call) (placeholder : Option (Option SharedEntry)) :
    SharedStore × Progress → Sections π
  | (S, .returns r) => ⟨S, placeholder, Function.update s.pc p none, s.done ++ [(c, r)]⟩
  | (S, .goesOn rest) =>
    ⟨S, placeholder, Function.update s.pc p (some ⟨c, rest, S.entries.lookup key⟩), s.done⟩

/-- One section, of a command on `key`. -/
def step (s : Sections π) : Act π → Option (Sections π)
  | .start p c =>
    match s.pc p with
    | some _ => none
    | none =>
      if c.cmd.key = key then
        match c.cmd.check c.lim with
        | .error err =>
          some (s.advance key p c s.placeholder (s.store, .returns (.error (.command err))))
        | .ok () => (s.store.first hashBytes enough c.now c.cmd).map fun x =>
            s.advance key p c
              (if x.2.makes then some (s.store.entries.lookup key) else s.placeholder) x
      else none
  | .next p =>
    match s.pc p with
    | none => none
    | some x => some (s.advance key p x.call (if x.rest.reads then s.placeholder else none)
        (s.store.second hashBytes enough key x.rest))

end

variable (key : Key)

/-- What the key holds for a call with the reading `now`: an entry that has not expired. A
    placeholder is no value; it stands for the entry it has replaced. -/
def held (s : Sections π) (now : ℤ) : Option SharedEntry :=
  SharedEntry.live now (s.placeholder.getD (s.store.entries.lookup key))

/-- The key holds what the call has seen of it, as far as what is left of the call depends on
    it. -/
def UpToDate (s : Sections π) (x : Pending) : Prop :=
  match x.rest with
  | .reread => s.store.entries.lookup key ≠ none
  | .remove _ => (s.held key x.call.now).isSome = (SharedEntry.live x.call.now x.seen).isSome
  | .write _ isNew _ =>
    if x.call.cmd.overwrites then
      (s.held key x.call.now).bind SharedEntry.expireAt = x.seen.bind SharedEntry.expireAt
    else if isNew then s.held key x.call.now = none
    else s.placeholder = none ∧ Option.Rel SharedEntry.Alike (s.held key x.call.now) x.seen

/-- No call that could end there starts on a placeholder, and no call goes on that is out of
    date. -/
def Guard (s : Sections π) : Act π → Prop
  | .start _ c => c.cmd.IsText ∧
      (c.cmd.check c.lim = .ok () → s.placeholder ≠ none → c.cmd.goesOn = true)
  | .next p => ∀ x, s.pc p = some x → s.UpToDate key x

/-! ## What guarded runs keep -/

variable {hashBytes : Bytes → UInt32} {key} {S₀ : SharedStore} {s s' : Sections π} {K : Cells}
  {p : π}

/-- What is left of a call will do to the key what the whole call does, if it finds the key as
    it has seen it. -/
def Due (hashBytes : Bytes → UInt32) (x : Pending) : Prop :=
  match x.rest with
  | .remove r => ∀ o, (Cell.found x.call.now o).isSome =
      (SharedEntry.live x.call.now x.seen).isSome → Cell.exec x.call o = (none, .ok r)
  | .reread => x.call.cmd.overwrites = false ∧ ∀ o c, Cell.found x.call.now o = some c →
      Cell.exec x.call o = (some (c.stored .shared), .ok (.bool true))
  | .write e true r => x.seen.bind SharedEntry.expireAt = none ∧
      ∃ c, e.Shows c ∧ c.value.type ≠ .hash ∧ ∀ o, Cell.found x.call.now o = none →
        Cell.exec x.call o = (some (c.stored .shared), .ok r)
  | .write e false r => ∃ se k c, x.seen = some se ∧ se.Shows hashBytes k ∧ e.Shows c ∧
      (c.value.type = .hash → x.call.cmd.overwrites = false ∧ e.Same se.materialize) ∧
      (x.call.cmd.overwrites = true → k.isExpired x.call.now = false) ∧
      ∀ o, Cell.found x.call.now o = some k →
        Cell.exec x.call o = (some (c.stored .shared), .ok r)

/-- The cells the keyspace holds, if those of the calls that have returned are `K`. -/
def shown (key : Key) (s : Sections π) (K : Cells) : Cells :=
  if s.placeholder = none then K else Function.update K key (some .fresh)

/-- The call of the backend has made the entry and will write to it. -/
def Made (s : Sections π) (q : π) : Prop := ∃ c e r seen, s.pc q = some ⟨c, .write e true r, seen⟩

/-- The calls that have returned, one after the other, leave the cells `K`; so does the
    keyspace hold them, but for a placeholder where there is no cell or one that has expired. -/
structure Linked (hashBytes : Bytes → UInt32) (key : Key) (S₀ : SharedStore) (s : Sections π)
    (K : Cells) : Prop where
  cells : (S₀.calls hashBytes enough (s.done.map Prod.fst)).Shows hashBytes K
  replies : S₀.replies hashBytes enough (s.done.map Prod.fst) = s.done.map Prod.snd
  pending : ∀ p x, s.pc p = some x → x.call.cmd.key = key ∧
    x.call.cmd.check x.call.lim = .ok () ∧ x.call.cmd.IsText ∧ Due hashBytes x
  behind : Option.Rel (SharedEntry.Shows hashBytes)
    (s.placeholder.getD (s.store.entries.lookup key)) (K key)
  store : s.store.Shows hashBytes (s.shown key K)
  maker : s.placeholder ≠ none → ∃ q, s.Made q

/-- The keyspace and the calls that have returned are linked by some cells. -/
def Inv (hashBytes : Bytes → UInt32) (key : Key) (S₀ : SharedStore) (s : Sections π) : Prop :=
  ∃ K, s.Linked hashBytes key S₀ K

theorem inv_init (h : S₀.Shows hashBytes K) : (init S₀ : Sections π).Inv hashBytes key S₀ :=
  ⟨K, h, rfl, fun _ _ hx => absurd hx (by simp [init]), h key, h,
    fun hne => absurd rfl hne⟩

/-- What a call finds is what the cell of the key shows. -/
theorem Linked.held (h : s.Linked hashBytes key S₀ K) (now : ℤ) :
    Option.Rel (SharedEntry.Shows hashBytes) (s.held key now) (Cell.found now (K key)) :=
  SharedEntry.live_rel h.behind now

/-- A section that leaves the cell `o` under the key leaves it over those of all calls. -/
theorem update_shown {S : SharedStore} {o : Option Cell}
    (hS : S.Shows hashBytes (Function.update (s.shown key K) key o)) :
    S.Shows hashBytes (Function.update K key o) := by
  rw [shown] at hS
  split_ifs at hS
  · exact hS
  · rwa [Function.update_idem] at hS

/-- A section that leaves the cells of the keyspace leaves what is behind a placeholder. -/
theorem Linked.behind_of_shown (h : s.Linked hashBytes key S₀ K) {S' : SharedStore}
    (hS' : S'.Shows hashBytes (s.shown key K)) : Option.Rel (SharedEntry.Shows hashBytes)
      (s.placeholder.getD (S'.entries.lookup key)) (K key) := by
  have hbehind := h.behind
  cases hplace : s.placeholder with
  | none =>
    rw [shown, if_pos hplace] at hS'
    exact hS' key
  | some old =>
    rw [hplace] at hbehind
    exact hbehind

/-- A backend that has not made the placeholder. -/
theorem Linked.maker_ne (h : s.Linked hashBytes key S₀ K) (hp : ¬s.Made p)
    (hne : s.placeholder ≠ none) : ∃ q ≠ p, s.Made q := by
  obtain ⟨q, hq⟩ := h.maker hne
  exact ⟨q, fun heq => hp (heq ▸ hq), hq⟩

/-- A copy that is up to date: the call does to the cell of the key what it did to the cell
    copied, and the writeback leaves that. -/
theorem Linked.write (h : s.Linked hashBytes key S₀ K) {c : Call} {e : Entry} {isNew : Bool}
    {r : Reply} {seen : Option SharedEntry} (hcheck : c.cmd.check c.lim = .ok ())
    (hdue : Due hashBytes ⟨c, .write e isNew r, seen⟩)
    (hnow : s.UpToDate key ⟨c, .write e isNew r, seen⟩) :
    ∃ (S' : SharedStore) (cell : Cell),
      s.store.second hashBytes enough key (.write e isNew r) = (S', .returns (.ok r)) ∧
      Cell.exec c (K key) = (some (cell.stored .shared), .ok r) ∧
      S'.Shows hashBytes (Function.update (s.shown key K) key (some (cell.stored .shared))) := by
  have hheld := h.held c.now
  cases isNew with
  | true =>
    obtain ⟨hfresh, cell, hec, hne, hexec⟩ := hdue
    obtain ⟨S', hsecond, hS'⟩ := SharedStore.second_write h.store hec hne true r
    refine ⟨S', cell, hsecond, ?_, hS'⟩
    by_cases hset : c.cmd.overwrites = true
    · -- The entry of the placeholder had no expiry either.
      have hexp : (s.held key c.now).bind SharedEntry.expireAt = none := by
        simpa [UpToDate, hset, hfresh] using hnow
      rw [SharedEntry.expireAt_rel hheld] at hexp
      have hagain : Cell.exec c (K key) = Cell.exec c none :=
        Cell.exec_overwrites hcheck hset hexp
      exact hagain.trans (hexec none rfl)
    · have hnone : s.held key c.now = none := by simpa [UpToDate, hset] using hnow
      have hsome := SharedEntry.isSome_rel hheld
      rw [hnone] at hsome
      exact hexec _ (Option.not_isSome_iff_eq_none.1 (by simp [← hsome]))
  | false =>
    obtain ⟨se, k, cell, hseen, hse, hec, hhash, hlive, hexec⟩ := hdue
    obtain rfl : seen = some se := hseen
    by_cases hset : c.cmd.overwrites = true
    · have hk : Cell.found c.now (some k) = some k := by
        rw [Cell.found, hlive hset]
        rfl
      have hexp : (s.held key c.now).bind SharedEntry.expireAt = se.expireAt := by
        simpa [UpToDate, hset] using hnow
      rw [SharedEntry.expireAt_rel hheld, hse.expireAt] at hexp
      obtain ⟨S', hsecond, hS'⟩ := SharedStore.second_write h.store hec
        (fun ht => absurd (hhash ht).1 (by simp [hset])) false r
      refine ⟨S', cell, hsecond, ?_, hS'⟩
      have hagain : Cell.exec c (K key) = Cell.exec c (some k) :=
        Cell.exec_overwrites hcheck hset (by rw [hexp, hk]; rfl)
      exact hagain.trans (hexec _ hk)
    · obtain ⟨hnone, hsame⟩ : s.placeholder = none ∧
          Option.Rel SharedEntry.Alike (s.held key c.now) (some se) := by
        simpa [UpToDate, hset] using hnow
      obtain ⟨se', hse', halike⟩ := exists_of_rel_some_right hsame
      rw [hse'] at hheld
      obtain ⟨k', hk', hshows⟩ := exists_of_rel_some hheld
      obtain rfl : k' = k := halike.unique hshows hse
      have hcell := hexec _ hk'
      by_cases ht : cell.value.type = .hash
      · -- All fields of the copy are written to a hash that has the same fields.
        have hsame' : e.Same se.materialize := (hhash ht).2
        have hlookup : s.store.entries.lookup key = some se' := by
          rw [Sections.held, hnone] at hse'
          exact (Option.filter_eq_some_iff.1 hse').1
        have hraw : s.store.lookupRaw key = some se'.materialize := by
          rw [SharedStore.lookupRaw, hlookup]
          rfl
        have hcopy : e.Same se'.materialize := hsame'.trans halike.symm
        obtain ⟨k₁, hk₁, hshows₁⟩ := h.store.eq_some hlookup
        obtain rfl := hshows.unique hshows₁
        obtain rfl : cell = k' := hec.unique (hcopy.shows (SharedEntry.materialize_shows hshows))
        obtain ⟨S', hsecond, hS'⟩ := SharedStore.second_reread h.store hraw hcopy hk₁ false r
        exact ⟨S', cell, hsecond, hcell, hS'⟩
      · obtain ⟨S', hsecond, hS'⟩ := SharedStore.second_write h.store hec ht false r
        exact ⟨S', cell, hsecond, hcell, hS'⟩

/-! ## Guarded sections -/

variable [DecidableEq π]

/-- The calls pending after a section of `p`. -/
theorem pending_advance {c : Call} {made : Option (Option SharedEntry)}
    {y : SharedStore × Progress} {q : π} {x : Pending}
    (h : (s.advance key p c made y).pc q = some x) :
    s.pc q = some x ∨ ∃ rest, y.2 = .goesOn rest ∧ x = ⟨c, rest, y.1.entries.lookup key⟩ := by
  obtain ⟨S', r | rest⟩ := y <;> by_cases hq : q = p <;>
    simp only [advance, hq, Function.update_self, Function.update_of_ne, ne_eq, not_false_eq_true,
      reduceCtorEq, Option.some.injEq] at h
  · exact .inl h
  · exact .inr ⟨rest, rfl, h.symm⟩
  · exact .inl h

theorem made_advance {c : Call} {made : Option (Option SharedEntry)}
    {y : SharedStore × Progress} {q : π} (hq : q ≠ p) (h : s.Made q) :
    (s.advance key p c made y).Made q := by
  obtain ⟨c', e, r, seen, hpc⟩ := h
  refine ⟨c', e, r, seen, ?_⟩
  obtain ⟨S', r' | rest⟩ := y <;> exact (Function.update_of_ne hq _ _).trans hpc

/-- A call returns, having done what the whole call does to the cell of the key. -/
theorem Linked.returns (h : s.Linked hashBytes key S₀ K) {c : Call} (hkey : c.cmd.key = key)
    (htext : c.cmd.IsText) {S' : SharedStore} {r : Except SharedCommandError Reply}
    {o : Option Cell} (hexec : Cell.exec c (K key) = (o, r)) {made : Option (Option SharedEntry)}
    (hbehind : Option.Rel (SharedEntry.Shows hashBytes) (made.getD (S'.entries.lookup key)) o)
    (hstore : S'.Shows hashBytes (if made = none then Function.update K key o
      else Function.update K key (some .fresh)))
    (hmaker : made ≠ none → ∃ q ≠ p, s.Made q) :
    (s.advance key p c made (S', .returns r)).Linked hashBytes key S₀
      (Function.update K key o) := by
  obtain ⟨T, evs, hT, heq⟩ := SharedStore.exec_shows h.cells c htext
  rw [hkey, hexec] at hT heq
  refine ⟨?_, ?_, fun q x hx => ?_, ?_, ?_, fun hne => ?_⟩
  · rw [advance, List.map_append, List.map_singleton, SharedStore.calls_append, heq]
    exact hT
  · rw [advance, List.map_append, List.map_append, List.map_singleton, List.map_singleton,
      SharedStore.replies_append, h.replies, heq]
  · rcases pending_advance hx with hx | ⟨rest, hrest, -⟩
    · exact h.pending q x hx
    · exact absurd hrest (by simp)
  · rw [Function.update_self]
    exact hbehind
  · rw [shown, Function.update_idem]
    exact hstore
  · obtain ⟨q, hq, hm⟩ := hmaker hne
    exact ⟨q, made_advance hq hm⟩

/-- A call returns and leaves no placeholder. -/
theorem Linked.settles (h : s.Linked hashBytes key S₀ K) {c : Call} (hkey : c.cmd.key = key)
    (htext : c.cmd.IsText) {S' : SharedStore} {r : Except SharedCommandError Reply}
    {o : Option Cell} (hexec : Cell.exec c (K key) = (o, r))
    (hS' : S'.Shows hashBytes (Function.update K key o)) :
    (s.advance key p c none (S', .returns r)).Inv hashBytes key S₀ :=
  ⟨_, h.returns hkey htext hexec (by simpa using hS' key) hS' fun hne => absurd rfl hne⟩

/-- A call goes on. -/
theorem Linked.goesOn (h : s.Linked hashBytes key S₀ K) {c : Call} (hkey : c.cmd.key = key)
    (hcheck : c.cmd.check c.lim = .ok ()) (htext : c.cmd.IsText) {S' : SharedStore} {rest : Rest}
    {made : Option (Option SharedEntry)}
    (hdue : Due hashBytes ⟨c, rest, S'.entries.lookup key⟩)
    (hbehind : Option.Rel (SharedEntry.Shows hashBytes) (made.getD (S'.entries.lookup key)) (K key))
    (hstore : S'.Shows hashBytes
      (if made = none then K else Function.update K key (some .fresh)))
    (hmaker : made ≠ none → (∃ e r, rest = .write e true r) ∨ ∃ q ≠ p, s.Made q) :
    (s.advance key p c made (S', .goesOn rest)).Inv hashBytes key S₀ :=
  ⟨K, h.cells, h.replies, fun q x hx => by
    rcases pending_advance hx with hx | ⟨rest', hrest', rfl⟩
    · exact h.pending q x hx
    · obtain rfl := Progress.goesOn.inj hrest'
      exact ⟨hkey, hcheck, htext, hdue⟩, hbehind, hstore, fun hne => by
    rcases hmaker hne with ⟨e, r, rfl⟩ | ⟨q, hq, hm⟩
    · exact ⟨p, c, e, r, _, Function.update_self _ _ _⟩
    · exact ⟨q, made_advance hq hm⟩⟩

/-- The start of a call. -/
theorem Linked.start (h : s.Linked hashBytes key S₀ K) (hidle : s.pc p = none) {c : Call}
    (hkey : c.cmd.key = key) (hcheck : c.cmd.check c.lim = .ok ()) (htext : c.cmd.IsText)
    {x : SharedStore × Progress} (hx : s.store.first hashBytes enough c.now c.cmd = some x)
    (hplace : s.placeholder ≠ none → c.cmd.goesOn = true) :
    (s.advance key p c (if x.2.makes then some (s.store.entries.lookup key) else s.placeholder)
      x).Inv hashBytes key S₀ := by
  have hadv : SharedStore.Advances hashBytes (s.shown key K) c.now key (Cell.exec c) s.store x.1
      x.2 := hkey ▸ SharedStore.first_advances h.store hcheck htext hx
  have hmaker : s.placeholder ≠ none → ∃ q ≠ p, s.Made q := h.maker_ne fun hp => by
    obtain ⟨_, _, _, _, hpc⟩ := hp
    exact absurd (hidle.symm.trans hpc) (by simp)
  obtain ⟨S', r | r | _ | ⟨e, isNew, r⟩⟩ := x
  · -- A call that ends here has found no placeholder.
    have hnone : s.placeholder = none := by
      by_contra hne
      have hcell : s.shown key K key = some .fresh := by
        rw [shown, if_neg hne, Function.update_self]
      obtain ⟨se, hse, -⟩ := h.store.exists_entry hcell
      obtain ⟨rest, hrest⟩ := SharedStore.first_goesOn hx (hplace hne) (hkey ▸ hse)
      exact absurd hrest (by simp)
    rw [shown, if_pos hnone] at hadv
    obtain ⟨hS', hr⟩ := hadv
    simp only [Progress.makes, hnone]
    exact h.settles hkey htext (Prod.ext rfl hr) hS'
  · obtain ⟨rfl, hexec⟩ := hadv
    refine h.goesOn hkey hcheck htext (fun o ho => hexec o ?_) h.behind h.store
      fun hne => .inr (hmaker hne)
    exact ho.trans (SharedEntry.isSome_rel (SharedEntry.live_rel (h.store key) _))
  · obtain ⟨rfl, hexec⟩ := hadv
    exact h.goesOn hkey hcheck htext ⟨SharedStore.first_reread hx, hexec⟩ h.behind h.store
      fun hne => .inr (hmaker hne)
  · obtain ⟨hmade, cell, hec, hne, hexec⟩ := hadv
    cases isNew with
    | true =>
      obtain ⟨hfound, hS'⟩ := hmade
      -- A placeholder has no expiry: the upsert would have found it.
      have hnone : s.placeholder = none := by
        by_contra hplaced
        rw [shown, if_neg hplaced, Function.update_self] at hfound
        exact absurd hfound (by simp [Cell.found, Cell.isExpired, Cell.fresh])
      have hK : s.shown key K = K := if_pos hnone
      have hS := h.store
      rw [hK] at hS' hfound hexec hS
      obtain ⟨se, hse, hfresh⟩ := hS'.exists_entry (Function.update_self key _ K)
      refine h.goesOn hkey hcheck htext ⟨?_, cell, hec, hne, fun o ho => hexec o ?_⟩ (hS key) hS'
        fun _ => .inl ⟨e, r, rfl⟩
      · rw [hse]
        exact hfresh.expireAt
      · rw [ho, hfound]
    | false =>
      obtain ⟨⟨k, hk⟩, hS'⟩ := hmade
      obtain ⟨hcell, hlive⟩ := Cell.found_eq_some hk
      obtain ⟨se, hse, hshows⟩ := hS'.exists_entry hcell
      refine h.goesOn hkey hcheck htext ⟨se, k, cell, hse, hshows, hec,
        fun ht => absurd ht hne, fun _ => hlive, fun o ho => hexec o (ho.trans hk.symm)⟩
        (h.behind_of_shown hS') hS' fun hne => .inr (hmaker hne)

/-- A later section of a call that is up to date. -/
theorem Linked.next (h : s.Linked hashBytes key S₀ K) {x : Pending} (hpc : s.pc p = some x)
    (hnow : s.UpToDate key x) :
    (s.advance key p x.call (if x.rest.reads then s.placeholder else none)
      (s.store.second hashBytes enough key x.rest)).Inv hashBytes key S₀ := by
  obtain ⟨hkey, hcheck, htext, hdue⟩ := h.pending p x hpc
  obtain ⟨c, rest, seen⟩ := x
  cases rest with
  | remove r =>
    have hexec : Cell.exec c (K key) = (none, .ok r) :=
      hdue _ ((SharedEntry.isSome_rel (h.held c.now)).symm.trans hnow)
    exact h.settles hkey htext hexec (update_shown (h.store.remove key).2)
  | reread =>
    obtain ⟨se, hse⟩ := Option.ne_none_iff_exists'.1 hnow
    obtain ⟨k, hk, hshows⟩ := h.store.eq_some hse
    -- The copy is made of the entry as it is now.
    have hcopy : s.store.lookupRaw key = some se.materialize := by
      rw [SharedStore.lookupRaw, hse]
      rfl
    obtain ⟨hset, hexec⟩ := hdue
    simp only [SharedStore.second, hcopy, Rest.reads, if_true]
    refine h.goesOn hkey hcheck htext ⟨se, k, k, hse, hshows, SharedEntry.materialize_shows hshows,
      fun _ => ⟨hset, .refl _⟩, fun hset' => absurd hset' (by simp [hset]),
      fun o ho => hexec o k ho⟩ h.behind h.store fun hne => .inr (h.maker_ne (fun hp => ?_) hne)
    obtain ⟨_, _, _, _, hpc'⟩ := hp
    exact absurd (hpc.symm.trans hpc') (by simp)
  | write e isNew r =>
    obtain ⟨S', cell, hsecond, hexec, hS'⟩ := h.write hcheck hdue hnow
    simp only [hsecond, Rest.reads]
    exact h.settles hkey htext hexec (update_shown hS')

/-- A section that meets the guard keeps the invariant. -/
theorem Inv.step (h : s.Inv hashBytes key S₀) {a : Act π} (hok : s.Guard key a)
    (hstep : s.step hashBytes key a = some s') : s'.Inv hashBytes key S₀ := by
  obtain ⟨K, h⟩ := h
  cases a with
  | start p c =>
    obtain ⟨htext, hplace⟩ := hok
    rw [Sections.step] at hstep
    cases hidle : s.pc p with
    | some x => simp [hidle] at hstep
    | none =>
      simp only [hidle] at hstep
      split_ifs at hstep with hkey
      cases hcheck : c.cmd.check c.lim with
      | error err =>
        rw [hcheck, Option.some.injEq] at hstep
        subst hstep
        -- A call whose arguments are refused touches nothing, whatever the key holds.
        have hexec : Cell.exec c (K key) = (K key, .error (.command err)) := by
          rw [Cell.exec, hcheck]
        refine ⟨_, h.returns hkey htext hexec h.behind ?_ (h.maker_ne fun hp => ?_)⟩
        · rw [Function.update_eq_self]
          exact h.store
        · obtain ⟨_, _, _, _, hpc⟩ := hp
          exact absurd (hidle.symm.trans hpc) (by simp)
      | ok u =>
        rw [hcheck] at hstep
        obtain ⟨x, hx, rfl⟩ := Option.map_eq_some_iff.1 hstep
        exact h.start hidle hkey hcheck htext hx (hplace hcheck)
  | next p =>
    rw [Sections.step] at hstep
    cases hpc : s.pc p with
    | none => simp [hpc] at hstep
    | some x =>
      rw [hpc, Option.some.injEq] at hstep
      subst hstep
      exact h.next hpc (hok x hpc)

/-- In every run whose sections meet the guard: when all calls have returned, the replies and
    the keyspace are those of the calls one after the other. -/
theorem sequential_of_guarded (h₀ : S₀.Shows hashBytes K)
    (h : Reachable (Sections.step hashBytes key) (Guard key) (init S₀) s)
    (hidle : ∀ p, s.pc p = none) : s.Sequential hashBytes S₀ := by
  have hinv : s.Inv hashBytes key S₀ :=
    h.invariant (inv_init h₀) fun _ _ _ hs hok hst => hs.step hok hst
  obtain ⟨K', hK'⟩ := hinv
  have hnone : s.placeholder = none := by
    by_contra hne
    obtain ⟨q, _, _, _, _, hpc⟩ := hK'.maker hne
    exact absurd ((hidle q).symm.trans hpc) (by simp)
  have hstore := hK'.store
  rw [shown, if_pos hnone] at hstore
  exact ⟨s.done, .refl _, hK'.replies, K', hstore, hK'.cells⟩

/-! ## Runs on one entry -/

/-- A keyspace of one integer. -/
theorem shows_int (hashBytes : Bytes → UInt32) (d : Dsa) (key : Key) (i : ℤ) (version : UInt64) :
    (⟨d, (∅ : Htab Key SharedEntry).insert key ⟨.int i, none, version⟩⟩ : SharedStore).Shows
      hashBytes (Function.update (fun _ => none) key (some ⟨.int i, none⟩)) := fun k => by
  by_cases hk : k = key
  · rw [hk, Function.update_self, Htab.lookup_insert_eq, if_pos rfl]
    exact .some ⟨rfl, rfl⟩
  · rw [Function.update_of_ne hk, Htab.lookup_insert_eq, if_neg hk, AList.lookup_empty]
    exact .none

/-- The key is missing. `SET k 9` makes a placeholder, `SET k 7` copies it and writes it back,
    `INCR k` counts on from that, and `SET k 9` writes back. -/
theorem sequential_of_set_around_incr :
    let incr : Call := ⟨⟨0, 0⟩, 0, 0, .incr [107]⟩
    let set₉ : Call := ⟨⟨0, 0⟩, 0, 0, .set [107] [57]⟩
    let set₇ : Call := ⟨⟨0, 0⟩, 0, 0, .set [107] [55]⟩
    ∃ s : Sections Bool, run (Sections.step (fun _ => 0) [107]) (init ⟨⟨0, []⟩, ∅⟩)
        [.start true set₉, .start false set₇, .next false, .start false incr, .next false,
          .next true] = some s ∧
      s.done = [(set₇, .ok (.bool true)), (incr, .ok (.int 8)), (set₉, .ok (.bool true))] ∧
      s.Sequential (fun _ => 0) ⟨⟨0, []⟩, ∅⟩ := by
  intro incr set₉ set₇
  have htext : ∀ c : Command, c.field? = none → c.IsText := fun c hc f hf =>
    absurd (hc.symm.trans hf) (by simp)
  have hempty : (⟨⟨0, []⟩, ∅⟩ : SharedStore).Shows (fun _ => 0) fun _ => none := fun _ => .none
  obtain ⟨s, hrun⟩ : ∃ s : Sections Bool, run (Sections.step (fun _ => 0) [107])
      (init ⟨⟨0, []⟩, ∅⟩) [.start true set₉, .start false set₇, .next false, .start false incr,
        .next false, .next true] = some s := ⟨_, rfl⟩
  refine ⟨s, hrun, ?_, sequential_of_guarded hempty (Reachable.of_run .init ?_ hrun) ?_⟩
  · obtain rfl := Option.some.inj hrun
    rfl
  · refine .cons ⟨htext _ rfl, fun _ hne => absurd rfl hne⟩ rfl
      (.cons ⟨htext _ rfl, fun _ _ => rfl⟩ rfl (.cons (fun x hx => ?_) rfl
        (.cons ⟨htext _ rfl, fun _ hne => absurd rfl hne⟩ rfl
          (.cons (fun x hx => ?_) rfl (.cons (fun x hx => ?_) rfl trivial)))))
    · -- The placeholder stands for nothing, and has no expiry itself.
      obtain rfl := Option.some.inj hx
      rfl
    · obtain rfl := Option.some.inj hx
      exact ⟨rfl, .some ⟨rfl, rfl, rfl⟩⟩
    · obtain rfl := Option.some.inj hx
      rfl
  · obtain rfl := Option.some.inj hrun
    intro p
    cases p <;> rfl

/-- Two `INCR` of the integer 5 that copy it one after the other, and write it back one after
    the other: both reply 6, which no order of the two gives. -/
theorem incr_lost :
    let S₀ : SharedStore := ⟨⟨0, []⟩, (∅ : Htab Key SharedEntry).insert [107] ⟨.int 5, none, 1⟩⟩
    let incr : Call := ⟨⟨0, 0⟩, 0, 0, .incr [107]⟩
    (∃ K, S₀.Shows (fun _ => 0) K) ∧ ∃ s : Sections Bool,
      run (Sections.step (fun _ => 0) [107]) (init S₀)
        [.start false incr, .start true incr, .next false, .next true] = some s ∧
      (∀ p, s.pc p = none) ∧ ¬s.Sequential (fun _ => 0) S₀ := by
  intro S₀ incr
  refine ⟨⟨_, shows_int _ _ _ _ _⟩, _, rfl, fun p => by cases p <;> rfl, ?_⟩
  rintro ⟨order, hperm, hreplies, -⟩
  have hsame : order = List.replicate 2 (incr, .ok (.int 6)) := List.perm_replicate.1 hperm
  rw [hsame] at hreplies
  exact absurd hreplies (by decide)

end Sections

end PgRedis
