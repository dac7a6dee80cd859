import PgRedis.Keyspace
import PgRedis.SharedStore.Async

/-!
# `INCR` and `DECR`

`incrdecr` reads the integer under its key, adds or subtracts one, and writes the sum back; on a
value that is no integer it raises an error before it changes the entry. The sum of two `int64`
wraps without a check. In shared mode under `async_table` the call publishes an event for the new
value, and raises an error if there is no room for it, with the value changed.

So each call of a run of `INCR` and `DECR` is exact, or fails and changes nothing, if and only if
no `INCR` meets the greatest `int64` and no `DECR` the least, and no event is refused
(`counts_iff`).
-/

namespace PgRedis

open Lib

/-- What `INCR` and `DECR` add. -/
def Command.delta : Command → Option ℤ
  | .incr _ => some 1
  | .decr _ => some (-1)
  | _ => none

/-! ## The integer of an entry -/

namespace Entry

/-- The integer an entry holds, as such or as text. -/
def integer (e : Entry) : Option ℤ :=
  match e.type, e.value with
  | .int, .word i => some i
  | .string, .str s => parseInt64 s
  | _, _ => none

/-- The integer under a key: 0 if the key is missing or has expired. -/
def integerAt (now : ℤ) : Option Entry → Option ℤ
  | none => some 0
  | some e => if e.isExpired now then some 0 else e.integer

/-- The entry is an integer. -/
structure IsInt (e : Entry) (i : ℤ) : Prop where
  type : e.type = .int
  value : e.value = .word i

/-- What an upsert finds under a key: its entry, or a new one if there is none or it has
    expired. -/
inductive Upserted (now : ℤ) (o : Option Entry) : Entry → Bool → Prop
  | fresh {e : Entry} : (∀ x, o = some x → x.isExpired now = true) → e.expireAt = none →
      Upserted now o e true
  | found {e : Entry} : o = some e → e.isExpired now = false → Upserted now o e false

variable {e : Entry} {i δ now : ℤ} {o : Option Entry} {isNew : Bool}

theorem IsInt.integer (h : e.IsInt i) : e.integer = some i := by
  rw [Entry.integer, h.type, h.value]

theorem IsInt.get (h : e.IsInt i) : e.get = .ok (none, .text (some (formatInt64 i))) := by
  rw [Entry.get, h.type, h.value]

theorem isInt_of_incrdecr {e' : Entry} {r : Reply} (h : e.incrdecr δ isNew = .ok (e', r)) :
    ∃ i, e'.IsInt i := by
  rw [incrdecr] at h
  split at h
  · exact absurd h (by simp)
  · obtain ⟨rfl, -⟩ := Prod.mk.inj (Except.ok.inj h)
    exact ⟨_, rfl, rfl⟩

theorem integerAt_of_expired (h : ∀ x, o = some x → x.isExpired now = true) :
    integerAt now o = some 0 := by
  cases o with
  | none => rfl
  | some x => rw [integerAt, if_pos (h x rfl)]

theorem integerAt_of_live (h : e.isExpired now = false) : integerAt now (some e) = e.integer := by
  rw [integerAt, h, if_neg Bool.false_ne_true]

/-- `incrdecr` adds to the integer the entry holds, or raises an error if it holds none. -/
theorem incrdecr_cases (hup : Upserted now o e isNew)
    (hw : ∀ x, o = some x → x.type = .int → ∃ i, x.value = .word i) :
    (∃ i e', integerAt now o = some i ∧ e'.IsInt (Int.bmod (i + δ) (2 ^ 64)) ∧
      e'.isExpired now = false ∧
      e.incrdecr δ isNew = .ok (e', .int (Int.bmod (i + δ) (2 ^ 64)))) ∨
    integerAt now o = none ∧ o = some e ∧ ∃ err, e.incrdecr δ isNew = .error err := by
  -- A new entry counts from zero; one that is found must hold an integer, or a string that is
  -- parsed as one.
  cases hup with
  | fresh hexp hx =>
    exact .inl ⟨0, _, integerAt_of_expired hexp, ⟨rfl, rfl⟩, by rw [isExpired, hx], rfl⟩
  | found ho hlive =>
    subst ho
    rw [integerAt_of_live hlive, incrdecr, counter, integer]
    have hint := hw e rfl
    obtain ⟨t, v, x, n, d⟩ := e
    cases t with
    | int =>
      obtain ⟨i, rfl⟩ := hint rfl
      refine .inl ⟨i, _, rfl, ⟨rfl, rfl⟩, ?_, rfl⟩
      exact hlive
    | string =>
      cases v with
      | str s =>
        simp only [Bool.false_eq_true, if_false]
        cases parseInt64 s with
        | none => exact .inr ⟨rfl, trivial, _, rfl⟩
        | some i =>
          refine .inl ⟨i, _, rfl, ⟨rfl, rfl⟩, ?_, rfl⟩
          exact hlive
      | word | hash | list => exact .inr ⟨rfl, rfl, _, rfl⟩
    | hash | list => cases v <;> exact .inr ⟨rfl, rfl, _, rfl⟩

end Entry

/-! ## The two stores -/

/-- What a call of `INCR` or `DECR` makes of the entry of its key: the sum, which it replies, or,
    on a value that is no integer, nothing but an error. -/
def CountStep {ε : Type} (now δ : ℤ) (o o' : Option Entry) (r : Except ε Reply) : Prop :=
  (∃ i e', Entry.integerAt now o = some i ∧ o' = some e' ∧
    e'.IsInt (Int.bmod (i + δ) (2 ^ 64)) ∧ e'.isExpired now = false ∧
    r = .ok (.int (Int.bmod (i + δ) (2 ^ 64)))) ∨
  Entry.integerAt now o = none ∧ o' = o ∧ ∃ err, r = .error err

namespace Session

variable {s : Session} {now t δ : ℤ} {key : Key}

theorem upserted_upsert (now : ℤ) (key : Key) (s : Session) :
    Entry.Upserted now (s.store.lookup key) (upserted now (s.store.lookup key)).1
      (upserted now (s.store.lookup key)).2 := by
  cases s.store.lookup key with
  | none => exact .fresh (fun x hx => absurd hx (by simp)) rfl
  | some e =>
    rw [upserted]
    split_ifs with h
    · exact .fresh (fun x hx => Option.some.inj hx ▸ h) rfl
    · exact .found rfl (Bool.not_eq_true _ ▸ h)

theorem countStep (hw : s.WellTyped) (now δ : ℤ) (key : Key) :
    CountStep now δ (s.store.lookup key)
      ((s.update now key (Entry.incrdecr δ)).1.store.lookup key)
      (s.update now key (Entry.incrdecr δ)).2 := by
  have hup : s.upsert now key = ((s.upsert now key).1, upserted now (s.store.lookup key)) :=
    Prod.ext rfl (upsert_snd now key s)
  have hself := lookup_upsert_self now key s
  have hint : ∀ x, s.store.lookup key = some x → x.type = .int → ∃ i, x.value = .word i := by
    intro x hx ht
    have htyped := hw key x hx
    obtain ⟨t, v, y, n, d⟩ := x
    obtain rfl := ht
    cases v with
    | word i => exact ⟨i, rfl⟩
    | str | hash | list => exact absurd htyped (by simp [Entry.content])
  rw [update, hup]
  simp only
  rcases Entry.incrdecr_cases (δ := δ) (upserted_upsert now key s) hint with
    ⟨i, e', hat, he', hlive, hbody⟩ | ⟨hat, hfound, err, hbody⟩
  · rw [hbody]
    refine .inl ⟨i, _, hat, (lookup_write key e' _ key).trans (if_pos rfl),
      ⟨he'.type, he'.value⟩, hlive, rfl⟩
  · rw [hbody]
    exact .inr ⟨hat, hself.trans hfound.symm, _, rfl⟩

/-- `GET` of an integer prints it. -/
theorem get_of_isInt {e : Entry} {i : ℤ} (hl : s.store.lookup key = some e) (he : e.IsInt i)
    (ht : e.isExpired t = false) (missing : Reply) :
    (s.query t key missing Entry.get).2 = .ok (.text (some (formatInt64 i))) := by
  rw [query, lookup, hl]
  simp only [ht, Bool.false_eq_true, if_false, he.get]

end Session

namespace SharedStore

variable {hashBytes : Bytes → UInt32} {S : SharedStore} {now t δ : ℤ} {key : Key}

theorem upserted_upsert (now : ℤ) (key : Key) (S : SharedStore) :
    Entry.Upserted now (S.lookupRaw key)
      (SharedEntry.upserted now (S.entries.lookup key)).1.materialize
      (SharedEntry.upserted now (S.entries.lookup key)).2 := by
  rw [lookupRaw]
  cases S.entries.lookup key with
  | none => exact .fresh (fun x hx => absurd hx (by simp)) rfl
  | some se =>
    rw [SharedEntry.upserted]
    split_ifs with h
    · exact .fresh (fun x hx => Option.some.inj hx ▸ h) rfl
    · exact .found rfl (Bool.not_eq_true _ ▸ h)

/-- An integer is written back without any allocation. -/
theorem lookupRaw_markDirty_int {e : Entry} {i : ℤ} (he : e.IsInt i) (ok : StoreSite → Bool)
    (key : Key) (S : SharedStore) (r : Reply) :
    (∃ e', (S.markDirty hashBytes ok key e r).1.lookupRaw key = some e' ∧ e'.IsInt i ∧
        e'.expireAt = e.expireAt) ∧
      (S.markDirty hashBytes ok key e r).2.2 = .ok r := by
  obtain ⟨d', hw⟩ : ∃ d', SharedEntry.writeback hashBytes ok e S.dsa (S.entries.lookup key) = _ :=
    SharedEntry.writeback_eq_populate fun se _ => .inr (by rw [he.type]; decide)
  rw [SharedValue.populate, he.type, he.value] at hw
  have hok : (S.writeback hashBytes ok key e).2 = .ok () := by rw [writeback_snd, hw]; rfl
  constructor
  · rw [lookupRaw, markDirty_fst, lookup_writeback, if_pos rfl, hw]
    exact ⟨_, rfl, ⟨rfl, rfl⟩, rfl⟩
  · have hpair : S.writeback hashBytes ok key e = ((S.writeback hashBytes ok key e).1, .ok ()) :=
      Prod.ext rfl hok
    rw [markDirty, hpair]

theorem countStep (ok : StoreSite → Bool) (now δ : ℤ) (key : Key) (S : SharedStore) :
    CountStep now δ (S.lookupRaw key)
      ((S.update hashBytes ok now key (Entry.incrdecr δ)).1.lookupRaw key)
      (S.update hashBytes ok now key (Entry.incrdecr δ)).2.2 := by
  have hup : S.upsert now key = ((S.upsert now key).1,
      (SharedEntry.upserted now (S.entries.lookup key)).1.materialize,
      (SharedEntry.upserted now (S.entries.lookup key)).2) := Prod.ext rfl upsert_snd
  have hint : ∀ x, S.lookupRaw key = some x → x.type = .int → ∃ i, x.value = .word i := by
    intro x hx ht
    obtain ⟨se, -, rfl⟩ := Option.map_eq_some_iff.1 hx
    obtain ⟨v, y, n⟩ := se
    cases v with
    | int i => exact ⟨i, rfl⟩
    | str | hash | list => exact absurd ht (by simp [SharedEntry.materialize, SharedValue.type])
  rw [update, hup]
  simp only
  rcases Entry.incrdecr_cases (δ := δ) (upserted_upsert now key S) hint with
    ⟨i, e', hat, he', hlive, hbody⟩ | ⟨hat, hfound, err, hbody⟩
  · rw [hbody]
    obtain ⟨⟨e'', hl, he'', hx⟩, hr⟩ := @lookupRaw_markDirty_int hashBytes _ _ he' ok key
      (S.upsert now key).1 (.int (Int.bmod (i + δ) (2 ^ 64)))
    exact .inl ⟨i, e'', hat, hl, he'', by rwa [Entry.isExpired, hx], hr⟩
  · rw [hbody]
    refine .inr ⟨hat, ?_, _, rfl⟩
    rw [hfound, lookupRaw, lookup_upsert, if_pos rfl]
    rfl

/-- `GET` of an integer prints it. -/
theorem get_of_isInt {ok : StoreSite → Bool} {e : Entry} {i : ℤ} (hl : S.lookupRaw key = some e)
    (he : e.IsInt i) (ht : e.isExpired t = false) (missing : Reply) :
    (S.query hashBytes ok t key missing Entry.get).2.2 =
      .ok (.text (some (formatInt64 i))) := by
  rw [query, lookup, hl]
  simp only [ht, Bool.false_eq_true, if_false, he.get]

end SharedStore

/-- The call leaves an integer other than the one it has found. -/
theorem CountStep.ne_of_integerAt {ε : Type} {now δ i : ℤ} {o o' : Option Entry}
    {r : Except ε Reply} (h : CountStep now δ o o' r) (hδ : δ = 1 ∨ δ = -1)
    (hat : Entry.integerAt now o = some i) : o' ≠ o := by
  rintro rfl
  rcases h with ⟨j, e, hat', rfl, he, hlive, -⟩ | ⟨hnone, -⟩
  · have hfix : Int.bmod (j + δ) (2 ^ 64) = j := by
      rw [Entry.integerAt_of_live hlive, he.integer] at hat'
      exact Option.some.inj hat'
    have hmod : Int.bmod (j + δ) (2 ^ 64) % (2 ^ 64 : ℕ) = (j + δ) % (2 ^ 64 : ℕ) :=
      Int.bmod_emod
    rw [hfix] at hmod
    omega
  · exact absurd (hnone.symm.trans hat) (by simp)

/-! ## Runs of `INCR` and `DECR` -/

/-- The bytes of the event for an integer under the key. -/
def eventLength (key : Key) : ℕ := key.length + (tlvHeaderSize + 8)

theorem Entry.IsInt.encodeArgs {e : Entry} {i : ℤ} (he : e.IsInt i) (key : Key) :
    e.encodeArgs key = [.keyUpsert key e (encodeInt i)] := by
  simp [Entry.encodeArgs, Entry.encodeValue, Entry.dirtyFields, Entry.tombstones,
    Entry.pendingInserts, Entry.pendingDeleteOrds, he.type, he.value]

/-- A call of `INCR`, or of `DECR` (`down`): its limits, its reading of the clock, its key, what
    memory there is for it in shared mode, and, under `async_table`, what it meets when it
    publishes. -/
structure CountCall where
  lim : Limits
  now : ℤ
  key : Key
  down : Bool
  ok : StoreSite → Bool
  pressure : Option Backpressure

namespace CountCall

/-- What it adds. -/
def delta (o : CountCall) : ℤ := if o.down then -1 else 1

/-- The command. -/
def cmd (o : CountCall) : Command := if o.down then .decr o.key else .incr o.key

/-- `INCR` and `DECR` differ in what they add. -/
theorem perform_session (o : CountCall) (s : Session) :
    s.perform o.now o.now o.cmd = s.update o.now o.key (Entry.incrdecr o.delta) := by
  rw [cmd, delta]
  split_ifs <;> rfl

theorem perform_shared (o : CountCall) (hashBytes : Bytes → UInt32) (S : SharedStore) :
    S.perform hashBytes o.ok o.now o.now o.cmd =
      S.update hashBytes o.ok o.now o.key (Entry.incrdecr o.delta) := by
  rw [cmd, delta]
  split_ifs <;> rfl

theorem delta_eq (o : CountCall) : o.delta = 1 ∨ o.delta = -1 := by
  rw [delta]
  split_ifs <;> simp

end CountCall

namespace Backend

variable (hashBytes : Bytes → UInt32)

/-- The entry of a key, in shared mode its copy. -/
def entry (b : Backend) (key : Key) : Option Entry :=
  match b.mode with
  | .session => b.session.store.lookup key
  | .shared => b.shared.lookupRaw key

/-- A call of `INCR` or `DECR` with what it publishes. In session mode `async_table` counts as
    `sync_table`. -/
def count (b : Backend) (o : CountCall) : Backend × Except CallError Reply :=
  match b.mode, o.pressure with
  | .shared, some p => match o.cmd.check o.lim with
    | .error err => (b, .error (.command (.command err)))
    | .ok () => match b.shared.updateAsync hashBytes o.ok p o.now o.key
        (Entry.incrdecr o.delta) with
      | (S, _, r) => ({ b with shared := S }, r)
  | _, _ => match b.exec hashBytes o.ok ⟨o.lim, o.now, o.now, o.cmd⟩ with
    | (b, r) => (b, r.mapError .command)

/-- The call is exact or fails: what it returns is the integer of its key plus or minus one,
    which `GET` then prints; where it raises an error the entry, its version included, is as it
    was; and it raises one if the result is no `int64`. -/
structure CountsExactly (b : Backend) (o : CountCall) : Prop where
  returned : ∀ r, (b.count hashBytes o).2 = .ok r →
    ∃ i, Entry.integerAt o.now (b.entry o.key) = some i ∧ Fits 64 (i + o.delta) ∧
      r = .int (i + o.delta) ∧ ∃ e, (b.count hashBytes o).1.entry o.key = some e ∧
        e.integer = some (i + o.delta) ∧ ∀ g : Request, g.1.cmd = .get o.key →
          g.1.cmd.check g.1.lim = .ok () → e.isExpired g.1.now = false →
          ((b.count hashBytes o).1.exec hashBytes g.2 g.1).2 =
            .ok (.text (some (formatInt64 (i + o.delta))))
  raised : ∀ err, (b.count hashBytes o).2 = .error err →
    (b.count hashBytes o).1.entry o.key = b.entry o.key
  range : ∀ i, Entry.integerAt o.now (b.entry o.key) = some i → ¬Fits 64 (i + o.delta) →
    ∃ err, (b.count hashBytes o).2 = .error err

/-- If the call publishes an event, there is room in time for it, and memory if it spills. -/
def Publishes (b : Backend) (o : CountCall) : Prop :=
  ∀ p, b.mode = .shared → o.pressure = some p → p.Admits (eventLength o.key)

/-- Unless its arguments are refused, or there is no integer, the call is no `INCR` of the greatest
    `int64` and no `DECR` of the least, and its event is not refused. -/
def InRange (b : Backend) (o : CountCall) : Prop :=
  o.cmd.check o.lim = .ok () → ∀ i, Entry.integerAt o.now (b.entry o.key) = some i →
    Fits 64 (i + o.delta) ∧ Publishes b o

variable {hashBytes} {b : Backend} {K : Cells} {key : Key} {o : CountCall}

/-- A call of which nothing is published. -/
theorem count_of_silent (h : ∀ p, b.mode = .shared → o.pressure ≠ some p) :
    b.count hashBytes o = ((b.exec hashBytes o.ok ⟨o.lim, o.now, o.now, o.cmd⟩).1,
      (b.exec hashBytes o.ok ⟨o.lim, o.now, o.now, o.cmd⟩).2.mapError .command) := by
  rw [count]
  split
  next p hm hp => exact absurd hp (h p hm)
  next => rfl

theorem count_refused {err : CommandError} (hcheck : o.cmd.check o.lim = .error err) :
    b.count hashBytes o = (b, .error (.command (.command err))) := by
  by_cases h : ∀ p, b.mode = .shared → o.pressure ≠ some p
  · rw [count_of_silent h, exec_refused hcheck o.ok]
    rfl
  · simp only [not_forall, not_not, exists_prop] at h
    obtain ⟨p, hm, hp⟩ := h
    simp only [count, hm, hp, hcheck]

/-- A call with what it publishes does the same as without, except that it raises an error if its
    event is refused. -/
theorem count_eq (hcheck : o.cmd.check o.lim = .ok ()) :
    (b.count hashBytes o).1 = (b.exec hashBytes o.ok ⟨o.lim, o.now, o.now, o.cmd⟩).1 ∧
      match (b.exec hashBytes o.ok ⟨o.lim, o.now, o.now, o.cmd⟩).2 with
      | .error err => (b.count hashBytes o).2 = .error (.command err)
      | .ok r => Publishes b o ∧ (b.count hashBytes o).2 = .ok r ∨
        ¬Publishes b o ∧ ∃ err, (b.count hashBytes o).2 = .error err := by
  -- Without a ring the call is that of `exec`; with one, the event comes after the writeback.
  by_cases h : ∀ p, b.mode = .shared → o.pressure ≠ some p
  · rw [count_of_silent h]
    refine ⟨rfl, ?_⟩
    cases (b.exec hashBytes o.ok ⟨o.lim, o.now, o.now, o.cmd⟩).2 with
    | error err => rfl
    | ok r => exact .inl ⟨fun p hm hp => absurd hp (h p hm), rfl⟩
  · simp only [not_forall, not_not, exists_prop] at h
    obtain ⟨p, hm, hp⟩ := h
    have hpub : Publishes b o ↔ p.Admits (eventLength o.key) :=
      ⟨fun h => h p hm hp, fun h p' _ hp' => Option.some.inj (hp.symm.trans hp') ▸ h⟩
    rw [exec_shared hm, SharedStore.exec, hcheck]
    simp only [count, hm, hp, hcheck, o.perform_shared]
    cases hupd : (b.shared.update hashBytes o.ok o.now o.key (Entry.incrdecr o.delta)).2.2 with
    | error err =>
      rw [SharedStore.updateAsync_of_error hupd]
      exact ⟨rfl, rfl⟩
    | ok r =>
      obtain ⟨e, hbody, heq⟩ := @SharedStore.updateAsync_of_ok hashBytes o.ok p b.shared o.key
        o.now _ r hupd
      obtain ⟨i, he⟩ := Entry.isInt_of_incrdecr hbody
      -- The event of an integer: its key, and the thirteen bytes of its encoding.
      have hlen : ((EncodeArgs.keyUpsert o.key e (encodeInt i)).key ++
          (EncodeArgs.keyUpsert o.key e (encodeInt i)).field ++
          (EncodeArgs.keyUpsert o.key e (encodeInt i)).value).length = eventLength o.key := by
        simp only [EncodeArgs.key, EncodeArgs.field, EncodeArgs.value, List.append_nil,
          List.length_append, length_encodeInt, eventLength]
      rw [heq, hpub, he.encodeArgs, ← hlen, ← p.publishEach_iff]
      refine ⟨rfl, ?_⟩
      simp only
      cases (p.action.publishEach [.keyUpsert o.key e (encodeInt i)] p.chunk p.ring).2 with
      | error err => exact .inr ⟨by simp, err, rfl⟩
      | ok u => exact .inl ⟨rfl, rfl⟩

/-- One call, but for its event. -/
theorem Sound.countStep (h : b.Sound hashBytes K) (hcheck : o.cmd.check o.lim = .ok ()) :
    CountStep o.now o.delta (b.entry o.key)
      ((b.exec hashBytes o.ok ⟨o.lim, o.now, o.now, o.cmd⟩).1.entry o.key)
      (b.exec hashBytes o.ok ⟨o.lim, o.now, o.now, o.cmd⟩).2 := by
  cases hm : b.mode with
  | session =>
    have hstep := Session.countStep (h.session hm).1 o.now o.delta o.key
    rw [exec_session hm]
    simp only [entry, hm, Session.call, Session.exec, hcheck, o.perform_session]
    rcases hstep with ⟨i, e, hat, he, hint, hlive, hr⟩ | ⟨hat, he, err, hr⟩
    · exact .inl ⟨i, e, hat, he, hint, hlive, by rw [hr]; rfl⟩
    · exact .inr ⟨hat, he, _, by rw [hr]; rfl⟩
  | shared =>
    have hstep := @SharedStore.countStep hashBytes o.ok o.now o.delta o.key b.shared
    rw [exec_shared hm]
    simp only [entry, hm, SharedStore.exec, hcheck, o.perform_shared]
    exact hstep

/-- `GET` of an integer prints it. -/
theorem get_of_isInt {e : Entry} {i : ℤ} (he : b.entry key = some e) (hint : e.IsInt i)
    {g : Request} (hg : g.1.cmd = .get key) (hcheck : g.1.cmd.check g.1.lim = .ok ())
    (hlive : e.isExpired g.1.now = false) :
    (b.exec hashBytes g.2 g.1).2 = .ok (.text (some (formatInt64 i))) := by
  rw [entry] at he
  cases hm : b.mode with
  | session =>
    rw [hm] at he
    rw [exec_session hm, Session.exec, hcheck, hg]
    simp only [Session.perform, Session.get_of_isInt he hint hlive]
    rfl
  | shared =>
    rw [hm] at he
    rw [exec_shared hm, SharedStore.exec, hcheck, hg]
    exact SharedStore.get_of_isInt he hint hlive _

theorem bmod_of_fits {i : ℤ} (h : Fits 64 i) : Int.bmod i (2 ^ 64) = i := by
  rw [Fits] at h
  exact Int.bmod_eq_of_le (by omega) (by omega)

/-- One call. -/
theorem Sound.countsExactly_iff (h : b.Sound hashBytes K) :
    CountsExactly hashBytes b o ↔ InRange b o := by
  cases hcheck : o.cmd.check o.lim with
  | error err =>
    have hcount : b.count hashBytes o = _ := count_refused hcheck
    refine iff_of_true ⟨?_, ?_, ?_⟩ fun hok => absurd (hcheck.symm.trans hok) (by simp)
    · exact fun r hr => absurd (hcount ▸ hr) (by simp)
    · exact fun _ _ => by rw [hcount]
    · exact fun _ _ _ => ⟨_, by rw [hcount]⟩
  | ok u =>
    obtain ⟨hfst, hsnd⟩ := @count_eq hashBytes b o hcheck
    have hstep := h.countStep hcheck
    rw [← hfst] at hstep
    have hne := fun i => hstep.ne_of_integerAt (i := i) o.delta_eq
    rcases hstep with ⟨i, e, hat, he, hint, hlive, hr⟩ | ⟨hat, he, err, hr⟩
    -- The key holds an integer: the reply is the sum in 64 bits, exact if it fits.
    · rw [hr] at hsnd
      constructor
      · intro hc _ j hj
        rcases hsnd with ⟨hpub, hcount⟩ | ⟨-, err, hcount⟩
        · refine ⟨by_contra fun hno => ?_, hpub⟩
          obtain ⟨err, herr⟩ := hc.range j hj hno
          exact absurd (hcount.symm.trans herr) (by simp)
        -- The event is refused: the entry has been changed.
        · exact absurd (hc.raised err hcount) (hne i hat)
      · intro hin
        obtain ⟨hfits, hpub⟩ := hin hcheck i hat
        have hcount := (hsnd.resolve_right fun hno => hno.1 hpub).2
        rw [bmod_of_fits hfits] at hint hcount
        refine ⟨fun r hr' => ?_, fun err herr => absurd (hcount.symm.trans herr) (by simp),
          fun j hj hno => absurd (hin hcheck j hj).1 hno⟩
        obtain rfl := Except.ok.inj (hcount.symm.trans hr')
        exact ⟨i, hat, hfits, rfl, e, he, hint.integer, fun g hg hgc hlive =>
          get_of_isInt he hint hg hgc hlive⟩
    -- It holds something else: the call raises an error.
    · rw [hr] at hsnd
      refine iff_of_true ⟨fun r hr' => absurd (hsnd.symm.trans hr') (by simp),
        fun _ _ => he, fun _ _ _ => ⟨_, hsnd⟩⟩ fun _ j hj => ?_
      exact absurd (hat.symm.trans hj) (by simp)

/-- For every keyspace with cells and every run of `INCR` and `DECR`, whatever memory there is for
    them and whatever their events meet: all calls are exact or fail and change nothing if and
    only if no `INCR` meets the greatest `int64`, no `DECR` the least, and no event of a call is
    refused. -/
theorem counts_iff (h : b.Sound hashBytes K) (cs : List CountCall) :
    Meets (fun b o => some (count hashBytes b o).1) (CountsExactly hashBytes) b cs ↔
      Meets (fun b o => some (count hashBytes b o).1) InRange b cs := by
  refine meets_congr (P := fun b => ∃ K, Sound hashBytes b K) (C := fun _ => True) ?_ ?_ cs b
    (fun _ _ => trivial) ⟨K, h⟩
  · rintro b o b' ⟨K, h⟩ - hst
    obtain rfl := Option.some.inj hst
    cases hcheck : o.cmd.check o.lim with
    | error err =>
      rw [count_refused hcheck]
      exact ⟨K, h⟩
    | ok u =>
      rw [(count_eq hcheck).1]
      obtain ⟨K', h', -⟩ := h.exec o.ok (c := ⟨o.lim, o.now, o.now, o.cmd⟩) (by
        intro field hf
        simp only [CountCall.cmd] at hf
        split_ifs at hf <;> simp [Command.field?] at hf)
      exact ⟨K', h'⟩
  · rintro b o ⟨K, h⟩ -
    exact h.countsExactly_iff

/-- `INCR`, `INCR` and `DECR` of a missing key in shared mode under `async_table`. The first finds
    room at the third attempt. -/
theorem counts_missing : Meets (fun b o => some (count (fun _ => 0) b o).1)
    (CountsExactly fun _ => 0) ⟨.shared, .init, .empty⟩
    [⟨⟨0, 0⟩, 0, [107], false, enough, some ⟨.block, fun _ => false, [.full, .full, .ok]⟩⟩,
      ⟨⟨0, 0⟩, 0, [107], false, enough, some ⟨.syncFlush, fun _ => false, []⟩⟩,
      ⟨⟨0, 0⟩, 0, [107], true, enough, none⟩] := by
  refine (counts_iff (sound_init .shared) _).2 ?_
  simp only [Meets, InRange, Publishes, Option.some.injEq, forall_eq', and_true, reduceCtorEq,
    false_implies, implies_true]
  refine ⟨fun _ i hi => ⟨?_, fun p _ hp => ?_⟩, fun _ i hi => ⟨?_, fun p _ hp => ?_⟩,
    fun _ i hi => ?_⟩
  -- The sums fit, and there is room for the events.
  all_goals
    first
    | obtain rfl := Option.some.inj hi
      decide
    | subst hp
      decide

/-- The text of the greatest `int64`. -/
def maxInt64Text : Bytes :=
  [57, 50, 50, 51, 51, 55, 50, 48, 51, 54, 56, 53, 52, 55, 55, 53, 56, 48, 55]

/-- `SET k 9223372036854775807` and `INCR k`: the reply is the least `int64`. -/
theorem incr_wraps : ¬∀ (hashBytes : Bytes → UInt32) (b : Backend) (K : Cells) (o : CountCall),
    b.Sound hashBytes K → CountsExactly hashBytes b o := by
  intro h
  obtain ⟨K, hK, -⟩ := (@sound_init (fun _ => 0) .session).exec enough
    (c := ⟨⟨0, 0⟩, 0, 0, .set [107] maxInt64Text⟩) (by simp [Command.Text, Command.field?])
  obtain ⟨i, hat, hfits, -⟩ := (h _ _ K ⟨⟨0, 0⟩, 0, [107], false, enough, none⟩ hK).returned
    (.int (-9223372036854775808)) rfl
  have hi : (some 9223372036854775807 : Option ℤ) = some i := hat
  obtain rfl := Option.some.inj hi
  exact absurd hfits (by decide)

/-- `INCR` of a missing key in shared mode whose event is refused: it raises an error, and the key
    holds 1. -/
example :
    let x := count (fun _ => 0) ⟨.shared, .init, .empty⟩ ⟨⟨0, 0⟩, 0, [107], false, enough,
      some ⟨.block, fun _ => true, List.replicate 100 .full⟩⟩
    x.2 = .error .ringFull ∧ (x.1.entry [107]).map Entry.integer = some (some 1) :=
  ⟨rfl, rfl⟩

end Backend

end PgRedis
