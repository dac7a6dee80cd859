import PgRedis.Modes

/-!
# The locked sections of commands

In shared mode a command on strings, integers or lists holds the partition lock of its key
twice: once to copy the entry (`pg_redis_shared_store_upsert` or `_lookup_raw`) and once to
write the changed copy back, or to remove the entry. `HSET` and `HDEL` have one section each.

Run one after the other, the sections of a command are the command (`runOut_first`).
`first_advances` says what the first section does to the cells of the keyspace, and for which
cells the rest of the command will do what the whole command does to them.
-/

namespace PgRedis

open Lib

/-! ## Sections -/

/-- What is left of a command after a section. `isNew` is of the entry it has copied. -/
inductive Rest
  | remove (r : Reply)
  | reread
  | write (e : Entry) (isNew : Bool) (r : Reply)

/-- A command returns at the end of a section, or goes on to another one. -/
inductive Progress
  | returns (r : Except SharedCommandError Reply)
  | goesOn (rest : Rest)

namespace SharedStore

section

variable (hashBytes : Bytes → UInt32) (ok : StoreSite → Bool)

/-- The section of `pg_redis_shared_store_upsert` in a command that then edits the copy. -/
def updateFirst (now : ℤ) (key : Key) (f : Bool → Entry → Except EntryError (Entry × Reply))
    (S : SharedStore) : SharedStore × Progress :=
  match S.upsert now key with
  | (S, e, isNew) => match f isNew e with
    | .error err => (S, .returns (.error (.command (.entry key err))))
    | .ok (e', r) => (S, .goesOn (.write e' isNew r))

/-- The section of `pg_redis_shared_store_lookup_raw` in a command that looks its key up. -/
def queryFirst (now : ℤ) (key : Key) (missing : Reply)
    (f : Entry → Except EntryError (Option Entry × Reply)) (S : SharedStore) :
    SharedStore × Progress :=
  match S.lookupRaw key with
  | none => (S, .returns (.ok missing))
  | some e =>
    if e.isExpired now then (S, .goesOn (.remove missing))
    else match f e with
      | .error err => (S, .returns (.error (.command (.entry key err))))
      | .ok (none, r) => (S, .returns (.ok r))
      | .ok (some e', r) => (S, .goesOn (.write e' false r))

/-- The first section of `EXPIRE`, that of `pg_redis_set_expire_seconds`. -/
def expireFirst (now : ℤ) (key : Key) (seconds : ℤ) (S : SharedStore) : SharedStore × Progress :=
  match S.lookupRaw key with
  | none => (S, .returns (.ok (.bool false)))
  | some e =>
    if e.isExpired now then (S, .goesOn (.remove (.bool false)))
    else if seconds ≤ 0 then (S, .goesOn (.remove (.bool true)))
    else (S, .goesOn .reread)

/-- A command that has only one section. -/
def only (x : SharedStore × List DirtyEvent × Except SharedCommandError Reply) :
    SharedStore × Progress :=
  (x.1, .returns x.2.2)

/-- The first section of a command whose arguments have been checked; of those that are run
    here. -/
def first (now : ℤ) (S : SharedStore) : Command → Option (SharedStore × Progress)
  | .set key value => some (S.updateFirst now key (Entry.set value))
  | .incr key => some (S.updateFirst now key (Entry.incrdecr 1))
  | .decr key => some (S.updateFirst now key (Entry.incrdecr (-1)))
  | .expire key seconds => some (S.expireFirst now key seconds)
  | .push side key value => some (S.updateFirst now key (Entry.listPush side value))
  | .pop side key => some (S.queryFirst now key (.text none) (Entry.listPop side))
  | .hset key field value => some (only (S.hset hashBytes ok now key field value))
  | .hdel key field => some (only (S.hdel hashBytes ok now key field))
  | _ => none

/-- A later section of a command on `key`. -/
def second (key : Key) (S : SharedStore) : Rest → SharedStore × Progress
  | .remove r => ((S.remove key).1, .returns (.ok r))
  | .reread => match S.lookupRaw key with
    | none => (S, .returns (.ok (.bool true)))
    | some e => (S, .goesOn (.write e false (.bool true)))
  | .write e _ r => match S.writeback hashBytes ok key e with
    | (S, .error err) => (S, .returns (.error (.writeback err)))
    | (S, .ok ()) => (S, .returns (.ok r))

/-- The sections of a command run to its end, none of others in between. -/
def runOut (key : Key) (x : SharedStore × Progress) :
    SharedStore × Option (Except SharedCommandError Reply) :=
  match x with
  | (S, .returns r) => (S, some r)
  | (S, .goesOn rest) => match S.second hashBytes ok key rest with
    | (S, .returns r) => (S, some r)
    | (S, .goesOn rest) => match S.second hashBytes ok key rest with
      | (S, .returns r) => (S, some r)
      | (S, .goesOn _) => (S, none)

/-- Without others its sections are the command. -/
theorem runOut_first {now : ℤ} {c : Command} {S : SharedStore} {x : SharedStore × Progress}
    (h : S.first hashBytes ok now c = some x) (now' : ℤ) :
    runOut hashBytes ok c.key x = ((S.perform hashBytes ok now now' c).1,
      some (S.perform hashBytes ok now now' c).2.2) := by
  -- The three ways of a command to its second section.
  have update : ∀ key f, runOut hashBytes ok key (S.updateFirst now key f) =
      ((S.update hashBytes ok now key f).1, some (S.update hashBytes ok now key f).2.2) := by
    intro key f
    rw [updateFirst, SharedStore.update]
    obtain ⟨S', e, isNew⟩ := S.upsert now key
    simp only
    cases f isNew e with
    | error err => rfl
    | ok x =>
      simp only [runOut, second, markDirty]
      obtain ⟨S'', err | u⟩ := S'.writeback hashBytes ok key x.1 <;> rfl
  have query : ∀ key missing f, runOut hashBytes ok key (S.queryFirst now key missing f) =
      ((S.query hashBytes ok now key missing f).1,
        some (S.query hashBytes ok now key missing f).2.2) := by
    intro key missing f
    rw [queryFirst, SharedStore.query, SharedStore.lookup]
    cases S.lookupRaw key with
    | none => rfl
    | some e =>
      simp only
      split_ifs
      · rfl
      · rcases hf : f e with err | ⟨_ | e', r⟩
        · simp only [hf, runOut]
        · simp only [hf, runOut]
        · simp only [hf, runOut, second, markDirty]
          obtain ⟨S'', err | u⟩ := S.writeback hashBytes ok key e' <;> rfl
  have expire : ∀ key seconds, runOut hashBytes ok key (S.expireFirst now key seconds) =
      ((S.expire hashBytes ok now key seconds).1,
        some (S.expire hashBytes ok now key seconds).2.2) := by
    intro key seconds
    rw [expireFirst, SharedStore.expire, SharedStore.lookup]
    cases hl : S.lookupRaw key with
    | none => rfl
    | some e =>
      by_cases hexp : e.isExpired now
      · simp only [if_pos hexp, runOut, second]
      · by_cases hneg : seconds ≤ 0
        · simp only [if_neg hexp, if_pos hneg, runOut, second]
        · simp only [if_neg hexp, if_neg hneg, runOut, second, hl, markDirty]
          obtain ⟨S'', err | u⟩ := S.writeback hashBytes ok key e <;> rfl
  cases c <;> simp only [first, Option.some.injEq, reduceCtorEq] at h <;> subst h
  case set key value => exact update key _
  case incr key => exact update key _
  case decr key => exact update key _
  case expire key seconds => exact expire key seconds
  case push side key value => exact update key _
  case pop side key => exact query key _ _
  case hset => rfl
  case hdel => rfl

end

end SharedStore

/-! ## Commands and sections on cells -/

namespace Cell

/-- A call in shared mode, on what its key holds. -/
def exec (c : Call) (o : Option Cell) : Option Cell × Except SharedCommandError Reply :=
  match c.cmd.check c.lim, c.cmd with
  | .error err, _ => (o, .error (.command err))
  | .ok (), .hset key field value =>
    if value.length ≤ uint16Max then
      ((perform .shared c.now c.now' o (.hset key field value)).1,
        (perform .shared c.now c.now' o (.hset key field value)).2.mapError .command)
    else ((found c.now o).or (some ⟨.hash ∅, none⟩),
      .error (SharedEntry.longError key value (found c.now o)))
  | .ok (), cmd => ((perform .shared c.now c.now' o cmd).1,
      (perform .shared c.now c.now' o cmd).2.mapError .command)

theorem exec_of_check {c : Call} (hcheck : c.cmd.check c.lim = .ok ())
    (hlen : ∀ key field value, c.cmd = .hset key field value → value.length ≤ uint16Max)
    (o : Option Cell) : exec c o = ((perform .shared c.now c.now' o c.cmd).1,
      (perform .shared c.now c.now' o c.cmd).2.mapError .command) := by
  rw [exec, hcheck]
  split
  · rename_i h
    exact absurd h (by simp)
  · rename_i key field value _ hc
    rw [if_pos (hlen key field value hc), hc]
  · rfl

end Cell

/-- The fields of a command are SQL text. -/
def Command.IsText (c : Command) : Prop := ∀ field, c.field? = some field → 0 ∉ field

namespace SharedStore

variable {hashBytes : Bytes → UInt32} {S : SharedStore} {K : Cells} {now : ℤ} {key : Key}

/-- A call, with enough memory. -/
theorem exec_shows (h : S.Shows hashBytes K) (c : Call) (htext : c.cmd.IsText) :
    ∃ S' evs, S'.Shows hashBytes
        (Function.update K c.cmd.key (Cell.exec c (K c.cmd.key)).1) ∧
      S.exec hashBytes enough c.lim c.now c.now' c.cmd =
        (S', evs, (Cell.exec c (K c.cmd.key)).2) := by
  cases hcheck : c.cmd.check c.lim with
  | error err =>
    refine ⟨S, [], ?_, ?_⟩
    · rw [Cell.exec, hcheck, Function.update_eq_self]
      exact h
    · rw [exec, Cell.exec, hcheck]
  | ok u =>
    by_cases hlen : ∀ key field value, c.cmd = .hset key field value → value.length ≤ uint16Max
    · obtain ⟨S', evs, hS', heq⟩ := perform_shows enough_eq h hcheck htext hlen c.now c.now'
      rw [Cell.exec_of_check hcheck hlen, exec, hcheck]
      exact ⟨S', evs, hS', heq⟩
    · push Not at hlen
      obtain ⟨key, field, value, hc, hlong⟩ := hlen
      obtain ⟨S', hS', heq⟩ := hset_long enough_eq h hlong c.now key field
      refine ⟨S', [], ?_, ?_⟩
      · rw [Cell.exec, hcheck, hc]
        simp only [if_neg (Nat.not_le.2 hlong)]
        exact hS'
      · rw [Cell.exec, exec, hcheck, hc]
        simp only [if_neg (Nat.not_le.2 hlong)]
        exact heq

/-- What a first section does to the keyspace, if the command as a whole does `f` to what its
    key holds. An entry is made only if there is none that has not expired. Where the command
    goes on, its rest does what `f` does to any cell that looks the same to it: to the clock
    reading `now`, and for a removal in that there is a cell or none. -/
def Advances (hashBytes : Bytes → UInt32) (K : Cells) (now : ℤ) (key : Key)
    (f : Option Cell → Option Cell × Except SharedCommandError Reply) (S S' : SharedStore) :
    Progress → Prop
  | .returns r => S'.Shows hashBytes (Function.update K key (f (K key)).1) ∧ (f (K key)).2 = r
  | .goesOn (.remove r) => S' = S ∧ ∀ o, (Cell.found now o).isSome =
      (Cell.found now (K key)).isSome → f o = (none, .ok r)
  | .goesOn .reread => S' = S ∧ ∀ o c, Cell.found now o = some c →
      f o = (some (c.stored .shared), .ok (.bool true))
  | .goesOn (.write e isNew r) =>
    (if isNew then Cell.found now (K key) = none ∧
        S'.Shows hashBytes (Function.update K key (some .fresh))
      else (∃ k, Cell.found now (K key) = some k) ∧ S'.Shows hashBytes K) ∧
    ∃ c, e.Shows c ∧ c.value.type ≠ .hash ∧
      ∀ o, Cell.found now o = Cell.found now (K key) → f o = (some (c.stored .shared), .ok r)

theorem updateFirst_advances (h : S.Shows hashBytes K)
    {f : Bool → Entry → Except EntryError (Entry × Reply)}
    {g : Bool → Cell → Except EntryError (Cell × Reply)} (hfg : UpdateSim f g)
    (hno : ∀ isNew c c' r, g isNew c = .ok (c', r) → c'.value.type ≠ .hash) (now : ℤ) (key : Key) :
    Advances hashBytes K now key (fun o => ((Cell.update .shared now key g o).1,
        (Cell.update .shared now key g o).2.mapError .command)) S
      (S.updateFirst now key f).1 (S.updateFirst now key f).2 := by
  obtain ⟨hec, hnew⟩ := SharedEntry.upserted_shows (h key) now
  have hup : S.upsert now key = ((S.upsert now key).1,
      (SharedEntry.upserted now (S.entries.lookup key)).1.materialize,
      (SharedEntry.upserted now (S.entries.lookup key)).2) := Prod.ext rfl upsert_snd
  rw [updateFirst, hup]
  simp only
  rcases hfg (SharedEntry.upserted now (S.entries.lookup key)).2 _ _
    (SharedEntry.materialize_shows hec) with ⟨err, hf, hg⟩ | ⟨e', c', r, hf, hg, hec'⟩
  · simp only [hf, Advances, Cell.update, ← hnew, hg]
    exact ⟨h.upsert now key, rfl⟩
  · simp only [hf]
    refine ⟨?_, c', hec', hno _ _ _ _ hg, fun o ho => ?_⟩
    · have hS := h.upsert now key
      rw [hnew]
      rcases Cell.upserted_cases now (K key) with ⟨hfound, hnone⟩ | ⟨c, hK, hfound, hsome⟩
      · rw [hnone] at hS ⊢
        exact ⟨hfound, hS⟩
      · rw [hsome] at hS ⊢
        rw [← hK, Function.update_eq_self] at hS
        exact ⟨⟨c, hfound⟩, hS⟩
    · simp only [Cell.update, Cell.upserted_congr ho, ← hnew, hg]
      rfl

theorem lookupRaw_cases (h : S.Shows hashBytes K) (now : ℤ) (key : Key) :
    (S.lookupRaw key = none ∧ K key = none) ∨
    ∃ e c, S.lookupRaw key = some e ∧ K key = some c ∧ e.Shows c ∧
      (e.isExpired now = true ∧ Cell.found now (K key) = none ∨
        e.isExpired now = false ∧ Cell.found now (K key) = some c) := by
  rcases rel_cases (h.lookupRaw key) with ⟨hl, hK⟩ | ⟨e, c, hl, hK, hec⟩
  · exact .inl ⟨hl, hK⟩
  · refine .inr ⟨e, c, hl, hK, hec, ?_⟩
    rw [hK, Cell.found, ← hec.isExpired]
    cases e.isExpired now with
    | true => exact .inl ⟨rfl, rfl⟩
    | false => exact .inr ⟨rfl, rfl⟩

/-- A section that leaves a keyspace as it is leaves its cells. -/
theorem Shows.update_self (h : S.Shows hashBytes K) {o : Option Cell} (hK : K key = o) :
    S.Shows hashBytes (Function.update K key o) := by
  rw [← hK, Function.update_eq_self]
  exact h

theorem queryFirst_advances (h : S.Shows hashBytes K)
    {f : Entry → Except EntryError (Option Entry × Reply)}
    {g : Cell → Except EntryError (Option Cell × Reply)} (hfg : QuerySim (fun _ => True) f g)
    (hno : ∀ c c' r, g c = .ok (some c', r) → c'.value.type ≠ .hash) (now : ℤ) (key : Key)
    (missing : Reply) :
    Advances hashBytes K now key (fun o => ((Cell.query .shared now key missing g o).1,
        (Cell.query .shared now key missing g o).2.mapError .command)) S
      (S.queryFirst now key missing f).1 (S.queryFirst now key missing f).2 := by
  rw [queryFirst]
  rcases lookupRaw_cases h now key with ⟨hl, hK⟩ |
    ⟨e, c, hl, hK, hec, ⟨hexp, hfound⟩ | ⟨hexp, hfound⟩⟩
  · rw [hl]
    simp only [Advances, Cell.query, hK, Cell.found]
    exact ⟨h.update_self hK, rfl⟩
  · rw [hl]
    simp only [hexp, if_true]
    refine ⟨rfl, fun o ho => ?_⟩
    rw [hfound, Option.isSome_none, Option.isSome_eq_false_iff, Option.isNone_iff_eq_none] at ho
    simp only [Cell.query, ho]
    rfl
  · rw [hl]
    simp only [hexp, Bool.false_eq_true, if_false]
    rcases hfg e c trivial hec with ⟨err, hf, hg⟩ | ⟨r, hf, hg⟩ | ⟨e', c', r, hf, hg, hec'⟩
    · simp only [hf, Advances, Cell.query, hfound, hg]
      exact ⟨h.update_self hK, rfl⟩
    · simp only [hf, Advances, Cell.query, hfound, hg]
      exact ⟨h.update_self hK, rfl⟩
    · simp only [hf]
      refine ⟨⟨⟨c, hfound⟩, h⟩, c', hec', hno _ _ _ hg, fun o ho => ?_⟩
      rw [hfound] at ho
      simp only [Cell.query, ho, hg]
      rfl

theorem expireFirst_advances (h : S.Shows hashBytes K) (now now' : ℤ) (key : Key) (seconds : ℤ) :
    Advances hashBytes K now key (fun o => ((Cell.expire .shared now now' seconds o).1,
        (Cell.expire .shared now now' seconds o).2.mapError .command)) S
      (S.expireFirst now key seconds).1 (S.expireFirst now key seconds).2 := by
  rw [expireFirst]
  rcases lookupRaw_cases h now key with ⟨hl, hK⟩ |
    ⟨e, c, hl, hK, hec, ⟨hexp, hfound⟩ | ⟨hexp, hfound⟩⟩
  · rw [hl]
    simp only [Advances, Cell.expire, hK, Cell.found]
    exact ⟨h.update_self hK, rfl⟩
  · rw [hl]
    simp only [hexp, if_true]
    refine ⟨rfl, fun o ho => ?_⟩
    rw [hfound, Option.isSome_none, Option.isSome_eq_false_iff, Option.isNone_iff_eq_none] at ho
    simp only [Cell.expire, ho]
    rfl
  · rw [hl]
    simp only [hexp, Bool.false_eq_true, if_false]
    split_ifs with hneg
    · refine ⟨rfl, fun o ho => ?_⟩
      rw [hfound, Option.isSome_some, Option.isSome_iff_exists] at ho
      obtain ⟨c', hc'⟩ := ho
      simp only [Cell.expire, hc', if_pos hneg]
      rfl
    · refine ⟨rfl, fun o c' hc' => ?_⟩
      simp only [Cell.expire, hc', if_neg hneg]
      rfl

/-- The first section of a call whose arguments have been checked, with enough memory. -/
theorem first_advances (h : S.Shows hashBytes K) {c : Call} (hcheck : c.cmd.check c.lim = .ok ())
    (htext : c.cmd.IsText) {x : SharedStore × Progress}
    (hx : S.first hashBytes enough c.now c.cmd = some x) :
    Advances hashBytes K c.now c.cmd.key (Cell.exec c) S x.1 x.2 := by
  -- A command of one section does there what it does as a whole.
  have single : S.exec hashBytes enough c.lim c.now c.now' c.cmd =
      S.perform hashBytes enough c.now c.now' c.cmd := by rw [exec, hcheck]
  have whole : (∀ key field value, c.cmd ≠ .hset key field value) →
      Cell.exec c = fun o => ((Cell.perform .shared c.now c.now' o c.cmd).1,
        (Cell.perform .shared c.now c.now' o c.cmd).2.mapError .command) :=
    fun hne => funext fun o =>
      Cell.exec_of_check hcheck (fun key field value heq => absurd heq (hne _ _ _)) o
  obtain ⟨S', evs, hS', heq⟩ := exec_shows h c htext
  rw [single] at heq
  cases hc : c.cmd <;> rw [hc] at hx whole heq hS' <;>
    simp only [first, Option.some.injEq, reduceCtorEq] at hx <;> subst hx
  case hset key field value =>
    simp only [perform] at heq
    rw [only, heq]
    exact ⟨hS', rfl⟩
  case hdel key field =>
    simp only [perform] at heq
    rw [only, heq]
    exact ⟨hS', rfl⟩
  case set key value =>
    rw [whole (by simp)]
    exact updateFirst_advances h (Entry.updateSim_set value) (fun _ _ _ _ h => Cell.type_of_set h)
      c.now key
  case incr key =>
    rw [whole (by simp)]
    exact updateFirst_advances h (Entry.updateSim_incrdecr 1)
      (fun _ _ _ _ h => Cell.type_of_incrdecr h) c.now key
  case decr key =>
    rw [whole (by simp)]
    exact updateFirst_advances h (Entry.updateSim_incrdecr (-1))
      (fun _ _ _ _ h => Cell.type_of_incrdecr h) c.now key
  case push side key value =>
    rw [whole (by simp)]
    exact updateFirst_advances h (Entry.updateSim_listPush side value)
      (fun _ _ _ _ h => Cell.type_of_listPush h) c.now key
  case pop side key =>
    rw [whole (by simp)]
    exact queryFirst_advances h (Entry.querySim_listPop side)
      (fun _ _ _ h => Cell.type_of_withList h) c.now key _
  case expire key seconds =>
    rw [whole (by simp)]
    exact expireFirst_advances h c.now c.now' key seconds

/-- The keyspace after calls one after the other. -/
def calls (hashBytes : Bytes → UInt32) (ok : StoreSite → Bool) :
    SharedStore → List Call → SharedStore
  | S, [] => S
  | S, c :: cs => calls hashBytes ok (S.exec hashBytes ok c.lim c.now c.now' c.cmd).1 cs

/-- The replies to one call more. -/
theorem replies_append (S : SharedStore) (cs : List Call) (c : Call) :
    S.replies hashBytes enough (cs ++ [c]) = S.replies hashBytes enough cs ++
      [((S.calls hashBytes enough cs).exec hashBytes enough c.lim c.now c.now' c.cmd).2.2] := by
  induction cs generalizing S with
  | nil => rfl
  | cons c' cs ih =>
    rw [List.cons_append, replies, ih, replies, calls, List.cons_append]

theorem calls_append (S : SharedStore) (cs : List Call) (c : Call) :
    S.calls hashBytes enough (cs ++ [c]) =
      ((S.calls hashBytes enough cs).exec hashBytes enough c.lim c.now c.now' c.cmd).1 := by
  induction cs generalizing S with
  | nil => rfl
  | cons c' cs ih => rw [List.cons_append, calls, ih, calls]

end SharedStore

end PgRedis
