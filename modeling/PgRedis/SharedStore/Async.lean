import Mathlib.Data.Finset.Max
import PgRedis.Ring.Codec
import PgRedis.SharedStore.Refused

/-!
# Errors while events are published

Under `async_table` a command of shared mode has changed the keyspace when it publishes its
events, and can still raise an error: an event of more than 256 bytes needs a chunk of shared
memory, and out of a wait for room in the ring an error may be raised. Here both are given
with the results of the ring.

The commands that write a copy back publish one event after the other, each until there is room
(`SharedStore.updateAsync`). `HSET` repeats its locked section at every full ring; `setRun` gives
its rounds one by one, what each meets, to the last. If it raises an error because the value is
too long or an allocation fails, the keyspace is as it was only if the field table has failed in
the first round and the key was there, or the field had the value already (`hset_error_iff`).
-/

namespace PgRedis

open Lib

/-- The event has more bytes than a slot. -/
def EncodeArgs.Spills (a : EncodeArgs) : Prop :=
  inlineBytes < (a.key ++ a.field ++ a.value).length

instance (a : EncodeArgs) : Decidable a.Spills := inferInstanceAs (Decidable (_ < _))

/-- It is then that the encoders allocate. -/
theorem EncodeArgs.encode_eq_none_iff {a : EncodeArgs} {ok : Bool} {buf : Bytes} {d : Dsa} :
    (a.encode ok buf d).2 = none ↔ a.Spills ∧ ok = false := by
  rw [encode, inlineWrite, Spills]
  cases ok <;> split_ifs <;> simp_all

/-- What comes of an attempt at publishing an event: `PG_REDIS_RING_OK`, `PG_REDIS_RING_FULL`, or
    an error, of the synchronous drain or because the wait has been cancelled. -/
inductive Attempt
  | ok
  | full
  | raises
  deriving DecidableEq, Repr

namespace FullAction

variable (action : FullAction)

/-- `pg_redis_dirty_ring_publish_blocking`: the results of the ring that are left. Once they are
    used up, the ring has room. -/
def publishBlocking : List Attempt → ℕ → Except CallError (List Attempt)
  | .full :: ring, spin => match action.handle spin with
    | none => .error .ringFull
    | some spin => publishBlocking ring spin
  | .raises :: _, _ => .error .raised
  | .ok :: ring, _ => .ok ring
  | [], _ => .ok []

/-- Events encoded and published one after the other, given for each whether there is memory for
    its chunk: those that are published. -/
def publishEach : List EncodeArgs → (ℕ → Bool) → List Attempt →
    List DirtyEvent × Except CallError Unit
  | [], _, _ => ([], .ok ())
  | a :: as, chunk, ring =>
    if a.Spills ∧ chunk 0 = false then ([], .error .spill)
    else match action.publishBlocking ring 0 with
      | .error err => ([], .error err)
      | .ok ring =>
        let x := publishEach as (fun i => chunk (i + 1)) ring
        (a.event.clipped :: x.1, x.2)

/-- The attempts that meet a full ring, one after the other. -/
def fulls (ring : List Attempt) : ℕ := (ring.takeWhile (· = .full)).length

/-- There is room in time: the attempts that meet a full ring, less than a hundred of them under
    `block`, are followed by one that does not raise an error. -/
def Admits (ring : List Attempt) : Prop :=
  (action = .block → fulls ring < maxSpin) ∧ ring[fulls ring]? ≠ some .raises

instance (ring : List Attempt) : Decidable (action.Admits ring) :=
  inferInstanceAs (Decidable ((action = .block → fulls ring < maxSpin) ∧ _ ≠ _))

variable {action} {ring : List Attempt} {spin : ℕ}

/-- If no error is raised out of a wait, publishing is as it is without regard to such errors. -/
theorem publishBlocking_map (ring : List Bool) (spin : ℕ) :
    (action.publishBlocking (ring.map fun b => if b then .ok else .full) spin).toOption =
      (action.publish ring spin).map (List.map fun b => if b then .ok else .full) := by
  induction ring generalizing spin with
  | nil => rfl
  | cons b ring ih =>
    cases b with
    | true => rfl
    | false =>
      rw [publish, List.map_cons, if_neg Bool.false_ne_true, publishBlocking]
      cases action.handle spin with
      | none => rfl
      | some spin => exact ih spin

theorem fulls_cons_full : fulls (.full :: ring) = fulls ring + 1 := by
  simp [fulls]

/-- An event is published exactly if there is room in time. -/
theorem publishBlocking_iff (h : spin < maxSpin) :
    (∃ rest, action.publishBlocking ring spin = .ok rest) ↔
      (action = .block → spin + fulls ring < maxSpin) ∧ ring[fulls ring]? ≠ some .raises := by
  induction ring generalizing spin with
  | nil => exact iff_of_true ⟨_, rfl⟩ ⟨fun _ => h, by simp⟩
  | cons x ring ih =>
    cases x with
    | ok => exact iff_of_true ⟨_, rfl⟩ ⟨fun _ => h, by simp [fulls]⟩
    | raises => exact iff_of_false (by simp [publishBlocking]) fun h => h.2 (by simp [fulls])
    | full =>
      rw [publishBlocking, fulls_cons_full, List.getElem?_cons_succ]
      cases action with
      | syncFlush =>
        simp only [handle]
        rw [ih (by decide)]
        simp
      | block =>
        rw [handle]
        split_ifs with hlast
        · exact iff_of_false (by simp) fun h => absurd (h.1 rfl) (by omega)
        · refine (ih (by omega)).trans ?_
          rw [Nat.add_right_comm, Nat.add_assoc]

end FullAction

/-- What a command meets when it publishes: `pg_redis.async_full_action`, for each event whether
    there is memory for its chunk, and the results of the ring. -/
structure Backpressure where
  action : FullAction
  chunk : ℕ → Bool
  ring : List Attempt

/-- There is room in time for an event of so many bytes, and memory for its chunk if it spills. -/
def Backpressure.Admits (p : Backpressure) (len : ℕ) : Prop :=
  (inlineBytes < len → p.chunk 0 = true) ∧ p.action.Admits p.ring

instance (p : Backpressure) (len : ℕ) : Decidable (p.Admits len) :=
  inferInstanceAs (Decidable ((_ → _) ∧ _))

/-- A command with one event publishes it exactly if there is room and memory for it. -/
theorem Backpressure.publishEach_iff (p : Backpressure) (a : EncodeArgs) :
    (p.action.publishEach [a] p.chunk p.ring).2 = .ok () ↔
      p.Admits (a.key ++ a.field ++ a.value).length := by
  have hroom : (∃ rest, p.action.publishBlocking p.ring 0 = .ok rest) ↔ p.action.Admits p.ring := by
    simpa only [zero_add, FullAction.Admits] using
      @FullAction.publishBlocking_iff p.action p.ring 0 (by decide)
  by_cases hspill : a.Spills ∧ p.chunk 0 = false
  · rw [FullAction.publishEach, if_pos hspill]
    refine iff_of_false (by simp) fun h => ?_
    exact absurd ((h.1 hspill.1).symm.trans hspill.2) (by decide)
  · have hchunk : inlineBytes < (a.key ++ a.field ++ a.value).length → p.chunk 0 = true :=
      fun h => by simpa using not_and.1 hspill h
    rw [FullAction.publishEach, if_neg hspill, Admits, and_iff_right hchunk, ← hroom]
    cases p.action.publishBlocking p.ring 0 with
    | error err => exact iff_of_false (by simp) (by simp)
    | ok ring => exact iff_of_true rfl ⟨ring, rfl⟩

namespace SharedStore

variable (hashBytes : Bytes → UInt32) (ok : StoreSite → Bool) (p : Backpressure)

/-- `pg_redis_mark_dirty` in shared mode under `async_table`. -/
def markDirtyAsync (key : Key) (e : Entry) (S : SharedStore) (r : Reply) :
    SharedStore × List DirtyEvent × Except CallError Reply :=
  match S.writeback hashBytes ok key e with
  | (S, .error err) => (S, [], .error (.command (.writeback err)))
  | (S, .ok ()) => match p.action.publishEach (e.encodeArgs key) p.chunk p.ring with
    | (evs, .error err) => (S, evs, .error err)
    | (evs, .ok ()) => (S, evs, .ok r)

/-- A command that upserts the entry of `key` and edits the copy with `f`, under
    `async_table`. -/
def updateAsync (now : ℤ) (key : Key) (f : Bool → Entry → Except EntryError (Entry × Reply))
    (S : SharedStore) : SharedStore × List DirtyEvent × Except CallError Reply :=
  match S.upsert now key with
  | (S, e, isNew) => match f isNew e with
    | .error err => (S, [], .error (.command (.command (.entry key err))))
    | .ok (e', r) => S.markDirtyAsync hashBytes ok p key e' r

variable {hashBytes ok p} {S : SharedStore} {key : Key} {now : ℤ}
  {f : Bool → Entry → Except EntryError (Entry × Reply)}

/-- The command as long as nothing is published. -/
theorem updateAsync_of_error {err : SharedCommandError}
    (h : (S.update hashBytes ok now key f).2.2 = .error err) :
    S.updateAsync hashBytes ok p now key f =
      ((S.update hashBytes ok now key f).1, [], .error (.command err)) := by
  rw [update] at h ⊢
  rw [updateAsync]
  generalize S.upsert now key = x at h ⊢
  obtain ⟨S', e, isNew⟩ := x
  simp only at h ⊢
  cases hf : f isNew e with
  | error err' =>
    rw [hf] at h
    obtain rfl := Except.error.inj h
    rfl
  | ok y =>
    rw [hf] at h
    simp only [markDirty, markDirtyAsync] at h ⊢
    generalize S'.writeback hashBytes ok key y.1 = w at h ⊢
    obtain ⟨S'', err' | _⟩ := w
    · obtain rfl := Except.error.inj h
      rfl
    · exact absurd h (by simp)

/-- Once the copy has been written back, its events are published. -/
theorem updateAsync_of_ok {r : Reply} (h : (S.update hashBytes ok now key f).2.2 = .ok r) :
    ∃ e, f (S.upsert now key).2.2 (S.upsert now key).2.1 = .ok (e, r) ∧
      S.updateAsync hashBytes ok p now key f = ((S.update hashBytes ok now key f).1,
        (p.action.publishEach (e.encodeArgs key) p.chunk p.ring).1,
        (p.action.publishEach (e.encodeArgs key) p.chunk p.ring).2.map fun _ => r) := by
  rw [update] at h ⊢
  rw [updateAsync]
  generalize S.upsert now key = x at h ⊢
  obtain ⟨S', e, isNew⟩ := x
  simp only at h ⊢
  cases hf : f isNew e with
  | error err' =>
    rw [hf] at h
    exact absurd h (by simp)
  | ok y =>
    obtain ⟨e', r'⟩ := y
    rw [hf] at h
    simp only [markDirty, markDirtyAsync] at h ⊢
    generalize S'.writeback hashBytes ok key e' = w at h ⊢
    obtain ⟨S'', err' | _⟩ := w
    · exact absurd h (by simp)
    · obtain rfl := Except.ok.inj h
      refine ⟨e', rfl, ?_⟩
      obtain ⟨evs, err' | _⟩ := p.action.publishEach (e'.encodeArgs key) p.chunk p.ring <;> rfl

end SharedStore

/-! ## The rounds of `HSET` -/

namespace SharedEntry

/-- What a round of `pg_redis_shared_hash_set_atomic` meets: its reading of the clock, the memory
    for the field table, and for the event of the parent row and that of the field whether there
    is memory for its chunk and what comes of the attempt at publishing it. -/
structure Round where
  now : ℤ
  ok : AllocSite → Bool
  parentChunk : Bool
  parent : Attempt
  fieldChunk : Bool
  field : Attempt

/-- What comes of a round: the command ends, or there is another round. -/
inductive RoundEnd
  | ends (reply : Except CallError Reply)
  | again (spin : ℕ)

section

variable (hashBytes : Bytes → UInt32) (async : Bool) (action : FullAction) (key : Key)
  (field : Field) (value : Bytes)

/-- An event is encoded, and one attempt is made at publishing it: what comes of the round, unless
    the event has been published. -/
def emit (spin : ℕ) (a : EncodeArgs) (chunk : Bool) (x : Attempt) : Option RoundEnd :=
  if a.Spills ∧ chunk = false then some (.ends (.error .spill))
  else match x with
    | .ok => none
    | .raises => some (.ends (.error .raised))
    | .full => match action.handle spin with
      | none => some (.ends (.error .ringFull))
      | some spin => some (.again spin)

/-- A round of `pg_redis_shared_hash_set_atomic`, with the events it has published; `async` says
    whether the persistence mode is `async_table`. -/
def setRound (x : Round) (spin : ℕ) (d : Dsa) (o : Option SharedEntry) :
    Dsa × Option SharedEntry × List DirtyEvent × RoundEnd :=
  match setAtomic hashBytes x.ok x.now key field value d o with
  | (d, o, _, .error err) => (d, o, [], .ends (.error (.command err)))
  | (d, o, evs, .ok r) =>
    if async = false then (d, o, [], .ends (.ok r))
    else match emit action spin (.keyUpsert key (o.getD freshHash).stub []) x.parentChunk
        x.parent with
      | some out => (d, o, [], out)
      | none => match emit action spin (.hashFieldUpsert key field value) x.fieldChunk
          x.field with
        | some out => (d, o, evs.take 1, out)
        | none => (d, o, evs, .ends (.ok r))

/-- The loop of `pg_redis_shared_hash_set_atomic` over the rounds it makes, to the last; `none` if
    it ends before or goes on. -/
def setRun : List Round → ℕ → Dsa → Option SharedEntry →
    Option (Dsa × Option SharedEntry × List DirtyEvent × Except CallError Reply)
  | [], _, _, _ => none
  | x :: rest, spin, d, o => match setRound hashBytes async action key field value x spin d o with
    | (d, o, pub, .ends reply) => if rest.isEmpty then some (d, o, pub, reply) else none
    | (d, o, pub, .again spin) => (setRun rest spin d o).map fun y =>
      (y.1, y.2.1, pub ++ y.2.2.1, y.2.2.2)

end

variable {hashBytes : Bytes → UInt32} {async : Bool} {action : FullAction} {key : Key}
  {field : Field} {value : Bytes}

theorem emit_of_chunk (spin : ℕ) (a : EncodeArgs) (x : Attempt) :
    emit action spin a true x = match x with
      | .ok => none
      | .raises => some (.ends (.error .raised))
      | .full => match action.handle spin with
        | none => some (.ends (.error .ringFull))
        | some spin => some (.again spin) := by
  unfold emit
  rw [if_neg (by simp)]

theorem emit_ne_command {spin : ℕ} {a : EncodeArgs} {chunk : Bool} {x : Attempt} {out : RoundEnd}
    (h : emit action spin a chunk x = some out) (err : SharedCommandError) :
    out ≠ .ends (.error (.command err)) := by
  rintro rfl
  unfold emit at h
  split_ifs at h
  · exact absurd (Option.some.inj h) (by simp)
  · cases x with
    | ok => exact absurd h (by simp)
    | raises => exact absurd (Option.some.inj h) (by simp)
    | full => cases hspin : action.handle spin <;> simp [hspin] at h

/-- A round: the field table fails and is left as it is, or the field is set, and then nothing
    that follows is an error of the table. -/
theorem setRound_cases {a : HashState} {x : Round} {o : Option SharedEntry}
    (h : Keeps hashBytes (a.opened x.now) (SharedEntry.opened x.now o)) (spin : ℕ) (d : Dsa) :
    ∃ d' se pub out,
      setRound hashBytes async action key field value x spin d o = (d', some se, pub, out) ∧
      ((∃ err, out = .ends (.error (.command (.writeback (.hash err)))) ∧
          Keeps hashBytes (a.opened x.now) se) ∨
        (∀ err, out ≠ .ends (.error (.command err))) ∧
          Keeps hashBytes ((a.opened x.now).set field value) se) := by
  obtain ⟨table, hop, hm⟩ := h
  rw [setRound]
  rcases setAtomic_of_opened hop hm x.ok key field value d with ⟨-, d', table', heq, hm'⟩ |
    ⟨d', table', err, heq, -, hm'⟩
  · -- The field is set. Whatever comes of the two events, none is an error of the table.
    obtain ⟨se, evs, r, heq', hkeeps⟩ : ∃ se evs r,
        setAtomic hashBytes x.ok x.now key field value d o = (d', some se, evs, .ok r) ∧
          Keeps hashBytes ((a.opened x.now).set field value) se :=
      ⟨_, _, _, heq, table', rfl, hm'⟩
    rw [heq']
    simp only
    split_ifs
    · exact ⟨_, _, _, _, rfl, .inr ⟨fun _ => by simp, hkeeps⟩⟩
    · split
      next out hout => exact ⟨_, _, _, _, rfl, .inr ⟨emit_ne_command hout, hkeeps⟩⟩
      next =>
        split
        next out hout => exact ⟨_, _, _, _, rfl, .inr ⟨emit_ne_command hout, hkeeps⟩⟩
        next => exact ⟨_, _, _, _, rfl, .inr ⟨fun _ => by simp, hkeeps⟩⟩
  · rw [heq]
    exact ⟨_, _, _, _, rfl, .inl ⟨err, rfl, table', rfl, hm'⟩⟩

namespace HashState

variable (field value)

/-- The hash the last of several rounds opens, given their readings of the clock. -/
def entered : List ℤ → HashState → HashState
  | [], a => a
  | [t], a => a.opened t
  | t :: ts, a => entered ts ((a.opened t).set field value)

variable {field value} {a : HashState} {t t' : ℤ} {ts : List ℤ}

theorem entered_cons : entered field value (t :: t' :: ts) a =
    entered field value (t' :: ts) ((a.opened t).set field value) := rfl

/-- The rounds on a hash that does not expire. -/
theorem entered_of_lasting (h : ∀ t ∈ ts, a.isExpired t = false) :
    (entered field value ts a).expireAt = a.expireAt ∧ (entered field value ts a).map =
      if ts.length ≤ 1 then a.map else a.map.insert field value := by
  induction ts generalizing a with
  | nil => exact ⟨rfl, rfl⟩
  | cons t ts ih =>
    have hopen : a.opened t = a := opened_of_not_expired (h t List.mem_cons_self)
    cases ts with
    | nil =>
      rw [entered, hopen]
      exact ⟨rfl, rfl⟩
    | cons t' ts =>
      obtain ⟨hx, hmap⟩ := ih (a := a.set field value) fun s hs =>
        h s (List.mem_cons_of_mem _ hs)
      rw [entered_cons, hopen, hx, hmap, if_neg (show ¬(t :: t' :: ts).length ≤ 1 by simp)]
      refine ⟨rfl, ?_⟩
      split_ifs
      · rfl
      · exact Finmap.insert_insert _

theorem map_set_entered (h : ∀ t ∈ ts, a.isExpired t = false) :
    ((entered field value ts a).set field value).map = a.map.insert field value := by
  change (entered field value ts a).map.insert field value = _
  rw [(entered_of_lasting h).2]
  split_ifs
  · rfl
  · exact Finmap.insert_insert _

/-- The rounds on a hash that expires on the way: it is begun anew. -/
theorem expireAt_entered_of_expired (h : ∃ t ∈ ts, a.isExpired t = true) :
    (entered field value ts a).expireAt = none := by
  induction ts generalizing a with
  | nil => exact absurd h (by simp)
  | cons t ts ih =>
    cases ts with
    | nil =>
      obtain ⟨s, hs, hexp⟩ := h
      obtain rfl := List.mem_singleton.1 hs
      rw [entered, opened, if_pos hexp]
      rfl
    | cons t' ts =>
      rw [entered_cons]
      by_cases hexp : a.isExpired t = true
      · rw [opened, if_pos hexp]
        exact (entered_of_lasting fun _ _ => rfl).1
      · obtain ⟨s, hs, hs'⟩ := h
        rw [opened_of_not_expired (Bool.eq_false_iff.2 hexp)]
        refine ih ⟨s, (List.mem_cons.1 hs).resolve_left ?_, hs'⟩
        rintro rfl
        exact hexp hs'

end HashState

/-- The rounds of a run: the last leaves the hash it has opened if the field table fails, else it
    has set the field. -/
theorem setRun_cases {a : HashState} {x : Round} {rest : List Round} {spin : ℕ} {d d' : Dsa}
    {o o' : Option SharedEntry} {evs : List DirtyEvent} {reply : Except CallError Reply}
    (h : Keeps hashBytes (a.opened x.now) (SharedEntry.opened x.now o))
    (hrun : setRun hashBytes async action key field value (x :: rest) spin d o =
      some (d', o', evs, reply)) :
    ∃ se, o' = some se ∧
      ((∃ err, reply = .error (.command (.writeback (.hash err))) ∧ Keeps hashBytes
          (HashState.entered field value ((x :: rest).map Round.now) a) se) ∨
        (∀ err, reply ≠ .error (.command err)) ∧ Keeps hashBytes
          ((HashState.entered field value ((x :: rest).map Round.now) a).set field value) se) := by
  -- Over the rounds: each but the last has set the field and met a full ring, and the next one
  -- opens what it has left.
  induction rest generalizing x spin d o a evs with
  | nil =>
    obtain ⟨d₁, se, pub, out, hx, hse⟩ := @setRound_cases hashBytes async action key field value a
      x o h spin d
    rw [setRun, hx] at hrun
    cases out with
    | again spin => exact absurd hrun (by simp [setRun])
    | ends reply' =>
      obtain ⟨-, rfl, -, rfl⟩ : d₁ = d' ∧ some se = o' ∧ pub = evs ∧ reply' = reply := by
        simpa using hrun
      refine ⟨se, rfl, ?_⟩
      rcases hse with ⟨err, herr, hse⟩ | ⟨hne, hse⟩
      · exact .inl ⟨err, RoundEnd.ends.inj herr, hse⟩
      · exact .inr ⟨fun err heq => hne err (congrArg _ heq), hse⟩
  | cons y rest ih =>
    obtain ⟨d₁, se, pub, out, hx, hse⟩ := @setRound_cases hashBytes async action key field value a
      x o h spin d
    rw [setRun, hx] at hrun
    cases out with
    | ends reply' => exact absurd hrun (by simp)
    | again spin' =>
      rcases hse with ⟨err, herr, -⟩ | ⟨-, hse⟩
      · exact absurd herr (by simp)
      · obtain ⟨⟨d₂, o₂, evs₂, reply₂⟩, hrest, heq⟩ := Option.map_eq_some_iff.1 hrun
        obtain ⟨rfl, rfl, -, rfl⟩ : d₂ = d' ∧ o₂ = o' ∧ pub ++ evs₂ = evs ∧ reply₂ = reply := by
          simpa using heq
        exact ih (hse.opened _) hrest

/-- On another value than a hash it is refused at once. -/
theorem setRun_of_wrongType {se : SharedEntry} {x : Round} {rest : List Round} {spin : ℕ}
    {d d' : Dsa} {o o' : Option SharedEntry} {evs : List DirtyEvent}
    {reply : Except CallError Reply} (hop : SharedEntry.opened x.now o = se)
    (ht : se.value.type ≠ .hash)
    (hrun : setRun hashBytes async action key field value (x :: rest) spin d o =
      some (d', o', evs, reply)) :
    reply = .error (.command (.command (.entry key (.wrongType se.value.type .hash)))) := by
  rw [setRun, setRound, setAtomic_of_wrongType hop ht] at hrun
  simp only [notHash] at hrun
  split_ifs at hrun
  exact (congrArg (fun y => y.2.2.2) (Option.some.inj hrun)).symm

/-- Every chunk can be allocated, and no error is raised out of a wait. -/
def Round.Plain (x : Round) : Prop :=
  x.parentChunk = true ∧ x.fieldChunk = true ∧ x.parent ≠ .raises ∧ x.field ≠ .raises

/-- The results of the ring in a round. -/
def Round.ring (x : Round) : List Bool :=
  if x.parent = .full then [false] else [true, x.field ≠ .full]

/-- What every round reads, of rounds in a row. -/
def Round.nth {α : Type} (f : Round → α) (default : α) (xs : List Round) (i : ℕ) : α :=
  (xs[i]?.map f).getD default

/-- If nothing but a full ring is met, the rounds are those of `setRetry`. -/
theorem setRetry_of_setRun {xs : List Round} {spin : ℕ} {d : Dsa} {o : Option SharedEntry}
    {y : Dsa × Option SharedEntry × List DirtyEvent × Except CallError Reply}
    (hplain : ∀ x ∈ xs, x.Plain)
    (hrun : setRun hashBytes true action key field value xs spin d o = some y) :
    setRetry hashBytes action key field value (xs.flatMap Round.ring)
      (Round.nth Round.now 0 xs) (Round.nth Round.ok (fun _ => true) xs) spin d o = y := by
  induction xs generalizing spin d o y with
  | nil => exact absurd hrun (by simp [setRun])
  | cons x rest ih =>
    obtain ⟨hparent, hfield, hraise, hraise'⟩ := hplain x List.mem_cons_self
    have hrest : ∀ z ∈ rest, z.Plain := fun z hz => hplain z (List.mem_cons_of_mem _ hz)
    rw [setRun, setRound, hparent, hfield] at hrun
    unfold setRetry
    rw [show Round.nth Round.ok (fun _ => true) (x :: rest) 0 = x.ok from rfl,
      show Round.nth Round.now 0 (x :: rest) 0 = x.now from rfl, List.flatMap_cons, Round.ring]
    -- Both runs go through the same section; what differs is how the results of the ring are
    -- given.
    generalize setAtomic hashBytes x.ok x.now key field value d o = z at hrun ⊢
    obtain ⟨d₁, o₁, evs, err | r⟩ := z
    · simp only at hrun ⊢
      split_ifs at hrun
      exact Option.some.inj hrun
    · simp only [Bool.true_eq_false, if_false] at hrun
      rw [emit_of_chunk, emit_of_chunk] at hrun
      cases hp : x.parent with
      | raises => exact absurd hp hraise
      -- The parent event meets a full ring: the field event is not tried in this round.
      | full =>
        rw [hp] at hrun
        simp only [if_true, List.cons_append, List.nil_append]
        cases hspin : action.handle spin with
        | none =>
          simp only [hspin] at hrun ⊢
          split_ifs at hrun
          exact Option.some.inj hrun
        | some spin' =>
          simp only [hspin, List.nil_append] at hrun ⊢
          obtain ⟨w, hw, rfl⟩ := Option.map_eq_some_iff.1 hrun
          exact ih hrest hw
      | ok =>
        rw [hp] at hrun
        cases hf : x.field with
        | raises => exact absurd hf hraise'
        -- The parent event is in the ring already; the next round publishes it again.
        | full =>
          rw [hf] at hrun
          simp only [reduceCtorEq, if_false, List.cons_append, List.nil_append, ne_eq,
            not_true_eq_false, decide_false]
          cases hspin : action.handle spin with
          | none =>
            simp only [hspin] at hrun ⊢
            split_ifs at hrun
            exact Option.some.inj hrun
          | some spin' =>
            simp only [hspin] at hrun ⊢
            obtain ⟨w, hw, rfl⟩ := Option.map_eq_some_iff.1 hrun
            rw [← ih hrest hw]
            rfl
        | ok =>
          rw [hf] at hrun
          simp only [reduceCtorEq, if_false, List.cons_append, List.nil_append, ne_eq,
            not_false_eq_true, decide_true] at hrun ⊢
          split_ifs at hrun
          exact Option.some.inj hrun

end SharedEntry

/-! ## An `HSET` that fails -/

namespace SharedStore

section

variable (hashBytes : Bytes → UInt32) (async : Bool) (action : FullAction) (key : Key)
  (field : Field) (value : Bytes)

/-- `pg_redis_hset` in shared mode over the rounds it makes. -/
def hsetRun (xs : List SharedEntry.Round) (S : SharedStore) :
    Option (SharedStore × List DirtyEvent × Except CallError Reply) :=
  (SharedEntry.setRun hashBytes async action key field value xs 0 S.dsa
    (S.entries.lookup key)).map fun y => S.locked key fun _ _ => y

end

variable {hashBytes : Bytes → UInt32} {async : Bool} {action : FullAction} {S S' : SharedStore}
  {K : Cells} {key : Key} {field : Field} {value : Bytes}

/-- The key holds a hash again in which nothing has changed. -/
theorem Shows.locked_keeps (h : S.Shows hashBytes K) {a : SharedEntry.HashState}
    {se : SharedEntry} (hse : SharedEntry.Keeps hashBytes a se)
    (hK : K key = some ⟨.hash a.map, a.expireAt⟩) {α : Type} (d : Dsa) (r : α) :
    (S.locked key fun _ _ => (d, some se, r)).1.Shows hashBytes K := by
  obtain ⟨se', -, hc⟩ := h.exists_entry hK
  obtain ⟨table, rfl, hm⟩ := hse
  obtain ⟨-, -, m, -, hmap, -, hvalid⟩ := hc.hash rfl
  have hback : (S.locked key fun _ _ => (d, some (⟨.hash table a.count, a.expireAt,
      a.version⟩ : SharedEntry), r)).1.Shows hashBytes (Function.update K key (K key)) := by
    refine h.locked ?_
    rw [hK]
    exact .some ⟨⟨hm, View.hash.inj hmap ▸ hvalid⟩, rfl⟩
  rwa [Function.update_eq_self] at hback

/-- The same can be seen of every key from now on, the clock having read `ts`. -/
def SeesSame (hashBytes : Bytes → UInt32) (K : Cells) (ts : List ℤ) (S : SharedStore) : Prop :=
  ∃ K', S.Shows hashBytes K' ∧ ∀ t k, (∀ s ∈ ts, s ≤ t) → Cell.found t (K' k) = Cell.found t (K k)

/-- The key holds a hash that has not expired at any reading, and in it the field has the
    value. -/
def HasValue (K : Cells) (ts : List ℤ) (key : Key) (field : Field) (value : Bytes) : Prop :=
  ∃ m y, K key = some ⟨.hash m, y⟩ ∧ m.lookup field = some value ∧
    ∀ t ∈ ts, Cell.isExpired ⟨.hash m, y⟩ t = false

/-- A hash left under the key is what can be seen there if it is the one that was there. -/
theorem seesSame_locked_iff (h : S.Shows hashBytes K) {a b : SharedEntry.HashState}
    {se : SharedEntry} {t : ℤ} {ts : List ℤ} (ha : Opens K t key a)
    (hse : SharedEntry.Keeps hashBytes b se)
    (hlast : (∀ s ∈ t :: ts, a.isExpired s = false) → b.expireAt = a.expireAt)
    (hexp : (∃ s ∈ t :: ts, a.isExpired s = true) → b.expireAt = none) {α : Type} (d : Dsa)
    (r : α) :
    SeesSame hashBytes K (t :: ts) (S.locked key fun _ _ => (d, some se, r)).1 ↔
      Cell.found t (K key) ≠ none ∧ (∀ s ∈ t :: ts, a.isExpired s = false) ∧ b.map = a.map := by
  constructor
  · rintro ⟨K', hK', hsame⟩
    -- What can be seen of the key at the last reading.
    obtain ⟨u, hu, hmax⟩ := (t :: ts).toFinset.exists_max_image id ⟨t, by simp⟩
    simp only [List.mem_toFinset, id_eq] at hu hmax
    obtain ⟨c, hc, hsec⟩ := hK'.eq_some (by rw [lookup_locked, if_pos rfl])
    obtain rfl := hse.cell_eq hsec
    have hlive : Cell.isExpired ⟨.hash b.map, b.expireAt⟩ u = false := by
      by_cases hall : ∀ s ∈ t :: ts, a.isExpired s = false
      · rw [hlast hall]
        exact hall u hu
      · simp only [not_forall, Bool.not_eq_false, exists_prop] at hall
        rw [hexp hall]
        rfl
    have hK : Cell.found u (K key) = some ⟨.hash b.map, b.expireAt⟩ := by
      rw [← hsame u key hmax, hc, Cell.found_of_live hlive]
    have hbefore : ∀ s ∈ t :: ts, Cell.isExpired ⟨.hash b.map, b.expireAt⟩ s = false :=
      fun s hs => Bool.eq_false_iff.2 fun hexp => absurd
        ((Cell.isExpired_of_le hexp (hmax s hs)).symm.trans hlive) (by simp)
    have hfound : Cell.found t (K key) = some ⟨.hash b.map, b.expireAt⟩ := by
      rw [(Cell.found_eq_some hK).1]
      exact Cell.found_of_live (hbefore t List.mem_cons_self)
    rcases ha with ⟨hnone, -⟩ | ⟨hK', -⟩
    · exact absurd (hnone.symm.trans hfound) (by simp)
    · obtain ⟨hmap, hx⟩ : b.map = a.map ∧ b.expireAt = a.expireAt := by
        simpa using (Cell.found_eq_some hK).1.symm.trans hK'
      rw [hmap, hx] at hbefore
      exact ⟨by simp [hfound], hbefore, hmap⟩
  · rintro ⟨hfound, hall, hmap⟩
    rcases ha with ⟨hnone, -⟩ | ⟨hK, -⟩
    · exact absurd hnone hfound
    · exact ⟨K, h.locked_keeps hse (by rw [hK, hmap, hlast hall]) d r, fun _ _ _ => rfl⟩

/-- The field has the value at all readings exactly if setting it there changes nothing. -/
theorem hasValue_iff {a : SharedEntry.HashState} {t : ℤ} {ts : List ℤ} (ha : Opens K t key a) :
    HasValue K (t :: ts) key field value ↔ Cell.found t (K key) ≠ none ∧
      (∀ s ∈ t :: ts, a.isExpired s = false) ∧ a.map.insert field value = a.map := by
  constructor
  · rintro ⟨m, y, hK, hlook, hall⟩
    have hfound : Cell.found t (K key) = some ⟨.hash m, y⟩ := by
      rw [hK]
      exact Cell.found_of_live (hall t List.mem_cons_self)
    rcases ha with ⟨hnone, -⟩ | ⟨hK', -⟩
    · exact absurd (hnone.symm.trans hfound) (by simp)
    · obtain ⟨rfl, rfl⟩ : m = a.map ∧ y = a.expireAt := by simpa using hK.symm.trans hK'
      exact ⟨by simp [hfound], hall, SharedHash.insert_eq_self hlook⟩
  · rintro ⟨hfound, hall, hmap⟩
    rcases ha with ⟨hnone, -⟩ | ⟨hK, -⟩
    · exact absurd hnone hfound
    · exact ⟨a.map, a.expireAt, hK, by rw [← hmap, Finmap.lookup_insert], hall⟩

/-- For every keyspace with cells and every `HSET`, whatever its rounds meet: if it raises an error
    because the value is too long or an allocation fails, what can be seen of the keyspace from
    then on is what it was before if and only if the field table has failed in the first round
    and the key was there and had not expired, or the key held all the time a hash in which the
    field had the value. -/
theorem hset_error_iff (h : S.Shows hashBytes K) {xs : List SharedEntry.Round}
    {evs : List DirtyEvent} {err : CallError}
    (hrun : S.hsetRun hashBytes async action key field value xs = some (S', evs, .error err))
    (herr : err = .spill ∨ ∃ e, err = .command (.writeback (.hash e))) :
    SeesSame hashBytes K (xs.map SharedEntry.Round.now) S' ↔
      (err ≠ .spill ∧ xs.length = 1 ∧ ∀ x ∈ xs, Cell.found x.now (K key) ≠ none) ∨
        HasValue K (xs.map SharedEntry.Round.now) key field value := by
  obtain ⟨⟨d', o', evs', reply⟩, hset, hS'⟩ := Option.map_eq_some_iff.1 hrun
  obtain rfl : reply = .error err := by
    have hsnd := congrArg (fun y => y.2.2) hS'
    rwa [locked_snd] at hsnd
  obtain rfl := congrArg Prod.fst hS'
  cases xs with
  | nil => exact absurd hset (by simp [SharedEntry.setRun])
  | cons x rest =>
    rcases h.keeps x.now key with ⟨se, hop, ht⟩ | ⟨a, ha, hopens⟩
    · -- Another type: that is another error.
      have hwrong := SharedEntry.setRun_of_wrongType hop ht hset
      rcases herr with rfl | ⟨e, rfl⟩ <;> exact absurd hwrong (by simp)
    have h0 : a.isExpired x.now = false := hopens.not_expired
    have hopen : a.opened x.now = a := SharedEntry.HashState.opened_of_not_expired h0
    obtain ⟨se, rfl, hcases⟩ := SharedEntry.setRun_cases (hopen.symm ▸ ha) hset
    rw [List.map_cons] at hcases ⊢
    rw [hasValue_iff hopens]
    rcases hcases with ⟨e, herr', hse⟩ | ⟨hne, hse⟩
    · -- The field table has failed: the field has been set in all rounds but the last.
      obtain rfl := Except.error.inj herr'
      rw [seesSame_locked_iff h hopens hse
        (fun hall => (SharedEntry.HashState.entered_of_lasting hall).1)
        SharedEntry.HashState.expireAt_entered_of_expired]
      cases rest with
      | nil =>
        rw [List.map_nil, SharedEntry.HashState.entered, hopen, and_iff_left rfl]
        simp only [List.length_singleton, List.mem_singleton, forall_eq, h0, and_true, true_and]
        exact ⟨fun hfound => .inl ⟨by simp, hfound⟩, fun hor => hor.elim And.right And.left⟩
      | cons y rest =>
        rw [or_iff_right fun hone => absurd hone.2.1 (by simp)]
        refine and_congr_right fun _ => and_congr_right fun hall => ?_
        rw [(SharedEntry.HashState.entered_of_lasting hall).2, if_neg (by simp)]
    · -- A chunk was missing: the field has been set in all rounds.
      obtain rfl : err = .spill := herr.resolve_right fun ⟨e, he⟩ => hne _ (congrArg _ he)
      rw [seesSame_locked_iff h hopens hse
        (fun hall => (SharedEntry.HashState.entered_of_lasting hall).1)
        SharedEntry.HashState.expireAt_entered_of_expired, or_iff_right fun hone => hone.1 rfl]
      refine and_congr_right fun _ => and_congr_right fun hall => ?_
      rw [SharedEntry.HashState.map_set_entered hall]

/-- A value that makes the event of its field spill. -/
def longValue : Bytes := List.replicate 300 120

/-- A field is set under a missing key, and set twice again: without memory for a new value, and to
    the value it has, when the first round meets a full ring and the second finds no memory for
    the event of the field. -/
theorem hset_error_keeps_field :
    let S := ((⟨⟨0, []⟩, ∅⟩ : SharedStore).hset (fun _ => 7) enough 0 [107] [102] longValue).1
    ∃ K, S.Shows (fun _ => 7) K ∧
      (∃ S' evs err, S.hsetRun (fun _ => 7) true .block [107] [102] [119]
          [⟨0, fun _ => false, true, .ok, true, .ok⟩] = some (S', evs, .error (.command err)) ∧
        SeesSame (fun _ => 7) K [0] S') ∧
      ∃ S' evs, S.hsetRun (fun _ => 7) true .block [107] [102] longValue
          [⟨0, fun _ => true, true, .full, true, .ok⟩, ⟨0, fun _ => true, true, .ok, false, .ok⟩] =
          some (S', evs, .error .spill) ∧ SeesSame (fun _ => 7) K [0, 0] S' := by
  intro S
  have hS : S.Shows (fun _ => 7) _ := hset_first_shows (shows_init ⟨0, []⟩) rfl
    ⟨by decide, by decide, by decide⟩ (by decide +kernel) 0
  have hrun : (S.hsetRun (fun _ => 7) true .block [107] [102] [119]
      [⟨0, fun _ => false, true, .ok, true, .ok⟩]).map (fun y => y.2.2) =
      some (.error (.command (.writeback (.hash (.outOfMemory .overwriteValue))))) := by
    decide +kernel
  have hrun' : (S.hsetRun (fun _ => 7) true .block [107] [102] longValue
      [⟨0, fun _ => true, true, .full, true, .ok⟩, ⟨0, fun _ => true, true, .ok, false, .ok⟩]).map
      (fun y => y.2.2) = some (.error .spill) := by
    decide +kernel
  obtain ⟨⟨S₁, evs₁, _⟩, h₁, rfl⟩ := Option.map_eq_some_iff.1 hrun
  obtain ⟨⟨S₂, evs₂, _⟩, h₂, rfl⟩ := Option.map_eq_some_iff.1 hrun'
  refine ⟨_, hS, ⟨S₁, evs₁, _, h₁, ?_⟩, S₂, evs₂, h₂, ?_⟩
  · refine (hset_error_iff hS h₁ (.inr ⟨_, rfl⟩)).2 (.inl ⟨by simp, rfl, ?_⟩)
    simp [Cell.found, Cell.isExpired]
  · refine (hset_error_iff hS h₂ (.inl rfl)).2 (.inr ⟨_, none, Function.update_self _ _ _, ?_, ?_⟩)
    · exact Finmap.lookup_insert _
    · intro t _
      rfl

/-- An oversize value set under a missing key leaves an empty hash there. -/
theorem hset_error_makes_hash : ¬∀ (hashBytes : Bytes → UInt32) (async : Bool)
    (action : FullAction) (S S' : SharedStore) (K : Cells) (key : Key) (field : Field)
    (value : Bytes) (xs : List SharedEntry.Round) (evs : List DirtyEvent) (err : CallError),
    S.Shows hashBytes K →
    S.hsetRun hashBytes async action key field value xs = some (S', evs, .error err) →
    (err = .spill ∨ ∃ e, err = .command (.writeback (.hash e))) →
    SeesSame hashBytes K (xs.map SharedEntry.Round.now) S' := by
  intro hall
  obtain ⟨value, hlong⟩ : ∃ value : Bytes, uint16Max < value.length :=
    ⟨List.replicate 65536 120, by rw [List.length_replicate]; decide⟩
  have hset : SharedEntry.setAtomic (fun _ => 7) (fun _ => true) 0 [107] [102] value ⟨0, []⟩ none =
      (⟨0, []⟩, some .freshHash, [],
        .error (.writeback (.hash (.valueTooLong value.length)))) := by
    simp only [SharedEntry.setAtomic, SharedEntry.opened, SharedEntry.freshHash,
      SharedValue.empty, SharedHash.set, if_pos hlong]
    rfl
  have hrun : (⟨⟨0, []⟩, ∅⟩ : SharedStore).hsetRun (fun _ => 7) true .block [107] [102] value
      [⟨0, fun _ => true, true, .ok, true, .ok⟩] = some (((⟨⟨0, []⟩, ∅⟩ : SharedStore).locked [107]
        fun _ _ => (⟨0, []⟩, some .freshHash, ())).1, [],
        .error (.command (.writeback (.hash (.valueTooLong value.length))))) := by
    rw [hsetRun, SharedEntry.setRun, SharedEntry.setRound]
    simp only [show (⟨⟨0, []⟩, ∅⟩ : SharedStore).entries.lookup [107] = none from rfl, hset]
    rfl
  obtain ⟨K', hK', hsame⟩ := hall _ _ _ _ _ _ _ _ _ _ _ _ (shows_init _) hrun (.inr ⟨_, rfl⟩)
  have hkey := hK' [107]
  rw [lookup_locked, if_pos rfl] at hkey
  obtain ⟨c, hc, hsec⟩ := exists_of_rel_some hkey
  have hsee := hsame 0 [107] (by simp)
  have hx : c.expireAt = none := hsec.expireAt.symm
  simp [hc, Cell.found, Cell.isExpired, hx] at hsee

/-- A field set in a hash whose event finds no memory: the command raises an error, and the field
    is there. -/
example :
    let S := ((⟨⟨0, []⟩, ∅⟩ : SharedStore).hset (fun _ => 7) enough 0 [107] [102] [118]).1
    (S.hsetRun (fun _ => 7) true .block [107] [103] longValue
      [⟨0, fun _ => true, true, .ok, false, .ok⟩]).map (fun y =>
        (y.2.2, (y.1.hget (fun _ => 7) enough 0 0 [107] [103]).2.2)) =
      some (.error .spill, .ok (.text (some longValue))) := by
  decide +kernel

end SharedStore

end PgRedis
