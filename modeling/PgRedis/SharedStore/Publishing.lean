import PgRedis.Durable.Rows
import PgRedis.SharedStore.Converge
import PgRedis.SharedStore.Sections

/-!
# Mutations and their events

Any number of backends in shared mode under `async_table` that run `SET`, `INCR`, `DECR`, `HSET`
and `HDEL`, and a `FLUSHALL`. A mutation of the keyspace and the publication of its events are
steps of their own: `SET`, `INCR` and `DECR` release the partition lock after the writeback and
then publish; `HSET` and `HDEL` publish with the lock held, but release it when they find the
ring full. Then `HSET` does its mutation over, while `HDEL` only takes the lock again to
publish. `FLUSHALL` empties the keyspace under all partition locks, then drops what is in the
ring, then truncates the tables.

The events that backends have still to publish are kept in the order of the mutations they
belong to (`Publishing.owed`); an `HSET` that is to start over has none. An event may enter the
ring before that of an earlier mutation. If they touch the same row, the tables end with the
older value. And an event published between the two first steps of `FLUSHALL` is dropped, be it
that of a mutation since. As long as neither happens (`Guard`), and no mutation forgets its events
altogether (`Command.Kept`), every state reached meets the invariant `Inv`.
-/

namespace PgRedis

open Lib

/-- What is left of a command: to write its copy back, to publish without a lock or with that
    of its key, to start over, or to take the lock and publish. -/
inductive Todo
  | write (c : Call) (e : Entry) (isNew : Bool)
  | publish
  | locked (c : Call)
  | retry (c : Call)
  | relock (c : Call)

/-- How far `FLUSHALL` has come: it has not started or is done, it has emptied the keyspace, it
    has dropped what was in the ring. -/
inductive Phase
  | calm
  | reset
  | dropped
  deriving DecidableEq, Repr

/-- The keyspace, the tables, the events that have entered the ring since, what the backends
    have still to do, the keys whose lock is held across steps, the events still to be published
    in the order of their mutations, those of mutations before the last emptying apart. -/
structure Publishing (π : Type) where
  store : SharedStore
  tables : Tables
  ring : List DirtyEvent
  pc : π → Option Todo
  locks : List Key
  stale : List (π × DirtyEvent)
  owed : List (π × DirtyEvent)
  phase : Phase

/-- The first section of the command makes no entry in the place of one with child rows, or,
    if it is the whole mutation, publishes what it does. -/
def Command.Begins (now now' : ℤ) (o : Option Cell) : Command → Prop
  | .set .. => Cell.found now o = none → Cell.Childless o
  | c => c.Kept now now' o

/-- `pg_redis_shared_store_reset_all`. -/
def SharedStore.resetAll (S : SharedStore) : SharedStore :=
  ⟨S.entries.toList.foldl (fun d e => e.2.value.release d) S.dsa, ∅⟩

namespace Publishing

variable {π : Type}

/-- No command is running. -/
def init (S : SharedStore) (D : Tables) (evs : List DirtyEvent) : Publishing π :=
  ⟨S, D, evs, fun _ => none, [], [], [], .calm⟩

/-- A backend starts a call or goes on with it, at another time and where an event that it
    would publish may find no room in the ring; `FLUSHALL` takes its next step. -/
inductive Act (π : Type)
  | start (p : π) (c : Call)
  | next (p : π) (room : Bool) (now : ℤ)
  | reset
  | drop
  | truncate

/-- The tables with the events of the ring applied have the rows of what the keyspace holds. -/
def Agrees (hashBytes : Bytes → UInt32) (s : Publishing π) : Prop :=
  ∃ K D, s.store.Shows hashBytes K ∧ replay s.ring s.tables = .ok D ∧ ∀ k, D.Shows k (K k)

variable [DecidableEq π]

/-- What `p` is to do next. -/
def goto (s : Publishing π) (p : π) (t : Option Todo) : Publishing π :=
  { s with pc := Function.update s.pc p t }

/-- The event of `p` that comes next enters the ring. -/
def publish (s : Publishing π) (p : π) : Publishing π :=
  match s.stale.find? fun x => x.1 = p with
  | some x => { s with ring := s.ring ++ [x.2], stale := s.stale.eraseP fun x => x.1 = p }
  | none => match s.owed.find? fun x => x.1 = p with
    | some x => { s with ring := s.ring ++ [x.2], owed := s.owed.eraseP fun x => x.1 = p }
    | none => s

/-- Whether `p` has events to publish. -/
def owes (s : Publishing π) (p : π) : Bool := (s.stale ++ s.owed).any fun x => x.1 = p

/-- The events of `p` are given up. -/
def forget (s : Publishing π) (p : π) : Publishing π :=
  { s with
    stale := s.stale.filter fun x => x.1 ≠ p
    owed := s.owed.filter fun x => x.1 ≠ p }

/-- A locked mutation, with its events to be published under the lock. -/
def mutate (s : Publishing π) (p : π) (c : Call)
    (x : SharedStore × List DirtyEvent × Except SharedCommandError Reply) : Publishing π :=
  if x.2.1 = [] then { s with store := x.1 }.goto p none
  else { s with
    store := x.1
    owed := s.owed ++ x.2.1.map fun ev => (p, ev)
    locks := c.cmd.key :: s.locks }.goto p (some (.locked c))

variable (hashBytes : Bytes → UInt32)

/-- The section of `HSET` or `HDEL`. -/
def attempt (s : Publishing π) (p : π) (c : Call) : Option (Publishing π) :=
  match c.cmd with
  | .hset key field value =>
    some (s.mutate p c (s.store.hset hashBytes enough c.now key field value))
  | .hdel key field => some (s.mutate p c (s.store.hdel hashBytes enough c.now key field))
  | _ => none

/-- The first section of a command. -/
def begin (s : Publishing π) (p : π) (c : Call) : Option (Publishing π) :=
  match c.cmd with
  | .set .. | .incr _ | .decr _ => match s.store.first hashBytes enough c.now c.cmd with
    | some (S, .returns _) => some { s with store := S }
    | some (S, .goesOn (.write e isNew _)) =>
      some ({ s with store := S }.goto p (some (.write c e isNew)))
    | _ => none
  | _ => s.attempt hashBytes p c

/-- The writeback of `SET`, `INCR` or `DECR`. -/
def writeback (s : Publishing π) (p : π) (c : Call) (e : Entry) : Publishing π :=
  match s.store.writeback hashBytes enough c.cmd.key e with
  | (S, .error _) => { s with store := S }.goto p none
  | (S, .ok ()) => { s with
      store := S
      owed := s.owed ++ (e.events c.cmd.key).map fun ev => (p, ev) }.goto p (some .publish)

/-- `HSET` or `HDEL` has found the ring full and releases its lock: `HSET` gives its events up
    and is to start over, `HDEL` is to publish. -/
def full (s : Publishing π) (p : π) (c : Call) : Publishing π :=
  match c.cmd with
  | .hset .. => { s.forget p with locks := s.locks.erase c.cmd.key }.goto p (some (.retry c))
  | _ => { s with locks := s.locks.erase c.cmd.key }.goto p (some (.relock c))

/-- The next step of a command that has started. -/
def resume (s : Publishing π) (p : π) (room : Bool) (now : ℤ) : Todo → Option (Publishing π)
  | .write c e _ => if c.cmd.key ∈ s.locks then none else some (s.writeback hashBytes p c e)
  | .publish =>
    if room then
      if (s.publish p).owes p then some (s.publish p) else some ((s.publish p).goto p none)
    else some s
  | .locked c =>
    if room then
      if (s.publish p).owes p then some (s.publish p)
      else some ({ s.publish p with locks := s.locks.erase c.cmd.key }.goto p none)
    else some (s.full p c)
  | .retry c =>
    if c.cmd.key ∈ s.locks then none else s.attempt hashBytes p { c with now := now }
  | .relock c =>
    if c.cmd.key ∈ s.locks then none
    else some ({ s with locks := c.cmd.key :: s.locks }.goto p (some (.locked c)))

/-- One step. -/
def step (s : Publishing π) : Act π → Option (Publishing π)
  | .start p c =>
    match s.pc p, c.cmd.check c.lim with
    | some _, _ => none
    | none, .error _ => some s
    | none, .ok () => if c.cmd.key ∈ s.locks then none else s.begin hashBytes p c
  | .next p room now => (s.pc p).bind (s.resume hashBytes p room now)
  | .reset =>
    if s.phase = .calm ∧ s.locks = [] then
      some { s with store := s.store.resetAll, stale := s.stale ++ s.owed, owed := [],
                    phase := .reset }
    else none
  | .drop => if s.phase = .reset then some { s with ring := [], phase := .dropped } else none
  | .truncate =>
    if s.phase = .dropped then some { s with tables := .empty, phase := .calm } else none

/-! ## What is asked of a run -/

/-- The event of `p` that comes next overtakes none for the same row. One of a mutation before
    the keyspace was emptied is still to be dropped, one of a mutation since is not. -/
def Ordered (s : Publishing π) (p : π) : Prop :=
  (∃ x ∈ s.stale, x.1 = p) ∨
    s.phase ≠ .reset ∧ ∀ pre ev post, s.owed = pre ++ (p, ev) :: post → (∀ x ∈ pre, x.1 ≠ p) →
      ∀ x ∈ pre, ¬x.2.Clash ev

/-- What is asked of the next step of a command. -/
def Allowed (s : Publishing π) (p : π) (room : Bool) (now : ℤ) : Todo → Prop
  | .write c e _ => ∀ K, s.store.Shows hashBytes K →
      Cell.Childless (K c.cmd.key) ∧ (e.encodeValue.getD []).length ≤ uint16Max
  | .publish | .locked _ => room = true → s.Ordered p
  | .retry c => ∀ K, s.store.Shows hashBytes K → c.cmd.Kept now c.now' (K c.cmd.key)
  | .relock _ => True

/-- What is asked of a step. -/
def Guard (s : Publishing π) : Act π → Prop
  | .start _ c => c.cmd.IsText ∧ (c.cmd.check c.lim = .ok () →
      ∀ K, s.store.Shows hashBytes K → c.cmd.Begins c.now c.now' (K c.cmd.key))
  | .next p room now => ∀ t, s.pc p = some t → s.Allowed hashBytes p room now t
  | .drop => s.stale = []
  | .reset | .truncate => True

/-! ## The events of one backend -/

/-- The events `p` has still to publish for mutations since the last emptying. -/
def mine (s : Publishing π) (p : π) : List DirtyEvent :=
  (s.owed.filter fun x => x.1 = p).map Prod.snd

variable {hashBytes} {s s' : Publishing π} {K : Cells} {D D' : Tables} {p q : π}

/-- The events of a backend in a list of pairs. -/
theorem filter_append_map (l : List (π × DirtyEvent)) (evs : List DirtyEvent) (p q : π) :
    ((l ++ evs.map fun ev => (p, ev)).filter fun x => x.1 = q).map Prod.snd =
      (l.filter fun x => x.1 = q).map Prod.snd ++ if q = p then evs else [] := by
  rw [List.filter_append, List.map_append, List.filter_map, List.map_map]
  congr 1
  split_ifs with hq
  · rw [List.filter_eq_self.2 fun ev _ => by simp [hq]]
    exact List.map_id evs
  · rw [List.filter_eq_nil_iff.2 fun ev _ => by simpa using Ne.symm hq]
    rfl

/-- The first section of `SET`, `INCR` or `DECR` returns, or has an entry to write back. -/
theorem begin_cases {c : Call} (hs' : s.begin hashBytes p c = some s')
    (hattempt : s.attempt hashBytes p c = none) :
    ∃ S, (∃ r, s.store.first hashBytes enough c.now c.cmd = some (S, .returns r) ∧
        s' = { s with store := S }) ∨
      ∃ e isNew r, s.store.first hashBytes enough c.now c.cmd =
          some (S, .goesOn (.write e isNew r)) ∧
        s' = { s with store := S }.goto p (some (.write c e isNew)) := by
  rw [begin, hattempt] at hs'
  split at hs'
  case h_4 => exact absurd hs' (by simp)
  all_goals
    split at hs'
    next S r heq => exact ⟨S, .inl ⟨r, heq, (Option.some.inj hs').symm⟩⟩
    next S e isNew r heq => exact ⟨S, .inr ⟨e, isNew, r, heq, (Option.some.inj hs').symm⟩⟩
    next => exact absurd hs' (by simp)

/-- The first event of a backend in a list, and the list without it. -/
theorem exists_of_find {l : List (π × DirtyEvent)} {x : π × DirtyEvent}
    (h : (l.find? fun x => x.1 = p) = some x) :
    ∃ pre post, x.1 = p ∧ l = pre ++ (p, x.2) :: post ∧ (∀ y ∈ pre, y.1 ≠ p) ∧
      (l.eraseP fun x => x.1 = p) = pre ++ post := by
  obtain ⟨hx, pre, post, rfl, hpre⟩ := List.find?_eq_some_iff_append.1 h
  have hxp : x.1 = p := by simpa using hx
  have hne : ∀ y ∈ pre, y.1 ≠ p := fun y hy => by simpa using hpre y hy
  refine ⟨pre, post, hxp, by rw [← hxp], hne, ?_⟩
  rw [List.eraseP_append_right _ fun y hy => by simpa using hne y hy]
  exact congrArg (pre ++ ·) (List.eraseP_cons_of_pos (by simpa using hxp))

/-- The first event of a backend is published. -/
theorem mine_of_split {pre post : List (π × DirtyEvent)} {ev : DirtyEvent}
    (howed : s.owed = pre ++ (p, ev) :: post) (hpre : ∀ y ∈ pre, y.1 ≠ p) (q : π) :
    s.mine q = if q = p then ev :: ((pre ++ post).filter fun x => x.1 = q).map Prod.snd
      else ((pre ++ post).filter fun x => x.1 = q).map Prod.snd := by
  rw [mine, howed]
  split_ifs with hq
  · have hnil : (pre.filter fun x => decide (x.1 = q)) = [] :=
      List.filter_eq_nil_iff.2 fun y hy => by simpa [hq] using hpre y hy
    rw [List.filter_append, List.filter_append, hnil, List.nil_append, List.nil_append,
      List.filter_cons_of_pos (by simp [hq]), List.map_cons]
  · rw [List.filter_append, List.filter_append, List.filter_cons_of_neg (by simpa using Ne.symm hq)]

/-! ## The invariant -/

/-- The events that count: those in the ring, unless they are still to be dropped. -/
def live (s : Publishing π) : List DirtyEvent := if s.phase = .reset then [] else s.ring

/-- The tables that count: none of the rows that are still to be truncated. -/
def base (s : Publishing π) : Tables := if s.phase = .calm then s.tables else .empty

/-- The events that `HSET` or `HDEL` may have to publish, given the tables with the events of
    the ring applied. -/
def HashFits (D : Tables) (evs : List DirtyEvent) (c : Call) : Prop :=
  match c.cmd with
  | .hset key field value => value.length ≤ uint16Max ∧ c.cmd.check c.lim = .ok () ∧
      c.cmd.IsText ∧ (evs = [] ∨
        (∃ x n, evs = [.keyUpsert key .hash [] x n, .hashFieldUpsert key field value]) ∨
        evs = [.hashFieldUpsert key field value] ∧ (D.store key).isSome)
  | .hdel key field => evs = [] ∨ evs = [.hashFieldDelete key field]
  | _ => False

/-- What a backend has to do fits the events it has to publish. -/
def Fits (D : Tables) (evs : List DirtyEvent) : Option Todo → Prop
  | none => evs = []
  | some (.write _ e _) => evs = [] ∧
      ∃ c, e.Shows c ∧ (c.value.type = .string ∨ c.value.type = .int)
  | some .publish => ∀ ev ∈ evs, ∃ k t v x n, ev = .keyUpsert k t v x n
  | some (.locked c) => HashFits D evs c
  | some (.retry c) => evs = [] ∧ HashFits D evs c ∧
      ∃ key field value, c.cmd = .hset key field value
  | some (.relock c) => HashFits D evs c ∧ ∀ key field value, c.cmd ≠ .hset key field value

/-- Some backend has to do what is described by `P`. -/
def Doing (s : Publishing π) (P : Todo → Prop) : Prop := ∃ p t, s.pc p = some t ∧ P t

/-- A backend has made the entry of `k`, and has not yet written to it. -/
def Making (s : Publishing π) (k : Key) : Prop :=
  s.Doing fun t => ∃ c e, t = .write c e true ∧ c.cmd.key = k

/-- A backend is to do its `HSET` of the field over. -/
def Retrying (s : Publishing π) (k : Key) (f : Field) : Prop :=
  s.Doing fun t => ∃ c value, t = .retry c ∧ c.cmd = .hset k f value

/-- The rows back what the keyspace holds of `k`: they are those of the cell but for an `HSET`
    to be done over, or the entry has just been made where there are no child rows. -/
def Backed (s : Publishing π) (k : Key) (R : KeyRows) (o : Option Cell) : Prop :=
  R.Nearly (s.Retrying k) o ∨ o = some .fresh ∧ s.Making k ∧ R.Childless

/-- Who publishes under the lock of a key holds it alone. `HSET` has set its field. -/
structure Locked (pc : π → Option Todo) (locks : List Key) (K : Cells) : Prop where
  held : ∀ p c, pc p = some (.locked c) → c.cmd.key ∈ locks
  alone : ∀ p q c c', pc p = some (.locked c) → pc q = some (.locked c') →
    c.cmd.key = c'.cmd.key → p = q
  field : ∀ p c key field value, pc p = some (.locked c) → c.cmd = .hset key field value →
    ∃ m x, K key = some ⟨.hash m, x⟩ ∧ field ∈ m

/-- The keyspace holds the cells `K`, and the tables are to hold `D`. With all events written
    over them, the rows of `D` back the cells. -/
structure Linked (hashBytes : Bytes → UInt32) (s : Publishing π) (K : Cells) (D : Tables) :
    Prop where
  store : s.store.Shows hashBytes K
  replayed : replay s.live s.base = .ok D
  rows : ∀ k, s.Backed k ((D.rows k).apply k (s.owed.map Prod.snd)) (K k)
  todo : ∀ p, Fits D (s.mine p) (s.pc p)
  locked : Locked s.pc s.locks K
  stale : s.phase ≠ .reset → s.stale = []

/-- Keyspace and tables are linked. -/
def Inv (hashBytes : Bytes → UInt32) (s : Publishing π) : Prop := ∃ K D, s.Linked hashBytes K D

/-! ## What a backend does, and the others -/

/-- What the others do. -/
theorem Doing.goto {P : Todo → Prop} (h : s.Doing P) (hp : ∀ t, s.pc p = some t → ¬P t)
    (t' : Option Todo) : (s.goto p t').Doing P := by
  obtain ⟨q, t, hq, ht⟩ := h
  refine ⟨q, t, ?_, ht⟩
  have hne : q ≠ p := by
    rintro rfl
    exact hp t hq ht
  exact (Function.update_of_ne hne _ _).trans hq

/-- What the rows of `k` wait for is not to be done by `p`. -/
theorem Backed.goto {k : Key} {R : KeyRows} {o : Option Cell} (h : s.Backed k R o)
    (hwrite : ∀ c e, s.pc p = some (.write c e true) → c.cmd.key ≠ k)
    (hretry : ∀ c, s.pc p = some (.retry c) → c.cmd.key ≠ k) (t : Option Todo) :
    (s.goto p t).Backed k R o := by
  refine h.imp (fun h => h.mono fun f hf => hf.goto ?_ t) fun ⟨ho, hm, hR⟩ =>
    ⟨ho, hm.goto ?_ t, hR⟩
  · rintro t ht ⟨c, value, rfl, hc⟩
    exact hretry c ht (by rw [hc]; rfl)
  · rintro t ht ⟨c, e, rfl, hkey⟩
    exact hwrite c e ht hkey

omit [DecidableEq π] in
theorem Backed.childless {k : Key} {R : KeyRows} {o : Option Cell} (h : s.Backed k R o)
    (ho : Cell.Childless o) : R.Childless :=
  h.elim (fun h => h.childless ho) fun h => h.2.2

omit [DecidableEq π] in
/-- An entry that has not just been made. -/
theorem Backed.nearly {k : Key} {R : KeyRows} {o : Option Cell} (h : s.Backed k R o)
    (ho : o ≠ some .fresh) : R.Nearly (s.Retrying k) o :=
  h.resolve_right fun h => ho h.1

section

variable {pc : π → Option Todo} {locks : List Key} {t : Option Todo} {c : Call}

omit [DecidableEq π] in
/-- The cell of a key that is not locked may change. -/
theorem Locked.update (h : Locked pc locks K) {key : Key} (hfree : key ∉ locks) (o : Option Cell) :
    Locked pc locks (Function.update K key o) where
  held := h.held
  alone := h.alone
  field p c k field value hpc hc := by
    have hheld := h.held p c hpc
    rw [hc] at hheld
    have hk : k ≠ key := by
      rintro rfl
      exact hfree hheld
    rw [Function.update_of_ne hk]
    exact h.field p c k field value hpc hc

/-- `p` does not go on under a lock. -/
theorem Locked.leave (h : Locked pc locks K) (ht : ∀ c, t ≠ some (.locked c)) :
    Locked (Function.update pc p t) locks K := by
  have hother : ∀ q c, Function.update pc p t q = some (.locked c) → pc q = some (.locked c) := by
    intro q c hq
    by_cases hne : q = p
    · rw [hne, Function.update_self] at hq
      exact absurd hq (ht c)
    · rwa [Function.update_of_ne hne] at hq
  exact ⟨fun q c hq => h.held q c (hother q c hq),
    fun q q' c c' hq hq' => h.alone q q' c c' (hother q c hq) (hother q' c' hq'),
    fun q c key field value hq => h.field q c key field value (hother q c hq)⟩

/-- `p` releases the lock it holds. -/
theorem Locked.release (h : Locked pc locks K) (hp : pc p = some (.locked c))
    (ht : ∀ c, t ≠ some (.locked c)) :
    Locked (Function.update pc p t) (locks.erase c.cmd.key) K where
  held q c' hq := by
    have hne : q ≠ p := by
      rintro rfl
      rw [Function.update_self] at hq
      exact ht c' hq
    rw [Function.update_of_ne hne] at hq
    have hkey : c'.cmd.key ≠ c.cmd.key := fun hkey => hne (h.alone q p c' c hq hp hkey)
    exact (List.mem_erase_of_ne hkey).2 (h.held q c' hq)
  alone := (h.leave ht).alone
  field := (h.leave ht).field

/-- `p` takes a lock. -/
theorem Locked.take (h : Locked pc locks K) (hfree : c.cmd.key ∉ locks)
    (hfield : ∀ key field value, c.cmd = .hset key field value →
      ∃ m x, K key = some ⟨.hash m, x⟩ ∧ field ∈ m) :
    Locked (Function.update pc p (some (.locked c))) (c.cmd.key :: locks) K := by
  have hother : ∀ q c', Function.update pc p (some (.locked c)) q = some (.locked c') →
      q = p ∧ c' = c ∨ pc q = some (.locked c') := by
    intro q c' hq
    by_cases hne : q = p
    · rw [hne, Function.update_self, Option.some.injEq, Todo.locked.injEq] at hq
      exact .inl ⟨hne, hq.symm⟩
    · rw [Function.update_of_ne hne] at hq
      exact .inr hq
  refine ⟨fun q c' hq => ?_, fun q q' c' c'' hq hq' hkey => ?_,
    fun q c' key field value hq hc => ?_⟩
  · rcases hother q c' hq with ⟨-, rfl⟩ | hq
    · exact List.mem_cons_self
    · exact List.mem_cons_of_mem _ (h.held q c' hq)
  · rcases hother q c' hq with ⟨hqp, rfl⟩ | hpc <;>
      rcases hother q' c'' hq' with ⟨hqp', rfl⟩ | hpc'
    · rw [hqp, hqp']
    · exact absurd (hkey ▸ h.held q' c'' hpc') hfree
    · exact absurd (hkey ▸ h.held q c' hpc) hfree
    · exact h.alone q q' c' c'' hpc hpc' hkey
  · rcases hother q c' hq with ⟨-, rfl⟩ | hq
    · exact hfield key field value hc
    · exact h.field q c' key field value hq hc

end

end Publishing

end PgRedis
