import PgRedis.Precommit
import PgRedis.Session.ReadOnly
import PgRedis.SharedStore.Sound

/-!
# The keyspace of the storage mode

A command runs on the table of its backend or on the shared keyspace, as `storage_mode` says
(`Backend.exec`). In both modes, and in shared mode whatever allocations fail, a command leaves
the cells of other keys alone (`Sound.exec`), and a read replies what `Cell.perform` says and at
most takes out its key, found expired (`Sound.exec_reads`).
-/

namespace PgRedis

open Lib

/-! ## Commands on the shared keyspace -/

namespace SharedStore

variable {hashBytes : Bytes → UInt32} {ok : StoreSite → Bool} {S : SharedStore} {K : Cells}
  {key k : Key} {now now' : ℤ}

theorem lookup_markDirty_ne (hk : k ≠ key) (e : Entry) (r : Reply) :
    (S.markDirty hashBytes ok key e r).1.entries.lookup k = S.entries.lookup k := by
  rw [markDirty_fst, lookup_writeback, if_neg hk]

theorem lookup_lookup_ne (hk : k ≠ key) :
    (S.lookup now key).1.entries.lookup k = S.entries.lookup k := by
  rw [lookup]
  split
  · rfl
  · split_ifs
    · rw [lookup_remove, if_neg hk]
    · rfl

theorem lookup_update_ne (hk : k ≠ key) (f : Bool → Entry → Except EntryError (Entry × Reply)) :
    (S.update hashBytes ok now key f).1.entries.lookup k = S.entries.lookup k := by
  have hup : (S.upsert now key).1.entries.lookup k = S.entries.lookup k := by
    rw [lookup_upsert, if_neg hk]
  rw [update]
  split
  next S' e isNew hx =>
    rw [hx] at hup
    split
    · exact hup
    · exact (lookup_markDirty_ne hk _ _).trans hup

theorem lookup_query_ne (hk : k ≠ key) (missing : Reply)
    (f : Entry → Except EntryError (Option Entry × Reply)) :
    (S.query hashBytes ok now key missing f).1.entries.lookup k = S.entries.lookup k := by
  have hl : (S.lookup now key).1.entries.lookup k = _ := lookup_lookup_ne hk
  rw [query]
  split
  next S' hx =>
    rw [hx] at hl
    exact hl
  next S' e hx =>
    rw [hx] at hl
    split
    · exact hl
    · exact hl
    · exact (lookup_markDirty_ne hk _ _).trans hl

theorem lookup_queryField_ne (hk : k ≠ key) {α : Type}
    (read : SharedHash → Except SharedHashError (Option α)) (reply : Option α → Reply)
    (slow : Hash → Reply) :
    (S.queryField hashBytes ok now now' key read reply slow).1.entries.lookup k =
      S.entries.lookup k := by
  rw [queryField]
  split
  · rfl
  · rfl
  · rfl
  · rfl
  · exact lookup_query_ne hk _ _

/-- A command changes the entry of its own key at most. -/
theorem lookup_exec_ne {lim : Limits} {c : Command} (hk : k ≠ c.key) :
    (S.exec hashBytes ok lim now now' c).1.entries.lookup k = S.entries.lookup k := by
  rw [exec]
  split
  · rfl
  -- `TTL` and `EXPIRE` look the key up and may then remove or write it; the others are one of
  -- the frames above.
  cases c with
  | set | incr | decr | push => exact lookup_update_ne hk _
  | get | exists? | pop | llen => exact lookup_query_ne hk _ _
  | hget | hexists => exact lookup_queryField_ne hk _ _ _
  | del key => exact lookup_remove.trans (if_neg hk)
  | hset | hdel => exact (lookup_locked _).trans (if_neg hk)
  | ttl key =>
    have hl : (S.lookup now key).1.entries.lookup k = _ := lookup_lookup_ne hk
    rw [perform, ttl]
    split
    next S' hx =>
      rw [hx] at hl
      exact hl
    next S' e hx =>
      rw [hx] at hl
      split
      · exact hl
      · split_ifs
        · exact lookup_remove.trans ((if_neg hk).trans hl)
        · exact hl
  | expire key seconds =>
    have hl : (S.lookup now key).1.entries.lookup k = _ := lookup_lookup_ne hk
    rw [perform, expire]
    split
    next S' hx =>
      rw [hx] at hl
      exact hl
    next S' e hx =>
      rw [hx] at hl
      split_ifs
      · exact lookup_remove.trans ((if_neg hk).trans hl)
      · split
        · exact hl
        · exact (lookup_markDirty_ne hk _ _).trans hl

/-- A query that edits nothing allocates nothing. -/
theorem query_of_reads {missing : Reply} {f : Entry → Except EntryError (Option Entry × Reply)}
    (hf : ∀ e x r, f e = .ok (x, r) → x = none) (ok : StoreSite → Bool) :
    S.query hashBytes ok now key missing f = S.query hashBytes enough now key missing f := by
  rw [query, query]
  split
  · rfl
  next S' e hx =>
    cases hfe : f e with
    | error err => rfl
    | ok x =>
      obtain ⟨o, r⟩ := x
      obtain rfl := hf e o r hfe
      rfl

theorem readHash_reads (null : Reply) (f : Hash → Reply) (e : Entry) (x : Option Entry) (r : Reply)
    (h : Entry.readHash null f e = .ok (x, r)) : x = none := by
  rw [Entry.readHash] at h
  split_ifs at h
  split at h <;> exact (congrArg Prod.fst (Except.ok.inj h)).symm

theorem queryField_of_reads {α : Type} (read : SharedHash → Except SharedHashError (Option α))
    (reply : Option α → Reply) (slow : Hash → Reply) (ok : StoreSite → Bool) :
    S.queryField hashBytes ok now now' key read reply slow =
      S.queryField hashBytes enough now now' key read reply slow := by
  rw [queryField, queryField, query_of_reads (readHash_reads _ _) ok]

/-- A read allocates nothing. -/
theorem exec_of_reads {lim : Limits} {c : Command} (hc : c.reads = true) (ok : StoreSite → Bool) :
    S.exec hashBytes ok lim now now' c = S.exec hashBytes enough lim now now' c := by
  rw [exec, exec]
  split
  · rfl
  cases c with
  | get key => exact query_of_reads Session.get_reads ok
  | exists? key =>
    rw [perform, perform]
    exact query_of_reads (fun e x r h => (congrArg Prod.fst (Except.ok.inj h)).symm) ok
  | ttl key => rfl
  | hget key field => exact queryField_of_reads _ _ _ ok
  | hexists key field => exact queryField_of_reads _ (fun a => .bool a.isSome) _ ok
  | llen key => exact query_of_reads (Session.withList_reads fun _ => rfl) ok
  | set | del | expire | incr | decr | hset | hdel | push | pop =>
    exact absurd hc Bool.false_ne_true

/-- What an entry shows is one cell. -/
theorem rel_unique {o : Option SharedEntry} {a a' : Option Cell}
    (h : Option.Rel (SharedEntry.Shows hashBytes) o a)
    (h' : Option.Rel (SharedEntry.Shows hashBytes) o a') : a = a' := by
  cases h with
  | none =>
    cases h'
    rfl
  | some h =>
    cases h' with
    | some h' => rw [h.unique h']

/-- A command that changes no cell but its own key's. -/
theorem Shows.exec (h : S.Shows hashBytes K) (ok : StoreSite → Bool) (lim : Limits) (now now' : ℤ)
    {c : Command} (htext : ∀ field, c.field? = some field → 0 ∉ field) :
    ∃ K', (S.exec hashBytes ok lim now now' c).1.Shows hashBytes K' ∧
      ∀ k ≠ c.key, K' k = K k := by
  obtain ⟨K', h'⟩ := exec_sound h ok lim now now' htext
  refine ⟨K', h', fun k hk => rel_unique (h' k) ?_⟩
  rw [lookup_exec_ne hk]
  exact h k

end SharedStore

/-! ## Commands in the storage mode -/

/-- The fields of a command are SQL text. -/
def Command.Text (c : Command) : Prop := ∀ field, c.field? = some field → 0 ∉ field

/-- `i` is a value of a signed integer type of `w` bits. -/
def Fits (w : ℕ) (i : ℤ) : Prop := -2 ^ (w - 1) ≤ i ∧ i < 2 ^ (w - 1)

instance (w : ℕ) (i : ℤ) : Decidable (Fits w i) := inferInstanceAs (Decidable (_ ∧ _))

/-- A call and what memory there is for it. -/
abbrev Request := Call × (StoreSite → Bool)

namespace Backend

variable (hashBytes : Bytes → UInt32)

/-- A command with what memory there is for it in shared mode, and its reply: under
    `async_table` the command up to its events, and the whole of it if none is refused. -/
def exec (ok : StoreSite → Bool) (b : Backend) (c : Call) :
    Backend × Except SharedCommandError Reply :=
  match b.mode with
  | .session => ({ b with session := b.session.call c },
      (b.session.exec c.lim c.now c.now' c.cmd).2.mapError .command)
  | .shared => match b.shared.exec hashBytes ok c.lim c.now c.now' c.cmd with
    | (S, _, r) => ({ b with shared := S }, r)

/-- Commands one after the other. -/
def runs (b : Backend) (cs : List Request) : Backend :=
  cs.foldl (fun b c => (b.exec hashBytes c.2 c.1).1) b

/-- The keyspace of the storage mode is well formed and holds the cells. -/
structure Sound (b : Backend) (K : Cells) : Prop where
  typed : b.mode = .session → b.session.WellTyped
  shows : b.Shows hashBytes K

variable {hashBytes} {b : Backend} {K : Cells}

theorem mode_exec (ok : StoreSite → Bool) (c : Call) : (b.exec hashBytes ok c).1.mode = b.mode := by
  rw [exec]
  cases b.mode <;> rfl

theorem exec_session (h : b.mode = .session) (ok : StoreSite → Bool) (c : Call) :
    b.exec hashBytes ok c = ({ b with session := b.session.call c },
      (b.session.exec c.lim c.now c.now' c.cmd).2.mapError .command) := by
  rw [exec, h]

theorem exec_shared (h : b.mode = .shared) (ok : StoreSite → Bool) (c : Call) :
    b.exec hashBytes ok c =
      ({ b with shared := (b.shared.exec hashBytes ok c.lim c.now c.now' c.cmd).1 },
        (b.shared.exec hashBytes ok c.lim c.now c.now' c.cmd).2.2) := by
  rw [exec, h]

theorem mode_runs (cs : List Request) : (b.runs hashBytes cs).mode = b.mode := by
  induction cs generalizing b with
  | nil => rfl
  | cons c cs ih => exact ih.trans (mode_exec c.2 c.1)

/-- A command whose arguments are refused. -/
theorem exec_refused {c : Call} {err : CommandError} (h : c.cmd.check c.lim = .error err)
    (ok : StoreSite → Bool) :
    b.exec hashBytes ok c = (b, .error (.command err)) := by
  cases hm : b.mode with
  | session =>
    rw [exec_session hm, Session.call, Session.exec, h]
    rfl
  | shared =>
    rw [exec_shared hm, SharedStore.exec, h]

theorem Sound.session (h : b.Sound hashBytes K) (hm : b.mode = .session) :
    b.session.WellTyped ∧ b.session.Shows K := by
  have hs := h.shows
  rw [Backend.Shows, hm] at hs
  exact ⟨h.typed hm, hs⟩

theorem Sound.shared (h : b.Sound hashBytes K) (hm : b.mode = .shared) :
    b.shared.Shows hashBytes K := by
  have hs := h.shows
  rwa [Backend.Shows, hm] at hs

theorem sound_session {s : Session} (hm : b.mode = .session) (ht : s.WellTyped) (hs : s.Shows K) :
    ({ b with session := s } : Backend).Sound hashBytes K :=
  ⟨fun _ => ht, by rw [Backend.Shows, hm]; exact hs⟩

theorem sound_shared {S : SharedStore} (hm : b.mode = .shared) (hS : S.Shows hashBytes K) :
    ({ b with shared := S } : Backend).Sound hashBytes K :=
  ⟨fun h => absurd (hm.symm.trans h) (by decide), by rw [Backend.Shows, hm]; exact hS⟩

/-- A new backend, in session mode or with nothing in shared memory. -/
theorem sound_init (mode : StorageMode) :
    (⟨mode, .init, .empty⟩ : Backend).Sound hashBytes fun _ => none := by
  cases mode with
  | session => exact ⟨fun _ _ _ he => absurd he (by simp [Session.init]), Session.shows_init⟩
  | shared => exact ⟨fun h => absurd h (by decide), fun _ => .none⟩

/-- A command keeps the keyspace well formed, and leaves the cells of other keys alone. -/
theorem Sound.exec (h : b.Sound hashBytes K) (ok : StoreSite → Bool) {c : Call}
    (htext : c.cmd.Text) :
    ∃ K', (b.exec hashBytes ok c).1.Sound hashBytes K' ∧ ∀ k ≠ c.cmd.key, K' k = K k := by
  cases hm : b.mode with
  | session =>
    obtain ⟨ht, hs⟩ := h.session hm
    rw [exec_session hm]
    have htyped := ht.call c
    simp only [Session.call, Session.exec] at htyped ⊢
    cases hcheck : c.cmd.check c.lim with
    | error err => exact ⟨K, sound_session hm ht hs, fun _ _ => rfl⟩
    | ok u =>
      rw [hcheck] at htyped
      exact ⟨_, sound_session hm htyped (Session.perform_shows hs ht hcheck c.now c.now').2,
        fun k hk => Function.update_of_ne hk _ _⟩
  | shared =>
    obtain ⟨K', h', hne⟩ := (h.shared hm).exec ok c.lim c.now c.now' htext
    rw [exec_shared hm]
    exact ⟨K', sound_shared hm h', hne⟩

/-- A read replies what it does on the cell of its key, and leaves what it leaves. -/
theorem Sound.exec_reads (h : b.Sound hashBytes K) (ok : StoreSite → Bool) {c : Call}
    (hc : c.cmd.reads = true) (hcheck : c.cmd.check c.lim = .ok ()) (htext : c.cmd.Text) :
    (b.exec hashBytes ok c).1.Sound hashBytes
        (Function.update K c.cmd.key (Cell.perform b.mode c.now c.now' (K c.cmd.key) c.cmd).1) ∧
      (b.exec hashBytes ok c).2 =
        (Cell.perform b.mode c.now c.now' (K c.cmd.key) c.cmd).2.mapError .command := by
  cases hm : b.mode with
  | session =>
    obtain ⟨ht, hs⟩ := h.session hm
    obtain ⟨hreply, hs'⟩ := Session.perform_shows hs ht hcheck c.now c.now'
    have htyped := ht.call c
    rw [exec_session hm]
    simp only [Session.call, Session.exec, hcheck] at htyped ⊢
    exact ⟨sound_session hm htyped hs', by rw [hreply]⟩
  | shared =>
    have hset : ∀ key field value, c.cmd = .hset key field value → value.length ≤ uint16Max :=
      fun key field value heq => by
        rw [heq] at hc
        exact absurd hc Bool.false_ne_true
    obtain ⟨S', evs, hS', heq⟩ := SharedStore.perform_shows enough_eq (h.shared hm) hcheck htext
      hset c.now c.now'
    rw [exec_shared hm, SharedStore.exec_of_reads hc, SharedStore.exec, hcheck]
    simp only [heq]
    exact ⟨sound_shared hm hS', trivial⟩

end Backend

end PgRedis
