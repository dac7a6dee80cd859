import PgRedis.Durable.Cells
import PgRedis.Modes
import PgRedis.Session.Exact

/-!
# The commit under `sync_table`

The commands of a transaction change memory, and the pre-commit callback writes to the tables
what the backend's dirty chain and pending deletions name (`Session.runFlush`). In session mode
every command leaves its key there, so that after a flush that succeeds every key of the
keyspace has its row and its child rows, and no other key has a row (`Covers.holds`). Child rows
of an earlier value may be left.

In shared mode `pg_redis_mark_dirty` returns before the chain, and neither a removal nor the
locked sections of `HSET` and `HDEL` go through it: the flush finds nothing to write, and leaves
the tables as they are. So a transaction is durable at its commit in session mode, and in shared
mode only if there was nothing to write (`durable_iff`).
-/

namespace PgRedis

open Lib

/-! ## Rows of a key -/

/-- The key has the row of its cell, and a child row of every field and element; without cell
    it has no row. -/
structure Tables.Holds (D : Tables) (k : Key) (o : Option Cell) : Prop where
  row : (D.store k).map StoreRow.data = o.map Cell.data
  fields : ∀ f v, (Cell.fieldsOf o).lookup f = some v → D.hashFields k f = some (some v)
  items : ∃ ords : List ℤ, ords.Pairwise (· < ·) ∧
    ords.map (D.listItems k) = (Cell.itemsOf o).map fun v => some (some v)

/-! ## Session mode -/

namespace Value

/-- After a flush every field and element has its row. -/
def Covers (hrows : Field → Option (Option Bytes)) (lrows : ℤ → Option (Option Bytes)) :
    Value → Prop
  | hash h => h.Covers hrows
  | list l => l.Covers lrows
  | _ => True

variable {hrows : Field → Option (Option Bytes)} {lrows : ℤ → Option (Option Bytes)}

theorem covers_scalar {v : Value} (hv : v.isCollection = false) : v.Covers hrows lrows := by
  cases v with
  | str | int => trivial
  | hash | list => exact absurd hv (by simp [isCollection])

theorem Made.covers {v : Value} (hv : v.Made) : v.Covers hrows lrows := by
  cases hv with
  | str => trivial
  | int => trivial
  | hash f x => exact Hash.Covers.create.set f x
  | list side x => exact ListValue.Covers.create.push side x

theorem Edit.covers {v v' : Value} (he : v.Edit v') (hv : v.Covers hrows lrows) :
    v'.Covers hrows lrows := by
  cases he with
  | keep => exact hv
  | scalar _ h' => exact covers_scalar h'
  | hset h f x => exact Hash.Covers.set hv f x
  | hdel h f hdel => exact Hash.Covers.del hv hdel
  | push side l x => exact ListValue.Covers.push hv side x
  | pop hpop => exact ListValue.Covers.pop hv hpop

end Value

namespace Session

/-- What is not in the tables is in the chain, in the deletions or marked. -/
def Covers (s : Session) (D : Tables) : Prop :=
  s.Ledger (fun k v => v.Covers (D.hashFields k) (D.listItems k)) D

variable {s s' : Session} {D D' : Tables} {K : Cells} {now : ℤ} {c : Command}

namespace Covers

theorem outcome (hs : s.Covers D) (h : Outcome now c s s') (hkey : c.key ≠ []) : s'.Covers D := by
  cases h with
  | same => exact hs
  | removed he => exact Ledger.remove hs he hkey
  | started _ hv hmade hd => exact Ledger.write hs hv hd hmade.covers
  | edited he hv hv' hedit hd =>
    refine Ledger.write hs hv' ?_ (hedit.covers (hs.value _ _ _ he hv))
    rw [hd, he]
    rfl

theorem call (hs : s.Covers D) (a : Call) : (s.call a).Covers D := by
  rcases call_cases hs.typed a with h | ⟨hc, h⟩
  · rw [h]
    exact hs
  · exact hs.outcome h (Command.key_ne_nil hc)

theorem calls (hs : s.Covers D) (cs : List Call) : (s.calls cs).Covers D := by
  induction cs generalizing s with
  | nil => exact hs
  | cons a cs ih => exact ih (hs.call a)

/-- The child rows of a key after the flush. -/
theorem children_flush (hs : s.Covers D) (hres : s.flushArgs.Result D D') {k : Key} {e : Entry}
    {v : Value} (he : s.store.lookup k = some e) (hv : e.content = some v) :
    match v with
    | .hash h => ∀ f x, h.fields.lookup f = some x → D'.hashFields k f = some (some x.value)
    | .list l => l.Ordered ∧ ∀ n ∈ l.nodes, D'.listItems k n.ord = some (some n.value)
    | _ => True := by
  have hc := hs.value k e v he hv
  by_cases hk : k ∈ s.dirty
  · cases v with
    | str | int => trivial
    | hash h => exact fun f x hf => field_flush hres hk he hv hc hf
    | list l => exact ⟨hc.ordered, fun n hn => item_flush hres hk he hv hc hn⟩
  · obtain ⟨hd, -, hhf, hli⟩ := Ledger.unchanged_flush hs hres hk he
    have hclean := hs.clean k e v he hd hv
    cases v with
    | str | int => trivial
    | hash h =>
      intro f x hf
      rw [hhf]
      exact ((hc f x hf).resolve_left (by rw [hclean.1 f x hf]; simp)).1
    | list l =>
      refine ⟨hc.ordered, fun n hn => ?_⟩
      rw [hli]
      exact (hc.durable n hn (hclean.2.1 n hn)).1

/-- After a flush that succeeds the tables hold every key. -/
theorem holds (hs : s.Covers D) (hflush : (s.runFlush D).2 = .ok D') (hK : s.Shows K) (k : Key) :
    D'.Holds k (K k) := by
  have hres := (executePlans_ok (executePlans_of_runFlush hflush)).2
  have hkey := hK k
  cases he : s.store.lookup k <;> cases hc : K k <;> rw [he, hc] at hkey
  · refine ⟨?_, fun f v hv => absurd hv (by simp [Cell.fieldsOf]), [], .nil, rfl⟩
    rw [Ledger.absent_flush hs hres he]
    rfl
  · exact absurd hkey (by simp)
  · exact absurd hkey (by simp)
  rename_i e c
  rw [Option.rel_some_some] at hkey
  obtain ⟨v, hv⟩ := Option.isSome_iff_exists.1 (hs.typed k e he)
  have hchild := hs.children_flush hres he hv
  obtain ⟨r, hr, ht, henc, hx⟩ := Ledger.present_flush hs hres he
  refine ⟨?_, ?_, ?_⟩
  · rw [hr, Option.map_some, Option.map_some, StoreRow.data, Cell.data, ht, henc, hx,
      hkey.encodeValue, hkey.type, hkey.expireAt]
  · intro f x hf
    -- Only a hash has fields to be covered.
    rcases hkey.cases with ⟨-, ⟨t, -, hc⟩ | ⟨-, hc⟩⟩ | ⟨i, -, -, hc⟩ |
      ⟨hte, m, hc, ⟨-, rfl⟩ | ⟨h, heh, hm⟩⟩ | ⟨-, vs, hc, -⟩ <;>
      simp only [Cell.fieldsOf, Option.map_some, Option.getD_some, hc, View.fields,
        Finmap.lookup_empty, reduceCtorEq] at hf
    rw [Entry.content_eq_hash.2 ⟨hte, heh⟩] at hv
    obtain rfl := Option.some.inj hv
    rw [← hm f, Option.map_eq_some_iff] at hf
    obtain ⟨y, hy, rfl⟩ := hf
    exact hchild f y hy
  · -- Only a list has items; their ordinals are those of its nodes.
    rcases hkey.cases with ⟨-, ⟨t, -, hc⟩ | ⟨-, hc⟩⟩ | ⟨i, -, -, hc⟩ | ⟨-, m, hc, -⟩ |
      ⟨hte, vs, hc, ⟨-, rfl⟩ | ⟨l, hel, rfl, -⟩⟩
    case inr.inr.inr.inr =>
      rw [Entry.content_eq_list.2 ⟨hte, hel⟩] at hv
      obtain rfl := Option.some.inj hv
      refine ⟨l.nodes.map ListNode.ord, List.pairwise_map.2 hchild.1.sorted, ?_⟩
      simp only [Cell.itemsOf, Option.map_some, Option.getD_some, hc, View.items, List.map_map]
      exact List.map_congr_left fun n hn => hchild.2 n hn
    all_goals exact ⟨[], .nil, by simp [Cell.itemsOf, hc, View.items]⟩

/-- After it the chain and the deletions are empty, and account again for what is not in the
    tables: nothing. -/
theorem runFlush (hs : s.Covers D) (hflush : (s.runFlush D).2 = .ok D') :
    (s.runFlush D).1.Covers D' ∧ (s.runFlush D).1.dirty = [] ∧
      (s.runFlush D).1.pendingDeletes = [] := by
  have hexec := executePlans_of_runFlush hflush
  have hres := (executePlans_ok hexec).2
  have hlook := lookup_runFlush hexec
  -- Every entry is one of before, without its deltas if it was in the chain.
  have hentry : ∀ {k e}, (s.runFlush D).1.store.lookup k = some e → ∃ e₀ v₀,
      s.store.lookup k = some e₀ ∧ e₀.content = some v₀ ∧ e.inDirtySet = false ∧
        (∀ r, e₀.IsRow r → e.IsRow r) ∧ ∃ v, e.content = some v ∧ v.Clean ∧
          v.Covers (D'.hashFields k) (D'.listItems k) := by
    intro k e he
    rw [hlook, Option.map_eq_some_iff] at he
    obtain ⟨e₀, he₀, rfl⟩ := he
    obtain ⟨v₀, hv₀⟩ := Option.isSome_iff_exists.1 (hs.typed k e₀ he₀)
    refine ⟨e₀, v₀, he₀, hv₀, ?_⟩
    have hchild := hs.children_flush hres he₀ hv₀
    by_cases hk : k ∈ s.dirty
    · -- Its deltas have been written, so its rows are what it holds.
      rw [if_pos hk]
      refine ⟨Entry.inDirtySet_clear, fun r => Entry.isRow_clear_collect.2, v₀.cleaned, ?_, ?_, ?_⟩
      · rw [Entry.content_clear_collect, hv₀]
        rfl
      · refine Value.clean_cleaned fun l hl => ?_
        subst hl
        exact hchild.1
      · cases v₀ with
        | str | int => trivial
        | hash h =>
          intro f x hx
          rw [Htab.lookup_mapValues, Option.map_eq_some_iff] at hx
          obtain ⟨y, hy, rfl⟩ := hx
          exact .inr ⟨hchild f y hy, List.not_mem_nil⟩
        | list l =>
          have hord : ∀ l', Value.list l = .list l' → l'.Ordered := fun l' hl =>
            Value.list.inj hl ▸ hchild.1
          refine ⟨(Value.clean_cleaned hord).1, fun n hn _ => ?_⟩
          obtain ⟨m, hm, rfl⟩ := List.mem_map.1 hn
          exact ⟨hchild.2 m hm, List.not_mem_nil⟩
    · -- The flush has touched neither the entry nor its rows.
      rw [if_neg hk]
      obtain ⟨hd, -, hhf, hli⟩ := Ledger.unchanged_flush hs hres hk he₀
      rw [hhf, hli]
      exact ⟨hd, fun r hr => hr, v₀, hv₀, hs.clean k e₀ v₀ he₀ hd hv₀, hs.value k e₀ v₀ he₀ hv₀⟩
  refine ⟨⟨fun k e he => ?_, ?_, fun k => ?_, fun k hk => ?_, fun k e v he hv => ?_,
    fun k e he _ => ?_, fun k e _ _ => ?_, fun k e v he _ hv => ?_⟩, dirty_runFlush,
    pendingDeletes_runFlush⟩
  · obtain ⟨e₀, v₀, -, -, -, -, v, hv, -⟩ := hentry he
    rw [hv]
    rfl
  · rw [dirty_runFlush]
    exact List.nodup_nil
  · rw [dirty_runFlush]
    refine iff_of_false List.not_mem_nil fun ⟨e, he, hd⟩ => ?_
    obtain ⟨e₀, v₀, -, -, hd', -⟩ := hentry he
    exact absurd (hd.symm.trans hd') (by decide)
  · rw [hlook, Option.map_eq_none_iff] at hk
    exact .inl (Ledger.absent_flush hs hres hk)
  · obtain ⟨e₀, v₀, -, -, -, -, v', hv', -, hcov⟩ := hentry he
    rwa [← Option.some.inj (hv'.symm.trans hv)]
  · obtain ⟨e₀, v₀, he₀, -, -, hrow, -⟩ := hentry he
    obtain ⟨r, hr, hisRow⟩ := Ledger.present_flush hs hres he₀
    exact ⟨r, hr, hrow r hisRow⟩
  · rw [pendingDeletes_runFlush]
    exact List.not_mem_nil
  · obtain ⟨e₀, v₀, -, -, -, -, v', hv', hclean, -⟩ := hentry he
    rwa [← Option.some.inj (hv'.symm.trans hv)]

end Covers

theorem Synced.covers (hs : s.Synced D) : s.Covers D := by
  have ht := hs.tracks
  refine ⟨ht.typed, ht.nodup, ht.dirty, ht.absent, fun k e v he hv => ?_, ht.row, ht.kept, ht.clean⟩
  have hval := ht.value k e v he hv
  cases v with
  | str | int => trivial
  | hash h => exact hval.1.present
  | list l => exact hval.2.covers

end Session

/-! ## Both modes -/

/-- A backend: the storage mode, its own table with the dirty chain and the pending deletions,
    and the shared keyspace. -/
structure Backend where
  mode : StorageMode
  session : Session
  shared : SharedStore

namespace Backend

variable (hashBytes : Bytes → UInt32)

/-- A command under `sync_table`. In shared mode it leaves the backend's own table, chain and
    deletions alone. -/
def call (b : Backend) (c : Call) : Backend :=
  match b.mode with
  | .session => { b with session := b.session.call c }
  | .shared =>
    { b with shared := (b.shared.exec hashBytes enough c.lim c.now c.now' c.cmd).1 }

/-- The commands of a transaction. -/
def calls (b : Backend) (cs : List Call) : Backend := cs.foldl (call hashBytes) b

/-- `pg_redis_xact_cb_persistence` at `XACT_EVENT_PRE_COMMIT` under `sync_table`. -/
def preCommit (b : Backend) (D : Tables) : Backend × Except SqlError Tables :=
  ({ b with session := (b.session.runFlush D).1 }, (b.session.runFlush D).2)

/-- What the keys hold in the keyspace of the storage mode. -/
def Shows (b : Backend) (K : Cells) : Prop :=
  match b.mode with
  | .session => b.session.Shows K
  | .shared => b.shared.Shows hashBytes K

/-- A backend at the start of a transaction: nothing is pending, and in session mode its
    keyspace is in step with the tables. -/
structure Ready (b : Backend) (D : Tables) : Prop where
  dirty : b.session.dirty = []
  pendingDeletes : b.session.pendingDeletes = []
  covers : b.mode = .session → b.session.Covers D

variable {hashBytes} {b : Backend} {D D' : Tables} {K : Cells}

theorem mode_calls (cs : List Call) : (b.calls hashBytes cs).mode = b.mode := by
  induction cs generalizing b with
  | nil => rfl
  | cons c cs ih =>
    refine (ih (b := b.call hashBytes c)).trans ?_
    rw [call]
    cases b.mode <;> rfl

theorem session_calls (h : b.mode = .session) (cs : List Call) :
    (b.calls hashBytes cs).session = b.session.calls cs := by
  induction cs generalizing b with
  | nil => rfl
  | cons c cs ih =>
    have hcall : b.call hashBytes c = { b with session := b.session.call c } := by
      rw [call, h]
    refine (ih (b := b.call hashBytes c) (by rw [hcall]; exact h)).trans ?_
    rw [hcall]
    rfl

theorem session_calls_shared (h : b.mode = .shared) (cs : List Call) :
    (b.calls hashBytes cs).session = b.session := by
  induction cs generalizing b with
  | nil => rfl
  | cons c cs ih =>
    have hcall : (b.call hashBytes c).mode = .shared ∧
        (b.call hashBytes c).session = b.session := by
      rw [call, h]
      exact ⟨rfl, rfl⟩
    exact (ih hcall.1).trans hcall.2

/-- With nothing pending a flush writes nothing. -/
theorem runFlush_of_nothing {s : Session} (hd : s.dirty = []) (hp : s.pendingDeletes = [])
    (D : Tables) : (s.runFlush D).2 = .ok D := by
  have hargs : s.flushArgs = ⟨[], [], [], [], [], []⟩ := by
    simp [Session.flushArgs, Session.childDeletes, Session.childUpserts, Session.dirtyEntries,
      hd, hp]
  have hexec : executePlans s.flushArgs D = .ok D := by
    rw [hargs, executePlans_eq_ok_iff]
    refine ⟨⟨by simp, by simp, by simp, by simp⟩, fun k => ?_, fun k f => ?_, fun k o => ?_⟩ <;>
      simp [PlanArgs.storeAfter]
  rw [Session.runFlush_ok hexec]

/-- A commit makes the backend ready for the next transaction. -/
theorem Ready.preCommit (hb : b.Ready D) (cs : List Call)
    (hcommit : ((b.calls hashBytes cs).preCommit D).2 = .ok D') :
    ((b.calls hashBytes cs).preCommit D).1.Ready D' := by
  have hmode := @mode_calls hashBytes b cs
  rw [Backend.preCommit] at hcommit ⊢
  cases hm : b.mode with
  | session =>
    rw [session_calls hm] at hcommit
    obtain ⟨hcov, hd, hp⟩ := ((hb.covers hm).calls cs).runFlush hcommit
    simp only [session_calls hm]
    exact ⟨hd, hp, fun _ => hcov⟩
  | shared =>
    simp only [session_calls_shared hm]
    refine ⟨Session.dirty_runFlush, Session.pendingDeletes_runFlush, fun hs => ?_⟩
    exact absurd (hs.symm.trans (hmode.trans hm)) (by decide)

/-- One transaction. -/
theorem Ready.durable_iff (hb : b.Ready D) (cs : List Call)
    (hcommit : ((b.calls hashBytes cs).preCommit D).2 = .ok D')
    (hK : (b.calls hashBytes cs).Shows hashBytes K) :
    (∀ c ∈ cs, D'.Holds c.cmd.key (K c.cmd.key)) ↔
      b.mode = .session ∨ ∀ c ∈ cs, D.Holds c.cmd.key (K c.cmd.key) := by
  have hmode := @mode_calls hashBytes b cs
  rw [Backend.preCommit] at hcommit
  rw [Shows, hmode] at hK
  cases hm : b.mode with
  | session =>
    rw [hm] at hK
    rw [session_calls hm] at hcommit hK
    exact iff_of_true (fun c _ => ((hb.covers hm).calls cs).holds hcommit hK c.cmd.key) (.inl rfl)
  | shared =>
    -- The chain and the deletions are still empty.
    rw [session_calls_shared hm, runFlush_of_nothing hb.dirty hb.pendingDeletes] at hcommit
    obtain rfl := Except.ok.inj hcommit
    simp

/-- A transaction that commits. -/
def transact (hashBytes : Bytes → UInt32) (st : Backend × Tables) (cs : List Call) :
    Option (Backend × Tables) :=
  match (st.1.calls hashBytes cs).preCommit st.2 with
  | (b, .ok D) => some (b, D)
  | (_, .error _) => none

/-- A backend that keeps its storage mode, between transactions. -/
def ReadyIn (mode : StorageMode) (st : Backend × Tables) : Prop :=
  st.1.mode = mode ∧ st.1.Ready st.2

theorem readyIn_transact {mode : StorageMode} (st : Backend × Tables) (cs : List Call)
    (st' : Backend × Tables) (h : ReadyIn mode st) (_ : True)
    (hst : transact hashBytes st cs = some st') : ReadyIn mode st' := by
  obtain ⟨b, D⟩ := st
  rw [transact] at hst
  split at hst
  · rename_i b' D' hpre
    obtain rfl := Option.some.inj hst
    have hb' := h.2.preCommit cs (congrArg Prod.snd hpre)
    have hmode' : ((b.calls hashBytes cs).preCommit D).1.mode = b.mode := mode_calls cs
    rw [hpre] at hb' hmode'
    exact ⟨hmode'.trans h.1, hb'⟩
  · exact absurd hst (by simp)

/-- After any committed transactions, the next one is durable when its pre-commit callback has
    finished if the storage mode is session; if it is shared, only when the tables had the rows
    of its keys already. -/
theorem durable_at_commit_iff {b₀ : Backend} {D₀ : Tables} (h₀ : b₀.Ready D₀)
    (h : Reachable (transact hashBytes) (fun _ _ => True) (b₀, D₀) (b, D)) (cs : List Call)
    (hcommit : ((b.calls hashBytes cs).preCommit D).2 = .ok D')
    (hK : (b.calls hashBytes cs).Shows hashBytes K) :
    (∀ c ∈ cs, D'.Holds c.cmd.key (K c.cmd.key)) ↔
      b₀.mode = .session ∨ ∀ c ∈ cs, D.Holds c.cmd.key (K c.cmd.key) := by
  have hinv : ReadyIn b₀.mode (b, D) := h.invariant ⟨rfl, h₀⟩ readyIn_transact
  rw [← hinv.1]
  exact hinv.2.durable_iff cs hcommit hK

/-- In session mode `SET k v` is durable at its commit. -/
theorem set_durable_in_session :
    ∃ D', (((⟨.session, .init, .empty⟩ : Backend).calls (fun _ => 0)
      [⟨⟨0, 0⟩, 0, 0, .set [107] [118]⟩]).preCommit .empty).2 = .ok D' ∧
      D'.Holds [107] (some ⟨.str (some [118]), none⟩) := by
  refine ⟨_, rfl, ?_⟩
  have hready : (⟨.session, .init, .empty⟩ : Backend).Ready .empty :=
    ⟨rfl, rfl, fun _ => Session.synced_init.covers⟩
  have hshows : ((⟨.session, .init, .empty⟩ : Backend).calls (fun _ => 0)
      [⟨⟨0, 0⟩, 0, 0, .set [107] [118]⟩]).Shows (fun _ => 0)
      (Function.update (fun _ => none) [107] (some ⟨.str (some [118]), none⟩)) :=
    (Session.perform_shows Session.shows_init Session.synced_init.typed
      (show (Command.set [107] [118]).check ⟨0, 0⟩ = .ok () from rfl) 0 0).2
  exact (durable_at_commit_iff hready .init _ rfl hshows).2 (.inl rfl) _ List.mem_cons_self

/-- In shared mode `SET k v` is not: after the commit the key has no row. -/
theorem set_lost_in_shared :
    ∃ D', (((⟨.shared, .init, .empty⟩ : Backend).calls (fun _ => 0)
      [⟨⟨0, 0⟩, 0, 0, .set [107] [118]⟩]).preCommit .empty).2 = .ok D' ∧
      ((((⟨.shared, .init, .empty⟩ : Backend).calls (fun _ => 0)
        [⟨⟨0, 0⟩, 0, 0, .set [107] [118]⟩]).shared.entries.lookup [107]).map
          SharedEntry.value).isSome ∧ D'.store [107] = none :=
  ⟨_, rfl, rfl, rfl⟩

end Backend

end PgRedis
