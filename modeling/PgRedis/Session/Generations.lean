import PgRedis.Durable.Cells
import PgRedis.Lib.Run
import PgRedis.Session.Restore

/-!
# One backend after another

Session mode under `sync_table` over many connections: a backend runs commands and commits, then
it is gone, with what it had not committed, and another loads the tables and goes on.

What a new backend loads is in step with the tables (`Session.synced_load`): besides the values,
which `PgRedis.Session.Restore` is about, the ordinals of a list are those of its rows, and the
list knows the two at its ends, so that the deltas of later pushes and pops fit the rows. The
rows are therefore exact after the commits of every backend in the chain
(`exact_across_backends`). Asked of the tables at a connection is that the load takes all of
them: no key has expired, and no hash or list is empty.
-/

namespace PgRedis

open Lib

namespace ListValue

variable {l : ListValue}

/-- A row with a greater ordinal than all before. -/
theorem Ordered.load (h : l.Ordered) {ord : ℤ} (hlt : ∀ n ∈ l.nodes, n.ord < ord)
    (value : Bytes) : (l.load ord value).Ordered where
  sorted := List.pairwise_append.2 ⟨h.sorted, List.pairwise_singleton _ _, fun n hn m hm => by
    rw [List.mem_singleton.1 hm]
    exact hlt n hn⟩
  initialized := by simp [ListValue.load]
  min n hn := by
    cases hl : l.nodes with
    | nil =>
      simp only [ListValue.load, hl, List.nil_append, List.head?_cons, Option.some.injEq] at hn ⊢
      rw [if_pos trivial, ← hn]
    | cons m rest =>
      have hinit : l.ordInitialized = true := h.initialized.2 (by rw [hl]; simp)
      simp only [ListValue.load, hl, List.cons_append, List.head?_cons, Option.some.injEq] at hn ⊢
      rw [if_neg (by simp), rpush, hinit, if_pos rfl, ← hn]
      exact h.min m (by rw [hl]; rfl)
  max n hn := by
    rw [ListValue.load, List.getLast?_concat] at hn
    exact Option.some.inj hn ▸ rfl

/-- Rows in the order of their ordinals. -/
theorem Ordered.loadAll {rows : List (LoadRow ℤ)} (h : l.Ordered)
    (hrows : rows.Pairwise fun r r' => r.item < r'.item)
    (hlt : ∀ n ∈ l.nodes, ∀ r ∈ rows, n.ord < r.item) :
    (Collection.lists.loadAll rows l).Ordered := by
  induction rows generalizing l with
  | nil => exact h
  | cons r rows ih =>
    obtain ⟨hr, hrows⟩ := List.pairwise_cons.1 hrows
    refine ih (h.load (fun n hn => hlt n hn r List.mem_cons_self) _) hrows fun n hn r' hr' => ?_
    rcases List.mem_append.1 hn with hn | hn
    · exact hlt n hn r' (List.mem_cons_of_mem _ hr')
    · rw [List.mem_singleton.1 hn]
      exact hr r' hr'

end ListValue

namespace Session

variable {s : Session} {K : Cells} {D : Tables} {q : Query} {now : ℤ} {k : Key} {c : Cell}

/-- The nodes of a list that is loaded are those of the list that was stored, and durable. -/
theorem load_list_nodes (hq : q.Selects D now) (ht : s.WellTyped) (hK : s.Shows K)
    (hreg : K.Regular) (hD : s.Exact D) (hfound : Cell.found now (K k) = some c) {vs : List Bytes}
    (hc : c.value = .list vs) (hne : vs ≠ []) :
    ∃ e a, (init.load now q).store.lookup k = some e ∧ e.content = some (.list a) ∧ a.Ordered ∧
      a.pendingDeleteOrds = [] ∧ (∀ n ∈ a.nodes, n.pendingInsert = false) ∧
      ∀ o v, D.listItems k o = some v ↔ ∃ n ∈ a.nodes, n.ord = o ∧ v = some n.value := by
  obtain ⟨e, p, hl, hec, -, hp⟩ := exists_parent hK hD hfound
  obtain ⟨hlen, -⟩ := hreg k c (Cell.found_eq_some hfound).1
  obtain ⟨l, hl', hnodes⟩ := hec.content_list (ht k e hl) hc
  obtain ⟨-, hsorted, hrows⟩ := hD.children k e _ hl hl'
  rw [hc] at hp
  have hitems := itemRows_of_exact hq hp hsorted hrows
  have hrows_ne : q.itemRows k ≠ [] := by
    rw [hitems, Ne, List.map_eq_nil_iff, ← List.map_eq_nil_iff, hnodes]
    exact hne
  -- Nothing is in memory yet: the entry is made by the first row, and the others are pushed to
  -- it.
  have hlook : (init.load now q).store.lookup k = some ⟨.list,
      .list (Collection.lists.loadAll (q.itemRows k) .create), p.expireAt, 1, false⟩ := by
    rw [lookup_load_list hq init hp hlen]
    exact Collection.foldl_cell_none hp.alive hrows_ne (expireAt_itemRows hq hp)
  have hloaded : (Collection.lists.loadAll (q.itemRows k) .create).nodes =
      l.nodes.map fun n => ⟨n.value, n.ord, false⟩ := by
    rw [ListValue.nodes_loadAll, hitems, List.map_map]
    rfl
  refine ⟨_, _, hlook, rfl, ListValue.ordered_create.loadAll hq.itemRows_sorted
    (fun n hn => absurd hn List.not_mem_nil), ListValue.pendingDeleteOrds_loadAll, fun n hn => ?_,
    fun o v => ?_⟩
  · rw [hloaded] at hn
    obtain ⟨m, -, rfl⟩ := List.mem_map.1 hn
    rfl
  · rw [hrows, hloaded]
    simp

/-- The load takes all of the tables. -/
def Offers (D : Tables) (now : ℤ) : Prop := ∀ k p, D.store k = some p → Offered D now k

/-- Every key that is there is loaded. -/
theorem load_of_offers (hq : q.Selects D now) (ht : s.WellTyped) (hK : s.Shows K)
    (hreg : K.Regular) (hD : s.Exact D) (hfit : D.Fits) (hall : Offers D now) (k : Key) :
    (init.load now q).store.lookup k = none ∧ D.store k = none ∨
    ∃ c e, Cell.found now (K k) = some c ∧ ¬c.value.Emptied ∧
      (init.load now q).store.lookup k = some e ∧ e.Shows c ∧ e.Settled := by
  rcases load_cases hq ht hK hreg hD hfit k with ⟨hnone, hempty⟩ | hload
  · refine .inl ⟨hnone, Option.eq_none_iff_forall_ne_some.2 fun p hp => ?_⟩
    cases hfound : Cell.found now (K k) with
    | none => exact not_offered hK hD hfound (hall k p hp)
    | some c => exact not_offered_of_emptied ht hK hD hfound (hempty c hfound) (hall k p hp)
  · exact .inr hload

/-- The value of a key that is loaded has its rows, and no deltas. -/
theorem load_value (hq : q.Selects D now) (ht : s.WellTyped) (hK : s.Shows K)
    (hreg : K.Regular) (hD : s.Exact D) (hfound : Cell.found now (K k) = some c)
    (hempty : ¬c.value.Emptied) {e : Entry} (he : (init.load now q).store.lookup k = some e)
    (hec : e.Shows c) (hset : e.Settled) {v : Value} (hv : e.content = some v) :
    v.ExactRows (D.hashFields k) (D.listItems k) ∧ v.Clean := by
  obtain ⟨e₀, p, hl, hec₀, -, -⟩ := exists_parent hK hD hfound
  have hsome₀ := ht k e₀ hl
  have hsome : e.content.isSome := by rw [hv]; rfl
  -- By the type of the value. What is stored are the rows of the backend before, `e₀`; what is
  -- loaded shows the same cell.
  cases hc : c.value with
  | hash m =>
    obtain ⟨a₀, ha₀, hm₀⟩ := hec₀.content_hash hsome₀ hc
    obtain ⟨a, ha, hm⟩ := hec.content_hash hsome hc
    obtain rfl := Option.some.inj (hv.symm.trans ha)
    obtain ⟨hfields, hitems⟩ := hD.children k e₀ _ hl ha₀
    refine ⟨⟨fun f => ?_, hitems⟩, fun f x hf => ?_, ?_⟩
    · have hsame := congrArg (Option.map some) ((hm₀ f).trans (hm f).symm)
      rw [Option.map_map, Option.map_map] at hsame
      exact (hfields f).trans hsame
    · have hnot : (f, x.value) ∉ e.dirtyFields := by
        rw [hset.dirtyFields]
        exact List.not_mem_nil
      rw [mem_dirtyFields hv] at hnot
      obtain ⟨y, _ | _⟩ := x
      · rfl
      · exact absurd hf hnot
    · obtain ⟨htype, hvalue⟩ := Entry.content_eq_hash.1 hv
      have hnil := hset.tombstones
      rwa [Entry.tombstones, htype, hvalue] at hnil
  | list vs =>
    obtain ⟨e', a, he', ha, hord, hdel, hdurable, hrows⟩ :=
      load_list_nodes hq ht hK hreg hD hfound hc fun hvs => hempty (.inr (by rw [hc, hvs]))
    obtain rfl := Option.some.inj (he.symm.trans he')
    obtain rfl := Option.some.inj (hv.symm.trans ha)
    obtain ⟨l, hl', -⟩ := hec₀.content_list hsome₀ hc
    exact ⟨⟨(hD.children k e₀ _ hl hl').1, hord.sorted, hrows⟩, hord, hdurable, hdel⟩
  | str | int =>
    have hscalar : ∀ {x : Entry} {w : Value}, x.Shows c → x.content = some w →
        w.isCollection = false := fun hx hw =>
      Entry.content_scalar (by rw [hx.type, hc]; simp [View.type]) hw
    obtain ⟨v₀, hv₀⟩ := Option.isSome_iff_exists.1 hsome₀
    have hrows := hD.children k e₀ v₀ hl hv₀
    have hcoll₀ := hscalar hec₀ hv₀
    have hcoll := hscalar hec hv
    cases v₀ with
    | hash | list => exact absurd hcoll₀ (by simp [Value.isCollection])
    | str | int =>
      cases v with
      | hash | list => exact absurd hcoll (by simp [Value.isCollection])
      | str | int => exact ⟨hrows, trivial⟩

/-- A new backend is in step with the tables. -/
theorem synced_load (hq : q.Selects D now) (ht : s.WellTyped) (hK : s.Shows K)
    (hreg : K.Regular) (hD : s.Exact D) (hfit : D.Fits) (hall : Offers D now) :
    (init.load now q).Synced D := by
  have hload := load_of_offers hq ht hK hreg hD hfit hall
  obtain ⟨hdirty, hdeletes, hsettled⟩ := settled_load hq ht hK hreg hD hfit
  have hsome : ∀ {k e}, (init.load now q).store.lookup k = some e →
      ∃ c, Cell.found now (K k) = some c ∧ ¬c.value.Emptied ∧ e.Shows c := by
    intro k e he
    rcases hload k with ⟨hnone, -⟩ | ⟨c, e', hfound, hempty, he', hec, -⟩
    · exact absurd (hnone.symm.trans he) (by simp)
    · exact ⟨c, hfound, hempty, Option.some.inj (he'.symm.trans he) ▸ hec⟩
  have hvalue : ∀ {k e v}, (init.load now q).store.lookup k = some e → e.content = some v →
      v.ExactRows (D.hashFields k) (D.listItems k) ∧ v.Clean := by
    intro k e v he hv
    obtain ⟨c, hfound, hempty, hec⟩ := hsome he
    exact load_value hq ht hK hreg hD hfound hempty he hec (hsettled k e he) hv
  refine ⟨⟨fun k hk => ?_, fun k e he => ?_, fun k e v he hv => (hvalue he hv).1⟩,
    wellTyped_load_init hq, hdirty, hdeletes, fun k e he => (hsettled k e he).unmarked,
    fun k e v he hv => (hvalue he hv).2⟩
  · rcases hload k with ⟨-, hnone⟩ | ⟨c, e, -, -, he, -⟩
    · exact hnone
    · exact absurd (he.symm.trans hk) (by simp)
  · obtain ⟨c, hfound, -, hec⟩ := hsome he
    obtain ⟨e₀, p, -, hec₀, hrow, hp⟩ := exists_parent hK hD hfound
    exact ⟨p, hp.row, hrow.1.trans (congrArg _ (hec₀.type.trans hec.type.symm)),
      hrow.2.1.trans (hec₀.encodeValue.trans hec.encodeValue.symm),
      hrow.2.2.trans (hec₀.expireAt.trans hec.expireAt.symm)⟩

/-- A keyspace as commands and loads leave them. -/
def Proper (s : Session) : Prop := s.WellTyped ∧ ∃ K : Cells, s.Shows K ∧ K.Regular

theorem proper_init : init.Proper :=
  ⟨fun _ _ h => absurd h (by simp [init]), _, shows_init, fun _ _ h => absurd h (by simp)⟩

theorem proper_load (hq : q.Selects D now) (ht : s.WellTyped) (hK : s.Shows K)
    (hreg : K.Regular) (hD : s.Exact D) (hfit : D.Fits) : (init.load now q).Proper := by
  refine ⟨wellTyped_load_init hq,
    fun k => ((init.load now q).store.lookup k).bind fun _ => Cell.found now (K k), fun k => ?_,
    fun k c hc => ?_⟩
  · rcases load_cases hq ht hK hreg hD hfit k with ⟨hnone, -⟩ | ⟨c, e, hfound, -, he, hec, -⟩
    · simp only [hnone, Option.bind_none]
      exact .none
    · simp only [he, hfound, Option.bind_some]
      exact .some hec
  · obtain ⟨e, -, hfound⟩ := Option.bind_eq_some_iff.1 hc
    exact hreg k c (Cell.found_eq_some hfound).1

theorem Proper.call (h : s.Proper) (a : Call) : (s.call a).Proper := by
  obtain ⟨ht, K, hK, hreg⟩ := h
  exact ⟨ht.call a, hK.call ht hreg a⟩

theorem Proper.runFlush (h : s.Proper) (D : Tables) : (s.runFlush D).1.Proper := by
  obtain ⟨ht, K, hK, hreg⟩ := h
  exact ⟨ht.runFlush D, K, hK.runFlush D, hreg⟩

/-- The flag of the load is of no matter. -/
theorem Synced.loaded (h : s.Synced D) (flag : Bool) : { s with loaded := flag }.Synced D :=
  ⟨⟨h.exact.absent, h.exact.present, h.exact.children⟩, h.typed, h.dirty, h.pendingDeletes,
    h.unmarked, h.clean⟩

end Session

/-! ## The chain of backends -/

namespace Generations

open Session

/-- The steps of the backend of the time, and the connection of the next. -/
inductive Action
  | call (a : Call)
  | commit
  | connect (q : Query) (now : ℤ)

/-- A step on the keyspace of the backend and the tables. A backend that connects loads the
    tables, and what the one before had not committed is lost. -/
def step : Session × Tables → Action → Option (Session × Tables)
  | (s, D), .call a => some (s.call a, D)
  | (s, D), .commit => match s.runFlush D with
    | (s', .ok D') => some (s', D')
    | (_, .error _) => none
  | (_, D), .connect q now => some (Session.init.loadIfNeeded now q, D)

/-- A command starts no key afresh over child rows; the load takes all of the tables. -/
def Guard : Session × Tables → Action → Prop
  | st, .call a => Unshadowed st (.call a)
  | _, .commit => True
  | (_, D), .connect q now => q.Selects D now ∧ D.Fits ∧ Offers D now

/-- The deltas of the backend stand for its difference to the tables, and these are the rows
    of some keyspace. -/
structure InStep (st : Session × Tables) : Prop where
  tracks : st.1.Tracks st.2
  proper : st.1.Proper
  rows : ∃ s₀ : Session, s₀.Proper ∧ s₀.Exact st.2

theorem inStep_init : InStep (Session.init, .empty) :=
  ⟨synced_init.tracks, proper_init, _, proper_init, synced_init.exact⟩

theorem inStep_step (st : Session × Tables) (a : Action) (st' : Session × Tables) (h : InStep st)
    (hok : Guard st a) (hst : step st a = some st') : InStep st' := by
  obtain ⟨s, D⟩ := st
  obtain ⟨htracks, hproper, s₀, hproper₀, hD⟩ := h
  cases a with
  | call a =>
    obtain rfl := Option.some.inj hst
    exact ⟨Tracks.call htracks hok, hproper.call a, s₀, hproper₀, hD⟩
  | commit =>
    obtain ⟨D', hflush, hsync⟩ := Tracks.runFlush htracks
    have hrun : s.runFlush D = ((s.runFlush D).1, .ok D') := Prod.ext rfl hflush
    rw [step, hrun] at hst
    obtain rfl := Option.some.inj hst
    exact ⟨hsync.tracks, hproper.runFlush D, _, hproper.runFlush D, hsync.exact⟩
  | connect q now =>
    obtain ⟨hq, hfit, hall⟩ := hok
    obtain rfl := Option.some.inj hst
    obtain ⟨ht, K, hK, hreg⟩ := hproper₀
    exact ⟨((synced_load hq ht hK hreg hD hfit hall).loaded true).tracks,
      proper_load hq ht hK hreg hD hfit, s₀, ⟨ht, K, hK, hreg⟩, hD⟩

/-- In every state reached by commands, commits and connections that start no key afresh over
    child rows and load all of the tables: a commit raises no error and leaves the rows
    exact. -/
theorem exact_across_backends {s : Session} {D : Tables}
    (h : Reachable step Guard (Session.init, .empty) (s, D)) :
    ∃ D', (s.runFlush D).2 = .ok D' ∧ (s.runFlush D).1.Exact D' := by
  obtain ⟨D', hok, hsync⟩ := Tracks.runFlush (h.invariant inStep_init inStep_step).tracks
  exact ⟨D', hok, hsync.exact⟩

theorem selects_empty (now : ℤ) : Query.Selects ⟨[], [], []⟩ .empty now where
  mem_scalars r := iff_of_false List.not_mem_nil fun h => by
    obtain ⟨-, p, hp, -⟩ := h
    exact absurd hp.row (by simp [Tables.empty])
  mem_hashes r := iff_of_false List.not_mem_nil fun h => by
    obtain ⟨p, hp, -⟩ := h
    exact absurd hp.row (by simp [Tables.empty])
  mem_lists r := iff_of_false List.not_mem_nil fun h => by
    obtain ⟨p, hp, -⟩ := h
    exact absurd hp.row (by simp [Tables.empty])
  scalars_nodup := .nil
  hashes_nodup := .nil
  lists_sorted := .nil

/-- A backend is gone with its `SET k v`; the next, which finds empty tables, runs `HSET h f v`
    and `RPUSH l v`. -/
def lostAndTaken : List Action :=
  [.call (callNow (.set [107] [118])), .connect ⟨[], [], []⟩ 0,
    .call (callNow (.hset [104] [102] [118])), .call (callNow (.push .right [108] [118]))]

theorem exact_across_lost :
    let st := (run step (Session.init, .empty) lostAndTaken).get rfl
    ∃ D', (st.1.runFlush st.2).2 = .ok D' ∧ (st.1.runFlush st.2).1.Exact D' := by
  intro st
  have hmeets : Meets step Guard (Session.init, .empty) lostAndTaken := by
    have hnone : ∀ a, Guard (Session.init, .empty) (.call a) := fun a _ _ =>
      ⟨fun _ => rfl, fun _ => rfl⟩
    refine .cons (hnone _) rfl (.cons ⟨selects_empty 0, fun k p raw hp => ?_, fun k p hp => ?_⟩ rfl
      (.cons (fun _ _ => ⟨fun _ => rfl, fun _ => rfl⟩) rfl
      (.cons (fun _ _ => ⟨fun _ => rfl, fun _ => rfl⟩) rfl trivial)))
    all_goals exact absurd hp (by simp [Tables.empty])
  have hreach : Reachable step Guard (Session.init, .empty) st :=
    .of_run .init hmeets (Option.some_get _).symm
  exact exact_across_backends hreach

end Generations

end PgRedis
