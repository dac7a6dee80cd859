import PgRedis.SharedStore.Publishing

/-!
# What a step of a mutation keeps

The steps of the backends, each keeping the invariant of `PgRedis.SharedStore.Publishing`: an event
enters the ring (`Linked.publish`), a locked section changes the keyspace and owes its events
(`Linked.mutated`); so does whatever a command starts with (`Linked.start`) or goes on with
(`Linked.next`).
-/

namespace PgRedis

open Lib

namespace Publishing

variable {π : Type} [DecidableEq π] {hashBytes : Bytes → UInt32} {s s' : Publishing π} {K : Cells}
  {D D' : Tables} {p q : π}

/-! ## Publishing -/

theorem HashFits.mono {evs : List DirtyEvent} {c : Call} (h : HashFits D evs c)
    (hD : ∀ k, (D.store k).isSome → (D'.store k).isSome) : HashFits D' evs c := by
  rw [HashFits] at h ⊢
  split at h
  · obtain ⟨hlen, hcheck, htext, h⟩ := h
    refine ⟨hlen, hcheck, htext, h.imp_right (Or.imp_right fun h => ⟨h.1, hD _ h.2⟩)⟩
  · exact h
  · exact h

/-- Rows of the parents are not taken away. -/
theorem Fits.mono {evs : List DirtyEvent} {t : Option Todo} (h : Fits D evs t)
    (hD : ∀ k, (D.store k).isSome → (D'.store k).isSome) : Fits D' evs t := by
  rcases t with _ | ⟨_ | _ | _ | _ | _⟩
  · exact h
  · exact h
  · exact h
  · exact HashFits.mono h hD
  · exact ⟨h.1, HashFits.mono h.2.1 hD, h.2.2⟩
  · exact ⟨HashFits.mono h.1 hD, h.2⟩

/-- An event comes to the tables with the row it needs. -/
theorem Fits.exists_replay {ev : DirtyEvent} {evs : List DirtyEvent} {t : Option Todo}
    (h : Fits D (ev :: evs) t) : ∃ D', replay [ev] D = .ok D' ∧ Fits D' evs t ∧
      ∀ k, (D.store k).isSome → (D'.store k).isSome := by
  have upsert : ∀ k t v x n, ∃ D', replay [.keyUpsert k t v x n] D = .ok D' ∧
      (D'.store k).isSome ∧ ∀ k, (D.store k).isSome → (D'.store k).isSome := by
    intro k t v x n
    obtain ⟨D', hD', hstore, -⟩ := replay_keyUpsert D k t v x n
    refine ⟨D', hD', by rw [hstore, if_pos rfl]; rfl, fun k' hk' => ?_⟩
    rw [hstore]
    split_ifs
    · rfl
    · exact hk'
  have hash : ∀ c, HashFits D (ev :: evs) c → ∃ D', replay [ev] D = .ok D' ∧
      HashFits D' evs c ∧ ∀ k, (D.store k).isSome → (D'.store k).isSome := by
    intro c h
    rw [HashFits] at h
    split at h
    · rename_i key field value hc
      obtain ⟨hlen, hcheck, htext, hnil | ⟨x, n, hevs⟩ | ⟨hevs, hrow⟩⟩ := h
      · exact absurd hnil (by simp)
      · -- The row of the key comes first, and the field will find it.
        obtain ⟨rfl, rfl⟩ := List.cons.inj hevs
        obtain ⟨D', hD', hrow, hmono⟩ := upsert key .hash [] x n
        refine ⟨D', hD', ?_, hmono⟩
        simp only [HashFits, hc]
        exact ⟨hlen, hc ▸ hcheck, hc ▸ htext, .inr (.inr ⟨trivial, hrow⟩)⟩
      · obtain ⟨rfl, rfl⟩ := List.cons.inj hevs
        obtain ⟨D', hD', hstore, -⟩ := replay_hashFieldUpsert hrow field value
        refine ⟨D', hD', ?_, fun k hk => by rwa [hstore]⟩
        simp only [HashFits, hc]
        exact ⟨hlen, hc ▸ hcheck, hc ▸ htext, .inl trivial⟩
    · rename_i key field hc
      obtain hnil | hevs := h
      · exact absurd hnil (by simp)
      · obtain ⟨rfl, rfl⟩ := List.cons.inj hevs
        obtain ⟨D', hD', hstore, -⟩ := replay_hashFieldDelete D key field
        refine ⟨D', hD', ?_, fun k hk => by rwa [hstore]⟩
        simp only [HashFits, hc]
        exact .inl trivial
    · exact h.elim
  rcases t with _ | ⟨_ | _ | _ | _ | _⟩
  · exact absurd h (by simp [Fits])
  · exact absurd h.1 (by simp)
  · obtain ⟨k, t, v, x, n, rfl⟩ := h ev List.mem_cons_self
    obtain ⟨D', hD', -, hmono⟩ := upsert k t v x n
    exact ⟨D', hD', fun ev' hev' => h ev' (List.mem_cons_of_mem _ hev'), hmono⟩
  · exact hash _ h
  · exact absurd h.1 (by simp)
  · obtain ⟨D', hD', hfit, hmono⟩ := hash _ h.1
    exact ⟨D', hD', ⟨hfit, h.2⟩, hmono⟩

/-- An event that overtakes none for its rows enters the ring. -/
theorem Linked.publish (h : s.Linked hashBytes K D) (hord : s.Ordered p) :
    ∃ D', (s.publish p).Linked hashBytes K D' := by
  rw [Publishing.publish]
  cases hst : s.stale.find? fun x => x.1 = p with
  | some x =>
    -- It is still to be dropped, with all of the ring.
    have hphase : s.phase = .reset := by
      by_contra hno
      rw [h.stale hno] at hst
      exact absurd hst (by simp)
    refine ⟨D, h.store, ?_, h.rows, h.todo, h.locked, fun hno => absurd hphase hno⟩
    have hrep := h.replayed
    rw [live, if_pos hphase] at hrep
    rw [live, if_pos hphase]
    exact hrep
  | none =>
    cases how : s.owed.find? fun x => x.1 = p with
    | none => exact ⟨D, h⟩
    | some x =>
      obtain ⟨pre, post, -, howed, hpre, herase⟩ := exists_of_find how
      obtain ⟨y, hy, hyp⟩ | ⟨hphase, hclash⟩ := hord
      · exact absurd (List.find?_eq_none.1 hst y hy) (by simpa using hyp)
      have hfit := h.todo p
      rw [mine_of_split howed hpre, if_pos rfl] at hfit
      obtain ⟨D', hD', hfit', hmono⟩ := hfit.exists_replay
      refine ⟨D', h.store, ?_, fun k => ?_, fun q => ?_, h.locked, h.stale⟩
      · have hrep := h.replayed
        rw [live, if_neg hphase] at hrep
        rw [live, if_neg hphase]
        change replay (s.ring ++ [x.2]) s.base = .ok D'
        rw [replay_append, hrep]
        exact hD'
      · have hrows := h.rows k
        rw [howed, List.map_append, List.map_cons, KeyRows.apply_move] at hrows
        · rw [herase, KeyRows.rows_of_replay hD', List.map_append]
          exact hrows
        · intro ev' hev'
          obtain ⟨y, hy, rfl⟩ := List.mem_map.1 hev'
          exact hclash pre x.2 post howed hpre y hy
      · simp only [mine, herase]
        by_cases hq : q = p
        · rw [hq]
          exact hfit'
        · have hfit := h.todo q
          rw [mine_of_split howed hpre, if_neg hq] at hfit
          exact hfit.mono hmono

/-- `p` goes on to something else, with what it owes and the cells as they are. -/
theorem Linked.goto (h : s.Linked hashBytes K D) {S' : SharedStore} {t : Option Todo}
    {locks : List Key} (hS' : S'.Shows hashBytes K) (hfit : Fits D (s.mine p) t)
    (hrows : ∀ k R, s.Backed k R (K k) → (s.goto p t).Backed k R (K k))
    (hlocked : Locked (Function.update s.pc p t) locks K) :
    ({ s with store := S', locks := locks }.goto p t).Linked hashBytes K D where
  store := hS'
  replayed := h.replayed
  rows k := hrows k _ (h.rows k)
  todo q := by
    change Fits D (s.mine q) (Function.update s.pc p t q)
    by_cases hq : q = p
    · rw [hq, Function.update_self]
      exact hfit
    · rw [Function.update_of_ne hq]
      exact h.todo q
  locked := hlocked
  stale := h.stale

theorem pc_publish (s : Publishing π) (p : π) : (s.publish p).pc = s.pc := by
  rw [Publishing.publish]
  split
  · rfl
  · split <;> rfl

theorem locks_publish (s : Publishing π) (p : π) : (s.publish p).locks = s.locks := by
  rw [Publishing.publish]
  split
  · rfl
  · split <;> rfl

/-- The event that comes next enters the ring, and the call returns if it was the last. -/
theorem Linked.publishes (h : s.Linked hashBytes K D) (hord : s.Ordered p)
    (hwrite : ∀ c e b, s.pc p ≠ some (.write c e b)) (hretry : ∀ c, s.pc p ≠ some (.retry c))
    {locks : List Key} (hlocked : Locked (Function.update s.pc p none) locks K)
    (hs' : (if (s.publish p).owes p then some (s.publish p)
      else some ({ s.publish p with locks := locks }.goto p none)) = some s') :
    s'.Inv hashBytes := by
  obtain ⟨D', h'⟩ := h.publish hord
  have hpc := pc_publish s p
  split_ifs at hs' with howes <;> obtain rfl := Option.some.inj hs'
  · exact ⟨K, D', h'⟩
  · refine ⟨K, D', h'.goto h'.store ?_ (fun k R hR => hR.goto ?_ ?_ none) (hpc ▸ hlocked)⟩
    · simp only [owes, List.any_append, Bool.or_eq_true, not_or] at howes
      have hnil : ((s.publish p).owed.filter fun x => x.1 = p) = [] :=
        List.filter_eq_nil_iff.2 fun x hx hxp => howes.2 (List.any_eq_true.2 ⟨x, hx, hxp⟩)
      change (s.publish p).mine p = []
      rw [mine, hnil, List.map_nil]
    · exact fun c e hw => absurd (hpc ▸ hw) (hwrite c e true)
    · exact fun c hr => absurd (hpc ▸ hr) (hretry c)

/-- The key of `p` is given another cell, with the events that say so. -/
theorem Linked.mutated (h : s.Linked hashBytes K D) {key : Key} {S' : SharedStore}
    {o : Option Cell} {evs : List DirtyEvent} {t : Option Todo} {locks : List Key}
    (hS' : S'.Shows hashBytes (Function.update K key o)) (hevs : ∀ ev ∈ evs, ev.key = key)
    (hrows : (s.goto p t).Backed key
      (((D.rows key).apply key (s.owed.map Prod.snd)).apply key evs) o)
    (hfit : Fits D (s.mine p ++ evs) t)
    (hwrite : ∀ c e, s.pc p = some (.write c e true) → c.cmd.key = key)
    (hretry : ∀ c, s.pc p = some (.retry c) → c.cmd.key = key)
    (hlocked : Locked (Function.update s.pc p t) locks (Function.update K key o)) :
    ({ s with
      store := S'
      owed := s.owed ++ evs.map fun ev => (p, ev)
      locks := locks }.goto p t).Linked hashBytes (Function.update K key o) D where
  store := hS'
  replayed := h.replayed
  rows k := by
    have hid : (s.owed ++ evs.map fun ev => (p, ev)).map Prod.snd = s.owed.map Prod.snd ++ evs := by
      rw [List.map_append, List.map_map]
      exact congrArg _ (List.map_id evs)
    change (s.goto p t).Backed k ((D.rows k).apply k ((s.owed ++ evs.map _).map Prod.snd)) _
    rw [hid, KeyRows.apply_append]
    -- The events are about `key`: the rows of other keys stay as they are.
    by_cases hk : k = key
    · rw [hk, Function.update_self]
      exact hrows
    · rw [Function.update_of_ne hk, KeyRows.apply_of_ne hevs hk]
      exact (h.rows k).goto (fun c e hw hkey => hk (hkey.symm.trans (hwrite c e hw)))
        (fun c hr hkey => hk (hkey.symm.trans (hretry c hr))) t
  todo q := by
    simp only [Publishing.goto, mine, filter_append_map]
    -- What is owed by the others has not changed.
    by_cases hq : q = p
    · rw [hq, Function.update_self, if_pos rfl]
      exact hfit
    · rw [Function.update_of_ne hq, if_neg hq, List.append_nil]
      exact h.todo q
  locked := hlocked
  stale := h.stale

/-- The events that `HSET` owes are for the row of the hash and for that of the field. -/
theorem HashFits.owed_cases {c : Call} (hfit : HashFits D (s.mine p) c) {key : Key} {field : Field}
    {value : Bytes} (hc : c.cmd = .hset key field value) {y : π × DirtyEvent} (hy : y ∈ s.owed)
    (hyp : y.1 = p) :
    (∃ x n, y.2 = .keyUpsert key .hash [] x n) ∨ y.2 = .hashFieldUpsert key field value := by
  rw [HashFits, hc] at hfit
  obtain ⟨-, -, -, hmine⟩ := hfit
  have hin : y.2 ∈ s.mine p := List.mem_map_of_mem (List.mem_filter.2 ⟨hy, by simpa using hyp⟩)
  rcases hmine with hnil | ⟨x, n, heq⟩ | ⟨heq, -⟩
  · rw [hnil] at hin
    exact absurd hin List.not_mem_nil
  · rw [heq, List.mem_pair] at hin
    exact hin.imp_left fun h => ⟨x, n, h⟩
  · rw [heq, List.mem_singleton] at hin
    exact .inr hin

/-- What is owed once `p` has given its events up. -/
theorem filter_forget (owed : List (π × DirtyEvent)) (p q : π) :
    ((owed.filter fun x => x.1 ≠ p).filter fun x => x.1 = q) =
      if q = p then [] else owed.filter fun x => x.1 = q := by
  rw [List.filter_filter]
  split_ifs with hq
  · rw [hq]
    exact List.filter_eq_nil_iff.2 fun y _ => by simp
  · refine List.filter_congr fun y _ => ?_
    by_cases hy : y.1 = q
    · simp [hy, hq]
    · simp [hy]

/-- `HSET` or `HDEL` finds the ring full. Under the lock that it releases nobody else has
    touched the hash, so the field of `HSET` is there, and its row is still to come. -/
theorem Linked.full (h : s.Linked hashBytes K D) {c : Call} (hpc : s.pc p = some (.locked c)) :
    (s.full p c).Inv hashBytes := by
  have hfit := h.todo p
  rw [hpc] at hfit
  have hwrite : ∀ c' e, s.pc p ≠ some (.write c' e true) := fun c' e hw =>
    absurd (hpc.symm.trans hw) (by simp)
  have hretry : ∀ c', s.pc p ≠ some (.retry c') := fun c' hr =>
    absurd (hpc.symm.trans hr) (by simp)
  rw [Publishing.full]
  split
  · rename_i key field value hc
    obtain ⟨m, x, hK, hmem⟩ := h.locked.field p c key field value hpc hc
    have hfit' : HashFits D (s.mine p) c := hfit
    -- Giving its events up changes nothing that they do not write.
    have hleft : ∀ {V : Type} {w : DirtyEvent → Option (Option V)},
        (∀ x n, w (.keyUpsert key .hash [] x n) = none) →
        w (.hashFieldUpsert key field value) = none → ∀ v,
        Lib.replayed w ((s.owed.filter fun x => x.1 ≠ p).map Prod.snd) v =
          Lib.replayed w (s.owed.map Prod.snd) v := by
      intro V w hrow hf v
      refine replayed_filter (fun y hy hkeep => ?_) v
      rcases hfit'.owed_cases hc hy (by simpa using hkeep) with ⟨x, n, heq⟩ | heq <;> rw [heq]
      · exact hrow x n
      · exact hf
    refine ⟨K, D, h.store, h.replayed, fun k => ?_, fun q => ?_, h.locked.release hpc (by simp),
      fun hphase => ?_⟩
    · by_cases hk : k = key
      · subst hk
        rw [hK]
        have hnear := (h.rows k).nearly (by rw [hK]; simp [Cell.fresh])
        rw [hK] at hnear
        refine .inl (hnear.of_given_up hmem (fun f hf => ?_) (funext fun i => ?_)
          (fun f hf => ?_) ⟨p, _, Function.update_self _ _ _, c, value, rfl, hc⟩)
        · exact hleft (fun _ _ => rfl) (if_neg fun heq => hf (Prod.mk.inj heq).2.symm) _
        · exact hleft (fun _ _ => rfl) rfl _
        · refine hf.goto ?_ _
          rintro t ht ⟨c', v, rfl, -⟩
          exact hretry c' ht
      · have hR : (D.rows k).apply k ((s.owed.filter fun x => x.1 ≠ p).map Prod.snd) =
            (D.rows k).apply k (s.owed.map Prod.snd) :=
          KeyRows.ext (hleft (fun _ _ => if_neg (Ne.symm hk)) rfl _)
            (funext fun f => hleft (fun _ _ => rfl)
              (if_neg fun heq => hk (Prod.mk.inj heq).1.symm) _)
            (funext fun i => hleft (fun _ _ => rfl) rfl _)
        change ((s.goto p _).Backed k ((D.rows k).apply k
          ((s.owed.filter fun x => x.1 ≠ p).map Prod.snd)) (K k))
        rw [hR]
        exact (h.rows k).goto (fun c' e hw => absurd hw (hwrite c' e))
          (fun c' hr => absurd hr (hretry c')) _
    · change Fits D (((s.owed.filter fun x => x.1 ≠ p).filter fun x => x.1 = q).map Prod.snd)
        (Function.update s.pc p _ q)
      rw [filter_forget]
      split_ifs with hq
      · rw [hq, Function.update_self]
        refine ⟨rfl, ?_, key, field, value, hc⟩
        rw [HashFits, hc] at hfit'
        simp only [HashFits, hc]
        exact ⟨hfit'.1, hc ▸ hfit'.2.1, hc ▸ hfit'.2.2.1, .inl rfl⟩
      · rw [Function.update_of_ne hq]
        exact h.todo q
    · change s.stale.filter _ = []
      rw [h.stale hphase, List.filter_nil]
  · rename_i hc
    exact ⟨K, D, h.goto h.store ⟨hfit, hc⟩
      (fun k R hR => hR.goto (fun c' e hw => absurd hw (hwrite c' e))
        (fun c' hr => absurd hr (hretry c')) _) (h.locked.release hpc (by simp))⟩

/-! ## Sections -/

section

variable {S : SharedStore} {key : Key} {R : KeyRows}

omit [DecidableEq π] in
/-- The first section of a command that makes a string or an integer, and cannot fail on a new
    entry. -/
theorem updateFirst_scalar (h : S.Shows hashBytes K)
    {f : Bool → Entry → Except EntryError (Entry × Reply)}
    {g : Bool → Cell → Except EntryError (Cell × Reply)} (hfg : UpdateSim f g)
    (hty : ∀ isNew c c' r, g isNew c = .ok (c', r) →
      c'.value.type = .string ∨ c'.value.type = .int)
    (hnew : ∀ c err, g true c ≠ .error err) (now : ℤ) (key : Key) :
    ∃ S', (∃ r, S.updateFirst now key f = (S', .returns r) ∧ S'.Shows hashBytes K) ∨
      ∃ e isNew r, S.updateFirst now key f = (S', .goesOn (.write e isNew r)) ∧
        (∃ c, e.Shows c ∧ (c.value.type = .string ∨ c.value.type = .int)) ∧
        (isNew = false ∧ S'.Shows hashBytes K ∨ isNew = true ∧ Cell.found now (K key) = none ∧
          S'.Shows hashBytes (Function.update K key (some .fresh))) := by
  obtain ⟨hec, hisNew⟩ := SharedEntry.upserted_shows (h key) now
  have hup : S.upsert now key = ((S.upsert now key).1,
      (SharedEntry.upserted now (S.entries.lookup key)).1.materialize,
      (SharedEntry.upserted now (S.entries.lookup key)).2) := Prod.ext rfl SharedStore.upsert_snd
  have hS := h.upsert now key
  refine ⟨(S.upsert now key).1, ?_⟩
  rw [SharedStore.updateFirst, hup, hisNew]
  simp only
  -- A missing or expired entry is made anew, and `f` cannot refuse it; an entry that is there
  -- may be of another type, and is then left as it is.
  rcases Cell.upserted_cases now (K key) with ⟨hfound, hnone⟩ | ⟨c, hK, -, hsome⟩
  · rw [hnone] at hS hec ⊢
    rcases hfg true _ _ (SharedEntry.materialize_shows hec) with
      ⟨err, -, hg⟩ | ⟨e', c', r, hf, hg, hec'⟩
    · exact absurd hg (hnew _ err)
    · simp only [hf]
      exact .inr ⟨e', true, r, rfl, ⟨c', hec', hty _ _ _ _ hg⟩, .inr ⟨rfl, hfound, hS⟩⟩
  · rw [hsome] at hS hec ⊢
    rw [← hK, Function.update_eq_self] at hS
    rcases hfg false _ _ (SharedEntry.materialize_shows hec) with
      ⟨err, hf, -⟩ | ⟨e', c', r, hf, hg, hec'⟩
    · simp only [hf]
      exact .inl ⟨_, rfl, hS⟩
    · simp only [hf]
      exact .inr ⟨e', false, r, rfl, ⟨c', hec', hty _ _ _ _ hg⟩, .inl ⟨rfl, hS⟩⟩

end

/-- Between two calls nothing is owed. -/
theorem Linked.mine_of_idle (h : s.Linked hashBytes K D) (hidle : s.pc p = none) :
    s.mine p = [] := by
  have hfit := h.todo p
  rw [hidle] at hfit
  exact hfit

/-- A section leaves the cells, or makes an entry where there is none that has child rows. -/
theorem Linked.begun (h : s.Linked hashBytes K D) {c : Call} {S' : SharedStore} {e : Entry}
    {isNew : Bool} (hidle : s.pc p = none) (hfree : c.cmd.key ∉ s.locks)
    (hec : ∃ x, e.Shows x ∧ (x.value.type = .string ∨ x.value.type = .int))
    (hchild : Cell.found c.now (K c.cmd.key) = none → Cell.Childless (K c.cmd.key))
    (hS' : isNew = false ∧ S'.Shows hashBytes K ∨
      isNew = true ∧ Cell.found c.now (K c.cmd.key) = none ∧
        S'.Shows hashBytes (Function.update K c.cmd.key (some .fresh))) :
    ({ s with store := S' }.goto p (some (.write c e isNew))).Inv hashBytes := by
  have hmine := h.mine_of_idle hidle
  have hnone : ∀ t, s.pc p ≠ some t := fun t ht => absurd (hidle.symm.trans ht) (by simp)
  rcases hS' with ⟨-, hS'⟩ | ⟨rfl, hfound, hS'⟩
  · exact ⟨K, D, h.goto hS' ⟨hmine, hec⟩
      (fun k R hR => hR.goto (fun c e hw => absurd hw (hnone _))
        (fun c hr => absurd hr (hnone _)) _)
      (h.locked.leave (by simp))⟩
  · have hlink : ({ s with
        store := S'
        owed := s.owed ++ ([] : List DirtyEvent).map fun ev => (p, ev) }.goto p
          (some (.write c e true))).Linked hashBytes _ D :=
      h.mutated hS' (fun ev hev => absurd hev List.not_mem_nil)
        (.inr ⟨rfl, ⟨p, _, Function.update_self _ _ _, c, e, rfl, rfl⟩,
          (h.rows _).childless (hchild hfound)⟩)
        ⟨by rw [hmine]; rfl, hec⟩ (fun c e hw => absurd hw (hnone _))
        (fun c hr => absurd hr (hnone _)) ((h.locked.update hfree _).leave (by simp))
    rw [List.map_nil, List.append_nil] at hlink
    exact ⟨_, D, hlink⟩

/-- The writeback of a string or an integer over a value without child rows. -/
theorem Linked.written (h : s.Linked hashBytes K D) {c : Call} {e : Entry} {isNew : Bool}
    (hpc : s.pc p = some (.write c e isNew)) (hfree : c.cmd.key ∉ s.locks)
    (hchild : Cell.Childless (K c.cmd.key))
    (hlen : (e.encodeValue.getD []).length ≤ uint16Max) :
    (s.writeback hashBytes p c e).Inv hashBytes := by
  obtain ⟨hmine, x, hex, ht⟩ : s.mine p = [] ∧ _ := by
    have hfit := h.todo p
    rw [hpc] at hfit
    exact hfit
  obtain ⟨S', heq, hS'⟩ := h.store.writeback enough_eq hex
    (by rcases ht with ht | ht <;> rw [ht] <;> decide) c.cmd.key
  have htype : (x.stored .shared).value.type = x.value.type := View.type_stored _ _
  obtain ⟨version, hevs⟩ := events_of_scalar hex ht c.cmd.key
  have hrows := ((h.rows c.cmd.key).childless hchild).keyUpsert c.cmd.key (c := x.stored .shared)
    (by rwa [htype]) (by rwa [data_stored ht, ← hex.encodeValue]) version
  rw [htype, data_stored ht] at hrows
  rw [Publishing.writeback, heq, hevs]
  refine ⟨_, D, h.mutated hS' ?_ (.inl (hrows.nearly _)) ?_ ?_ ?_
    ((h.locked.update hfree _).leave (by simp))⟩
  · intro ev hev
    rw [List.mem_singleton.1 hev]
    rfl
  · intro ev hev
    rw [hmine, List.nil_append, List.mem_singleton] at hev
    exact ⟨_, _, _, _, _, hev⟩
  · intro c' e' hpc'
    rw [hpc, Option.some.injEq, Todo.write.injEq] at hpc'
    rw [← hpc'.1]
  · exact fun c' hr => absurd (hpc.symm.trans hr) (by simp)

/-- A locked mutation that has events to publish. -/
theorem mutate_of_events {c : Call} {ev : DirtyEvent} {evs : List DirtyEvent}
    {x : SharedStore × List DirtyEvent × Except SharedCommandError Reply} (hx : x.2.1 = ev :: evs) :
    s.mutate p c x = { s with
      store := x.1
      owed := s.owed ++ (ev :: evs).map fun ev => (p, ev)
      locks := c.cmd.key :: s.locks }.goto p (some (.locked c)) := by
  rw [mutate, hx, if_neg (List.cons_ne_nil ev evs)]

/-- The section of `HSET`, at the start of the call or once more. -/
theorem Linked.hset (h : s.Linked hashBytes K D) {c : Call} {key : Key} {field : Field}
    {value : Bytes} (hc : c.cmd = .hset key field value)
    (hpc : s.pc p = none ∨ value.length ≤ uint16Max ∧ ∃ c', s.pc p = some (.retry c') ∧
      c'.cmd = c.cmd) (hmine : s.mine p = []) (hfree : key ∉ s.locks)
    (hcheck : c.cmd.check c.lim = .ok ()) (htext : c.cmd.IsText)
    (hkept : c.cmd.Kept c.now c.now' (K key)) :
    (s.mutate p c (s.store.hset hashBytes enough c.now key field value)).Inv hashBytes := by
  rw [hc] at hcheck htext hkept hpc
  have hfield : SharedHash.ValidField field :=
    ⟨(Command.field_length_le hcheck rfl).1, (Command.field_length_le hcheck rfl).2,
      htext field rfl⟩
  have hwrite : ∀ c' e, s.pc p ≠ some (.write c' e true) := by
    rintro c' e hw
    rcases hpc with hpc | ⟨-, c'', hpc, -⟩ <;> exact absurd (hpc.symm.trans hw) (by simp)
  have hretry : ∀ c', s.pc p = some (.retry c') → c'.cmd = .hset key field value := by
    rintro c' hr
    rcases hpc with hpc | ⟨-, c'', hpc, hc''⟩
    · exact absurd (hpc.symm.trans hr) (by simp)
    · rw [hpc, Option.some.injEq, Todo.retry.injEq] at hr
      exact hr ▸ hc''
  obtain ⟨S', ⟨c₀, r, hK, hfound, hne, hS', heq⟩ | ⟨hlen, m, x, version, r, hm, hS', heq⟩ |
    ⟨hlong, hfound, -⟩⟩ := SharedStore.hset_cases h.store hfield c.now key value
  · -- It is refused. If it was to be done over, its hash is gone, and its field with it.
    rw [heq, mutate, if_pos rfl]
    refine ⟨K, D, h.goto hS' hmine (fun k R hR => ?_) (h.locked.leave (by simp))⟩
    rcases hpc with hpc | ⟨hlen, -⟩
    · exact hR.goto (fun c' e hw => absurd hw (hwrite c' e))
        (fun c' hr => absurd (hpc.symm.trans hr) (by simp)) none
    by_cases hk : k = key
    · subst hk
      refine hR.imp (fun hR => (hR.shows_of_ne_hash fun c' hc' => ?_).nearly _)
        fun ⟨ho, hm, hR⟩ => ⟨ho, hm.goto (fun t ht ⟨c', e, heq, _⟩ => hwrite c' e (heq ▸ ht)) _, hR⟩
      rw [hK, Option.some.injEq] at hc'
      exact hc' ▸ hne hlen
    · exact hR.goto (fun c' e hw => absurd hw (hwrite c' e))
        (fun c' hr hkey => hk (by rw [← hkey, hretry c' hr]; rfl)) none
  · -- The field is set; the row of the key follows, if the other rows are those of the hash.
    rw [heq, mutate_of_events rfl, hc]
    have hfresh : K key ≠ some .fresh := by
      rintro hK
      rw [hK] at hm
      rcases hm with ⟨hfound, -⟩ | ⟨-, hK'⟩
      · exact absurd hfound (by simp [Cell.found, Cell.fresh, Cell.isExpired])
      · exact absurd hK' (by simp [Cell.fresh])
    have hothers : (∀ f ≠ field, (Cell.fieldsOf (K key)).lookup f = m.lookup f) ∧
        Cell.itemsOf (K key) = [] := by
      rcases hm with ⟨hfound, rfl⟩ | ⟨-, hK⟩
      · rw [Command.Kept, if_pos hlen] at hkept
        obtain ⟨hfields, hitems⟩ := hkept hfound
        exact ⟨fun f hf => by rw [Finmap.lookup_eq_none.2 (hfields f hf), Finmap.lookup_empty],
          hitems⟩
      · simp [hK, Cell.fieldsOf, Cell.itemsOf, View.fields, View.items]
    refine ⟨_, D, h.mutated hS' ?_ (.inl (((h.rows key).nearly hfresh).hset hothers.1 hothers.2
      (fun f hf hF => ?_) key value x version)) ?_ (fun c' e hw => absurd hw (hwrite c' e))
      (fun c' hr => by rw [hretry c' hr]; rfl) ?_⟩
    · intro ev hev
      rw [List.mem_pair] at hev
      rcases hev with rfl | rfl <;> rfl
    · refine hF.goto ?_ _
      rintro t ht ⟨c', value', rfl, hc'⟩
      rw [hretry c' ht, Command.hset.injEq] at hc'
      exact hf hc'.2.1.symm
    · rw [hmine, List.nil_append]
      simp only [Fits, HashFits, hc]
      exact ⟨hlen, hcheck, htext, .inr (.inl ⟨x, version, rfl⟩)⟩
    · have htake := (h.locked.update hfree (some ⟨.hash (m.insert field value), x⟩)).take (p := p)
        (c := c) (by rw [hc]; exact hfree) fun key' field' value' hc' => by
          rw [hc, Command.hset.injEq] at hc'
          obtain ⟨rfl, rfl, -⟩ := hc'
          exact ⟨_, x, Function.update_self _ _ _, Finmap.mem_insert.2 (.inl rfl)⟩
      rw [hc] at htake
      exact htake
  · -- A value too long for the table leaves an empty hash where there was nothing.
    rw [Command.Kept, if_neg (Nat.not_le.2 hlong)] at hkept
    exact absurd hfound hkept

/-- The section of `HDEL`. -/
theorem Linked.hdel (h : s.Linked hashBytes K D) {c : Call} {key : Key} {field : Field}
    (hc : c.cmd = .hdel key field) (hidle : s.pc p = none) (hfree : key ∉ s.locks)
    (hkept : c.cmd.Kept c.now c.now' (K key)) :
    (s.mutate p c (s.store.hdel hashBytes enough c.now key field)).Inv hashBytes := by
  have hmine := h.mine_of_idle hidle
  have hnone : ∀ t, s.pc p ≠ some t := fun t ht => absurd (hidle.symm.trans ht) (by simp)
  rw [hc] at hkept
  -- Either the field was there, and one event says that it is gone, or nothing has changed but
  -- an expired entry, which `hkept` rules out.
  obtain ⟨S', ⟨m, x, r, hK, -, hS', heq⟩ | ⟨hS', r, heq⟩⟩ :=
    SharedStore.hdel_cases h.store c.now key field
  · rw [heq, mutate_of_events rfl, hc]
    have hnear := (h.rows key).nearly (by rw [hK]; simp [Cell.fresh])
    rw [hK] at hnear
    refine ⟨_, D, h.mutated hS' ?_ (.inl ((hnear.hdel key field).mono fun f hF =>
      hF.goto (fun t ht => absurd ht (hnone t)) _)) ?_ (fun c' e hw => absurd hw (hnone _))
      (fun c' hr => absurd hr (hnone _)) ?_⟩
    · intro ev hev
      rw [List.mem_singleton.1 hev]
      rfl
    · rw [hmine, List.nil_append]
      simp only [Fits, HashFits, hc]
      exact .inr trivial
    · have htake := (h.locked.update hfree (some ⟨.hash (m.erase field), x⟩)).take (p := p)
        (c := c) (by rw [hc]; exact hfree) fun key' field' value' hc' => by
          rw [hc] at hc'
          exact absurd hc' (by simp)
      rw [hc] at htake
      exact htake
  · rw [show Cell.found c.now (K key) = K key from hkept, Function.update_eq_self] at hS'
    rw [heq, mutate, if_pos rfl]
    exact ⟨K, D, h.goto hS' hmine
      (fun k R hR => hR.goto (fun c e hw => absurd hw (hnone _))
        (fun c hr => absurd hr (hnone _)) _)
      (h.locked.leave (by simp))⟩

/-- The start of a call whose arguments have been checked. -/
theorem Linked.start (h : s.Linked hashBytes K D) {c : Call} (hidle : s.pc p = none)
    (hfree : c.cmd.key ∉ s.locks) (hcheck : c.cmd.check c.lim = .ok ()) (htext : c.cmd.IsText)
    (hbegins : c.cmd.Begins c.now c.now' (K c.cmd.key)) (hs' : s.begin hashBytes p c = some s') :
    s'.Inv hashBytes := by
  -- `SET`, `INCR` and `DECR` end their first section with an entry to write back.
  have scalar : ∀ {key f g}, c.cmd.key = key → s.attempt hashBytes p c = none →
      s.store.first hashBytes enough c.now c.cmd = some (s.store.updateFirst c.now key f) →
      (Cell.found c.now (K c.cmd.key) = none → Cell.Childless (K c.cmd.key)) → UpdateSim f g →
      (∀ isNew x x' r, g isNew x = .ok (x', r) → x'.value.type = .string ∨ x'.value.type = .int) →
      (∀ x err, g true x ≠ .error err) → s'.Inv hashBytes := by
    intro key f g hkey hattempt hfirst hchild hfg hty hnew
    obtain ⟨S', ⟨r, heq, hS'⟩ | ⟨e, isNew, r, heq, hec, hS'⟩⟩ :=
      updateFirst_scalar h.store hfg hty hnew c.now key
    all_goals
      rw [heq] at hfirst
      obtain ⟨S, ⟨r', hx, rfl⟩ | ⟨e', isNew', r', hx, rfl⟩⟩ := begin_cases hs' hattempt <;>
        cases hfirst.symm.trans hx
    · exact ⟨K, D, hS', h.replayed, h.rows, h.todo, h.locked, h.stale⟩
    · exact h.begun hidle hfree hec hchild (hkey ▸ hS')
  have hint : ∀ {delta} isNew x x' r, Cell.incrdecr delta isNew x = .ok (x', r) →
      x'.value.type = .string ∨ x'.value.type = .int := fun _ _ _ _ hg => by
    obtain ⟨i, hi⟩ := Cell.exists_int_of_incrdecr hg
    rw [hi]
    exact .inr rfl
  have hmine := h.mine_of_idle hidle
  have hbegin := hs'
  rw [Publishing.begin] at hbegin
  cases hc : c.cmd <;> rw [hc] at hbegin hbegins hfree <;>
    simp only [Publishing.attempt, hc, Option.some.injEq, reduceCtorEq] at hbegin
  case set key value =>
    refine scalar (congrArg Command.key hc) (by simp [attempt, hc]) (by rw [hc]; rfl)
      (by rw [hc]; exact hbegins) (Entry.updateSim_set value) (fun isNew x x' r hg => .inl ?_)
      (fun x err hg => by cases hg)
    obtain ⟨rfl, -⟩ := Prod.mk.inj (Except.ok.inj hg)
    rfl
  case incr key =>
    exact scalar (congrArg Command.key hc) (by simp [attempt, hc]) (by rw [hc]; rfl)
      (by rw [hc]; exact hbegins) (Entry.updateSim_incrdecr 1) hint (fun x err hg => by cases hg)
  case decr key =>
    exact scalar (congrArg Command.key hc) (by simp [attempt, hc]) (by rw [hc]; rfl)
      (by rw [hc]; exact hbegins) (Entry.updateSim_incrdecr (-1)) hint
      (fun x err hg => by cases hg)
  case hset key field value =>
    subst hbegin
    exact h.hset hc (.inl hidle) hmine hfree hcheck htext (by rw [hc]; exact hbegins)
  case hdel key field =>
    subst hbegin
    exact h.hdel hc hidle hfree (by rw [hc]; exact hbegins)

/-- The next step of a call. -/
theorem Linked.next (h : s.Linked hashBytes K D) {room : Bool} {now : ℤ} {t : Todo}
    (hpc : s.pc p = some t) (hallowed : s.Allowed hashBytes p room now t)
    (hs' : s.resume hashBytes p room now t = some s') : s'.Inv hashBytes := by
  have hfit := h.todo p
  rw [hpc] at hfit
  -- By what the backend has left to do. Only a writeback and a repeated `HSET` change the
  -- keyspace; a publish moves the first event owed to the ring.
  cases t with
  | write c e isNew =>
    rw [resume] at hs'
    split_ifs at hs' with hlock
    obtain rfl := Option.some.inj hs'
    obtain ⟨hchild, hlen⟩ := hallowed K h.store
    exact h.written hpc hlock hchild hlen
  | publish =>
    rw [resume] at hs'
    by_cases hroom : room = true
    · rw [if_pos hroom] at hs'
      exact h.publishes (hallowed hroom) (fun c e b hw => absurd (hpc.symm.trans hw) (by simp))
        (fun c hr => absurd (hpc.symm.trans hr) (by simp)) (h.locked.leave (by simp))
        (locks_publish s p ▸ hs')
    · rw [if_neg hroom] at hs'
      obtain rfl := Option.some.inj hs'
      exact ⟨K, D, h⟩
  | locked c =>
    rw [resume] at hs'
    by_cases hroom : room = true
    · rw [if_pos hroom] at hs'
      exact h.publishes (hallowed hroom) (fun c e b hw => absurd (hpc.symm.trans hw) (by simp))
        (fun c hr => absurd (hpc.symm.trans hr) (by simp)) (h.locked.release hpc (by simp)) hs'
    · rw [if_neg hroom] at hs'
      obtain rfl := Option.some.inj hs'
      exact h.full hpc
  | retry c =>
    rw [resume] at hs'
    split_ifs at hs' with hlock
    obtain ⟨hmine, hfit, key, field, value, hc⟩ := hfit
    rw [hmine, HashFits, hc] at hfit
    have hkept := hallowed K h.store
    -- The section of `HSET` is gone through once more, with a later reading of the clock.
    have hset := h.hset (c := { c with now := now }) hc (.inr ⟨hfit.1, c, hpc, rfl⟩) hmine
      (by rw [hc] at hlock; exact hlock) (hc ▸ hfit.2.1) (hc ▸ hfit.2.2.1)
      (by rw [hc] at hkept; exact hc ▸ hkept)
    rw [Publishing.attempt] at hs'
    split at hs'
    · rename_i hc'
      obtain ⟨rfl, rfl, rfl⟩ := Command.hset.inj (hc.symm.trans hc')
      exact Option.some.inj hs' ▸ hset
    · rename_i hc'
      exact absurd (hc.symm.trans hc') (by simp)
    · exact absurd hs' (by simp)
  | relock c =>
    rw [resume] at hs'
    split_ifs at hs' with hlock
    obtain rfl := Option.some.inj hs'
    exact ⟨K, D, h.goto h.store (show Fits D (s.mine p) (some (.locked c)) from hfit.1)
      (fun k R hR => hR.goto (fun c e hw => absurd (hpc.symm.trans hw) (by simp))
        (fun c hr => absurd (hpc.symm.trans hr) (by simp)) _)
      (h.locked.take hlock fun key field value hc => absurd hc (hfit.2 key field value))⟩

end Publishing

end PgRedis
