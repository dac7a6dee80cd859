import PgRedis.SharedStore.Backpressure

/-!
# Commands that are refused

The commands of shared mode change shared memory before they publish, and leave the change when
the ring stays full and an error is raised; `refused_iff` says for which of them it makes no
difference.
-/

namespace PgRedis

open Lib

namespace FullAction

/-- `pg_redis_dirty_ring_publish_blocking`, and `publish_event_under_lock`, which does the same
    between two locked sections: what is left of the results of the ring, `none` for the
    error. -/
def publish (action : FullAction) : List Bool → ℕ → Option (List Bool)
  | false :: ring, spin => match action.handle spin with
    | none => none
    | some spin => action.publish ring spin
  | true :: ring, _ => some ring
  | [], _ => some []

/-- Events published one after the other: those that are, and whether all are. -/
def publishAll (action : FullAction) : List DirtyEvent → List Bool → List DirtyEvent × Bool
  | [], _ => ([], true)
  | ev :: evs, ring => match action.publish ring 0 with
    | none => ([], false)
    | some ring => (ev :: (action.publishAll evs ring).1, (action.publishAll evs ring).2)

/-- The ring is full at the next `n` attempts. -/
def FullFor (n : ℕ) (ring : List Bool) : Prop := ring.take n = List.replicate n false

theorem fullFor_cons {n : ℕ} {b : Bool} {ring : List Bool} :
    FullFor (n + 1) (b :: ring) ↔ b = false ∧ FullFor n ring := by
  rw [FullFor, List.take_succ_cons, List.replicate_succ, List.cons.injEq, FullFor]

/-- Under `block` an event is refused at the hundredth attempt. -/
theorem publish_eq_none_iff {ring : List Bool} {spin : ℕ} (h : spin < maxSpin) :
    block.publish ring spin = none ↔ FullFor (maxSpin - spin) ring := by
  obtain ⟨n, hn⟩ : ∃ n, maxSpin - spin = n + 1 := ⟨maxSpin - spin - 1, by omega⟩
  induction ring generalizing spin n with
  | nil => simp [publish, FullFor, hn, List.replicate_succ]
  | cons b ring ih =>
    rw [hn, fullFor_cons]
    cases b with
    | true => simp [publish]
    | false =>
      rw [publish, handle, and_iff_right rfl]
      split_ifs with hlast
      · obtain rfl : n = 0 := by omega
        simp [FullFor]
      · have hrest : maxSpin - (spin + 1) = n - 1 + 1 := by omega
        simp only [ih (Nat.lt_of_not_le hlast) (n - 1) hrest, hrest]
        rw [show n - 1 + 1 = n by omega]

/-- Events that are refused: none has been published exactly if the first meets a full ring at
    all attempts. -/
theorem publishAll_refused {evs pub : List DirtyEvent} {ring : List Bool}
    (h : block.publishAll evs ring = (pub, false)) :
    evs ≠ [] ∧ (pub = [] ↔ FullFor maxSpin ring) := by
  cases evs with
  | nil => exact absurd h (by simp [publishAll])
  | cons ev evs =>
    refine ⟨by simp, ?_⟩
    rw [← Nat.sub_zero maxSpin, ← publish_eq_none_iff (by decide)]
    rw [publishAll] at h
    cases hp : block.publish ring 0 with
    | none =>
      rw [hp] at h
      exact iff_of_true (congrArg Prod.fst h).symm rfl
    | some ring' =>
      rw [hp] at h
      obtain ⟨rfl, -⟩ := Prod.mk.inj h
      exact iff_of_false (by simp) (by simp)

end FullAction

namespace SharedStore

variable (hashBytes : Bytes → UInt32) (ok : ℕ → StoreSite → Bool) (action : FullAction)

/-- The events of a command are published once it has changed the keyspace. -/
def publishReply (ring : List Bool) :
    SharedStore × List DirtyEvent × Except SharedCommandError Reply →
      SharedStore × List DirtyEvent × Except CallError Reply
  | (S, _, .error err) => (S, [], .error (.command err))
  | (S, evs, .ok r) => match action.publishAll evs ring with
    | (pub, true) => (S, pub, .ok r)
    | (pub, false) => (S, pub, .error .ringFull)

/-- A command under `async_table`, given the results of the ring and the readings of the clock:
    the keyspace, the events that stay in the ring, and the reply. -/
def execRing (lim : Limits) (clock : ℕ → ℤ) (ring : List Bool) (c : Command) (S : SharedStore) :
    SharedStore × List DirtyEvent × Except CallError Reply :=
  match c.check lim with
  | .error err => (S, [], .error (.command (.command err)))
  | .ok () => match c with
    | .hset key field value =>
      S.locked key (SharedEntry.setRetry hashBytes action key field value ring clock
        (fun i site => ok i (.set 0 site)) 0)
    | c => publishReply action ring (S.perform hashBytes (ok 0) (clock 0) (clock 1) c)

variable {hashBytes ok action} {lim : Limits} {clock : ℕ → ℤ} {ring : List Bool} {c : Command}
  {S : SharedStore}

theorem execRing_hset {key : Key} {field : Field} {value : Bytes}
    (h : (Command.hset key field value).check lim = .ok ()) :
    S.execRing hashBytes ok action lim clock ring (.hset key field value) =
      S.locked key (SharedEntry.setRetry hashBytes action key field value ring clock
        (fun i site => ok i (.set 0 site)) 0) := by
  unfold execRing
  rw [h]

theorem execRing_of_ne (h : c.check lim = .ok ())
    (hc : ∀ key field value, c ≠ .hset key field value) :
    S.execRing hashBytes ok action lim clock ring c =
      publishReply action ring (S.perform hashBytes (ok 0) (clock 0) (clock 1) c) := by
  unfold execRing
  rw [h]
  cases c <;> first | rfl | exact absurd rfl (hc _ _ _)

end SharedStore

namespace SharedEntry

variable {hashBytes : Bytes → UInt32} {key : Key} {field : Field} {value : Bytes}

/-- The loop of `HSET` when it is refused: all its rounds have been carried out, and no event has
    been published exactly if the first met a full ring at all attempts. -/
theorem setRetry_refused {ring : List Bool} {clock : ℕ → ℤ} {ok : ℕ → AllocSite → Bool}
    {spin : ℕ} {d : Dsa} {o : Option SharedEntry} {a : HashState} (hlt : spin < maxSpin)
    (h : Keeps hashBytes (a.opened (clock 0)) (SharedEntry.opened (clock 0) o))
    (hr : (setRetry hashBytes .block key field value ring clock ok spin d o).2.2.2 =
      .error .ringFull) :
    ((setRetry hashBytes .block key field value ring clock ok spin d o).2.2.1 = [] ↔
      FullAction.FullFor (maxSpin - spin) ring) ∧
    ∃ se, (setRetry hashBytes .block key field value ring clock ok spin d o).2.1 = some se ∧
      Keeps hashBytes (HashState.rounds field value (maxSpin - (spin + 1)) clock a).1 se := by
  -- On the attempts that are left after this one.
  induction hn : maxSpin - (spin + 1) generalizing ring clock ok spin d o a with
  | zero =>
    obtain ⟨d', se, hse, ⟨evs, -, heq⟩ | ⟨ring', pub, -, hpub, heq⟩⟩ :=
      setRetry_round h hr (by simp)
    · simp [heq] at hr
    have hlast : FullAction.block.handle spin = none := if_pos (Nat.le_of_sub_eq_zero hn)
    rw [heq, hlast, show maxSpin - spin = 0 + 1 by omega]
    refine ⟨?_, se, rfl, hse⟩
    rcases hpub with ⟨rfl, rfl⟩ | ⟨rfl, hne⟩
    · exact iff_of_true rfl (FullAction.fullFor_cons.2 ⟨rfl, rfl⟩)
    · exact iff_of_false hne (by simp [FullAction.fullFor_cons])
  | succ n ih =>
    obtain ⟨d', se, hse, ⟨evs, -, heq⟩ | ⟨ring', pub, -, hpub, heq⟩⟩ :=
      setRetry_round h hr (by simp)
    · simp [heq] at hr
    have hnext : FullAction.block.handle spin = some (spin + 1) := if_neg (by omega)
    rw [heq] at hr ⊢
    simp only [hnext] at hr ⊢
    obtain ⟨hnone, hkeeps⟩ := ih (by omega) (hse.opened _) hr (by omega)
    refine ⟨?_, hkeeps⟩
    rw [show maxSpin - spin = maxSpin - (spin + 1) + 1 by omega]
    rcases hpub with ⟨rfl, rfl⟩ | ⟨rfl, hne⟩
    · rw [FullAction.fullFor_cons, and_iff_right rfl]
      exact hnone
    · exact iff_of_false (by simp [hne]) (by simp [FullAction.fullFor_cons])

end SharedEntry

/-- What the key of a command that publishes holds is left as it is: `SET` stores the value that
    is there, `HSET` sets the field to the value it has, in a hash that does not expire
    meanwhile, and `EXPIRE` never changes anything. -/
def Command.Spares (clock : ℕ → ℤ) (o : Option Cell) : Command → Prop
  | .set _ value =>
    ∃ x, Cell.found (clock 0) o = some ⟨View.stored .shared (.str (some value)), x⟩
  | .expire _ _ => True
  | .hset _ field value => ∃ m x, o = some ⟨.hash m, x⟩ ∧ m.lookup field = some value ∧
      ∀ i < maxSpin, Cell.isExpired ⟨.hash m, x⟩ (clock i) = false
  | _ => False

/-! ### What the commands do to a cell -/

namespace Cell

variable {o : Option Cell} {c c' : Cell} {r : Reply} {now : ℤ}

/-- A cell that has the expiry of the one upserted, if it was there before. -/
theorem upserted_eq_of_expireAt (hx : c.expireAt = (upserted now (some c)).1.expireAt) :
    upserted now (some c) = (c, false) := by
  rcases upserted_cases now (some c) with ⟨hfound, hup⟩ | ⟨c', hc, -, hup⟩
  · rw [hup] at hx
    rw [found, isExpired, show c.expireAt = none from hx] at hfound
    exact absurd hfound (by simp)
  · rw [hup, Option.some.inj hc]

/-- `SET` leaves the cell if it holds the value. -/
theorem set_eq_iff (now : ℤ) (o : Option Cell) (value : Bytes) :
    some (Cell.stored .shared ⟨.str (some value), (upserted now o).1.expireAt⟩) = o ↔
      ∃ x, found now o = some ⟨View.stored .shared (.str (some value)), x⟩ := by
  constructor
  · intro ho
    have hup : upserted now o = _ := ho ▸ upserted_eq_of_expireAt (by rw [ho]; rfl)
    rcases upserted_cases now o with ⟨-, hnew⟩ | ⟨c, rfl, hfound, -⟩
    · exact absurd (congrArg Prod.snd (hup.symm.trans hnew)) (by simp)
    · rw [hfound, ← ho]
      exact ⟨_, rfl⟩
  · rintro ⟨x, hfound⟩
    rcases upserted_cases now o with ⟨hnone, -⟩ | ⟨c, rfl, hfound', hup⟩
    · exact absurd (hnone.symm.trans hfound) (by simp)
    · rw [hup, Option.some.inj (hfound'.symm.trans hfound)]
      rfl

/-- `INCR` and `DECR` change their cell. -/
theorem incrdecr_ne {delta : ℤ} (hdelta : delta = 1 ∨ delta = -1)
    (h : incrdecr delta (upserted now o).2 (upserted now o).1 = .ok (c', r)) :
    some (c'.stored .shared) ≠ o := by
  intro ho
  rw [incrdecr] at h
  cases hi : (upserted now o).1.counter (upserted now o).2 with
  | error err =>
    rw [hi] at h
    exact absurd h (by simp)
  | ok i =>
    rw [hi] at h
    obtain ⟨rfl, -⟩ := Prod.mk.inj (Except.ok.inj h)
    have hup : upserted now o = _ := ho ▸ upserted_eq_of_expireAt (by rw [ho]; rfl)
    rw [hup] at hi
    have hfix : Int.bmod (i + delta) (2 ^ 64) = i := Except.ok.inj hi
    have hmod : Int.bmod (i + delta) (2 ^ 64) % (2 ^ 64 : ℕ) = (i + delta) % (2 ^ 64 : ℕ) :=
      Int.bmod_emod
    rw [hfix] at hmod
    omega

/-- So do the pushes. -/
theorem listPush_ne {side : Side} {value : Bytes}
    (h : listPush side value (upserted now o).2 (upserted now o).1 = .ok (c', r)) :
    some (c'.stored .shared) ≠ o := by
  intro ho
  rw [listPush] at h
  split_ifs at h
  obtain ⟨rfl, -⟩ := Prod.mk.inj (Except.ok.inj h)
  have hup : upserted now o = _ := ho ▸ upserted_eq_of_expireAt (by rw [ho]; rfl)
  have hlist := congrArg (fun u => (listOrCreate u.2 u.1).length) hup
  simp [listOrCreate, Cell.stored, View.stored, ListValue.length_atEnd] at hlist

theorem length_of_popped {side : Side} {vs vs' : List Bytes}
    (h : (popped side vs).map Prod.snd = some vs') : vs.length = vs'.length + 1 := by
  obtain ⟨⟨v, _⟩, hpop, rfl⟩ := Option.map_eq_some_iff.1 h
  cases side with
  | left =>
    cases vs with
    | nil => exact absurd hpop (by simp [popped])
    | cons w ws =>
      obtain ⟨rfl, rfl⟩ := Prod.mk.inj (Option.some.inj hpop)
      rfl
  | right =>
    obtain ⟨w, hlast, heq⟩ := Option.map_eq_some_iff.1 hpop
    obtain ⟨rfl, rfl⟩ := Prod.mk.inj heq
    obtain ⟨ws, rfl⟩ := List.getLast?_eq_some_iff.1 hlast
    simp

/-- The pops. -/
theorem listPop_ne {side : Side} (h : listPop side c = .ok (some c', r)) :
    c'.stored .shared ≠ c := by
  intro hc
  rw [listPop, withList] at h
  split at h
  · rename_i vs hvs
    obtain ⟨hmap, -⟩ := Prod.mk.inj (Except.ok.inj h)
    obtain ⟨vs', hpop, rfl⟩ := Option.map_eq_some_iff.1 hmap
    rw [← hc] at hvs
    have hlen := congrArg List.length (View.list.inj hvs)
    rw [List.length_map, length_of_popped hpop] at hlen
    omega
  · exact absurd h (by simp)

/-- `HDEL` says whether it changes the cell. -/
theorem reply_of_hdel {field : Field} {o : Option Cell} (h : hdel field c = .ok (o, r)) :
    r = .bool o.isSome := by
  rw [hdel, withHash] at h
  split at h
  · obtain ⟨rfl, rfl⟩ := Prod.mk.inj (Except.ok.inj h)
    split_ifs with hmem <;> simp [hmem]
  · exact absurd h (by simp)

/-- And `HDEL`, if it says that it has deleted something. -/
theorem hdel_ne {field : Field} (h : hdel field c = .ok (some c', r)) :
    c'.stored .shared ≠ c := by
  intro hc
  rw [hdel, withHash] at h
  split at h
  · rename_i m hm
    obtain ⟨hmap, -⟩ := Prod.mk.inj (Except.ok.inj h)
    by_cases hmem : field ∈ m
    · simp only [if_pos hmem, Option.map_some] at hmap
      obtain rfl := Option.some.inj hmap
      rw [← hc] at hm
      have hsame : m.erase field = m := View.hash.inj hm
      rw [← hsame] at hmem
      exact absurd hmem (by simp)
    · simp [hmem] at hmap
  · exact absurd h (by simp)

end Cell

namespace SharedStore

variable {hashBytes : Bytes → UInt32} {S : SharedStore} {K : Cells} {key : Key} {field : Field}
  {value : Bytes} {clock : ℕ → ℤ}

/-- The rounds of an `HSET` that is refused leave what the key held. -/
theorem rounds_spare_iff {a : SharedEntry.HashState} (h : Opens K (clock 0) key a) {n : ℕ}
    (hn : n + 1 = maxSpin) :
    K key = some ⟨.hash (SharedEntry.HashState.rounds field value n clock a).1.map,
      (SharedEntry.HashState.rounds field value n clock a).1.expireAt⟩ ↔
    (Command.hset key field value).Spares clock (K key) := by
  have hle : ∀ i, i ≤ n ↔ i < maxSpin := fun i => by omega
  constructor
  · intro hK
    rcases h with ⟨hfound, rfl⟩ | ⟨hK', -⟩
    · -- A hash made by the rounds is there.
      rw [SharedEntry.HashState.rounds_of_lasting fun _ _ => rfl] at hK
      rw [hK] at hfound
      exact absurd hfound (by simp [Cell.found, Cell.isExpired, SharedEntry.HashState.fresh])
    · obtain ⟨hmap, hx⟩ : a.map = (SharedEntry.HashState.rounds field value n clock a).1.map ∧
          a.expireAt = (SharedEntry.HashState.rounds field value n clock a).1.expireAt := by
        simpa using hK'.symm.trans hK
      rcases a.lasting_or_expired clock n with hlast | ⟨j, hj, hbefore, hexp⟩
      · rw [SharedEntry.HashState.rounds_of_lasting hlast] at hmap
        refine ⟨a.map, a.expireAt, hK', ?_, fun i hi => hlast i ((hle i).2 hi)⟩
        rw [hmap, Finmap.lookup_insert]
      · rw [SharedEntry.HashState.rounds_of_expired hj hbefore hexp,
          SharedEntry.HashState.rounds_of_lasting fun _ _ => rfl] at hx
        rw [SharedEntry.HashState.isExpired, show a.expireAt = none from hx] at hexp
        exact absurd hexp (by simp)
  · rintro ⟨m, x, hK, hlook, hlast⟩
    have hfound : Cell.found (clock 0) (K key) = some ⟨.hash m, x⟩ := by
      rw [hK, Cell.found, if_neg (by rw [hlast 0 (by decide)]; simp)]
    rcases h with ⟨hnone, -⟩ | ⟨hK', -⟩
    · exact absurd (hnone.symm.trans hfound) (by simp)
    · obtain ⟨rfl, rfl⟩ : m = a.map ∧ x = a.expireAt := by simpa using hK.symm.trans hK'
      rw [SharedEntry.HashState.rounds_of_lasting fun i hi => hlast i ((hle i).1 hi),
        SharedHash.insert_eq_self hlook]
      exact hK

/-- `HSET` refused. -/
theorem hset_spares_iff (h : S.Shows hashBytes K) {ring : List Bool}
    {ok : ℕ → AllocSite → Bool}
    (hr : (SharedEntry.setRetry hashBytes .block key field value ring clock ok 0 S.dsa
      (S.entries.lookup key)).2.2.2 = .error .ringFull) :
    ((S.locked key (SharedEntry.setRetry hashBytes .block key field value ring clock ok
        0)).1.Shows hashBytes K ∧
      (SharedEntry.setRetry hashBytes .block key field value ring clock ok 0 S.dsa
        (S.entries.lookup key)).2.2.1 = []) ↔
    (Command.hset key field value).Spares clock (K key) ∧ FullAction.FullFor maxSpin ring := by
  obtain ⟨r', hr'⟩ := SharedEntry.setAtomic_of_setRetry hr (by simp)
  rcases h.keeps (clock 0) key with ⟨se, hop, ht⟩ | ⟨a, ha, hopens⟩
  · rw [SharedEntry.setAtomic_of_wrongType hop ht] at hr'
    exact absurd hr' (by simp [SharedEntry.notHash])
  have hopen : a.opened (clock 0) = a :=
    SharedEntry.HashState.opened_of_not_expired hopens.not_expired
  obtain ⟨hpub, se, hx, hse⟩ := SharedEntry.setRetry_refused (by decide) (hopen.symm ▸ ha) hr
  refine and_congr ?_ hpub
  -- A refused `HSET` has been through its section a hundred times.
  rw [← rounds_spare_iff hopens (show maxSpin - (0 + 1) + 1 = maxSpin by decide)]
  constructor
  · -- Both the entry left and the keyspace show the cell of the key.
    intro hS'
    obtain ⟨c, hK, hc⟩ := hS'.eq_some (by rw [lookup_locked, if_pos rfl, hx])
    rw [hK, hse.cell_eq hc]
  · intro hK
    obtain ⟨se', hse', hc⟩ := h.exists_entry hK
    obtain ⟨table, rfl, hm⟩ := hse
    obtain ⟨-, -, m, -, hmap, -, hvalid⟩ := hc.hash rfl
    have hback : (S.locked key (SharedEntry.setRetry hashBytes .block key field value ring clock
        ok 0)).1.Shows hashBytes (Function.update K key (K key)) := by
      refine h.locked ?_
      rw [hx, hK]
      exact .some ⟨⟨hm, View.hash.inj hmap ▸ hvalid⟩, rfl⟩
    rwa [Function.update_eq_self] at hback

/-- What is left of the cells, if those of one key may have changed. -/
theorem Shows.update_iff {o : Option Cell} (h : S.Shows hashBytes (Function.update K key o)) :
    S.Shows hashBytes K ↔ o = K key := by
  constructor
  · intro h'
    rw [← h.unique h', Function.update_self]
  · rintro rfl
    rwa [Function.update_eq_self] at h

/-- A command that upserts its key and publishes something. -/
theorem update_published (h : S.Shows hashBytes K) (ok : StoreSite → Bool) {now : ℤ}
    {f : Bool → Entry → Except EntryError (Entry × Reply)}
    {g : Bool → Cell → Except EntryError (Cell × Reply)} (hfg : UpdateSim f g)
    (hno : ∀ isNew c c' r, g isNew c = .ok (c', r) → c'.value.type ≠ .hash)
    (hev : (S.update hashBytes ok now key f).2.1 ≠ []) :
    ∃ c' r, g (Cell.upserted now (K key)).2 (Cell.upserted now (K key)).1 = .ok (c', r) ∧
      ((S.update hashBytes ok now key f).1.Shows hashBytes K ↔
        some (c'.stored .shared) = K key) := by
  rcases update_any h ok now key hfg hno with heq | ⟨S', err, heq⟩
  · obtain ⟨S', hS', ⟨err, hg, heq'⟩ | ⟨e', c', r, hg, -, heq'⟩⟩ :=
      update_shows enough_eq h now key hfg hno
    · rw [heq, heq'] at hev
      exact absurd rfl hev
    · rw [Cell.update, hg] at hS'
      rw [heq, heq']
      exact ⟨c', r, hg, hS'.update_iff⟩
  · rw [heq] at hev
    exact absurd rfl hev

/-- A command that looks its key up and publishes something. -/
theorem query_published (h : S.Shows hashBytes K) (ok : StoreSite → Bool) {now : ℤ}
    {missing : Reply} {f : Entry → Except EntryError (Option Entry × Reply)}
    {g : Cell → Except EntryError (Option Cell × Reply)} (hfg : QuerySim (fun _ => True) f g)
    (hno : ∀ c c' r, g c = .ok (some c', r) → c'.value.type ≠ .hash)
    (hev : (S.query hashBytes ok now key missing f).2.1 ≠ []) :
    ∃ c c' r, K key = some c ∧ g c = .ok (some c', r) ∧
      ((S.query hashBytes ok now key missing f).1.Shows hashBytes K ↔ c'.stored .shared = c) := by
  rcases query_any h ok now key missing hfg hno with heq | ⟨S', err, heq⟩
  · obtain ⟨S', evs, hS', heq', hevs⟩ := query_shows enough_eq h now key missing hfg hno
    rw [heq, heq'] at hev
    obtain ⟨c, c', r, hfound, hg⟩ : ∃ c c' r, Cell.found now (K key) = some c ∧
        g c = .ok (some c', r) := by
      by_contra hnot
      exact hev (hevs fun c c' r hfound hg => hnot ⟨c, c', r, hfound, hg⟩)
    have hK : K key = some c := (Cell.found_eq_some hfound).1
    rw [Cell.query, hfound] at hS'
    simp only [hg] at hS'
    rw [heq, heq']
    exact ⟨c, c', r, hK, hg, by rw [hS'.update_iff, hK, Option.some.injEq]⟩
  · rw [heq] at hev
    exact absurd rfl hev

/-- `HGET` and `HEXISTS` publish nothing. -/
theorem queryField_silent {α : Type} {ok : StoreSite → Bool} {now now' : ℤ}
    (read : SharedHash → Except SharedHashError (Option α)) (reply : Option α → Reply)
    (slow : Hash → Reply) : (S.queryField hashBytes ok now now' key read reply slow).2.1 = [] := by
  rw [queryField]
  split
  · rfl
  · rfl
  · rfl
  · rfl
  · exact (query_readHash now' key (reply none) slow).2

/-- An `HDEL` that publishes something. -/
theorem hdel_published (h : S.Shows hashBytes K) (ok : StoreSite → Bool) {now : ℤ}
    (hev : (S.hdel hashBytes ok now key field).2.1 ≠ []) :
    ¬(S.hdel hashBytes ok now key field).1.Shows hashBytes K := by
  obtain ⟨S', hS', heq⟩ := hdel_shows h ok now key field
  rw [heq] at hev ⊢
  rw [hS'.update_iff]
  rw [Cell.query] at hev ⊢
  cases hfound : Cell.found now (K key) with
  | none =>
    rw [hfound] at hev
    exact absurd rfl hev
  | some c =>
    rw [hfound] at hev
    rw [(Cell.found_eq_some hfound).1]
    simp only at hev ⊢
    rcases hg : Cell.hdel field c with err | ⟨_ | c', r⟩
    · rw [hg] at hev
      exact absurd rfl hev
    · -- The field was not there.
      rw [hg] at hev
      obtain rfl : r = .bool false := Cell.reply_of_hdel hg
      exact absurd rfl hev
    · exact fun heq => Cell.hdel_ne hg (Option.some.inj heq)

/-- A command other than `HSET` that publishes something. -/
theorem perform_spares_iff (h : S.Shows hashBytes K) {ok : StoreSite → Bool} {now' : ℤ}
    {c : Command} (hc : ∀ key field value, c ≠ .hset key field value)
    (hev : (S.perform hashBytes ok (clock 0) now' c).2.1 ≠ []) :
    (S.perform hashBytes ok (clock 0) now' c).1.Shows hashBytes K ↔
      c.Spares clock (K c.key) := by
  -- A writer spares its key if it writes what is there: `SET` may, the counters and lists never
  -- do. The other commands publish nothing, or what leaves the value alone.
  cases c with
  | set key value =>
    obtain ⟨c', r, hg, hiff⟩ := update_published h ok (Entry.updateSim_set value)
      (fun _ _ _ _ h => Cell.type_of_set h) hev
    obtain ⟨rfl, -⟩ := Prod.mk.inj (Except.ok.inj hg)
    exact hiff.trans (Cell.set_eq_iff (clock 0) (K key) value)
  | incr key =>
    obtain ⟨c', r, hg, hiff⟩ := update_published h ok (Entry.updateSim_incrdecr 1)
      (fun _ _ _ _ h => Cell.type_of_incrdecr h) hev
    exact hiff.trans (iff_false_intro (Cell.incrdecr_ne (.inl rfl) hg))
  | decr key =>
    obtain ⟨c', r, hg, hiff⟩ := update_published h ok (Entry.updateSim_incrdecr (-1))
      (fun _ _ _ _ h => Cell.type_of_incrdecr h) hev
    exact hiff.trans (iff_false_intro (Cell.incrdecr_ne (.inr rfl) hg))
  | push side key value =>
    obtain ⟨c', r, hg, hiff⟩ := update_published h ok (Entry.updateSim_listPush side value)
      (fun _ _ _ _ h => Cell.type_of_listPush h) hev
    exact hiff.trans (iff_false_intro (Cell.listPush_ne hg))
  | pop side key =>
    obtain ⟨c, c', r, -, hg, hiff⟩ := query_published h ok (Entry.querySim_listPop side)
      (fun _ _ _ h => Cell.type_of_withList h) hev
    exact hiff.trans (iff_false_intro (Cell.listPop_ne hg))
  | hdel key field => exact iff_of_false (hdel_published h ok hev) id
  | expire key seconds => exact iff_of_true (expire_published h hev) trivial
  | hset key field value => exact absurd rfl (hc key field value)
  | get key =>
    obtain ⟨c, c', r, -, hg, -⟩ := query_published h ok Entry.querySim_get
      (fun _ _ _ h => absurd h (Cell.get_ne_some _ _ _)) hev
    exact absurd hg (Cell.get_ne_some _ _ _)
  | exists? key =>
    obtain ⟨c, c', r, -, hg, -⟩ := query_published h ok Entry.querySim_exists
      (fun _ _ _ h => absurd (congrArg Prod.fst (Except.ok.inj h)) (by simp)) hev
    exact absurd (congrArg Prod.fst (Except.ok.inj hg)) (by simp)
  | llen key =>
    obtain ⟨c, c', r, -, hg, -⟩ := query_published h ok Entry.querySim_llen
      (fun _ _ _ h => Cell.type_of_withList h) hev
    exact absurd hg (Cell.withList_ne_some _ _ _ _)
  | del key => exact absurd rfl hev
  | ttl key =>
    obtain ⟨S', -, heq⟩ := ttl_shows h (clock 0) now' key
    rw [perform, heq] at hev
    exact absurd rfl hev
  | hget key field => exact absurd (queryField_silent _ _ _) hev
  | hexists key field => exact absurd (queryField_silent _ _ _) hev

/-- For every keyspace with cells, every command, whatever memory there is, all readings of the
    clock and every pattern of full results of the ring: under `block`, if the command is refused
    because the ring is full, the keyspace shows what it did and none of the events stays in the
    ring, exactly if the command leaves what its key held and its first event met a full ring at
    all attempts. -/
theorem refused_iff (h : S.Shows hashBytes K) {ok : ℕ → StoreSite → Bool} {lim : Limits}
    {ring : List Bool} {c : Command}
    (hr : (S.execRing hashBytes ok .block lim clock ring c).2.2 = .error .ringFull) :
    ((S.execRing hashBytes ok .block lim clock ring c).1.Shows hashBytes K ∧
      (S.execRing hashBytes ok .block lim clock ring c).2.1 = []) ↔
    c.Spares clock (K c.key) ∧ FullAction.FullFor maxSpin ring := by
  cases hcheck : c.check lim with
  | error err =>
    unfold execRing at hr
    rw [hcheck] at hr
    exact absurd hr (by simp)
  | ok u =>
    -- `HSET` goes through its section again at each attempt; the others go on publishing what
    -- they did.
    by_cases hc : ∃ key field value, c = .hset key field value
    · obtain ⟨key, field, value, rfl⟩ := hc
      rw [execRing_hset hcheck] at hr ⊢
      rw [locked_snd] at hr ⊢
      exact hset_spares_iff h hr
    · have hne : ∀ key field value, c ≠ .hset key field value := fun key field value heq =>
        hc ⟨key, field, value, heq⟩
      rw [execRing_of_ne hcheck hne] at hr ⊢
      obtain ⟨S', evs, reply, hx⟩ : ∃ S' evs reply,
        S.perform hashBytes (ok 0) (clock 0) (clock 1) c = (S', evs, reply) := ⟨_, _, _, rfl⟩
      have hspares : (S.perform hashBytes (ok 0) (clock 0) (clock 1) c).2.1 ≠ [] → _ :=
        perform_spares_iff h hne
      rw [hx] at hr hspares ⊢
      rcases reply with err | r
      · exact absurd hr (by simp [publishReply])
      · simp only [publishReply] at hr ⊢
        obtain ⟨pub, _ | _, hpub⟩ : ∃ pub b, FullAction.block.publishAll evs ring = (pub, b) :=
          ⟨_, _, rfl⟩
        · obtain ⟨hevs, hfull⟩ := FullAction.publishAll_refused hpub
          rw [hpub]
          exact and_congr (hspares hevs) hfull
        · rw [hpub] at hr
          exact absurd hr (by simp)

/-- A field is set, and set to its value again while the ring is full. -/
theorem refused_spares_field :
    let S := ((⟨⟨0, []⟩, ∅⟩ : SharedStore).hset (fun _ => 7) enough 0 [107] [102] [118]).1
    let x := S.execRing (fun _ => 7) (fun _ => enough) .block ⟨1024, 0⟩ (fun _ => 0)
      (List.replicate 100 false) (.hset [107] [102] [118])
    ∃ K, S.Shows (fun _ => 7) K ∧ x.2.2 = .error .ringFull ∧
      x.1.Shows (fun _ => 7) K ∧ x.2.1 = [] := by
  intro S x
  have hS : S.Shows (fun _ => 7) _ := hset_first_shows (shows_init ⟨0, []⟩) rfl
    ⟨by decide, by decide, by decide⟩ (by decide) 0
  have hreply : x.2.2 = .error .ringFull := by decide +kernel
  refine ⟨_, hS, hreply, (refused_iff hS hreply).2 ⟨?_, rfl⟩⟩
  exact ⟨Finmap.insert [102] [118] ∅, none, Function.update_self _ _ _, Finmap.lookup_insert _,
    fun _ _ => rfl⟩

/-- `INCR` of a missing key while the ring is full: it is refused, and the key is there. -/
theorem refused_incr_counts : ¬∀ (hashBytes : Bytes → UInt32) (S : SharedStore) (K : Cells)
    (ok : ℕ → StoreSite → Bool) (lim : Limits) (clock : ℕ → ℤ) (ring : List Bool) (c : Command),
    S.Shows hashBytes K →
    (S.execRing hashBytes ok .block lim clock ring c).2.2 = .error .ringFull →
    (S.execRing hashBytes ok .block lim clock ring c).1.Shows hashBytes K ∧
      (S.execRing hashBytes ok .block lim clock ring c).2.1 = [] := by
  intro hall
  obtain ⟨hS, -⟩ := hall (fun _ => 7) ⟨⟨0, []⟩, ∅⟩ (fun _ => none) (fun _ => enough) ⟨1024, 0⟩
    (fun _ => 0) (List.replicate 100 false) (.incr [107]) (shows_init _) (by decide +kernel)
  have hthere : (((⟨⟨0, []⟩, ∅⟩ : SharedStore).execRing (fun _ => 7) (fun _ => enough) .block
      ⟨1024, 0⟩ (fun _ => 0) (List.replicate 100 false) (.incr [107])).1.entries.lookup
        [107]).isSome = true := by decide +kernel
  obtain ⟨se, hse⟩ := Option.isSome_iff_exists.1 hthere
  obtain ⟨c, hnone, -⟩ := hS.eq_some hse
  exact absurd hnone (by simp)

end SharedStore

end PgRedis
