import PgRedis.Cell

/-!
# The keyspace of a backend as cells

Each command of a session does to what its key holds what `Cell.perform` says, gives its
reply, and leaves the other keys alone (`exec_shows`).
-/

namespace PgRedis

open Lib

/-- What the keys hold. -/
abbrev Cells := Key → Option Cell

namespace Session

/-- Every entry of the keyspace holds the cell of its key. -/
def Shows (s : Session) (K : Cells) : Prop := ∀ k, Option.Rel Entry.Shows (s.store.lookup k) (K k)

variable {s s' : Session} {K : Cells} {key : Key} {now now' : ℤ}

theorem shows_init : init.Shows fun _ => none := fun _ => .none

/-- An entry holds the cell of its key. -/
theorem Shows.eq_some (h : s.Shows K) {e : Entry} (hl : s.store.lookup key = some e) :
    ∃ c, K key = some c ∧ e.Shows c :=
  exists_of_rel_some (hl ▸ h key)

/-- The cell of a key is held by an entry. -/
theorem Shows.exists_entry (h : s.Shows K) {c : Cell} (hK : K key = some c) :
    ∃ e, s.store.lookup key = some e ∧ e.Shows c :=
  exists_of_rel_some_right (hK ▸ h key)

/-- The keyspace after a step that touches only the entry of `key`. -/
theorem Shows.update (h : s.Shows K) (s' : Session) {o : Option Cell}
    (hkey : Option.Rel Entry.Shows (s'.store.lookup key) o)
    (hne : ∀ k ≠ key, s'.store.lookup k = s.store.lookup k) :
    s'.Shows (Function.update K key o) := fun k => by
  by_cases hk : k = key
  · rw [hk, Function.update_self]
    exact hkey
  · rw [Function.update_of_ne hk, hne k hk]
    exact h k

/-- What an upsert finds. -/
theorem upserted_shows {o : Option Entry} {o' : Option Cell} (h : Option.Rel Entry.Shows o o')
    (now : ℤ) :
    (upserted now o).1.Shows (Cell.upserted now o').1 ∧
      (upserted now o).2 = (Cell.upserted now o').2 := by
  cases h with
  | none => exact ⟨⟨rfl, ⟨rfl, rfl⟩, rfl⟩, rfl⟩
  | some hec =>
    rw [upserted, Cell.upserted, hec.isExpired]
    split_ifs
    · exact ⟨⟨rfl, ⟨rfl, rfl⟩, rfl⟩, rfl⟩
    · exact ⟨hec, rfl⟩

theorem update_shows {f : Bool → Entry → Except EntryError (Entry × Reply)}
    {g : Bool → Cell → Except EntryError (Cell × Reply)} (h : s.Shows K) (hfg : UpdateSim f g) :
    (s.update now key f).2 = (Cell.update .session now key g (K key)).2 ∧
      (s.update now key f).1.Shows
        (Function.update K key (Cell.update .session now key g (K key)).1) := by
  obtain ⟨hec, hnew⟩ := upserted_shows (h key) now
  have hup : s.upsert now key = ((s.upsert now key).1, upserted now (s.store.lookup key)) :=
    Prod.ext rfl (upsert_snd now key s)
  rw [update, Cell.update, hup, ← hnew]
  simp only
  rcases hfg (upserted now (s.store.lookup key)).2 _ _ hec with ⟨err, hf, hg⟩ |
    ⟨e', c', r, hf, hg, hec'⟩
  · simp only [hf, hg]
    refine ⟨trivial, h.update _ ?_ fun k hk => lookup_upsert_ne now hk s⟩
    rw [lookup_upsert_self]
    exact .some hec
  · simp only [hf, hg]
    refine ⟨trivial, h.update ((s.upsert now key).1.write key e') ?_ fun k hk => ?_⟩
    · rw [lookup_write, if_pos rfl]
      exact .some ⟨hec'.type, hec'.value, hec'.expireAt⟩
    · rw [lookup_write, if_neg hk]
      exact lookup_upsert_ne now hk s

/-- What a lookup finds and leaves. -/
theorem lookup_shows (h : s.Shows K) (now : ℤ) (key : Key) :
    ((s.lookup now key).2 = none ∧ Cell.found now (K key) = none ∧
      (s.lookup now key).1.Shows (Function.update K key none)) ∨
    ∃ e c, s.lookup now key = (s, some e) ∧ s.store.lookup key = some e ∧
      K key = some c ∧ Cell.found now (K key) = some c ∧ e.Shows c := by
  rw [lookup]
  rcases rel_cases (h key) with ⟨hl, hK⟩ | ⟨e, c, hl, hK, hec⟩ <;> rw [hl, hK]
  · exact .inl ⟨rfl, rfl, h.update _ (by rw [hl]; exact .none) fun _ _ => rfl⟩
  · simp only [Cell.found, ← hec.isExpired]
    split_ifs
    · refine .inl ⟨rfl, rfl, h.update _ ?_ fun k hk => ?_⟩
      · rw [lookup_remove, if_pos rfl]
        exact .none
      · rw [lookup_remove, if_neg hk]
    · exact .inr ⟨e, c, rfl, rfl, rfl, rfl, hec⟩

theorem query_shows {missing : Reply} {f : Entry → Except EntryError (Option Entry × Reply)}
    {g : Cell → Except EntryError (Option Cell × Reply)} (h : s.Shows K) (hw : s.WellTyped)
    (hfg : QuerySim (fun e => e.content.isSome) f g) :
    (s.query now key missing f).2 = (Cell.query .session now key missing g (K key)).2 ∧
      (s.query now key missing f).1.Shows
        (Function.update K key (Cell.query .session now key missing g (K key)).1) := by
  rcases lookup_shows h now key with ⟨hnone, hfound, hs'⟩ | ⟨e, c, hl, he, hK, hfound, hec⟩
  · have hpair : s.lookup now key = ((s.lookup now key).1, none) := Prod.ext rfl hnone
    rw [query, Cell.query, hpair, hfound]
    exact ⟨rfl, hs'⟩
  · have hsame : s.Shows (Function.update K key (some c)) :=
      h.update _ (by rw [he]; exact .some hec) fun _ _ => rfl
    rw [query, Cell.query, hl, hfound]
    simp only
    rcases hfg e c (hw key e he) hec with ⟨err, hf, hg⟩ | ⟨r, hf, hg⟩ | ⟨e', c', r, hf, hg, hec'⟩
    · simp only [hf, hg]
      exact ⟨trivial, hsame⟩
    · simp only [hf, hg]
      exact ⟨trivial, hsame⟩
    · simp only [hf, hg]
      refine ⟨trivial, h.update (s.write key e') ?_ fun k hk => ?_⟩
      · rw [lookup_write, if_pos rfl]
        exact .some ⟨hec'.type, hec'.value, hec'.expireAt⟩
      · rw [lookup_write, if_neg hk]

theorem remove_shows (h : s.Shows K) : (s.remove key).2 = (K key).isSome ∧
    (s.remove key).1.Shows (Function.update K key none) := by
  refine ⟨?_, h.update _ (by rw [lookup_remove, if_pos rfl]; exact .none) fun k hk => by
    rw [lookup_remove, if_neg hk]⟩
  rw [remove]
  rcases rel_cases (h key) with ⟨hl, hK⟩ | ⟨e, c, hl, hK, -⟩ <;> rw [hl, hK] <;> rfl

theorem expire_shows {seconds : ℤ} (h : s.Shows K) :
    (s.expire now now' key seconds).2 = (Cell.expire .session now now' seconds (K key)).2 ∧
      (s.expire now now' key seconds).1.Shows
        (Function.update K key (Cell.expire .session now now' seconds (K key)).1) := by
  rcases lookup_shows h now key with ⟨hnone, hfound, hs'⟩ | ⟨e, c, hl, he, hK, hfound, hec⟩
  · have hpair : s.lookup now key = ((s.lookup now key).1, none) := Prod.ext rfl hnone
    rw [expire, query, Cell.expire, hpair, hfound]
    split_ifs <;> exact ⟨rfl, hs'⟩
  · rw [expire, query, Cell.expire, hl, hfound]
    simp only [Entry.expire]
    split_ifs with hpos hneg hneg
    · exact absurd hpos (Int.not_lt.2 hneg)
    · refine ⟨rfl, h.update (s.write key _) ?_ fun k hk => ?_⟩
      · rw [lookup_write, if_pos rfl]
        exact .some ⟨hec.type, hec.value, rfl⟩
      · rw [lookup_write, if_neg hk]
    · exact ⟨rfl, (remove_shows h).2⟩
    · exact absurd (Int.not_lt.1 hpos) hneg

theorem ttl_shows (h : s.Shows K) :
    (s.ttl now now' key).2 = (Cell.ttl now now' (K key)).2 ∧
      (s.ttl now now' key).1.Shows (Function.update K key (Cell.ttl now now' (K key)).1) := by
  rcases lookup_shows h now key with ⟨hnone, hfound, hs'⟩ | ⟨e, c, hl, he, hK, hfound, hec⟩
  · have hpair : s.lookup now key = ((s.lookup now key).1, none) := Prod.ext rfl hnone
    rw [ttl, Cell.ttl, hpair, hfound]
    exact ⟨rfl, hs'⟩
  · have hsame : s.Shows (Function.update K key (some c)) :=
      h.update _ (by rw [he]; exact .some hec) fun _ _ => rfl
    rw [ttl, Cell.ttl, hl, hfound]
    simp only [hec.expireAt]
    cases c.expireAt with
    | none => exact ⟨rfl, hsame⟩
    | some t =>
      simp only
      split_ifs
      · exact ⟨rfl, (remove_shows h).2⟩
      · exact ⟨rfl, hsame⟩

/-- A command whose arguments have been checked. -/
theorem perform_shows (h : s.Shows K) (hw : s.WellTyped) {lim : Limits} {c : Command}
    (hcheck : c.check lim = .ok ()) (now now' : ℤ) :
    (s.perform now now' c).2 = (Cell.perform .session now now' (K c.key) c).2 ∧
      (s.perform now now' c).1.Shows
        (Function.update K c.key (Cell.perform .session now now' (K c.key) c).1) := by
  have htime : ∀ o, Cell.lookupTime .session now now' o = now := fun o => by cases o <;> rfl
  -- By the three ways of a command: an update, a query, or one of its own.
  cases c with
  | set key value => exact update_shows h (Entry.updateSim_set value)
  | get key => exact query_shows h hw Entry.querySim_get
  | del key =>
    refine ⟨?_, (remove_shows h).2⟩
    rw [perform, Cell.perform, (remove_shows h).1]
    rfl
  | exists? key => exact query_shows h hw Entry.querySim_exists
  | expire key seconds => exact expire_shows h
  | ttl key => exact ttl_shows h
  | incr key => exact update_shows h (Entry.updateSim_incrdecr 1)
  | decr key => exact update_shows h (Entry.updateSim_incrdecr (-1))
  | hset key field value => exact update_shows h (Entry.updateSim_hset field value)
  | hget key field =>
    rw [perform, Cell.perform, htime]
    exact query_shows h hw (Entry.querySim_hget (Command.field_length_le hcheck rfl).2)
  | hdel key field =>
    exact query_shows h hw (Entry.querySim_hdel (Command.field_length_le hcheck rfl).2)
  | hexists key field =>
    rw [perform, Cell.perform, htime]
    exact query_shows h hw (Entry.querySim_hexists (Command.field_length_le hcheck rfl).2)
  | push side key value => exact update_shows h (Entry.updateSim_listPush side value)
  | pop side key => exact query_shows h hw (Entry.querySim_listPop side)
  | llen key => exact query_shows h hw Entry.querySim_llen

end Session

end PgRedis
