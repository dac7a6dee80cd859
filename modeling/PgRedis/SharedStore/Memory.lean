import PgRedis.SharedStore

/-!
# What the field table owns

The allocator keeps the chunks that are allocated, each once (`Dsa.Has`). A table owns its own
chunk and, for every occupied bucket, that of the field and, unless the value is empty, that of
the value. Every call, whichever of its allocations fails, leaves the table the owner of all
that it has allocated and of nothing else (`SharedHash.Owns`), so that
`pg_redis_shared_hash_free` gives all of it back (`hashOps_owned`).
-/

namespace PgRedis

open Lib Lib.Probe

/-! ## The allocator -/

namespace Dsa

/-- The allocated chunks are those of the list, each once, and none is to be handed out. -/
structure Has (d : Dsa) (chunks : List ℕ) : Prop where
  live : d.live.Perm chunks
  nodup : d.live.Nodup
  lt : ∀ p ∈ d.live, p < d.next

variable {d : Dsa} {chunks chunks' : List ℕ} {p : ℕ}

theorem Has.perm (h : d.Has chunks) (hp : chunks.Perm chunks') : d.Has chunks' :=
  ⟨h.live.trans hp, h.nodup, h.lt⟩

theorem Has.palloc (h : d.Has chunks) : d.palloc.2.Has (d.palloc.1 :: chunks) where
  live := h.live.cons _
  nodup := List.nodup_cons.2 ⟨fun hmem => absurd (h.lt _ hmem) (Nat.lt_irrefl _), h.nodup⟩
  lt p hp := by
    rcases List.mem_cons.1 hp with rfl | hp
    · exact Nat.lt_succ_self _
    · exact Nat.lt_succ_of_lt (h.lt p hp)

theorem Has.pfree (h : d.Has (p :: chunks)) : (d.pfree (some p)).Has chunks where
  live := by
    have herase := h.live.erase p
    rwa [List.erase_cons_head] at herase
  nodup := h.nodup.erase p
  lt q hq := h.lt q (List.mem_of_mem_erase hq)

/-- A pointer that may be invalid is freed. -/
theorem Has.pfree_toList {o : Option ℕ} (h : d.Has (o.toList ++ chunks)) :
    (d.pfree o).Has chunks := by
  cases o with
  | none => exact h
  | some p => exact h.pfree

/-- Chunks freed one after the other. -/
def pfreeAll (d : Dsa) (ps : List ℕ) : Dsa := ps.foldl (fun d p => d.pfree (some p)) d

theorem Has.pfreeAll {ps : List ℕ} (h : d.Has (ps ++ chunks)) : (d.pfreeAll ps).Has chunks := by
  induction ps generalizing d with
  | nil => exact h
  | cons p ps ih => exact ih h.pfree

theorem pfreeAll_append (d : Dsa) (ps qs : List ℕ) :
    d.pfreeAll (ps ++ qs) = (d.pfreeAll ps).pfreeAll qs :=
  List.foldl_append

theorem pfreeAll_toList (d : Dsa) (o : Option ℕ) : d.pfreeAll o.toList = d.pfree o := by
  cases o <;> rfl

/-- A chunk that has been freed. It is never handed out again. -/
structure Gone (p : ℕ) (d : Dsa) : Prop where
  freed : p ∉ d.live
  lt : p < d.next

theorem Gone.palloc (h : d.Gone p) : d.palloc.2.Gone p where
  freed hmem := (List.mem_cons.1 hmem).elim (fun heq => absurd h.lt (by simp [heq])) h.freed
  lt := Nat.lt_succ_of_lt h.lt

theorem Gone.pfree (h : d.Gone p) (o : Option ℕ) : (d.pfree o).Gone p := by
  cases o with
  | none => exact h
  | some q => exact ⟨fun hmem => h.freed (List.mem_of_mem_erase hmem), h.lt⟩

theorem Has.gone (h : d.Has (p :: chunks)) : (d.pfree (some p)).Gone p where
  freed hmem := ((h.nodup.mem_erase_iff).1 hmem).1 rfl
  lt := h.lt p (h.live.mem_iff.2 List.mem_cons_self)

end Dsa

theorem SharedHash.allocValue_gone {d : Dsa} {p : ℕ} (h : d.Gone p) (value : Bytes) :
    (allocValue value d).2.Gone p := by
  rw [allocValue]
  split_ifs
  · exact h.palloc
  · exact h

theorem SharedHash.allocValue_has {d : Dsa} {chunks : List ℕ} (h : d.Has chunks) (value : Bytes) :
    (allocValue value d).2.Has ((allocValue value d).1.toList ++ chunks) := by
  rw [allocValue]
  split_ifs
  · exact h.palloc
  · exact h

theorem SharedHash.isSome_allocValue (d : Dsa) (value : Bytes) :
    (allocValue value d).1.isSome = true ↔ value ≠ [] := by
  rw [allocValue]
  split_ifs with hlen
  · exact iff_of_true rfl (List.length_pos_iff.1 hlen)
  · exact iff_of_false (by simp) fun hne => hlen (List.length_pos_iff.2 hne)

/-! ## The chunks of a table -/

/-- The chunks of an occupied bucket. -/
def Owned.chunks (o : Owned) : List ℕ := o.fieldDsa :: o.valueDsa.toList

/-- The chunks of the occupied buckets. -/
def bucketChunks (es : List (Field × Owned)) : List ℕ := es.flatMap fun e => e.2.chunks

/-- The chunk of a table and those of its buckets. -/
def tableChunks : Option SharedTable → List ℕ
  | none => []
  | some t => t.dsa :: bucketChunks t.table.entries

theorem bucketChunks_perm {es es' : List (Field × Owned)} (h : es.Perm es') :
    (bucketChunks es).Perm (bucketChunks es') :=
  h.flatMap_right _

/-- A bucket has a chunk for its value unless this is empty. -/
def ValueChunks (es : List (Field × Owned)) : Prop :=
  ∀ e ∈ es, e.2.valueDsa.isSome = true ↔ e.2.value ≠ []

theorem ValueChunks.perm {es es' : List (Field × Owned)} (h : ValueChunks es) (hp : es'.Perm es) :
    ValueChunks es' := fun e he => h e (hp.mem_iff.1 he)

namespace SharedHash

/-- The allocated chunks are those of the table and `others`, each once. -/
structure Owns (s : SharedHash) (others : List ℕ) : Prop where
  has : s.dsa.Has (tableChunks s.table ++ others)
  values : ∀ t, s.table = some t → ValueChunks t.table.entries

variable {hashBytes : Bytes → UInt32} {s : SharedHash} {t : SharedTable} {others : List ℕ}
  {m : Finmap fun _ : Field => Bytes} {field : Field} {d : Dsa}

/-- The table is replaced by one with the same buckets elsewhere. -/
theorem rehashTable_owns (h : d.Has (tableChunks (some t) ++ others))
    (hv : ValueChunks t.table.entries) {ok : Bool} {n : ℕ} {t' : SharedTable} {d' : Dsa}
    (hre : rehashTable hashBytes ok t n d = .ok (some (t', d')))
    (hperm : t'.table.entries.Perm t.table.entries) : Owns ⟨d', some t'⟩ others := by
  rw [rehashTable] at hre
  split_ifs at hre
  swap
  · exact absurd hre (by simp)
  split at hre
  · exact absurd hre (by simp)
  · obtain ⟨rfl, rfl⟩ := Prod.mk.inj (Option.some.inj (Except.ok.inj hre))
    refine ⟨?_, fun t' ht' => Option.some.inj ht' ▸ hv.perm hperm⟩
    have hswap : (d.palloc.1 :: (tableChunks (some t) ++ others)).Perm
        (t.dsa :: d.palloc.1 :: (bucketChunks t.table.entries ++ others)) := List.Perm.swap _ _ _
    refine ((h.palloc.perm hswap).pfree).perm ?_
    exact ((bucketChunks_perm hperm).symm.append_right others).cons _

theorem ensureTable_owns (h : Owns s others) (ok : AllocSite → Bool) :
    Owns (ensureTable ok s).1 others := by
  rw [ensureTable]
  cases hs : s.table with
  | some t => exact h
  | none =>
    simp only
    split_ifs
    · have hhas := h.has
      rw [hs] at hhas
      refine ⟨?_, fun t ht => ?_⟩
      · simp only [tableChunks, entries_blank]
        exact hhas.palloc
      · obtain rfl := Option.some.inj ht
        simp only [ValueChunks, entries_blank]
        exact fun e he => absurd he List.not_mem_nil
    · exact h

theorem growIfNeeded_owns (h : Owns s others) (hs : s.table = some t)
    (hinv : TableInv hashBytes t.table) (ok : AllocSite → Bool) :
    Owns (growIfNeeded hashBytes ok t s).1 others := by
  have hhas := h.has
  rw [hs] at hhas
  rw [growIfNeeded]
  split_ifs
  · cases hok : ok .grow with
    | false => exact h
    | true =>
      obtain ⟨e, he⟩ := hinv.pow
      have hmin := hinv.min
      have hload := hinv.load
      obtain ⟨t', d', hre, -, hperm, -, -⟩ := rehashTable_spec hinv
        (n := t.table.size * 2) ⟨e + 1, by rw [he, Nat.pow_succ]⟩ (by omega) (by omega) s.dsa
      rw [hre]
      exact rehashTable_owns hhas (h.values t hs) hre hperm
  · exact h

theorem shrinkIfNeeded_owns (h : Owns s others) (hs : s.table = some t)
    (hinv : TableInv hashBytes t.table) (ok : AllocSite → Bool) :
    Owns (shrinkIfNeeded hashBytes ok t s).1 others := by
  have hhas := h.has
  rw [hs] at hhas
  rw [shrinkIfNeeded]
  split_ifs with hshrink
  · cases hok : ok .shrink with
    | false => exact h
    | true =>
      simp only [shouldShrink, Bool.and_eq_true, decide_eq_true_eq] at hshrink
      obtain ⟨e, hhalf, hmin⟩ := exists_half hinv.pow hshrink.1
      obtain ⟨t', d', hre, -, hperm, -, -⟩ := rehashTable_spec hinv
        (n := t.table.size / 2) ⟨e, hhalf⟩ (hhalf ▸ hmin) (by omega) s.dsa
      rw [hre]
      exact rehashTable_owns hhas (h.values t hs) hre hperm
  · exact h

/-- The value of a bucket is replaced: its new chunk is allocated before the old one is
    freed. -/
theorem overwrite_owns (h : Owns s others) (hs : s.table = some t) {i : ℕ} {o : Owned}
    (hi : t.table.cells[i]? = some (.full field o)) (ok : AllocSite → Bool) (value : Bytes) :
    Owns (overwrite ok i field o value t s).1 others := by
  rw [overwrite]
  split_ifs
  · exact h
  have hhas := h.has
  rw [hs] at hhas
  set chunk := allocValue value s.dsa with hchunk
  have hrep := entries_replace ⟨o.fieldDsa, chunk.1, value⟩ hi
  have hswap := (hrep.trans ((entries_bury hi).symm.cons _)).trans (List.Perm.swap _ _ _)
  have hentries := hswap.cons_inv
  constructor
  · -- The chunks of the table, with the old chunk of the value in front; then the new one comes
    -- in, and the old one goes.
    have hold : (tableChunks (some t) ++ others).Perm (o.valueDsa.toList ++ (t.dsa ::
        (o.fieldDsa :: bucketChunks (t.table.bury i).entries ++ others))) := by
      have hb := (bucketChunks_perm (entries_bury hi)).symm.append_right others
      refine (hb.cons t.dsa).trans ?_
      simp only [bucketChunks, List.flatMap_cons, Owned.chunks, List.cons_append, List.append_assoc]
      exact List.perm_append_comm_assoc [t.dsa, o.fieldDsa] _ _
    have hnew := allocValue_has (hhas.perm hold) value
    have hfree := (hnew.perm (List.perm_append_comm_assoc _ _ _)).pfree_toList
    refine hfree.perm ?_
    have hb := (bucketChunks_perm hentries).symm.append_right others
    refine List.Perm.trans ?_ (hb.cons t.dsa)
    simp only [bucketChunks, List.flatMap_cons, Owned.chunks, List.cons_append, List.append_assoc]
    exact List.perm_append_comm_assoc chunk.1.toList [t.dsa, o.fieldDsa] _
  · intro t' ht'
    obtain rfl := Option.some.inj ht'
    refine ValueChunks.perm ?_ hentries
    refine List.forall_mem_cons.2 ⟨isSome_allocValue s.dsa value, fun e he => ?_⟩
    exact h.values t hs e ((entries_bury hi).mem_iff.1 (List.mem_cons_of_mem _ he))

/-- A field is inserted: its chunk is freed again if there is none for its value. -/
theorem insertAt_owns (h : Owns s others) (hs : s.table = some t) {i : ℕ}
    (hv : Vacant (geometry hashBytes) t.table field i) (ok : AllocSite → Bool) (value : Bytes) :
    Owns (insertAt ok i field value t s).1 others := by
  rw [insertAt]
  split_ifs
  · exact h
  · exact ⟨h.has.palloc.pfree, h.values⟩
  have hhas := h.has
  rw [hs] at hhas
  have hentries := entries_fill
    (⟨s.dsa.palloc.1, (allocValue value s.dsa.palloc.2).1, value⟩ : Owned) hv
  constructor
  · refine (allocValue_has hhas.palloc value).perm ?_
    have hb := (bucketChunks_perm hentries).symm.append_right others
    refine List.Perm.trans ?_ (hb.cons t.dsa)
    simp only [bucketChunks, List.flatMap_cons, Owned.chunks, List.cons_append, List.append_assoc,
      tableChunks]
    refine (List.perm_append_comm_assoc _ [s.dsa.palloc.1, t.dsa] _).trans ?_
    refine (List.Perm.swap _ _ _).trans (List.Perm.cons _ (List.Perm.cons _ ?_))
    exact List.Perm.refl _
  · intro t' ht'
    obtain rfl := Option.some.inj ht'
    refine ValueChunks.perm ?_ hentries
    exact List.forall_mem_cons.2 ⟨isSome_allocValue _ value, h.values t hs⟩

/-! ## Calls -/

theorem set_owns (h : Owns s others) (hm : Holds hashBytes s m) (ok : AllocSite → Bool)
    (field : Field) (value : Bytes) : Owns (set hashBytes ok field value s).1 others := by
  rw [set]
  split_ifs
  · exact h
  have h₁ := ensureTable_owns h ok
  rcases ensureTable_spec hm ok with ⟨s₁, t₁, heq, hs₁, hinv₁, hm₁⟩ | ⟨heq, -⟩ <;>
    rw [heq] at h₁ ⊢
  swap
  · exact h₁
  have h₂ := growIfNeeded_owns h₁ hs₁ hinv₁ ok
  rcases growIfNeeded_spec hs₁ hinv₁ hm₁ ok with ⟨s₂, t₂, heq, hs₂, hinv₂, hm₂, -⟩ | ⟨heq, -⟩ <;>
    simp only [heq] at h₂ ⊢
  swap
  · exact h₂
  rcases find_spec hinv₂ hm₂ field with ⟨i, o, hfind, hi, -⟩ | ⟨i, hfind, -, -, hv⟩
  · simp only [hfind, hi, Option.bind_some, item?_full]
    exact overwrite_owns h₂ hs₂ hi ok value
  · simp only [hfind]
    exact insertAt_owns h₂ hs₂ hv ok value

/-- The table is replaced by a larger one in the course of a set. -/
def grows (ok : AllocSite → Bool) (value : Bytes) (s : SharedHash) : Bool :=
  value.length ≤ uint16Max && match s.table with
    | none => false
    | some t => shouldGrow t.table.occupied t.table.tombs t.table.size && ok .grow

theorem insertAt_pointer (hs : s.table = some t) (ok : AllocSite → Bool) (i : ℕ) (field : Field)
    (value : Bytes) : (∃ t', (insertAt ok i field value t s).1.table = some t' ∧ t'.dsa = t.dsa) ∧
      ∀ p, s.dsa.Gone p → (insertAt ok i field value t s).1.dsa.Gone p := by
  rw [insertAt]
  split_ifs
  · exact ⟨⟨t, hs, rfl⟩, fun p hp => hp⟩
  · exact ⟨⟨t, hs, rfl⟩, fun p hp => hp.palloc.pfree (some s.dsa.palloc.1)⟩
  · exact ⟨⟨_, rfl, rfl⟩, fun p hp => allocValue_gone hp.palloc value⟩

theorem overwrite_pointer (hs : s.table = some t) (ok : AllocSite → Bool) (i : ℕ) (field : Field)
    (o : Owned) (value : Bytes) :
    (∃ t', (overwrite ok i field o value t s).1.table = some t' ∧ t'.dsa = t.dsa) ∧
      ∀ p, s.dsa.Gone p → (overwrite ok i field o value t s).1.dsa.Gone p := by
  rw [overwrite]
  split_ifs
  · exact ⟨⟨t, hs, rfl⟩, fun p hp => hp⟩
  · exact ⟨⟨_, rfl, rfl⟩, fun p hp => (allocValue_gone hp value).pfree _⟩

/-- A table that has to grow is replaced by another, if there is memory, and its chunk is
    gone. -/
theorem growIfNeeded_pointer (h : Owns s others) (hs : s.table = some t)
    (hinv : TableInv hashBytes t.table) (hden : Denotes t.table.entries m) (ok : AllocSite → Bool) :
    (shouldGrow t.table.occupied t.table.tombs t.table.size = false ∧
      growIfNeeded hashBytes ok t s = (s, .ok t)) ∨
    (shouldGrow t.table.occupied t.table.tombs t.table.size = true ∧
      (ok .grow = false ∧ growIfNeeded hashBytes ok t s = (s, .error (.outOfMemory .grow)) ∨
      ok .grow = true ∧ ∃ d' t', growIfNeeded hashBytes ok t s = (⟨d', some t'⟩, .ok t') ∧
        TableInv hashBytes t'.table ∧ Denotes t'.table.entries m ∧ d'.Gone t.dsa ∧
        ∀ p, s.dsa.Gone p → d'.Gone p)) := by
  cases hgrow : shouldGrow t.table.occupied t.table.tombs t.table.size with
  | false =>
    refine .inl ⟨rfl, if_neg ?_⟩
    simp [hgrow]
  | true =>
    refine .inr ⟨rfl, ?_⟩
    cases hok : ok .grow with
    | false =>
      refine .inl ⟨rfl, ?_⟩
      rw [growIfNeeded, if_pos hgrow, hok]
      rfl
    | true =>
      obtain ⟨e, he⟩ := hinv.pow
      have hmin := hinv.min
      have hload := hinv.load
      obtain ⟨t', d', hre, hinv', hperm, -, -⟩ := rehashTable_spec hinv
        (n := t.table.size * 2) ⟨e + 1, by rw [he, Nat.pow_succ]⟩ (by omega) (by omega) s.dsa
      -- The new table is allocated before the old one is freed.
      have hd' : d' = s.dsa.palloc.2.pfree (some t.dsa) := by
        rw [rehashTable, if_pos rfl] at hre
        split at hre
        · exact absurd hre (by simp)
        · exact (Prod.mk.inj (Option.some.inj (Except.ok.inj hre))).2.symm
      refine .inr ⟨rfl, d', t', ?_, hinv', hden.perm hperm, ?_, fun p hp => ?_⟩
      · rw [growIfNeeded, if_pos hgrow, hok, hre]
      · have hhas := h.has
        rw [hs] at hhas
        rw [hd']
        exact (hhas.palloc.perm (List.Perm.swap _ _ _)).gone
      · rw [hd']
        exact hp.palloc.pfree (some t.dsa)

/-- A call of `set` that has its table stays in the chunk of the table. -/
theorem set_found_pointer (hs : s.table = some t) (hinv : TableInv hashBytes t.table)
    (hm : Denotes t.table.entries m) (ok : AllocSite → Bool) (field : Field) (value : Bytes)
    {x : SharedHash × Except SharedHashError Bool}
    (hx : (match t.table.find (geometry hashBytes) field with
      | none => (s, .error (.saturated t.table.size))
      | some (i, false) => insertAt ok i field value t s
      | some (i, true) => match t.table.cells[i]?.bind Cell.item? with
        | none => (s, .ok false)
        | some (_, o) => overwrite ok i field o value t s : SharedHash × _) = x) :
    (∃ t', x.1.table = some t' ∧ t'.dsa = t.dsa) ∧ ∀ p, s.dsa.Gone p → x.1.dsa.Gone p := by
  subst hx
  rcases find_spec hinv hm field with ⟨i, o, hfind, hi, -⟩ | ⟨i, hfind, -⟩
  · simp only [hfind, hi, Option.bind_some, item?_full]
    exact overwrite_pointer hs ok i field o value
  · simp only [hfind]
    exact insertAt_pointer hs ok i field value

/-- Where the table of a hash is after a set: where it was, or elsewhere, and then its old chunk
    is gone. What was gone before still is. -/
theorem set_pointer (h : Owns s others) (hm : Holds hashBytes s m) (hs : s.table = some t)
    (ok : AllocSite → Bool) (field : Field) (value : Bytes) :
    (∃ t', (set hashBytes ok field value s).1.table = some t' ∧
      (grows ok value s = false → t'.dsa = t.dsa)) ∧
    (grows ok value s = true → (set hashBytes ok field value s).1.dsa.Gone t.dsa) ∧
    ∀ p, s.dsa.Gone p → (set hashBytes ok field value s).1.dsa.Gone p := by
  rw [Holds, hs] at hm
  rw [set]
  -- A long value is refused before the table is touched.
  by_cases hlen : value.length > uint16Max
  · have hno : grows ok value s = false := by simp [grows, Nat.not_le.2 hlen]
    rw [if_pos hlen, hno]
    exact ⟨⟨t, hs, fun _ => rfl⟩, fun h => absurd h (by simp), fun p hp => hp⟩
  have hgrows : grows ok value s = (shouldGrow t.table.occupied t.table.tombs t.table.size &&
      ok .grow) := by simp [grows, hs, Nat.not_lt.1 hlen]
  have hensure : ensureTable ok s = (s, .ok t) := by rw [ensureTable, hs]
  rw [if_neg hlen, hensure, hgrows]
  obtain ⟨hinv, hden⟩ := hm
  -- No need to grow, no memory to, or a new table; then the bucket is written.
  rcases growIfNeeded_pointer h hs hinv hden ok with
    ⟨hgrow, heq⟩ | ⟨hgrow, ⟨hok, heq⟩ | ⟨hok, d', t', heq, hinv', hden', hold, hkeep⟩⟩ <;>
    simp only [heq, hgrow]
  · obtain ⟨⟨t', ht', hdsa⟩, hgone⟩ := set_found_pointer hs hinv hden ok field value rfl
    exact ⟨⟨t', ht', fun _ => hdsa⟩, fun h => absurd h (by simp), hgone⟩
  · rw [hok]
    exact ⟨⟨t, hs, fun _ => rfl⟩, fun h => absurd h (by simp), fun p hp => hp⟩
  · have hs' : (⟨d', some t'⟩ : SharedHash).table = some t' := rfl
    obtain ⟨⟨t₂, ht₂, -⟩, hgone⟩ := set_found_pointer hs' hinv' hden' ok field value rfl
    rw [hok]
    exact ⟨⟨t₂, ht₂, fun h => absurd h (by simp)⟩, fun _ => hgone _ hold,
      fun p hp => hgone p (hkeep p hp)⟩

theorem del_owns (h : Owns s others) (hm : Holds hashBytes s m) (ok : AllocSite → Bool)
    (field : Field) : Owns (del hashBytes ok field s).1 others := by
  rw [Holds] at hm
  rw [del]
  cases hs : s.table with
  | none => exact h
  | some t =>
    rw [hs] at hm
    obtain ⟨hinv, hm⟩ := hm
    simp only
    split_ifs
    · exact h
    rcases find_spec hinv hm field with ⟨i, o, hfind, hi, -⟩ | ⟨i, hfind, -⟩
    · simp only [hfind, hi, Option.bind_some, item?_full]
      have hhas := h.has
      rw [hs] at hhas
      refine shrinkIfNeeded_owns ⟨?_, fun t' ht' => ?_⟩ rfl (hinv.bury hi) ok
      · -- The chunks of the bucket come before the rest.
        have hold : (tableChunks (some t) ++ others).Perm (o.fieldDsa :: (o.valueDsa.toList ++
            (tableChunks (some ⟨t.dsa, t.table.bury i⟩) ++ others))) := by
          have hb := (bucketChunks_perm (entries_bury hi)).symm.append_right others
          refine (hb.cons t.dsa).trans ?_
          simp only [bucketChunks, List.flatMap_cons, Owned.chunks, List.cons_append,
            List.append_assoc, tableChunks]
          exact (List.Perm.swap _ _ _).trans
            ((List.perm_append_comm_assoc [t.dsa] _ _).cons _)
        exact (hhas.perm hold).pfree.pfree_toList
      · obtain rfl := Option.some.inj ht'
        exact fun e he => h.values t hs e
          ((entries_bury hi).mem_iff.1 (List.mem_cons_of_mem _ he))
    · simp only [hfind]
      exact h

theorem run_owns (h : Owns s others) (hm : Holds hashBytes s m) (op : TableOp)
    (ok : AllocSite → Bool) : Owns (op.run hashBytes ok s).1 others := by
  cases op with
  | set field value => exact set_owns h hm ok field value
  | del field => exact del_owns h hm ok field

theorem runOps_owns : ∀ (ops : List (TableOp × (AllocSite → Bool))) {s : SharedHash}
    {m : Finmap fun _ : Field => Bytes}, Owns s others → Holds hashBytes s m →
    Owns (runOps hashBytes ops s).1 others
  | [], _, _, h, _ => h
  | (op, ok) :: ops, _, _, h, hm => by
    obtain ⟨m', hm', -⟩ := run_holds hm op ok
    exact runOps_owns ops (run_owns h hm op ok) hm'

/-- A call that raises an error leaves the map. -/
theorem run_holds_of_error (hm : Holds hashBytes s m) (op : TableOp) (ok : AllocSite → Bool)
    {err : SharedHashError} (herr : (op.run hashBytes ok s).2 = .error err) :
    Holds hashBytes (op.run hashBytes ok s).1 m := by
  cases op with
  | del field => exact absurd ((del_spec hm ok field).1.symm.trans herr) (by simp)
  | set field value =>
    rcases set_spec hm ok field value with ⟨hreply, -⟩ | ⟨hheld, -⟩
    · exact absurd (hreply.symm.trans herr) (by simp)
    · exact hheld

end SharedHash

/-! ## Giving the memory back -/

/-- `pg_redis_shared_hash_free` frees the chunks of the table one after the other. -/
theorem SharedValue.freeTable_eq (table : Option SharedTable) (d : Dsa) :
    ∃ ps : List ℕ, ps.Perm (tableChunks table) ∧ freeTable table d = d.pfreeAll ps := by
  cases table with
  | none => exact ⟨[], .refl _, rfl⟩
  | some t =>
    have hfold : ∀ (es : List (Field × Owned)) (d : Dsa),
        es.foldl (fun d e => (d.pfree (some e.2.fieldDsa)).pfree e.2.valueDsa) d =
          d.pfreeAll (bucketChunks es) := by
      intro es
      induction es with
      | nil => exact fun _ => rfl
      | cons e es ih =>
        intro d
        rw [List.foldl_cons, ih, bucketChunks, bucketChunks, List.flatMap_cons,
          Dsa.pfreeAll_append, ← Dsa.pfreeAll_toList]
        rfl
    refine ⟨bucketChunks t.table.entries ++ [t.dsa], List.perm_append_singleton _ _, ?_⟩
    rw [freeTable, hfold, Dsa.pfreeAll_append]
    rfl

namespace SharedHash

/-- For every hash function, every sequence of calls from no table at all and one more call,
    with any allocation of any call failing: if that call raises an error, the map is the one
    before it; in any case the chunks allocated are those that were before the first call, that
    of the table, and those of its buckets, each once; and `pg_redis_shared_hash_free` frees
    each of them once, and nothing else. -/
theorem hashOps_owned (hashBytes : Bytes → UInt32) (ops : List (TableOp × (AllocSite → Bool)))
    (op : TableOp) (ok : AllocSite → Bool) {d : Dsa} (hd : d.Has d.live) :
    let s := (runOps hashBytes ops ⟨d, none⟩).1
    let r := op.run hashBytes ok s
    (∀ err, r.2 = .error err → ∃ m, Holds hashBytes s m ∧ Holds hashBytes r.1 m) ∧
      Owns r.1 d.live ∧
      ∃ ps : List ℕ, ps.Perm (tableChunks r.1.table) ∧ ps.Nodup ∧
        SharedValue.freeTable r.1.table r.1.dsa = r.1.dsa.pfreeAll ps ∧
        (SharedValue.freeTable r.1.table r.1.dsa).Has d.live := by
  intro s r
  have hstart : Holds hashBytes ⟨d, none⟩ ∅ := rfl
  have hown : Owns ⟨d, none⟩ d.live := ⟨hd, fun t ht => by cases ht⟩
  obtain ⟨m, hm, -⟩ := runOps_holds ops hstart
  have hr : Owns r.1 d.live := run_owns (runOps_owns ops hown hstart) hm op ok
  refine ⟨fun err herr => ⟨m, hm, run_holds_of_error hm op ok herr⟩, hr, ?_⟩
  obtain ⟨ps, hps, heq⟩ := SharedValue.freeTable_eq r.1.table r.1.dsa
  have hhas := hr.has.perm (hps.symm.append_right _)
  refine ⟨ps, hps, ?_, heq, heq ▸ hhas.pfreeAll⟩
  have hnd := hhas.live.nodup_iff.1 hhas.nodup
  exact (List.nodup_append.1 hnd).1

/-- A field is set, and set again without memory for its new value. -/
theorem hashOps_owned_overwrite :
    let s := (runOps (fun _ => 7) [(.set [97] [1], fun _ => true)] ⟨⟨3, [0]⟩, none⟩).1
    let r := (TableOp.set [97] [2]).run (fun _ => 7) (fun _ => false) s
    r.2 = .error (.outOfMemory .overwriteValue) ∧ (∃ m, Holds (fun _ => 7) r.1 m) ∧
      Owns r.1 [0] := by
  have hd : Dsa.Has ⟨3, [0]⟩ [0] := ⟨.refl _, by decide, by decide⟩
  have h := hashOps_owned (fun _ => 7) [(.set [97] [1], fun _ => true)] (.set [97] [2])
    (fun _ => false) hd
  have herr : ((TableOp.set [97] [2]).run (fun _ => 7) (fun _ => false)
      (runOps (fun _ => 7) [(.set [97] [1], fun _ => true)] ⟨⟨3, [0]⟩, none⟩).1).2 =
      .error (.outOfMemory .overwriteValue) := by
    decide +kernel
  obtain ⟨m, -, hm⟩ := h.1 _ herr
  exact ⟨herr, ⟨m, hm⟩, h.2.1⟩

end SharedHash

end PgRedis
