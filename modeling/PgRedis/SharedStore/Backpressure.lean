import PgRedis.Ring.Publish
import PgRedis.SharedStore.Sound

/-!
# An `HSET` that meets a full ring

Whether the ring is full is given by a list of one attempt to publish after the other; once the
list is used up, the ring has room. Under `block` an attempt is repeated up to a hundred times,
then an error is raised.

`HSET` repeats its whole locked section. Every repetition counts one more version and finds the
field there, so that the outcome is that of a single section only if there is no repetition,
coincidences apart (`hset_retried_iff`).
-/

namespace PgRedis

open Lib

/-- The attempts at publishing that meet a full ring before an error is raised. -/
def maxSpin : ℕ := 100

/-- `handle_ring_full_after_unlock`, and the same step of
    `pg_redis_dirty_ring_publish_blocking`: the new count of attempts, `none` for the error. -/
def FullAction.handle (action : FullAction) (spin : ℕ) : Option ℕ :=
  match action with
  | .syncFlush => some 0
  | .block => if spin + 1 ≥ maxSpin then none else some (spin + 1)

/-- The errors of a command that publishes: its own, a full ring, no memory for the chunk of an
    event, and an error raised out of a wait for room. -/
inductive CallError
  | command (err : SharedCommandError)
  | ringFull
  | spill
  | raised
  deriving DecidableEq, Repr

namespace SharedEntry

section

variable (hashBytes : Bytes → UInt32) (action : FullAction) (key : Key) (field : Field)
  (value : Bytes)

/-- The loop of `pg_redis_shared_hash_set_atomic`. Every round reads the clock and allocates
    anew; the events are those that have been published. -/
def setRetry : List Bool → (ℕ → ℤ) → (ℕ → AllocSite → Bool) → ℕ → Dsa → Option SharedEntry →
    Dsa × Option SharedEntry × List DirtyEvent × Except CallError Reply
  | ring, clock, ok, spin, d, o =>
    match setAtomic hashBytes (ok 0) (clock 0) key field value d o with
    | (d, o, _, .error err) => (d, o, [], .error (.command err))
    | (d, o, evs, .ok r) => match ring with
      -- The event of the parent row meets a full ring.
      | false :: ring => match action.handle spin with
        | none => (d, o, [], .error .ringFull)
        | some spin => setRetry ring (fun i => clock (i + 1)) (fun i => ok (i + 1)) spin d o
      -- The event of the field does.
      | true :: false :: ring => match action.handle spin with
        | none => (d, o, evs.take 1, .error .ringFull)
        | some spin =>
          let x := setRetry ring (fun i => clock (i + 1)) (fun i => ok (i + 1)) spin d o
          (x.1, x.2.1, evs.take 1 ++ x.2.2.1, x.2.2.2)
      | _ => (d, o, evs, .ok r)

end

/-- The rounds of the loop that meet a full ring. -/
def fullRounds : List Bool → ℕ
  | false :: ring => fullRounds ring + 1
  | true :: false :: ring => fullRounds ring + 1
  | _ => 0

/-! ## The rounds on a hash -/

/-- What the entry of a hash holds: its map, its count, its expiry and its version. -/
structure HashState where
  map : Finmap fun _ : Field => Bytes
  count : ℤ
  expireAt : Option ℤ
  version : UInt64

namespace HashState

/-- The hash made of nothing or of an expired entry. -/
def fresh : HashState := ⟨∅, 0, none, 0⟩

/-- Whether the expiry has passed. -/
def isExpired (a : HashState) (now : ℤ) : Bool :=
  match a.expireAt with
  | none => false
  | some t => now ≥ t

/-- The hash a round works on. -/
def opened (a : HashState) (now : ℤ) : HashState := if a.isExpired now then fresh else a

variable (field : Field) (value : Bytes)

/-- A field is set. -/
def set (a : HashState) : HashState :=
  ⟨a.map.insert field value, if field ∉ a.map then a.count + 1 else a.count, a.expireAt,
    a.version + 1⟩

/-- The hash after `n` rounds and one more, and whether the last has found the field new. -/
def rounds : ℕ → (ℕ → ℤ) → HashState → HashState × Bool
  | 0, clock, a => ((a.opened (clock 0)).set field value, field ∉ (a.opened (clock 0)).map)
  | n + 1, clock, a =>
    rounds n (fun i => clock (i + 1)) ((a.opened (clock 0)).set field value)

variable {field value} {a : HashState} {clock : ℕ → ℤ} {n : ℕ}

theorem opened_of_not_expired {now : ℤ} (h : a.isExpired now = false) : a.opened now = a := by
  simp [opened, h]

/-- The rounds on a hash that does not expire. Only the first can find the field new; each
    counts a version. -/
theorem rounds_of_lasting (h : ∀ i ≤ n, a.isExpired (clock i) = false) :
    rounds field value n clock a = (⟨a.map.insert field value,
      if field ∉ a.map then a.count + 1 else a.count, a.expireAt,
      a.version + UInt64.ofNat n + 1⟩, decide (n = 0 ∧ field ∉ a.map)) := by
  induction n generalizing clock a with
  | zero =>
    rw [rounds, opened_of_not_expired (h 0 le_rfl)]
    simp [set]
  | succ n ih =>
    have hrest : rounds field value n (fun i => clock (i + 1)) (a.set field value) = _ :=
      ih fun i hi => h (i + 1) (Nat.succ_le_succ hi)
    rw [rounds, opened_of_not_expired (h 0 (Nat.zero_le _)), hrest]
    have hmem : field ∈ (a.set field value).map := Finmap.mem_insert.2 (.inl rfl)
    have hmap : (a.set field value).map.insert field value = a.map.insert field value :=
      Finmap.insert_insert _
    have hversion : (a.set field value).version + UInt64.ofNat n + 1 =
        a.version + UInt64.ofNat (n + 1) + 1 := by
      rw [UInt64.ofNat_add, set, UInt64.add_assoc a.version, UInt64.add_comm 1]
      rfl
    rw [hmap, if_neg (not_not.2 hmem), hversion]
    simp [set]

/-- The rounds on a hash that expires before round `j`: they begin anew. -/
theorem rounds_of_expired {j : ℕ} (hj : j ≤ n) (h : ∀ i < j, a.isExpired (clock i) = false)
    (hexp : a.isExpired (clock j) = true) :
    rounds field value n clock a = rounds field value (n - j) (fun i => clock (i + j)) fresh := by
  induction j generalizing n clock a with
  | zero =>
    have hopen : a.opened (clock 0) = fresh.opened (clock 0) := by
      rw [opened, if_pos hexp]
      rfl
    cases n with
    | zero => simp only [rounds, hopen, Nat.sub_zero, add_zero]
    | succ n => simp only [rounds, hopen, Nat.sub_zero, add_zero]
  | succ j ih =>
    obtain ⟨n, rfl⟩ : ∃ k, n = k + 1 := ⟨n - 1, by omega⟩
    have hrest : rounds field value n (fun i => clock (i + 1)) (a.set field value) = _ :=
      ih (Nat.le_of_succ_le_succ hj) (fun i hi => h (i + 1) (Nat.succ_lt_succ hi)) hexp
    rw [rounds, opened_of_not_expired (h 0 (Nat.succ_pos _)), hrest, Nat.succ_sub_succ]
    simp only [add_assoc]

theorem version_eq_iff (v : UInt64) (n : ℕ) : v + UInt64.ofNat n + 1 = v + 1 ↔ 2 ^ 64 ∣ n := by
  have hv : v.toNat < 2 ^ 64 := v.toNat_lt
  rw [UInt64.add_left_inj, Nat.dvd_iff_mod_eq_zero, ← UInt64.toNat_inj, UInt64.toNat_add,
    UInt64.toNat_ofNat']
  omega

theorem insert_eq_iff (m : Finmap fun _ : Field => Bytes) (field : Field) (value : Bytes) :
    Finmap.insert field value ∅ = m.insert field value ↔ m.erase field = ∅ := by
  constructor
  · intro h
    apply Finmap.ext_lookup
    intro f
    by_cases hf : f = field
    · rw [hf, Finmap.lookup_erase, Finmap.lookup_empty]
    · rw [Finmap.lookup_erase_ne hf, ← Finmap.lookup_insert_of_ne m hf, ← h,
        Finmap.lookup_insert_of_ne _ hf]
  · intro h
    apply Finmap.ext_lookup
    intro f
    by_cases hf : f = field
    · rw [hf, Finmap.lookup_insert, Finmap.lookup_insert]
    · rw [Finmap.lookup_insert_of_ne _ hf, Finmap.lookup_insert_of_ne _ hf, ← h,
        Finmap.lookup_erase_ne hf]

/-- `n` repetitions make no difference: there are none; or the field was there, and the version
    has come round; or the hash has expired before repetition `j`, had no other field, and the
    reply, the count and the version happen to be those of the hash that has been begun anew. -/
def Unnoticed (field : Field) (n : ℕ) (clock : ℕ → ℤ) (a : HashState) : Prop :=
  n = 0 ∨
  ((∀ i ≤ n, a.isExpired (clock i) = false) ∧ field ∈ a.map ∧ 2 ^ 64 ∣ n) ∨
  ∃ j, 0 < j ∧ j ≤ n ∧ (∀ i < j, a.isExpired (clock i) = false) ∧
    a.isExpired (clock j) = true ∧ a.map.erase field = ∅ ∧ (n = j ↔ field ∉ a.map) ∧
    a.count = (if field ∉ a.map then 0 else 1) ∧ a.version = UInt64.ofNat (n - j)

/-- The map, the count and the version are the same. -/
def Alike (a b : HashState) : Prop := a.map = b.map ∧ a.count = b.count ∧ a.version = b.version

/-- Without an expiry on the way. -/
theorem rounds_alike_of_lasting (h : ∀ i ≤ n, a.isExpired (clock i) = false) :
    ((rounds field value n clock a).2 = decide (field ∉ a.map) ∧
      (rounds field value n clock a).1.Alike (a.set field value)) ↔
    n = 0 ∨ field ∈ a.map ∧ 2 ^ 64 ∣ n := by
  rw [rounds_of_lasting h]
  simp only [Alike, set, true_and, version_eq_iff, decide_eq_decide]
  constructor
  · rintro ⟨hnew, hdvd⟩
    by_cases hmem : field ∈ a.map
    · exact .inr ⟨hmem, hdvd⟩
    · exact .inl (hnew.2 hmem).1
  · rintro (rfl | ⟨hmem, hdvd⟩)
    · exact ⟨and_iff_right rfl, dvd_zero _⟩
    · exact ⟨iff_of_false (fun h => h.2 hmem) (not_not.2 hmem), hdvd⟩

/-- With an expiry before round `j`. -/
theorem rounds_alike_of_expired {j : ℕ} (hj : j ≤ n) (h : ∀ i < j, a.isExpired (clock i) = false)
    (hexp : a.isExpired (clock j) = true) :
    ((rounds field value n clock a).2 = decide (field ∉ a.map) ∧
      (rounds field value n clock a).1.Alike (a.set field value)) ↔
    a.map.erase field = ∅ ∧ (n = j ↔ field ∉ a.map) ∧
      a.count = (if field ∉ a.map then 0 else 1) ∧ a.version = UInt64.ofNat (n - j) := by
  have hempty : field ∉ fresh.map := Finmap.notMem_empty
  have hcount : (if field ∉ fresh.map then fresh.count + 1 else fresh.count) =
      (if field ∉ a.map then a.count + 1 else a.count) ↔
      a.count = (if field ∉ a.map then 0 else 1) := by
    rw [if_pos hempty, show fresh.count + 1 = 1 from rfl]
    split_ifs <;> omega
  have hversion : fresh.version + UInt64.ofNat (n - j) + 1 = a.version + 1 ↔
      a.version = UInt64.ofNat (n - j) := by
    rw [UInt64.add_left_inj]
    exact (UInt64.zero_add _).congr_left.trans eq_comm
  have hreply : decide (n - j = 0 ∧ field ∉ fresh.map) = decide (field ∉ a.map) ↔
      (n = j ↔ field ∉ a.map) := by
    rw [decide_eq_decide, and_iff_left hempty, Nat.sub_eq_zero_iff_le]
    exact iff_congr ⟨fun h => le_antisymm h hj, fun h => h.le⟩ Iff.rfl
  rw [rounds_of_expired hj h hexp, rounds_of_lasting fun _ _ => rfl]
  simp only [Alike, set, hreply, hcount, hversion]
  rw [show fresh.map = ∅ from rfl, insert_eq_iff]
  exact and_left_comm

/-- The hash lasts, or there is a first round at which it has expired. -/
theorem lasting_or_expired (a : HashState) (clock : ℕ → ℤ) (n : ℕ) :
    (∀ i ≤ n, a.isExpired (clock i) = false) ∨
      ∃ j ≤ n, (∀ i < j, a.isExpired (clock i) = false) ∧ a.isExpired (clock j) = true := by
  induction n with
  | zero =>
    cases h : a.isExpired (clock 0) with
    | false => exact .inl fun i hi => Nat.le_zero.1 hi ▸ h
    | true => exact .inr ⟨0, le_rfl, by simp, h⟩
  | succ n ih =>
    rcases ih with hlast | ⟨j, hj, hbefore, hexp⟩
    · cases h : a.isExpired (clock (n + 1)) with
      | false =>
        refine .inl fun i hi => ?_
        rcases Nat.le_succ_iff.1 hi with hi | rfl
        · exact hlast i hi
        · exact h
      | true => exact .inr ⟨n + 1, le_rfl, fun i hi => hlast i (Nat.le_of_lt_succ hi), h⟩
    · exact .inr ⟨j, Nat.le_succ_of_le hj, hbefore, hexp⟩

/-- The rounds come to what a single one does. -/
theorem rounds_alike_iff (h0 : a.isExpired (clock 0) = false) :
    ((rounds field value n clock a).2 = decide (field ∉ a.map) ∧
      (rounds field value n clock a).1.Alike (a.set field value)) ↔ Unnoticed field n clock a := by
  rcases lasting_or_expired a clock n with hlast | ⟨j, hj, hbefore, hexp⟩
  · rw [rounds_alike_of_lasting hlast, Unnoticed]
    refine or_congr_right ⟨fun h => .inl ⟨hlast, h⟩, ?_⟩
    rintro (⟨-, h⟩ | ⟨j, -, hj, -, hexp, -⟩)
    · exact h
    · exact absurd (hexp.symm.trans (hlast j hj)) (by simp)
  · have hpos : 0 < j := by
      rw [Nat.pos_iff_ne_zero]
      rintro rfl
      exact absurd (h0.symm.trans hexp) (by simp)
    rw [rounds_alike_of_expired hj hbefore hexp, Unnoticed]
    constructor
    · intro h
      exact .inr (.inr ⟨_, hpos, hj, hbefore, hexp, h⟩)
    · rintro (rfl | ⟨h, -⟩ | ⟨k, -, hk, hlast', hexp', h⟩)
      · omega
      · exact absurd (hexp.symm.trans (h j hj)) (by simp)
      · obtain rfl : k = j := by
          rcases lt_trichotomy k j with hlt | heq | hlt
          · exact absurd (hexp'.symm.trans (hbefore k hlt)) (by simp)
          · exact heq
          · exact absurd (hexp.symm.trans (hlast' _ hlt)) (by simp)
        exact h

end HashState

/-- The entry holds the hash. -/
def Keeps (hashBytes : Bytes → UInt32) (a : HashState) (se : SharedEntry) : Prop :=
  ∃ table, se = ⟨.hash table a.count, a.expireAt, a.version⟩ ∧
    ∀ d, SharedHash.Holds hashBytes ⟨d, table⟩ a.map

variable {hashBytes : Bytes → UInt32} {action : FullAction} {key : Key} {field : Field}
  {value : Bytes}

/-- The hash that a round opens in the entry left by the one before it. -/
theorem Keeps.opened {a : HashState} {se : SharedEntry} (h : Keeps hashBytes a se) (now : ℤ) :
    Keeps hashBytes (a.opened now) (SharedEntry.opened now (some se)) := by
  obtain ⟨table, rfl, hm⟩ := h
  have hexp : SharedEntry.isExpired ⟨.hash table a.count, a.expireAt, a.version⟩ now =
      a.isExpired now := rfl
  rw [HashState.opened, SharedEntry.opened, hexp]
  split_ifs
  · exact ⟨none, rfl, fun _ => rfl⟩
  · exact ⟨table, rfl, hm⟩

/-- One round. -/
theorem setAtomic_keeps {a : HashState} {now : ℤ} {o : Option SharedEntry}
    (h : Keeps hashBytes a (SharedEntry.opened now o)) {ok : AllocSite → Bool} {d : Dsa} {r : Reply}
    (hr : (setAtomic hashBytes ok now key field value d o).2.2.2 = .ok r) :
    ∃ d' se evs, setAtomic hashBytes ok now key field value d o =
        (d', some se, evs, .ok (.bool (field ∉ a.map))) ∧ evs ≠ [] ∧
      Keeps hashBytes (a.set field value) se := by
  obtain ⟨table, hop, hm⟩ := h
  rcases setAtomic_of_opened hop hm ok key field value d with ⟨hlen, d', table', heq, hm'⟩ |
    ⟨d', table', err, heq, -⟩
  · exact ⟨d', _, _, heq, by simp, table', rfl, hm'⟩
  · rw [heq] at hr
    exact absurd hr (by simp)

/-- The first round succeeds if no round raises an error of its own. -/
theorem setAtomic_of_setRetry {ring : List Bool} {clock : ℕ → ℤ} {ok : ℕ → AllocSite → Bool}
    {spin : ℕ} {d : Dsa} {o : Option SharedEntry} {reply : Except CallError Reply}
    (hr : (setRetry hashBytes action key field value ring clock ok spin d o).2.2.2 = reply)
    (hne : ∀ err, reply ≠ .error (.command err)) :
    ∃ r', (setAtomic hashBytes (ok 0) (clock 0) key field value d o).2.2.2 = .ok r' := by
  obtain ⟨d', o', evs, reply, hx⟩ : ∃ d' o' evs reply,
    setAtomic hashBytes (ok 0) (clock 0) key field value d o = (d', o', evs, reply) :=
    ⟨_, _, _, _, rfl⟩
  cases reply with
  | ok r' => exact ⟨r', by rw [hx]⟩
  | error err =>
    unfold setRetry at hr
    rw [hx] at hr
    exact absurd hr.symm (hne err)

/-- One round of the loop, if no round raises an error of its own. It ends the loop, or meets a
    full ring with its first or its second event and leaves what it has done to the hash to the
    next round. -/
theorem setRetry_round {ring : List Bool} {clock : ℕ → ℤ} {ok : ℕ → AllocSite → Bool} {spin : ℕ}
    {d : Dsa} {o : Option SharedEntry} {a : HashState} {reply : Except CallError Reply}
    (h : Keeps hashBytes (a.opened (clock 0)) (SharedEntry.opened (clock 0) o))
    (hr : (setRetry hashBytes action key field value ring clock ok spin d o).2.2.2 = reply)
    (hne : ∀ err, reply ≠ .error (.command err)) :
    ∃ d' se, Keeps hashBytes ((a.opened (clock 0)).set field value) se ∧
      ((∃ evs, fullRounds ring = 0 ∧
          setRetry hashBytes action key field value ring clock ok spin d o =
            (d', some se, evs, .ok (.bool (field ∉ (a.opened (clock 0)).map)))) ∨
        ∃ ring' pub, fullRounds ring = fullRounds ring' + 1 ∧
          (ring = false :: ring' ∧ pub = [] ∨ ring = true :: false :: ring' ∧ pub ≠ []) ∧
          setRetry hashBytes action key field value ring clock ok spin d o =
            match action.handle spin with
            | none => (d', some se, pub, .error .ringFull)
            | some spin =>
              let x := setRetry hashBytes action key field value ring' (fun i => clock (i + 1))
                (fun i => ok (i + 1)) spin d' (some se)
              (x.1, x.2.1, pub ++ x.2.2.1, x.2.2.2)) := by
  obtain ⟨r, hr'⟩ := setAtomic_of_setRetry hr hne
  obtain ⟨d', se, evs, hx, hevs, hse⟩ := setAtomic_keeps h hr'
  refine ⟨d', se, hse, ?_⟩
  -- The cases of the source: no full result, one for the parent row, one for the field.
  match ring with
  | [] => exact .inl ⟨evs, rfl, by rw [setRetry, hx]⟩
  | [true] => exact .inl ⟨evs, rfl, by rw [setRetry, hx]⟩
  | true :: true :: ring => exact .inl ⟨evs, rfl, by rw [setRetry, hx]⟩
  | false :: ring => exact .inr ⟨ring, [], rfl, .inl ⟨rfl, rfl⟩, by rw [setRetry, hx]; rfl⟩
  | true :: false :: ring =>
    have hpub : evs.take 1 ≠ [] := by simpa using hevs
    exact .inr ⟨ring, evs.take 1, rfl, .inr ⟨rfl, hpub⟩, by rw [setRetry, hx]⟩

/-- The loop, round by round. -/
theorem setRetry_rounds {ring : List Bool} {clock : ℕ → ℤ} {ok : ℕ → AllocSite → Bool}
    {spin : ℕ} {d : Dsa} {o : Option SharedEntry} {a : HashState} {r : Reply}
    (h : Keeps hashBytes (a.opened (clock 0)) (SharedEntry.opened (clock 0) o))
    (hr : (setRetry hashBytes action key field value ring clock ok spin d o).2.2.2 = .ok r) :
    r = .bool (HashState.rounds field value (fullRounds ring) clock a).2 ∧
      ∃ se, (setRetry hashBytes action key field value ring clock ok spin d o).2.1 = some se ∧
        Keeps hashBytes (HashState.rounds field value (fullRounds ring) clock a).1 se := by
  induction hn : fullRounds ring generalizing ring clock ok spin d o a with
  | zero =>
    obtain ⟨d', se, hse, ⟨evs, -, heq⟩ | ⟨ring', pub, hfull, -⟩⟩ := setRetry_round h hr (by simp)
    · rw [heq] at hr ⊢
      exact ⟨(Except.ok.inj hr).symm, se, rfl, hse⟩
    · omega
  | succ n ih =>
    obtain ⟨d', se, hse, ⟨evs, hfull, -⟩ | ⟨ring', pub, hfull, -, heq⟩⟩ :=
      setRetry_round h hr (by simp)
    · omega
    rw [heq] at hr ⊢
    cases hspin : action.handle spin with
    | none => simp [hspin] at hr
    | some spin' =>
      simp only [hspin] at hr ⊢
      exact ih (hse.opened _) hr (by omega)

/-- Two entries of one version, with the same field count and tables of the same content. -/
def SameHash (hashBytes : Bytes → UInt32) (se se' : SharedEntry) : Prop :=
  ∃ table table' count m, se.value = .hash table count ∧ se'.value = .hash table' count ∧
    (∀ d, SharedHash.Holds hashBytes ⟨d, table⟩ m) ∧
    (∀ d, SharedHash.Holds hashBytes ⟨d, table'⟩ m) ∧ se.version = se'.version

theorem Keeps.unique {a b : HashState} {se : SharedEntry} (h : Keeps hashBytes a se)
    (h' : Keeps hashBytes b se) : a = b := by
  obtain ⟨m, count, x, version⟩ := a
  obtain ⟨m', count', x', version'⟩ := b
  obtain ⟨table, rfl, hm⟩ := h
  obtain ⟨table', heq, hm'⟩ := h'
  obtain ⟨⟨rfl, rfl⟩, rfl, rfl⟩ : (table = table' ∧ count = count') ∧ x = x' ∧
      version = version' := by simpa using heq
  rw [show m = m' from (hm ⟨0, []⟩).unique (hm' ⟨0, []⟩)]

theorem Keeps.sameHash_iff {a b : HashState} {se se' : SharedEntry} (h : Keeps hashBytes a se)
    (h' : Keeps hashBytes b se') : SameHash hashBytes se se' ↔ a.Alike b := by
  obtain ⟨table, rfl, hm⟩ := h
  obtain ⟨table', rfl, hm'⟩ := h'
  constructor
  · rintro ⟨t, t', count, m, ⟨⟩, h', ht, ht', hversion⟩
    obtain ⟨rfl, hcount⟩ := SharedValue.hash.inj h'
    refine ⟨?_, hcount.symm, hversion⟩
    rw [(hm ⟨0, []⟩).unique (ht ⟨0, []⟩), (hm' ⟨0, []⟩).unique (ht' ⟨0, []⟩)]
  · rintro ⟨hmap, hcount, hversion⟩
    exact ⟨table, table', a.count, a.map, rfl, by rw [hcount], hm, hmap ▸ hm', hversion⟩

/-- The cell of the entry of a hash. -/
theorem Keeps.cell_eq {a : HashState} {se : SharedEntry} (h : Keeps hashBytes a se) {c : Cell}
    (hc : se.Shows hashBytes c) : c = ⟨.hash a.map, a.expireAt⟩ := by
  obtain ⟨table, rfl, hm⟩ := h
  obtain ⟨v, x⟩ := c
  obtain ⟨table', count', m, hs, rfl, hshow⟩ := hc.hash hc.type.symm
  obtain ⟨rfl, -⟩ := SharedValue.hash.inj hs
  rw [(hshow.1 ⟨0, []⟩).unique (hm ⟨0, []⟩), ← show a.expireAt = x from hc.expireAt]

end SharedEntry

namespace SharedStore

variable {hashBytes : Bytes → UInt32} {S : SharedStore} {K : Cells}

/-- The key holds a hash that has not expired, with the field. -/
def HasField (K : Cells) (now : ℤ) (key : Key) (field : Field) : Prop :=
  ∃ m x, Cell.found now (K key) = some ⟨.hash m, x⟩ ∧ field ∈ m

/-- The hash that `HSET` opens: the one under the key, or a new one. -/
def Opens (K : Cells) (now : ℤ) (key : Key) (a : SharedEntry.HashState) : Prop :=
  Cell.found now (K key) = none ∧ a = .fresh ∨
    K key = some ⟨.hash a.map, a.expireAt⟩ ∧
      Cell.found now (K key) = some ⟨.hash a.map, a.expireAt⟩

/-- `HSET` opens a hash, unless it finds another value. -/
theorem Shows.keeps (h : S.Shows hashBytes K) (now : ℤ) (key : Key) :
    (∃ se, SharedEntry.opened now (S.entries.lookup key) = se ∧ se.value.type ≠ .hash) ∨
    ∃ a, SharedEntry.Keeps hashBytes a (SharedEntry.opened now (S.entries.lookup key)) ∧
      Opens K now key a := by
  rcases SharedEntry.opened_cases (h key) now with ⟨se, c, -, -, -, hop, htype, ht⟩ |
    ⟨table, count, m, x, version, hop, hshow, hwhence⟩
  · exact .inl ⟨se, hop, htype ▸ ht⟩
  · refine .inr ⟨⟨m, count, x, version⟩, ⟨table, hop, hshow.1⟩, ?_⟩
    rcases hwhence with ⟨hfound, rfl, hfresh⟩ | ⟨hK, hfound, -⟩
    · obtain ⟨⟨rfl, rfl⟩, rfl, rfl⟩ : (table = none ∧ count = 0) ∧ x = none ∧ version = 0 := by
        simpa [SharedEntry.freshHash, SharedValue.empty] using hop.symm.trans hfresh
      exact .inl ⟨hfound, rfl⟩
    · exact .inr ⟨hK, hfound⟩

/-- This hash has not expired. -/
theorem Opens.not_expired {now : ℤ} {key : Key} {a : SharedEntry.HashState}
    (h : Opens K now key a) : a.isExpired now = false := by
  rcases h with ⟨-, rfl⟩ | ⟨-, hfound⟩
  · rfl
  · exact (Cell.found_eq_some hfound).2

/-- It has the fields that the key has. -/
theorem Opens.mem_iff {now : ℤ} {key : Key} {a : SharedEntry.HashState}
    (h : Opens K now key a) (field : Field) : field ∈ a.map ↔ HasField K now key field := by
  rcases h with ⟨hfound, rfl⟩ | ⟨-, hfound⟩ <;> rw [HasField, hfound]
  · exact iff_of_false Finmap.notMem_empty (by simp)
  · refine ⟨fun hmem => ⟨a.map, a.expireAt, rfl, hmem⟩, ?_⟩
    rintro ⟨m, x, heq, hmem⟩
    rwa [View.hash.inj (congrArg Cell.value (Option.some.inj heq))]

/-- For every keyspace with cells, every `HSET`, every number and placement of full results of
    the ring and all readings of the clock: if the command succeeds, it says that the field is
    new exactly if it was not there before, and leaves the table, the field count and the version
    of a single round, if and only if the repetitions make no difference. -/
theorem hset_retried_iff (h : S.Shows hashBytes K) {action : FullAction} {key : Key}
    {field : Field} {value : Bytes} {ring : List Bool} {clock : ℕ → ℤ}
    {ok : ℕ → AllocSite → Bool} {r : Reply}
    (hr : (SharedEntry.setRetry hashBytes action key field value ring clock ok 0 S.dsa
      (S.entries.lookup key)).2.2.2 = .ok r) :
    ((∃ isNew, r = .bool isNew ∧ (isNew = true ↔ ¬ HasField K (clock 0) key field)) ∧
      ∃ se se', (SharedEntry.setRetry hashBytes action key field value ring clock ok 0 S.dsa
          (S.entries.lookup key)).2.1 = some se ∧
        (SharedEntry.setAtomic hashBytes (ok 0) (clock 0) key field value S.dsa
          (S.entries.lookup key)).2.1 = some se' ∧ SharedEntry.SameHash hashBytes se se') ↔
    ∃ a, SharedEntry.Keeps hashBytes a
        (SharedEntry.opened (clock 0) (S.entries.lookup key)) ∧
      a.Unnoticed field (SharedEntry.fullRounds ring) clock := by
  obtain ⟨r₁, hr₁⟩ := SharedEntry.setAtomic_of_setRetry hr (by simp)
  -- Another type is refused before anything is changed, and the command has succeeded.
  rcases h.keeps (clock 0) key with ⟨se, hop, ht⟩ | ⟨a, ha, hopens⟩
  · rw [SharedEntry.setAtomic_of_wrongType hop ht] at hr₁
    exact absurd hr₁ (by simp [SharedEntry.notHash])
  have h0 : a.isExpired (clock 0) = false := hopens.not_expired
  have hfield := hopens.mem_iff field
  have hopen : a.opened (clock 0) = a := SharedEntry.HashState.opened_of_not_expired h0
  obtain ⟨d₁, se₁, evs, hx₁, -, hse₁⟩ := SharedEntry.setAtomic_keeps ha hr₁
  obtain ⟨hrounds, se, hx, hse⟩ := SharedEntry.setRetry_rounds (a := a) (hopen.symm ▸ ha) hr
  have hunique : (∃ b, SharedEntry.Keeps hashBytes b
      (SharedEntry.opened (clock 0) (S.entries.lookup key)) ∧
      b.Unnoticed field (SharedEntry.fullRounds ring) clock) ↔
      a.Unnoticed field (SharedEntry.fullRounds ring) clock := by
    constructor
    · rintro ⟨b, hb, hun⟩
      rwa [← ha.unique hb] at hun
    · exact fun hun => ⟨a, ha, hun⟩
  -- The rounds are those of the state of the hash, where the two sides are compared.
  rw [hunique, ← SharedEntry.HashState.rounds_alike_iff h0, hx, hx₁, ← hse.sameHash_iff hse₁,
    hrounds]
  refine and_congr ⟨?_, fun heq => ⟨_, rfl, ?_⟩⟩ ⟨?_, fun hsame => ⟨se, se₁, rfl, rfl, hsame⟩⟩
  · rintro ⟨isNew, hreply, hnew⟩
    rw [Reply.bool.inj hreply, Bool.eq_iff_iff, hnew, ← hfield, decide_eq_true_iff]
  · rw [heq, decide_eq_true_iff, hfield]
  · rintro ⟨_, _, ⟨⟩, ⟨⟩, hsame⟩
    exact hsame

/-- A hash of one field, of version 1. -/
def oneFieldHash : SharedStore :=
  ((⟨⟨0, []⟩, ∅⟩ : SharedStore).hset (fun _ => 7) enough 0 [107] [102] [118]).1

/-- The same with the expiry 5. -/
def expiringHash : SharedStore :=
  (oneFieldHash.locked [107] fun d o =>
    (d, o.map fun se => { se with expireAt := some 5 }, ())).1

theorem oneFieldHash_shows : oneFieldHash.Shows (fun _ => 7)
    (Function.update (fun _ => none) [107] (some ⟨.hash (Finmap.insert [102] [118] ∅), none⟩)) :=
  hset_first_shows (shows_init ⟨0, []⟩) rfl ⟨by decide, by decide, by decide⟩ (by decide) 0

theorem expiringHash_shows : expiringHash.Shows (fun _ => 7)
    (Function.update (fun _ => none) [107]
      (some ⟨.hash (Finmap.insert [102] [118] ∅), some 5⟩)) := by
  have h := oneFieldHash_shows
  obtain ⟨se, hse, hc⟩ := h.exists_entry (Function.update_self _ _ _)
  have hlock : expiringHash.Shows (fun _ => 7) (Function.update (Function.update (fun _ => none)
      [107] (some ⟨.hash (Finmap.insert [102] [118] ∅), none⟩)) [107]
      (some ⟨.hash (Finmap.insert [102] [118] ∅), some 5⟩)) := by
    refine h.locked ?_
    rw [hse]
    exact .some ⟨hc.value, rfl⟩
  rwa [Function.update_idem] at hlock

/-- A field is set in a hash that has it: once, with room in the ring; and three times, when the
    first two rounds meet a full ring and the hash has expired at the second, so that the count,
    the version and the reply come out as if there had been one. -/
theorem hset_retried_of_room :
    let x := SharedEntry.setRetry (fun _ => 7) .block [107] [102] [119] [true, true] (fun _ => 0)
      (fun _ _ => true) 0 oneFieldHash.dsa (oneFieldHash.entries.lookup [107])
    let y := SharedEntry.setRetry (fun _ => 7) .block [107] [102] [119] [false, false]
      (fun i => if i = 0 then 0 else 10) (fun _ _ => true) 0 expiringHash.dsa
      (expiringHash.entries.lookup [107])
    (∃ K, oneFieldHash.Shows (fun _ => 7) K ∧
      ((∃ isNew, Reply.bool false = .bool isNew ∧ (isNew = true ↔ ¬ HasField K 0 [107] [102])) ∧
        ∃ se se', x.2.1 = some se ∧
          (SharedEntry.setAtomic (fun _ => 7) (fun _ => true) 0 [107] [102] [119] oneFieldHash.dsa
            (oneFieldHash.entries.lookup [107])).2.1 = some se' ∧
          SharedEntry.SameHash (fun _ => 7) se se')) ∧
    ∃ K, expiringHash.Shows (fun _ => 7) K ∧
      ((∃ isNew, Reply.bool false = .bool isNew ∧ (isNew = true ↔ ¬ HasField K 0 [107] [102])) ∧
        ∃ se se', y.2.1 = some se ∧
          (SharedEntry.setAtomic (fun _ => 7) (fun _ => true) 0 [107] [102] [119] expiringHash.dsa
            (expiringHash.entries.lookup [107])).2.1 = some se' ∧
          SharedEntry.SameHash (fun _ => 7) se se') := by
  intro x y
  refine ⟨?_, ?_⟩
  · have hreply : x.2.2.2 = .ok (.bool false) := by decide +kernel
    refine ⟨_, oneFieldHash_shows, (hset_retried_iff oneFieldHash_shows hreply).2 ?_⟩
    rcases oneFieldHash_shows.keeps 0 [107] with ⟨se, hop, ht⟩ | ⟨a, ha, -⟩
    · exact absurd (hop ▸ ht) (by decide +kernel)
    · exact ⟨a, ha, .inl rfl⟩
  · have hreply : y.2.2.2 = .ok (.bool false) := by decide +kernel
    refine ⟨_, expiringHash_shows, (hset_retried_iff expiringHash_shows hreply).2 ?_⟩
    rcases expiringHash_shows.keeps 0 [107] with ⟨se, hop, ht⟩ | ⟨a, ha, hopens⟩
    · exact absurd (hop ▸ ht) (by decide +kernel)
    · refine ⟨a, ha, .inr (.inr ⟨1, by decide, by decide, ?_⟩)⟩
      obtain ⟨table, hop, -⟩ := ha
      obtain ⟨table', hexp⟩ : ∃ table', SharedEntry.opened 0 (expiringHash.entries.lookup [107]) =
          ⟨.hash table' 1, some 5, 1⟩ := ⟨_, rfl⟩
      obtain ⟨⟨-, hcount⟩, hx, hversion⟩ : (table = table' ∧ a.count = 1) ∧ a.expireAt = some 5 ∧
          a.version = 1 := by simpa using hop.symm.trans hexp
      -- The state that the first round opens is known up to its map.
      have hmap : a.map = Finmap.insert [102] [118] ∅ := by
        rcases hopens with ⟨hfound, -⟩ | ⟨hK, -⟩
        · exact absurd hfound (by simp [Cell.found, Cell.isExpired])
        · exact (View.hash.inj (congrArg Cell.value (Option.some.inj hK))).symm
      have hmem : [102] ∈ a.map := hmap ▸ Finmap.mem_insert.2 (.inl rfl)
      refine ⟨fun i hi => ?_, ?_, ?_, iff_of_false (by decide) (not_not.2 hmem), ?_, ?_⟩
      · rw [Nat.lt_one_iff.1 hi, SharedEntry.HashState.isExpired, hx]
        rfl
      · rw [SharedEntry.HashState.isExpired, hx]
        rfl
      · rw [hmap]
        rfl
      · rw [hcount, if_neg (not_not.2 hmem)]
      · rw [hversion]
        rfl

/-- A field is set under a missing key; the first event meets a full ring once. The field is
    said to have been there, and the version is that of two commands. -/
theorem hset_retried_replies_old :
    let x := SharedEntry.setRetry (fun _ => 7) .block [107] [102] [118] [false] (fun _ => 0)
      (fun _ _ => true) 0 ⟨0, []⟩ none
    (⟨⟨0, []⟩, ∅⟩ : SharedStore).Shows (fun _ => 7) (fun _ => none) ∧
      x.2.2.2 = .ok (.bool false) ∧ ¬ HasField (fun _ => none) 0 [107] [102] ∧
      x.2.1.map SharedEntry.version = some 2 ∧
      (SharedEntry.setAtomic (fun _ => 7) (fun _ => true) 0 [107] [102] [118] ⟨0, []⟩
        none).2.1.map SharedEntry.version = some 1 := by
  refine ⟨shows_init _, by decide +kernel, ?_, by decide +kernel, by decide +kernel⟩
  rintro ⟨m, x, hfound, -⟩
  exact absurd hfound (by simp [Cell.found])

end SharedStore

end PgRedis
