import Mathlib.Data.Rat.Floor
import PgRedis.Keyspace

/-!
# `EXPIRE` and `TTL`

`EXPIRE` reads the clock, sets the deadline of its key that many seconds later, and replies
true. In session mode every later `TTL` of a key that is not written counts down to that
deadline, rounded up to whole seconds; until then the reads reply what they replied before, and
from then on what they reply of a missing key.

In shared mode `pg_redis_set_expire_seconds` sets the deadline on the copy its lookup made, and
`pg_redis_expire` marks another copy dirty: the key keeps the expiry it had. The law then holds
exactly if that expiry was the deadline already (`expiry_law_iff`).
-/

namespace PgRedis

open Lib

/-! ## What the law says -/

/-- The reply of a read of a missing key. -/
def Command.missing : Command → Reply
  | .exists? _ | .hexists .. => .bool false
  | .ttl _ => .int (-2)
  | .llen _ => .int 0
  | _ => .text none

/-- The reading of the clock a read answers at. -/
def Call.clock (c : Call) : ℤ :=
  match c.cmd with
  | .ttl _ => c.now'
  | _ => c.now

/-- The least and the first too late `TimestampTz` of PostgreSQL, in microseconds. -/
def minTimestamp : ℤ := -211813488000000000

@[inherit_doc minTimestamp]
def endTimestamp : ℤ := 9223371331200000000

/-- A read of `key` at or after `t₀`, after commands that do not write the key and read the
    clock no later. -/
structure Observes (key : Key) (t₀ : ℤ) (cs : List Request) (o : Request) : Prop where
  reads : o.1.cmd.reads = true
  about : o.1.cmd.key = key
  checked : o.1.cmd.check o.1.lim = .ok ()
  text : ∀ c ∈ o :: cs, c.1.cmd.Text
  quiet : ∀ c ∈ cs, c.1.cmd.key = key → c.1.cmd.reads = true
  start : t₀ ≤ o.1.now
  readings : o.1.now ≤ o.1.now'
  clock : ∀ c ∈ cs, c.1.now ≤ o.1.now ∧ c.1.now' ≤ o.1.now

theorem Observes.clock_le {key : Key} {t₀ : ℤ} {cs : List Request} {o : Request}
    (ho : Observes key t₀ cs o) :
    o.1.now ≤ o.1.clock ∧ o.1.clock ≤ o.1.now' := by
  rw [Call.clock]
  split
  · exact ⟨ho.readings, Int.le_refl _⟩
  · exact ⟨Int.le_refl _, ho.readings⟩

theorem Observes.start_le {key : Key} {t₀ : ℤ} {cs : List Request} {o : Request}
    (ho : Observes key t₀ cs o) : t₀ ≤ o.1.clock :=
  Int.le_trans ho.start ho.clock_le.1

namespace Backend

variable (hashBytes : Bytes → UInt32)

/-- The reply to a call after others. -/
def replyAfter (b : Backend) (cs : List Request) (o : Request) : Except SharedCommandError Reply :=
  ((b.runs hashBytes cs).exec hashBytes o.2 o.1).2

/-- The law of `EXPIRE` and `TTL`, of an `EXPIRE` called at `b` that gave `key` so many seconds
    and left `b'`. -/
structure ExpiryLaw (b b' : Backend) (c : Call) (key : Key) (seconds : ℤ) : Prop where
  /-- `TTL` is the time that is left, in seconds rounded up. -/
  ttl : ∀ cs o, Observes key c.now' cs o → o.1.cmd = .ttl key →
    o.1.clock < c.now' + seconds * 10 ^ 6 →
      ∃ n : ℤ, b'.replyAfter hashBytes cs o = .ok (.int n) ∧ 1 ≤ n ∧ n ≤ seconds ∧
        n = ⌈((c.now' + seconds * 10 ^ 6 - o.1.clock : ℤ) : ℚ) / 10 ^ 6⌉
  /-- Until the deadline the other reads reply what they replied at the `EXPIRE`. -/
  value : ∀ cs o, Observes key c.now' cs o → o.1.cmd ≠ .ttl key →
    o.1.clock < c.now' + seconds * 10 ^ 6 →
      b'.replyAfter hashBytes cs o = b.replyAfter hashBytes [] ({ o.1 with now := c.now }, o.2)
  /-- From the deadline on the key is missing. -/
  missing : ∀ cs o, Observes key c.now' cs o → c.now' + seconds * 10 ^ 6 ≤ o.1.clock →
    b'.replyAfter hashBytes cs o = .ok o.1.cmd.missing
  /-- `TTL` does not increase. -/
  decreasing : ∀ cs o cs' o', Observes key c.now' cs o → Observes key c.now' (cs ++ o :: cs') o' →
    o.1.cmd = .ttl key → o'.1.cmd = .ttl key → ∀ n n' : ℤ,
      b'.replyAfter hashBytes cs o = .ok (.int n) →
      b'.replyAfter hashBytes (cs ++ o :: cs') o' = .ok (.int n') → n' ≤ n
  /-- No result of an operation in `int64` or `int32` is out of range. -/
  exact : minTimestamp ≤ c.now' → c.now' < endTimestamp - 2 ^ 31 * 10 ^ 6 →
    (Fits 64 (seconds * 1000) ∧ Fits 64 (seconds * 1000 * 1000) ∧
      Fits 64 (c.now' + seconds * 1000 * 1000)) ∧
    ∀ t, c.now' ≤ t → t < c.now' + seconds * 10 ^ 6 →
      Fits 64 (c.now' + seconds * 10 ^ 6 - t) ∧
      Fits 64 (c.now' + seconds * 10 ^ 6 - t + 999999) ∧
      Fits 32 ((c.now' + seconds * 10 ^ 6 - t + 999999) / 1000000)

end Backend

/-! ## Rounding -/

/-- The rounding of `pg_redis_ttl_seconds` is up. -/
theorem ceil_seconds (d : ℤ) : ⌈((d : ℤ) : ℚ) / 10 ^ 6⌉ = (d + 999999) / 1000000 := by
  rw [Int.ceil_eq_iff]
  have hmod := Int.emod_add_mul_ediv (d + 999999) 1000000
  have hnn := Int.emod_nonneg (d + 999999) (show (1000000 : ℤ) ≠ 0 by decide)
  have hlt := Int.emod_lt_of_pos (d + 999999) (show (0 : ℤ) < 1000000 by decide)
  constructor
  · rw [lt_div_iff₀ (by norm_num)]
    have h : ((d + 999999) / 1000000 - 1) * 10 ^ 6 < d := by omega
    exact_mod_cast h
  · rw [div_le_iff₀ (by norm_num)]
    have h : d ≤ (d + 999999) / 1000000 * 10 ^ 6 := by omega
    exact_mod_cast h

/-! ## Reads of a cell -/

namespace Cell

variable {mode : StorageMode} {x x' : Cell} {o : Option Cell} {c : Command} {now now' t : ℤ}

theorem isExpired_iff {v : View} {d : ℤ} : (⟨v, some d⟩ : Cell).isExpired t = true ↔ d ≤ t := by
  rw [isExpired, decide_eq_true_iff]

theorem found_of_expired (h : ∀ x, o = some x → x.isExpired now = true) : found now o = none := by
  cases o with
  | none => rfl
  | some x => rw [found, if_pos (h x rfl)]

/-- A body that edits nothing, on the cell it finds. -/
theorem query_some {f : Cell → Except EntryError (Option Cell × Reply)}
    (hf : ∀ c c' r, f c ≠ .ok (some c', r)) (h : x.isExpired now = false) (key : Key)
    (missing : Reply) : query mode now key missing f (some x) =
      (some x, ((f x).map Prod.snd).mapError (.entry key)) := by
  rw [query, found_of_live h]
  simp only
  cases hfx : f x with
  | error err => rfl
  | ok y =>
    obtain ⟨_ | c', r⟩ := y
    · rfl
    · exact absurd hfx (hf x c' r)

/-- What such a body leaves. -/
theorem query_reads {f : Cell → Except EntryError (Option Cell × Reply)}
    (hf : ∀ c c' r, f c ≠ .ok (some c', r)) (key : Key) (missing : Reply) (hle : now ≤ t) :
    (query mode now key missing f o).1 = o ∨
      (query mode now key missing f o).1 = none ∧ ∃ x, o = some x ∧ x.isExpired t = true := by
  cases o with
  | none => exact .inl rfl
  | some x =>
    cases h : x.isExpired now with
    | true =>
      have hfound : found now (some x) = none := found_of_expired fun y hy =>
        Option.some.inj hy ▸ h
      rw [query, hfound]
      exact .inr ⟨rfl, x, rfl, isExpired_of_le h hle⟩
    | false =>
      rw [query_some hf h]
      exact .inl rfl

theorem lookupTime_eq_or (mode : StorageMode) (now now' : ℤ) (o : Option Cell) :
    lookupTime mode now now' o = now ∨ lookupTime mode now now' o = now' := by
  cases o with
  | none => exact .inl rfl
  | some x =>
    cases mode with
    | session => exact .inl rfl
    | shared =>
      rw [lookupTime]
      split_ifs
      · exact .inr rfl
      · exact .inl rfl

/-- A key that is missing or expired is missing for a read, and is gone after it. -/
theorem perform_missing (hc : c.reads = true) (hle : now ≤ now')
    (h : ∀ x, o = some x → x.isExpired now = true) :
    perform mode now now' o c = (none, .ok c.missing) := by
  have hquery : ∀ {key missing f} {t : ℤ}, now ≤ t →
      query mode t key missing f o = (none, .ok missing) := by
    intro key missing f t ht
    rw [query, found_of_expired fun x hx => isExpired_of_le (h x hx) ht]
  have htime : now ≤ lookupTime mode now now' o := by
    rcases lookupTime_eq_or mode now now' o with heq | heq <;> rw [heq]
    exact hle
  cases c with
  | get | llen => exact hquery (Int.le_refl _)
  | exists? key =>
    rw [perform]
    exact hquery (Int.le_refl _)
  | hget | hexists => exact hquery htime
  | ttl key =>
    rw [perform, ttl, found_of_expired h]
    rfl
  | set | del | expire | incr | decr | hset | hdel | push | pop =>
    exact absurd hc Bool.false_ne_true

/-- `TTL` of a key that expires between the two readings of the clock. -/
theorem ttl_between {v : View} {d : ℤ} (hlt : now < d) (hle : d ≤ now') (key : Key) :
    perform mode now now' (some ⟨v, some d⟩) (.ttl key) = (none, .ok (.int (-2))) := by
  have hlive : (⟨v, some d⟩ : Cell).isExpired now = false := by
    rw [← Bool.not_eq_true, isExpired_iff]
    exact Int.not_le.2 hlt
  rw [perform, ttl, found_of_live hlive]
  exact if_pos hle

/-- `TTL` of a key before its expiry. -/
theorem ttl_before {v : View} {d : ℤ} (hle : now ≤ now') (hlt : now' < d) (key : Key) :
    perform mode now now' (some ⟨v, some d⟩) (.ttl key) = (some ⟨v, some d⟩,
      .ok (.int (Int.bmod ((d - now' + 999999) / 1000000) (2 ^ 32)))) := by
  have hlive : (⟨v, some d⟩ : Cell).isExpired now = false := by
    rw [← Bool.not_eq_true, isExpired_iff]
    exact Int.not_le.2 (Int.lt_of_le_of_lt hle hlt)
  rw [perform, ttl, found_of_live hlive]
  exact if_neg (Int.not_le.2 hlt)

/-- Any other read leaves a key that has not expired, and replies by its value. -/
theorem perform_live (hc : c.reads = true) (hne : ∀ key, c ≠ .ttl key)
    (h : x.isExpired now = false) {t t' : ℤ} (h' : x'.isExpired t = false)
    (hv : x'.value = x.value) :
    (perform mode t t' (some x') c).1 = some x' ∧
      (perform mode t t' (some x') c).2 = (perform mode now now' (some x) c).2 := by
  -- A query of a cell that has not expired replies by the cell, whenever it is asked.
  have hquery : ∀ {key missing} {f : Cell → Except EntryError (Option Cell × Reply)},
      (∀ c c' r, f c ≠ .ok (some c', r)) → ((f x').map Prod.snd = (f x).map Prod.snd) →
      (query mode t key missing f (some x')).1 = some x' ∧
        (query mode t key missing f (some x')).2 = (query mode now key missing f (some x)).2 := by
    intro key missing f hf heq
    rw [query_some hf h', query_some hf h, heq]
    exact ⟨rfl, rfl⟩
  have htime : lookupTime mode now now' (some x) = now ∧ lookupTime mode t t' (some x') = t := by
    cases mode with
    | session => exact ⟨rfl, rfl⟩
    | shared =>
      rw [lookupTime, lookupTime, h, h']
      exact ⟨rfl, rfl⟩
  have hhash : ∀ f : (Finmap fun _ : Field => Bytes) → Reply,
      (withHash (fun m => (none, f m)) x').map Prod.snd =
        (withHash (fun m => (none, f m)) x).map Prod.snd := by
    intro f
    rw [withHash, withHash, hv]
    cases x.value <;> rfl
  cases c with
  | get key => exact hquery get_ne_some (by rw [get, get, hv])
  | exists? key => exact hquery (fun _ _ _ heq => by simp at heq) rfl
  | ttl key => exact absurd rfl (hne key)
  | hget key field =>
    rw [perform, perform, htime.1, htime.2]
    exact hquery (withHash_ne_some _) (hhash _)
  | hexists key field =>
    rw [perform, perform, htime.1, htime.2]
    exact hquery (withHash_ne_some _) (hhash _)
  | llen key =>
    refine hquery (withList_ne_some _) ?_
    rw [llen, withList, withList, hv]
    cases x.value <;> rfl
  | set | del | expire | incr | decr | hset | hdel | push | pop =>
    exact absurd hc Bool.false_ne_true

/-- A read leaves its cell, or takes it out, expired at one of the two readings. -/
theorem perform_reads (hc : c.reads = true) (hnow : now ≤ t) (hnow' : now' ≤ t) :
    (perform mode now now' o c).1 = o ∨
      (perform mode now now' o c).1 = none ∧ ∃ x, o = some x ∧ x.isExpired t = true := by
  -- The shared fast path may read its clock after the load; both readings are before `t`.
  have htime : lookupTime mode now now' o ≤ t := by
    rcases lookupTime_eq_or mode now now' o with heq | heq <;> rw [heq]
    · exact hnow
    · exact hnow'
  cases c with
  | get key => exact query_reads get_ne_some _ _ hnow
  | exists? key => exact query_reads (fun _ _ _ heq => by simp at heq) _ _ hnow
  | hget key field => exact query_reads (withHash_ne_some _) _ _ htime
  | hexists key field => exact query_reads (withHash_ne_some _) _ _ htime
  | llen key => exact query_reads (withList_ne_some _) _ _ hnow
  | ttl key =>
    rw [perform, ttl]
    cases o with
    | none => exact .inl rfl
    | some x =>
      cases h : x.isExpired now with
      | true =>
        rw [found_of_expired fun y hy => Option.some.inj hy ▸ h]
        exact .inr ⟨rfl, x, rfl, isExpired_of_le h hnow⟩
      | false =>
        rw [found_of_live h]
        simp only
        obtain ⟨v, _ | d⟩ := x
        · exact .inl rfl
        · simp only
          split_ifs with hd
          · exact .inr ⟨rfl, _, rfl, isExpired_iff.2 (Int.le_trans hd hnow')⟩
          · exact .inl rfl
  | set | del | expire | incr | decr | hset | hdel | push | pop =>
    exact absurd hc Bool.false_ne_true

end Cell

/-! ## Runs that do not write a key -/

namespace Backend

variable {hashBytes : Bytes → UInt32} {b b' : Backend} {K K' : Cells} {key : Key}

/-- A command that does not write the key leaves its cell, or takes it out, expired. -/
theorem Sound.exec_quiet (h : b.Sound hashBytes K) (ok : StoreSite → Bool) {c : Call} {t : ℤ}
    (htext : c.cmd.Text) (hquiet : c.cmd.key = key → c.cmd.reads = true) (hnow : c.now ≤ t)
    (hnow' : c.now' ≤ t) :
    ∃ K', (b.exec hashBytes ok c).1.Sound hashBytes K' ∧
      (K' key = K key ∨ K' key = none ∧ ∃ x, K key = some x ∧ x.isExpired t = true) := by
  by_cases hkey : c.cmd.key = key
  swap
  · obtain ⟨K', h', hne⟩ := h.exec ok htext
    exact ⟨K', h', .inl (hne key (Ne.symm hkey))⟩
  cases hcheck : c.cmd.check c.lim with
  | error err => exact ⟨K, by rwa [exec_refused hcheck ok], .inl rfl⟩
  | ok u =>
    refine ⟨_, (h.exec_reads ok (hquiet hkey) hcheck htext).1, ?_⟩
    rw [hkey, Function.update_self]
    exact Cell.perform_reads (hquiet hkey) hnow hnow'

theorem Sound.runs_quiet (h : b.Sound hashBytes K) {cs : List Request} {t : ℤ}
    (htext : ∀ c ∈ cs, c.1.cmd.Text)
    (hquiet : ∀ c ∈ cs, c.1.cmd.key = key → c.1.cmd.reads = true)
    (hclock : ∀ c ∈ cs, c.1.now ≤ t ∧ c.1.now' ≤ t) :
    ∃ K', (b.runs hashBytes cs).Sound hashBytes K' ∧
      (K' key = K key ∨ K' key = none ∧ ∃ x, K key = some x ∧ x.isExpired t = true) := by
  induction cs generalizing b K with
  | nil => exact ⟨K, h, .inl rfl⟩
  | cons c cs ih =>
    rw [List.forall_mem_cons] at htext hquiet hclock
    obtain ⟨K₁, h₁, hstep⟩ := h.exec_quiet c.2 htext.1 hquiet.1 hclock.1.1 hclock.1.2
    obtain ⟨K₂, h₂, hrest⟩ := ih h₁ htext.2 hquiet.2 hclock.2
    refine ⟨K₂, h₂, ?_⟩
    rcases hstep with heq | ⟨hnone, hexp⟩
    · rwa [← heq]
    · -- The key is gone already.
      refine .inr ⟨?_, hexp⟩
      rcases hrest with heq | ⟨hnone', -⟩
      · rw [heq, hnone]
      · exact hnone'

/-- What a read replies after such a run. -/
theorem Sound.replyAfter_eq (h : b.Sound hashBytes K) {cs : List Request} {o : Request} {t₀ : ℤ}
    (ho : Observes key t₀ cs o) :
    ∃ y, b.replyAfter hashBytes cs o =
        (Cell.perform b.mode o.1.now o.1.now' y o.1.cmd).2.mapError .command ∧
      (y = K key ∨ y = none ∧ ∃ x, K key = some x ∧ x.isExpired o.1.now = true) := by
  have htext := List.forall_mem_cons.1 ho.text
  obtain ⟨K', h', hcell⟩ := h.runs_quiet htext.2 ho.quiet ho.clock
  have hreply := (h'.exec_reads o.2 ho.reads ho.checked htext.1).2
  rw [mode_runs, ho.about] at hreply
  exact ⟨K' key, hreply, hcell⟩

/-! ## The law -/

section

variable {c : Call} {seconds : ℤ} {x : Cell} {cs : List Request} {o : Request} {v : View} {d : ℤ}

/-- Before its deadline the key is still there. -/
theorem Sound.reply_before (h : b.Sound hashBytes K) (hK : K key = some ⟨v, some d⟩) {t₀ : ℤ}
    (ho : Observes key t₀ cs o) (hlt : o.1.clock < d) :
    b.replyAfter hashBytes cs o =
      (Cell.perform b.mode o.1.now o.1.now' (some ⟨v, some d⟩) o.1.cmd).2.mapError .command := by
  obtain ⟨y, hreply, rfl | ⟨-, x, hx, hexp⟩⟩ := h.replyAfter_eq ho
  · rw [hreply, hK]
  · obtain rfl := Option.some.inj (hK.symm.trans hx)
    have hle := Int.le_trans (Cell.isExpired_iff.1 hexp) ho.clock_le.1
    exact absurd hlt (Int.not_lt.2 hle)

/-- `TTL` before the deadline. -/
theorem Sound.ttl_before (h : b.Sound hashBytes K) {t₀ : ℤ}
    (hK : K key = some ⟨v, some (t₀ + seconds * 10 ^ 6)⟩) (ho : Observes key t₀ cs o)
    (hcmd : o.1.cmd = .ttl key) (hlt : o.1.clock < t₀ + seconds * 10 ^ 6)
    (hint : seconds < 2 ^ 31) :
    b.replyAfter hashBytes cs o =
        .ok (.int ((t₀ + seconds * 10 ^ 6 - o.1.clock + 999999) / 1000000)) ∧
      1 ≤ (t₀ + seconds * 10 ^ 6 - o.1.clock + 999999) / 1000000 ∧
      (t₀ + seconds * 10 ^ 6 - o.1.clock + 999999) / 1000000 ≤ seconds := by
  have hclock : o.1.clock = o.1.now' := by rw [Call.clock, hcmd]
  have hstart := ho.start_le
  have hbounds : 1 ≤ (t₀ + seconds * 10 ^ 6 - o.1.clock + 999999) / 1000000 ∧
      (t₀ + seconds * 10 ^ 6 - o.1.clock + 999999) / 1000000 ≤ seconds := by omega
  refine ⟨?_, hbounds⟩
  rw [h.reply_before hK ho hlt, hcmd, Cell.ttl_before ho.readings (hclock ▸ hlt), ← hclock]
  rw [Int.bmod_eq_of_le (by omega) (by omega)]
  rfl

/-- From its deadline on the key is missing. -/
theorem Sound.reply_missing (h : b.Sound hashBytes K) (hK : K key = some ⟨v, some d⟩) {t₀ : ℤ}
    (ho : Observes key t₀ cs o) (hle : d ≤ o.1.clock) :
    b.replyAfter hashBytes cs o = .ok o.1.cmd.missing := by
  have hgone : ∀ y : Option Cell, (∀ x, y = some x → x.isExpired o.1.now = true) →
      (Cell.perform b.mode o.1.now o.1.now' y o.1.cmd).2.mapError SharedCommandError.command =
        .ok o.1.cmd.missing := fun y hy => by
    rw [Cell.perform_missing ho.reads ho.readings hy]
    rfl
  obtain ⟨y, hreply, rfl | ⟨rfl, -⟩⟩ := h.replyAfter_eq ho
  swap
  · exact hreply.trans (hgone none fun x hx => absurd hx (by simp))
  rw [hreply]
  by_cases hnow : d ≤ o.1.now
  · refine hgone _ fun x hx => ?_
    obtain rfl := Option.some.inj (hK.symm.trans hx)
    exact Cell.isExpired_iff.2 hnow
  · -- Only `TTL` answers at its second reading of the clock.
    rw [Call.clock] at hle
    split at hle
    next key' hcmd =>
      rw [hK, hcmd, Cell.ttl_between (Int.not_le.1 hnow) hle]
      rfl
    · exact absurd hle hnow

/-- The law holds if the key has the deadline. -/
theorem expiryLaw_of_deadline (hb : b.Sound hashBytes K) (hb' : b'.Sound hashBytes K')
    (hmode : b'.mode = b.mode) (hK : K key = some x) (hx : x.isExpired c.now = false)
    (hK' : K' key = some ⟨x.value, some (c.now' + seconds * 10 ^ 6)⟩) (hpos : 0 < seconds)
    (hint : seconds < 2 ^ 31) : ExpiryLaw hashBytes b b' c key seconds where
  ttl := fun cs o ho hcmd hlt => by
    obtain ⟨hreply, hone, hle⟩ := hb'.ttl_before hK' ho hcmd hlt hint
    exact ⟨_, hreply, hone, hle, (ceil_seconds _).symm⟩
  value := fun cs o ho hcmd hlt => by
    have hlive : (⟨x.value, some (c.now' + seconds * 10 ^ 6)⟩ : Cell).isExpired o.1.now =
        false := by
      rw [← Bool.not_eq_true, Cell.isExpired_iff]
      exact Int.not_le.2 (Int.lt_of_le_of_lt ho.clock_le.1 hlt)
    -- The same read, had it been called in the place of the `EXPIRE`.
    have hbefore := (hb.exec_reads o.2 (c := { o.1 with now := c.now }) ho.reads ho.checked
      (ho.text o List.mem_cons_self)).2
    have hsame := @Cell.perform_live b.mode x _ _ c.now o.1.now' ho.reads
      (fun k hk => hcmd (by rw [hk, ← ho.about, hk]; rfl)) hx o.1.now o.1.now' hlive rfl
    rw [hb'.reply_before hK' ho hlt, replyAfter, hmode, hsame.2]
    refine (hbefore.trans ?_).symm
    simp only [ho.about, hK]
  missing := fun cs o ho hle => hb'.reply_missing hK' ho hle
  decreasing := by
    intro cs o cs' o' ho ho' hcmd hcmd' n n' hn hn'
    have hle : o.1.clock ≤ o'.1.clock := by
      have hlater := (ho'.clock o (by simp)).2
      exact Int.le_trans (Int.le_trans ho.clock_le.2 hlater) ho'.clock_le.1
    have hmissing : ∀ {cs o} {n : ℤ}, Observes key c.now' cs o → o.1.cmd = .ttl key →
        c.now' + seconds * 10 ^ 6 ≤ o.1.clock →
        b'.replyAfter hashBytes cs o = .ok (.int n) → n = -2 := by
      intro cs o n ho hcmd hge hn
      rw [hb'.reply_missing hK' ho hge, hcmd] at hn
      exact (Reply.int.inj (Except.ok.inj hn)).symm
    -- If the later reply is before the deadline so is the earlier one; else it is the least.
    rcases Int.lt_or_le o'.1.clock (c.now' + seconds * 10 ^ 6) with hlt' | hge'
    · have hlt := Int.lt_of_le_of_lt hle hlt'
      rw [(hb'.ttl_before hK' ho hcmd hlt hint).1] at hn
      rw [(hb'.ttl_before hK' ho' hcmd' hlt' hint).1] at hn'
      obtain rfl := Reply.int.inj (Except.ok.inj hn)
      obtain rfl := Reply.int.inj (Except.ok.inj hn')
      omega
    · obtain rfl := hmissing ho' hcmd' hge' hn'
      rcases Int.lt_or_le o.1.clock (c.now' + seconds * 10 ^ 6) with hlt | hge
      · obtain ⟨hreply, hone, -⟩ := hb'.ttl_before hK' ho hcmd hlt hint
        rw [hreply] at hn
        obtain rfl := Reply.int.inj (Except.ok.inj hn)
        omega
      · exact Int.le_of_eq (hmissing ho hcmd hge hn).symm
  exact := by
    intro hmin hmax
    rw [minTimestamp] at hmin
    rw [endTimestamp] at hmax
    refine ⟨?_, fun t ht ht' => ?_⟩
    · simp only [Fits]
      omega
    · simp only [Fits]
      omega

/-- It fails if the key has another expiry, or none: `EXISTS` shows it. -/
theorem not_expiryLaw (hb : b.Sound hashBytes K) (hb' : b'.Sound hashBytes K')
    (hcheck : checkKeyLen c.lim key = .ok ()) (hK : K key = some x)
    (hx : x.isExpired c.now = false) {x' : Cell} (hK' : K' key = some x')
    (hne : x'.expireAt ≠ some (c.now' + seconds * 10 ^ 6)) (hpos : 0 < seconds) :
    ¬ExpiryLaw hashBytes b b' c key seconds := by
  intro h
  have hobs : ∀ t, c.now' ≤ t →
      Observes key c.now' [] (⟨c.lim, t, t, .exists? key⟩, enough) := fun t ht =>
    ⟨rfl, rfl, hcheck, by simp [Command.Text, Command.field?], by simp, ht, Int.le_refl _, by simp⟩
  -- `EXISTS` replies whether the cell has not expired.
  have hexists : ∀ {b : Backend} {K : Cells} {x : Cell} {t t' : ℤ}, b.Sound hashBytes K →
      K key = some x → b.replyAfter hashBytes [] (⟨c.lim, t, t', .exists? key⟩, enough) =
        .ok (.bool !x.isExpired t) := by
    intro b K x t t' hb hK
    have hreply := (hb.exec_reads enough (c := ⟨c.lim, t, t', .exists? key⟩) rfl hcheck
      (by simp [Command.Text, Command.field?])).2
    rw [replyAfter]
    refine hreply.trans ?_
    simp only [Command.key, hK]
    rw [Cell.perform, Cell.query, Cell.found]
    cases x.isExpired t <;> rfl
  have hpos' : c.now' < c.now' + seconds * 10 ^ 6 := by omega
  cases hexp : x'.isExpired (c.now' + seconds * 10 ^ 6) with
  | false =>
    -- It outlives the deadline.
    have hmissing := h.missing [] _ (hobs _ (Int.le_of_lt hpos')) (Int.le_refl _)
    rw [hexists hb' hK', hexp] at hmissing
    exact absurd hmissing (by simp [Command.missing])
  | true =>
    -- It is gone before the deadline.
    obtain ⟨v, _ | e⟩ := x'
    · exact absurd hexp Bool.false_ne_true
    have hle := Cell.isExpired_iff.1 hexp
    have hlt : max c.now' e < c.now' + seconds * 10 ^ 6 :=
      max_lt hpos' (lt_of_le_of_ne hle fun heq => hne (congrArg some heq))
    have hvalue := h.value [] _ (hobs (max c.now' e) (le_max_left _ _)) (by simp) hlt
    rw [hexists hb' hK', hexists hb hK, hx, Cell.isExpired_iff.2 (le_max_right c.now' e)] at hvalue
    exact absurd hvalue (by simp)

/-- In session mode an `EXPIRE` that replies true has set the expiry. -/
theorem Sound.exec_expire_session (h : b.Sound hashBytes K) (hm : b.mode = .session)
    {ok : StoreSite → Bool} (hcmd : c.cmd = .expire key seconds) (hpos : 0 < seconds)
    (hreply : (b.exec hashBytes ok c).2 = .ok (.bool true)) :
    c.cmd.check c.lim = .ok () ∧ ∃ x K', K key = some x ∧ x.isExpired c.now = false ∧
      (b.exec hashBytes ok c).1.Sound hashBytes K' ∧
      K' key = some ⟨x.value, some (c.now' + seconds * 10 ^ 6)⟩ := by
  obtain ⟨ht, hs⟩ := h.session hm
  have htyped := ht.call c
  rw [exec_session hm] at hreply ⊢
  simp only [Session.call, Session.exec] at htyped hreply ⊢
  cases hcheck : c.cmd.check c.lim with
  | error err =>
    rw [hcheck] at hreply
    exact absurd hreply (by simp [Except.mapError])
  | ok u =>
    rw [hcheck, hcmd] at hreply htyped
    rw [hcmd]
    obtain ⟨hreply', hs'⟩ := @Session.expire_shows _ _ key c.now c.now' seconds hs
    simp only [Session.perform] at hreply htyped ⊢
    rw [hreply', Cell.expire] at hreply
    rw [Cell.expire] at hs'
    cases hfound : Cell.found c.now (K key) with
    | none =>
      rw [hfound] at hreply
      exact absurd hreply (by simp [Except.mapError])
    | some x =>
      obtain ⟨hK, hx⟩ := Cell.found_eq_some hfound
      rw [hfound] at hs'
      simp only [if_neg (Int.not_le.2 hpos)] at hs'
      exact ⟨trivial, x, _, hK, hx, sound_session hm htyped hs', Function.update_self ..⟩

/-- In shared mode it has left the cell as it was. -/
theorem Sound.exec_expire_shared (h : b.Sound hashBytes K) (hm : b.mode = .shared)
    {ok : StoreSite → Bool} (hcmd : c.cmd = .expire key seconds) (hpos : 0 < seconds)
    (hreply : (b.exec hashBytes ok c).2 = .ok (.bool true)) :
    c.cmd.check c.lim = .ok () ∧ ∃ x K', K key = some x ∧ x.isExpired c.now = false ∧
      (b.exec hashBytes ok c).1.Sound hashBytes K' ∧ K' key = some ⟨x.value, x.expireAt⟩ := by
  have hS := h.shared hm
  rw [exec_shared hm] at hreply ⊢
  simp only [SharedStore.exec] at hreply ⊢
  cases hcheck : c.cmd.check c.lim with
  | error err =>
    rw [hcheck] at hreply
    exact absurd hreply (by simp)
  | ok u =>
    rw [hcheck, hcmd] at hreply
    rw [hcmd]
    simp only [SharedStore.perform] at hreply ⊢
    rcases hS.lookup c.now key with ⟨hnone, -, -⟩ | ⟨e, x, hl, he, hK, hfound, -⟩
    · have hpair : b.shared.lookup c.now key = ((b.shared.lookup c.now key).1, none) :=
        Prod.ext rfl hnone
      rw [SharedStore.expire, hpair] at hreply
      exact absurd hreply (by simp)
    · -- The writeback has succeeded: it has published something, and changed nothing.
      have hev : (b.shared.expire hashBytes ok c.now key seconds).2.1 ≠ [] := by
        rw [SharedStore.expire, hl] at hreply ⊢
        simp only [if_neg (Int.not_le.2 hpos), he, SharedStore.markDirty] at hreply ⊢
        split at hreply
        · exact absurd hreply (by simp)
        · simp [Entry.events]
      exact ⟨trivial, x, K, hK, (Cell.found_eq_some hfound).2,
        sound_shared hm (SharedStore.expire_published hS hev), hK⟩

/-- An `EXPIRE` that replies true, and the cell it leaves: in shared mode the one there was. -/
theorem Sound.exec_expire (h : b.Sound hashBytes K) {ok : StoreSite → Bool}
    (hcmd : c.cmd = .expire key seconds) (hpos : 0 < seconds)
    (hreply : (b.exec hashBytes ok c).2 = .ok (.bool true)) :
    checkKeyLen c.lim key = .ok () ∧ ∃ x K', K key = some x ∧ x.isExpired c.now = false ∧
      (b.exec hashBytes ok c).1.Sound hashBytes K' ∧ K' key = some ⟨x.value,
        if b.mode = .session then some (c.now' + seconds * 10 ^ 6) else x.expireAt⟩ := by
  have hcheck : c.cmd.check c.lim = checkKeyLen c.lim key := by rw [hcmd]; rfl
  rw [← hcheck]
  cases hm : b.mode with
  | session => exact h.exec_expire_session hm hcmd hpos hreply
  | shared => exact h.exec_expire_shared hm hcmd hpos hreply

/-- For every keyspace with cells, every key and every positive number of seconds: after an
    `EXPIRE` that replied true, the law holds if and only if the storage mode is session, or the
    key had that expiry before. -/
theorem expiry_law_iff (hb : b.Sound hashBytes K) {ok : StoreSite → Bool}
    (hcmd : c.cmd = .expire key seconds) (hpos : 0 < seconds) (hint : seconds < 2 ^ 31)
    (hreply : (b.exec hashBytes ok c).2 = .ok (.bool true)) :
    ExpiryLaw hashBytes b (b.exec hashBytes ok c).1 c key seconds ↔
      b.mode = .session ∨
        ∃ x, K key = some x ∧ x.expireAt = some (c.now' + seconds * 10 ^ 6) := by
  obtain ⟨hcheck, x, K', hK, hx, hb', hK'⟩ := hb.exec_expire hcmd hpos hreply
  have hmode : (b.exec hashBytes ok c).1.mode = b.mode := mode_exec ok c
  constructor
  · intro hlaw
    by_contra hno
    rw [not_or] at hno
    rw [if_neg hno.1] at hK'
    refine not_expiryLaw hb hb' hcheck hK hx hK' (fun heq => hno.2 ⟨x, hK, heq⟩) hpos hlaw
  · intro hcond
    refine expiryLaw_of_deadline hb hb' hmode hK hx ?_ hpos hint
    rcases hcond with hm | ⟨y, hy, hexp⟩
    · rw [hK', if_pos hm]
    · obtain rfl := Option.some.inj (hK.symm.trans hy)
      rw [hK', hexp, ite_self]

/-- A backend after `SET k v`. -/
def withKey (mode : StorageMode) : Backend :=
  ((⟨mode, .init, .empty⟩ : Backend).exec (fun _ => 0) enough
    ⟨⟨0, 0⟩, 0, 0, .set [107] [118]⟩).1

theorem sound_withKey (mode : StorageMode) : ∃ K, (withKey mode).Sound (fun _ => 0) K := by
  obtain ⟨K, hK, -⟩ := (@sound_init (fun _ => 0) mode).exec enough
    (c := ⟨⟨0, 0⟩, 0, 0, .set [107] [118]⟩) (by simp [Command.Text, Command.field?])
  exact ⟨K, hK⟩

/-- The `EXPIRE k 60` called at 5 and 6. -/
def expireCall : Call := ⟨⟨0, 0⟩, 5, 6, .expire [107] 60⟩

/-- After `SET k v` in session mode the law holds of `EXPIRE k 60`. -/
theorem expiry_law_in_session : ExpiryLaw (fun _ => 0) (withKey .session)
    ((withKey .session).exec (fun _ => 0) enough expireCall).1 expireCall [107] 60 := by
  obtain ⟨K, hK⟩ := sound_withKey .session
  exact (@expiry_law_iff _ _ _ _ expireCall _ hK enough rfl (by decide) (by decide) rfl).2
    (.inl rfl)

/-- After `SET k v` in shared mode it does not: a minute later the key is still there. -/
theorem expiry_law_fails_in_shared :
    ¬∀ (hashBytes : Bytes → UInt32) (b : Backend) (K : Cells) (ok : StoreSite → Bool) (c : Call)
      (key : Key) (seconds : ℤ), b.Sound hashBytes K → c.cmd = .expire key seconds →
      0 < seconds → seconds < 2 ^ 31 → (b.exec hashBytes ok c).2 = .ok (.bool true) →
      ExpiryLaw hashBytes b (b.exec hashBytes ok c).1 c key seconds := by
  intro h
  obtain ⟨K, hK⟩ := sound_withKey .shared
  have hlaw := h (fun _ => 0) (withKey .shared) K enough expireCall [107] 60 hK rfl (by decide)
    (by decide) rfl
  have hmissing := hlaw.missing [] (⟨⟨0, 0⟩, 60000006, 60000006, .exists? [107]⟩, enough)
    ⟨rfl, rfl, rfl, by simp [Command.Text, Command.field?], by simp, by decide, by decide,
      by simp⟩ (by decide)
  exact absurd (hmissing.symm.trans (show _ = Except.ok (Reply.bool true) from rfl))
    (by simp [Command.missing])

end

end Backend

end PgRedis
