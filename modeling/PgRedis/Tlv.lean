import PgRedis.Durable

/-!
# Encoded values

The encoding of strings and integers in the column `value` of `pgredis.store`
(`binval.c`): a tag, the length of the payload in four bytes, and the payload.
Integers and lengths are little-endian.
-/

namespace PgRedis

/-- `PG_REDIS_TLV_STRING`. -/
def tlvString : UInt8 := 1

/-- `PG_REDIS_TLV_INT`. -/
def tlvInt : UInt8 := 2

/-- `PG_REDIS_TLV_HEADER_SIZE`. -/
def tlvHeaderSize : ℕ := 5

/-- The `n` low bytes of `v`, lowest first: `put_u32_le`, `put_i64_le`. -/
def putLe : (n v : ℕ) → Bytes
  | 0, _ => []
  | n + 1, v => UInt8.ofNat v :: putLe n (v / 256)

/-- The number with the given bytes, lowest first: `get_u32_le`, `get_i64_le`. -/
def getLe : Bytes → ℕ
  | [] => 0
  | b :: bs => b.toNat + 256 * getLe bs

/-- `pg_redis_encode_value` of a string. -/
def encodeString (s : Bytes) : Bytes := tlvString :: putLe 4 s.length ++ s

/-- `pg_redis_encode_value` of an integer, stored as its unsigned bits. -/
def encodeInt (i : ℤ) : Bytes := tlvInt :: putLe 4 8 ++ putLe 8 (i % 2 ^ 64).toNat

/-- `decode_header`: the payload, if the tag and the declared length fit. -/
def decodeHeader (tag : UInt8) (raw : Bytes) : Option Bytes :=
  if raw.length < tlvHeaderSize then none
  else if raw.head? ≠ some tag then none
  else if getLe ((raw.drop 1).take 4) + tlvHeaderSize ≠ raw.length then none
  else some (raw.drop tlvHeaderSize)

/-- `pg_redis_decode_string`. -/
def decodeString (raw : Bytes) : Option Bytes := decodeHeader tlvString raw

/-- `pg_redis_decode_int`. -/
def decodeInt (raw : Bytes) : Option ℤ :=
  match decodeHeader tlvInt raw with
  | none => none
  | some payload =>
    if payload.length ≠ 8 then none else some (Int.bmod (getLe payload) (2 ^ 64))

/-! ## Round trips -/

@[simp] theorem length_putLe (n v : ℕ) : (putLe n v).length = n := by
  induction n generalizing v with
  | zero => rfl
  | succ n ih => rw [putLe, List.length_cons, ih]

theorem length_encodeInt (i : ℤ) : (encodeInt i).length = tlvHeaderSize + 8 := by
  simp [encodeInt, tlvHeaderSize]

theorem getLe_putLe (n v : ℕ) : getLe (putLe n v) = v % 256 ^ n := by
  induction n generalizing v with
  | zero => rw [putLe, getLe, Nat.pow_zero, Nat.mod_one]
  | succ n ih =>
    rw [putLe, getLe, ih, UInt8.toNat_ofNat', Nat.pow_succ 256, Nat.mul_comm (256 ^ n), Nat.mod_mul]

/-- A header is read back, if the length fits its four bytes. -/
theorem decodeHeader_cons (tag : UInt8) {payload : Bytes} (h : payload.length < 2 ^ 32) :
    decodeHeader tag (tag :: putLe 4 payload.length ++ payload) = some payload := by
  have hlen : (tag :: putLe 4 payload.length ++ payload).length = payload.length + 5 := by
    simp only [List.cons_append, List.length_cons, List.length_append, length_putLe]
    omega
  have htake : ((tag :: putLe 4 payload.length ++ payload).drop 1).take 4 =
      putLe 4 payload.length := by
    rw [List.cons_append, List.drop_succ_cons, List.drop_zero,
      List.take_left' (length_putLe 4 _)]
  have hdrop : (tag :: putLe 4 payload.length ++ payload).drop 5 = payload := by
    rw [List.cons_append, List.drop_succ_cons, List.drop_left' (length_putLe 4 _)]
  have hmod : payload.length % 256 ^ 4 = payload.length :=
    Nat.mod_eq_of_lt (Nat.lt_of_lt_of_eq h (by decide))
  rw [decodeHeader, hlen, htake, getLe_putLe, hmod, if_neg (by simp [tlvHeaderSize]),
    if_neg (by simp), if_neg (by simp [tlvHeaderSize])]
  exact congrArg some hdrop

theorem decodeString_encodeString {s : Bytes} (h : s.length < 2 ^ 32) :
    decodeString (encodeString s) = some s :=
  decodeHeader_cons tlvString h

theorem decodeInt_encodeInt (i : ℤ) : decodeInt (encodeInt i) = some (Int.bmod i (2 ^ 64)) := by
  have hheader : decodeHeader tlvInt (encodeInt i) = some (putLe 8 (i % 2 ^ 64).toNat) := by
    rw [encodeInt, ← length_putLe 8 (i % 2 ^ 64).toNat]
    exact decodeHeader_cons tlvInt (by rw [length_putLe]; decide)
  have hbits : (((i % 2 ^ 64).toNat % 256 ^ 8 : ℕ) : ℤ) = i % (2 ^ 64 : ℕ) := by omega
  rw [decodeInt, hheader]
  simp only [length_putLe, ne_eq, not_true_eq_false, if_false, getLe_putLe]
  rw [hbits, Int.emod_bmod]

/-! ## What is accepted -/

theorem getLe_lt (bs : Bytes) : getLe bs < 256 ^ bs.length := by
  induction bs with
  | nil => exact Nat.one_pos
  | cons b bs ih =>
    have hb := b.toNat_lt
    rw [getLe, List.length_cons, Nat.pow_succ]
    omega

theorem putLe_getLe (bs : Bytes) : putLe bs.length (getLe bs) = bs := by
  induction bs with
  | nil => rfl
  | cons b bs ih =>
    have hb := b.toNat_lt
    have hhead : UInt8.ofNat (b.toNat + 256 * getLe bs) = b := by
      rw [← UInt8.toNat_inj, UInt8.toNat_ofNat']
      omega
    have htail : (b.toNat + 256 * getLe bs) / 256 = getLe bs := by omega
    rw [List.length_cons, getLe, putLe, hhead, htail, ih]

/-- An accepted header is the one written for its payload. -/
theorem decodeHeader_eq_some_iff {tag : UInt8} {raw payload : Bytes} :
    decodeHeader tag raw = some payload ↔
      payload.length < 2 ^ 32 ∧ raw = tag :: putLe 4 payload.length ++ payload := by
  refine ⟨fun h => ?_, fun ⟨hlen, h⟩ => h ▸ decodeHeader_cons tag hlen⟩
  rw [decodeHeader, tlvHeaderSize] at h
  split_ifs at h with hshort htag hdeclared
  obtain rfl := Option.some.inj h
  rw [not_not] at htag hdeclared
  rcases raw with _ | ⟨t, bs⟩
  · exact absurd hshort (by simp)
  · rw [List.length_cons] at hshort hdeclared
    rw [List.head?_cons, Option.some.injEq] at htag
    have htake : (bs.take 4).length = 4 := by rw [List.length_take]; omega
    have hlt := getLe_lt (bs.take 4)
    have hput := putLe_getLe (bs.take 4)
    rw [htake] at hlt hput
    simp only [List.drop_succ_cons, List.drop_zero, List.length_drop] at hdeclared ⊢
    have hpayload : bs.length - 4 = getLe (bs.take 4) := by omega
    rw [hpayload, hput, htag, List.cons_append, List.take_append_drop]
    exact ⟨hlt, rfl⟩

/-- Of two accepted bodies, none is the beginning of the other. -/
theorem decodeHeader_prefix {tag tag' : UInt8} {raw raw' payload payload' : Bytes}
    (h : decodeHeader tag raw = some payload) (h' : decodeHeader tag' raw' = some payload')
    (hpre : raw <+: raw') : raw = raw' := by
  obtain ⟨hlen, rfl⟩ := decodeHeader_eq_some_iff.1 h
  obtain ⟨hlen', rfl⟩ := decodeHeader_eq_some_iff.1 h'
  simp only [List.cons_append] at hpre
  obtain ⟨-, hrest⟩ := List.cons_prefix_cons.1 hpre
  -- The four bytes of the length are the same, hence so are the lengths.
  have htake : putLe 4 payload.length = putLe 4 payload'.length := by
    have hput := List.prefix_of_prefix_length_le ((List.prefix_append _ _).trans hrest)
      (List.prefix_append _ _) (by simp)
    exact hput.eq_of_length (by simp)
  have hsame : payload.length = payload'.length := by
    have hget := congrArg getLe htake
    rwa [getLe_putLe, getLe_putLe, Nat.mod_eq_of_lt (Nat.lt_of_lt_of_eq hlen (by decide)),
      Nat.mod_eq_of_lt (Nat.lt_of_lt_of_eq hlen' (by decide))] at hget
  exact hpre.eq_of_length (by simp [hsame])

theorem decodeString_eq_some_iff {raw s : Bytes} :
    decodeString raw = some s ↔ s.length < 2 ^ 32 ∧ raw = encodeString s :=
  decodeHeader_eq_some_iff

/-- The eight bytes of an integer of 64 bits, and back. -/
theorem putLe_bmod {bs : Bytes} (h : bs.length = 8) :
    putLe 8 (Int.bmod (getLe bs) (2 ^ 64) % 2 ^ 64).toNat = bs := by
  have hlt := getLe_lt bs
  have hput := putLe_getLe bs
  rw [h] at hlt hput
  have hbits : (Int.bmod (getLe bs) (2 ^ 64) % 2 ^ 64).toNat = getLe bs := by
    rw [Int.bmod_def]
    omega
  rw [hbits, hput]

theorem decodeInt_eq_some_iff {raw : Bytes} {i : ℤ} :
    decodeInt raw = some i ↔ (-2 ^ 63 ≤ i ∧ i < 2 ^ 63) ∧ raw = encodeInt i := by
  constructor
  · intro h
    rw [decodeInt] at h
    cases hheader : decodeHeader tlvInt raw with
    | none => rw [hheader] at h; exact absurd h (by simp)
    | some payload =>
      obtain ⟨-, rfl⟩ := decodeHeader_eq_some_iff.1 hheader
      simp only [hheader] at h
      split_ifs at h with hlen
      rw [not_not] at hlen
      obtain rfl := Option.some.inj h
      refine ⟨?_, by rw [encodeInt, putLe_bmod hlen, hlen]⟩
      have hlo := Int.le_bmod (x := getLe payload) (m := 2 ^ 64) (by decide)
      have hhi := Int.bmod_lt (x := getLe payload) (m := 2 ^ 64) (by decide)
      omega
  · rintro ⟨hi, rfl⟩
    rw [decodeInt_encodeInt, Int.bmod_def]
    congr 1
    omega

end PgRedis
