import PgRedis.Session.Flush

/-!
# Encoded entries

The encoding of `binval.c` read from both ends. The decoders are given a varlena, whose
header has one or four bytes; the loaders pass it detoasted, with the header of four bytes
(`Varlena.detoasted`).

A body is accepted by the decoder of strings (of integers) if and only if it is the encoding
of the string (of the integer) that is returned (`decodeString_detoasted_iff`,
`decodeInt_detoasted_iff`). What becomes of a damaged encoding follows.
-/

namespace PgRedis

/-- `VARHDRSZ`. -/
def varhdrsz : ℕ := 4

/-- A varlena: the size of its header, and its body. -/
structure Varlena where
  headerSize : ℕ
  body : Bytes

namespace Varlena

/-- A varlena as `DatumGetByteaP` detoasts it. -/
def detoasted (body : Bytes) : Varlena := ⟨varhdrsz, body⟩

/-- `VARSIZE_ANY`. -/
def sizeAny (raw : Varlena) : ℕ := raw.headerSize + raw.body.length

/-- `VARSIZE_ANY_EXHDR`. -/
def sizeAnyExhdr (raw : Varlena) : ℕ := raw.body.length

/-- `decode_header`: the payload, if the tag and the declared length fit. -/
def decodeHeader (tag : UInt8) (raw : Varlena) : Option Bytes :=
  if raw.sizeAny < varhdrsz + tlvHeaderSize then none
  else if raw.sizeAnyExhdr < tlvHeaderSize then none
  else if raw.body.head? ≠ some tag then none
  else if getLe ((raw.body.drop 1).take 4) + tlvHeaderSize ≠ raw.sizeAnyExhdr then none
  else some (raw.body.drop tlvHeaderSize)

/-- `pg_redis_decode_string`. -/
def decodeString (raw : Varlena) : Option Bytes := raw.decodeHeader tlvString

/-- `pg_redis_decode_int`. -/
def decodeInt (raw : Varlena) : Option ℤ :=
  match raw.decodeHeader tlvInt with
  | none => none
  | some payload =>
    if payload.length ≠ 8 then none else some (Int.bmod (getLe payload) (2 ^ 64))

/-- Behind a header of four bytes, the two checks of the length are one. -/
theorem decodeHeader_detoasted (tag : UInt8) (body : Bytes) :
    (detoasted body).decodeHeader tag = PgRedis.decodeHeader tag body := by
  have hsize : (detoasted body).sizeAny < varhdrsz + tlvHeaderSize ↔ body.length < tlvHeaderSize :=
    Nat.add_lt_add_iff_left
  have hbody : (detoasted body).body = body := rfl
  rw [decodeHeader, PgRedis.decodeHeader, sizeAnyExhdr, hbody]
  simp only [hsize]
  split_ifs <;> rfl

theorem decodeString_detoasted (body : Bytes) :
    (detoasted body).decodeString = PgRedis.decodeString body :=
  decodeHeader_detoasted tlvString body

theorem decodeInt_detoasted (body : Bytes) :
    (detoasted body).decodeInt = PgRedis.decodeInt body := by
  rw [decodeInt, decodeHeader_detoasted]
  rfl

end Varlena

/-- A value of an entry with a column of its own. -/
inductive Scalar
  | string (s : Bytes)
  | int (i : ℤ)
  deriving DecidableEq, Repr

namespace Scalar

/-- The body that `pg_redis_encode_value` writes. -/
def encode : Scalar → Bytes
  | string s => encodeString s
  | int i => encodeInt i

/-- The value fits its encoding: a length that leaves room for the header in 32 bits, an
    integer of 64 bits. -/
def Fits : Scalar → Prop
  | string s => s.length < 2 ^ 32 - 5
  | int i => -2 ^ 63 ≤ i ∧ i < 2 ^ 63

/-- The tag of the encoding. -/
def tag : Scalar → UInt8
  | string _ => tlvString
  | int _ => tlvInt

/-- The type of the entry. -/
def type : Scalar → ValueType
  | string _ => .string
  | int _ => .int

/-- What the decoder of a type reads in a body. -/
def decodeAs : ValueType → Bytes → Option Scalar
  | .string, b => (Varlena.detoasted b).decodeString.map string
  | .int, b => (Varlena.detoasted b).decodeInt.map int
  | _, _ => none

end Scalar

namespace Entry

/-- The value of a `STRING` or an `INT` entry. A null string has length zero. -/
def scalar (e : Entry) : Option Scalar :=
  match e.content with
  | some (.str s) => some (.string (s.getD []))
  | some (.int i) => some (.int i)
  | _ => none

theorem encodeValue_of_str {e : Entry} {s : Option Bytes} (h : e.content = some (.str s)) :
    e.encodeValue = some (encodeString (s.getD [])) := by
  rw [content] at h
  split at h <;> simp_all [encodeValue]
  all_goals subst h; rfl

theorem encodeValue_of_int {e : Entry} {i : ℤ} (h : e.content = some (.int i)) :
    e.encodeValue = some (encodeInt i) := by
  rw [content] at h
  split at h <;> simp_all [encodeValue]

theorem encodeValue_of_scalar {e : Entry} {v : Scalar} (h : e.scalar = some v) :
    e.encodeValue = some v.encode := by
  rw [scalar] at h
  split at h
  next s hs =>
    obtain rfl := Option.some.inj h
    exact encodeValue_of_str hs
  next i hi =>
    obtain rfl := Option.some.inj h
    exact encodeValue_of_int hi
  next => exact absurd h (by simp)

end Entry

namespace Scalar

variable {t u : ValueType} {b b' : Bytes} {v w : Scalar}

/-- What the encoding of a value reads back as. -/
theorem decodeAs_encode (h : v.Fits) : decodeAs v.type v.encode = some v := by
  cases v with
  | string s =>
    have hlen : s.length < 2 ^ 32 := Nat.lt_of_lt_of_le h (Nat.sub_le _ _)
    rw [type, decodeAs, encode, Varlena.decodeString_detoasted, decodeString_encodeString hlen,
      Option.map_some]
  | int i =>
    have hval : decodeInt (encodeInt i) = some i := decodeInt_eq_some_iff.2 ⟨h, rfl⟩
    rw [type, decodeAs, encode, Varlena.decodeInt_detoasted, hval, Option.map_some]

/-- An accepted body is the encoding of what is returned. -/
theorem eq_encode_of_decodeAs (h : decodeAs t b = some v) : v.type = t ∧ b = v.encode := by
  cases t with
  | string =>
    rw [decodeAs, Varlena.decodeString_detoasted] at h
    obtain ⟨s, hs, rfl⟩ := Option.map_eq_some_iff.1 h
    exact ⟨rfl, (decodeString_eq_some_iff.1 hs).2⟩
  | int =>
    rw [decodeAs, Varlena.decodeInt_detoasted] at h
    obtain ⟨i, hi, rfl⟩ := Option.map_eq_some_iff.1 h
    exact ⟨rfl, (decodeInt_eq_some_iff.1 hi).2⟩
  | hash | list => exact absurd h (by simp [decodeAs])

/-- An accepted body has an accepted header. -/
theorem isSome_decodeHeader (h : decodeAs t b = some v) :
    ∃ payload, decodeHeader v.tag b = some payload := by
  cases t with
  | string =>
    rw [decodeAs, Varlena.decodeString_detoasted] at h
    obtain ⟨s, hs, rfl⟩ := Option.map_eq_some_iff.1 h
    exact ⟨s, hs⟩
  | int =>
    rw [decodeAs, Varlena.decodeInt_detoasted] at h
    obtain ⟨i, hi, rfl⟩ := Option.map_eq_some_iff.1 h
    rw [decodeInt] at hi
    split at hi
    next => exact absurd hi (by simp)
    next payload hpayload => exact ⟨payload, hpayload⟩
  | hash | list => exact absurd h (by simp [decodeAs])

theorem head?_encode (v : Scalar) : v.encode.head? = some v.tag := by
  cases v <;> rfl

theorem tag_injective (h : v.tag = w.tag) : v.type = w.type := by
  cases v <;> cases w
  · rfl
  · exact absurd h (show tlvString ≠ tlvInt by decide)
  · exact absurd h (show tlvInt ≠ tlvString by decide)
  · rfl

theorem tag_eq_of_type (h : v.type = w.type) : v.tag = w.tag := by
  cases v <;> cases w <;> simp_all [type, tag]

/-- Of two accepted bodies, none is the beginning of the other. -/
theorem eq_of_isPrefix (h : decodeAs t b = some v) (h' : decodeAs u b' = some w)
    (hpre : b <+: b') : b = b' := by
  obtain ⟨_, hheader⟩ := isSome_decodeHeader h
  obtain ⟨_, hheader'⟩ := isSome_decodeHeader h'
  exact decodeHeader_prefix hheader hheader' hpre

theorem encode_injective (hv : v.Fits) (hw : w.Fits) (h : v.encode = w.encode) : v = w := by
  have htype : v.type = w.type := tag_injective <| Option.some.inj <| by
    rw [← head?_encode, ← head?_encode, h]
  have hdec := decodeAs_encode hv
  rw [htype, h, decodeAs_encode hw] at hdec
  exact (Option.some.inj hdec).symm

/-- No body is read as a string and as an integer. -/
theorem type_unique (h : decodeAs t b = some v) (h' : decodeAs u b = some w) : t = u := by
  obtain ⟨rfl, rfl⟩ := eq_encode_of_decodeAs h
  obtain ⟨rfl, heq⟩ := eq_encode_of_decodeAs h'
  exact tag_injective <| Option.some.inj <| by rw [← head?_encode, ← head?_encode, heq]

theorem decodeAs_truncated (hv : v.Fits) (hpre : b <+: v.encode) (hne : b ≠ v.encode) :
    decodeAs t b = none :=
  Option.eq_none_iff_forall_ne_some.2 fun _ hw =>
    hne (eq_of_isPrefix hw (decodeAs_encode hv) hpre)

theorem decodeAs_extended (hv : v.Fits) (hpre : v.encode <+: b) (hne : b ≠ v.encode) :
    decodeAs t b = none :=
  Option.eq_none_iff_forall_ne_some.2 fun _ hw =>
    hne (eq_of_isPrefix (decodeAs_encode hv) hw hpre).symm

/-- Under another tag, the decoder of the value's type rejects the encoding. -/
theorem decodeAs_retagged {tag : UInt8} (hne : tag ≠ v.tag) :
    decodeAs v.type (tag :: v.encode.tail) = none :=
  Option.eq_none_iff_forall_ne_some.2 fun w hw => by
    obtain ⟨htype, henc⟩ := eq_encode_of_decodeAs hw
    have hhead := head?_encode w
    rw [← henc, List.head?_cons, Option.some.injEq] at hhead
    exact hne (hhead.trans (tag_eq_of_type htype))

/-- Under a tag that is neither of the two, every decoder rejects it. -/
theorem decodeAs_unknown {tag : UInt8} (hs : tag ≠ tlvString) (hi : tag ≠ tlvInt) :
    decodeAs t (tag :: b) = none :=
  Option.eq_none_iff_forall_ne_some.2 fun w hw => by
    obtain ⟨-, henc⟩ := eq_encode_of_decodeAs hw
    have hhead := head?_encode w
    rw [← henc, List.head?_cons, Option.some.injEq] at hhead
    cases w with
    | string => exact hs hhead
    | int => exact hi hhead

end Scalar

/-- The encoding and the decoders are inverse to each other: the decoder of its type returns
    the value of every entry that fits, and whatever a decoder accepts is the encoding of
    what it returns. -/
theorem tlv_codec :
    (∀ (e : Entry) (v : Scalar), e.scalar = some v → v.Fits →
      ∃ b, e.encodeValue = some b ∧ Scalar.decodeAs v.type b = some v) ∧
    (∀ t b v, Scalar.decodeAs t b = some v → v.type = t ∧ b = v.encode) ∧
    (∀ v w : Scalar, v.Fits → w.Fits → v.encode = w.encode → v = w) ∧
    (∀ b t u v w, Scalar.decodeAs t b = some v → Scalar.decodeAs u b = some w → t = u) ∧
    (∀ (v : Scalar) b t, v.Fits → b ≠ v.encode → b <+: v.encode ∨ v.encode <+: b →
      Scalar.decodeAs t b = none) ∧
    ∀ (v : Scalar) tag, tag ≠ v.tag → Scalar.decodeAs v.type (tag :: v.encode.tail) = none ∧
      (tag ≠ tlvString → tag ≠ tlvInt → ∀ t, Scalar.decodeAs t (tag :: v.encode.tail) = none) := by
  refine ⟨fun e v he hv => ?_, fun t b v => Scalar.eq_encode_of_decodeAs,
    fun v w => Scalar.encode_injective, fun b t u v w => Scalar.type_unique,
    fun v b t hv hne hpre => ?_, fun v tag htag => ⟨?_, fun hs hi t => ?_⟩⟩
  · exact ⟨_, Entry.encodeValue_of_scalar he, Scalar.decodeAs_encode hv⟩
  · rcases hpre with hpre | hpre
    · exact Scalar.decodeAs_truncated hv hpre hne
    · exact Scalar.decodeAs_extended hv hpre hne
  · exact Scalar.decodeAs_retagged htag
  · exact Scalar.decodeAs_unknown hs hi

/-- The string `hi`, the integer -1, and what both decoders say of the body of the integer without
    its last byte. -/
theorem tlv_codec_hi :
    (∃ b, (⟨.string, .str [104, 105], none, 1, false⟩ : Entry).encodeValue = some b ∧
      Scalar.decodeAs .string b = some (.string [104, 105])) ∧
    (∃ b, (⟨.int, .word (-1), none, 1, false⟩ : Entry).encodeValue = some b ∧
      Scalar.decodeAs .int b = some (.int (-1))) ∧
    ∀ t, Scalar.decodeAs t ((Scalar.int (-1)).encode.take 12) = none :=
  ⟨tlv_codec.1 _ (.string [104, 105]) rfl (by simp [Scalar.Fits]),
    tlv_codec.1 _ (.int (-1)) rfl ⟨by decide, by decide⟩,
    fun t => tlv_codec.2.2.2.2.1 (.int (-1)) _ t ⟨by decide, by decide⟩ (by decide)
      (.inl (List.take_prefix _ _))⟩

end PgRedis
