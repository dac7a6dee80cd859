import Mathlib
import PgRedis.Cell
import PgRedis.Lib.SelfDelimiting

/-!
# Snapshots

`SAVE` walks the keyspace and writes one JSON text: an array with an object for every key that
has not expired, of its name, its type, its value and its expiry.

The text can be read again. `Element` is what an object says of a key, and `document` the text
of a list of them: no two lists of elements have the same text (`document_injective`), since
every part of it is self-delimiting (`PgRedis.Lib.SelfDelimiting`). `escape_json` and the
texts it is given are C strings: all this is about texts without NUL bytes.
-/

namespace PgRedis

open Lib

/-- The bytes of a text of the source. -/
def ascii (s : String) : Bytes := s.toList.map fun c => UInt8.ofNat c.toNat

/-! ## The walk of `SAVE` -/

/-- A hexadecimal digit, as `%x` prints it. -/
def hexDigit (n : ℕ) : UInt8 := if n < 10 then UInt8.ofNat (48 + n) else UInt8.ofNat (87 + n)

/-- What `escape_json` appends for a byte. -/
def escapeByte (c : UInt8) : Bytes :=
  if c = 8 then ascii "\\b"
  else if c = 12 then ascii "\\f"
  else if c = 10 then ascii "\\n"
  else if c = 13 then ascii "\\r"
  else if c = 9 then ascii "\\t"
  else if c = 34 then ascii "\\\""
  else if c = 92 then ascii "\\\\"
  else if c < 32 then ascii "\\u00" ++ [hexDigit (c.toNat / 16), hexDigit (c.toNat % 16)]
  else [c]

/-- `escape_json`. -/
def escapeJson (s : Bytes) : Bytes := ascii "\"" ++ (cstr s).flatMap escapeByte ++ ascii "\""

/-- `pg_redis_type_name`. -/
def ValueType.name : ValueType → Bytes
  | .string => ascii "string"
  | .int => ascii "int"
  | .hash => ascii "hash"
  | .list => ascii "list"

/-- `serialize_entry_value_json`. The last case is not met: the union is that of the type. -/
def Entry.serializeValueJson (e : Entry) : Bytes :=
  match e.type, e.value with
  | .string, .str s => ascii "\x7b" ++ ascii "\"value\":" ++ escapeJson s ++ ascii "\x7d"
  -- The null pointer.
  | .string, .word _ => ascii "\x7b" ++ ascii "\"value\":" ++ ascii "\"\"" ++ ascii "\x7d"
  | .int, .word i => ascii "\x7b\"value\":" ++ formatInt64 i ++ ascii "\x7d"
  | .hash, .hash h => ascii "\x7b\"fields\":\x7b" ++
      sepBy (ascii ",") (fun f => escapeJson f.1 ++ ascii ":" ++ escapeJson f.2.value) true
        h.fields.toList ++ ascii "\x7d\x7d"
  | .hash, .word _ => ascii "\x7b\"fields\":\x7b" ++ ascii "\x7d\x7d"
  | .list, .list l => ascii "\x7b\"items\":[" ++
      sepBy (ascii ",") (fun n => escapeJson n.value) true l.nodes ++ ascii "]\x7d"
  | .list, .word _ => ascii "\x7b\"items\":[" ++ ascii "]\x7d"
  | _, _ => []

/-- The object of an entry; `timestamptzOut` prints a time. -/
def Entry.snapshotJson (timestamptzOut : ℤ → Bytes) (key : Key) (e : Entry) : Bytes :=
  ascii "\x7b" ++ ascii "\"key\":" ++ escapeJson key ++ ascii ",\"type\":" ++
    escapeJson e.type.name ++ ascii ",\"value\":" ++ e.serializeValueJson ++
    (match e.expireAt with
      | none => []
      | some t => ascii ",\"expire_at\":" ++ escapeJson (timestamptzOut t)) ++
    ascii "\x7d"

/-- The row of `pgredis.snapshots`. -/
structure Snapshot where
  keyCount : ℤ
  payload : Bytes
  deriving DecidableEq, Repr

/-- `pg_redis_persistence_save_snapshot`, up to the insertion of the row. `clock` is the time
    at which the walk is at a key. -/
def Session.saveSnapshot (timestamptzOut : ℤ → Bytes) (clock : Key → ℤ) (s : Session) :
    Snapshot :=
  let es := s.store.toList.filter fun e => !e.2.isExpired (clock e.1)
  ⟨es.length, ascii "[" ++
    sepBy (ascii ",") (fun e => e.2.snapshotJson timestamptzOut e.1) true es ++ ascii "]"⟩

/-! ## Elements -/

/-- The value of an element. -/
inductive Shown
  | str (s : Bytes)
  | int (i : ℤ)
  | hash (fields : List (Field × Bytes))
  | list (items : List Bytes)
  deriving DecidableEq, Repr

/-- An element of a snapshot: a key with its value and the text of its expiry. -/
structure Element where
  key : Key
  value : Shown
  expireAt : Option Bytes
  deriving DecidableEq, Repr

namespace Shown

/-- The type of the value. -/
def type : Shown → ValueType
  | str _ => .string
  | int _ => .int
  | hash _ => .hash
  | list _ => .list

/-- The value as text. -/
def json : Shown → Bytes
  | str s => ascii "\x7b\"value\":" ++ (escapeJson s ++ ascii "\x7d")
  | int i => ascii "\x7b\"value\":" ++ (formatInt64 i ++ ascii "\x7d")
  | hash fields => ascii "\x7b\"fields\":\x7b" ++
      (sepBy (ascii ",") (fun f => escapeJson f.1 ++ ascii ":" ++ escapeJson f.2) true fields ++
        ascii "\x7d" ++ ascii "\x7d")
  | list items => ascii "\x7b\"items\":[" ++
      (sepBy (ascii ",") escapeJson true items ++ ascii "]" ++ ascii "\x7d")

/-- The texts of the value are C strings. -/
def NulFree : Shown → Prop
  | str s => 0 ∉ s
  | int _ => True
  | hash fields => ∀ f ∈ fields, 0 ∉ f.1 ∧ 0 ∉ f.2
  | list items => ∀ v ∈ items, 0 ∉ v

/-- The value is the one of a key: of a hash each field once, of a list the values in their
    order. -/
def Shows : Shown → View → Prop
  | str s, .str o => o = some s
  | int i, .int j => i = j
  | hash fields, .hash m =>
    (fields.map Prod.fst).Nodup ∧ ∀ f v, (f, v) ∈ fields ↔ m.lookup f = some v
  | list items, .list vs => items = vs
  | _, _ => False

end Shown

namespace Element

/-- The text that the element ends with, behind its value. -/
def tail : Option Bytes → Bytes
  | none => ascii "\x7d"
  | some t => ascii ",\"expire_at\":" ++ (escapeJson t ++ ascii "\x7d")

/-- The element as text. -/
def json (el : Element) : Bytes :=
  ascii "\x7b\"key\":" ++ (escapeJson el.key ++ (ascii ",\"type\":" ++
    (escapeJson el.value.type.name ++ (ascii ",\"value\":" ++ (el.value.json ++
      tail el.expireAt)))))

/-- The texts of the element are C strings. -/
structure NulFree (el : Element) : Prop where
  key : 0 ∉ el.key
  value : el.value.NulFree
  expireAt : ∀ t, el.expireAt = some t → 0 ∉ t

end Element

/-- The text of a snapshot. -/
def document (els : List Element) : Bytes :=
  ascii "[" ++ sepBy (ascii ",") Element.json true els ++ ascii "]"

/-! ## The text can be read -/

theorem cstr_eq_self {s : Bytes} (h : 0 ∉ s) : cstr s = s := by
  rw [cstr, List.takeWhile_eq_self_iff]
  exact fun c hc => decide_eq_true fun heq => h (heq ▸ hc)

theorem escapeByte_eq_self {c : UInt8} (hc : ¬c < 32) (hq : c ≠ 34) (hb : c ≠ 92) :
    escapeByte c = [c] := by
  have hne : ∀ d : UInt8, d < 32 → c ≠ d := fun d hd heq => hc (heq ▸ hd)
  rw [escapeByte, if_neg (hne 8 (by decide)), if_neg (hne 12 (by decide)),
    if_neg (hne 10 (by decide)), if_neg (hne 13 (by decide)), if_neg (hne 9 (by decide)), if_neg hq,
    if_neg hb, if_neg hc]

/-- A hexadecimal digit read. -/
def readHex (c : UInt8) : ℕ := if c < 58 then c.toNat - 48 else c.toNat - 87

/-- The byte that a text starts with, as `escape_json` prints it. -/
def readByte : Bytes → UInt8
  | 92 :: 98 :: _ => 8
  | 92 :: 102 :: _ => 12
  | 92 :: 110 :: _ => 10
  | 92 :: 114 :: _ => 13
  | 92 :: 116 :: _ => 9
  | 92 :: 117 :: _ :: _ :: h :: l :: _ => UInt8.ofNat (16 * readHex h + readHex l)
  | 92 :: c :: _ => c
  | c :: _ => c
  | [] => 0

theorem readByte_escapeByte (c : UInt8) (u : Bytes) : readByte (escapeByte c ++ u) = c := by
  by_cases hc : c < 32
  · have hcontrol : ∀ n < 32, readByte (escapeByte (UInt8.ofNat n) ++ u) = UInt8.ofNat n := by
      intro n hn
      interval_cases n <;> rfl
    have hself := hcontrol c.toNat hc
    rwa [UInt8.ofNat_toNat] at hself
  · by_cases hq : c = 34
    · rw [hq]
      rfl
    · by_cases hb : c = 92
      · rw [hb]
        rfl
      · rw [escapeByte_eq_self hc hq hb, List.singleton_append]
        -- Not a backslash: only the case of a byte on its own matches.
        unfold readByte
        split <;> simp_all

theorem selfDelimiting_escapeByte : SelfDelimiting (fun _ => True) escapeByte :=
  .of_read readByte fun c u _ => readByte_escapeByte c u

theorem startsOff_escapeByte : StartsOff 34 (fun _ => True) escapeByte := by
  intro c _
  by_cases hc : c < 32
  · have hcontrol : ∀ n < 32, ∃ l, escapeByte (UInt8.ofNat n) = 92 :: l := by
      intro n hn
      interval_cases n <;> exact ⟨_, rfl⟩
    obtain ⟨l, hl⟩ := hcontrol c.toNat hc
    rw [UInt8.ofNat_toNat] at hl
    exact ⟨92, l, hl, by decide⟩
  · by_cases hq : c = 34
    · exact ⟨92, [34], by rw [hq]; rfl, by decide⟩
    · by_cases hb : c = 92
      · exact ⟨92, [92], by rw [hb]; rfl, by decide⟩
      · exact ⟨c, [], escapeByte_eq_self hc hq hb, hq⟩

/-- A C string as `escape_json` prints it. -/
theorem selfDelimiting_escapeJson : SelfDelimiting (fun s => 0 ∉ s) escapeJson := by
  have hbody : SelfDelimiting (fun s : Bytes => ∀ c ∈ s, True) fun s =>
      ascii "\"" ++ (s.flatMap escapeByte ++ [34]) :=
    (selfDelimiting_escapeByte.flatMap startsOff_escapeByte).append_left _
  intro s t u v hs ht heq
  have htext : ∀ s : Bytes, 0 ∉ s →
      escapeJson s = ascii "\"" ++ (s.flatMap escapeByte ++ [34]) := by
    intro s hs
    rw [escapeJson, cstr_eq_self hs, List.append_assoc]
    rfl
  rw [htext s hs, htext t ht] at heq
  exact hbody s t u v (fun _ _ => trivial) (fun _ _ => trivial) heq

/-- The text of an integer is made of digits and a sign. -/
theorem mem_toString {i : ℤ} {c : Char} (hc : c ∈ (toString i).toList) :
    c.isDigit = true ∨ c = '-' := by
  have hnat : ∀ n : ℕ, c ∈ (Nat.repr n).toList → c.isDigit = true := by
    intro n hn
    rw [Nat.repr, String.toList_ofList] at hn
    exact Nat.isDigit_of_mem_toDigits (by decide) (by decide) hn
  cases i with
  | ofNat n => exact .inl (hnat n hc)
  | negSucc n =>
    have hc : c ∈ ("-" ++ Nat.repr (n + 1)).toList := hc
    rw [String.toList_append, List.mem_append] at hc
    rcases hc with hc | hc
    · exact .inr (List.mem_singleton.1 hc)
    · exact .inl (hnat _ hc)

theorem toNat_le_of_mem_toString {i : ℤ} {c : Char} (hc : c ∈ (toString i).toList) :
    c.toNat ≤ 57 ∧ c.toNat ≠ 34 := by
  rcases mem_toString hc with hd | rfl
  · rw [Char.isDigit, Bool.and_eq_true, decide_eq_true_eq, decide_eq_true_eq] at hd
    have h₀ : 48 ≤ c.toNat := hd.1
    have h₉ : c.toNat ≤ 57 := hd.2
    exact ⟨h₉, by omega⟩
  · decide

/-- The characters of a printed integer, from its bytes. -/
theorem map_formatInt64 (i : ℤ) :
    (formatInt64 i).map (fun b => Char.ofNat b.toNat) = (toString i).toList := by
  rw [formatInt64, List.map_map]
  refine (List.map_congr_left fun c hc => ?_).trans (List.map_id _)
  have hlt : c.toNat < 256 := Nat.lt_of_le_of_lt (toNat_le_of_mem_toString hc).1 (by decide)
  rw [Function.comp_apply, UInt8.toNat_ofNat', Nat.mod_eq_of_lt hlt, Char.ofNat_toNat, id]

theorem formatInt64_injective : Function.Injective formatInt64 := by
  intro i j heq
  have hchars : (toString i).toList = (toString j).toList := by
    rw [← map_formatInt64, heq, map_formatInt64]
  exact Int.repr_injective (String.toList_inj.1 hchars)

theorem not_mem_formatInt64 {i : ℤ} {b : UInt8} (hb : b = 34 ∨ 57 < b.toNat) :
    b ∉ formatInt64 i := by
  intro hmem
  obtain ⟨c, hc, rfl⟩ := List.mem_map.1 hmem
  obtain ⟨hle, hne⟩ := toNat_le_of_mem_toString hc
  have htoNat : (UInt8.ofNat c.toNat).toNat = c.toNat := by
    rw [UInt8.toNat_ofNat', Nat.mod_eq_of_lt (by omega)]
  rcases hb with hq | hlt
  · rw [hq] at htoNat
    exact hne htoNat.symm
  · omega

/-! ### Values -/

theorem startsOff_escapeJson {t : UInt8} (ht : t ≠ 34) (P : Bytes → Prop) :
    StartsOff t P escapeJson :=
  fun s _ => ⟨34, (cstr s).flatMap escapeByte ++ ascii "\"", by rw [escapeJson]; rfl, ht.symm⟩

/-- A field of a hash with its value. -/
theorem selfDelimiting_field : SelfDelimiting (fun f : Field × Bytes => 0 ∉ f.1 ∧ 0 ∉ f.2)
    fun f => escapeJson f.1 ++ ascii ":" ++ escapeJson f.2 := by
  rintro ⟨f, v⟩ ⟨f', v'⟩ u u' hf hf' heq
  simp only [List.append_assoc] at heq
  obtain ⟨rfl, hrest⟩ := selfDelimiting_escapeJson f f' _ _ hf.1 hf'.1 heq
  obtain ⟨rfl, huu⟩ := selfDelimiting_escapeJson v v' u u' hf.2 hf'.2
    (List.append_cancel_left hrest)
  exact ⟨rfl, huu⟩

theorem selfDelimiting_fields :
    SelfDelimiting (fun fields : List (Field × Bytes) => ∀ f ∈ fields, 0 ∉ f.1 ∧ 0 ∉ f.2)
      fun fields => sepBy (ascii ",") (fun f => escapeJson f.1 ++ ascii ":" ++ escapeJson f.2)
        true fields ++ ascii "\x7d" :=
  selfDelimiting_field.sepBy
    (fun f _ => by
      obtain ⟨a, l, hl, ha⟩ :=
        startsOff_escapeJson (t := 125) (by decide) (fun _ => True) f.1 trivial
      exact ⟨a, l ++ ascii ":" ++ escapeJson f.2, by simp only [hl]; rfl, ha⟩)
    (by decide)

theorem selfDelimiting_items :
    SelfDelimiting (fun items : List Bytes => ∀ v ∈ items, 0 ∉ v)
      fun items => sepBy (ascii ",") escapeJson true items ++ ascii "]" :=
  selfDelimiting_escapeJson.sepBy (startsOff_escapeJson (by decide) _) (by decide)

theorem selfDelimiting_int :
    SelfDelimiting (fun _ : ℤ => True) fun i => formatInt64 i ++ ascii "\x7d" :=
  .terminated (fun _ _ _ _ heq => formatInt64_injective heq) fun i _ =>
    not_mem_formatInt64 (.inr (by decide))

/-- A string is not an integer: only the one starts with a quote. -/
theorem escapeJson_ne_formatInt64 (s : Bytes) (i : ℤ) (u v : Bytes) :
    escapeJson s ++ u ≠ formatInt64 i ++ ascii "\x7d" ++ v := by
  intro heq
  obtain ⟨l, hl⟩ : ∃ l, escapeJson s ++ u = 34 :: l := ⟨_, by rw [escapeJson]; rfl⟩
  rw [hl] at heq
  cases hi : formatInt64 i with
  | nil =>
    rw [hi] at heq
    exact absurd (List.cons.inj heq).1 (by decide)
  | cons b bs =>
    rw [hi] at heq
    have hb : b ∈ formatInt64 i := hi ▸ List.mem_cons_self
    rw [← (List.cons.inj heq).1] at hb
    exact not_mem_formatInt64 (.inl rfl) hb

theorem Shown.selfDelimiting_json : SelfDelimiting Shown.NulFree Shown.json := by
  -- The third byte tells a scalar, a hash and a list from each other.
  intro x y u v hx hy heq
  have hthird := congrArg (fun l : Bytes => l[2]?) heq
  cases x with
  | str s =>
    cases y with
    | str t =>
      simp only [json, List.append_assoc] at heq
      obtain ⟨rfl, hrest⟩ := selfDelimiting_escapeJson s t _ _ hx hy (List.append_cancel_left heq)
      exact ⟨rfl, List.append_cancel_left hrest⟩
    | int i =>
      simp only [json, List.append_assoc] at heq
      refine absurd (List.append_cancel_left heq) ?_
      rw [← List.append_assoc (formatInt64 i)]
      exact escapeJson_ne_formatInt64 s i _ v
    | hash => exact absurd (show some (118 : UInt8) = some 102 from hthird) (by decide)
    | list => exact absurd (show some (118 : UInt8) = some 105 from hthird) (by decide)
  | int i =>
    cases y with
    | str t =>
      simp only [json, List.append_assoc] at heq
      refine absurd (List.append_cancel_left heq).symm ?_
      rw [← List.append_assoc (formatInt64 i)]
      exact escapeJson_ne_formatInt64 t i _ u
    | int j =>
      simp only [json, List.append_assoc] at heq
      obtain ⟨rfl, hrest⟩ := selfDelimiting_int i j u v trivial trivial
        (by simpa only [List.append_assoc] using List.append_cancel_left heq)
      exact ⟨rfl, hrest⟩
    | hash => exact absurd (show some (118 : UInt8) = some 102 from hthird) (by decide)
    | list => exact absurd (show some (118 : UInt8) = some 105 from hthird) (by decide)
  | hash fields =>
    cases y with
    | str | int => exact absurd (show some (102 : UInt8) = some 118 from hthird) (by decide)
    | list => exact absurd (show some (102 : UInt8) = some 105 from hthird) (by decide)
    | hash fields' =>
      simp only [json, List.append_assoc] at heq
      obtain ⟨rfl, hrest⟩ := selfDelimiting_fields fields fields' _ _ hx hy
        (by simpa only [List.append_assoc] using List.append_cancel_left heq)
      exact ⟨rfl, List.append_cancel_left hrest⟩
  | list items =>
    cases y with
    | str | int => exact absurd (show some (105 : UInt8) = some 118 from hthird) (by decide)
    | hash => exact absurd (show some (105 : UInt8) = some 102 from hthird) (by decide)
    | list items' =>
      simp only [json, List.append_assoc] at heq
      obtain ⟨rfl, hrest⟩ := selfDelimiting_items items items' _ _ hx hy
        (by simpa only [List.append_assoc] using List.append_cancel_left heq)
      exact ⟨rfl, List.append_cancel_left hrest⟩

/-! ### Elements -/

namespace Element

theorem selfDelimiting_tail :
    SelfDelimiting (fun o : Option Bytes => ∀ t, o = some t → 0 ∉ t) tail := by
  intro o o' u v ho ho' heq
  have hfirst := congrArg (fun l : Bytes => l[0]?) heq
  cases o with
  | none =>
    cases o' with
    | none => exact ⟨rfl, List.append_cancel_left heq⟩
    | some => exact absurd (show some (125 : UInt8) = some 44 from hfirst) (by decide)
  | some t =>
    cases o' with
    | none => exact absurd (show some (44 : UInt8) = some 125 from hfirst) (by decide)
    | some t' =>
      simp only [tail, List.append_assoc] at heq
      obtain ⟨rfl, hrest⟩ := selfDelimiting_escapeJson t t' _ _ (ho t rfl) (ho' t' rfl)
        (List.append_cancel_left heq)
      exact ⟨rfl, List.append_cancel_left hrest⟩

theorem selfDelimiting_json : SelfDelimiting NulFree json := by
  have hname : ∀ t : ValueType, 0 ∉ t.name := by
    intro t
    cases t <;> decide
  rintro ⟨key, value, x⟩ ⟨key', value', x'⟩ u v h h' heq
  simp only [json, List.append_assoc] at heq
  obtain ⟨rfl, htype⟩ := selfDelimiting_escapeJson key key' _ _ h.key h'.key
    (List.append_cancel_left heq)
  obtain ⟨-, hvalue⟩ := selfDelimiting_escapeJson _ _ _ _ (hname _) (hname _)
    (List.append_cancel_left htype)
  obtain ⟨rfl, htail⟩ := Shown.selfDelimiting_json value value' _ _ h.value h'.value
    (List.append_cancel_left hvalue)
  obtain ⟨rfl, huv⟩ := selfDelimiting_tail x x' u v h.expireAt h'.expireAt htail
  exact ⟨rfl, huv⟩

end Element

/-- No two lists of elements are written as the same text. -/
theorem document_injective {els els' : List Element} (h : ∀ el ∈ els, el.NulFree)
    (h' : ∀ el ∈ els', el.NulFree) (heq : document els = document els') : els = els' := by
  have hlist : SelfDelimiting (fun els : List Element => ∀ el ∈ els, el.NulFree)
      fun els => sepBy (ascii ",") Element.json true els ++ ascii "]" :=
    Element.selfDelimiting_json.sepBy (fun el _ => ⟨123, _, rfl, by decide⟩) (by decide)
  simp only [document, List.append_assoc] at heq
  exact hlist.injOn h h' (List.append_cancel_left heq)

/-! ## What the walk writes -/

/-- What the walk shows of an entry. A null string is shown as an empty one. -/
def Entry.shown (e : Entry) : Shown :=
  match e.type, e.value with
  | .string, .str s => .str s
  | .int, .word i => .int i
  | .hash, .hash h => .hash (h.fields.toList.map fun f => (f.1, f.2.value))
  | .hash, _ => .hash []
  | .list, .list l => .list (l.nodes.map ListNode.value)
  | .list, _ => .list []
  | _, _ => .str []

/-- The element of an entry. -/
def Entry.element (timestamptzOut : ℤ → Bytes) (key : Key) (e : Entry) : Element :=
  ⟨key, e.shown, e.expireAt.map fun t => cstr (timestamptzOut t)⟩

/-- The elements of a snapshot. -/
def Session.elements (timestamptzOut : ℤ → Bytes) (clock : Key → ℤ) (s : Session) :
    List Element :=
  (s.store.toList.filter fun e => !e.2.isExpired (clock e.1)).map fun e =>
    e.2.element timestamptzOut e.1

theorem escapeJson_cstr (s : Bytes) : escapeJson (cstr s) = escapeJson s := by
  rw [escapeJson, escapeJson, cstr, cstr, List.takeWhile_takeWhile]
  simp

namespace Entry

variable {e : Entry} {timestamptzOut : ℤ → Bytes} {key : Key}

theorem type_shown (h : e.content.isSome) : e.shown.type = e.type := by
  obtain ⟨type, value, x, n, b⟩ := e
  cases type <;> cases value <;> first
    | rfl
    | exact absurd h (by simp [content])

theorem serializeValueJson_eq (h : e.content.isSome) : e.serializeValueJson = e.shown.json := by
  obtain ⟨type, value, x, n, b⟩ := e
  cases type <;> cases value
  case string.str s =>
    simp only [serializeValueJson, shown, Shown.json, List.append_assoc]
    rfl
  case int.word i => simp only [serializeValueJson, shown, Shown.json, List.append_assoc]
  case string.word => rfl
  case hash.hash m =>
    simp only [serializeValueJson, shown, Shown.json, sepBy_map, List.append_assoc]
    rfl
  case list.list l =>
    simp only [serializeValueJson, shown, Shown.json, sepBy_map, List.append_assoc]
    rfl
  all_goals exact absurd h (by simp [content])

theorem snapshotJson_eq (h : e.content.isSome) :
    e.snapshotJson timestamptzOut key = (e.element timestamptzOut key).json := by
  rw [snapshotJson, Element.json, element, serializeValueJson_eq h, type_shown h]
  cases e.expireAt with
  | none =>
    simp only [Option.map_none, Element.tail, List.append_assoc]
    rfl
  | some t =>
    simp only [Option.map_some, Element.tail, escapeJson_cstr, List.append_assoc]
    rfl

end Entry

/-- The payload is the text of the elements, and the count their number. -/
theorem Session.saveSnapshot_eq {s : Session} (hw : s.WellTyped) (timestamptzOut : ℤ → Bytes)
    (clock : Key → ℤ) : s.saveSnapshot timestamptzOut clock =
      ⟨(s.elements timestamptzOut clock).length, document (s.elements timestamptzOut clock)⟩ := by
  rw [saveSnapshot, elements, document, sepBy_map, List.length_map]
  rw [sepBy_congr (ascii ",") true fun e he => Entry.snapshotJson_eq
    (hw (Prod.fst e) (Prod.snd e) (Htab.mem_toList.1 (List.mem_of_mem_filter he)))]

/-! ## What an element says of a key -/

/-- A value as commands leave it, its texts being SQL text: a string is not null. -/
def View.Printable : View → Prop
  | .str o => ∃ s, o = some s ∧ 0 ∉ s
  | .int _ => True
  | .hash m => ∀ f v, m.lookup f = some v → 0 ∉ f ∧ 0 ∉ v
  | .list vs => ∀ v ∈ vs, 0 ∉ v

/-- A walk over the fields of a hash meets each once. -/
theorem Hash.shown_fields {h : Hash} {m : Finmap fun _ : Field => Bytes}
    (hm : ∀ f, (h.fields.lookup f).map HashField.value = m.lookup f) :
    (Shown.hash (h.fields.toList.map fun f => (f.1, f.2.value))).Shows (.hash m) := by
  refine ⟨?_, fun f v => ?_⟩
  · rw [List.map_map]
    exact h.fields.nodup_keys_toList
  · rw [← hm, Option.map_eq_some_iff, List.mem_map]
    constructor
    · rintro ⟨⟨f', x⟩, hx, heq⟩
      obtain ⟨rfl, rfl⟩ := Prod.mk.inj heq
      exact ⟨x, Htab.mem_toList.1 hx, rfl⟩
    · rintro ⟨x, hx, rfl⟩
      exact ⟨(f, x), Htab.mem_toList.2 hx, rfl⟩

/-- The walk shows of an entry the value of the cell it holds. -/
theorem Entry.Shows.shown {e : Entry} {c : Cell} (h : e.Shows c) (hc : c.value.Printable) :
    e.shown.Shows c.value ∧ e.shown.NulFree := by
  rcases h.cases with ⟨ht, ⟨s, hv, hcv⟩ | ⟨-, hcv⟩⟩ | ⟨i, ht, hv, hcv⟩ |
    ⟨ht, m, hcv, ⟨hv, rfl⟩ | ⟨x, hv, hm⟩⟩ | ⟨ht, vs, hcv, ⟨hv, rfl⟩ | ⟨l, hv, rfl, -⟩⟩ <;>
    rw [hcv] at hc ⊢
  · obtain ⟨t, heq, hnul⟩ := hc
    obtain rfl := Option.some.inj heq
    rw [Entry.shown, ht, hv]
    exact ⟨rfl, hnul⟩
  · obtain ⟨t, heq, -⟩ := hc
    exact absurd heq (by simp)
  · rw [Entry.shown, ht, hv]
    exact ⟨rfl, trivial⟩
  · rw [Entry.shown, ht, hv]
    exact ⟨⟨.nil, fun f v => by simp⟩, fun f hf => absurd hf List.not_mem_nil⟩
  · have hshown := Hash.shown_fields hm
    rw [Entry.shown, ht, hv]
    exact ⟨hshown, fun f hf => hc f.1 f.2 ((hshown.2 f.1 f.2).1 hf)⟩
  · rw [Entry.shown, ht, hv]
    exact ⟨rfl, fun v hv => absurd hv List.not_mem_nil⟩
  · rw [Entry.shown, ht, hv]
    exact ⟨rfl, hc⟩

end PgRedis
