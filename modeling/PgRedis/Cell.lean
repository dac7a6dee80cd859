import PgRedis.Session.Command
import PgRedis.SharedHash.Map
import PgRedis.SharedList

/-!
# What a key holds

The commands of one client, as functions of what its keys hold: a string, an integer, a map
of fields or a list of values, and an expiry (`Cell`). Nothing is left of tables, nodes,
ordinals and marks. The storage modes differ in what a command leaves behind
(`View.stored`): in shared mode an empty string comes back as a null one and a list value
cut to what a 16-bit length says, and `EXPIRE` sets no expiry.

`Entry.Shows` relates an entry of the backend, or the copy of a shared one, to a cell. The
bodies of the commands on entries are those on cells (`UpdateSim`, `QuerySim`).
-/

namespace PgRedis

open Lib

/-- `storage_mode`. -/
inductive StorageMode
  | session
  | shared
  deriving DecidableEq, Repr

/-- The value of a key; a string may be null. -/
inductive View
  | str (s : Option Bytes)
  | int (i : ℤ)
  | hash (m : Finmap fun _ : Field => Bytes)
  | list (vs : List Bytes)

namespace View

/-- The type of the value. -/
def type : View → ValueType
  | str _ => .string
  | int _ => .int
  | hash _ => .hash
  | list _ => .list

/-- What is found again of a value once a command has left it. -/
def stored : StorageMode → View → View
  | .shared, str (some []) => str none
  | .shared, list vs => list (vs.map clip)
  | _, v => v

@[simp] theorem type_stored (mode : StorageMode) (v : View) : (v.stored mode).type = v.type := by
  cases mode with
  | session => rfl
  | shared =>
    cases v with
    | str s => rcases s with _ | _ | _ <;> rfl
    | int | hash | list => rfl

theorem stored_stored (mode : StorageMode) (v : View) :
    (v.stored mode).stored mode = v.stored mode := by
  cases mode with
  | session => rfl
  | shared =>
    cases v with
    | str s => rcases s with _ | _ | _ <;> rfl
    | list vs => simp [stored]
    | int | hash => rfl

end View

/-- The value of a key and its expiry. -/
structure Cell where
  value : View
  expireAt : Option ℤ

namespace Cell

/-- Whether the expiry has passed. -/
def isExpired (c : Cell) (now : ℤ) : Bool :=
  match c.expireAt with
  | none => false
  | some t => now ≥ t

/-- The cell a command leaves. -/
def stored (mode : StorageMode) (c : Cell) : Cell := { c with value := c.value.stored mode }

/-- The cell of a key just made. -/
def fresh : Cell := ⟨.str none, none⟩

/-- The cell an upsert finds, and whether it is new. -/
def upserted (now : ℤ) : Option Cell → Cell × Bool
  | none => (fresh, true)
  | some c => if c.isExpired now then (fresh, true) else (c, false)

/-! ## The bodies of the commands -/

/-- `SET`. -/
def set (value : Bytes) (_ : Bool) (c : Cell) : Except EntryError (Cell × Reply) :=
  .ok (⟨.str (some value), c.expireAt⟩, .bool true)

/-- The integer a cell holds for `INCR` and `DECR`. -/
def counter (isNew : Bool) (c : Cell) : Except EntryError ℤ :=
  if isNew then .ok 0
  else match c.value with
    | .str none => .error .notInteger
    | .str (some s) => match parseInt64 s with
      | none => .error .notInteger
      | some i => .ok i
    | .int i => .ok i
    | v => .error (.wrongType v.type .int)

/-- `INCR` and `DECR`. -/
def incrdecr (delta : ℤ) (isNew : Bool) (c : Cell) : Except EntryError (Cell × Reply) :=
  match c.counter isNew with
  | .error err => .error err
  | .ok i => .ok (⟨.int (Int.bmod (i + delta) (2 ^ 64)), c.expireAt⟩,
      .int (Int.bmod (i + delta) (2 ^ 64)))

/-- The map `HSET` works on. -/
def hashOrCreate (isNew : Bool) (c : Cell) : Finmap fun _ : Field => Bytes :=
  match isNew, c.value with
  | false, .hash m => m
  | _, _ => ∅

/-- `HSET`. -/
def hset (field : Field) (value : Bytes) (isNew : Bool) (c : Cell) :
    Except EntryError (Cell × Reply) :=
  if !isNew && c.value.type ≠ .hash then .error (.wrongType c.value.type .hash)
  else .ok (⟨.hash ((c.hashOrCreate isNew).insert field value), c.expireAt⟩,
    .bool (field ∉ c.hashOrCreate isNew))

/-- The list `LPUSH` and `RPUSH` work on. -/
def listOrCreate (isNew : Bool) (c : Cell) : List Bytes :=
  match isNew, c.value with
  | false, .list vs => vs
  | _, _ => []

/-- `LPUSH` and `RPUSH`. -/
def listPush (side : Side) (value : Bytes) (isNew : Bool) (c : Cell) :
    Except EntryError (Cell × Reply) :=
  if !isNew && c.value.type ≠ .list then .error (.wrongType c.value.type .list)
  else .ok (⟨.list (ListValue.atEnd value (c.listOrCreate isNew) side), c.expireAt⟩,
    .int ((c.listOrCreate isNew).length + 1))

/-- `GET`. -/
def get (c : Cell) : Except EntryError (Option Cell × Reply) :=
  match c.value with
  | .str s => .ok (none, .text s)
  | .int i => .ok (none, .text (some (formatInt64 i)))
  | v => .error (.wrongType v.type .string)

/-- A command on a hash. -/
def withHash (f : (Finmap fun _ : Field => Bytes) →
    Option (Finmap fun _ : Field => Bytes) × Reply) (c : Cell) :
    Except EntryError (Option Cell × Reply) :=
  match c.value with
  | .hash m => .ok ((f m).1.map fun m' => ⟨.hash m', c.expireAt⟩, (f m).2)
  | v => .error (.wrongType v.type .hash)

/-- `HGET`. -/
def hget (field : Field) : Cell → Except EntryError (Option Cell × Reply) :=
  withHash fun m => (none, .text (m.lookup field))

/-- `HEXISTS`. -/
def hexists (field : Field) : Cell → Except EntryError (Option Cell × Reply) :=
  withHash fun m => (none, .bool (field ∈ m))

/-- `HDEL`. -/
def hdel (field : Field) : Cell → Except EntryError (Option Cell × Reply) :=
  withHash fun m => (if field ∈ m then some (m.erase field) else none, .bool (field ∈ m))

/-- A command on a list. -/
def withList (f : List Bytes → Option (List Bytes) × Reply) (c : Cell) :
    Except EntryError (Option Cell × Reply) :=
  match c.value with
  | .list vs => .ok ((f vs).1.map fun vs' => ⟨.list vs', c.expireAt⟩, (f vs).2)
  | v => .error (.wrongType v.type .list)

/-- The value at an end of a list, and the others. -/
def popped : Side → List Bytes → Option (Bytes × List Bytes)
  | .left, [] => none
  | .left, v :: vs => some (v, vs)
  | .right, vs => vs.getLast?.map fun v => (v, vs.dropLast)

/-- `LPOP` and `RPOP`. -/
def listPop (side : Side) : Cell → Except EntryError (Option Cell × Reply) :=
  withList fun vs => ((popped side vs).map Prod.snd, .text ((popped side vs).map Prod.fst))

/-- `LLEN`. -/
def llen : Cell → Except EntryError (Option Cell × Reply) :=
  withList fun vs => (none, .int vs.length)

/-! ## The commands on one key -/

/-- A command that edits an upserted cell. -/
def update (mode : StorageMode) (now : ℤ) (key : Key)
    (f : Bool → Cell → Except EntryError (Cell × Reply)) (o : Option Cell) :
    Option Cell × Except CommandError Reply :=
  match f (upserted now o).2 (upserted now o).1 with
  | .error err => (some (upserted now o).1, .error (.entry key err))
  | .ok (c, r) => (some (c.stored mode), .ok r)

/-- The cell a lookup finds. -/
def found (now : ℤ) : Option Cell → Option Cell
  | none => none
  | some c => if c.isExpired now then none else some c

theorem found_eq_some {now : ℤ} {o : Option Cell} {c : Cell} (h : found now o = some c) :
    o = some c ∧ c.isExpired now = false := by
  cases o with
  | none => exact absurd h (by simp [found])
  | some c' =>
    simp only [found] at h
    split_ifs at h with hexp
    obtain rfl := Option.some.inj h
    exact ⟨rfl, by simpa using hexp⟩

theorem found_of_live {now : ℤ} {c : Cell} (h : c.isExpired now = false) :
    found now (some c) = some c := by
  rw [found, h, if_neg Bool.false_ne_true]

/-- What has expired stays so. -/
theorem isExpired_of_le {now t : ℤ} {c : Cell} (h : c.isExpired now = true) (hle : now ≤ t) :
    c.isExpired t = true := by
  obtain ⟨v, _ | d⟩ := c
  · exact absurd h Bool.false_ne_true
  · exact decide_eq_true (Int.le_trans (of_decide_eq_true h) hle)

/-- A command that reads or edits the cell it finds. -/
def query (mode : StorageMode) (now : ℤ) (key : Key) (missing : Reply)
    (f : Cell → Except EntryError (Option Cell × Reply)) (o : Option Cell) :
    Option Cell × Except CommandError Reply :=
  match found now o with
  | none => (none, .ok missing)
  | some c => match f c with
    | .error err => (some c, .error (.entry key err))
    | .ok (none, r) => (some c, .ok r)
    | .ok (some c', r) => (some (c'.stored mode), .ok r)

/-- The reading of the clock at which `HGET` and `HEXISTS` look their key up: in shared mode
    a second one, if at the first the cell has expired. -/
def lookupTime (mode : StorageMode) (now now' : ℤ) : Option Cell → ℤ
  | none => now
  | some c => match mode with
    | .session => now
    | .shared => if c.isExpired now then now' else now

/-- `EXPIRE`. -/
def expire (mode : StorageMode) (now now' : ℤ) (seconds : ℤ) (o : Option Cell) :
    Option Cell × Except CommandError Reply :=
  match found now o with
  | none => (none, .ok (.bool false))
  | some c =>
    if seconds ≤ 0 then (none, .ok (.bool true))
    else match mode with
      | .session => (some { c with expireAt := some (now' + seconds * 10 ^ 6) }, .ok (.bool true))
      | .shared => (some (c.stored .shared), .ok (.bool true))

/-- `TTL`. -/
def ttl (now now' : ℤ) (o : Option Cell) : Option Cell × Except CommandError Reply :=
  match found now o with
  | none => (none, .ok (.int (-2)))
  | some c => match c.expireAt with
    | none => (some c, .ok (.int (-1)))
    | some t =>
      if now' ≥ t then (none, .ok (.int (-2)))
      else (some c, .ok (.int (Int.bmod ((t - now' + 999999) / 1000000) (2 ^ 32))))

/-- A command, on what its key holds. -/
def perform (mode : StorageMode) (now now' : ℤ) (o : Option Cell) :
    Command → Option Cell × Except CommandError Reply
  | .set key value => update mode now key (set value) o
  | .get key => query mode now key (.text none) get o
  | .del _ => (none, .ok (.bool o.isSome))
  | .exists? key => query mode now key (.bool false) (fun _ => .ok (none, .bool true)) o
  | .expire _ seconds => expire mode now now' seconds o
  | .ttl _ => ttl now now' o
  | .incr key => update mode now key (incrdecr 1) o
  | .decr key => update mode now key (incrdecr (-1)) o
  | .hset key field value => update mode now key (hset field value) o
  | .hget key field => query mode (lookupTime mode now now' o) key (.text none) (hget field) o
  | .hdel key field => query mode now key (.bool false) (hdel field) o
  | .hexists key field =>
    query mode (lookupTime mode now now' o) key (.bool false) (hexists field) o
  | .push side key value => update mode now key (listPush side value) o
  | .pop side key => query mode now key (.text none) (listPop side) o
  | .llen key => query mode now key (.int 0) llen o

/-! ## What a command finds -/

/-- A key is missing or has expired, or is found as it is. -/
theorem upserted_cases (now : ℤ) (o : Option Cell) :
    (found now o = none ∧ upserted now o = (fresh, true)) ∨
      ∃ c, o = some c ∧ found now o = some c ∧ upserted now o = (c, false) := by
  cases o with
  | none => exact .inl ⟨rfl, rfl⟩
  | some c =>
    rw [found, upserted]
    split_ifs
    · exact .inl ⟨rfl, rfl⟩
    · exact .inr ⟨c, rfl, rfl, rfl⟩

/-- What an upsert finds depends on what a lookup finds. -/
theorem upserted_congr {now : ℤ} {o o' : Option Cell} (h : found now o = found now o') :
    upserted now o = upserted now o' := by
  rcases upserted_cases now o with ⟨ho, hup⟩ | ⟨c, -, ho, hup⟩ <;>
    rcases upserted_cases now o' with ⟨ho', hup'⟩ | ⟨c', -, ho', hup'⟩ <;> rw [hup, hup']
  · exact absurd (ho.symm.trans (h.trans ho')) (by simp)
  · exact absurd (ho.symm.trans (h.trans ho')) (by simp)
  · rw [Option.some.inj (ho.symm.trans (h.trans ho'))]

/-! ## What the bodies make -/

variable {c c' : Cell} {r : Reply} {isNew : Bool}

theorem type_of_set {value : Bytes} (h : set value isNew c = .ok (c', r)) :
    c'.value.type ≠ .hash := by
  obtain ⟨rfl, -⟩ := Prod.mk.inj (Except.ok.inj h)
  simp [View.type]

theorem exists_int_of_incrdecr {delta : ℤ} (h : incrdecr delta isNew c = .ok (c', r)) :
    ∃ i, c'.value = .int i := by
  rw [incrdecr] at h
  split at h
  · exact absurd h (by simp)
  · obtain ⟨rfl, -⟩ := Prod.mk.inj (Except.ok.inj h)
    exact ⟨_, rfl⟩

theorem type_of_incrdecr {delta : ℤ} (h : incrdecr delta isNew c = .ok (c', r)) :
    c'.value.type ≠ .hash := by
  obtain ⟨i, hi⟩ := exists_int_of_incrdecr h
  simp [hi, View.type]

theorem type_of_listPush {side : Side} {value : Bytes}
    (h : listPush side value isNew c = .ok (c', r)) : c'.value.type ≠ .hash := by
  rw [listPush] at h
  split_ifs at h
  obtain ⟨rfl, -⟩ := Prod.mk.inj (Except.ok.inj h)
  simp [View.type]

theorem type_of_withList {f : List Bytes → Option (List Bytes) × Reply}
    (h : withList f c = .ok (some c', r)) : c'.value.type ≠ .hash := by
  rw [withList] at h
  split at h
  · obtain ⟨hmap, -⟩ := Prod.mk.inj (Except.ok.inj h)
    obtain ⟨vs, -, rfl⟩ := Option.map_eq_some_iff.1 hmap
    simp [View.type]
  · exact absurd h (by simp)

theorem get_ne_some (c c' : Cell) (r : Reply) : c.get ≠ .ok (some c', r) := by
  rw [get]
  split <;> simp

theorem withHash_of_ne {f : (Finmap fun _ : Field => Bytes) →
    Option (Finmap fun _ : Field => Bytes) × Reply} {c : Cell} (h : c.value.type ≠ .hash) :
    withHash f c = .error (.wrongType c.value.type .hash) := by
  rw [withHash]
  split
  next hc => exact absurd (by rw [hc]; rfl) h
  next => rfl

theorem withList_of_ne {f : List Bytes → Option (List Bytes) × Reply} {c : Cell}
    (h : c.value.type ≠ .list) : withList f c = .error (.wrongType c.value.type .list) := by
  rw [withList]
  split
  next hc => exact absurd (by rw [hc]; rfl) h
  next => rfl

/-- A command on hashes that only reads. -/
theorem withHash_ne_some (f : (Finmap fun _ : Field => Bytes) → Reply) (c c' : Cell) (r : Reply) :
    withHash (fun m => (none, f m)) c ≠ .ok (some c', r) := by
  rw [withHash]
  split <;> simp

/-- A command on lists that only reads. -/
theorem withList_ne_some (f : List Bytes → Reply) (c c' : Cell) (r : Reply) :
    withList (fun vs => (none, f vs)) c ≠ .ok (some c', r) := by
  rw [withList]
  split <;> simp

end Cell

namespace Command

/-- The field a command is about. -/
def field? : Command → Option Field
  | hset _ field _ | hget _ field | hdel _ field | hexists _ field => some field
  | _ => none

theorem field_length_le {lim : Limits} {c : Command} {field : Field} (h : c.check lim = .ok ())
    (hf : c.field? = some field) : 1 ≤ field.length ∧ field.length ≤ maxFieldSize := by
  have hlen : ∀ {u : Unit}, checkFieldLen field = .ok u →
      1 ≤ field.length ∧ field.length ≤ maxFieldSize := fun h => by
    rw [checkFieldLen] at h
    split_ifs at h
    omega
  cases c <;> simp only [field?, Option.some.injEq, reduceCtorEq] at hf <;> subst hf <;>
    simp only [check, bind_eq_ok_iff] at h
  all_goals
    first
      | exact hlen h.choose_spec.2
      | exact hlen h.choose_spec.2.choose_spec.1

end Command

/-! ## The entries -/

/-- The union of an entry holds the value. An empty hash or list may be a null pointer. -/
def Payload.Shows : Payload → View → Prop
  | .str s, .str o => o = some s
  | .hash h, .hash m => ∀ f, (h.fields.lookup f).map HashField.value = m.lookup f
  | .list l, .list vs => l.nodes.map ListNode.value = vs ∧ l.length = vs.length
  | .word i, .str o => i = 0 ∧ o = none
  | .word i, .int j => i = j
  | .word i, .hash m => i = 0 ∧ m = ∅
  | .word i, .list vs => i = 0 ∧ vs = []
  | _, _ => False

/-- The entry holds the value of the cell, with its expiry. -/
structure Entry.Shows (e : Entry) (c : Cell) : Prop where
  type : e.type = c.value.type
  value : e.value.Shows c.value
  expireAt : e.expireAt = c.expireAt

section

variable {α β : Type*} {r : α → β → Prop} {a : α} {b : β} {o : Option α} {o' : Option β}

/-- Two related options are both there or both not. -/
theorem rel_cases (h : Option.Rel r o o') :
    (o = none ∧ o' = none) ∨ ∃ a b, o = some a ∧ o' = some b ∧ r a b := by
  cases h with
  | none => exact .inl ⟨rfl, rfl⟩
  | some h => exact .inr ⟨_, _, rfl, rfl, h⟩

theorem exists_of_rel_some (h : Option.Rel r (some a) o') : ∃ b, o' = some b ∧ r a b := by
  cases h with
  | some h => exact ⟨_, rfl, h⟩

theorem exists_of_rel_some_right (h : Option.Rel r o (some b)) : ∃ a, o = some a ∧ r a b := by
  cases h with
  | some h => exact ⟨_, rfl, h⟩

end

/-- The body `f` of an upserting command does to entries what `g` does to cells. -/
def UpdateSim (f : Bool → Entry → Except EntryError (Entry × Reply))
    (g : Bool → Cell → Except EntryError (Cell × Reply)) : Prop :=
  ∀ isNew e c, e.Shows c →
    (∃ err, f isNew e = .error err ∧ g isNew c = .error err) ∨
      ∃ e' c' r, f isNew e = .ok (e', r) ∧ g isNew c = .ok (c', r) ∧ e'.Shows c'

/-- The body `f` of a command on the entry found does to entries with `P` what `g` does to
    cells. -/
def QuerySim (P : Entry → Prop) (f : Entry → Except EntryError (Option Entry × Reply))
    (g : Cell → Except EntryError (Option Cell × Reply)) : Prop :=
  ∀ e c, P e → e.Shows c →
    (∃ err, f e = .error err ∧ g c = .error err) ∨
      (∃ r, f e = .ok (none, r) ∧ g c = .ok (none, r)) ∨
      ∃ e' c' r, f e = .ok (some e', r) ∧ g c = .ok (some c', r) ∧ e'.Shows c'

namespace Entry

variable {e : Entry} {c : Cell} {P : Entry → Prop}

theorem Shows.isExpired (h : e.Shows c) (now : ℤ) : e.isExpired now = c.isExpired now := by
  have hx := h.expireAt
  cases hc : c.expireAt <;> rw [hc] at hx <;> simp only [Entry.isExpired, Cell.isExpired, hx, hc]

/-- An entry holds one cell. -/
theorem Shows.unique {c' : Cell} (h : e.Shows c) (h' : e.Shows c') : c = c' := by
  have ht : c.value.type = c'.value.type := h.type.symm.trans h'.type
  have hx : c.expireAt = c'.expireAt := h.expireAt.symm.trans h'.expireAt
  have hv := h.value
  have hv' := h'.value
  obtain ⟨v, y⟩ := c
  obtain ⟨v', y'⟩ := c'
  obtain rfl : y = y' := hx
  cases v <;> cases v' <;> simp only [View.type, reduceCtorEq] at ht <;>
    cases he : e.value <;> simp only [Payload.Shows, he] at hv hv'
  case str.str.word => rw [hv.2, hv'.2]
  case str.str.str => rw [hv, hv']
  case int.int.word => rw [← hv, ← hv']
  case hash.hash.word => rw [hv.2, hv'.2]
  case hash.hash.hash => rw [Finmap.ext_lookup fun f => (hv f).symm.trans (hv' f)]
  case list.list.word => rw [hv.2, hv'.2]
  case list.list.list => rw [← hv.1, ← hv'.1]

/-- The union of an entry by its type. -/
theorem Shows.cases (h : e.Shows c) :
    (e.type = .string ∧ ((∃ s, e.value = .str s ∧ c.value = .str (some s)) ∨
      e.value = .word 0 ∧ c.value = .str none)) ∨
    (∃ i, e.type = .int ∧ e.value = .word i ∧ c.value = .int i) ∨
    (e.type = .hash ∧ ∃ m, c.value = .hash m ∧ (e.value = .word 0 ∧ m = ∅ ∨
      ∃ h, e.value = .hash h ∧ ∀ f, (h.fields.lookup f).map HashField.value = m.lookup f)) ∨
    (e.type = .list ∧ ∃ vs, c.value = .list vs ∧ (e.value = .word 0 ∧ vs = [] ∨
      ∃ l, e.value = .list l ∧ l.nodes.map ListNode.value = vs ∧ l.length = vs.length)) := by
  have ht := h.type
  have hv := h.value
  cases hc : c.value <;> cases he : e.value <;> rw [hc] at ht hv <;> rw [he] at hv <;>
    simp only [Payload.Shows, View.type] at ht hv
  case str.word => simp [ht, hv]
  case str.str => simp [ht, hv]
  case int.word => simp [ht, hv]
  case hash.word => simp [ht, hv]
  case hash.hash m h => exact .inr (.inr (.inl ⟨ht, m, rfl, .inr ⟨h, rfl, hv⟩⟩))
  case list.word => simp [ht, hv]
  case list.list vs l => exact .inr (.inr (.inr ⟨ht, vs, rfl, .inr ⟨l, rfl, hv⟩⟩))

/-- What an entry of the type of hashes holds. -/
theorem Shows.of_hash (h : e.Shows c) (ht : c.value.type = .hash) :
    e.type = .hash ∧ ∃ m, c.value = .hash m ∧ (e.value = .word 0 ∧ m = ∅ ∨
      ∃ h, e.value = .hash h ∧ ∀ f, (h.fields.lookup f).map HashField.value = m.lookup f) := by
  have hte := h.type.trans ht
  rcases h.cases with ⟨ht', -⟩ | ⟨i, ht', -⟩ | hhash | ⟨ht', -⟩
  · exact absurd (hte.symm.trans ht') (by decide)
  · exact absurd (hte.symm.trans ht') (by decide)
  · exact hhash
  · exact absurd (hte.symm.trans ht') (by decide)

/-- What an entry of the type of lists holds. -/
theorem Shows.of_list (h : e.Shows c) (ht : c.value.type = .list) :
    e.type = .list ∧ ∃ vs, c.value = .list vs ∧ (e.value = .word 0 ∧ vs = [] ∨
      ∃ l, e.value = .list l ∧ l.nodes.map ListNode.value = vs ∧ l.length = vs.length) := by
  have hte := h.type.trans ht
  rcases h.cases with ⟨ht', -⟩ | ⟨i, ht', -⟩ | ⟨ht', -⟩ | hlist
  · exact absurd (hte.symm.trans ht') (by decide)
  · exact absurd (hte.symm.trans ht') (by decide)
  · exact absurd (hte.symm.trans ht') (by decide)
  · exact hlist

theorem updateSim_set (value : Bytes) : UpdateSim (set value) (Cell.set value) := by
  intro isNew e c h
  refine .inr ⟨_, _, _, rfl, rfl, rfl, rfl, ?_⟩
  simp only [releaseValue]
  split <;> exact h.expireAt

theorem counter_eq (isNew : Bool) (h : e.Shows c) : e.counter isNew = c.counter isNew := by
  rw [counter, Cell.counter]
  cases isNew with
  | true => rfl
  | false =>
    rcases h.cases with ⟨ht, ⟨s, he, hc⟩ | ⟨he, hc⟩⟩ | ⟨i, ht, he, hc⟩ | ⟨ht, m, hc, -⟩ |
      ⟨ht, vs, hc, -⟩
    · cases hp : parseInt64 s <;> simp only [ht, he, hc, hp]
    · simp only [ht, he, hc]
    · simp only [ht, he, hc]
    · simp only [ht, hc, View.type]
    · simp only [ht, hc, View.type]

theorem updateSim_incrdecr (delta : ℤ) : UpdateSim (incrdecr delta) (Cell.incrdecr delta) := by
  intro isNew e c h
  rw [incrdecr, Cell.incrdecr, counter_eq isNew h]
  cases c.counter isNew with
  | error err => exact .inl ⟨err, rfl, rfl⟩
  | ok i => exact .inr ⟨_, _, _, rfl, rfl, rfl, rfl, h.expireAt⟩

/-- A field set, in the table of a backend and in the map. -/
theorem set_shows {h : Hash} {m : Finmap fun _ : Field => Bytes}
    (hm : ∀ f, (h.fields.lookup f).map HashField.value = m.lookup f) (field : Field)
    (value : Bytes) :
    (∀ f, ((h.set field value).1.fields.lookup f).map HashField.value =
      (m.insert field value).lookup f) ∧ (h.set field value).2 = decide (field ∉ m) := by
  constructor
  · intro f
    rw [Hash.fields_set, Htab.lookup_insert_eq]
    split_ifs with hf
    · rw [hf, Finmap.lookup_insert]
      rfl
    · rw [Finmap.lookup_insert_of_ne _ hf, hm]
  · have hlook := hm field
    rw [Hash.set]
    cases hl : h.fields.lookup field with
    | none =>
      rw [hl, Option.map_none] at hlook
      simp [Finmap.lookup_eq_none.1 hlook.symm]
    | some x =>
      rw [hl, Option.map_some] at hlook
      simp [Finmap.mem_of_lookup_eq_some hlook.symm]

theorem updateSim_hset (field : Field) (value : Bytes) :
    UpdateSim (hset field value) (Cell.hset field value) := by
  intro isNew e c h
  rw [hset, Cell.hset, h.type]
  split_ifs with hwrong
  · exact .inl ⟨_, rfl, rfl⟩
  have hcreate : ∀ f, ((e.hashOrCreate isNew).fields.lookup f).map HashField.value =
      (c.hashOrCreate isNew).lookup f := by
    cases isNew with
    | true => exact fun f => by simp [hashOrCreate, Cell.hashOrCreate]
    | false =>
      obtain ⟨-, m, hc, ⟨he, rfl⟩ | ⟨h', he, hm⟩⟩ := h.of_hash (by simpa using hwrong)
      · exact fun f => by simp [hashOrCreate, Cell.hashOrCreate, he, hc]
      · exact fun f => by simpa [hashOrCreate, Cell.hashOrCreate, he, hc] using hm f
  obtain ⟨hset, hnew⟩ := set_shows hcreate field value
  refine .inr ⟨⟨.hash, .hash ((e.hashOrCreate isNew).set field value).1, e.expireAt, e.version + 1,
    e.inDirtySet⟩, ⟨.hash ((c.hashOrCreate isNew).insert field value), c.expireAt⟩,
    .bool ((e.hashOrCreate isNew).set field value).2, rfl, by rw [hnew], rfl, hset, h.expireAt⟩

theorem updateSim_listPush (side : Side) (value : Bytes) :
    UpdateSim (listPush side value) (Cell.listPush side value) := by
  intro isNew e c h
  rw [listPush, Cell.listPush, h.type]
  split_ifs with hwrong
  · exact .inl ⟨_, rfl, rfl⟩
  have hcreate : (e.listOrCreate isNew).nodes.map ListNode.value = c.listOrCreate isNew ∧
      (e.listOrCreate isNew).length = (c.listOrCreate isNew).length := by
    cases isNew with
    | true => simp [listOrCreate, Cell.listOrCreate, ListValue.create]
    | false =>
      obtain ⟨-, vs, hc, ⟨he, rfl⟩ | ⟨l, he, hvs⟩⟩ := h.of_list (by simpa using hwrong)
      · simp [listOrCreate, Cell.listOrCreate, ListValue.create, he, hc]
      · simpa [listOrCreate, Cell.listOrCreate, he, hc] using hvs
  obtain ⟨hvals, hlen⟩ := hcreate
  have hpush : ((e.listOrCreate isNew).push side value).length =
      (c.listOrCreate isNew).length + 1 := by
    rw [← hlen]
    cases side <;> rfl
  refine .inr ⟨_, ⟨.list (ListValue.atEnd value (c.listOrCreate isNew) side), c.expireAt⟩, _, rfl,
    by rw [hpush], rfl, ⟨?_, ?_⟩, h.expireAt⟩
  · rw [ListValue.nodes_push, ListValue.map_atEnd, hvals]
    cases side <;> rfl
  · rw [hpush]
    cases side <;> simp [ListValue.atEnd]

theorem querySim_get : QuerySim P get Cell.get := by
  intro e c _ h
  rw [get, Cell.get]
  rcases h.cases with ⟨ht, ⟨s, he, hc⟩ | ⟨he, hc⟩⟩ | ⟨i, ht, he, hc⟩ | ⟨ht, m, hc, -⟩ |
    ⟨ht, vs, hc, -⟩
  · simp only [ht, he, hc]
    exact .inr (.inl ⟨_, rfl, rfl⟩)
  · simp only [ht, he, hc]
    exact .inr (.inl ⟨_, rfl, rfl⟩)
  · simp only [ht, he, hc]
    exact .inr (.inl ⟨_, rfl, rfl⟩)
  · simp only [ht, hc]
    exact .inl ⟨_, rfl, rfl⟩
  · simp only [ht, hc]
    exact .inl ⟨_, rfl, rfl⟩

theorem querySim_exists :
    QuerySim P (fun _ => .ok (none, .bool true)) fun _ => .ok (none, .bool true) :=
  fun _ _ _ _ => .inr (.inl ⟨_, rfl, rfl⟩)

/-- A command on hashes, on entries that hold one. -/
theorem querySim_withHash {f : Hash → Option Hash × Reply}
    {g : (Finmap fun _ : Field => Bytes) → Option (Finmap fun _ : Field => Bytes) × Reply}
    (hfg : ∀ h m, (∀ f, (h.fields.lookup f).map HashField.value = m.lookup f) →
      (f h).2 = (g m).2 ∧ ((f h).1 = none ∧ (g m).1 = none ∨
        ∃ h' m', (f h).1 = some h' ∧ (g m).1 = some m' ∧
          ∀ f, (h'.fields.lookup f).map HashField.value = m'.lookup f)) :
    QuerySim (fun e => e.content.isSome) (withHash f) (Cell.withHash g) := by
  intro e c hP h
  rw [withHash, h.type]
  by_cases ht : c.value.type = .hash
  · obtain ⟨ht', m, hc, ⟨he, -⟩ | ⟨h', he, hm⟩⟩ := h.of_hash ht
    · rw [content, ht', he] at hP
      exact absurd hP (by simp)
    · simp only [Cell.withHash, hc, View.type, ne_eq, not_true_eq_false, if_false, he]
      obtain ⟨hr, ⟨hf, hg⟩ | ⟨h'', m'', hf, hg, hm''⟩⟩ := hfg h' m hm
      · exact .inr (.inl ⟨(f h').2, by rw [hf]; rfl, by rw [hg, hr]; rfl⟩)
      · exact .inr (.inr ⟨⟨.hash, .hash h'', e.expireAt, e.version + 1, e.inDirtySet⟩,
          ⟨.hash m'', c.expireAt⟩, (f h').2, by rw [hf]; rfl, by rw [hg, hr]; rfl, rfl, hm'',
          h.expireAt⟩)
  · rw [if_pos ht, Cell.withHash_of_ne ht]
    exact .inl ⟨_, rfl, rfl⟩

section

variable {field : Field} (hlen : field.length ≤ maxFieldSize) {h : Hash}
  {m : Finmap fun _ : Field => Bytes}
  (hm : ∀ f, (h.fields.lookup f).map HashField.value = m.lookup f)

include hlen hm

theorem get_shows : h.get field = m.lookup field := by
  rw [Hash.get, if_neg (Nat.not_lt.2 hlen), hm]

theorem exists_shows : h.exists? field = decide (field ∈ m) := by
  rw [Hash.exists?, get_shows hlen hm, Bool.eq_iff_iff, Finmap.lookup_isSome, decide_eq_true_iff]

/-- A field deleted, from the table of a backend and from the map. -/
theorem del_shows : (h.del field).2 = decide (field ∈ m) ∧ ((h.del field).2 = true →
    ∀ f, ((h.del field).1.fields.lookup f).map HashField.value = (m.erase field).lookup f) := by
  constructor
  · rw [Hash.del_snd, ← Option.isSome_map (f := HashField.value), hm, Bool.eq_iff_iff]
    simp [hlen, Finmap.lookup_isSome]
  · intro hdel f
    rw [(Hash.fields_tombstones_del hdel).1, Htab.lookup_erase_eq]
    split_ifs with hf
    · rw [hf, Finmap.lookup_erase]
      rfl
    · rw [Finmap.lookup_erase_ne hf, hm]

end

theorem querySim_hget {field : Field} (hlen : field.length ≤ maxFieldSize) :
    QuerySim (fun e => e.content.isSome) (hget field) (Cell.hget field) :=
  querySim_withHash fun _ _ hm => ⟨by rw [get_shows hlen hm], .inl ⟨rfl, rfl⟩⟩

theorem querySim_hexists {field : Field} (hlen : field.length ≤ maxFieldSize) :
    QuerySim (fun e => e.content.isSome) (hexists field) (Cell.hexists field) :=
  querySim_withHash fun _ _ hm => ⟨by rw [exists_shows hlen hm], .inl ⟨rfl, rfl⟩⟩

theorem querySim_hdel {field : Field} (hlen : field.length ≤ maxFieldSize) :
    QuerySim (fun e => e.content.isSome) (hdel field) (Cell.hdel field) := by
  refine querySim_withHash fun h m hm => ?_
  obtain ⟨hr, hdel⟩ := del_shows hlen hm
  refine ⟨congrArg Reply.bool hr, ?_⟩
  by_cases hmem : field ∈ m
  · have htrue : (h.del field).2 = true := by rw [hr, decide_eq_true hmem]
    exact .inr ⟨(h.del field).1, m.erase field, if_pos htrue, if_pos hmem, hdel htrue⟩
  · have hfalse : ¬(h.del field).2 = true := by rw [hr, decide_eq_true_iff]; exact hmem
    exact .inl ⟨if_neg hfalse, if_neg hmem⟩

/-- A command on lists, for a null pointer too. -/
theorem querySim_withList {null : Reply} {f : ListValue → Option ListValue × Reply}
    {g : List Bytes → Option (List Bytes) × Reply} (hnull : g [] = (none, null))
    (hfg : ∀ l : ListValue, l.length = l.nodes.length →
      (f l).2 = (g (l.nodes.map ListNode.value)).2 ∧
      ((f l).1 = none ∧ (g (l.nodes.map ListNode.value)).1 = none ∨
        ∃ l', (f l).1 = some l' ∧
          (g (l.nodes.map ListNode.value)).1 = some (l'.nodes.map ListNode.value) ∧
          l'.length = l'.nodes.length)) :
    QuerySim P (withList null f) (Cell.withList g) := by
  intro e c _ h
  rw [withList, h.type]
  by_cases ht : c.value.type = .list
  · obtain ⟨-, vs, hc, hvs⟩ := h.of_list ht
    simp only [Cell.withList, hc, View.type, ne_eq, not_true_eq_false, if_false]
    rcases hvs with ⟨he, rfl⟩ | ⟨l, he, rfl, hlen⟩
    · exact .inr (.inl ⟨null, by rw [he], by rw [hnull]; rfl⟩)
    · rw [List.length_map] at hlen
      obtain ⟨hr, ⟨hf, hg⟩ | ⟨l', hf, hg, hlen'⟩⟩ := hfg l hlen
      · exact .inr (.inl ⟨(f l).2, by simp only [he, hf]; rfl, by rw [hg, hr]; rfl⟩)
      · exact .inr (.inr ⟨⟨.list, .list l', e.expireAt, e.version + 1, e.inDirtySet⟩,
          ⟨.list (l'.nodes.map ListNode.value), c.expireAt⟩, (f l).2, by simp only [he, hf]; rfl,
          by rw [hg, hr]; rfl, rfl, ⟨rfl, by rw [hlen', List.length_map]⟩, h.expireAt⟩)
  · rw [if_pos ht, Cell.withList_of_ne ht]
    exact .inl ⟨_, rfl, rfl⟩

theorem querySim_llen : QuerySim P llen Cell.llen :=
  querySim_withList rfl fun l hlen => ⟨by rw [hlen, List.length_map], .inl ⟨rfl, rfl⟩⟩

theorem popped_atEnd (side : Side) (v : Bytes) (vs : List Bytes) :
    Cell.popped side (ListValue.atEnd v vs side) = some (v, vs) := by
  cases side <;> simp [Cell.popped, ListValue.atEnd]

/-- A value popped, from the list of a backend and from that of values. -/
theorem pop_shows {l : ListValue} (side : Side) (hlen : l.length = l.nodes.length) :
    match l.pop side with
    | none => Cell.popped side (l.nodes.map ListNode.value) = none
    | some (v, l') =>
      Cell.popped side (l.nodes.map ListNode.value) = some (v, l'.nodes.map ListNode.value) ∧
        l'.length = l'.nodes.length := by
  cases hp : l.pop side with
  | none =>
    have hnil : l.nodes = [] := by
      by_contra hne
      obtain ⟨v, l', h⟩ := ListValue.exists_pop side hne
      exact absurd (hp.symm.trans h) (by simp)
    rw [hnil]
    cases side <;> rfl
  | some x =>
    obtain ⟨v, l'⟩ := x
    obtain ⟨n, rfl, -, hnodes⟩ := ListValue.exists_of_pop hp
    refine ⟨by rw [hnodes, ListValue.map_atEnd, popped_atEnd], ?_⟩
    have hl' := ListValue.length_of_pop hp
    have hcount : (ListValue.atEnd n l'.nodes side).length = l'.nodes.length + 1 := by
      cases side <;> simp [ListValue.atEnd]
    rw [hl', hlen, hnodes, hcount]
    simp

theorem querySim_listPop (side : Side) : QuerySim P (listPop side) (Cell.listPop side) := by
  refine querySim_withList (by cases side <;> rfl) fun l hlen => ?_
  have hp := pop_shows side hlen
  cases hpop : l.pop side with
  | none =>
    rw [hpop] at hp
    simp only at hp
    exact ⟨by rw [hp]; rfl, .inl ⟨rfl, by rw [hp]; rfl⟩⟩
  | some x =>
    obtain ⟨v, l'⟩ := x
    rw [hpop] at hp
    obtain ⟨hvs, hlen'⟩ := hp
    exact ⟨by rw [hvs]; rfl, .inr ⟨l', rfl, by rw [hvs]; rfl, hlen'⟩⟩

end Entry

end PgRedis
