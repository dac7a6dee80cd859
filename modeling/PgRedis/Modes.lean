import PgRedis.Lib.Run
import PgRedis.SharedStore.Cells

/-!
# Session mode and shared mode

One client that runs the same commands in session mode and in shared mode, under
`persistence_mode` `none`. No command compared here sets an expiry. Then at every moment the
keys hold in shared mode what they hold in session mode, but for what shared memory loses of
a value (`View.stored`): the commands do not depend on what is lost, and only two of them show
it. `GET` replies null instead of an empty string, and a pop replies a longer value than 65535
bytes cut.

So the replies are the same if and only if no `GET` meets an empty string and no pop such a
value (`replies_eq_iff`).
-/

namespace PgRedis

open Lib

namespace Cell

/-- No expiry. -/
def Lasting (o : Option Cell) : Prop := ∀ c, o = some c → c.expireAt = none

/-- What a command on a key shows of its cell is not lost in shared memory. -/
def Intact : Command → Cell → Prop
  | .get _, c => c.value ≠ .str (some [])
  | .pop side _, c => ∀ vs v vs', c.value = .list vs → popped side vs = some (v, vs') →
      v.length ≤ uint16Max
  | _, _ => True

/-- The body of an upserting command does not depend on what shared memory loses. -/
def UpdateAgrees (g : Bool → Cell → Except EntryError (Cell × Reply)) : Prop :=
  ∀ isNew c,
    (∃ err, g isNew c = .error err ∧ g isNew (c.stored .shared) = .error err) ∨
      ∃ c₁ c₂ r, g isNew c = .ok (c₁, r) ∧ g isNew (c.stored .shared) = .ok (c₂, r) ∧
        c₂.stored .shared = c₁.stored .shared ∧ c₁.expireAt = c.expireAt

/-- The body of a command on the cell found does not depend on what shared memory loses, but
    for the reply, and this only if `P` does not hold. -/
def QueryAgrees (P : Cell → Prop) (g : Cell → Except EntryError (Option Cell × Reply)) : Prop :=
  ∀ c,
    (∃ err, g c = .error err ∧ g (c.stored .shared) = .error err ∧ P c) ∨
      ∃ o₁ o₂ r r', g c = .ok (o₁, r) ∧ g (c.stored .shared) = .ok (o₂, r') ∧ (r' = r ↔ P c) ∧
        ((o₁ = none ∧ o₂ = none) ∨ ∃ c₁ c₂, o₁ = some c₁ ∧ o₂ = some c₂ ∧
          c₂.stored .shared = c₁.stored .shared ∧ c₁.expireAt = c.expireAt)

/-! ## The bodies of the commands -/

theorem stored_stored (c : Cell) : (c.stored .shared).stored .shared = c.stored .shared := by
  simp only [stored, View.stored_stored]

theorem updateAgrees_set (value : Bytes) : UpdateAgrees (set value) :=
  fun _ _ => .inr ⟨_, _, _, rfl, rfl, rfl, rfl⟩

theorem counter_stored (isNew : Bool) (c : Cell) :
    (c.stored .shared).counter isNew = c.counter isNew := by
  rw [counter, counter]
  cases isNew with
  | true => rfl
  | false =>
    obtain ⟨v, x⟩ := c
    cases v with
    | str s => rcases s with _ | _ | _ <;> rfl
    | int | hash | list => rfl

theorem updateAgrees_incrdecr (delta : ℤ) : UpdateAgrees (incrdecr delta) := by
  intro isNew c
  rw [incrdecr, incrdecr, counter_stored]
  cases c.counter isNew with
  | error err => exact .inl ⟨err, rfl, rfl⟩
  | ok i => exact .inr ⟨_, _, _, rfl, rfl, rfl, rfl⟩

theorem updateAgrees_hset (field : Field) (value : Bytes) : UpdateAgrees (hset field value) := by
  intro isNew c
  have htype : (c.stored .shared).value.type = c.value.type := View.type_stored _ _
  have hsame : (c.stored .shared).hashOrCreate isNew = c.hashOrCreate isNew := by
    obtain ⟨v, x⟩ := c
    cases isNew with
    | true => rfl
    | false =>
      cases v with
      | str s => rcases s with _ | _ | _ <;> rfl
      | int | hash | list => rfl
  rw [hset, hset, htype, hsame]
  split_ifs
  · exact .inl ⟨_, rfl, rfl⟩
  · exact .inr ⟨_, _, _, rfl, rfl, rfl, rfl⟩

theorem updateAgrees_listPush (side : Side) (value : Bytes) :
    UpdateAgrees (listPush side value) := by
  intro isNew c
  have htype : (c.stored .shared).value.type = c.value.type := View.type_stored _ _
  have hsame : (c.stored .shared).listOrCreate isNew = (c.listOrCreate isNew).map clip := by
    obtain ⟨v, x⟩ := c
    cases isNew with
    | true => rfl
    | false =>
      cases v with
      | str s => rcases s with _ | _ | _ <;> rfl
      | int | hash | list => rfl
  rw [listPush, listPush, htype, hsame]
  split_ifs
  · exact .inl ⟨_, rfl, rfl⟩
  · refine .inr ⟨_, _, _, rfl, by rw [List.length_map], ?_, rfl⟩
    simp only [stored, View.stored]
    cases side <;> simp [ListValue.atEnd]

theorem queryAgrees_get (key : Key) : QueryAgrees (Intact (.get key)) get := by
  intro c
  obtain ⟨v, x⟩ := c
  cases v with
  | str s =>
    rcases s with _ | _ | ⟨b, s⟩
    · exact .inr ⟨none, none, _, _, rfl, rfl, by simp [Intact], .inl ⟨rfl, rfl⟩⟩
    · exact .inr ⟨none, none, _, _, rfl, rfl, by simp [Intact], .inl ⟨rfl, rfl⟩⟩
    · exact .inr ⟨none, none, _, _, rfl, rfl, by simp [Intact], .inl ⟨rfl, rfl⟩⟩
  | int i => exact .inr ⟨none, none, _, _, rfl, rfl, by simp [Intact], .inl ⟨rfl, rfl⟩⟩
  | hash | list => exact .inl ⟨_, rfl, rfl, by simp [Intact]⟩

theorem queryAgrees_exists : QueryAgrees (fun _ => True) fun _ => .ok (none, .bool true) :=
  fun _ => .inr ⟨none, none, _, _, rfl, rfl, by simp, .inl ⟨rfl, rfl⟩⟩

/-- The fields of a hash and their values are all kept. -/
theorem queryAgrees_withHash (f : (Finmap fun _ : Field => Bytes) →
    Option (Finmap fun _ : Field => Bytes) × Reply) : QueryAgrees (fun _ => True) (withHash f) := by
  intro c
  obtain ⟨v, x⟩ := c
  cases v with
  | str s => rcases s with _ | _ | _ <;> exact .inl ⟨_, rfl, rfl, trivial⟩
  | int | list => exact .inl ⟨_, rfl, rfl, trivial⟩
  | hash m =>
    refine .inr ⟨_, _, (f m).2, _, rfl, rfl, by simp, ?_⟩
    cases hf : (f m).1 with
    | none => exact .inl ⟨rfl, rfl⟩
    | some m' => exact .inr ⟨_, _, rfl, rfl, rfl, rfl⟩

theorem popped_map_clip (side : Side) (vs : List Bytes) :
    popped side (vs.map clip) = (popped side vs).map fun x => (clip x.1, x.2.map clip) := by
  cases side with
  | left => cases vs <;> rfl
  | right =>
    rw [popped, popped, List.getLast?_map, ← List.map_dropLast]
    cases vs.getLast? <;> rfl

/-- The length of a list is kept, and so are its values up to what a length of 16 bits says. -/
theorem queryAgrees_llen : QueryAgrees (fun _ => True) llen := by
  intro c
  obtain ⟨v, x⟩ := c
  cases v with
  | str s => rcases s with _ | _ | _ <;> exact .inl ⟨_, rfl, rfl, trivial⟩
  | int | hash => exact .inl ⟨_, rfl, rfl, trivial⟩
  | list vs =>
    refine .inr ⟨none, none, .int vs.length, .int (vs.map clip).length, rfl, rfl, ?_,
      .inl ⟨rfl, rfl⟩⟩
    rw [List.length_map]
    simp

theorem queryAgrees_listPop (side : Side) (key : Key) :
    QueryAgrees (Intact (.pop side key)) (listPop side) := by
  intro c
  obtain ⟨v, x⟩ := c
  cases v with
  | str s => rcases s with _ | _ | _ <;> exact .inl ⟨_, rfl, rfl, by simp [Intact]⟩
  | int | hash => exact .inl ⟨_, rfl, rfl, by simp [Intact]⟩
  | list vs =>
    -- The value popped is cut off in shared mode; what remains is the same but for such cuts.
    have hclip := popped_map_clip side vs
    have hsh : listPop side (stored .shared ⟨.list vs, x⟩) =
        .ok (((popped side (vs.map clip)).map Prod.snd).map fun vs' => ⟨.list vs', x⟩,
          .text ((popped side (vs.map clip)).map Prod.fst)) := rfl
    have hse : listPop side ⟨.list vs, x⟩ =
        .ok (((popped side vs).map Prod.snd).map fun vs' => ⟨.list vs', x⟩,
          .text ((popped side vs).map Prod.fst)) := rfl
    rw [hsh, hse, hclip]
    cases hp : popped side vs with
    | none =>
      refine .inr ⟨none, none, .text none, .text none, rfl, rfl, ⟨fun _ ws v vs' hws hv => ?_,
        fun _ => rfl⟩, .inl ⟨rfl, rfl⟩⟩
      obtain rfl := View.list.inj hws
      exact absurd (hp.symm.trans hv) (by simp)
    | some y =>
      obtain ⟨v, vs'⟩ := y
      refine .inr ⟨some ⟨.list vs', x⟩, some ⟨.list (vs'.map clip), x⟩, .text (some v),
        .text (some (clip v)), rfl, rfl, ?_, .inr ⟨_, _, rfl, rfl, ?_, rfl⟩⟩
      · rw [Reply.text.injEq, Option.some.injEq, clip_eq_self]
        constructor
        · rintro hv ws w ws' hws hw
          obtain rfl := View.list.inj hws
          rw [hp, Option.some.injEq, Prod.mk.injEq] at hw
          exact hw.1 ▸ hv
        · exact fun h => h vs v vs' rfl hp
      · exact stored_stored ⟨.list vs', x⟩

/-! ## The commands -/

variable {o : Option Cell} {now now' : ℤ} {key : Key}

theorem Lasting.not_expired (h : Lasting o) {c : Cell} (hc : o = some c) (now : ℤ) :
    c.isExpired now = false := by
  rw [isExpired, h c hc]

theorem Lasting.found (h : Lasting o) (now : ℤ) : found now o = o := by
  cases o with
  | none => rfl
  | some c => rw [Cell.found, h.not_expired rfl now, if_neg (by decide)]

theorem Lasting.map_stored (h : Lasting o) : Lasting (o.map (stored .shared)) := by
  intro c hc
  obtain ⟨c', hc', rfl⟩ := Option.map_eq_some_iff.1 hc
  exact h c' hc'

/-- An upsert of a key that cannot expire. -/
theorem Lasting.upserted (h : Lasting o) (now : ℤ) :
    (Cell.upserted now o).1.expireAt = none ∧
    Cell.upserted now (o.map (stored .shared)) =
      ((Cell.upserted now o).1.stored .shared, (Cell.upserted now o).2) := by
  cases o with
  | none => exact ⟨rfl, rfl⟩
  | some c =>
    have hno := h.not_expired rfl now
    have hno' : (c.stored .shared).isExpired now = false := hno
    rw [Option.map_some, Cell.upserted, Cell.upserted, hno, hno', if_neg (by decide),
      if_neg (by decide)]
    exact ⟨h c rfl, rfl⟩

/-- What a command does to a key in the two modes: the cells stay as they were related, and
    the replies are the same if `same`. -/
structure Agrees (same : Prop) (se sh : Option Cell × Except CommandError Reply) : Prop where
  lasting : Lasting se.1
  cell : sh.1 = se.1.map (stored .shared)
  reply : sh.2 = se.2 ↔ same

theorem update_agrees {g : Bool → Cell → Except EntryError (Cell × Reply)} (hg : UpdateAgrees g)
    (h : Lasting o) (now : ℤ) (key : Key) :
    Agrees True (update .session now key g o)
      (update .shared now key g (o.map (stored .shared))) := by
  obtain ⟨hlast, hup⟩ := h.upserted now
  rw [update, update, hup]
  rcases hg (Cell.upserted now o).2 (Cell.upserted now o).1 with ⟨err, hse, hsh⟩ |
    ⟨c₁, c₂, r, hse, hsh, hc, hx⟩
  · simp only [hse, hsh]
    exact ⟨fun c hc => Option.some.inj hc ▸ hlast, rfl, by simp⟩
  · simp only [hse, hsh]
    refine ⟨fun c hc => Option.some.inj hc ▸ hx.trans hlast, ?_, by simp⟩
    rw [hc]
    rfl

theorem query_agrees {P : Cell → Prop} {g : Cell → Except EntryError (Option Cell × Reply)}
    (hg : QueryAgrees P g) (h : Lasting o) (now now' : ℤ) (key : Key) (missing : Reply) :
    Agrees (∀ c, o = some c → P c) (query .session now key missing g o)
      (query .shared now' key missing g (o.map (stored .shared))) := by
  rw [query, query, h.found, h.map_stored.found]
  cases o with
  | none => exact ⟨h, rfl, by simp⟩
  | some c =>
    simp only [Option.map_some]
    rcases hg c with ⟨err, hse, hsh, hP⟩ |
      ⟨o₁, o₂, r, r', hse, hsh, hr, ⟨rfl, rfl⟩ | ⟨c₁, c₂, rfl, rfl, hc, hx⟩⟩
    · simp only [hse, hsh]
      exact ⟨h, rfl, by simpa using hP⟩
    · simp only [hse, hsh]
      exact ⟨h, rfl, by simpa using hr⟩
    · simp only [hse, hsh]
      refine ⟨fun c' hc' => Option.some.inj hc' ▸ hx.trans (h c rfl), ?_, by simpa using hr⟩
      rw [hc]
      rfl

end Cell

/-- The commands compared: none sets or reads an expiry. A field is SQL text, and a value set
    in a hash is no longer than the documented cap. -/
structure Command.Compared (c : Command) : Prop where
  lasting : ∀ key seconds, c ≠ .expire key seconds ∧ c ≠ .ttl key
  text : ∀ field, c.field? = some field → 0 ∉ field
  length : ∀ key field value, c = .hset key field value → value.length ≤ uint16Max

theorem Cell.perform_agrees {c : Command} (hc : c.Compared) {o : Option Cell} (h : Lasting o)
    (now now' : ℤ) :
    Agrees (∀ x, o = some x → Intact c x) (perform .session now now' o c)
      (perform .shared now now' (o.map (stored .shared)) c) := by
  have htrue : ∀ {se sh}, Agrees True se sh → Agrees (∀ x, o = some x → True) se sh :=
    fun h => ⟨h.lasting, h.cell, by simpa using h.reply⟩
  cases c with
  | set key value => exact htrue (update_agrees (updateAgrees_set value) h now key)
  | get key => exact query_agrees (queryAgrees_get key) h now now key _
  | del key => exact ⟨fun _ h => absurd h (by simp [perform]), rfl, by simp [perform, Intact]⟩
  | exists? key => exact query_agrees queryAgrees_exists h now now key _
  | expire key seconds => exact absurd rfl (hc.lasting key seconds).1
  | ttl key => exact absurd rfl (hc.lasting key 0).2
  | incr key => exact htrue (update_agrees (updateAgrees_incrdecr 1) h now key)
  | decr key => exact htrue (update_agrees (updateAgrees_incrdecr (-1)) h now key)
  | hset key field value => exact htrue (update_agrees (updateAgrees_hset field value) h now key)
  | hget key field => exact query_agrees (queryAgrees_withHash _) h _ _ key _
  | hdel key field => exact query_agrees (queryAgrees_withHash _) h now now key _
  | hexists key field => exact query_agrees (queryAgrees_withHash _) h _ _ key _
  | push side key value => exact htrue (update_agrees (updateAgrees_listPush side value) h now key)
  | pop side key => exact query_agrees (queryAgrees_listPop side key) h now now key _
  | llen key => exact query_agrees queryAgrees_llen h now now key _

/-! ## Whole sessions -/

/-- The replies to calls one after the other. -/
def Session.replies : Session → List Call → List (Except CommandError Reply)
  | _, [] => []
  | s, c :: cs => (s.exec c.lim c.now c.now' c.cmd).2 :: replies (s.call c) cs

namespace SharedStore

/-- An empty keyspace in an empty area of shared memory. -/
def empty : SharedStore := ⟨⟨0, []⟩, ∅⟩

/-- The replies to calls one after the other. -/
def replies (hashBytes : Bytes → UInt32) (ok : StoreSite → Bool) :
    SharedStore → List Call → List (Except SharedCommandError Reply)
  | _, [] => []
  | S, c :: cs => (S.exec hashBytes ok c.lim c.now c.now' c.cmd).2.2 ::
      replies hashBytes ok (S.exec hashBytes ok c.lim c.now c.now' c.cmd).1 cs

end SharedStore

/-- The call is no `GET` that meets an empty string and no pop that meets a value longer than
    65535 bytes. -/
def Session.Intact (s : Session) (c : Call) : Prop :=
  c.cmd.check c.lim = .ok () → match c.cmd with
    | .get key => ∀ e, s.store.lookup key = some e → e.value ≠ .str []
    | .pop side key => ∀ e, s.store.lookup key = some e → ∀ l v l', e.value = .list l →
        l.pop side = some (v, l') → v.length ≤ uint16Max
    | _ => True

/-- The two keyspaces hold the same cells, but for what shared memory loses. -/
structure SameCells (hashBytes : Bytes → UInt32) (s : Session) (S : SharedStore) (K : Cells) :
    Prop where
  typed : s.WellTyped
  session : s.Shows K
  shared : S.Shows hashBytes fun k => (K k).map (Cell.stored .shared)
  lasting : ∀ k, Cell.Lasting (K k)

section

variable {hashBytes : Bytes → UInt32} {s : Session} {S : SharedStore} {K : Cells}

theorem Entry.Shows.ne_empty_iff {e : Entry} {x : Cell} (h : e.Shows x) :
    e.value ≠ .str [] ↔ x.value ≠ .str (some []) := by
  rcases h.cases with ⟨-, ⟨t, he, hc⟩ | ⟨he, hc⟩⟩ | ⟨i, -, he, hc⟩ |
    ⟨-, m, hc, ⟨he, -⟩ | ⟨t, he, -⟩⟩ | ⟨-, vs, hc, ⟨he, -⟩ | ⟨l, he, -⟩⟩ <;> simp [he, hc]

theorem Entry.Shows.pop_iff {e : Entry} {x : Cell} (h : e.Shows x) (side : Side)
    (P : Bytes → Prop) :
    (∀ l v l', e.value = .list l → l.pop side = some (v, l') → P v) ↔
      ∀ vs v vs', x.value = .list vs → Cell.popped side vs = some (v, vs') → P v := by
  rcases h.cases with ⟨-, ⟨t, he, hc⟩ | ⟨he, hc⟩⟩ | ⟨i, -, he, hc⟩ |
    ⟨-, m, hc, ⟨he, -⟩ | ⟨t, he, -⟩⟩ | ⟨-, vs, hc, ⟨he, rfl⟩ | ⟨l, he, rfl, hlen⟩⟩
  -- A list with nodes; the other entries hold nothing that could be popped.
  case inr.inr.inr.inr =>
    have hpop := pop_shows side ((by simpa using hlen) : l.length = l.nodes.length)
    rw [he, hc]
    constructor
    · rintro hall vs v vs' hvs hv
      obtain rfl := View.list.inj hvs
      cases hp : l.pop side with
      | none =>
        rw [hp] at hpop
        exact absurd (hpop.symm.trans hv) (by simp)
      | some y =>
        rw [hp] at hpop
        rw [hpop.1, Option.some.injEq, Prod.mk.injEq] at hv
        exact hv.1 ▸ hall l y.1 y.2 rfl hp
    · rintro hall l' v l'' hl hv
      obtain rfl := Payload.list.inj hl
      rw [hv] at hpop
      exact hall _ v _ rfl hpop.1
  case inr.inr.inr.inl =>
    rw [he, hc]
    refine ⟨fun _ vs v vs' hvs hv => ?_, fun _ l v l' hl => absurd hl (by simp)⟩
    obtain rfl := View.list.inj hvs
    cases side <;> exact absurd hv (by simp [Cell.popped])
  all_goals simp [he, hc]

theorem Session.intact_iff (h : s.Shows K) {c : Call} (hcheck : c.cmd.check c.lim = .ok ()) :
    s.Intact c ↔ ∀ x, K c.cmd.key = some x → Cell.Intact c.cmd x := by
  -- What is asked of the entry of the key, if it has one, is asked of its cell.
  have lift : ∀ {P : Entry → Prop} {Q : Cell → Prop} (key : Key), (∀ e x, e.Shows x → (P e ↔ Q x)) →
      ((∀ e, s.store.lookup key = some e → P e) ↔ ∀ x, K key = some x → Q x) := by
    intro P Q key hPQ
    rcases rel_cases (h key) with ⟨he, hK⟩ | ⟨e, x, he, hK, hex⟩ <;> rw [he, hK]
    · simp
    · simp only [Option.some.injEq, forall_eq']
      exact hPQ _ _ hex
  obtain ⟨lim, now, now', cmd⟩ := c
  simp only [Session.Intact, hcheck, true_imp_iff]
  cases cmd with
  | get key => exact lift key fun e x hex => hex.ne_empty_iff
  | pop side key => exact lift key fun e x hex => hex.pop_iff side _
  | _ => simp [Cell.Intact]

theorem mapError_command_inj {x y : Except CommandError Reply} :
    x.mapError SharedCommandError.command = y.mapError .command ↔ x = y := by
  cases x <;> cases y <;> simp [Except.mapError]

/-- The same call in both modes. -/
theorem SameCells.call (h : SameCells hashBytes s S K) {c : Call} (hc : c.cmd.Compared) :
    (∃ K', SameCells hashBytes (s.call c)
      (S.exec hashBytes enough c.lim c.now c.now' c.cmd).1 K') ∧
    ((S.exec hashBytes enough c.lim c.now c.now' c.cmd).2.2 =
      (s.exec c.lim c.now c.now' c.cmd).2.mapError .command ↔ s.Intact c) := by
  have htyped := h.typed.call c
  rw [Session.call, Session.exec] at htyped
  rw [Session.call, Session.exec, SharedStore.exec]
  cases hcheck : c.cmd.check c.lim with
  | error err => exact ⟨⟨K, h⟩, by simp [Session.Intact, hcheck, Except.mapError]⟩
  | ok u =>
    rw [hcheck] at htyped
    obtain ⟨hreply, hs⟩ := Session.perform_shows h.session h.typed hcheck c.now c.now'
    obtain ⟨S', evs, hS, heq⟩ := SharedStore.perform_shows enough_eq h.shared hcheck hc.text
      hc.length c.now c.now'
    -- On cells without an expiry the two modes differ in the values they cut off.
    have ha := Cell.perform_agrees hc (h.lasting c.cmd.key) c.now c.now'
    simp only [heq]
    refine ⟨⟨_, htyped, hs, ?_, ?_⟩, ?_⟩
    · rw [ha.cell] at hS
      convert hS using 2 with k
      by_cases hk : k = c.cmd.key
      · rw [hk, Function.update_self, Function.update_self]
      · rw [Function.update_of_ne hk, Function.update_of_ne hk]
    · intro k
      by_cases hk : k = c.cmd.key
      · rw [hk, Function.update_self]
        exact ha.lasting
      · rw [Function.update_of_ne hk]
        exact h.lasting k
    · rw [Session.intact_iff h.session hcheck, ← ha.reply, hreply, mapError_command_inj]

/-- The replies from keyspaces that hold the same. -/
theorem SameCells.replies_iff (h : SameCells hashBytes s S K) (cs : List Call)
    (hcs : ∀ c ∈ cs, c.cmd.Compared) :
    S.replies hashBytes enough cs = (s.replies cs).map (Except.mapError .command) ↔
      Meets (fun s c => some (Session.call s c)) Session.Intact s cs := by
  induction cs generalizing s S K with
  | nil => simp [SharedStore.replies, Session.replies, Meets]
  | cons c cs ih =>
    obtain ⟨⟨K', h'⟩, hreply⟩ := h.call (hcs c List.mem_cons_self)
    rw [SharedStore.replies, Session.replies, List.map_cons, List.cons.injEq, hreply,
      ih h' fun c' hc' => hcs c' (List.mem_cons_of_mem _ hc')]
    simp only [Meets, Option.some.injEq, forall_eq']

theorem sameCells_init : SameCells hashBytes .init .empty fun _ => none where
  typed := fun k e he => absurd he (by simp [Session.init])
  session := Session.shows_init
  shared := fun _ => .none
  lasting := fun _ _ h => absurd h (by simp)

end

/-- The replies of one client are the same in both modes if and only if no `GET` meets an
    empty string and no pop a value longer than 65535 bytes. -/
theorem replies_eq_iff (hashBytes : Bytes → UInt32) (cs : List Call)
    (hcs : ∀ c ∈ cs, c.cmd.Compared) :
    SharedStore.empty.replies hashBytes enough cs =
        (Session.init.replies cs).map (Except.mapError .command) ↔
      Meets (fun s c => some (Session.call s c)) Session.Intact Session.init cs :=
  sameCells_init.replies_iff cs hcs

/-- `SET k v`, `GET k`, `LPUSH l v`, `LPOP l`: the replies are the same. -/
theorem replies_eq_of_short :
    let cs : List Call := [⟨⟨0, 0⟩, 0, 0, .set [107] [118]⟩, ⟨⟨0, 0⟩, 0, 0, .get [107]⟩,
      ⟨⟨0, 0⟩, 0, 0, .push .left [108] [118]⟩, ⟨⟨0, 0⟩, 0, 0, .pop .left [108]⟩]
    SharedStore.empty.replies (fun _ => 0) enough cs =
      (Session.init.replies cs).map (Except.mapError .command) := by
  refine (replies_eq_iff _ _ fun c hc => ?_).2 ?_
  · simp only [List.mem_cons, List.not_mem_nil, or_false] at hc
    rcases hc with rfl | rfl | rfl | rfl <;> exact ⟨by simp, by simp [Command.field?], by simp⟩
  · simp only [Meets, Option.some.injEq, forall_eq', and_true]
    refine ⟨fun _ => trivial, fun _ e he => ?_, fun _ => trivial, fun _ e he l v l' hl hp => ?_⟩
    · cases he
      exact fun h => absurd (show Payload.str [118] = .str [] from h) (by simp)
    · cases he
      cases hl
      cases hp
      decide

/-- `SET k ''` and `GET k`: the replies are not the same. -/
theorem get_empty_differs :
    ¬∀ (hashBytes : Bytes → UInt32) (cs : List Call), (∀ c ∈ cs, c.cmd.Compared) →
      SharedStore.empty.replies hashBytes enough cs =
        (Session.init.replies cs).map (Except.mapError .command) := by
  intro h
  have hsame := h (fun _ => 0) [⟨⟨0, 0⟩, 0, 0, .set [107] []⟩, ⟨⟨0, 0⟩, 0, 0, .get [107]⟩]
    fun c hc => by
      simp only [List.mem_cons, List.not_mem_nil, or_false] at hc
      rcases hc with rfl | rfl <;> exact ⟨by simp, by simp [Command.field?], by simp⟩
  exact absurd hsame (by decide)

end PgRedis
