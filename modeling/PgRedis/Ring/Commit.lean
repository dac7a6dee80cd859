import PgRedis.Ring.Publish

/-!
# Drains inside transactions

A drain persists its batch through the transaction of the backend that runs it:
the background worker opens one for the drain, a `sync_flush` producer runs
`pg_redis_persistence_sync_drain` in a subtransaction of whatever transaction its
user has open. The rows of the batch become durable when that top-level
transaction commits, and vanish when it, or a subtransaction holding them, rolls
back. The slots, however, are released as soon as the SQL statements have run.

So an event can leave the ring and then lose its rows: its transaction persists
it, releases it, and rolls back (`drained_event_vanishes`). Beside the drains the
producers publish, one atomic access at a time (`PgRedis.Ring.Publish`). A run
whose reservations are fresh loses no event exactly when every rollback finds the
events of the rows it undoes still in the ring (`kept_iff_safe`).
-/

namespace PgRedis.Ring.Commit

open Lib Drain

/-- The durable effect of the event published at a position. -/
structure Row (ε : Type*) where
  pos : ℕ
  ev : ε
  deriving DecidableEq, Repr

/-- Where a backend is within `pg_redis_persistence_async_drain`. -/
inductive Phase
  | idle
  | collected
  /-- The SQL statements have run, the slots are not yet released. -/
  | persisted
  /-- An error was raised: the current (sub)transaction has to be rolled back. -/
  | failed
  deriving DecidableEq, Repr

/-- The ring with its producers `π` and drainers `β`, the rows written at each level
    of the transaction of each backend (innermost first, `[]` outside of any
    transaction), the drain of each backend, and the rows committed. -/
structure State (cap : ℕ) (ε π β : Type*) where
  pub : Publish.State cap ε π β
  txn : β → List (List (Row ε))
  phase : β → Phase
  committed : List (Row ε)

/-- The steps: the accesses of the producers, and those of the drains and
    transactions of the backends. A subtransaction is that of `sync_drain` or any
    other of the user's. -/
inductive Action (ε π β : Type*)
  | call (q : π) (ev : ε)
  | produce (q : π) (now : ℤ)
  | begin (b : β)
  | beginSub (b : β)
  | collect (b : β) (max : ℕ)
  | persist (b : β)
  | persistFail (b : β)
  | release (b : β)
  | releaseSub (b : β)
  | rollbackSub (b : β)
  | commit (b : β)
  | abort (b : β)

variable {cap : ℕ} {ε π β : Type*}

/-- A fresh ring, no transaction open. -/
def init [Inhabited ε] : State cap ε π β := ⟨Publish.init, fun _ => [], fun _ => .idle, []⟩

/-- The rows of a batch. -/
def rows (bt : Batch ε) : List (Row ε) :=
  bt.events.mapIdx fun i ev => ⟨bt.base + i, ev⟩

section

variable [DecidableEq β]

/-- Setting the transaction levels of `b`. -/
def setTxn (b : β) (ls : List (List (Row ε))) (s : State cap ε π β) : State cap ε π β :=
  { s with txn := Function.update s.txn b ls }

/-- Setting the drain phase of `b`. -/
def setPhase (b : β) (ph : Phase) (s : State cap ε π β) : State cap ε π β :=
  { s with phase := Function.update s.phase b ph }

/-- Forgetting the batch of `b`, whose slots stay as they are. -/
def dropBatch (b : β) (s : State cap ε π β) : State cap ε π β :=
  { s with pub := { s.pub with batch := Function.update s.pub.batch b none } }

variable [DecidableEq π]

/-- One step. A drain runs within a transaction. After an error only a rollback
    is possible; the top-level transaction may be aborted at any point. -/
def step (s : State cap ε π β) : Action ε π β → Option (State cap ε π β)
  | .call q ev => (Publish.step s.pub (.call q ev)).map fun p => { s with pub := p }
  | .produce q now => (Publish.step s.pub (.produce q now)).map fun p => { s with pub := p }
  | .begin b => match s.txn b with
    | [] => some (setTxn b [[]] s)
    | _ => none
  | .beginSub b => match s.txn b, s.phase b with
    | l :: ls, .idle => some (setTxn b ([] :: l :: ls) s)
    | _, _ => none
  | .collect b max => match s.txn b, s.phase b with
    | _ :: _, .idle => (Publish.step s.pub (.collect b max)).map fun p =>
        if (p.batch b).isSome then setPhase b .collected { s with pub := p }
        else { s with pub := p }
    | _, _ => none
  | .persist b => match s.txn b, s.phase b, s.pub.batch b with
    | l :: ls, .collected, some bt =>
      some (setPhase b .persisted (setTxn b ((l ++ rows bt) :: ls) s))
    | _, _, _ => none
  | .persistFail b => match s.phase b with
    | .collected => (Publish.step s.pub (.abort b)).map fun p =>
        setPhase b .failed { s with pub := p }
    | _ => none
  | .release b => match s.phase b with
    | .persisted => (Publish.step s.pub (.release b)).map fun p =>
        setPhase b .idle { s with pub := p }
    | _ => none
  | .releaseSub b => match s.txn b, s.phase b with
    | l :: l' :: ls, .idle => some (setTxn b ((l' ++ l) :: ls) s)
    | _, _ => none
  | .rollbackSub b => match s.txn b, s.phase b with
    | _ :: l' :: ls, .idle | _ :: l' :: ls, .failed =>
      some (setPhase b .idle (setTxn b (l' :: ls) s))
    | _, _ => none
  | .commit b => match s.txn b, s.phase b with
    | [l], .idle => some { setTxn b [] s with committed := s.committed ++ l }
    | _, _ => none
  | .abort b => match s.txn b with
    | [] => none
    | _ => some (setPhase b .idle (setTxn b [] (dropBatch b s)))

end

/-- The rows of the running transaction of `b`. -/
def running (s : State cap ε π β) (b : β) : List (Row ε) := (s.txn b).flatten

/-- The rows a step undoes. -/
def undone (s : State cap ε π β) : Action ε π β → List (Row ε)
  | .rollbackSub b => (s.txn b).headD []
  | .abort b => running s b
  | _ => []

/-- A rollback finds the events of the rows it undoes still in the ring. -/
def Safe (s : State cap ε π β) (a : Action ε π β) : Prop :=
  ∀ row ∈ undone s a, s.pub.ring.readHead ≤ row.pos

/-- A reservation that succeeds is made while `write_head` still is the position
    the producer read. -/
def Fresh (s : State cap ε π β) : Action ε π β → Prop
  | .produce q now => Publish.Fresh s.pub (.produce q now)
  | _ => True

/-- The event of a publish that returned OK is in the ring, in the hands of a running
    transaction, or committed. -/
def Kept (s : State cap ε π β) : Prop :=
  ∀ a ∈ s.pub.acks,
    (s.pub.ring.readHead ≤ a.w ∧ (s.pub.ring.slot a.w).Live ∧
      (s.pub.ring.slot a.w).payload = a.ev) ∨
    (∃ b, ⟨a.w, a.ev⟩ ∈ running s b) ∨ ⟨a.w, a.ev⟩ ∈ s.committed

/-! ## The ledger of rows -/

/-- The rows written for batches whose slots are not yet released. -/
def written (s : State cap ε π β) (b : β) : List (Row ε) :=
  match s.phase b, s.pub.batch b with
  | .persisted, some bt => rows bt
  | _, _ => []

/-- Where the rows are, given the read head, the log, the rows `R` of the running
    transactions, those `W` among them whose slots are not released, and the
    committed ones: each released event has one row, and there are no others. -/
structure Ledger (head : ℕ) (log : List ε) (R W : β → List (Row ε)) (com : List (Row ε)) :
    Prop where
  gone : ∀ p (hp : p < log.length), p < head →
    (∃ b, ⟨p, log[p]⟩ ∈ R b) ∨ ⟨p, log[p]⟩ ∈ com
  fresh : ∀ b, ∀ row ∈ R b, row.pos < head ∨ row ∈ W b
  wrote : ∀ b, ∀ row ∈ W b, row ∈ R b
  done : ∀ row ∈ com, row.pos < head
  nodup : ∀ b, ((R b).map Row.pos).Nodup
  disjoint : ∀ b b', b ≠ b' → ∀ row ∈ R b, ∀ row' ∈ R b', row.pos ≠ row'.pos
  apart : ∀ b, ∀ row ∈ R b, ∀ row' ∈ com, row.pos ≠ row'.pos

namespace Ledger

variable {head : ℕ} {log : List ε} {R W : β → List (Row ε)} {com : List (Row ε)}

theorem append (h : Ledger head log R W com) (hle : head ≤ log.length) (ev : ε) :
    Ledger head (log ++ [ev]) R W com :=
  { h with
    gone := fun p hp hlt => by
      rw [List.getElem_append_left (by omega)]
      exact h.gone p (by omega) hlt }

variable [DecidableEq β] {b : β}

/-- The rows of a transaction may be rearranged. -/
theorem perm (h : Ledger head log R W com) {l : List (Row ε)} (hl : l.Perm (R b)) :
    Ledger head log (Function.update R b l) W com := by
  have hmem : ∀ b' row, row ∈ Function.update R b l b' ↔ row ∈ R b' := fun b' row => by
    by_cases hb : b' = b
    · rw [hb, Function.update_self, hl.mem_iff]
    · rw [Function.update_of_ne hb]
  constructor
  · simp only [hmem]
    exact h.gone
  · simp only [hmem]
    exact h.fresh
  · simp only [hmem]
    exact h.wrote
  · exact h.done
  · intro b'
    by_cases hb : b' = b
    · rw [hb, Function.update_self, (hl.map Row.pos).nodup_iff]
      exact h.nodup b
    · rw [Function.update_of_ne hb]
      exact h.nodup b'
  · simp only [hmem]
    exact h.disjoint
  · simp only [hmem]
    exact h.apart

/-- Writing rows for events still in the ring. -/
theorem write (h : Ledger head log R W com) {l : List (Row ε)} (hW : ∀ b', W b' = [])
    (hnew : ∀ row ∈ l, head ≤ row.pos) (hnd : (l.map Row.pos).Nodup) :
    Ledger head log (Function.update R b (R b ++ l)) (Function.update W b l) com := by
  -- No slot waits to be released, so every row that was there is of a released event.
  have hold : ∀ b', ∀ row ∈ R b', row.pos < head := fun b' row hrow => by
    simpa [hW b'] using h.fresh b' row hrow
  have hmem : ∀ b' row, row ∈ Function.update R b (R b ++ l) b' →
      row ∈ R b' ∨ (b' = b ∧ row ∈ l) := fun b' row hrow => by
    by_cases hb : b' = b
    · rw [hb, Function.update_self, List.mem_append] at hrow
      rw [hb]
      exact hrow.imp_right fun hl => ⟨rfl, hl⟩
    · rw [Function.update_of_ne hb] at hrow
      exact .inl hrow
  have hsub : ∀ b' row, row ∈ R b' → row ∈ Function.update R b (R b ++ l) b' :=
    fun b' row hrow => by
      by_cases hb : b' = b
      · rw [hb] at hrow ⊢
        rw [Function.update_self]
        exact List.mem_append_left _ hrow
      · rwa [Function.update_of_ne hb]
  constructor
  · exact fun p hp hlt => (h.gone p hp hlt).imp_left fun ⟨b', hb'⟩ => ⟨b', hsub b' _ hb'⟩
  · intro b' row hrow
    rcases hmem b' row hrow with hr | ⟨rfl, hl⟩
    · exact .inl (hold b' row hr)
    · rw [Function.update_self]
      exact .inr hl
  · intro b' row hrow
    by_cases hb : b' = b
    · rw [hb, Function.update_self] at hrow ⊢
      exact List.mem_append_right _ hrow
    · rw [Function.update_of_ne hb, hW b'] at hrow
      exact absurd hrow List.not_mem_nil
  · exact h.done
  · intro b'
    by_cases hb : b' = b
    · rw [hb, Function.update_self, List.map_append, List.nodup_append]
      refine ⟨h.nodup b, hnd, fun p hp p' hp' => ?_⟩
      obtain ⟨row, hrow, rfl⟩ := List.mem_map.1 hp
      obtain ⟨row', hrow', rfl⟩ := List.mem_map.1 hp'
      exact ((hold b row hrow).trans_le (hnew row' hrow')).ne
    · rw [Function.update_of_ne hb]
      exact h.nodup b'
  · intro b₁ b₂ hne row hrow row' hrow'
    rcases hmem b₁ row hrow with hr | ⟨rfl, hl⟩
    · rcases hmem b₂ row' hrow' with hr' | ⟨rfl, hl'⟩
      · exact h.disjoint b₁ b₂ hne row hr row' hr'
      · exact ((hold b₁ row hr).trans_le (hnew row' hl')).ne
    · rcases hmem b₂ row' hrow' with hr' | ⟨rfl, -⟩
      · exact ((hold b₂ row' hr').trans_le (hnew row hl)).ne'
      · exact absurd rfl hne
  · intro b' row hrow row' hrow'
    rcases hmem b' row hrow with hr | ⟨rfl, hl⟩
    · exact h.apart b' row hr row' hrow'
    · exact ((h.done row' hrow').trans_le (hnew row hl)).ne'

/-- Releasing the slots of the rows written by `b`, which are those of all the
    events up to the new read head. -/
theorem release (h : Ledger head log R W com) {head' : ℕ} (hle : head ≤ head')
    (hW : ∀ row ∈ W b, row.pos < head')
    (hall : ∀ p (hp : p < log.length), head ≤ p → p < head' → ⟨p, log[p]⟩ ∈ W b) :
    Ledger head' log R (Function.update W b []) com where
  gone p hp hlt := by
    rcases Nat.lt_or_ge p head with hp' | hp'
    · exact h.gone p hp hp'
    · -- An event that goes now is in a row that `b` has written.
      exact .inl ⟨b, h.wrote b _ (hall p hp hp' hlt)⟩
  fresh b' row hrow := by
    rcases h.fresh b' row hrow with hr | hr
    · exact .inl (hr.trans_le hle)
    · by_cases hb : b' = b
      · exact .inl (hW row (hb ▸ hr))
      · rw [Function.update_of_ne hb]
        exact .inr hr
  wrote b' row hrow := by
    by_cases hb : b' = b
    · rw [hb, Function.update_self] at hrow
      exact absurd hrow List.not_mem_nil
    · rw [Function.update_of_ne hb] at hrow
      exact h.wrote b' row hrow
  done row hrow := (h.done row hrow).trans_le hle
  nodup := h.nodup
  disjoint := h.disjoint
  apart := h.apart

/-- Undoing the rows `l` of `b`, all of events still in the ring. -/
theorem undo (h : Ledger head log R W com) {l l' : List (Row ε)} (hR : R b = l ++ l')
    (hl : ∀ row ∈ l, head ≤ row.pos) (hW : W b = [] ∨ l' = []) :
    Ledger head log (Function.update R b l') (Function.update W b []) com := by
  have hmem : ∀ b' row, row ∈ Function.update R b l' b' → row ∈ R b' := fun b' row hrow => by
    by_cases hb : b' = b
    · rw [hb, Function.update_self] at hrow
      rw [hb, hR]
      exact List.mem_append_right _ hrow
    · rwa [Function.update_of_ne hb] at hrow
  constructor
  · intro p hp hlt
    refine (h.gone p hp hlt).imp_left fun ⟨b', hb'⟩ => ⟨b', ?_⟩
    by_cases hb : b' = b
    · rw [hb, hR, List.mem_append] at hb'
      rw [hb, Function.update_self]
      -- What is undone is of an event that the ring still has.
      refine hb'.resolve_left fun hmem => ?_
      exact absurd hlt (hl _ hmem).not_gt
    · rwa [Function.update_of_ne hb]
  · intro b' row hrow
    by_cases hb : b' = b
    · rw [hb] at hrow ⊢
      rcases hW with hW | rfl
      · refine (h.fresh b row (hmem b row hrow)).imp_right fun hr => ?_
        rw [hW] at hr
        exact absurd hr List.not_mem_nil
      · rw [Function.update_self] at hrow
        exact absurd hrow List.not_mem_nil
    · rw [Function.update_of_ne hb]
      exact h.fresh b' row (hmem b' row hrow)
  · intro b' row hrow
    by_cases hb : b' = b
    · rw [hb, Function.update_self] at hrow
      exact absurd hrow List.not_mem_nil
    · rw [Function.update_of_ne hb] at hrow ⊢
      exact h.wrote b' row hrow
  · exact h.done
  · intro b'
    by_cases hb : b' = b
    · rw [hb, Function.update_self]
      have := h.nodup b
      rw [hR, List.map_append, List.nodup_append] at this
      exact this.2.1
    · rw [Function.update_of_ne hb]
      exact h.nodup b'
  · exact fun b₁ b₂ hne row hrow row' hrow' =>
      h.disjoint b₁ b₂ hne row (hmem b₁ row hrow) row' (hmem b₂ row' hrow')
  · exact fun b' row hrow row' hrow' => h.apart b' row (hmem b' row hrow) row' hrow'

/-- A row of a released event, undone, is nowhere any more. -/
theorem lost (h : Ledger head log R W com) {l l' : List (Row ε)} (hR : R b = l ++ l')
    {row : Row ε} (hrow : row ∈ l) :
    (∀ b', ∀ row' ∈ Function.update R b l' b', row'.pos ≠ row.pos) ∧
      ∀ row' ∈ com, row'.pos ≠ row.pos := by
  have hin : row ∈ R b := hR ▸ List.mem_append_left _ hrow
  refine ⟨fun b' row' hrow' => ?_, fun row' hrow' => (h.apart b row hin row' hrow').symm⟩
  by_cases hb : b' = b
  · rw [hb, Function.update_self] at hrow'
    have hnd := h.nodup b
    rw [hR, List.map_append, List.nodup_append] at hnd
    exact (hnd.2.2 _ (List.mem_map_of_mem hrow) _ (List.mem_map_of_mem hrow')).symm
  · rw [Function.update_of_ne hb] at hrow'
    exact h.disjoint b' b hb row' hrow' row hin

/-- Committing the rows of `b`, all of released events. -/
theorem commit (h : Ledger head log R W com) (hW : W b = []) :
    Ledger head log (Function.update R b []) W (com ++ R b) := by
  have hmem : ∀ b' row, row ∈ Function.update R b [] b' → row ∈ R b' ∧ b' ≠ b :=
    fun b' row hrow => by
      by_cases hb : b' = b
      · rw [hb, Function.update_self] at hrow
        exact absurd hrow List.not_mem_nil
      · rw [Function.update_of_ne hb] at hrow
        exact ⟨hrow, hb⟩
  constructor
  · -- An event that is gone was in the rows of some backend: if of `b`, it is committed now.
    intro p hp hlt
    rcases h.gone p hp hlt with ⟨b', hb'⟩ | hc
    · by_cases hb : b' = b
      · exact .inr (List.mem_append_right _ (hb ▸ hb'))
      · refine .inl ⟨b', ?_⟩
        rwa [Function.update_of_ne hb]
    · exact .inr (List.mem_append_left _ hc)
  · exact fun b' row hrow => h.fresh b' row (hmem b' row hrow).1
  · -- No batch written by another backend is `b`'s, whose batches are all released.
    intro b' row hrow
    have hne : b' ≠ b := by
      rintro rfl
      rw [hW] at hrow
      exact absurd hrow List.not_mem_nil
    rw [Function.update_of_ne hne]
    exact h.wrote b' row hrow
  · intro row hrow
    rcases List.mem_append.1 hrow with hc | hr
    · exact h.done row hc
    · refine (h.fresh b row hr).resolve_right ?_
      rw [hW]
      exact List.not_mem_nil
  · intro b'
    by_cases hb : b' = b
    · rw [hb, Function.update_self]
      exact List.nodup_nil
    · rw [Function.update_of_ne hb]
      exact h.nodup b'
  · exact fun b₁ b₂ hne row hrow row' hrow' =>
      h.disjoint b₁ b₂ hne row (hmem b₁ row hrow).1 row' (hmem b₂ row' hrow').1
  · intro b' row hrow row' hrow'
    obtain ⟨hr, hb⟩ := hmem b' row hrow
    rcases List.mem_append.1 hrow' with hc | hr'
    · exact h.apart b' row hr row' hc
    · exact h.disjoint b' b hb row hr row' hr'

end Ledger

theorem mem_rows {bt : Batch ε} {row : Row ε} :
    row ∈ rows bt ↔ ∃ i, ∃ hi : i < bt.size, row = ⟨bt.base + i, bt.events[i]⟩ := by
  simp only [rows, List.mem_mapIdx, Batch.size, eq_comm]

theorem nodup_rows (bt : Batch ε) : ((rows bt).map Row.pos).Nodup := by
  have heq : (rows bt).map Row.pos = List.range' bt.base bt.size := by
    apply List.ext_getElem
    · simp [rows, Batch.size]
    · intro i _ _
      simp [rows]
  rw [heq]
  exact List.nodup_range'

/-! ## The publishes -/

section

variable {r : Ring cap ε} {batch : β → Option (Batch ε)} {acks : List (Publish.Ack ε)}

theorem length_acks (h : Publish.Settled r batch acks) : acks.length = r.writeHead := by
  have hlen := congrArg List.length h.positions
  rwa [List.length_map, List.length_range] at hlen

/-- The publish acknowledged for a position. -/
theorem acks_get (h : Publish.Settled r batch acks) {p : ℕ} (hp : p < acks.length) :
    acks[p].w = p := by
  have hw := congrArg (fun l => l[p]?) h.positions
  simp only [List.getElem?_map, List.getElem?_eq_getElem hp, Option.map_some] at hw
  rw [List.getElem?_range (length_acks h ▸ hp)] at hw
  exact Option.some.inj hw

/-- The log of the events acknowledged, by their positions. -/
theorem log_get (h : Publish.Settled r batch acks) {a : Publish.Ack ε} (ha : a ∈ acks) :
    ∃ hp : a.w < (acks.map Publish.Ack.ev).length, (acks.map Publish.Ack.ev)[a.w] = a.ev := by
  obtain ⟨p, hp, rfl⟩ := List.mem_iff_getElem.1 ha
  have hw := acks_get h hp
  refine ⟨?_, ?_⟩
  · rw [hw, List.length_map]
    exact hp
  · simp only [hw, List.getElem_map]

/-- A batch forgotten, its slots as they are. -/
theorem settled_drop [DecidableEq β] (h : Publish.Settled r batch acks) (b : β) :
    Publish.Settled r (Function.update batch b none) acks := by
  have hold : ∀ b' bt, Function.update batch b none b' = some bt → batch b' = some bt := by
    intro b' bt hbt
    by_cases hb : b' = b
    · rw [hb, Function.update_self] at hbt
      exact absurd hbt (by simp)
    · rwa [Function.update_of_ne hb] at hbt
  exact { h with
    size := fun b' bt hbt => h.size b' bt (hold b' bt hbt)
    flight := fun b' bt hbt => h.flight b' bt (hold b' bt hbt)
    unique := fun b₁ b₂ bt₁ bt₂ h₁ h₂ => h.unique b₁ b₂ bt₁ bt₂ (hold b₁ bt₁ h₁) (hold b₂ bt₂ h₂) }

variable [DecidableEq π]

/-- An access of a producer leaves the read head and the batches, and acknowledges one
    publish at most. -/
theorem produce_frame {p p' : Publish.State cap ε π β} {q : π} {now : ℤ}
    (hst : Publish.produce q now p = some p') : p'.ring.readHead = p.ring.readHead ∧
      p'.batch = p.batch ∧ (p'.acks = p.acks ∨ ∃ a, p'.acks = p.acks ++ [a]) := by
  rw [Publish.produce] at hst
  cases hpc : p.pc q <;> simp only [hpc] at hst
  case idle => exact absurd hst (by simp)
  case readWrite | stamp | fill =>
    obtain rfl := Option.some.inj hst
    exact ⟨rfl, rfl, .inl rfl⟩
  case readRead | reserve | publish =>
    split_ifs at hst <;> obtain rfl := Option.some.inj hst <;> exact ⟨rfl, rfl, .inl rfl⟩
  case advance ev w =>
    obtain rfl := Option.some.inj hst
    rw [Publish.goto, Publish.acknowledge]
    split_ifs
    · exact ⟨rfl, rfl, .inr ⟨_, rfl⟩⟩
    · exact ⟨rfl, rfl, .inr ⟨_, rfl⟩⟩

end

/-! ## Steps -/

/-- The invariant of the producers and backends. -/
structure Inv (s : State cap ε π β) : Prop where
  pub : Publish.Inv s.pub
  ledger : Ledger s.pub.ring.readHead (s.pub.acks.map Publish.Ack.ev) (running s) (written s)
    s.committed

theorem inv_init [Inhabited ε] : Inv (init : State cap ε π β) where
  pub := Publish.inv_init
  ledger := by
    constructor <;> simp [init, Publish.init, running, written]

theorem Inv.kept {s : State cap ε π β} (h : Inv s) : Kept s := by
  intro a ha
  have hset := h.pub.settled
  obtain ⟨hp, hev⟩ := log_get hset ha
  rcases Nat.lt_or_ge a.w s.pub.ring.readHead with hlt | hge
  · have hgone := h.ledger.gone a.w hp hlt
    rw [hev] at hgone
    exact .inr hgone
  · exact .inl ⟨hge, (hset.live a.w hge (hset.lt_of_mem ha)).1, (hset.acked a ha).2 hge⟩

variable {s s' : State cap ε π β} {b : β}

theorem written_of_ne (h : s.phase b ≠ .persisted) : written s b = [] := by
  rw [written]
  split
  · exact absurd ‹_› h
  · rfl

theorem written_of_eq {bt : Batch ε} (hph : s.phase b = .persisted)
    (hbt : s.pub.batch b = some bt) : written s b = rows bt := by
  rw [written, hph, hbt]

variable [DecidableEq β]

theorem running_setTxn (b : β) (ls : List (List (Row ε))) (s : State cap ε π β) :
    running (setTxn b ls s) = Function.update (running s) b ls.flatten := by
  funext b'
  by_cases hb : b' = b
  · simp [running, setTxn, hb]
  · simp [running, setTxn, Function.update_of_ne hb]

/-- Only the phase and the batch of a backend say which of its rows wait for their slots
    to be released. -/
theorem written_update {s' : State cap ε π β}
    (h : ∀ b' ≠ b, s'.phase b' = s.phase b' ∧ s'.pub.batch b' = s.pub.batch b') :
    written s' = Function.update (written s) b (written s' b) := by
  funext b'
  by_cases hb : b' = b
  · rw [hb, Function.update_self]
  · rw [Function.update_of_ne hb, written, written, (h b' hb).1, (h b' hb).2]

/-- Rearranging the rows of the levels of a transaction. -/
theorem inv_perm (h : Inv s) {ls : List (List (Row ε))} (hls : ls.flatten.Perm (running s b)) :
    Inv (setTxn b ls s) := by
  refine ⟨h.pub, ?_⟩
  rw [running_setTxn]
  exact h.ledger.perm hls

/-- A rollback of the rows `l` of `b`. -/
theorem inv_undo (h : Inv s) {l : List (Row ε)} {ls : List (List (Row ε))}
    (hR : running s b = l ++ ls.flatten) (hl : ∀ row ∈ l, s.pub.ring.readHead ≤ row.pos)
    (hW : written s b = [] ∨ ls.flatten = []) :
    Inv (setPhase b .idle (setTxn b ls s)) := by
  refine ⟨h.pub, ?_⟩
  have hrun : running (setPhase b .idle (setTxn b ls s)) = running (setTxn b ls s) := rfl
  have hwritten : written (setPhase b .idle (setTxn b ls s)) = _ := written_update (s := s) (b := b)
    fun b' hb => ⟨Function.update_of_ne hb _ _, rfl⟩
  have hnew : written (setPhase b .idle (setTxn b ls s)) b = [] :=
    written_of_ne (by simp [setPhase])
  rw [hrun, running_setTxn, hwritten, hnew]
  exact h.ledger.undo hR hl hW

/-- A step that writes no row and undoes none, and after which `b` has none waiting. -/
theorem inv_quiet (h : Inv s) (hpub : Publish.Inv s'.pub)
    (hread : s'.pub.ring.readHead = s.pub.ring.readHead) (hacks : s'.pub.acks = s.pub.acks)
    (htxn : s'.txn = s.txn) (hcom : s'.committed = s.committed)
    (hothers : ∀ b' ≠ b, s'.phase b' = s.phase b' ∧ s'.pub.batch b' = s.pub.batch b')
    (hold : written s b = []) (hnew : written s' b = []) : Inv s' := by
  refine ⟨hpub, ?_⟩
  have hrun : running s' = running s := by
    funext b'
    rw [running, running, htxn]
  rw [hread, hacks, hcom, hrun, written_update hothers, hnew, ← hold, Function.update_eq_self]
  exact h.ledger

theorem inv_commit (h : Inv s) {l : List (Row ε)} (htx : s.txn b = [l])
    (hW : written s b = []) :
    Inv { setTxn b [] s with committed := s.committed ++ l } := by
  refine ⟨h.pub, ?_⟩
  have hrun : running s b = l := by simp [running, htx]
  have hrun' : running { setTxn b [] s with committed := s.committed ++ l } =
    Function.update (running s) b [] := running_setTxn b [] s
  rw [hrun', ← hrun]
  exact h.ledger.commit hW

theorem inv_persist (h : Inv s) {bt : Batch ε} (hph : s.phase b = .collected)
    (hbt : s.pub.batch b = some bt) {l : List (Row ε)} {ls : List (List (Row ε))}
    (htx : s.txn b = l :: ls) :
    Inv (setPhase b .persisted (setTxn b ((l ++ rows bt) :: ls) s)) := by
  have hf := h.pub.settled.flight b bt hbt
  -- Nobody else holds a batch, so no row is waiting for its slot to be released.
  have hW : ∀ b', written s b' = [] := fun b' => by
    rw [written]
    split
    · rename_i bt' hph' hbt'
      rw [h.pub.settled.unique b' b bt' bt hbt' hbt, hph] at hph'
      exact absurd hph' (by simp)
    · rfl
  refine ⟨h.pub, ?_⟩
  have hrun : running (setPhase b .persisted (setTxn b ((l ++ rows bt) :: ls) s)) =
      Function.update (Function.update (running s) b (running s b ++ rows bt)) b
        ((l ++ rows bt) :: ls).flatten := by
    rw [Function.update_idem]
    exact running_setTxn b _ s
  have hwritten : written (setPhase b .persisted (setTxn b ((l ++ rows bt) :: ls) s)) = _ :=
    written_update (s := s) (b := b) fun b' hb => ⟨Function.update_of_ne hb _ _, rfl⟩
  have hnew : written (setPhase b .persisted (setTxn b ((l ++ rows bt) :: ls) s)) b = rows bt :=
    written_of_eq (Function.update_self _ _ _) hbt
  rw [hrun, hwritten, hnew]
  refine (h.ledger.write hW (fun row hrow => ?_) (nodup_rows bt)).perm ?_
  · obtain ⟨i, hi, rfl⟩ := mem_rows.1 hrow
    change s.pub.ring.readHead ≤ bt.base + i
    rw [hf.base]
    exact Nat.le_add_right _ _
  · rw [Function.update_self, running, htx, List.flatten_cons, List.flatten_cons,
      List.append_assoc, List.append_assoc]
    exact List.Perm.append_left l List.perm_append_comm

/-- A batch is forgotten, its slots as they are. -/
theorem inv_dropBatch (h : Inv s) (b : β) (hph : s.phase b ≠ .persisted) :
    Inv (dropBatch b s) :=
  inv_quiet h ⟨settled_drop h.pub.settled b, h.pub.frontier⟩ rfl rfl rfl rfl
    (fun _ hb => ⟨rfl, Function.update_of_ne hb _ _⟩) (written_of_ne hph)
    (written_of_ne (s := dropBatch b s) hph)

/-- A top-level transaction is aborted. -/
theorem inv_abort (h : Inv s) (hl : ∀ row ∈ running s b, s.pub.ring.readHead ≤ row.pos) :
    Inv (setPhase b .idle (setTxn b [] (dropBatch b s))) := by
  have hundo : Inv (setPhase b .idle (setTxn b [] s)) :=
    inv_undo h (List.append_nil _).symm hl (.inr rfl)
  exact inv_dropBatch hundo b (by simp [setPhase])

variable [DecidableEq π]

/-- An access of a producer. -/
theorem inv_produce (h : Inv s) {q : π} {now : ℤ} {p : Publish.State cap ε π β}
    (hfresh : Publish.Fresh s.pub (.produce q now))
    (hst : Publish.step s.pub (.produce q now) = some p) : Inv { s with pub := p } := by
  have hp := Publish.inv_step s.pub (.produce q now) p h.pub hfresh hst
  obtain ⟨hread, hbatch, hacks⟩ := produce_frame hst
  refine ⟨hp, ?_⟩
  have hwritten : written { s with pub := p } = written s := by
    funext b'
    rw [written, written, hbatch]
  have hrun : running { s with pub := p } = running s := rfl
  simp only
  rw [hread, hwritten, hrun]
  rcases hacks with heq | ⟨a, heq⟩ <;> rw [heq]
  · exact h.ledger
  · rw [List.map_append, List.map_singleton]
    refine h.ledger.append ?_ a.ev
    rw [List.length_map, length_acks h.pub.settled]
    exact h.pub.settled.le

theorem inv_call (h : Inv s) {q : π} {ev : ε} {p : Publish.State cap ε π β}
    (hst : Publish.step s.pub (.call q ev) = some p) : Inv { s with pub := p } := by
  have hp := Publish.inv_step s.pub (.call q ev) p h.pub trivial hst
  rw [Publish.step] at hst
  split at hst
  · obtain rfl := Option.some.inj hst
    exact ⟨hp, h.ledger⟩
  · exact absurd hst (by simp)

theorem inv_collect (h : Inv s) {max : ℕ} {p : Publish.State cap ε π β} (hph : s.phase b = .idle)
    (hst : Publish.step s.pub (.collect b max) = some p) :
    Inv (if (p.batch b).isSome then setPhase b .collected { s with pub := p }
      else { s with pub := p }) := by
  have hp := Publish.inv_step s.pub (.collect b max) p h.pub trivial hst
  obtain ⟨-, heq⟩ := Publish.step_collect hst
  have hread : p.ring.readHead = s.pub.ring.readHead := by
    rw [heq]
    rfl
  have hacks : p.acks = s.pub.acks := by rw [heq]
  have hbatch : ∀ b' ≠ b, p.batch b' = s.pub.batch b' := by
    intro b' hb
    rw [heq]
    simp only
    split_ifs
    · rfl
    · exact Function.update_of_ne hb _ _
  have hold : written s b = [] := written_of_ne (by simp [hph])
  split_ifs
  · exact inv_quiet h hp hread hacks rfl rfl
      (fun b' hb => ⟨Function.update_of_ne hb _ _, hbatch b' hb⟩) hold
      (written_of_ne (by simp [setPhase]))
  · exact inv_quiet h hp hread hacks rfl rfl (fun b' hb => ⟨rfl, hbatch b' hb⟩) hold
      (written_of_ne (by simp [hph]))

/-- The batch goes back to the ring; no row has been written for it. -/
theorem inv_persistFail (h : Inv s) {p : Publish.State cap ε π β} (hph : s.phase b = .collected)
    (hst : Publish.step s.pub (.abort b) = some p) :
    Inv (setPhase b .failed { s with pub := p }) := by
  have hp := Publish.inv_step s.pub (.abort b) p h.pub trivial hst
  rw [Publish.step, Option.map_eq_some_iff] at hst
  obtain ⟨bt, hbt, rfl⟩ := hst
  exact inv_quiet h hp rfl rfl rfl rfl
    (fun b' hb => ⟨Function.update_of_ne hb _ _, Function.update_of_ne hb _ _⟩)
    (written_of_ne (by simp [hph])) (written_of_ne (by simp [setPhase]))

theorem inv_release (h : Inv s) {p : Publish.State cap ε π β} (hph : s.phase b = .persisted)
    (hst : Publish.step s.pub (.release b) = some p) :
    Inv (setPhase b .idle { s with pub := p }) := by
  have hp := Publish.inv_step s.pub (.release b) p h.pub trivial hst
  rw [Publish.step, Option.map_eq_some_iff] at hst
  obtain ⟨bt, hbt, rfl⟩ := hst
  have hset := h.pub.settled
  have hf := hset.flight b bt hbt
  have hpos := hset.size b bt hbt
  have hW : written s b = rows bt := written_of_eq hph hbt
  have hread : (s.pub.ring.releaseBatch bt.base bt.size).readHead =
      s.pub.ring.readHead + bt.size := by
    rw [releaseBatch, if_neg (by omega), hf.base]
  refine ⟨hp, ?_⟩
  have hwritten : written (setPhase b .idle { s with pub :=
      { s.pub with
        ring := s.pub.ring.releaseBatch bt.base bt.size
        batch := Function.update s.pub.batch b none } }) = _ :=
    written_update (s := s) (b := b) fun b' hb =>
      ⟨Function.update_of_ne hb _ _, Function.update_of_ne hb _ _⟩
  rw [written_of_ne (b := b) (by simp [setPhase])] at hwritten
  rw [hwritten]
  change Ledger (s.pub.ring.releaseBatch bt.base bt.size).readHead _ (running s) _ s.committed
  rw [hread]
  refine h.ledger.release (Nat.le_add_right _ _) (fun row hrow => ?_) fun p hp hle hlt => ?_
  · obtain ⟨i, hi, rfl⟩ := mem_rows.1 (hW ▸ hrow)
    rw [hf.base]
    exact Nat.add_lt_add_left hi _
  · -- The row of the position has the payload of its slot, which is the event acknowledged.
    have hp' : p < s.pub.acks.length := by simpa using hp
    have hack := (hset.acked s.pub.acks[p] (List.getElem_mem hp')).2
    rw [acks_get hset hp'] at hack
    have hpay := hf.payload (p - s.pub.ring.readHead) (by omega)
    have hpos' : s.pub.ring.readHead + (p - s.pub.ring.readHead) = p := by omega
    simp only [hpos', hack hle] at hpay
    refine hW ▸ mem_rows.2 ⟨p - s.pub.ring.readHead, by omega, ?_⟩
    rw [hf.base, hpos', List.getElem_map, hpay]

/-- What a rollback to a savepoint does. -/
theorem rollbackSub_cases (hst : step s (.rollbackSub b) = some s') :
    ∃ l l' ls, s.txn b = l :: l' :: ls ∧ written s b = [] ∧
      s' = setPhase b .idle (setTxn b (l' :: ls) s) := by
  rw [step] at hst
  split at hst
  next l l' ls htx hph =>
    exact ⟨l, l', ls, htx, written_of_ne (by simp [hph]), (Option.some.inj hst).symm⟩
  next l l' ls htx hph =>
    exact ⟨l, l', ls, htx, written_of_ne (by simp [hph]), (Option.some.inj hst).symm⟩
  next => exact absurd hst (by simp)

theorem abort_eq (hst : step s (.abort b) = some s') :
    s' = setPhase b .idle (setTxn b [] (dropBatch b s)) := by
  rw [step] at hst
  split at hst
  · exact absurd hst (by simp)
  · exact (Option.some.inj hst).symm

/-- Every safe step with a fresh reservation keeps the invariant. -/
theorem inv_step (s : State cap ε π β) (a : Action ε π β) (s' : State cap ε π β) (h : Inv s)
    (hfresh : Fresh s a) (hok : Safe s a) (hst : step s a = some s') : Inv s' := by
  -- The steps of producers are those of `Publish`; of the others only `collect`, `persistFail`
  -- and `release` touch the ring, and only an undone row asks for `hok`.
  cases a with
  | call q ev =>
    obtain ⟨p, hp, rfl⟩ := Option.map_eq_some_iff.1 hst
    exact inv_call h hp
  | produce q now =>
    obtain ⟨p, hp, rfl⟩ := Option.map_eq_some_iff.1 hst
    exact inv_produce h hfresh hp
  | begin b =>
    rw [step] at hst
    split at hst
    next htx =>
      obtain rfl := Option.some.inj hst
      exact inv_perm h (by simp [running, htx])
    next => exact absurd hst (by simp)
  | beginSub b =>
    rw [step] at hst
    split at hst
    next l ls htx _ =>
      obtain rfl := Option.some.inj hst
      exact inv_perm h (by simp [running, htx])
    next => exact absurd hst (by simp)
  | collect b max =>
    rw [step] at hst
    split at hst
    next hph =>
      obtain ⟨p, hp, rfl⟩ := Option.map_eq_some_iff.1 hst
      exact inv_collect h hph hp
    next => exact absurd hst (by simp)
  | persist b =>
    rw [step] at hst
    split at hst
    next l ls bt htx hph hbt =>
      obtain rfl := Option.some.inj hst
      exact inv_persist h hph hbt htx
    next => exact absurd hst (by simp)
  | persistFail b =>
    rw [step] at hst
    split at hst
    next hph =>
      obtain ⟨p, hp, rfl⟩ := Option.map_eq_some_iff.1 hst
      exact inv_persistFail h hph hp
    next => exact absurd hst (by simp)
  | release b =>
    rw [step] at hst
    split at hst
    next hph =>
      obtain ⟨p, hp, rfl⟩ := Option.map_eq_some_iff.1 hst
      exact inv_release h hph hp
    next => exact absurd hst (by simp)
  | releaseSub b =>
    rw [step] at hst
    split at hst
    next l l' ls htx _ =>
      obtain rfl := Option.some.inj hst
      -- The rows of the subtransaction become those of the transaction around it.
      refine inv_perm h ?_
      simp only [running, htx, List.flatten_cons, ← List.append_assoc]
      exact List.perm_append_comm.append_right _
    next => exact absurd hst (by simp)
  | rollbackSub b =>
    obtain ⟨l, l', ls, htx, hW, rfl⟩ := rollbackSub_cases hst
    refine inv_undo h (l := l) (by simp [running, htx]) (fun row hrow => hok row ?_) (.inl hW)
    rw [undone, htx]
    exact hrow
  | commit b =>
    rw [step] at hst
    split at hst
    next l htx hph =>
      obtain rfl := Option.some.inj hst
      exact inv_commit h htx (written_of_ne (by simp [hph]))
    next => exact absurd hst (by simp)
  | abort b =>
    rw [abort_eq hst]
    exact inv_abort h hok

omit [DecidableEq π] in
/-- A rollback undoing the row of a released event loses the event. -/
theorem not_kept_of_undo (h : Inv s) {l : List (Row ε)} {ls : List (List (Row ε))}
    (hR : running s b = l ++ ls.flatten) {row : Row ε} (hrow : row ∈ l)
    (hgone : row.pos < s.pub.ring.readHead) : ¬Kept (setPhase b .idle (setTxn b ls s)) := by
  intro hk
  have hset := h.pub.settled
  obtain ⟨hrun, hcom⟩ := h.ledger.lost hR hrow
  have hp : row.pos < s.pub.acks.length := by
    have := hset.le
    rw [length_acks hset]
    omega
  have hrunning : running (setPhase b .idle (setTxn b ls s)) =
      Function.update (running s) b ls.flatten := running_setTxn b ls s
  have hpos := acks_get hset hp
  rcases hk s.pub.acks[row.pos] (List.getElem_mem hp) with ⟨hge, -⟩ | ⟨b', hb'⟩ | hc
  · rw [hpos] at hge
    exact absurd hgone (Nat.not_lt.2 hge)
  · rw [hrunning] at hb'
    exact hrun b' _ hb' hpos
  · exact hcom _ hc hpos

/-- Every other step loses an event. -/
theorem not_kept_step (s : State cap ε π β) (a : Action ε π β) (s' : State cap ε π β) (h : Inv s)
    (hbad : ¬Safe s a) (hst : step s a = some s') : ¬Kept s' := by
  simp only [Safe, not_forall, not_le] at hbad
  obtain ⟨row, hrow, hgone⟩ := hbad
  cases a with
  | rollbackSub b =>
    obtain ⟨l, l', ls, htx, -, rfl⟩ := rollbackSub_cases hst
    rw [undone, htx] at hrow
    exact not_kept_of_undo h (l := l) (by simp [running, htx]) hrow hgone
  | abort b =>
    rw [abort_eq hst]
    have hall : running s b = running s b ++ ([] : List (List (Row ε))).flatten :=
      (List.append_nil _).symm
    exact not_kept_of_undo h hall hrow hgone
  | _ => exact absurd hrow List.not_mem_nil

/-! ## Runs -/

/-- For every run of any number of producers and backends whose reservations are fresh: no
    event whose publish returned OK is ever missing, from the ring, from the running
    transactions and from the committed rows at once, exactly when every rollback of the run
    finds the events of the rows it undoes still in the ring. In such a run, once all
    transactions have ended, every published event is in the ring or committed. -/
theorem kept_iff_safe [Inhabited ε] (as : List (Action ε π β)) (s : State cap ε π β)
    (hfresh : Meets step Fresh (init : State cap ε π β) as) (hrun : run step init as = some s) :
    (Along step Kept (init : State cap ε π β) as ↔
      Meets step Safe (init : State cap ε π β) as) ∧
      (Meets step Safe (init : State cap ε π β) as → (∀ b, s.txn b = []) →
        ∀ a ∈ s.pub.acks, (s.pub.ring.readHead ≤ a.w ∧ (s.pub.ring.slot a.w).Live ∧
          (s.pub.ring.slot a.w).payload = a.ev) ∨ ⟨a.w, a.ev⟩ ∈ s.committed) := by
  have hiff := along_iff_meets (fun _ => Inv.kept) inv_step
    (fun s a s' hs _ => not_kept_step s a s' hs) as init s hfresh inv_init hrun
  refine ⟨hiff, fun hsafe hended a ha => ?_⟩
  have hkept : Kept s := (hiff.2 hsafe).last hrun
  refine (hkept a ha).imp_right fun h => h.resolve_left ?_
  rintro ⟨b, hb⟩
  rw [running, hended b] at hb
  exact absurd hb List.not_mem_nil

/-- A `sync_flush` producer publishes an event, drains it in a subtransaction of its user's
    transaction, which then ends by `last`. -/
def syncDrain (last : Action ℕ Unit Unit) : List (Action ℕ Unit Unit) :=
  .call () 10 :: List.replicate 7 (.produce () 0) ++
    [.begin (), .beginSub (), .collect () 1024, .persist (), .release (), .releaseSub (), last]

/-- Its reservation, of position `0` in an empty ring, is fresh. -/
theorem fresh_syncDrain (last : Action ℕ Unit Unit)
    (hlast : ∀ s : State 1024 ℕ Unit Unit, Fresh s last) :
    Meets step Fresh (init : State 1024 ℕ Unit Unit) (syncDrain last) := by
  have hdrain : ∀ s : State 1024 ℕ Unit Unit, Meets step Fresh s
      [.begin (), .beginSub (), .collect () 1024, .persist (), .release (), .releaseSub (),
        last] := fun s =>
    ⟨trivial, fun _ _ => ⟨trivial, fun _ _ => ⟨trivial, fun _ _ => ⟨trivial, fun _ _ =>
      ⟨trivial, fun _ _ => ⟨trivial, fun s' _ => ⟨hlast s', fun _ _ => trivial⟩⟩⟩⟩⟩⟩⟩
  refine .cons trivial rfl (.cons ?_ rfl (.cons ?_ rfl (.cons ?_ rfl (.cons ?_ rfl (.cons ?_ rfl
    (.cons ?_ rfl (.cons ?_ rfl (hdrain _)))))))) <;> rintro _ _ _ ⟨⟩
  exact fun _ => rfl

/-- The user's transaction commits: the event is durable. -/
theorem kept_of_commit :
    Along step Kept (init : State 1024 ℕ Unit Unit) (syncDrain (.commit ())) :=
  (kept_iff_safe (syncDrain (.commit ()))
    ((run step (init : State 1024 ℕ Unit Unit) (syncDrain (.commit ()))).get rfl)
    (fresh_syncDrain _ fun _ => trivial) (Option.some_get _).symm).1.2
    (by simp [syncDrain, Meets, Safe, undone])

/-- The user's transaction rolls back: the event, published and acknowledged, is
    neither in the ring nor in the tables. -/
theorem drained_event_vanishes :
    ¬∀ s : State 1024 ℕ Unit Unit, Reachable step (fun _ _ => True) init s → Kept s := by
  intro h
  have hrun : Reachable step (fun _ _ => True) (init : State 1024 ℕ Unit Unit)
      ((run step init (syncDrain (.abort ()))).get rfl) :=
    .of_run .init (meets_true _ _) (Option.some_get _).symm
  rcases h _ hrun ⟨0, 10, true⟩ (by decide) with ⟨hge, -⟩ | ⟨b, hb⟩ | hc
  · exact absurd hge (by decide)
  · cases b
    exact absurd hb (by decide)
  · exact absurd hc (by decide)

/-- The run of the delayed producer (`Publish.delayedProducer`) with a drain that commits: its
    event is lost though nothing is rolled back. -/
example : ∃ s : State 1024 ℕ Bool Unit, run step init
    ([.call false 10, .produce false 0, .produce false 0, .call true 11] ++
      List.replicate 7 (.produce true 0) ++
      [.begin (), .collect () 1, .persist (), .release (), .commit ()] ++
      List.replicate 5 (.produce false 0)) = some s ∧ ¬Kept s := by
  refine ⟨_, rfl, fun h => ?_⟩
  rcases h ⟨0, 10, false⟩ (by decide) with ⟨hge, -⟩ | ⟨b, hb⟩ | hc
  · exact absurd hge (by decide)
  · cases b
    exact absurd hb (by decide)
  · exact absurd hc (by decide)

end PgRedis.Ring.Commit
