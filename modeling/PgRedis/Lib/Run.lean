import Mathlib.Data.List.Basic

/-!
# Runs of labelled systems

A *labelled system* on states `σ` with actions `α` is a partial step function
`σ → α → Option σ`: `none` when the action is not enabled. Its runs are lists
of actions. A *guard* `ok : σ → α → Prop` singles out the steps one is willing
to consider: `Reachable` collects the states reached by runs whose steps all
meet the guard.

* `Reachable.invariant`: what holds initially and is kept by every guarded
  step holds of every state reached;
* `along_iff_meets`: when a guarded step keeps an invariant that gives `P`, and
  a step breaking the guard breaks `P`, the runs along which `P` holds are
  exactly those whose steps all meet the guard.
-/

namespace PgRedis.Lib

variable {σ α : Type*} (step : σ → α → Option σ)

/-- The states reached from `s₀` by steps which all meet the guard `ok`. -/
inductive Reachable (ok : σ → α → Prop) (s₀ : σ) : σ → Prop
  | init : Reachable ok s₀ s₀
  | step {s s' : σ} {a : α} : Reachable ok s₀ s → ok s a → step s a = some s' →
      Reachable ok s₀ s'

/-- The state a run ends in, `none` if one of its actions is not enabled. -/
def run : σ → List α → Option σ
  | s, [] => some s
  | s, a :: as => (step s a).bind fun s' => run s' as

/-- `P` holds of every state along the run `as` from `s`. -/
def Along (P : σ → Prop) : σ → List α → Prop
  | s, [] => P s
  | s, a :: as => P s ∧ ∀ s', step s a = some s' → Along P s' as

/-- Every step of the run `as` from `s` meets the guard. -/
def Meets (ok : σ → α → Prop) : σ → List α → Prop
  | _, [] => True
  | s, a :: as => ok s a ∧ ∀ s', step s a = some s' → Meets ok s' as

variable {step} {ok : σ → α → Prop} {s₀ s : σ}

theorem Meets.cons {a : α} {as : List α} {s' : σ} (hok : ok s a) (hst : step s a = some s')
    (h : Meets step ok s' as) : Meets step ok s (a :: as) :=
  ⟨hok, fun _ hst' => Option.some.inj (hst.symm.trans hst') ▸ h⟩

theorem Along.head {P : σ → Prop} {as : List α} (h : Along step P s as) : P s := by
  cases as with
  | nil => exact h
  | cons a as => exact h.1

theorem Along.last {P : σ → Prop} {t : σ} : ∀ {as : List α} {s : σ}, Along step P s as →
    run step s as = some t → P t
  | [], _, h, hr => Option.some.inj hr ▸ h
  | _ :: _, _, h, hr => by
    obtain ⟨s', hst, hr⟩ := Option.bind_eq_some_iff.1 hr
    exact (h.2 s' hst).last hr

theorem meets_true : ∀ (as : List α) (s : σ), Meets step (fun _ _ => True) s as
  | [], _ => trivial
  | _ :: as, _ => ⟨trivial, fun s' _ => meets_true as s'⟩

/-- The invariant rule. -/
theorem Reachable.invariant {Inv : σ → Prop} (h : Reachable step ok s₀ s) (h₀ : Inv s₀)
    (hstep : ∀ s a s', Inv s → ok s a → step s a = some s' → Inv s') : Inv s := by
  induction h with
  | init => exact h₀
  | step _ hok hst ih => exact hstep _ _ _ ih hok hst

/-- A weaker guard reaches no fewer states. -/
theorem Reachable.mono {ok' : σ → α → Prop} (h : Reachable step ok s₀ s)
    (hok : ∀ s a, ok s a → ok' s a) : Reachable step ok' s₀ s := by
  induction h with
  | init => exact .init
  | step _ ha hst ih => exact .step ih (hok _ _ ha) hst

/-- The end of a run whose steps all meet the guard is reachable. -/
theorem Reachable.of_run {t : σ} :
    ∀ {as : List α} {s : σ}, Reachable step ok s₀ s → Meets step ok s as →
      run step s as = some t → Reachable step ok s₀ t
  | [], _, hs, _, hr => by
    rw [run, Option.some.injEq] at hr
    exact hr ▸ hs
  | a :: as, s, hs, hm, hr => by
    rw [run, Option.bind_eq_some_iff] at hr
    obtain ⟨s', hst, hr⟩ := hr
    exact of_run (.step hs hm.1 hst) (hm.2 s' hst) hr

/-- A run of a system whose actions are always enabled. -/
theorem run_some (f : σ → α → σ) : ∀ (as : List α) (s : σ),
    run (fun s a => some (f s a)) s as = some (as.foldl f s)
  | [], _ => rfl
  | a :: as, s => run_some f as (f s a)

section

variable {Inv : σ → Prop}
  (hkeep : ∀ s a s', Inv s → ok s a → step s a = some s' → Inv s')

include hkeep

/-- What an invariant implies of the states holds along guarded runs. -/
theorem along_of_meets {P : σ → Prop} (hP : ∀ s, Inv s → P s) : ∀ {as : List α} {s : σ},
    Inv s → Meets step ok s as → Along step P s as
  | [], s, hs, _ => hP s hs
  | a :: _, s, hs, hm =>
    ⟨hP s hs, fun s' hst => along_of_meets hP (hkeep s a s' hs hm.1 hst) (hm.2 s' hst)⟩

/-- What an invariant and the guard imply of the steps holds of all steps of guarded
    runs. -/
theorem meets_of_meets {ok' : σ → α → Prop} (hok : ∀ s a, Inv s → ok s a → ok' s a) :
    ∀ {as : List α} {s : σ}, Inv s → Meets step ok s as → Meets step ok' s as
  | [], _, _, _ => trivial
  | a :: _, s, hs, hm =>
    ⟨hok s a hs hm.1, fun s' hst => meets_of_meets hok (hkeep s a s' hs hm.1 hst) (hm.2 s' hst)⟩

end

/-- Two guards that an invariant makes equivalent are met by the same runs. Only actions in `C`
    are considered. -/
theorem meets_congr {P : σ → Prop} {C : α → Prop} {ok' : σ → α → Prop}
    (hkeep : ∀ s a s', P s → C a → step s a = some s' → P s')
    (hiff : ∀ s a, P s → C a → (ok s a ↔ ok' s a)) :
    ∀ (as : List α) (s : σ), (∀ a ∈ as, C a) → P s → (Meets step ok s as ↔ Meets step ok' s as)
  | [], _, _, _ => Iff.rfl
  | a :: as, s, hC, hs => by
    rw [List.forall_mem_cons] at hC
    exact and_congr (hiff s a hs hC.1) (forall_congr' fun s' => forall_congr' fun hst =>
      meets_congr hkeep hiff as s' hC.2 (hkeep s a s' hs hC.1 hst))

/-- Every step of a run meets a guard that all its actions meet. -/
theorem meets_of_forall {C : α → Prop} : ∀ {as : List α} {s : σ}, (∀ a ∈ as, C a) →
    Meets step (fun _ => C) s as
  | [], _, _ => trivial
  | a :: _, _, h => ⟨h a List.mem_cons_self,
      fun _ _ => meets_of_forall fun b hb => h b (List.mem_cons_of_mem a hb)⟩

/-- Among the runs whose steps all meet `C`, those along which `P` holds are those whose
    steps meet the guard, if a guarded step keeps an invariant implying `P` and any other
    step leads from the invariant to a state where `P` fails. -/
theorem along_iff_meets {Inv P : σ → Prop} {C : σ → α → Prop} (hP : ∀ s, Inv s → P s)
    (hkeep : ∀ s a s', Inv s → C s a → ok s a → step s a = some s' → Inv s')
    (hbreak : ∀ s a s', Inv s → C s a → ¬ok s a → step s a = some s' → ¬P s') :
    ∀ (as : List α) (s t : σ), Meets step C s as → Inv s → run step s as = some t →
      (Along step P s as ↔ Meets step ok s as)
  | [], s, _, _, hs, _ => ⟨fun _ => trivial, fun _ => hP s hs⟩
  | a :: as, s, t, hC, hs, hr => by
    rw [run, Option.bind_eq_some_iff] at hr
    obtain ⟨s', hst, hr⟩ := hr
    have ih := fun hs' => along_iff_meets hP hkeep hbreak as s' t (hC.2 s' hst) hs' hr
    -- The step is enabled, so both sides speak of the same next state `s'`.
    have next : ∀ Q : σ → Prop, (∀ s'', step s a = some s'' → Q s'') ↔ Q s' := fun Q =>
      ⟨fun h => h s' hst, fun h s'' h' => Option.some.inj (hst.symm.trans h') ▸ h⟩
    simp only [Along, Meets, next fun s'' => Along step P s'' as,
      next fun s'' => Meets step ok s'' as]
    constructor
    · rintro ⟨-, hal⟩
      have hok : ok s a := by
        by_contra hno
        exact hbreak s a s' hs hC.1 hno hst hal.head
      exact ⟨hok, (ih (hkeep s a s' hs hC.1 hok hst)).1 hal⟩
    · rintro ⟨hok, hm⟩
      exact ⟨hP s hs, (ih (hkeep s a s' hs hC.1 hok hst)).2 hm⟩

end PgRedis.Lib
