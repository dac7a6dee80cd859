import Mathlib.Data.List.Perm.Basic
import Mathlib.Data.List.Nodup
import Mathlib.Logic.Equiv.Basic

/-!
# Ledgers

Resources which are issued, handed from one owner to another, and freed: `holds o` is
the resource the owner `o` holds, if any. A ledger lists the resources live, those
freed and those issued so far; it is *balanced* when every live resource has exactly one
owner, no owner holds any other, and every resource issued is live or has been freed
once.

Issuing to an owner who holds nothing (`Balanced.issue`), handing over
(`Balanced.comp`) and freeing what an owner holds (`Balanced.free`) keep a ledger
balanced. A resource that its owner lets go of without freeing it is left to nobody
(`Balanced.not_of_dropped`).
-/

namespace PgRedis.Lib

variable {ω ρ : Type*}

/-- The resources held are the live ones, each by one owner, and those live and those
    freed are together the ones issued, without repetition. -/
structure Balanced (holds : ω → Option ρ) (live freed issued : List ρ) : Prop where
  live_iff : ∀ c, c ∈ live ↔ ∃ o, holds o = some c
  unique : ∀ o o' c, holds o = some c → holds o' = some c → o = o'
  perm : (live ++ freed).Perm issued
  nodup : issued.Nodup

namespace Balanced

variable {holds : ω → Option ρ} {live freed issued : List ρ} {o o' : ω} {c : ρ}

theorem nil : Balanced (fun _ : ω => none) ([] : List ρ) [] [] where
  live_iff c := by simp
  unique _ _ _ h := absurd h (by simp)
  perm := .refl []
  nodup := .nil

theorem nodup_append (h : Balanced holds live freed issued) : (live ++ freed).Nodup :=
  h.perm.nodup_iff.2 h.nodup

/-- A live resource has exactly one owner. -/
theorem existsUnique (h : Balanced holds live freed issued) (hc : c ∈ live) :
    ∃! o, holds o = some c := by
  obtain ⟨o, ho⟩ := (h.live_iff c).1 hc
  exact ⟨o, ho, fun o' ho' => h.unique o' o c ho' ho⟩

/-- If nobody holds anything, nothing is live. -/
theorem live_eq_nil (h : Balanced holds live freed issued) (hnone : ∀ o, holds o = none) :
    live = [] := by
  refine List.eq_nil_iff_forall_not_mem.2 fun c hc => ?_
  obtain ⟨o, ho⟩ := (h.live_iff c).1 hc
  rw [hnone o] at ho
  exact absurd ho (by simp)

/-- Owners may be renamed. -/
theorem comp (h : Balanced holds live freed issued) (e : ω ≃ ω) :
    Balanced (holds ∘ e) live freed issued where
  live_iff c := (h.live_iff c).trans e.surjective.exists
  unique _ _ c ho ho' := e.injective (h.unique _ _ c ho ho')
  perm := h.perm
  nodup := h.nodup

section

variable [DecidableEq ω]

/-- A new resource goes to an owner who holds nothing. -/
theorem issue (h : Balanced holds live freed issued) (hfree : holds o = none)
    (hnew : c ∉ issued) {issued' : List ρ} (hperm : (c :: issued).Perm issued') :
    Balanced (Function.update holds o (some c)) (c :: live) freed issued' where
  live_iff d := by
    rw [List.mem_cons, h.live_iff]
    constructor
    · rintro (rfl | ⟨p, hp⟩)
      · exact ⟨o, Function.update_self ..⟩
      · have hne : p ≠ o := fun heq => by
          rw [heq, hfree] at hp
          exact absurd hp (by simp)
        exact ⟨p, by rw [Function.update_of_ne hne, hp]⟩
    · rintro ⟨p, hp⟩
      by_cases hpo : p = o
      · rw [hpo, Function.update_self] at hp
        exact .inl (Option.some.inj hp).symm
      · rw [Function.update_of_ne hpo] at hp
        exact .inr ⟨p, hp⟩
  unique p p' d hp hp' := by
    -- The new resource is nobody else's: it is not even live.
    have hother : ∀ q, holds q ≠ some c := fun q hq =>
      hnew (h.perm.subset (List.mem_append_left _ ((h.live_iff c).2 ⟨q, hq⟩)))
    by_cases hpo : p = o <;> by_cases hpo' : p' = o
    · rw [hpo, hpo']
    · rw [hpo, Function.update_self] at hp
      rw [Function.update_of_ne hpo', ← hp] at hp'
      exact absurd hp' (hother p')
    · rw [hpo', Function.update_self] at hp'
      rw [Function.update_of_ne hpo, ← hp'] at hp
      exact absurd hp (hother p)
    · rw [Function.update_of_ne hpo] at hp
      rw [Function.update_of_ne hpo'] at hp'
      exact h.unique p p' d hp hp'
  perm := (h.perm.cons c).trans hperm
  nodup := hperm.nodup_iff.1 (List.nodup_cons.2 ⟨hnew, h.nodup⟩)

/-- An owner who holds nothing takes over what another one holds. -/
theorem move (h : Balanced holds live freed issued) (hfree : holds o' = none) :
    Balanced (Function.update (Function.update holds o none) o' (holds o)) live freed issued := by
  have hswap : Function.update (Function.update holds o none) o' (holds o) =
      holds ∘ Equiv.swap o o' := by
    funext p
    rcases eq_or_ne p o' with rfl | hp'
    · rw [Function.update_self, Function.comp_apply, Equiv.swap_apply_right]
    · rw [Function.update_of_ne hp', Function.comp_apply]
      rcases eq_or_ne p o with rfl | hp
      · rw [Function.update_self, Equiv.swap_apply_left, hfree]
      · rw [Function.update_of_ne hp, Equiv.swap_apply_of_ne_of_ne hp hp']
  rw [hswap]
  exact h.comp _

/-- An owner frees what it holds. -/
theorem free [DecidableEq ρ] (h : Balanced holds live freed issued) (ho : holds o = some c) :
    Balanced (Function.update holds o none) (live.erase c) (freed ++ [c]) issued where
  live_iff d := by
    have hlive : live.Nodup := (List.nodup_append.1 h.nodup_append).1
    rw [hlive.mem_erase_iff, h.live_iff]
    constructor
    · rintro ⟨hne, p, hp⟩
      have hpo : p ≠ o := fun heq => hne (Option.some.inj ((heq ▸ hp).symm.trans ho))
      exact ⟨p, by rw [Function.update_of_ne hpo, hp]⟩
    · rintro ⟨p, hp⟩
      -- No other owner holds what `o` has freed.
      by_cases hpo : p = o
      · rw [hpo, Function.update_self] at hp
        exact absurd hp (by simp)
      · rw [Function.update_of_ne hpo] at hp
        exact ⟨fun heq => hpo (h.unique p o c (heq ▸ hp) ho), p, hp⟩
  unique p p' d hp hp' := by
    by_cases hpo : p = o
    · rw [hpo, Function.update_self] at hp
      exact absurd hp (by simp)
    · by_cases hpo' : p' = o
      · rw [hpo', Function.update_self] at hp'
        exact absurd hp' (by simp)
      · rw [Function.update_of_ne hpo] at hp
        rw [Function.update_of_ne hpo'] at hp'
        exact h.unique p p' d hp hp'
  perm := by
    have hc : c ∈ live := (h.live_iff c).2 ⟨o, ho⟩
    have hmove : (live.erase c ++ (freed ++ [c])).Perm (live ++ freed) := by
      rw [← List.append_assoc]
      exact (List.perm_append_singleton c _).trans ((List.perm_cons_erase hc).symm.append_right _)
    exact hmove.trans h.perm
  nodup := h.nodup

/-- An owner who lets go of a resource still live leaves it to nobody. -/
theorem not_of_dropped (h : Balanced holds live freed issued) (ho : holds o = some c) (p : ω) :
    Function.update holds o none p ≠ some c := by
  intro hp
  by_cases hpo : p = o
  · rw [hpo, Function.update_self] at hp
    exact absurd hp (by simp)
  · rw [Function.update_of_ne hpo] at hp
    exact hpo (h.unique p o c hp ho)

end

end Balanced

end PgRedis.Lib
