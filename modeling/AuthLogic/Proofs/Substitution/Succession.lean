import AuthLogic.Proofs.Substitution.Union
import AuthLogic.Proofs.Substitution.Walks

/-! # Substitutions one after the other

To apply two substitutions in succession is to follow the bindings of the first
one to their end, and from there those of the second one. If the second one never
leads back to a variable of the first one, their union has just these walks.
-/

namespace AuthLogic.Substitution

open Function

variable {θ η : Substitution} {e d c : Entity} {m : Mention}

/-- No bindings lead back to where they started. -/
def Acyclic (θ : Substitution) : Prop :=
  ∀ v, ¬ θ.OnCycle v

/-- Bindings lead from an entity to one that is left alone. -/
inductive Ends (θ : Substitution) : Entity → Entity → Prop

  | free {e : Entity} : θ.Free e → Ends θ e e

  | binding {m : Mention} {e d : Entity} :
      θ.get? m.var = some e → Ends θ e d → Ends θ (.var m) d

theorem Ends.free_right (h : θ.Ends e d) : θ.Free d := by
  induction h with
  | free h => exact h
  | binding _ _ ih => exact ih

theorem Ends.exists_iterate_step (h : θ.Ends e d) : ∃ n, θ.step^[n] e = d := by
  induction h with
  | free => exact ⟨0, rfl⟩
  | binding hm _ ih =>
    obtain ⟨n, hn⟩ := ih
    exact ⟨n + 1, by rw [iterate_succ_apply, step_of_get? hm, hn]⟩

/-- Whatever bindings there are elsewhere, a walk that can end does so. -/
theorem Ends.replace_resolve (h : θ.Ends e d) : e.replace θ.resolve = d := by
  cases e with
  | const c => cases h with | free => rfl
  | var m =>
    change θ.resolve m = d
    cases hm : θ.get? m.var with
    | none =>
      cases h with
      | free => exact resolve_of_get?_none hm
      | binding hm' _ => exact absurd (hm.symm.trans hm') (by simp)
    | some e =>
      obtain ⟨k, hk⟩ := (leads_resolve hm).exists_iterate_step (m := m) rfl
      obtain ⟨n, hn⟩ := h.exists_iterate_step
      have hend : θ.step^[n] (θ.resolve m) = d := by
        rw [← hk, ← iterate_add_apply, Nat.add_comm, iterate_add_apply, hn,
          iterate_step_of_free h.free_right]
      rw [← hend]
      exact (iterate_step_eq_of_free (θ.resolve_mem_periodicPts m) (hend ▸ h.free_right)).symm

theorem Leads.ends {v : Variable} (h : θ.Leads v e) (he : θ.Free e) (hm : m.var = v) :
    θ.Ends (.var m) e := by
  induction h generalizing m with
  | binding h => exact .binding (hm ▸ h) (.free he)
  | further h _ ih => exact .binding (hm ▸ h) (ih he rfl)

namespace Acyclic

theorem free_resolve (h : θ.Acyclic) (m : Mention) : θ.Free (θ.resolve m) := by
  by_contra hfree
  obtain ⟨n, e, hn, he⟩ := exists_get?_of_not_free hfree
  exact h n.var (onCycle_of_mem_periodicPts (hn ▸ θ.resolve_mem_periodicPts m) he)

theorem ends (h : θ.Acyclic) (e : Entity) : θ.Ends e (e.replace θ.resolve) := by
  cases e with
  | const c => exact .free (free_const θ c)
  | var m =>
    change θ.Ends (.var m) (θ.resolve m)
    cases hm : θ.get? m.var with
    | none =>
      rw [resolve_of_get?_none hm]
      exact .free (free_var.mpr hm)
    | some e => exact (leads_resolve hm).ends (h.free_resolve m) rfl

end Acyclic

/-! ## Unions -/

theorem free_union_iff : (θ ∪ η).Free e ↔ θ.Free e ∧ η.Free e := by
  cases e with
  | const c => simp only [free_const, and_self]
  | var m => simp only [free_var, get?_union, Option.or_eq_none_iff]

/-- Bindings of the second substitution that start outside of the first one stay outside of it. -/
theorem Ends.union_right (h : η.Ends d c) (hfree : ∀ v e, η.get? v = some e → θ.Free e)
    (hd : θ.Free d) : (θ ∪ η).Ends d c := by
  induction h with
  | free h => exact .free (free_union_iff.mpr ⟨hd, h⟩)
  | binding hm _ ih =>
    refine .binding ?_ (ih (hfree _ _ hm))
    rw [get?_union, free_var.mp hd, Option.none_or, hm]

theorem Ends.union (hθ : θ.Ends e d) (hη : η.Ends d c)
    (hfree : ∀ v e, η.get? v = some e → θ.Free e) : (θ ∪ η).Ends e c := by
  induction hθ with
  | free h => exact hη.union_right hfree h
  | binding hm _ ih =>
    refine .binding ?_ (ih hη)
    rw [get?_union, hm, Option.some_or]

/-- Two substitutions without cycles that bind different variables, of which the second one leads to
none of the first one. -/
structure Composable (θ η : Substitution) : Prop where
  acyclic_left : θ.Acyclic
  acyclic_right : η.Acyclic
  disjoint : ∀ v, θ.get? v = none ∨ η.get? v = none
  free : ∀ v e, η.get? v = some e → θ.Free e

namespace Composable

theorem merge? (h : θ.Composable η) : θ.merge? η = some (θ ∪ η) := by
  refine merge?_eq_some_iff.mpr ⟨fun v e d he hd => ?_, rfl⟩
  rcases h.disjoint v with hnone | hnone
  · exact absurd (hnone.symm.trans he) (by simp)
  · exact absurd (hnone.symm.trans hd) (by simp)

theorem apply_union (h : θ.Composable η) {τ : Type} [Term τ] (t : τ) :
    (θ ∪ η).apply t = η.apply (θ.apply t) := by
  rw [apply_eq_replace, apply_eq_replace, apply_eq_replace, Term.replace_replace]
  congr 1
  funext m
  exact ((h.acyclic_left.ends (.var m)).union (h.acyclic_right.ends _) h.free).replace_resolve

end Composable

end AuthLogic.Substitution
