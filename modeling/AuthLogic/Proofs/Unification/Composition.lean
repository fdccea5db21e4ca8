import AuthLogic.Proofs.Substitution.Union
import AuthLogic.Unification

/-! # Composition of unifications

Composition joins what two unifications have found. It fails if one of them does,
or if they disagree, and this does not depend on the order in which several of
them are composed: agreement with a union is agreement with both of its parts.
-/

namespace AuthLogic.Unification

open Substitution (merge?_eq_some_iff merge?_bind_eq_some_iff merge?_eq_none_iff not_agrees_iff)

theorem compose_some (θ η : Substitution) : compose (some θ) (some η) = θ.merge? η := rfl

theorem compose_none_right (u : Unification) : u.compose none = none := by
  cases u <;> rfl

theorem Same.refl (u : Unification) : Same u u := by
  cases u with
  | none => trivial
  | some θ => exact rfl

theorem compose_comm (u w : Unification) : Same (u.compose w) (w.compose u) := by
  cases u with
  | none =>
    rw [compose_none_right]
    exact .refl none
  | some θ =>
    cases w with
    | none =>
      rw [compose_none_right]
      exact .refl none
    | some η =>
      rw [compose_some, compose_some]
      by_cases h : θ.Agrees η
      · rw [merge?_eq_some_iff.mpr ⟨h, rfl⟩, merge?_eq_some_iff.mpr ⟨h.symm, rfl⟩]
        exact h.union_comm
      · rw [merge?_eq_none_iff.mpr h, merge?_eq_none_iff.mpr fun h' => h h'.symm]
        exact .refl none

/-- Either way, all three must agree with one another. -/
theorem compose_assoc (u v w : Unification) :
    (u.compose v).compose w = u.compose (v.compose w) := by
  cases u with
  | none => rfl
  | some θ =>
    cases v with
    | none => rfl
    | some η =>
      cases w with
      | none => rw [compose_none_right, compose_none_right, compose_none_right]
      | some ρ =>
        have hleft (μ : Substitution) : compose (compose (some θ) (some η)) (some ρ) = some μ ↔
            θ.Agrees η ∧ (θ ∪ η).Agrees ρ ∧ μ = θ ∪ η ∪ ρ := by
          rw [← merge?_eq_some_iff]
          exact merge?_bind_eq_some_iff fun κ => κ.merge? ρ
        have hright (μ : Substitution) : compose (some θ) (compose (some η) (some ρ)) = some μ ↔
            η.Agrees ρ ∧ θ.Agrees (η ∪ ρ) ∧ μ = θ ∪ (η ∪ ρ) := by
          rw [← merge?_eq_some_iff]
          exact merge?_bind_eq_some_iff θ.merge?
        refine Option.ext fun μ => (hleft μ).trans (Iff.trans ?_ (hright μ).symm)
        rw [Substitution.union_assoc]
        constructor
        · rintro ⟨hθη, h, rfl⟩
          obtain ⟨hθρ, hηρ⟩ := hθη.union_left_iff.mp h
          exact ⟨hηρ, hηρ.union_right_iff.mpr ⟨hθη, hθρ⟩, rfl⟩
        · rintro ⟨hηρ, h, rfl⟩
          obtain ⟨hθη, hθρ⟩ := hηρ.union_right_iff.mp h
          exact ⟨hθη, hθη.union_left_iff.mpr ⟨hθρ, hηρ⟩, rfl⟩

theorem compose_self (u : Unification) : u.compose u = u := by
  cases u with
  | none => rfl
  | some θ => exact merge?_eq_some_iff.mpr ⟨.refl θ, θ.union_self.symm⟩

theorem empty_compose (u : Unification) : empty.compose u = u := by
  cases u with
  | none => rfl
  | some θ => exact merge?_eq_some_iff.mpr ⟨θ.agrees_empty.symm, θ.empty_union.symm⟩

theorem compose_empty (u : Unification) : u.compose empty = u := by
  cases u <;> rfl

/-- Composition is associative and idempotent, and commutative up to written types. What is empty is
its identity, and what has failed stays so. Two substitutions are composed to the least one that
contains both, unless they bind some variable to different entities. -/
theorem compose_laws :
    (∀ u v w : Unification, (u.compose v).compose w = u.compose (v.compose w)) ∧
    (∀ u w : Unification, Same (u.compose w) (w.compose u)) ∧
    (∀ u : Unification, u.compose u = u) ∧
    (∀ u : Unification, empty.compose u = u ∧ u.compose empty = u) ∧
    (∀ u : Unification, compose none u = none ∧ u.compose none = none) ∧
    ∀ θ η : Substitution,
      (compose (some θ) (some η) = none ↔
        ∃ v e d, θ.get? v = some e ∧ η.get? v = some d ∧ ¬ Term.Same e d) ∧
      ∀ μ, compose (some θ) (some η) = some μ → IsLUB {θ, η} μ := by
  refine ⟨compose_assoc, compose_comm, compose_self, fun u => ⟨empty_compose u, compose_empty u⟩,
    fun u => ⟨rfl, compose_none_right u⟩, fun θ η => ⟨?_, fun μ hμ => ?_⟩⟩
  · rw [compose_some, merge?_eq_none_iff, not_agrees_iff]
  · obtain ⟨h, rfl⟩ := merge?_eq_some_iff.mp hμ
    exact h.isLUB_union

/-- `X` is bound to Alice in the first one and to Bob in the third one of three unifications. Both
groupings fail, though the first two have the union of their bindings. -/
theorem compose_laws_conflict :
    let x : Mention := ⟨⟨"X", ⟨1⟩⟩, none⟩
    let y : Mention := ⟨⟨"Y", ⟨1⟩⟩, none⟩
    let θ := Substitution.singleton x (.const ⟨"Alice"⟩)
    let η := Substitution.singleton y (.var x)
    let ρ := Substitution.singleton { x with type? := some "Guest" } (.const ⟨"Bob"⟩)
    let μ := Substitution.ofList [⟨x, .const ⟨"Alice"⟩⟩, ⟨y, .var x⟩]
    compose (some θ) (some η) = some μ ∧ IsLUB {θ, η} μ ∧ compose (some μ) (some ρ) = none ∧
      compose (some θ) (compose (some η) (some ρ)) = none := by
  intro x y θ η ρ μ
  obtain ⟨hassoc, -, -, -, -, hpair⟩ := compose_laws
  have hμ : compose (some θ) (some η) = some μ := by decide +kernel
  have hnone : compose (some μ) (some ρ) = none :=
    (hpair μ ρ).1.mpr ⟨x.var, .const ⟨"Alice"⟩, .const ⟨"Bob"⟩, by decide +kernel⟩
  exact ⟨hμ, (hpair θ η).2 μ hμ, hnone, by rw [← hassoc, hμ, hnone]⟩

end AuthLogic.Unification
