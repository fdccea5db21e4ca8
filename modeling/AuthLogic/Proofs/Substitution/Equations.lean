import AuthLogic.Proofs.Substitution.SolvedForm

/-! # Substitutions as equations

A substitution is a system of equations, one for each of its bindings. In solved
form, looking variables up is itself a solution, and the solutions are the
assignments that factor through looking up.
-/

namespace AuthLogic

/-- An entity for every variable. -/
abbrev Assignment := Variable → Entity

/-- The value of a term under an assignment. -/
def Assignment.apply {τ : Type} [Term τ] (σ : Assignment) : τ → τ :=
  Term.replace fun m => σ m.var

namespace Substitution

variable {θ η : Substitution} {σ : Assignment} {τ : Type} [Term τ]

/-- An assignment solves the equations of a substitution. -/
def SolvedBy (θ : Substitution) (σ : Assignment) : Prop :=
  ∀ b ∈ θ.toList, σ b.var = σ.apply b.term

theorem SolvedBy.of_get? (h : θ.SolvedBy σ) {v : Variable} {e : Entity} (hv : θ.get? v = some e) :
    σ v = σ.apply e := by
  obtain ⟨b, hb, rfl, rfl⟩ := get?_eq_some_iff.mp hv
  exact h b hb

theorem SolvedBy.apply_resolve (hσ : θ.SolvedBy σ) (h : θ.Downward) (m : Mention) :
    σ.apply (θ.resolve m) = σ m.var := by
  suffices ∀ v m, m.var = v → σ.apply (θ.resolve m) = σ m.var from this m.var m rfl
  refine h.induct fun v ih m hm => ?_
  cases hv : θ.get? m.var with
  | none =>
    rw [resolve_of_get?_none hv]
    rfl
  | some e =>
    rw [h.resolve_of_get? hv, hσ.of_get? hv]
    cases e with
    | const c => rfl
    | var m' => exact ih m' (hm ▸ hv) m' rfl

/-- Solutions factor through a substitution in solved form. -/
theorem SolvedBy.apply_apply (hσ : θ.SolvedBy σ) (h : θ.Downward) (t : τ) :
    σ.apply (θ.apply t) = σ.apply t := by
  rw [Assignment.apply, apply_eq_replace, Term.replace_replace]
  congr 1
  funext m
  exact hσ.apply_resolve h m

/-- Looking variables up, up to the types that they are written with. -/
def assignment (θ : Substitution) : Assignment := fun v =>
  Term.untyped (θ.resolve ⟨v, none⟩)

theorem untyped_resolve (θ : Substitution) (m : Mention) :
    Term.untyped (θ.resolve m) = θ.assignment m.var := by
  rw [assignment, resolve, resolve]
  cases θ.resolve? m.var <;> rfl

theorem assignment_apply (θ : Substitution) (t : τ) :
    θ.assignment.apply t = Term.untyped (θ.apply t) := by
  rw [Assignment.apply, Term.untyped, apply_eq_replace, Term.replace_replace]
  congr 1
  funext m
  exact (θ.untyped_resolve m).symm

theorem Downward.solvedBy_assignment (h : θ.Downward) : θ.SolvedBy θ.assignment := by
  intro b hb
  have hm : θ.get? b.mention.var = some b.term := get?_of_mem hb
  calc θ.assignment b.var
    _ = Term.untyped (θ.resolve b.mention) := (θ.untyped_resolve b.mention).symm
    _ = Term.untyped (θ.apply b.term) := by rw [h.resolve_of_get? hm]; rfl
    _ = θ.assignment.apply b.term := (θ.assignment_apply b.term).symm

theorem untyped_assignment (θ : Substitution) (v : Variable) :
    Term.untyped (θ.assignment v) = θ.assignment v :=
  Term.replace_replace _ _ _

theorem SolvedBy.apply_assignment (hσ : θ.SolvedBy σ) (h : θ.Downward) (v : Variable) :
    σ.apply (θ.assignment v) = σ v :=
  (Term.replace_replace _ _ _).trans (hσ.apply_resolve h ⟨v, none⟩)

theorem Downward.eq_or_lt_of_assignment (h : θ.Downward) {v : Variable} {m : Mention}
    (hv : θ.assignment v = .var m) : m.var = v ∨ m.var < v := by
  rw [assignment] at hv
  cases hr : θ.resolve ⟨v, none⟩ with
  | const c =>
    rw [hr] at hv
    cases hv
  | var n =>
    rw [hr] at hv
    cases hv
    exact h.eq_or_lt_of_resolve hr

/-- In solved form, a substitution is determined by its solutions. -/
theorem Downward.assignment_eq (hθ : θ.Downward) (hη : η.Downward)
    (h : ∀ σ, θ.SolvedBy σ ↔ η.SolvedBy σ) : θ.assignment = η.assignment := by
  funext v
  have hθη := ((h _).mp hθ.solvedBy_assignment).apply_assignment hη v
  have hηθ := ((h _).mpr hη.solvedBy_assignment).apply_assignment hθ v
  cases hr : θ.assignment v with
  | const c => rw [← hηθ, hr]; rfl
  | var m =>
    cases hs : η.assignment v with
    | const c => rw [← hr, ← hθη, hs]; rfl
    | var n =>
      rw [hs, hr] at hθη hηθ
      -- each of the two variables is resolved to the other one
      have heq : m.var = n.var := by
        rcases hθ.eq_or_lt_of_assignment hθη with heq | hlt
        · exact heq
        rcases hη.eq_or_lt_of_assignment hηθ with heq | hlt'
        · exact heq.symm
        · exact (Variable.lt_irrefl _ (Variable.lt_trans hlt hlt')).elim
      rw [← hr, ← hs, ← untyped_assignment, hr, ← untyped_assignment η, hs]
      exact congrArg (fun w => Entity.var ⟨w, none⟩) heq

end Substitution

end AuthLogic
