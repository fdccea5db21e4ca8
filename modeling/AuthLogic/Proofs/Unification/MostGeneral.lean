import AuthLogic.Proofs.Unification.Matching

/-! # Unifiers are most general

Whatever makes two terms of one kind alike factors through the unifier that is
found, and so unification only fails where no unifier exists.
-/

namespace AuthLogic

open Matchable

/-- Equal in all that matching looks at, written types aside. -/
def Matchable.Alike {τ : Type} [Matchable τ] (a b : τ) : Prop :=
  Term.Same (essence a) (essence b)

namespace Assignment

variable {τ : Type}

/-- The assignment without the types that variables are written with. -/
def untyped (σ : Assignment) : Assignment := fun v =>
  Term.untyped (σ v)

theorem untyped_apply [Term τ] (σ : Assignment) (t : τ) :
    σ.untyped.apply t = Term.untyped (σ.apply t) :=
  (Term.replace_replace _ _ t).symm

theorem agree_untyped_iff [Matchable τ] {σ : Assignment} {a b : τ} :
    Agree a b σ.untyped ↔ Alike (σ.apply a) (σ.apply b) := by
  simp only [Agree, untyped_apply, Term.untyped, essence_replace]
  rfl

end Assignment

/-- Assignments that make two terms alike factor through their unifier. -/
theorem unify_mostGeneral (k : Kind) (a b : k.Carrier) (σ : Assignment)
    (h : Alike (σ.apply a) (σ.apply b)) :
    ∃ θ : Substitution, Unifiable.unify a b = some θ ∧
      ∀ x : Mention, Term.Same (σ.apply (θ.apply (Entity.var x))) (σ.apply (Entity.var x)) := by
  have hagree : Agree a b σ.untyped := Assignment.agree_untyped_iff.mpr h
  have hsolves := k.unifies a b (fun _ => True) (fun _ _ => trivial) (fun _ _ => trivial)
  generalize Unifiable.unify a b = u at hsolves
  cases hsolves with
  | failure hn => exact absurd hagree (hn _)
  | @unifier θ hd _ hs =>
    refine ⟨θ, rfl, fun x => ?_⟩
    have hx : σ.untyped.apply (θ.apply (Entity.var x)) = σ.untyped.apply (Entity.var x) :=
      ((hs _).mpr hagree).apply_apply hd (Entity.var x)
    rwa [Assignment.untyped_apply, Assignment.untyped_apply] at hx

/-- Chained bindings: the lists `X, Y` and `Y, Alice` of scoped variables. -/
theorem unify_mostGeneral_chain :
    let x : Entity := .var ⟨⟨"X", ⟨1⟩⟩, none⟩
    let y : Entity := .var ⟨⟨"Y", ⟨1⟩⟩, some "Role"⟩
    let alice : Entity := .const ⟨"Alice"⟩
    let σ : Assignment := fun _ => alice
    Alike (σ.apply [x, y]) (σ.apply [y, alice]) ∧
      ∃ θ : Substitution, Unifiable.unify [x, y] [y, alice] = some θ ∧
        ∀ m : Mention, Term.Same (σ.apply (θ.apply (Entity.var m))) (σ.apply (Entity.var m)) :=
  ⟨rfl, unify_mostGeneral (.list .entity) _ _ _ rfl⟩

end AuthLogic
