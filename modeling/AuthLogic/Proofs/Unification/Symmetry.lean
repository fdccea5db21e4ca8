import AuthLogic.Proofs.Unification.Matching

/-! # Symmetry of unification

Of two variables the greater is bound, on whichever side it is. So two terms have
the same unifier in both orders, with the same types written on it. Every part is
matched under the bindings of the parts before it, which are the same in both
orders as well.
-/

namespace AuthLogic

theorem Unification.andThen_congr {u w : Unification} {next next' : Substitution → Unification}
    (h : u = w) (hnext : ∀ θ, next θ = next' θ) : u.andThen next = w.andThen next' := by
  subst h
  exact congrArg u.andThen (funext hnext)

open Unification (andThen_congr)

theorem Entity.unify_symm (a b : Entity) : a.unify b = b.unify a := by
  cases a with
  | const a =>
    cases b with
    | const b => simp only [unify, eq_comm]
    | var n => rfl
  | var m =>
    cases b with
    | const b => rfl
    | var n =>
      have hswap : compare n.var m.var = (compare m.var n.var).swap := Std.OrientedCmp.eq_swap
      simp only [unify, hswap]
      cases compare m.var n.var <;> rfl

section Sequence

variable {τ : Type} [Unifiable τ] (h : ∀ a b : τ, Unifiable.unify a b = Unifiable.unify b a)
include h

/-- By induction on the first list, for all bindings found before. -/
theorem unifyRest_symm (u : Unification) (as bs : List τ) :
    unifyRest u as bs = unifyRest u bs as := by
  induction as generalizing u bs with
  | nil => cases bs <;> rfl
  | cons a as ih =>
    cases bs with
    | nil => rfl
    | cons b bs =>
      have hstep : (u.andThen fun θ => Unifiable.unify (θ.apply a) (θ.apply b)) =
          u.andThen fun θ => Unifiable.unify (θ.apply b) (θ.apply a) :=
        andThen_congr rfl fun θ => h (θ.apply a) (θ.apply b)
      simp only [unifyRest, hstep]
      exact ih _ bs

theorem unifyList_symm (as bs : List τ) : unifyList as bs = unifyList bs as := by
  simp only [unifyList, unifyRest_symm h _ as bs, eq_comm]

end Sequence

namespace VerbPhrase

/-- By induction on the verb phrase before any mention is replaced, as matching goes. -/
theorem unifyUnder_symm (σ : Mention → Entity) (v w : VerbPhrase) :
    unifyUnder σ v w = unifyUnder σ w v := by
  induction v generalizing σ w with
  | predicate n as =>
    cases w with
    | predicate m bs => simp only [unifyUnder, unifyList_symm Entity.unify_symm (as.map _), eq_comm]
    | _ => rfl
  | canActAs r =>
    cases w with
    | canActAs s => simp only [unifyUnder, eq_comm]
    | _ => rfl
  | canSay d subject object speaker? ih =>
    cases w with
    | canSay e subject₂ object₂ speaker₂? =>
      have hparts := andThen_congr (Entity.unify_symm (subject.replace σ) (subject₂.replace σ))
        fun θ : Substitution => ih (fun m => (σ m).replace θ.resolve) object₂
      simp only [unifyUnder, hparts, eq_comm]
    | _ => rfl

theorem unify_symm (v w : VerbPhrase) : v.unify w = w.unify v :=
  unifyUnder_symm .var v w

end VerbPhrase

theorem Fact.unify_symm (f g : Fact) : f.unify g = g.unify f :=
  andThen_congr (f.subject.unify_symm g.subject) fun θ =>
    (θ.apply f.object).unify_symm (θ.apply g.object)

theorem Claim.unify_symm (c d : Claim) : c.unify d = d.unify c :=
  andThen_congr (c.consequent.unify_symm d.consequent) fun θ =>
    unifyList_symm Fact.unify_symm (θ.apply c.antecedents) (θ.apply d.antecedents)

theorem Assertion.unify_symm (a b : Assertion) : a.unify b = b.unify a :=
  andThen_congr (a.speaker.unify_symm b.speaker) fun θ =>
    (θ.apply a.claim).unify_symm (θ.apply b.claim)

/-- Both orders fail, or both have the same bindings. -/
theorem unify_comm (k : Kind) (a b : k.Carrier) : Unifiable.unify a b = Unifiable.unify b a := by
  induction k with
  | entity => exact Entity.unify_symm a b
  | verbPhrase => exact VerbPhrase.unify_symm a b
  | fact => exact Fact.unify_symm a b
  | claim => exact Claim.unify_symm a b
  | assertion => exact Assertion.unify_symm a b
  | list k ih => exact unifyList_symm ih a b

end AuthLogic
