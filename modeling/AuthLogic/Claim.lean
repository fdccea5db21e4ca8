import AuthLogic.Fact
import AuthLogic.Constraint

/-! # Claims

`consequent if antecedents where constraint`: the fact that is claimed, the facts
it depends on, in the order they are written, and a guard over their variables.
-/

namespace AuthLogic

structure Claim where
  consequent : Fact
  antecedents : List Fact := []
  constraint : Constraint := .trivial
  deriving DecidableEq, Repr, Inhabited

namespace Claim

def hasAntecedents (c : Claim) : Bool :=
  !c.antecedents.isEmpty

def isUnconstrained (c : Claim) : Bool :=
  c.constraint = .trivial

/-- The distinct variables of the antecedents. -/
def antecedentVars (c : Claim) : Catalogue Mention.var :=
  Term.vars c.antecedents

def render (c : Claim) : String :=
  let condition := match c.antecedents with
    | [] => ""
    | fs => " if " ++ ", ".intercalate (fs.map Fact.render)
  let guard := if c.isUnconstrained then "" else " where " ++ c.constraint.render
  c.consequent.render ++ condition ++ guard

def replace (σ : Mention → Entity) (c : Claim) : Claim where
  consequent := Term.replace σ c.consequent
  antecedents := Term.replace σ c.antecedents
  constraint := Term.replace σ c.constraint

def stamp (s : Scope) (c : Claim) : Claim :=
  { c with
    consequent := Term.stamp s c.consequent
    antecedents := Term.stamp s c.antecedents
    constraint := Term.stamp s c.constraint }

def substitute (f : Variable → Option Entity) (c : Claim) : Claim where
  consequent := Term.substitute f c.consequent
  antecedents := Term.substitute f c.antecedents
  constraint := Term.substitute f c.constraint

def entities (c : Claim) : List Entity :=
  Term.entities c.consequent ++ Term.entities c.antecedents ++ Term.entities c.constraint

instance : Term Claim where
  replace := replace
  stamp := stamp
  substitute := substitute
  entities := entities
  replace_var c := by simp [replace, Term.replace_var]
  replace_replace σ τ c := by simp [replace, Term.replace_replace]
  entities_replace σ c := by simp [entities, replace, Term.entities_replace]
  stamp_eq_replace s c := by simp [stamp, replace, Term.stamp_eq_replace]
  substitute_eq_replace f c := by simp [substitute, replace, Term.substitute_eq_replace]

end Claim

end AuthLogic
