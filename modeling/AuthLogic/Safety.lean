import AuthLogic.Assertion

/-! # Safety

An assertion is safe when no fact with variables can ever be derived from it:

1. the variables of a flat consequent, and the subject of a delegating one, are
   bound by flat antecedents;
2. the variables of the constraint occur in the consequent or an antecedent;
3. every antecedent is flat.
-/

namespace AuthLogic

/-- Whether matching the flat antecedents of a claim binds a variable. -/
def Variable.isSafeIn (v : Variable) (c : Claim) : Bool :=
  c.antecedents.any fun f => f.isFlat && (Term.vars f).contains v

def Entity.isSafeIn : Entity → Claim → Bool
  | const _, _ => true
  | var m, c => m.var.isSafeIn c

inductive Violation

  /-- A variable of a flat consequent that is not bound. -/
  | looseVariable (m : Mention)

  /-- The subject of a delegating consequent, a variable that is not bound. -/
  | looseDelegator (subject : Entity)

  /-- A variable that only the constraint mentions. -/
  | strayVariable (m : Mention)

  /-- An antecedent that is a delegation. -/
  | nestedAntecedent (f : Fact)
  deriving DecidableEq, Repr, Inhabited

namespace Violation

/-- The number of the condition that is broken; the first condition has two halves. -/
def condition : Violation → String
  | looseVariable _ => "1a"
  | looseDelegator _ => "1b"
  | strayVariable _ => "2"
  | nestedAntecedent _ => "3"

def message : Violation → String
  | looseVariable m =>
    "consequent variable " ++ m.var.name ++ " is not bound by any flat antecedent"
  | looseDelegator subject =>
    "delegating subject " ++ subject.render ++ " is not bound by any flat antecedent"
  | strayVariable m =>
    "constraint variable " ++ m.var.name ++ " occurs in neither consequent nor antecedents"
  | nestedAntecedent f => "antecedent '" ++ f.render ++ "' is not flat"

end Violation

namespace Claim

/-- How the consequent breaks the first condition. -/
def consequentViolations (c : Claim) : List Violation :=
  if c.consequent.isFlat then
    ((Term.vars c.consequent).entries.filter fun m => !m.var.isSafeIn c).map .looseVariable
  else if c.consequent.subject.isSafeIn c then []
  else [.looseDelegator c.consequent.subject]

/-- How the constraint breaks the second condition. -/
def constraintViolations (c : Claim) : List Violation :=
  ((Term.vars c.constraint).entries.filter fun m =>
    !((Term.vars c.consequent).contains m.var || c.antecedentVars.contains m.var)).map
      .strayVariable

/-- How the antecedents break the third condition. -/
def antecedentViolations (c : Claim) : List Violation :=
  (c.antecedents.filter fun f => !f.isFlat).map .nestedAntecedent

end Claim

namespace Assertion

def violations (a : Assertion) : List Violation :=
  a.claim.consequentViolations ++ a.claim.constraintViolations ++ a.claim.antecedentViolations

def isSafe (a : Assertion) : Bool :=
  a.violations.isEmpty

end Assertion

end AuthLogic
