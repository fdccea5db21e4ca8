import AuthLogic.Obligation
import AuthLogic.Unification

/-! # Assertions

`speaker says claim.`, in a scope of its own. Building an assertion places all
its variables in the scope, states the obligations of the speaker as antecedents
and records the speaker on every antecedent.
-/

namespace AuthLogic

structure Assertion where
  speaker : Entity
  claim : Claim
  scope : Scope
  deriving DecidableEq, Repr, Inhabited

namespace Assertion

def inScope (scope : Scope) (speaker : Entity) (claim : Claim) : Assertion :=
  let speaker := Term.stamp scope speaker
  let claim := (Term.stamp scope claim).expand speaker
  let antecedents := claim.antecedents.map fun f => { f with speaker? := some speaker }
  { speaker, claim := { claim with antecedents }, scope }

/-- An assertion in the next scope. -/
def new (speaker : Entity) (claim : Claim) (scopes : ScopeSupply) :
    Assertion × ScopeSupply :=
  let (scope, scopes) := scopes.next
  (inScope scope speaker claim, scopes)

/-- A fact asserted without conditions. -/
def ofFact (speaker : Entity) (consequent : Fact) (scopes : ScopeSupply) :
    Assertion × ScopeSupply :=
  new speaker { consequent } scopes

def canActAs (speaker subject : Entity) (role : Constant) (scopes : ScopeSupply) :
    Assertion × ScopeSupply :=
  ofFact speaker { subject, object := .canActAs role } scopes

def canSay (speaker : Entity) (delegate : Constant) (depth : Depth) (fact : Fact)
    (scopes : ScopeSupply) : Assertion × ScopeSupply :=
  ofFact speaker { subject := .const delegate, object := .delegate depth fact } scopes

/-- Read an assertion. A text that is none takes no scope. -/
def read (levels : Nat) (text : String) (scopes : ScopeSupply) :
    Except Failure Assertion × ScopeSupply :=
  match parseAssertion levels text with
  | .error e => (.error e, scopes)
  | .ok (speaker, claim) =>
    let (a, scopes) := new speaker claim scopes
    (.ok a, scopes)

/-- The assertion of a text, and the supply after it has taken its scope. -/
def parse (levels : Nat) (text : String) (scopes : ScopeSupply) :
    Except Failure (Assertion × ScopeSupply) :=
  completed (read levels text scopes)

def isCanActAs (a : Assertion) : Bool :=
  a.claim.consequent.isCanActAs

def isCanSay (a : Assertion) : Bool :=
  a.claim.consequent.isCanSay

/-- The consequent and the antecedents. -/
def facts (a : Assertion) : List Fact :=
  a.claim.consequent :: a.claim.antecedents

/-- The predicates of the consequent and the antecedents. -/
def predicates (a : Assertion) : Catalogue (id : String → String) :=
  .ofFirst (a.facts.filterMap Fact.predicate?)

/-- The principals who speak: the speaker, if it is a constant. -/
def voiced (a : Assertion) : Catalogue Constant.name :=
  .ofFirst a.speaker.constant?.toList

/-- The constants that the consequent and the antecedents are about. -/
def subjects (a : Assertion) : Catalogue Constant.name :=
  .ofFirst (a.facts.filterMap fun f => f.subject.constant?)

/-- The consequent alone, of the same speaker and in the same scope. -/
def consequence (a : Assertion) : Assertion :=
  inScope a.scope a.speaker { consequent := a.claim.consequent }

def render (a : Assertion) : String :=
  a.speaker.render ++ " says " ++ a.claim.render ++ "."

def entities (a : Assertion) : List Entity :=
  Term.entities a.speaker ++ Term.entities a.claim

/-- Replacing mentions leaves the scope alone, also when they come from another assertion. -/
def replace (σ : Mention → Entity) (a : Assertion) : Assertion where
  speaker := Term.replace σ a.speaker
  claim := Term.replace σ a.claim
  scope := a.scope

/-- Stamping it as a term leaves the scope of an assertion alone, as all replacements do. -/
instance : Term Assertion where
  replace := replace
  stamp s a := { a with speaker := Term.stamp s a.speaker, claim := Term.stamp s a.claim }
  substitute f a := ⟨Term.substitute f a.speaker, Term.substitute f a.claim, a.scope⟩
  entities := entities
  replace_var a := by simp [replace, Term.replace_var]
  replace_replace σ τ a := by simp [replace, Term.replace_replace]
  entities_replace σ a := by simp [entities, replace, Term.entities_replace]
  stamp_eq_replace s a := by simp [replace, Term.stamp_eq_replace]
  substitute_eq_replace f a := by simp [replace, Term.substitute_eq_replace]

/-- Move an assertion with all its variables to a scope. -/
def stamp (s : Scope) (a : Assertion) : Assertion :=
  { Term.stamp s a with scope := s }

def unify (a b : Assertion) : Unification :=
  (a.speaker.unify b.speaker).andThen fun θ => (θ.apply a.claim).unify (θ.apply b.claim)

instance : Unifiable Assertion where
  unify := unify

end Assertion

end AuthLogic
