import AuthLogic.Syntax.Grammar

/-! # Type obligations

A variable that is written with a type, as in `X:Employee`, obliges the speaker
to prove `X is-a Employee`. Expansion states every obligation as a further
antecedent, so that it is met like any other condition.
-/

namespace AuthLogic

/-- The text of a fact that must hold, and the variable that brought it in. -/
structure Obligation where
  var : Variable
  text : String
  deriving DecidableEq, Repr, Inhabited

namespace Obligation

def ofMention? (m : Mention) : Option Obligation :=
  m.obligation?.map (⟨m.var, ·⟩)

/-- Of several obligations with one text, the first. -/
def distinct : List Obligation → List Obligation
  | [] => []
  | o :: os => o :: (distinct os).filter fun p => p.text ≠ o.text

/-- The obligations of an assertion, in the order in which they are mentioned first. -/
def ofAssertion (speaker : Entity) (claim : Claim) : List Obligation :=
  distinct ((Term.mentions speaker ++ Term.mentions claim).filterMap ofMention?)

/-- The obligation as a fact about its variable, unless its text is no fact. -/
def fact? (o : Obligation) : Option Fact :=
  match parseFact o.text with
  | .ok f => some { f with subject := Term.stamp o.var.scope f.subject }
  | .error _ => none

end Obligation

namespace Claim

/-- Whether some antecedent has the same text as a fact. -/
def states (c : Claim) (f : Fact) : Bool :=
  c.antecedents.any fun g => g.render = f.render

/-- State an obligation, unless it is stated already. -/
def oblige (c : Claim) (o : Obligation) : Claim :=
  match o.fact? with
  | some f => if c.states f then c else { c with antecedents := c.antecedents ++ [f] }
  | none => c

/-- State every obligation that a speaker has by making a claim. -/
def expand (speaker : Entity) (c : Claim) : Claim :=
  (Obligation.ofAssertion speaker c).foldl oblige c

end Claim

end AuthLogic
