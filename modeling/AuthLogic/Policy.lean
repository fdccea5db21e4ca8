import AuthLogic.Safety

/-! # Policies

A policy is a sequence of assertions, each in a scope of its own. Loading sorts
them by safety: only the assertions that are accepted may be used in proofs.
-/

namespace AuthLogic

/-- An assertion that is kept out of a policy, and every condition that it breaks. -/
structure Rejection where
  assertion : Assertion
  violations : List Violation
  deriving DecidableEq, Repr, Inhabited

/-- Both lists are in the order of the document. -/
structure Screening where
  accepted : List Assertion := []
  rejected : List Rejection := []
  deriving DecidableEq, Repr, Inhabited

namespace Screening

def isClean (p : Screening) : Bool :=
  p.rejected.isEmpty

/-- Sort assertions by safety. -/
def ofAssertions : List Assertion → Screening
  | [] => {}
  | a :: as =>
    let p := ofAssertions as
    if a.isSafe then { p with accepted := a :: p.accepted }
    else { p with rejected := ⟨a, a.violations⟩ :: p.rejected }

end Screening

namespace Policy

/-- Build assertions in the next scopes, in order. -/
def build : List (Entity × Claim) → ScopeSupply → List Assertion × ScopeSupply
  | [], scopes => ([], scopes)
  | (speaker, claim) :: parts, scopes =>
    let (a, scopes) := Assertion.new speaker claim scopes
    let (as, scopes) := build parts scopes
    (a :: as, scopes)

/-- Read every assertion of a text. A text with a syntax error takes no scope. -/
def read (levels : Nat) (text : String) (scopes : ScopeSupply) :
    Except Failure (List Assertion) × ScopeSupply :=
  match parsePolicy levels text with
  | .error e => (.error e, scopes)
  | .ok parts =>
    let (as, scopes) := build parts scopes
    (.ok as, scopes)

/-- Read a text and sort its assertions by safety. -/
def screen (levels : Nat) (text : String) (scopes : ScopeSupply) :
    Except Failure Screening × ScopeSupply :=
  let (as, scopes) := read levels text scopes
  (as.map .ofAssertions, scopes)

/-- The assertions of a text, and the supply after they have taken their scopes. -/
def parse (levels : Nat) (text : String) (scopes : ScopeSupply) :
    Except Failure (List Assertion × ScopeSupply) :=
  completed (read levels text scopes)

/-- The assertions of a text by safety, and the supply after they have taken their scopes. -/
def load (levels : Nat) (text : String) (scopes : ScopeSupply) :
    Except Failure (Screening × ScopeSupply) :=
  completed (screen levels text scopes)

end Policy

end AuthLogic
