/-! # Failures

The report of an operation that failed. That terms do not unify, that a
constraint does not hold and that an assertion is unsafe are answers and not
failures.
-/

namespace AuthLogic

inductive Failure

  /-- A text that is no policy; the position is a byte offset. -/
  | parse (message : String) (position : Nat)

  /-- A function that may not be registered. -/
  | registry (message : String)

  /-- A configuration that cannot be loaded or is not valid. -/
  | config (message : String)
  deriving DecidableEq, Repr, Inhabited

def Failure.render : Failure → String
  | parse message position => "Parse error at offset " ++ position.repr ++ ": " ++ message
  | registry message => "Registry error: " ++ message
  | config message => "Config error: " ++ message

/-- The answer of an operation with the state that it leaves behind. A failure has no answer. -/
def completed {ε α σ : Type} : Except ε α × σ → Except ε (α × σ)
  | (.ok a, s) => .ok (a, s)
  | (.error e, _) => .error e

end AuthLogic
