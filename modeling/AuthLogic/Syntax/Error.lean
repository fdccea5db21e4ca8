import AuthLogic.Failure
import AuthLogic.Syntax.Token

/-! # Syntax errors

Why a text is no policy, and where reading it came to a halt.
-/

namespace AuthLogic

/-- What the grammar allows at some place. -/
inductive Wanted
  | token (t : Token)
  | entity
  | typeName
  | depth
  | verbPhrase
  | constraint
  deriving DecidableEq, Repr, Inhabited

def Wanted.describe : Wanted → String
  | token t => t.describe
  | entity => "an entity"
  | typeName => "a type name"
  | depth => "a delegation depth"
  | verbPhrase => "a predicate, 'can-act-as' or 'can-say'"
  | constraint => "a constraint"

inductive SyntaxError.Cause
  | unexpectedInput (text : String)
  | expected (wanted : Wanted) (found : Option Token)
  | nestingTooDeep
  | variableRole (name : String)
  | depthOutOfRange (n : Int64)
  | typedConstant (name : String)
  | trailingInput (text : String)
  deriving DecidableEq, Repr, Inhabited

def SyntaxError.Cause.message : SyntaxError.Cause → String
  | unexpectedInput text => "unexpected input '" ++ text ++ "'"
  | expected wanted (some t) => "expected " ++ wanted.describe ++ ", found " ++ t.describe
  | expected wanted none => "expected " ++ wanted.describe ++ ", found end of input"
  | nestingTooDeep => "maximum nesting depth exceeded"
  | variableRole name => "role must be a constant, found variable " ++ name
  | depthOutOfRange n => "invalid delegation depth " ++ Text.writeInt n.toInt
  | typedConstant name => "only variables can carry a type, found constant " ++ name
  | trailingInput text => "unexpected trailing input '" ++ text ++ "'"

/-- The position is a byte offset; there is none at the end of the text. -/
structure SyntaxError where
  cause : SyntaxError.Cause
  position? : Option Nat
  deriving DecidableEq, Repr, Inhabited

/-- The report of an error in a text. The end of the text is reported as its length. -/
def SyntaxError.report (e : SyntaxError) (text : String) : Failure :=
  .parse e.cause.message (e.position?.getD text.utf8ByteSize)

end AuthLogic
