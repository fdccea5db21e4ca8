import AuthLogic.Syntax.Error

/-! # Lexemes

Cutting a text into tokens. The text is taken in pieces from the left, each as
long as it can be: a piece is a token, a gap between tokens, or input that
starts no token, which ends the reading.
-/

namespace AuthLogic

/-- A token and the bytes of the text that it takes up, from `start` up to `stop`. -/
structure Lexeme where
  token : Token
  start : Nat
  stop : Nat
  deriving DecidableEq, Repr, Inhabited

namespace Lexeme

inductive Piece
  | gap
  | token (t : Token)
  | unknown
  deriving DecidableEq, Repr, Inhabited

def isGap (c : Char) : Bool :=
  c = ' ' || c = '\t' || c = '\r' || c = '\n' || c = '\x0c'

def isNameChar (c : Char) : Bool :=
  c.isAlphanum || c = '_'

/-- The characters that a word goes on with. It takes every hyphen that follows, also several in a
row and one at the end: this is what the compiled lexer does, which is laxer than the pattern it is
compiled from, with its hyphens between other characters only. -/
def isWordChar (c : Char) : Bool :=
  isNameChar c || c = '-'

/-- Numbers beyond 64 bits are no tokens. -/
def number (cs : List Char) : Piece :=
  match Text.readInt64? cs with
  | some n => .token (.int n)
  | none => .unknown

/-- The symbol that a character starts, and how many further characters it takes. -/
def symbol? (c : Char) (next? : Option Char) : Option (Symbol × Nat) :=
  match c, next? with
  | '!', some '=' => some (.notEq, 1)
  | '<', some '=' => some (.lessEq, 1)
  | '>', some '=' => some (.greaterEq, 1)
  | '<', _ => some (.less, 0)
  | '>', _ => some (.greater, 0)
  | '=', _ => some (.eq, 0)
  | ',', _ => some (.comma, 0)
  | '.', _ => some (.period, 0)
  | ':', _ => some (.colon, 0)
  | '(', _ => some (.lparen, 0)
  | ')', _ => some (.rparen, 0)
  | _, _ => none

/-- The piece that starts with a character, and how many of the characters after it belong to it.
A string that is not closed is unknown input up to the end of the text. -/
def piece (c : Char) (cs : List Char) : Piece × Nat :=
  if isGap c then
    (.gap, 0)
  else if c = '/' ∧ cs.head? = some '/' then
    (.gap, (cs.takeWhile (· ≠ '\n')).length)
  else if c.isLower then
    let tail := cs.takeWhile isWordChar
    (.token (Token.ofWord (String.ofList (c :: tail))), tail.length)
  else if c.isUpper then
    let tail := cs.takeWhile isNameChar
    (.token (.name (String.ofList (c :: tail))), tail.length)
  else if c.isDigit ∨ c = '-' ∧ cs.head?.any Char.isDigit then
    let tail := cs.takeWhile Char.isDigit
    (number (c :: tail), tail.length)
  else if c = '"' then
    let body := cs.takeWhile (· ≠ '"')
    if (cs.drop body.length).isEmpty then (.unknown, body.length)
    else (.token (.str (String.ofList body)), body.length + 1)
  else
    match symbol? c cs.head? with
    | some (s, n) => (.token (.symbol s), n)
    | none => (.unknown, 0)

/-- The number of bytes that characters take up. -/
def byteSize : List Char → Nat
  | [] => 0
  | c :: cs => c.utf8Size + byteSize cs

/-- The lexemes of a text that starts at a given offset. -/
def ofChars (offset : Nat) : List Char → Except SyntaxError (List Lexeme)
  | [] => .ok []
  | c :: cs =>
    let p := piece c cs
    let text := c :: cs.take p.2
    let stop := offset + byteSize text
    match p.1 with
    | .gap => ofChars stop (cs.drop p.2)
    | .token t => do
      let rest ← ofChars stop (cs.drop p.2)
      return ⟨t, offset, stop⟩ :: rest
    | .unknown => .error ⟨.unexpectedInput (String.ofList text), some offset⟩
termination_by cs => cs.length
decreasing_by all_goals simp only [List.length_drop, List.length_cons]; omega

def ofText (text : String) : Except SyntaxError (List Lexeme) :=
  ofChars 0 text.toList

end Lexeme

end AuthLogic
