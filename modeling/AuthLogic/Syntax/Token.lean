import AuthLogic.Text.Numeral

/-! # Tokens

The vocabulary of policy texts: keywords, symbols, and four kinds of tokens that
carry a value.
-/

namespace AuthLogic

inductive Keyword
  | say
  | if
  | where
  | canActAs
  | canSay
  | inf
  | true
  | false
  | and
  | or
  | not
  deriving DecidableEq, Repr, Inhabited

def Keyword.spelling : Keyword → String
  | say => "says"
  | .if => "if"
  | .where => "where"
  | canActAs => "can-act-as"
  | canSay => "can-say"
  | inf => "inf"
  | .true => "true"
  | .false => "false"
  | and => "and"
  | or => "or"
  | not => "not"

def Keyword.all : List Keyword :=
  [say, .if, .where, canActAs, canSay, inf, .true, .false, and, or, not]

def Keyword.ofSpelling? (s : String) : Option Keyword :=
  all.find? fun k => k.spelling = s

theorem Keyword.ofSpelling?_spelling (k : Keyword) : ofSpelling? k.spelling = some k := by
  cases k <;> decide

inductive Symbol
  | comma
  | period
  | colon
  | lparen
  | rparen
  | eq
  | notEq
  | less
  | lessEq
  | greater
  | greaterEq
  deriving DecidableEq, Repr, Inhabited

def Symbol.spelling : Symbol → String
  | comma => ","
  | period => "."
  | colon => ":"
  | lparen => "("
  | rparen => ")"
  | eq => "="
  | notEq => "!="
  | less => "<"
  | lessEq => "<="
  | greater => ">"
  | greaterEq => ">="

/-- Words start with a small letter and are the names of predicates and functions; names start with
a capital and are those of principals, roles, types and variables. -/
inductive Token
  | keyword (k : Keyword)
  | symbol (s : Symbol)
  | int (n : Int64)
  | str (text : String)
  | name (text : String)
  | word (text : String)
  deriving DecidableEq, Repr, Inhabited

/-- How messages speak of a token. -/
def Token.describe : Token → String
  | keyword k => "'" ++ k.spelling ++ "'"
  | symbol s => "'" ++ s.spelling ++ "'"
  | int n => "integer " ++ Text.writeInt n.toInt
  | str s => "string \"" ++ s ++ "\""
  | name s => "name '" ++ s ++ "'"
  | word s => "word '" ++ s ++ "'"

/-- What a run of letters that starts with a small one stands for. -/
def Token.ofWord (s : String) : Token :=
  match Keyword.ofSpelling? s with
  | some k => keyword k
  | none => word s

end AuthLogic
