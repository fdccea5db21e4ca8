import AuthLogic.Claim
import AuthLogic.Syntax.Lexeme
import AuthLogic.Text.Blank

/-! # The grammar of policies

```text
policy      := assertion*
assertion   := entity 'says' claim '.'
claim       := fact ('if' fact (',' fact)*)? ('where' constraint)?
fact        := entity verb-phrase
verb-phrase := 'can-act-as' entity | 'can-say' depth fact | WORD args
args        := '(' (entity (',' entity)*)? ')' | entity*
depth       := INT | 'inf'
entity      := NAME (':' NAME)? | STRING
constraint  := conjunction ('or' conjunction)*
conjunction := negation ('and' negation)*
negation    := 'not' negation | comparison
comparison  := atom (('=' | '!=' | '<' | '<=' | '>' | '>=') atom)?
atom        := 'true' | 'false' | INT | STRING | NAME (':' NAME)?
             | WORD '(' (constraint (',' constraint)*)? ')' | '(' constraint ')'
```

Beyond the grammar, only variables carry a type, a role is a constant, and a
delegation depth fits in 32 bits. Facts, negations and constraints are counted
while they are open, by one counter for the whole text, and there is a limit to the
count.
-/

namespace AuthLogic

/-- Readers take lexemes from the front of those that are left. -/
abbrev Parser (α : Type) := StateT (List Lexeme) (Except SyntaxError) α

namespace Parser

variable {α : Type}

/-- Where the next lexeme starts. -/
def position? (ls : List Lexeme) : Option Nat :=
  ls.head?.map Lexeme.start

def fail (cause : SyntaxError.Cause) : Parser α := fun ls =>
  .error ⟨cause, position? ls⟩

def unexpected (wanted : Wanted) : Parser α := fun ls =>
  .error ⟨.expected wanted (ls.head?.map Lexeme.token), position? ls⟩

def peek : Parser (Option Token) := fun ls =>
  .ok (ls.head?.map Lexeme.token, ls)

/-- Take a token if it is the next one. -/
def eat (t : Token) : Parser Bool
  | [] => .ok (false, [])
  | l :: ls => if l.token = t then .ok (true, ls) else .ok (false, l :: ls)

def expect (t : Token) : Parser Unit := do
  if ← eat t then return else unexpected (.token t)

/-- Take the next token. -/
def skip : Parser Unit := modify List.tail

/-- The type that may follow a name. -/
def declaredType? : Parser (Option String) := do
  if ← eat (.symbol .colon) then
    match ← peek with
    | some (.name type) => skip; return some type
    | _ => unexpected .typeName
  else return none

def entity : Parser Entity := fun ls =>
  match ls with
  | ⟨.str s, _, _⟩ :: rest => .ok (.const ⟨s⟩, rest)
  | ⟨.name n, _, _⟩ :: rest => do
    let (type?, rest) ← declaredType? rest
    if isVariableName n then return (.var ⟨{ name := n }, type?⟩, rest)
    else if type?.isSome then fail (.typedConstant n) ls
    else return (.const ⟨n⟩, rest)
  | _ => unexpected .entity ls

/-- Whether an entity follows. -/
def entityFollows : Parser Bool := fun ls =>
  match ls with
  | ⟨.str _, _, _⟩ :: _ => .ok (true, ls)
  | ⟨.name _, _, _⟩ :: _ => .ok (true, ls)
  | _ => .ok (false, ls)

def depth : Parser Depth := fun ls =>
  match ls with
  | ⟨.keyword .inf, _, _⟩ :: rest => .ok (.unbounded, rest)
  | ⟨.int n, _, _⟩ :: rest =>
    match Text.toUInt32? n.toInt with
    | some hops => .ok (.bounded hops, rest)
    | none => fail (.depthOutOfRange n) ls
  | _ => unexpected .depth ls

def role : Parser Constant := fun ls => do
  match ← entity ls with
  | (.const c, rest) => return (c, rest)
  | (.var m, _) => fail (.variableRole m.var.name) ls

/-- The comparison that a symbol stands for. -/
def comparison? : Token → Option (Constraint → Constraint → Constraint)
  | .symbol .eq => some (.binary .eq)
  | .symbol .notEq => some fun l r => .not (.binary .eq l r)
  | .symbol .less => some (.binary .less)
  | .symbol .lessEq => some (.binary .lessEq)
  | .symbol .greater => some fun l r => .binary .less r l
  | .symbol .greaterEq => some fun l r => .binary .lessEq r l
  | _ => none

/-! ## Phrases that open no construct

They are put together from readers for their parts, which may do more than read.
-/

section Phrases

variable {m : Type → Type} [Monad m] [MonadLiftT Parser m]

/-- Read items as long as the test finds another one, at most one for each lexeme of a list. -/
def manyWithin (more : m Bool) (item : m α) : (bound : List Lexeme) → m (List α)
  | [] => return []
  | _ :: bound => do
    if ← more then return (← item) :: (← manyWithin more item bound) else return []

/-- Read items as long as the test finds another one. Every item takes a lexeme, so that there are
no more items than lexemes. -/
def many (more : m Bool) (item : m α) : m (List α) := do
  manyWithin more item (← (get : Parser (List Lexeme)))

/-- One or more items with a token between them. -/
def separated (t : Token) (item : m α) : m (List α) := do
  return (← item) :: (← many (eat t) item)

/-- The items of a list whose opening parenthesis has been read. -/
def untilClosed (item : m α) : m (List α) := do
  if ← eat (.symbol .rparen) then return []
  let items ← separated (.symbol .comma) item
  expect (.symbol .rparen)
  return items

def args : m (List Entity) := do
  if ← eat (.symbol .lparen) then untilClosed entity else many entityFollows entity

/-- A verb phrase, given a reader for delegated facts. -/
def verbPhrase (fact : m Fact) : m VerbPhrase := do
  match ← peek with
  | some (.keyword .canActAs) =>
    skip
    return .canActAs (← role)
  | some (.keyword .canSay) =>
    skip
    return .delegate (← depth) (← fact)
  | some (.word name) =>
    skip
    return .predicate name (← args)
  | _ => unexpected .verbPhrase

/-- An atom, given a reader for what stands in parentheses. -/
def atom (inner : m Constraint) : m Constraint := do
  match ← peek with
  | some (.keyword .true) => skip; return .bool true
  | some (.keyword .false) => skip; return .bool false
  | some (.int n) => skip; return .int n
  | some (.str s) => skip; return .str s
  | some (.name _) => return .entity (← entity)
  | some (.word name) =>
    skip
    expect (.symbol .lparen)
    return .call name (← untilClosed inner)
  | some (.symbol .lparen) =>
    skip
    let c ← inner
    expect (.symbol .rparen)
    return c
  | _ => unexpected .constraint

def comparison (inner : m Constraint) : m Constraint := do
  let left ← atom inner
  match (← peek).bind comparison? with
  | some build => skip; return build left (← atom inner)
  | none => return left

/-- One or more operands, grouped from the left. -/
def chain (k : Keyword) (op : Operator) (operand : m Constraint) : m Constraint := do
  let first ← operand
  let rest ← many (eat (.keyword k)) operand
  return rest.foldl (.binary op) first

def conjunction (negation : m Constraint) : m Constraint :=
  chain .and .and negation

def disjunction (negation : m Constraint) : m Constraint :=
  chain .or .or (conjunction negation)

/-- A claim, given readers for facts and for what follows `where`. -/
def claimOf (fact : m Fact) (constraint : m Constraint) : m Claim := do
  let consequent ← fact
  let antecedents ← if ← eat (.keyword .if) then separated (.symbol .comma) fact else pure []
  let constraint ← if ← eat (.keyword .where) then constraint else pure .trivial
  return { consequent, antecedents, constraint }

/-- The speaker and the claim of an assertion. -/
def assertionOf (claim : m Claim) : m (Entity × Claim) := do
  let speaker ← entity
  expect (.keyword .say)
  let claim ← claim
  expect (.symbol .period)
  return (speaker, claim)

def policyOf (assertion : m (Entity × Claim)) : m (List (Entity × Claim)) :=
  many (do return (← peek).isSome) assertion

end Phrases

/-! ## Constructs that are open -/

/-- Readers that count the constructs that are open. -/
abbrev Counted (α : Type) := StateT Nat Parser α

namespace Counted

/-- Open a construct, unless the limit has been reached. -/
def enter (limit : Nat) : Counted Unit := do
  modify (· + 1)
  if limit < (← get) then fail .nestingTooDeep

def leave : Counted Unit :=
  modify (· - 1)

/-- A fact, if there is room for so many lexemes. The subject takes one, and a fact for which there
is no room has none. -/
def fact (limit : Nat) : (room : Nat) → Counted Fact
  | 0 => do
    enter limit
    unexpected .entity
  | n + 1 => do
    enter limit
    let subject ← entity
    let object ← verbPhrase (fact limit n)
    leave
    return { subject, object }

/-- The operands of a disjunction, given a reader for negations. -/
def enclosed (limit : Nat) (negation : Counted Constraint) : Counted Constraint := do
  enter limit
  let c ← disjunction negation
  leave
  return c

def negation (limit : Nat) : (room : Nat) → Counted Constraint
  | 0 => unexpected .constraint
  | n + 1 => do
    if ← eat (.keyword .not) then
      enter limit
      let c ← negation limit n
      leave
      return .not c
    else comparison (enclosed limit (negation limit n))

def constraint (limit room : Nat) : Counted Constraint :=
  enclosed limit (negation limit room)

def claim (limit room : Nat) : Counted Claim :=
  claimOf (fact limit room) (constraint limit room)

def assertion (limit room : Nat) : Counted (Entity × Claim) :=
  assertionOf (claim limit room)

def policy (limit room : Nat) : Counted (List (Entity × Claim)) :=
  policyOf (assertion limit room)

/-- Read with no construct open. There is room for all lexemes. -/
def uncounted (p : (room : Nat) → Counted α) : Parser α := fun ls =>
  (p ls.length).run' 0 ls

end Counted

def fact (limit : Nat) : Parser Fact :=
  Counted.uncounted (Counted.fact limit)

def constraint (limit : Nat) : Parser Constraint :=
  Counted.uncounted (Counted.constraint limit)

def assertion (limit : Nat) : Parser (Entity × Claim) :=
  Counted.uncounted (Counted.assertion limit)

def policy (limit : Nat) : Parser (List (Entity × Claim)) :=
  Counted.uncounted (Counted.policy limit)

/-- Drop a number of bytes of a text. -/
def dropBytes : Nat → List Char → List Char
  | 0, cs => cs
  | _, [] => []
  | n, c :: cs => dropBytes (n - c.utf8Size) cs

/-- Refuse a text of which lexemes are left. -/
def finish (text : String) : List Lexeme → Except SyntaxError Unit
  | [] => .ok ()
  | l :: _ =>
    let rest := Text.trim (dropBytes l.start text.toList)
    .error ⟨.trailingInput (String.ofList rest), some l.start⟩

/-- Read the whole of a text. -/
def complete (p : Parser α) (text : String) (ls : List Lexeme) : Except SyntaxError α := do
  let (a, rest) ← p ls
  finish text rest
  return a

/-- The lexemes without a period at the end. -/
def withoutPeriod (ls : List Lexeme) : List Lexeme :=
  if ls.getLast?.map Lexeme.token = some (.symbol .period) then ls.dropLast else ls

end Parser

/-- The number of levels that are enough for all but unusual policies. -/
def defaultLevels : Nat := 64

/-- Read a single fact, after which a period may stand. -/
def parseFact (text : String) : Except Failure Fact :=
  Except.mapError (SyntaxError.report · text) do
    let ls ← Lexeme.ofText text
    Parser.complete (Parser.fact defaultLevels) text (Parser.withoutPeriod ls)

/-- Read a single assertion. -/
def parseAssertion (levels : Nat) (text : String) : Except Failure (Entity × Claim) :=
  Except.mapError (SyntaxError.report · text) do
    Parser.complete (Parser.assertion levels) text (← Lexeme.ofText text)

/-- Read any number of assertions. -/
def parsePolicy (levels : Nat) (text : String) : Except Failure (List (Entity × Claim)) :=
  Except.mapError (SyntaxError.report · text) do
    Parser.complete (Parser.policy levels) text (← Lexeme.ofText text)

end AuthLogic
