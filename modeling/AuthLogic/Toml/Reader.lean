import AuthLogic.Toml.Number

/-! # Reading TOML

A reader for documents of TOML 1.0. It answers the table of a document, or
nothing for a text that is no document.
-/

namespace AuthLogic.Toml

/-- Readers take characters from the front of those that are left. -/
abbrev Reader (α : Type) := StateT (List Char) Option α

namespace Reader

variable {α : Type}

def takeWhile (p : Char → Bool) : Reader (List Char) := fun cs =>
  some (cs.takeWhile p, cs.dropWhile p)

/-- Take a text if it is next. -/
def eat (s : String) : Reader Bool := fun cs =>
  if s.toList.isPrefixOf cs then some (true, cs.drop s.length) else some (false, cs)

def expect (s : String) : Reader Unit := do
  unless ← eat s do failure

/-- Take a character of a class. -/
def one (p : Char → Bool) : Reader Char
  | c :: cs => if p c then some (c, cs) else none
  | [] => none

def blanks : Reader Unit := do
  let _ ← takeWhile fun c => c = ' ' || c = '\t'

def newline : Reader Bool := do
  if ← eat "\n" then return true else eat "\r\n"

/-- The characters that stand for themselves in comments and strings. -/
def isPlain (c : Char) : Bool :=
  c = '\t' || 0x20 ≤ c.toNat && c.toNat ≠ 0x7F

def comment : Reader Unit := do
  if ← eat "#" then
    let _ ← takeWhile isPlain

/-- Use a reader that goes round at most once for every character, and once more at the end. -/
def bounded (r : Nat → Reader α) : Reader α := fun cs =>
  r (cs.length + 1) cs

/-! ## Strings -/

/-- The character whose code point has so many hexadecimal digits. -/
def codePoint (digits : Nat) : Reader Char := fun cs =>
  let n := ofDigits 16 (cs.take digits)
  if digits ≤ cs.length ∧ (cs.take digits).all isHexDigit ∧ n.isValidChar then
    some (Char.ofNat n, cs.drop digits)
  else none

/-- What follows a backslash. -/
def escaped : Reader Char := do
  match ← one fun _ => true with
  | 'b' => return '\x08'
  | 't' => return '\t'
  | 'n' => return '\n'
  | 'f' => return '\x0c'
  | 'r' => return '\r'
  | '"' => return '"'
  | '\\' => return '\\'
  | 'u' => codePoint 4
  | 'U' => codePoint 8
  | _ => failure

/-- The rest of a string on one line, given what closes it and whether it has escapes. -/
def lineString (close : String) (escapes : Bool) : (bound : Nat) → Reader (List Char)
  | 0 => failure
  | n + 1 => do
    if ← eat close then return []
    let c ← if ← (if escapes then eat "\\" else pure false) then escaped else one isPlain
    return c :: (← lineString close escapes n)

/-- The space that a backslash at the end of a line removes, if there is such a line end. -/
def lineContinuation : Reader Bool := fun cs =>
  match blanks cs with
  | none => none
  | some (_, rest) =>
    match newline rest with
    | some (true, rest) => some (true, skip rest)
    | _ => some (false, cs)
where
  skip : List Char → List Char
    | ' ' :: cs => skip cs
    | '\t' :: cs => skip cs
    | '\n' :: cs => skip cs
    | '\r' :: '\n' :: cs => skip cs
    | cs => cs

/-- The rest of a string on several lines. Up to two quotation marks may stand before the three
that close it. -/
def multilineString (quote : Char) (escapes : Bool) : (bound : Nat) → Reader (List Char)
  | 0 => failure
  | n + 1 => do
    let quotes ← takeWhile (· = quote)
    if 3 ≤ quotes.length then
      if quotes.length ≤ 5 then return quotes.drop 3 else failure
    let chars ←
      if ← newline then pure ['\n']
      else if ← (if escapes then eat "\\" else pure false) then
        if ← lineContinuation then pure [] else pure [← escaped]
      else pure [← one isPlain]
    return quotes ++ chars ++ (← multilineString quote escapes n)

/-- A string, if one is next. -/
def string? : Reader (Option String) := do
  if ← eat "\"\"\"" then
    let _ ← newline
    return some (String.ofList (← bounded (multilineString '"' true)))
  else if ← eat "'''" then
    let _ ← newline
    return some (String.ofList (← bounded (multilineString '\'' false)))
  else if ← eat "\"" then
    return some (String.ofList (← bounded (lineString "\"" true)))
  else if ← eat "'" then
    return some (String.ofList (← bounded (lineString "'" false)))
  else return none

/-! ## Keys -/

def simpleKey : Reader String := do
  if ← eat "\"" then return String.ofList (← bounded (lineString "\"" true))
  else if ← eat "'" then return String.ofList (← bounded (lineString "'" false))
  else
    let cs ← takeWhile fun c => c.isAlphanum || c = '_' || c = '-'
    if cs = [] then failure else return String.ofList cs

def moreKeys : (bound : Nat) → Reader (List String)
  | 0 => failure
  | n + 1 => do
    blanks
    if ← eat "." then
      blanks
      return (← simpleKey) :: (← moreKeys n)
    else return []

/-- The number of parts of a key and the depth of a value stay below this. -/
def depthLimit : Nat := 80

/-- A key, as the parts before its last dot and the part after. -/
def key : Reader (List String × String) := do
  let keys := (← simpleKey) :: (← bounded moreKeys)
  if keys.length < depthLimit then return (keys.dropLast, keys.getLastD "") else failure

/-! ## Scalars -/

/-- A number of two digits up to a bound. -/
def twoDigits (bound : Nat) : Reader Nat := do
  let a ← one Char.isDigit
  let b ← one Char.isDigit
  let n := ofDigits 10 [a, b]
  if n ≤ bound then return n else failure

def daysIn (year month : Nat) : Nat :=
  if month = 2 then
    if year % 4 = 0 ∧ (year % 100 ≠ 0 ∨ year % 400 = 0) then 29 else 28
  else if month ∈ [4, 6, 9, 11] then 30
  else 31

def date : Reader Unit := do
  let century ← twoDigits 99
  let year ← twoDigits 99
  expect "-"
  let month ← twoDigits 12
  expect "-"
  let day ← twoDigits (daysIn (100 * century + year) month)
  if month = 0 ∨ day = 0 then failure

def time : Reader Unit := do
  let _ ← twoDigits 23
  expect ":"
  let _ ← twoDigits 59
  expect ":"
  let _ ← twoDigits 60
  if ← eat "." then
    if (← takeWhile Char.isDigit) = [] then failure

def offset : Reader Unit := do
  if (← eat "Z") || (← eat "z") then return
  if (← eat "+") || (← eat "-") then
    let _ ← twoDigits 23
    expect ":"
    let _ ← twoDigits 59

/-- The time that may follow a date. -/
def timeOfDate : Reader Unit := do
  let _ ← one fun c => c = 'T' || c = 't' || c = ' '
  time
  offset

/-- A time of a day, or a day, or both. -/
def dateTime : Reader Unit := fun cs =>
  (time cs).or ((date cs).bind fun r => (timeOfDate r.2).or (some r))

/-- A number, truth value or date. -/
def scalar : Reader Toml := fun cs =>
  let inScalar := fun c : Char => c.isAlphanum || "_+-.:".toList.contains c
  let chunk := cs.takeWhile inScalar
  let rest := cs.dropWhile inScalar
  if chunk = "true".toList then some (bool true, rest)
  else if chunk = "false".toList then some (bool false, rest)
  else
    match (float? chunk).or (integer? chunk) with
    | some t => some (t, rest)
    | none => (dateTime cs).map fun r => (Toml.dateTime, r.2)

/-! ## Values -/

/-- What may stand between the items of an array. -/
def filler : (bound : Nat) → Reader Unit
  | 0 => failure
  | n + 1 => do
    blanks
    comment
    if ← newline then filler n

/-- The items of an array after its opening bracket. -/
def items (item : Reader α) : (bound : Nat) → Reader (List α)
  | 0 => failure
  | n + 1 => do
    bounded filler
    if ← eat "]" then return []
    let a ← item
    bounded filler
    if ← eat "," then return a :: (← items item n)
    expect "]"
    return [a]

/-- A key and its value. -/
def pair (value : Reader Toml) : Reader ((List String × String) × Toml) := do
  let k ← key
  blanks
  expect "="
  blanks
  return (k, ← value)

/-- The pairs of an inline table from the first on. -/
def pairs (value : Reader Toml) : (bound : Nat) → Reader (List ((List String × String) × Toml))
  | 0 => failure
  | n + 1 => do
    let p ← pair value
    blanks
    if ← eat "," then
      blanks
      return p :: (← pairs value n)
    expect "\x7d"
    return [p]

/-- The table with some pairs, unless they clash. -/
def inlineTable (ps : List ((List String × String) × Toml)) : Reader Toml := fun cs =>
  (ps.foldlM (fun (es : Entries) p => es.insert p.1.1 p.1.2 p.2) []).map fun es =>
    (table .inline es, cs)

def value : (levels : Nat) → Reader Toml
  | 0 => do
    match ← string? with
    | some s => return str s
    | none => scalar
  | n + 1 => do
    if ← eat "[" then return array (← bounded (items (value n)))
    else if ← eat "\x7b" then
      blanks
      if ← eat "\x7d" then return table .inline []
      inlineTable (← bounded (pairs (value n)))
    else value 0

/-! ## Documents -/

/-- The tables read so far, and the header that they are read under. -/
structure Document where
  root : Entries := []
  header : List String := []

/-- What stands on one line, up to its comment. -/
def statement (d : Document) : Reader Document := do
  blanks
  match ← get with
  | [] | '#' :: _ | '\n' :: _ | '\r' :: _ => return d
  | '[' :: '[' :: rest =>
    set rest
    blanks
    let (path, last) ← key
    blanks
    expect "]]"
    let header := path ++ [last]
    return { root := ← (d.root.appendTable header : Option Entries), header }
  | '[' :: rest =>
    set rest
    blanks
    let (path, last) ← key
    blanks
    expect "]"
    let header := path ++ [last]
    return { root := ← (d.root.openTable header : Option Entries), header }
  | _ =>
    let ((path, last), t) ← pair (value (depthLimit - 1))
    return { d with root := ← (d.root.insertUnder d.header path last t : Option Entries) }

def statements (d : Document) : (bound : Nat) → Reader Document
  | 0 => failure
  | n + 1 => do
    let d ← statement d
    blanks
    comment
    if ← newline then statements d n
    else if (← get) = [] then return d
    else failure

end Reader

/-- The entries of a document. A byte order mark in front is passed over. -/
def read? (text : String) : Option Entries :=
  let cs := match text.toList with
    | '\uFEFF' :: cs => cs
    | cs => cs
  (Reader.bounded (Reader.statements {}) cs).map fun r => r.1.root

end AuthLogic.Toml
