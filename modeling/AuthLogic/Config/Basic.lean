import AuthLogic.Config.Range
import AuthLogic.Function.Hour
import AuthLogic.Syntax.Grammar
import AuthLogic.Toml.Reader

/-! # Configuration

The settings of reading and evaluation, and their layers: defaults, then a TOML
document, then single settings and environment variables. A document is taken
over as a whole or not at all; of environment variables those before the first
bad one stay in force.
-/

namespace AuthLogic

/-- Why a configuration is refused. -/
inductive ConfigError
  | invalidNesting (text : String)
  | invalidBoolean (text : String)
  | unknownKey (key : String)
  | outOfRange (rule : RangeRule)
  | invalidToml
  | unreadableFile (path reason : String)
  deriving DecidableEq, Repr, Inhabited

def ConfigError.message : ConfigError → String
  | invalidNesting text => "Invalid max_nesting_depth '" ++ text ++ "'"
  | invalidBoolean text => "Invalid boolean for builtin_functions '" ++ text ++ "'"
  | unknownKey key => "Unknown configuration key: " ++ key
  | outOfRange rule => rule.message
  | invalidToml => "Invalid TOML"
  | unreadableFile path reason => "Failed to read config file " ++ path ++ ": " ++ reason

def ConfigError.report (e : ConfigError) : Failure :=
  .config e.message

structure Config where

  /-- How deep facts and constraints may be nested. -/
  maxNestingDepth : UInt64 := UInt64.ofNat defaultLevels

  /-- Whether the built-in functions are registered. -/
  builtinFunctions : Bool := true
  deriving DecidableEq, Repr, Inhabited

namespace Config

def nestingLimit : UInt64 := 128

def keys : List String :=
  ["max_nesting_depth", "builtin_functions"]

def environmentPrefix : String := "SECPAL_"

/-- The levels that texts are read with. -/
def levels (c : Config) : Nat :=
  c.maxNestingDepth.toNat

def validate (c : Config) : Except ConfigError Unit :=
  Except.mapError .outOfRange (RangeRule.check
    [{ field := "max_nesting_depth", value := c.maxNestingDepth.toNat,
       min? := some 1, max? := some nestingLimit.toNat }])

def readBool? (cs : List Char) : Option Bool :=
  if cs = "true".toList then some true
  else if cs = "false".toList then some false
  else none

/-- Hyphens and underscores are the same in keys. -/
def normalizeKey (key : String) : String :=
  String.ofList (key.toList.map fun c => if c = '-' then '_' else c)

/-- Change one setting, without validating the configuration. -/
def set (c : Config) (key text : String) : Except ConfigError Config :=
  let trimmed := Text.trim text.toList
  if normalizeKey key = "max_nesting_depth" then
    match Text.readUInt64? trimmed with
    | some n => .ok { c with maxNestingDepth := n }
    | none => .error (.invalidNesting text)
  else if normalizeKey key = "builtin_functions" then
    match readBool? trimmed with
    | some b => .ok { c with builtinFunctions := b }
    | none => .error (.invalidBoolean text)
  else .error (.unknownKey key)

/-- The key that an environment variable sets. Letters count in either case; those of the keys are
the small form of ASCII letters only. -/
def variableKey? (name : String) : Option String :=
  if environmentPrefix.toList.isPrefixOf name.toList then
    let key := String.ofList ((name.toList.drop environmentPrefix.length).map Char.toLower)
    if keys.contains key then some key else none
  else none

/-- Apply environment variables in order, up to the first that is bad, and validate the result. The
configuration that is left is answered in any case. -/
def applyVariables (c : Config) : List (String × String) → Config × Except ConfigError Unit
  | [] => (c, c.validate)
  | (name, text) :: vars =>
    match variableKey? name with
    | none => c.applyVariables vars
    | some key =>
      match c.set key text with
      | .ok c => c.applyVariables vars
      | .error e => (c, .error e)

/-- The settings of a TOML document. Other keys are passed over. -/
def ofToml? (es : Toml.Entries) : Option Config := do
  let maxNestingDepth ←
    match es.get? "max_nesting_depth" with
    | none => some ({} : Config).maxNestingDepth
    | some (.int n) => Text.toUInt64? n.toInt
    | some _ => none
  let builtinFunctions ←
    match es.get? "builtin_functions" with
    | none => some ({} : Config).builtinFunctions
    | some (.bool b) => some b
    | some _ => none
  return { maxNestingDepth, builtinFunctions }

/-- Read and validate a TOML document. -/
def load (text : String) : Except ConfigError Config :=
  match (Toml.read? text).bind ofToml? with
  | none => .error .invalidToml
  | some c => do
    c.validate
    return c

/-- Load what reading a file gave, a text or the reason why there is none. -/
def loadFile (path : String) : Except String String → Except ConfigError Config
  | .ok text => load text
  | .error reason => .error (.unreadableFile path reason)

/-- The functions that are registered at first. -/
def registry (c : Config) (clock : Clock) : Registry :=
  if c.builtinFunctions then .withClock clock else .empty

end Config

end AuthLogic
