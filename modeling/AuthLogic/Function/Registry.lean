import AuthLogic.Catalogue
import AuthLogic.Constraint
import AuthLogic.Failure

/-! # Function registries

The functions that where-clauses can call. A function is registered once, under
a name that policy texts can spell.
-/

namespace AuthLogic

/-- Functions are total: they answer arguments that they have no answer for with `fail`. -/
structure Function where
  name : String
  arity : Nat
  apply : List Constraint → Constraint

structure Registry where
  functions : Catalogue Function.name

/-- Why a function is not registered. -/
inductive RegistryError
  | invalidName (name : String)
  | alreadyRegistered (name : String)
  deriving DecidableEq, Repr, Inhabited

def RegistryError.message : RegistryError → String
  | invalidName name => "'" ++ name ++ "' is not a valid function name"
  | alreadyRegistered name => "function '" ++ name ++ "' is already registered"

def RegistryError.report (e : RegistryError) : Failure :=
  .registry e.message

/-- Whether a function may have a name: letters, digits and underscores, a small letter first. -/
def isFunctionName (name : String) : Bool :=
  match name.toList with
  | [] => false
  | c :: cs => c.isLower && cs.all fun d => d.isAlphanum || d = '_'

namespace Registry

def empty : Registry := ⟨.empty⟩

instance : Inhabited Registry := ⟨empty⟩

def lookup? (r : Registry) (name : String) : Option Function :=
  r.functions.find? name

/-- The registered names in order. -/
def names (r : Registry) : List String :=
  r.functions.entries.map Function.name

/-- Add a function, unless its name is malformed or taken. The registry that is left is answered in
any case. -/
def offer (r : Registry) (f : Function) : Except RegistryError Unit × Registry :=
  if !isFunctionName f.name then (.error (.invalidName f.name), r)
  else if r.functions.contains f.name then (.error (.alreadyRegistered f.name), r)
  else (.ok (), ⟨r.functions.insert f⟩)

/-- The registry with a function that is taken. -/
def register (r : Registry) (f : Function) : Except RegistryError Registry :=
  (completed (r.offer f)).map Prod.snd

/-- How logs show a registry. -/
def describe (r : Registry) : String :=
  "FunctionRegistry \x7b functions: [" ++
    ", ".intercalate (r.names.map fun name => "\"" ++ name ++ "\"") ++ "] \x7d"

end Registry

end AuthLogic
