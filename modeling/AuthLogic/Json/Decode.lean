import AuthLogic.Json.Encode

/-! # Terms from JSON

Reading terms from their JSON form. Fields in any order and unknown fields are
accepted; a part that is missing or is not what it should be makes the whole
unreadable. Reading a term builds it from its parts and does nothing else: an
assertion is not placed in its scope.
-/

namespace AuthLogic

def Scope.ofJson? (j : Json) : Option Scope := do
  return ⟨← Text.toUInt64? (← j.int?)⟩

def Mention.ofJson? (j : Json) : Option Mention := do
  match ← j.record? ["name", "scope", "type_annotation"] with
  | [some name, some scope, type?] =>
    return { var := { name := ← name.1.str?, scope := ← Scope.ofJson? scope.1 },
             type? := ← Json.optional? (fun p => p.1.str?) type? }
  | _ => none

def Entity.ofJson? (j : Json) : Option Entity := do
  match ← j.form? with
  | ("Constant", some p) => return .const ⟨← p.1.str?⟩
  | ("Variable", some p) => return .var (← Mention.ofJson? p.1)
  | _ => none

def Depth.ofJson? (j : Json) : Option Depth := do
  match ← j.form? with
  | ("Bounded", some p) => return .bounded (← Text.toUInt32? (← p.1.int?))
  | ("Unbounded", p?) => if Json.isNothing p? then return .unbounded else none
  | _ => none

def Entity.listOfJson? (j : Json) : Option (List Entity) := do
  (← j.items?).mapM fun p => Entity.ofJson? p.1

/-- The fields of a fact. -/
def Fact.fieldNames : List String :=
  ["subject", "object", "implicit_speaker"]

def VerbPhrase.ofJson? (j : Json) : Option VerbPhrase := do
  match ← j.form? with
  | ("Predicate", some p) =>
    match ← p.1.fields? ["name", "args"] with
    | [some name, some args] =>
      return .predicate (← name.1.str?) (← Entity.listOfJson? args.1)
    | _ => none
  | ("CanActAs", some p) => return .canActAs ⟨← p.1.str?⟩
  | ("CanSay", some p) =>
    match ← p.1.fields? ["depth", "fact"] with
    | [some depth, some fact] =>
      match ← fact.1.record? Fact.fieldNames with
      | [some subject, some object, speaker?] =>
        return .canSay (← Depth.ofJson? depth.1) (← Entity.ofJson? subject.1)
          (← VerbPhrase.ofJson? object.1)
          (← Json.optional? (fun p => Entity.ofJson? p.1) speaker?)
      | _ => none
    | _ => none
  | _ => none
termination_by j.size
decreasing_by have := p.2; have := fact.2; have := object.2; omega

def Fact.ofJson? (j : Json) : Option Fact := do
  match ← j.record? fieldNames with
  | [some subject, some object, speaker?] =>
    return { subject := ← Entity.ofJson? subject.1, object := ← VerbPhrase.ofJson? object.1,
             speaker? := ← Json.optional? (fun p => Entity.ofJson? p.1) speaker? }
  | _ => none

/-- The operator that a form is named for. -/
def Operator.ofFormName? : String → Option Operator
  | "And" => some .and
  | "Or" => some .or
  | "Eq" => some .eq
  | "Less" => some .less
  | "LessEq" => some .lessEq
  | _ => none

def Constraint.ofJson? (j : Json) : Option Constraint := do
  match ← j.form? with
  | ("Str", some p) => return .str (← p.1.str?)
  | ("Int", some p) => return .int (← Text.toInt64? (← p.1.int?))
  | ("Bool", some p) => return .bool (← p.1.bool?)
  | ("Fail", p?) => if Json.isNothing p? then return .fail else none
  | ("Entity", some p) => return .entity (← Entity.ofJson? p.1)
  | ("Call", some p) =>
    match ← p.1.fields? ["name", "args"] with
    | [some name, some args] =>
      let args ← (← args.1.items?).mapM fun arg => Constraint.ofJson? arg.1
      return .call (← name.1.str?) args
    | _ => none
  | ("Not", some p) => return .not (← Constraint.ofJson? p.1)
  | (name, some p) =>
    let op ← Operator.ofFormName? name
    let (l, r) ← p.1.pair?
    return .binary op (← Constraint.ofJson? l.1) (← Constraint.ofJson? r.1)
  | _ => none
termination_by j.size
decreasing_by
  · have := p.2; have := args.2; have := arg.2; omega
  · exact p.2
  · have := p.2; have := l.2; omega
  · have := p.2; have := r.2; omega

def Claim.ofJson? (j : Json) : Option Claim := do
  match ← j.record? ["consequent", "antecedents", "constraint"] with
  | [some consequent, some antecedents, some constraint] =>
    return { consequent := ← Fact.ofJson? consequent.1,
             antecedents := ← (← antecedents.1.items?).mapM fun p => Fact.ofJson? p.1,
             constraint := ← Constraint.ofJson? constraint.1 }
  | _ => none

def Assertion.ofJson? (j : Json) : Option Assertion := do
  match ← j.record? ["speaker", "says", "scope"] with
  | [some speaker, some claim, some scope] =>
    return { speaker := ← Entity.ofJson? speaker.1, claim := ← Claim.ofJson? claim.1,
             scope := ← Scope.ofJson? scope.1 }
  | _ => none

/-- Settings that are missing have their defaults. -/
def Config.ofJson? (j : Json) : Option Config := do
  match ← j.record? ["max_nesting_depth", "builtin_functions"] with
  | [depth?, builtin?] =>
    let maxNestingDepth ← match depth? with
      | some p => Text.toUInt64? (← p.1.int?)
      | none => some ({} : Config).maxNestingDepth
    let builtinFunctions ← match builtin? with
      | some p => p.1.bool?
      | none => some ({} : Config).builtinFunctions
    return { maxNestingDepth, builtinFunctions }
  | _ => none

def Failure.ofJson? (j : Json) : Option Failure := do
  match ← j.form? with
  | ("Parse", some p) =>
    match ← p.1.fields? ["message", "position"] with
    | [some message, some position] =>
      return .parse (← message.1.str?) (← Text.toUInt64? (← position.1.int?)).toNat
    | _ => none
  | ("Registry", some p) =>
    match ← p.1.fields? ["message"] with
    | [some message] => return .registry (← message.1.str?)
    | _ => none
  | ("Config", some p) =>
    match ← p.1.fields? ["message"] with
    | [some message] => return .config (← message.1.str?)
    | _ => none
  | _ => none

end AuthLogic
