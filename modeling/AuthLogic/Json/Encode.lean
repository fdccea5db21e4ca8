import AuthLogic.Assertion
import AuthLogic.Config.Basic
import AuthLogic.Json.Basic

/-! # Terms as JSON

The JSON form of every term, of configurations and of errors. Optional parts that
are absent are left out.
-/

namespace AuthLogic

open Json (form)

def Mention.toJson (m : Mention) : Json :=
  .obj ([("name", .str m.var.name), ("scope", .int m.var.scope.id.toNat)] ++
    (m.type?.map fun type => ("type_annotation", Json.str type)).toList)

def Entity.toJson : Entity → Json
  | const c => form "Constant" (.str c.name)
  | var m => form "Variable" m.toJson

def Depth.toJson : Depth → Json
  | bounded n => form "Bounded" (.int n.toNat)
  | unbounded => .str "Unbounded"

/-- The JSON form of a fact whose object is encoded already. -/
def Fact.jsonOfParts (subject : Entity) (object : Json) (speaker? : Option Entity) : Json :=
  .obj ([("subject", subject.toJson), ("object", object)] ++
    (speaker?.map fun speaker => ("implicit_speaker", speaker.toJson)).toList)

def VerbPhrase.toJson : VerbPhrase → Json
  | predicate name args =>
    form "Predicate" (.obj [("name", .str name), ("args", .arr (args.map Entity.toJson))])
  | canActAs role => form "CanActAs" (.str role.name)
  | canSay depth subject object speaker? =>
    form "CanSay" (.obj
      [("depth", depth.toJson), ("fact", Fact.jsonOfParts subject object.toJson speaker?)])

def Fact.toJson (f : Fact) : Json :=
  jsonOfParts f.subject f.object.toJson f.speaker?

def Operator.formName : Operator → String
  | and => "And"
  | or => "Or"
  | eq => "Eq"
  | less => "Less"
  | lessEq => "LessEq"

namespace Constraint

mutual

def toJson : Constraint → Json
  | str s => form "Str" (.str s)
  | int n => form "Int" (.int n.toInt)
  | bool b => form "Bool" (.bool b)
  | fail => .str "Fail"
  | entity e => form "Entity" e.toJson
  | call name args => form "Call" (.obj [("name", .str name), ("args", .arr (toJsonList args))])
  | not c => form "Not" c.toJson
  | binary op l r => form op.formName (.arr [l.toJson, r.toJson])

def toJsonList : List Constraint → List Json
  | [] => []
  | c :: cs => c.toJson :: toJsonList cs

end

@[simp] theorem toJsonList_eq_map (cs : List Constraint) : toJsonList cs = cs.map toJson := by
  induction cs with
  | nil => rfl
  | cons c cs ih => rw [toJsonList, ih, List.map_cons]

end Constraint

def Claim.toJson (c : Claim) : Json :=
  .obj [("consequent", c.consequent.toJson), ("antecedents", .arr (c.antecedents.map Fact.toJson)),
    ("constraint", c.constraint.toJson)]

def Assertion.toJson (a : Assertion) : Json :=
  .obj [("speaker", a.speaker.toJson), ("says", a.claim.toJson), ("scope", .int a.scope.id.toNat)]

def Config.toJson (c : Config) : Json :=
  .obj [("max_nesting_depth", .int c.maxNestingDepth.toNat),
    ("builtin_functions", .bool c.builtinFunctions)]

def Failure.toJson : Failure → Json
  | parse message position =>
    form "Parse" (.obj [("message", .str message), ("position", .int position)])
  | registry message => form "Registry" (.obj [("message", .str message)])
  | config message => form "Config" (.obj [("message", .str message)])

end AuthLogic
