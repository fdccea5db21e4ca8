import AuthLogic.Text.Numeral

/-! # Ranges

Rules that keep the number in a field between bounds.
-/

namespace AuthLogic

structure RangeRule where
  field : String
  value : Int
  min? : Option Int := none
  max? : Option Int := none
  deriving DecidableEq, Repr, Inhabited

namespace RangeRule

def isBroken (r : RangeRule) : Bool :=
  r.min?.any (r.value < ·) || r.max?.any (· < r.value)

def describeRange (r : RangeRule) : String :=
  match r.min?, r.max? with
  | some min, some max => "between " ++ Text.writeInt min ++ " and " ++ Text.writeInt max
  | some min, none => "at least " ++ Text.writeInt min
  | none, some max => "at most " ++ Text.writeInt max
  | none, none => "in valid range"

/-- The complaint about a broken rule. -/
def message (r : RangeRule) : String :=
  "Field '" ++ r.field ++ "' must be " ++ r.describeRange ++
    " (got " ++ Text.writeInt r.value ++ ")"

/-- The broken ones of some rules, in order. -/
def broken (rules : List RangeRule) : List RangeRule :=
  rules.filter isBroken

/-- Passes if no rule is broken, or else reports the first that is. -/
def check (rules : List RangeRule) : Except RangeRule Unit :=
  match broken rules with
  | [] => .ok ()
  | r :: _ => .error r

end RangeRule

end AuthLogic
