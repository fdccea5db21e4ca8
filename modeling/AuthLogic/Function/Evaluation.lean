import AuthLogic.Function.Registry
import AuthLogic.Text.Blank

/-! # Evaluation

The value of a constraint, together with the function calls made on the way. All
operands and arguments are evaluated, from left to right, whether or not they
can still change the value; what is ill-formed has the value `fail`, and what
contains a failing part fails.
-/

namespace AuthLogic

/-- A call of a registered function with the values of its arguments. -/
structure Invocation where
  function : String
  args : List Constraint
  deriving DecidableEq, Repr, Inhabited

/-- A value, and the calls that were made for it in order. -/
structure Outcome where
  value : Constraint
  calls : List Invocation := []
  deriving DecidableEq, Repr, Inhabited

namespace Constraint

/-- The integer that a value stands for: its own, or the one that a string spells. -/
def int? : Constraint → Option Int64
  | int n => some n
  | str s => Text.readInt64? (Text.trim s.toList)
  | _ => none

/-- Equality of values. Integers and booleans are compared as such and everything else by text. -/
def equal (a b : Constraint) : Constraint :=
  if a.isFail || b.isFail then fail
  else match a, b with
    | int m, int n => bool (m = n)
    | bool p, bool q => bool (p = q)
    | a, b =>
      match a.text?, b.text? with
      | some s, some t => bool (s = t)
      | _, _ => fail

/-- A test of two values as booleans. -/
def testBools (test : Bool → Bool → Bool) : Constraint → Constraint → Constraint
  | bool p, bool q => bool (test p q)
  | _, _ => fail

/-- A test of two values as integers. -/
def testInts (test : Int64 → Int64 → Bool) (a b : Constraint) : Constraint :=
  match a.int?, b.int? with
  | some m, some n => bool (test m n)
  | _, _ => fail

def negate : Constraint → Constraint
  | bool p => bool !p
  | _ => fail

end Constraint

/-- The value of an operator on the values of its operands. -/
def Operator.apply : Operator → Constraint → Constraint → Constraint
  | and => Constraint.testBools (· && ·)
  | or => Constraint.testBools (· || ·)
  | eq => Constraint.equal
  | less => Constraint.testInts (· < ·)
  | lessEq => Constraint.testInts (· ≤ ·)

namespace Registry

/-- Call a function on values. Nothing is called if a value is `fail`, the name is unknown or the
number of values is not the arity. -/
def invoke (r : Registry) (name : String) (args : List Constraint) : Outcome :=
  if args.any Constraint.isFail then { value := .fail }
  else match r.lookup? name with
    | none => { value := .fail }
    | some f =>
      if f.arity = args.length then { value := f.apply args, calls := [⟨name, args⟩] }
      else { value := .fail }

mutual

def run (r : Registry) : Constraint → Outcome
  | .entity (.const c) => { value := .str c.name }
  | .entity (.var _) => { value := .fail }
  | .call name args =>
    let os := r.runList args
    let o := r.invoke name (os.map Outcome.value)
    { o with calls := os.flatMap Outcome.calls ++ o.calls }
  | .not c =>
    let o := r.run c
    { o with value := o.value.negate }
  | .binary op l r' =>
    let o := r.run l
    let p := r.run r'
    { value := op.apply o.value p.value, calls := o.calls ++ p.calls }
  | .str s => { value := .str s }
  | .int n => { value := .int n }
  | .bool b => { value := .bool b }
  | .fail => { value := .fail }

def runList (r : Registry) : List Constraint → List Outcome
  | [] => []
  | c :: cs => r.run c :: r.runList cs

end

@[simp] theorem runList_eq_map (r : Registry) (cs : List Constraint) :
    r.runList cs = cs.map r.run := by
  induction cs with
  | nil => rfl
  | cons c cs ih => rw [runList, ih, List.map_cons]

def eval (r : Registry) (c : Constraint) : Constraint :=
  (r.run c).value

/-- Whether a constraint holds. One that fails does not, and neither does its negation. -/
def isSatisfied (r : Registry) (c : Constraint) : Bool :=
  r.eval c = .bool true

theorem eval_not (r : Registry) (c : Constraint) : r.eval (.not c) = (r.eval c).negate := rfl

theorem eval_binary (r : Registry) (op : Operator) (a b : Constraint) :
    r.eval (.binary op a b) = op.apply (r.eval a) (r.eval b) := rfl

theorem eval_call (r : Registry) (name : String) (args : List Constraint) :
    r.eval (.call name args) = (r.invoke name (args.map r.eval)).value := by
  simp only [eval, run, runList_eq_map, List.map_map]
  rfl

end Registry

end AuthLogic
