import AuthLogic.Term
import AuthLogic.Text.Numeral

/-! # Constraints

The expressions of where-clauses. They are also the values of such expressions:
an expression that is ill-formed or outside the domain of a function has the
value `fail`.
-/

namespace AuthLogic

inductive Operator
  | and
  | or
  | eq
  | less
  | lessEq
  deriving DecidableEq, Repr, Inhabited

inductive Constraint
  | str (text : String)
  | int (n : Int64)
  | bool (b : Bool)
  | fail
  | entity (e : Entity)
  | call (name : String) (args : List Constraint)
  | not (c : Constraint)
  | binary (op : Operator) (left right : Constraint)
  deriving Repr, Inhabited

namespace Constraint

/-- Induction in which the arguments of a call are reached through membership. -/
@[induction_eliminator]
theorem induct {motive : Constraint → Prop}
    (str : ∀ text, motive (.str text))
    (int : ∀ n, motive (.int n))
    (bool : ∀ b, motive (.bool b))
    (fail : motive .fail)
    (entity : ∀ e, motive (.entity e))
    (call : ∀ name args, (∀ arg ∈ args, motive arg) → motive (.call name args))
    (not : ∀ c, motive c → motive (.not c))
    (binary : ∀ op left right, motive left → motive right → motive (.binary op left right))
    (c : Constraint) : motive c :=
  Constraint.rec str int bool fail entity (fun name args ih => call name args ih) not binary
    (List.forall_mem_nil motive)
    (fun _ _ ha has => List.forall_mem_cons.mpr ⟨ha, has⟩) c

mutual

def decEq : (a b : Constraint) → Decidable (a = b)
  | .str a, .str b => decidable_of_iff (a = b) (by simp)
  | .int a, .int b => decidable_of_iff (a = b) (by simp)
  | .bool a, .bool b => decidable_of_iff (a = b) (by simp)
  | .fail, .fail => isTrue rfl
  | .entity a, .entity b => decidable_of_iff (a = b) (by simp)
  | .call n as, .call m bs =>
    have := listDecEq as bs
    decidable_of_iff (n = m ∧ as = bs) (by simp)
  | .not a, .not b =>
    have := decEq a b
    decidable_of_iff (a = b) (by simp)
  | .binary o a₁ a₂, .binary p b₁ b₂ =>
    have := decEq a₁ b₁
    have := decEq a₂ b₂
    decidable_of_iff (o = p ∧ a₁ = b₁ ∧ a₂ = b₂) (by simp)
  | .str _, .int _ | .str _, .bool _ | .str _, .fail | .str _, .entity _ | .str _, .call ..
  | .str _, .not _ | .str _, .binary ..
  | .int _, .str _ | .int _, .bool _ | .int _, .fail | .int _, .entity _ | .int _, .call ..
  | .int _, .not _ | .int _, .binary ..
  | .bool _, .str _ | .bool _, .int _ | .bool _, .fail | .bool _, .entity _ | .bool _, .call ..
  | .bool _, .not _ | .bool _, .binary ..
  | .fail, .str _ | .fail, .int _ | .fail, .bool _ | .fail, .entity _ | .fail, .call ..
  | .fail, .not _ | .fail, .binary ..
  | .entity _, .str _ | .entity _, .int _ | .entity _, .bool _ | .entity _, .fail
  | .entity _, .call .. | .entity _, .not _ | .entity _, .binary ..
  | .call .., .str _ | .call .., .int _ | .call .., .bool _ | .call .., .fail
  | .call .., .entity _ | .call .., .not _ | .call .., .binary ..
  | .not _, .str _ | .not _, .int _ | .not _, .bool _ | .not _, .fail | .not _, .entity _
  | .not _, .call .. | .not _, .binary ..
  | .binary .., .str _ | .binary .., .int _ | .binary .., .bool _ | .binary .., .fail
  | .binary .., .entity _ | .binary .., .call .. | .binary .., .not _ =>
    isFalse (by simp)

def listDecEq : (as bs : List Constraint) → Decidable (as = bs)
  | [], [] => isTrue rfl
  | a :: as, b :: bs =>
    have := decEq a b
    have := listDecEq as bs
    decidable_of_iff (a = b ∧ as = bs) (by simp)
  | [], _ :: _ | _ :: _, [] => isFalse (by simp)

end

instance : DecidableEq Constraint := decEq

/-- The constraint of a claim without where-clause. -/
def trivial : Constraint :=
  bool true

def isFail : Constraint → Bool
  | fail => true
  | _ => false

/-- The text of a value, a string without its quotes. -/
def text? : Constraint → Option String
  | str s => some s
  | int n => some (Text.writeInt n.toInt)
  | bool true => some "true"
  | bool false => some "false"
  | entity (.const c) => some c.name
  | _ => none

/-- The text of an operator between the texts of its operands. The connectives come in
parentheses, the comparisons bare. -/
def renderBinary (l r : String) : Operator → String
  | .and => "(" ++ l ++ " and " ++ r ++ ")"
  | .or => "(" ++ l ++ " or " ++ r ++ ")"
  | .eq => l ++ " = " ++ r
  | .less => l ++ " < " ++ r
  | .lessEq => l ++ " <= " ++ r

mutual

def render : Constraint → String
  | str s => "\"" ++ s ++ "\""
  | int n => Text.writeInt n.toInt
  | bool true => "true"
  | bool false => "false"
  | fail => "fail"
  | entity e => e.render
  | call name args => name ++ "(" ++ ", ".intercalate (renderList args) ++ ")"
  | not c => "not " ++ c.render
  | binary op l r => renderBinary l.render r.render op

def renderList : List Constraint → List String
  | [] => []
  | c :: cs => c.render :: renderList cs

end

@[simp] theorem renderList_eq_map (cs : List Constraint) : renderList cs = cs.map render := by
  induction cs with
  | nil => rfl
  | cons c cs ih => rw [renderList, ih, List.map_cons]

mutual

def replace (f : Mention → Entity) : Constraint → Constraint
  | str s => str s
  | int n => int n
  | bool b => bool b
  | fail => fail
  | entity e => entity (e.replace f)
  | call name args => call name (replaceList f args)
  | not c => not (c.replace f)
  | binary op l r => binary op (l.replace f) (r.replace f)

def replaceList (f : Mention → Entity) : List Constraint → List Constraint
  | [] => []
  | c :: cs => c.replace f :: replaceList f cs

end

@[simp] theorem replaceList_eq_map (f : Mention → Entity) (cs : List Constraint) :
    replaceList f cs = cs.map (replace f) := by
  induction cs with
  | nil => rfl
  | cons c cs ih => rw [replaceList, ih, List.map_cons]

mutual

def stamp (s : Scope) : Constraint → Constraint
  | entity e => entity (e.stamp s)
  | call name args => call name (stampList s args)
  | not c => not (c.stamp s)
  | binary op l r => binary op (l.stamp s) (r.stamp s)
  | str text => str text
  | int n => int n
  | bool b => bool b
  | fail => fail

def stampList (s : Scope) : List Constraint → List Constraint
  | [] => []
  | c :: cs => c.stamp s :: stampList s cs

end

/-- The constraints that a constraint is built from. -/
def children : Constraint → List Constraint
  | str _ | int _ | bool _ | fail | entity _ => []
  | call _ args => args
  | not c => [c]
  | binary _ l r => [l, r]

theorem sizeOf_lt_of_mem_children {c d : Constraint} (h : d ∈ c.children) :
    sizeOf d < sizeOf c := by
  cases c with
  | call name args =>
    have hargs : sizeOf d < sizeOf args := List.sizeOf_lt_of_mem h
    rw [call.sizeOf_spec]
    omega
  | not c =>
    obtain rfl := List.mem_singleton.mp h
    rw [not.sizeOf_spec]
    omega
  | binary op l r =>
    rw [binary.sizeOf_spec]
    rcases List.mem_cons.mp h with rfl | h
    · omega
    · obtain rfl := List.mem_singleton.mp h
      omega
  | _ => cases h

/-- Put other constraints in place of the children. -/
def mapChildren : (c : Constraint) → (f : {d // d ∈ c.children} → Constraint) → Constraint
  | str s, _ => str s
  | int n, _ => int n
  | bool b, _ => bool b
  | fail, _ => fail
  | entity e, _ => entity e
  | call name args, f => call name (args.attach.map f)
  | not c, f => not (f ⟨c, List.mem_singleton_self c⟩)
  | binary op l r, f =>
    binary op (f ⟨l, List.mem_cons_self⟩)
      (f ⟨r, List.mem_cons_of_mem l (List.mem_singleton_self r)⟩)

def substitute (f : Variable → Option Entity) (c : Constraint) : Constraint :=
  match c with
  | entity e => entity (e.substitute f)
  | c => c.mapChildren fun d => d.1.substitute f
termination_by sizeOf c
decreasing_by exact sizeOf_lt_of_mem_children d.2

theorem stampList_eq_map (s : Scope) (cs : List Constraint) :
    stampList s cs = cs.map (stamp s) := by
  induction cs with
  | nil => rfl
  | cons c cs ih => rw [stampList, ih, List.map_cons]

theorem stamp_eq_replace (s : Scope) (c : Constraint) :
    c.stamp s = c.replace fun m => .var { m with var.scope := s } := by
  induction c with
  | entity e => rw [stamp, replace, Entity.stamp_eq_replace]
  | call name args ih =>
    rw [stamp, replace, stampList_eq_map, replaceList_eq_map, List.map_congr_left ih]
  | not c ih => rw [stamp, replace, ih]
  | binary op l r ihl ihr => rw [stamp, replace, ihl, ihr]
  | _ => rw [stamp, replace]

theorem substitute_call (f : Variable → Option Entity) (name : String) (args : List Constraint) :
    (call name args).substitute f = call name (args.map (substitute f)) := by
  simp only [substitute, mapChildren]
  exact congrArg (call name) List.attach_map_val

theorem substitute_eq_replace (f : Variable → Option Entity) (c : Constraint) :
    c.substitute f = c.replace fun m => (f m.var).getD (.var m) := by
  induction c with
  | entity e => rw [substitute, replace, Entity.substitute_eq_replace]
  | call name args ih =>
    rw [substitute_call, replace, replaceList_eq_map, List.map_congr_left ih]
  | not c ih => simp only [substitute, mapChildren, replace, ih]
  | binary op l r ihl ihr => simp only [substitute, mapChildren, replace, ihl, ihr]
  | _ => simp only [substitute, mapChildren, replace]

mutual

def entities : Constraint → List Entity
  | str _ | int _ | bool _ | fail => []
  | entity e => [e]
  | call _ args => entitiesList args
  | not c => c.entities
  | binary _ l r => l.entities ++ r.entities

def entitiesList : List Constraint → List Entity
  | [] => []
  | c :: cs => c.entities ++ entitiesList cs

end

@[simp] theorem entitiesList_eq_flatMap (cs : List Constraint) :
    entitiesList cs = cs.flatMap entities := by
  induction cs with
  | nil => rfl
  | cons c cs ih => rw [entitiesList, ih, List.flatMap_cons]

instance : Term Constraint where
  replace := replace
  stamp := stamp
  substitute := substitute
  entities := entities
  replace_var c := by
    induction c with
    | call name args ih =>
      rw [replace, replaceList_eq_map, List.map_congr_left ih, List.map_id']
    | _ => simp_all [replace]
  replace_replace f g c := by
    induction c with
    | call name args ih =>
      simp only [replace, replaceList_eq_map, List.map_map]
      exact congrArg _ (List.map_congr_left ih)
    | _ => simp_all [replace, Entity.replace_replace]
  entities_replace f c := by
    induction c with
    | call name args ih =>
      simp only [replace, replaceList_eq_map, entities, entitiesList_eq_flatMap, List.flatMap_map,
        List.map_flatMap]
      rw [List.flatMap_def, List.flatMap_def, List.map_congr_left ih]
    | _ => simp_all [replace, entities]
  stamp_eq_replace := stamp_eq_replace
  substitute_eq_replace := substitute_eq_replace

end Constraint

end AuthLogic
