import AuthLogic.Scope

/-! # Entities

What facts are about: constants, which stand for themselves, and variables,
which unification binds. A variable may be written with a type. The type belongs
to the place where it is written, called a mention here: `X:Role` and `X` are
two mentions of one variable.
-/

namespace AuthLogic

/-- Whether a name is read as a variable: capitals, digits and underscores, a capital first. -/
def isVariableName (name : String) : Bool :=
  match name.toList with
  | [] => false
  | c :: cs => c.isUpper && cs.all fun d => d.isUpper || d.isDigit || d = '_'

structure Constant where
  name : String
  deriving DecidableEq, Repr, Inhabited

namespace Constant

/-- Whether the bare name is read back as this constant. -/
def isBare (c : Constant) : Bool :=
  match c.name.toList with
  | [] => false
  | d :: ds => d.isUpper && ds.all (fun e => e.isAlphanum || e = '_') && !isVariableName c.name

def render (c : Constant) : String :=
  if c.isBare then c.name else "\"" ++ c.name ++ "\""

end Constant

structure Variable where
  name : String
  scope : Scope := Scope.unscoped
  deriving DecidableEq, Repr, Inhabited

namespace Variable

instance : Ord Variable := ⟨compareLex (compareOn scope) (compareOn name)⟩

instance : Std.TransOrd Variable :=
  inferInstanceAs (Std.TransCmp (compareLex (compareOn scope) (compareOn name)))

instance : Std.LawfulEqOrd Variable where
  eq_of_compare {a b} h := by
    have h : (compare a.scope b.scope).then (compare a.name b.name) = .eq := h
    rw [Ordering.then_eq_eq] at h
    have hs := Std.LawfulEqOrd.eq_of_compare h.1
    have hn := Std.LawfulEqOrd.eq_of_compare h.2
    cases a; cases b; simp_all

end Variable

/-- A variable as written at one place. -/
structure Mention where
  var : Variable
  type? : Option String := none
  deriving DecidableEq, Repr, Inhabited

namespace Mention

/-- The text of the fact that a written type obliges the speaker to prove, such as `X is-a Role`. -/
def obligation? (m : Mention) : Option String :=
  m.type?.map fun type => m.var.name ++ " is-a " ++ (Constant.mk type).render

end Mention

inductive Entity
  | const (c : Constant)
  | var (m : Mention)
  deriving DecidableEq, Repr, Inhabited

namespace Entity

def constant? : Entity → Option Constant
  | const c => some c
  | var _ => none

def mention? : Entity → Option Mention
  | const _ => none
  | var m => some m

/-- Put an entity in place of every mention. -/
def replace (f : Mention → Entity) : Entity → Entity
  | const c => const c
  | var m => f m

@[simp] theorem replace_var (e : Entity) : e.replace var = e := by
  cases e <;> rfl

theorem replace_replace (f g : Mention → Entity) (e : Entity) :
    (e.replace f).replace g = e.replace fun m => (f m).replace g := by
  cases e <;> rfl

/-- Place the variable in a scope. -/
def stamp (s : Scope) : Entity → Entity
  | const c => const c
  | var m => var { m with var.scope := s }

/-- Put in place of the variable what it is bound to. -/
def substitute (f : Variable → Option Entity) : Entity → Entity
  | const c => const c
  | var m => (f m.var).getD (var m)

theorem stamp_eq_replace (s : Scope) (e : Entity) :
    e.stamp s = e.replace fun m => var { m with var.scope := s } := by
  cases e <;> rfl

theorem substitute_eq_replace (f : Variable → Option Entity) (e : Entity) :
    e.substitute f = e.replace fun m => (f m.var).getD (var m) := by
  cases e <;> rfl

def render : Entity → String
  | const c => c.render
  | var m => m.var.name

/-- Constants come before variables. -/
instance : Ord Entity where
  compare
    | const a, const b => compare a.name b.name
    | const _, var _ => .lt
    | var _, const _ => .gt
    | var a, var b => compare a.var b.var

end Entity

end AuthLogic
