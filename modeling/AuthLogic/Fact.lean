import AuthLogic.Term

/-! # Facts

A fact says something of a subject: a predicate with arguments, the role that
the subject can act as, or a delegation, which trusts the subject to state a
further fact. Facts other than delegations are called flat.
-/

namespace AuthLogic

/-- How many further hops a delegation may be passed on. -/
inductive Depth
  | bounded (hops : UInt32)
  | unbounded
  deriving DecidableEq, Repr, Inhabited

def Depth.render : Depth → String
  | bounded n => n.toNat.repr
  | unbounded => "inf"

/-- What is said about a subject. A delegation carries the parts of the delegated fact. -/
inductive VerbPhrase
  | predicate (name : String) (args : List Entity)
  | canActAs (role : Constant)
  | canSay (depth : Depth) (subject : Entity) (object : VerbPhrase) (speaker? : Option Entity)
  deriving DecidableEq, Repr, Inhabited

/-- The speaker is that of the assertion which has the fact as an antecedent. It belongs to the
bookkeeping: it is replaced along with the fact, but the fact does not speak of it. -/
structure Fact where
  subject : Entity
  object : VerbPhrase
  speaker? : Option Entity := none
  deriving DecidableEq, Repr, Inhabited

namespace VerbPhrase

/-- The delegation of a fact. -/
def delegate (depth : Depth) (fact : Fact) : VerbPhrase :=
  canSay depth fact.subject fact.object fact.speaker?

def isCanActAs : VerbPhrase → Bool
  | canActAs _ => true
  | _ => false

def isCanSay : VerbPhrase → Bool
  | canSay .. => true
  | _ => false

def isFlat (v : VerbPhrase) : Bool :=
  !v.isCanSay

/-- The name of the predicate, of the delegated fact in a delegation. -/
def predicate? : VerbPhrase → Option String
  | predicate name _ => some name
  | canActAs _ => none
  | canSay _ _ object _ => object.predicate?

def render : VerbPhrase → String
  | predicate name args => name ++ String.join (args.map fun arg => " " ++ arg.render)
  | canActAs role => "can-act-as " ++ role.render
  | canSay depth subject object _ =>
    "can-say " ++ depth.render ++ " " ++ subject.render ++ " " ++ object.render

def replace (f : Mention → Entity) : VerbPhrase → VerbPhrase
  | predicate name args => predicate name (args.map (Entity.replace f))
  | canActAs role => canActAs role
  | canSay depth subject object speaker? =>
    canSay depth (subject.replace f) (object.replace f) (speaker?.map (Entity.replace f))

def stamp (s : Scope) : VerbPhrase → VerbPhrase
  | predicate name args => predicate name (args.map (Entity.stamp s))
  | canActAs role => canActAs role
  | canSay depth subject object speaker? =>
    canSay depth (subject.stamp s) (object.stamp s) (speaker?.map (Entity.stamp s))

def substitute (f : Variable → Option Entity) : VerbPhrase → VerbPhrase
  | predicate name args => predicate name (args.map (Entity.substitute f))
  | canActAs role => canActAs role
  | canSay depth subject object speaker? =>
    canSay depth (subject.substitute f) (object.substitute f)
      (speaker?.map (Entity.substitute f))

def entities : VerbPhrase → List Entity
  | predicate _ args => args
  | canActAs role => [.const role]
  | canSay _ subject object _ => subject :: object.entities

instance : Term VerbPhrase where
  replace := replace
  stamp := stamp
  substitute := substitute
  entities := entities
  replace_var v := by
    induction v with
    | predicate name args => exact congrArg _ (Term.replace_var args)
    | canActAs role => rfl
    | canSay depth subject object speaker? ih => cases speaker? <;> simp [replace, ih]
  replace_replace f g v := by
    induction v with
    | predicate name args => simp [replace, Entity.replace_replace, Function.comp_def]
    | canActAs role => rfl
    | canSay depth subject object speaker? ih =>
      cases speaker? <;> simp [replace, ih, Entity.replace_replace]
  entities_replace f v := by
    induction v with
    | predicate name args => rfl
    | canActAs role => rfl
    | canSay depth subject object speaker? ih => simp [replace, entities, ih]
  stamp_eq_replace s v := by
    induction v with
    | predicate name args => exact congrArg _ (Term.stamp_eq_replace s args)
    | canActAs role => rfl
    | canSay depth subject object speaker? ih =>
      simp only [stamp, replace, ih, Entity.stamp_eq_replace, funext (Entity.stamp_eq_replace s)]
  substitute_eq_replace f v := by
    induction v with
    | predicate name args => exact congrArg _ (Term.substitute_eq_replace f args)
    | canActAs role => rfl
    | canSay depth subject object speaker? ih =>
      simp only [substitute, replace, ih, Entity.substitute_eq_replace,
        funext (Entity.substitute_eq_replace f)]

end VerbPhrase

namespace Fact

def isFlat (f : Fact) : Bool :=
  f.object.isFlat

def isCanActAs (f : Fact) : Bool :=
  f.object.isCanActAs

def isCanSay (f : Fact) : Bool :=
  f.object.isCanSay

def predicate? (f : Fact) : Option String :=
  f.object.predicate?

def render (f : Fact) : String :=
  f.subject.render ++ " " ++ f.object.render

def replace (σ : Mention → Entity) (f : Fact) : Fact where
  subject := f.subject.replace σ
  object := f.object.replace σ
  speaker? := f.speaker?.map (Entity.replace σ)

def stamp (s : Scope) (f : Fact) : Fact :=
  { f with
    subject := f.subject.stamp s
    object := f.object.stamp s
    speaker? := f.speaker?.map (Entity.stamp s) }

def substitute (g : Variable → Option Entity) (f : Fact) : Fact where
  subject := f.subject.substitute g
  object := f.object.substitute g
  speaker? := f.speaker?.map (Entity.substitute g)

instance : Term Fact where
  replace := replace
  stamp := stamp
  substitute := substitute
  entities f := f.subject :: f.object.entities
  replace_var f := by
    have h := Term.replace_var f.object
    obtain ⟨subject, object, speaker?⟩ := f
    cases speaker? <;> simp_all [replace, Term.replace]
  replace_replace σ τ f := by
    have h := Term.replace_replace σ τ f.object
    obtain ⟨subject, object, speaker?⟩ := f
    cases speaker? <;> simp_all [replace, Term.replace, Entity.replace_replace]
  entities_replace σ f := by
    rw [List.map_cons]
    exact congrArg _ (Term.entities_replace σ f.object)
  stamp_eq_replace s f := by
    have hobject : f.object.stamp s = f.object.replace _ := Term.stamp_eq_replace s f.object
    rw [stamp, replace, hobject, Entity.stamp_eq_replace, funext (Entity.stamp_eq_replace s)]
  substitute_eq_replace g f := by
    have hobject : f.object.substitute g = f.object.replace _ :=
      Term.substitute_eq_replace g f.object
    rw [substitute, replace, hobject, Entity.substitute_eq_replace,
      funext (Entity.substitute_eq_replace g)]

end Fact

end AuthLogic
