import AuthLogic.Catalogue
import AuthLogic.Entity

/-! # Terms

What entities, verb phrases, facts, claims, assertions and constraints have in
common: they are built around entities, and their mentions of variables can be
replaced. Stamping a scope and substituting entities for variables go through the
terms of each kind in a way of their own, and are replacements all the same.
-/

namespace AuthLogic

class Term (τ : Type) where

  /-- Put an entity in place of every mention. -/
  replace : (Mention → Entity) → τ → τ

  /-- Place every variable in a scope. -/
  stamp : Scope → τ → τ

  /-- Put in place of every variable what it is bound to. -/
  substitute : (Variable → Option Entity) → τ → τ

  /-- The entities a term speaks of, in reading order. -/
  entities : τ → List Entity

  replace_var : ∀ t : τ, replace Entity.var t = t

  replace_replace : ∀ (f g : Mention → Entity) (t : τ),
    replace g (replace f t) = replace (fun m => (f m).replace g) t

  entities_replace : ∀ (f : Mention → Entity) (t : τ),
    entities (replace f t) = (entities t).map (Entity.replace f)

  stamp_eq_replace : ∀ (s : Scope) (t : τ),
    stamp s t = replace (fun m => .var { m with var.scope := s }) t

  substitute_eq_replace : ∀ (f : Variable → Option Entity) (t : τ),
    substitute f t = replace (fun m => (f m.var).getD (.var m)) t

instance : Term Entity where
  replace := Entity.replace
  stamp := Entity.stamp
  substitute := Entity.substitute
  entities e := [e]
  replace_var := Entity.replace_var
  replace_replace := Entity.replace_replace
  entities_replace _ _ := rfl
  stamp_eq_replace := Entity.stamp_eq_replace
  substitute_eq_replace := Entity.substitute_eq_replace

/-- A list of terms is a term. -/
instance {τ : Type} [Term τ] : Term (List τ) where
  replace f := List.map (Term.replace f)
  stamp s := List.map (Term.stamp s)
  substitute f := List.map (Term.substitute f)
  entities := List.flatMap Term.entities
  replace_var l := by
    induction l with
    | nil => rfl
    | cons t ts ih => rw [List.map_cons, Term.replace_var, ih]
  replace_replace f g l := by
    induction l with
    | nil => rfl
    | cons t ts ih => rw [List.map_cons, List.map_cons, Term.replace_replace, ih, List.map_cons]
  entities_replace f l := by
    induction l with
    | nil => rfl
    | cons t ts ih =>
      rw [List.map_cons, List.flatMap_cons, List.flatMap_cons, List.map_append,
        Term.entities_replace, ih]
  stamp_eq_replace s l := List.map_congr_left fun t _ => Term.stamp_eq_replace s t
  substitute_eq_replace f l := List.map_congr_left fun t _ => Term.substitute_eq_replace f t

namespace Term

variable {τ : Type} [Term τ]

/-- The term without the types that its variables are written with. -/
def untyped : τ → τ :=
  replace fun m => .var { m with type? := none }

/-- Equal up to the types that variables are written with. -/
def Same (a b : τ) : Prop :=
  untyped a = untyped b

instance [DecidableEq τ] (a b : τ) : Decidable (Same a b) :=
  inferInstanceAs (Decidable (untyped a = untyped b))

/-- The mentions of variables, in reading order. -/
def mentions (t : τ) : List Mention :=
  (entities t).filterMap Entity.mention?

/-- The occurrences of constants, in reading order. -/
def constOccurrences (t : τ) : List Constant :=
  (entities t).filterMap Entity.constant?

/-- The distinct variables, each as it is mentioned first. -/
def vars (t : τ) : Catalogue Mention.var :=
  .ofFirst (mentions t)

/-- The distinct constants. -/
def consts (t : τ) : Catalogue Constant.name :=
  .ofFirst (constOccurrences t)

def isGround (t : τ) : Bool :=
  (mentions t).isEmpty

end Term

end AuthLogic
