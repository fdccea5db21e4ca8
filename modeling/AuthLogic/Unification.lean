import AuthLogic.Claim
import AuthLogic.Substitution

/-! # Unification

Two terms are unified by matching their parts from left to right: each part is
matched under the bindings found before it, and its bindings are joined to them.
Of two variables the greater is bound to the lesser one, so that the result does
not depend on which side a variable is on. Constraints, the speakers recorded on
facts and written types are left aside.
-/

namespace AuthLogic

/-- The bindings that unify two terms, or nothing if they do not unify. -/
abbrev Unification := Option Substitution

namespace Unification

def empty : Unification :=
  some .empty

def bind (m : Mention) (term : Entity) : Unification :=
  some (.singleton m term)

/-- The bindings of both, if both succeed and agree. -/
def compose (u w : Unification) : Unification :=
  Option.bind u fun θ => Option.bind w θ.merge?

/-- Match the next part under the bindings found so far. -/
def andThen (u : Unification) (next : Substitution → Unification) : Unification :=
  Option.bind u fun θ => Option.bind (next θ) θ.merge?

/-- Equal up to the types that variables are written with. -/
def Same : Unification → Unification → Prop
  | some θ, some η => θ.Same η
  | none, none => True
  | _, _ => False

instance : (u w : Unification) → Decidable (Same u w)
  | some θ, some η => inferInstanceAs (Decidable (θ.Same η))
  | none, none => isTrue .intro
  | some _, none => isFalse id
  | none, some _ => isFalse id

theorem andThen_eq_compose (u : Unification) (next : Substitution → Unification) :
    u.andThen next = Option.bind u fun θ => compose (some θ) (next θ) := rfl

end Unification

class Unifiable (τ : Type) extends Term τ where
  unify : τ → τ → Unification

section Sequence

variable {τ : Type} [Unifiable τ]

/-- Go on matching under the bindings found so far. -/
def unifyRest (u : Unification) : List τ → List τ → Unification
  | a :: as, b :: bs =>
    unifyRest (u.andThen fun θ => Unifiable.unify (θ.apply a) (θ.apply b)) as bs
  | _, _ => u

/-- Match two lists of the same length element by element. -/
def unifyList (as bs : List τ) : Unification :=
  if as.length = bs.length then unifyRest Unification.empty as bs else none

instance : Unifiable (List τ) where
  unify := unifyList

end Sequence

namespace Entity

def unify : Entity → Entity → Unification
  | const a, const b => if a = b then Unification.empty else none
  | var a, var b =>
    match compare a.var b.var with
    | .eq => Unification.empty
    | .gt => Unification.bind a (.var b)
    | .lt => Unification.bind b (.var a)
  | var a, const b => Unification.bind a (.const b)
  | const a, var b => Unification.bind b (.const a)

instance : Unifiable Entity where
  unify := unify

end Entity

namespace VerbPhrase

/-- Unification of what two verb phrases become when every mention is replaced. -/
def unifyUnder (σ : Mention → Entity) : VerbPhrase → VerbPhrase → Unification
  | predicate n as, predicate m bs =>
    if n = m then
      unifyList (as.map (Entity.replace σ)) (bs.map (Entity.replace σ))
    else none
  | canActAs r, canActAs s => if r = s then Unification.empty else none
  | canSay d subject object _, canSay e subject₂ object₂ _ =>
    if d = e then
      ((subject.replace σ).unify (subject₂.replace σ)).andThen fun θ =>
        unifyUnder (fun m => (σ m).replace θ.resolve) object object₂
    else none
  | _, _ => none

def unify : VerbPhrase → VerbPhrase → Unification :=
  unifyUnder .var

instance : Unifiable VerbPhrase where
  unify := unify

theorem unifyUnder_eq (σ : Mention → Entity) (v w : VerbPhrase) :
    unifyUnder σ v w = unify (Term.replace σ v) (Term.replace σ w) := by
  suffices ∀ ρ : Mention → Entity,
      unifyUnder (fun m => (σ m).replace ρ) v w =
        unifyUnder ρ (Term.replace σ v) (Term.replace σ w) by
    have h := this .var
    simp only [Entity.replace_var] at h
    exact h
  induction v generalizing σ w with
  | predicate n as =>
    intro ρ
    cases w <;>
      simp [Term.replace, replace, unifyUnder, Entity.replace_replace, Function.comp_def]
  | canActAs r => intro ρ; cases w <;> simp [Term.replace, replace, unifyUnder]
  | canSay d subject object speaker? ih =>
    intro ρ
    cases w with
    | canSay e subject₂ object₂ _ =>
      simp only [Term.replace, replace, unifyUnder, Entity.replace_replace] at ih ⊢
      split
      · congr 1
        funext θ
        exact ih σ object₂ _
      · rfl
    | _ => simp [Term.replace, replace, unifyUnder]

end VerbPhrase

namespace Fact

def unify (f g : Fact) : Unification :=
  (f.subject.unify g.subject).andThen fun θ => (θ.apply f.object).unify (θ.apply g.object)

instance : Unifiable Fact where
  unify := unify

end Fact

namespace VerbPhrase

theorem unify_predicate (n m : String) (as bs : List Entity) :
    unify (predicate n as) (predicate m bs) = if n = m then unifyList as bs else none := by
  have h (l : List Entity) : l.map (Entity.replace .var) = l := Term.replace_var l
  simp only [unify, unifyUnder, h]

/-- Delegations unify when their depths agree and the delegated facts unify. -/
theorem unify_delegate (d e : Depth) (f g : Fact) :
    unify (delegate d f) (delegate e g) = if d = e then f.unify g else none := by
  simp only [unify, delegate, unifyUnder, Fact.unify, Entity.replace_var]
  split
  · congr 1
    funext θ
    rw [θ.apply_eq_replace, θ.apply_eq_replace]
    exact unifyUnder_eq θ.resolve f.object g.object
  · rfl

end VerbPhrase

namespace Claim

def unify (c d : Claim) : Unification :=
  (c.consequent.unify d.consequent).andThen fun θ =>
    unifyList (θ.apply c.antecedents) (θ.apply d.antecedents)

instance : Unifiable Claim where
  unify := unify

end Claim

end AuthLogic
