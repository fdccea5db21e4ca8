import AuthLogic.Proofs.Assertion.Construction
import AuthLogic.Proofs.Unification.MostGeneral

/-! # Unifiers make terms alike

Applying the unifier of two terms of one kind makes them alike. Matching does not
look at the speakers recorded on antecedents, but constructed assertions have the
same speaker on all of them, and so those agree as well.
-/

namespace AuthLogic

open Matchable

theorem alike_of_unify {k : Kind} {a b : k.Carrier} {θ : Substitution}
    (h : Unifiable.unify a b = some θ) : Alike (θ.apply a) (θ.apply b) := by
  have hsolves := k.unifies a b (fun _ => True) (fun _ _ => trivial) (fun _ _ => trivial)
  rw [h] at hsolves
  cases hsolves with
  | unifier hd _ hs =>
    have hagree : Agree a b θ.assignment := (hs _).mp hd.solvedBy_assignment
    simp only [Agree, Substitution.assignment_apply, Term.untyped, essence_replace] at hagree
    exact hagree

namespace Assertion

variable {a b : Assertion}

/-- The speakers recorded on the antecedents, without their types. -/
def recordedSpeakers (a : Assertion) : List (Option Entity) :=
  a.claim.antecedents.map fun f => f.speaker?.map Term.untyped

theorem Constructed.recordedSpeakers_apply (h : Constructed a) (θ : Substitution) :
    (θ.apply a).recordedSpeakers = List.replicate (θ.apply a).claim.antecedents.length
      (some (Term.untyped (θ.apply a).speaker)) := by
  rw [recordedSpeakers, List.eq_replicate_iff]
  refine ⟨List.length_map _, fun s hs => ?_⟩
  obtain ⟨f, hf, rfl⟩ := List.mem_map.mp hs
  obtain ⟨g, hg, rfl⟩ := List.mem_map.mp hf
  have hspeaker : (θ.apply g).speaker? = g.speaker?.map θ.apply := rfl
  change Option.map Term.untyped (θ.apply g).speaker? = _
  rw [hspeaker, h.speaker?_of_mem hg]
  rfl

theorem recordedSpeakers_eq_of_alike {θ : Substitution} (ha : Constructed a) (hb : Constructed b)
    (h : Alike (θ.apply a) (θ.apply b)) :
    (θ.apply a).recordedSpeakers = (θ.apply b).recordedSpeakers := by
  have hspeaker : Term.untyped (θ.apply a).speaker = Term.untyped (θ.apply b).speaker :=
    congrArg Assertion.speaker h
  have hlength (c : Assertion) : (Term.untyped (essence c)).claim.antecedents.length =
      c.claim.antecedents.length := by
    change (List.map _ (List.map _ c.claim.antecedents)).length = _
    rw [List.length_map, List.length_map]
  have hlengths : (θ.apply a).claim.antecedents.length = (θ.apply b).claim.antecedents.length := by
    rw [← hlength (θ.apply a), ← hlength (θ.apply b)]
    exact congrArg (fun c : Assertion => c.claim.antecedents.length) h
  rw [ha.recordedSpeakers_apply, hb.recordedSpeakers_apply, hspeaker, hlengths]

end Assertion

open Assertion (Constructed)

/-- Unification is sound at every level. -/
theorem unify_sound :
    (∀ (k : Kind) (a b : k.Carrier) (θ : Substitution), Unifiable.unify a b = some θ →
      Alike (θ.apply a) (θ.apply b)) ∧
    ∀ (a b : Assertion) (θ : Substitution), Constructed a → Constructed b →
      Unifiable.unify a b = some θ →
      (θ.apply a).recordedSpeakers = (θ.apply b).recordedSpeakers := by
  refine ⟨fun k a b θ h => alike_of_unify h, fun a b θ ha hb h => ?_⟩
  exact Assertion.recordedSpeakers_eq_of_alike ha hb (alike_of_unify (k := .assertion) h)

/-- `S says S is-a Manager if S is-a Employee.` and the same of `Alice`. -/
theorem unify_sound_speaker :
    let isA (e : Entity) (c : String) : Fact := ⟨e, .predicate "is-a" [.const ⟨c⟩], none⟩
    let rule (e : Entity) : Claim := ⟨isA e "Manager", [isA e "Employee"], .trivial⟩
    let s : Entity := .var ⟨⟨"S", .unscoped⟩, none⟩
    let alice : Entity := .const ⟨"Alice"⟩
    let a := Assertion.inScope ⟨1⟩ s (rule s)
    let b := Assertion.inScope ⟨2⟩ alice (rule alice)
    let θ := Substitution.singleton ⟨⟨"S", ⟨1⟩⟩, none⟩ alice
    Unifiable.unify a b = some θ ∧ Alike (θ.apply a) (θ.apply b) ∧
      (θ.apply a).recordedSpeakers = (θ.apply b).recordedSpeakers := by
  intro isA rule s alice a b θ
  have h : Unifiable.unify a b = some θ := by decide +kernel
  exact ⟨h, unify_sound.1 .assertion a b θ h,
    unify_sound.2 a b θ (.inScope _ _ _) (.inScope _ _ _) h⟩

end AuthLogic
