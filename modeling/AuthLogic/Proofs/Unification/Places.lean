import AuthLogic.Proofs.Unification.Matching

/-! # Places

Terms that can be made to agree have the same shape, and then their entities stand
at the same places. An assignment that makes the entities agree place by place
makes the terms agree.
-/

namespace AuthLogic

open Matchable

namespace Matchable

variable {τ : Type} [Matchable τ] {a b : τ} {σ σ₀ : Assignment}

/-- The entities at the same places of two terms, of which matching looks at all. -/
def places (a b : τ) : List (Entity × Entity) :=
  (Term.entities (essence a)).zip (Term.entities (essence b))

/-- The entities at the same places are made equal. -/
def AgreeAt (ps : List (Entity × Entity)) (σ : Assignment) : Prop :=
  ∀ p ∈ ps, σ.apply p.1 = σ.apply p.2

theorem agreeAt_zip {es ds : List Entity} (h : es.map σ.apply = ds.map σ.apply) :
    AgreeAt (es.zip ds) σ := by
  induction es generalizing ds with
  | nil => exact List.forall_mem_nil _
  | cons e es ih =>
    cases ds with
    | nil => cases h
    | cons d ds =>
      obtain ⟨hed, h⟩ := List.cons.inj h
      exact List.forall_mem_cons.mpr ⟨hed, ih h⟩

theorem Agree.map_entities (h : Agree a b σ) :
    (Term.entities (essence a)).map σ.apply = (Term.entities (essence b)).map σ.apply := by
  have h := congrArg Term.entities h
  simp only [Assignment.apply, essence_replace, Term.entities_replace] at h
  exact h

/-- Terms that agree, agree at all places. -/
theorem Agree.agreeAt (h : Agree a b σ) : AgreeAt (places a b) σ :=
  agreeAt_zip h.map_entities

/-- The places of a first part, and further ones. -/
theorem Agree.agreeAt_append (h : Agree a b σ₀) {es ds : List Entity} :
    AgreeAt ((Term.entities (essence a) ++ es).zip (Term.entities (essence b) ++ ds)) σ ↔
      AgreeAt (places a b) σ ∧ AgreeAt (es.zip ds) σ := by
  have hlen := congrArg List.length h.map_entities
  rw [List.length_map, List.length_map] at hlen
  rw [List.zip_append hlen]
  exact List.forall_mem_append

/-- Once terms agree under some assignment, agreement is settled place by place. -/
def Placewise (a b : τ) : Prop :=
  ∀ σ₀ σ, Agree a b σ₀ → AgreeAt (places a b) σ → Agree a b σ

end Matchable

/-! ## Entities and lists -/

theorem Entity.placewise (a b : Entity) : Placewise a b :=
  fun _ _ _ h => h (a, b) List.mem_cons_self

section Sequence

variable {τ : Type} [Matchable τ]

theorem placewise_list (hp : ∀ a b : τ, Placewise a b) (as bs : List τ) : Placewise as bs := by
  intro σ₀ σ h₀ h
  induction as generalizing bs with
  | nil =>
    cases bs with
    | nil => rfl
    | cons b bs => cases h₀
  | cons a as ih =>
    cases bs with
    | nil => cases h₀
    | cons b bs =>
      obtain ⟨hab, htail⟩ := agree_cons_iff.mp h₀
      obtain ⟨h, hs⟩ := hab.agreeAt_append.mp h
      exact agree_cons_iff.mpr ⟨hp a b σ₀ σ hab h, ih bs htail hs⟩

end Sequence

/-! ## Verb phrases and facts -/

theorem VerbPhrase.placewise (v w : VerbPhrase) : Placewise v w := by
  intro σ₀ σ h₀ h
  induction v generalizing w with
  | predicate n as =>
    cases w with
    | predicate m bs =>
      obtain ⟨hname, h₀⟩ := agree_predicate_iff.mp h₀
      refine agree_predicate_iff.mpr ⟨hname, placewise_list Entity.placewise as bs σ₀ σ h₀ ?_⟩
      have hentities (l : List Entity) : Term.entities (Matchable.essence l) = l := by
        change List.flatMap (fun e => [e]) (List.map id l) = l
        rw [List.map_id, List.flatMap_singleton']
      rw [places, hentities, hentities]
      exact h
    | _ => cases h₀
  | canActAs r =>
    cases w with
    | canActAs s => exact h₀
    | _ => cases h₀
  | canSay d subject object speaker? ih =>
    cases w with
    | canSay e subject₂ object₂ speaker₂? =>
      have hdelegate {σ : Assignment} := agree_delegate_iff (σ := σ) (d := d) (e := e)
        (f := ⟨subject, object, speaker?⟩) (g := ⟨subject₂, object₂, speaker₂?⟩)
      obtain ⟨hdepth, h₀⟩ := hdelegate.mp h₀
      obtain ⟨hs₀, ho₀⟩ := Fact.agree_iff.mp h₀
      obtain ⟨hs, ho⟩ := List.forall_mem_cons.mp h
      exact hdelegate.mpr ⟨hdepth, Fact.agree_iff.mpr ⟨hs, ih object₂ ho₀ ho⟩⟩
    | _ => cases h₀

theorem Fact.placewise (f g : Fact) : Placewise f g := by
  intro σ₀ σ h₀ h
  obtain ⟨-, ho₀⟩ := Fact.agree_iff.mp h₀
  obtain ⟨hs, ho⟩ := List.forall_mem_cons.mp h
  exact Fact.agree_iff.mpr ⟨hs, VerbPhrase.placewise f.object g.object σ₀ σ ho₀ ho⟩

/-! ## Claims and assertions -/

theorem Claim.placewise (c d : Claim) : Placewise c d := by
  intro σ₀ σ h₀ h
  obtain ⟨hc₀, ha₀⟩ := Claim.agree_iff.mp h₀
  have hentities (c : Claim) : Term.entities (essence c) =
      Term.entities (essence c.consequent) ++ Term.entities (essence c.antecedents) :=
    List.append_nil _
  rw [places, hentities, hentities, hc₀.agreeAt_append] at h
  exact Claim.agree_iff.mpr ⟨Fact.placewise _ _ σ₀ σ hc₀ h.1,
    placewise_list Fact.placewise _ _ σ₀ σ ha₀ h.2⟩

theorem Assertion.placewise (a b : Assertion) : Placewise a b := by
  intro σ₀ σ h₀ h
  obtain ⟨hs₀, hc₀⟩ := Assertion.agree_iff.mp h₀
  obtain ⟨hs, hc⟩ := hs₀.agreeAt_append.mp h
  exact Assertion.agree_iff.mpr ⟨Entity.placewise _ _ σ₀ σ hs₀ hs,
    Claim.placewise _ _ σ₀ σ hc₀ hc⟩

theorem Kind.placewise (k : Kind) (a b : k.Carrier) : Placewise a b := by
  induction k with
  | entity => exact Entity.placewise a b
  | verbPhrase => exact VerbPhrase.placewise a b
  | fact => exact Fact.placewise a b
  | claim => exact Claim.placewise a b
  | assertion => exact Assertion.placewise a b
  | list k ih => exact placewise_list ih a b

end AuthLogic
