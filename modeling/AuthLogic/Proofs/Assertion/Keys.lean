import AuthLogic.Proofs.Unification.Soundness

/-! # Keys of assertions

Assertions are found by keys: the predicates of their facts, who voices them and
what they are about. Matching respects all of them, so that no assertion that
would match is passed over. Substitutions keep the predicates and can only add
to the other keys, as variables become constants.
-/

namespace AuthLogic

open Matchable

namespace Catalogue

variable {α κ : Type} [Ord κ] [Std.TransOrd κ] [Std.LawfulEqOrd κ] {key : α → κ}

/-- Where no two entries have one key, taking the first of each key drops repetitions only. -/
theorem mem_ofFirst_iff (h : Function.Injective key) {l : List α} {e : α} :
    e ∈ (ofFirst l : Catalogue key).entries ↔ e ∈ l := by
  have hkey : (∃ c ∈ (ofFirst l : Catalogue key).entries, key c = key e) ↔
      ∃ c ∈ l, key c = key e := exists_mem_ofFirst_iff
  constructor
  · intro he
    obtain ⟨c, hc, hce⟩ := hkey.mp ⟨e, he, rfl⟩
    rwa [← h hce]
  · intro he
    obtain ⟨c, hc, hce⟩ := hkey.mpr ⟨e, he, rfl⟩
    rwa [← h hce]

end Catalogue

theorem Constant.name_injective : Function.Injective Constant.name := by
  rintro ⟨n⟩ ⟨m⟩ rfl
  rfl

theorem Entity.constant?_eq_some_iff {e : Entity} {c : Constant} :
    e.constant? = some c ↔ e = .const c := by
  cases e <;> simp [constant?]

theorem Entity.constant?_untyped (e : Entity) : (Term.untyped e).constant? = e.constant? := by
  cases e <;> rfl

/-! ## Keys of facts -/

namespace VerbPhrase

variable (σ : Mention → Entity) (v : VerbPhrase)

theorem predicate?_replace : (Term.replace σ v).predicate? = v.predicate? := by
  induction v with
  | canSay depth subject object speaker? ih => exact ih
  | _ => rfl

theorem predicate?_essence : (essence v).predicate? = v.predicate? := by
  induction v with
  | canSay depth subject object speaker? ih => exact ih
  | _ => rfl

theorem isCanActAs_replace : (Term.replace σ v).isCanActAs = v.isCanActAs := by
  cases v <;> rfl

theorem isCanActAs_essence : (essence v).isCanActAs = v.isCanActAs := by
  cases v <;> rfl

theorem isCanSay_replace : (Term.replace σ v).isCanSay = v.isCanSay := by
  cases v <;> rfl

theorem isCanSay_essence : (essence v).isCanSay = v.isCanSay := by
  cases v <;> rfl

end VerbPhrase

namespace Assertion

variable {a b : Assertion} {θ : Substitution}

theorem facts_replace (σ : Mention → Entity) (a : Assertion) :
    (Term.replace σ a).facts = a.facts.map (Term.replace σ) := rfl

theorem facts_essence (a : Assertion) : (essence a).facts = a.facts.map essence := rfl

/-! ## Keys of instances -/

theorem predicates_replace (σ : Mention → Entity) (a : Assertion) :
    (Term.replace σ a).predicates = a.predicates := by
  have h (f : Fact) : (Term.replace σ f).predicate? = f.predicate? := f.object.predicate?_replace σ
  simp only [predicates, facts_replace, List.filterMap_map, Function.comp_def, h]

theorem voiced_subset_apply (a : Assertion) (σ : Substitution) :
    a.voiced.entries ⊆ (σ.apply a).voiced.entries := by
  intro c hc
  simp only [voiced, Catalogue.mem_ofFirst_iff Constant.name_injective, Option.mem_toList,
    Entity.constant?_eq_some_iff] at hc ⊢
  change σ.apply a.speaker = _
  rw [hc]
  rfl

theorem subjects_subset_apply (a : Assertion) (σ : Substitution) :
    a.subjects.entries ⊆ (σ.apply a).subjects.entries := by
  intro c hc
  simp only [subjects, Catalogue.mem_ofFirst_iff Constant.name_injective, List.mem_filterMap,
    Entity.constant?_eq_some_iff] at hc ⊢
  obtain ⟨f, hf, hfc⟩ := hc
  refine ⟨σ.apply f, List.mem_cons.mpr ?_, ?_⟩
  · exact (List.mem_cons.mp hf).imp (congrArg σ.apply) List.mem_map_of_mem
  change σ.apply f.subject = _
  rw [hfc]
  rfl

/-! ## Keys of what matches -/

theorem predicates_essence (a : Assertion) : (essence a).predicates = a.predicates := by
  have h (f : Fact) : (essence f).predicate? = f.predicate? := f.object.predicate?_essence
  simp only [predicates, facts_essence, List.filterMap_map, Function.comp_def, h]

theorem isCanActAs_replace (σ : Mention → Entity) (a : Assertion) :
    (Term.replace σ a).isCanActAs = a.isCanActAs :=
  a.claim.consequent.object.isCanActAs_replace σ

theorem isCanSay_replace (σ : Mention → Entity) (a : Assertion) :
    (Term.replace σ a).isCanSay = a.isCanSay :=
  a.claim.consequent.object.isCanSay_replace σ

theorem voiced_untyped_essence (a : Assertion) :
    (Term.untyped (essence a)).voiced = a.voiced :=
  congrArg (fun c? : Option Constant => Catalogue.ofFirst c?.toList) a.speaker.constant?_untyped

theorem subjects_untyped_essence (a : Assertion) :
    (Term.untyped (essence a)).subjects = a.subjects := by
  have h (f : Fact) : (Term.replace _ (essence f)).subject.constant? = f.subject.constant? :=
    f.subject.constant?_untyped
  simp only [Term.untyped, subjects, facts_replace, facts_essence, List.filterMap_map,
    Function.comp_def, h]

/-- Matching looks at all that the keys are made of. -/
theorem keys_of_alike (h : Alike a b) :
    a.predicates = b.predicates ∧ a.isCanActAs = b.isCanActAs ∧ a.isCanSay = b.isCanSay ∧
      a.voiced = b.voiced ∧ a.subjects = b.subjects := by
  have h : Term.untyped (essence a) = Term.untyped (essence b) := h
  have hpredicates (c : Assertion) : (Term.untyped (essence c)).predicates = c.predicates :=
    (predicates_replace _ _).trans c.predicates_essence
  have hcanActAs (c : Assertion) : (Term.untyped (essence c)).isCanActAs = c.isCanActAs :=
    (isCanActAs_replace _ _).trans c.claim.consequent.object.isCanActAs_essence
  have hcanSay (c : Assertion) : (Term.untyped (essence c)).isCanSay = c.isCanSay :=
    (isCanSay_replace _ _).trans c.claim.consequent.object.isCanSay_essence
  refine ⟨?_, ?_, ?_, ?_, ?_⟩
  · rw [← hpredicates a, h, hpredicates]
  · rw [← hcanActAs a, h, hcanActAs]
  · rw [← hcanSay a, h, hcanSay]
  · rw [← voiced_untyped_essence a, h, voiced_untyped_essence]
  · rw [← subjects_untyped_essence a, h, subjects_untyped_essence]

/-- Assertions that match have the same keys: the predicates and the forms of their consequents
before anything is bound, and the speaker and the subjects under their unifier. No substitution
changes the predicates, and none takes a speaker or a subject away. -/
theorem keys_of_unify :
    (∀ (a b : Assertion) (θ : Substitution), Unifiable.unify a b = some θ →
      a.predicates = b.predicates ∧ a.isCanActAs = b.isCanActAs ∧ a.isCanSay = b.isCanSay ∧
      (θ.apply a).voiced = (θ.apply b).voiced ∧ (θ.apply a).subjects = (θ.apply b).subjects) ∧
    ∀ (a : Assertion) (σ : Substitution), (σ.apply a).predicates = a.predicates ∧
      a.voiced.entries ⊆ (σ.apply a).voiced.entries ∧
      a.subjects.entries ⊆ (σ.apply a).subjects.entries := by
  constructor
  · intro a b θ h
    have halike : Alike (θ.apply a) (θ.apply b) := alike_of_unify (k := .assertion) h
    obtain ⟨hpredicates, hcanActAs, hcanSay, hkeys⟩ := keys_of_alike halike
    simp only [Substitution.apply_eq_replace, predicates_replace, isCanActAs_replace,
      isCanSay_replace] at hpredicates hcanActAs hcanSay
    exact ⟨hpredicates, hcanActAs, hcanSay, hkeys⟩
  · intro a σ
    refine ⟨?_, voiced_subset_apply a σ, subjects_subset_apply a σ⟩
    rw [σ.apply_eq_replace, predicates_replace]

/-- `S says X can-say 0 Y reads if X is-a Manager.` and the same of constants. Neither the
speaker nor the subjects are found before the variables are bound. -/
theorem keys_of_unify_manager :
    let rule (x y : Entity) : Claim :=
      { consequent := ⟨x, .delegate (.bounded 0) ⟨y, .predicate "reads" [], none⟩, none⟩
        antecedents := [⟨x, .predicate "is-a" [.const ⟨"Manager"⟩], none⟩] }
    let v (name : String) : Entity := .var ⟨⟨name, .unscoped⟩, none⟩
    let c (name : String) : Entity := .const ⟨name⟩
    let a := Assertion.inScope ⟨1⟩ (v "S") (rule (v "X") (v "Y"))
    let b := Assertion.inScope ⟨2⟩ (c "Alice") (rule (c "Bob") (c "Carol"))
    ∃ θ : Substitution, Unifiable.unify a b = some θ ∧
      (a.predicates = b.predicates ∧ a.isCanActAs = b.isCanActAs ∧ a.isCanSay = b.isCanSay ∧
        (θ.apply a).voiced = (θ.apply b).voiced ∧ (θ.apply a).subjects = (θ.apply b).subjects) ∧
      a.isCanSay = true ∧ a.predicates.entries = ["is-a", "reads"] ∧ a.subjects.entries = [] ∧
      (θ.apply a).subjects.entries = [⟨"Bob"⟩] ∧ (θ.apply a).voiced.entries = [⟨"Alice"⟩] := by
  intro rule v c a b
  have hsome : (Unifiable.unify a b).isSome := by decide +kernel
  obtain ⟨θ, hθ⟩ := Option.isSome_iff_exists.mp hsome
  have hvalue : θ = (Unifiable.unify a b).getD default := by rw [hθ]; rfl
  refine ⟨θ, hθ, keys_of_unify.1 a b θ hθ, ?_⟩
  subst hvalue
  decide +kernel

end Assertion

end AuthLogic
