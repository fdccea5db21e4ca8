import AuthLogic.Assertion
import AuthLogic.Proofs.Term.Bare
import AuthLogic.Proofs.Term.Ground

/-! # Occurrences

Where entities stand in an assertion: in what it speaks of, and in the speakers
that are recorded on its facts, at any depth. Placing a term in a scope reaches
all of them, and replacing mentions reaches nothing else.
-/

namespace AuthLogic

/-- Every variable among some entities is in a scope. -/
def Scoped (s : Scope) (es : List Entity) : Prop :=
  ∀ m, Entity.var m ∈ es → m.var.scope = s

section Scoped

variable {s : Scope} {es ds : List Entity}

theorem scoped_append_iff : Scoped s (es ++ ds) ↔ Scoped s es ∧ Scoped s ds := by
  simp only [Scoped, List.mem_append]
  constructor
  · exact fun h => ⟨fun m hm => h m (.inl hm), fun m hm => h m (.inr hm)⟩
  · rintro ⟨he, hd⟩ m (hm | hm)
    · exact he m hm
    · exact hd m hm

theorem scoped_map_stamp (s : Scope) (es : List Entity) : Scoped s (es.map (Term.stamp s)) := by
  intro m hm
  obtain ⟨e, -, he⟩ := List.mem_map.mp hm
  cases e with
  | const c => cases he
  | var n =>
    cases he
    rfl

theorem Term.scoped_stamp {τ : Type} [Term τ] (s : Scope) (t : τ) :
    Scoped s (Term.entities (Term.stamp s t)) := by
  rw [Term.stamp_eq_replace, Term.entities_replace]
  exact scoped_map_stamp s _

end Scoped

/-! ## Recorded speakers -/

/-- The speakers that are recorded on delegated facts. -/
def VerbPhrase.recorded : VerbPhrase → List Entity
  | canSay _ _ object speaker? => speaker?.toList ++ object.recorded
  | _ => []

def Fact.recorded (f : Fact) : List Entity :=
  f.speaker?.toList ++ f.object.recorded

theorem VerbPhrase.recorded_replace (σ : Mention → Entity) (v : VerbPhrase) :
    (Term.replace σ v).recorded = v.recorded.map (Entity.replace σ) := by
  induction v with
  | canSay depth subject object speaker? ih =>
    change _ ++ _ = List.map _ (_ ++ _)
    rw [List.map_append]
    exact congr (congrArg _ (by cases speaker? <;> rfl)) ih
  | _ => rfl

theorem Fact.recorded_replace (σ : Mention → Entity) (f : Fact) :
    (Term.replace σ f).recorded = f.recorded.map (Entity.replace σ) := by
  have hspeaker : (f.speaker?.map (Entity.replace σ)).toList =
      f.speaker?.toList.map (Entity.replace σ) := by cases f.speaker? <;> rfl
  rw [recorded, recorded, List.map_append, ← hspeaker, ← VerbPhrase.recorded_replace]
  rfl

/-! ## Occurrences -/

/-- What a fact speaks of, and all the speakers recorded in it. -/
def Fact.occurrences (f : Fact) : List Entity :=
  Term.entities f ++ f.recorded

theorem Fact.mem_occurrences_iff {f : Fact} {e : Entity} :
    e ∈ f.occurrences ↔ e ∈ Term.entities f ∨ f.speaker? = some e ∨ e ∈ f.object.recorded := by
  rw [occurrences, recorded, List.mem_append, List.mem_append, Option.mem_toList]

theorem Fact.occurrences_replace (σ : Mention → Entity) (f : Fact) :
    (Term.replace σ f).occurrences = f.occurrences.map (Entity.replace σ) := by
  rw [occurrences, Term.entities_replace, recorded_replace, occurrences, List.map_append]

/-- What a claim speaks of, and all the speakers recorded in its facts. -/
def Claim.occurrences (c : Claim) : List Entity :=
  c.consequent.occurrences ++ c.antecedents.flatMap Fact.occurrences ++ Term.entities c.constraint

theorem Claim.occurrences_replace (σ : Mention → Entity) (c : Claim) :
    (Term.replace σ c).occurrences = c.occurrences.map (Entity.replace σ) := by
  have hantecedents : (c.antecedents.map (Term.replace σ)).flatMap Fact.occurrences =
      (c.antecedents.flatMap Fact.occurrences).map (Entity.replace σ) := by
    rw [List.flatMap_map, List.map_flatMap]
    exact congrArg (List.flatMap · _) (funext (Fact.occurrences_replace σ))
  rw [occurrences, occurrences, List.map_append, List.map_append, ← Fact.occurrences_replace,
    ← hantecedents, ← Term.entities_replace]
  rfl

theorem Fact.scoped_stamp (s : Scope) (f : Fact) : Scoped s (Term.stamp s f).occurrences := by
  rw [Term.stamp_eq_replace, occurrences_replace]
  exact scoped_map_stamp s _

namespace Assertion

def occurrences (a : Assertion) : List Entity :=
  a.speaker :: (a.claim.consequent.occurrences ++ a.claim.antecedents.flatMap Fact.occurrences ++
    Term.entities a.claim.constraint)

theorem mem_occurrences_iff {a : Assertion} {e : Entity} :
    e ∈ a.occurrences ↔ e = a.speaker ∨ e ∈ a.claim.consequent.occurrences ∨
      (∃ f ∈ a.claim.antecedents, e ∈ f.occurrences) ∨ e ∈ Term.entities a.claim.constraint := by
  rw [occurrences, List.mem_cons, List.mem_append, List.mem_append, List.mem_flatMap, or_assoc]

/-- A variable occurs somewhere in an assertion. -/
def Occurs (a : Assertion) (v : Variable) : Prop :=
  ∃ m, Entity.var m ∈ a.occurrences ∧ m.var = v

end Assertion

/-! ## Replacements

Two ways to replace mentions that agree on what occurs in a term have the same result.
-/

section Replace

variable {σ τ : Mention → Entity}

theorem Entity.replace_congr {e : Entity} (h : ∀ m, e = .var m → σ m = τ m) :
    e.replace σ = e.replace τ := by
  cases e with
  | const c => rfl
  | var m => exact h m rfl

theorem VerbPhrase.replace_congr {v : VerbPhrase}
    (h : ∀ m, .var m ∈ v.entities ++ v.recorded → σ m = τ m) : v.replace σ = v.replace τ := by
  induction v with
  | predicate name args =>
    refine congrArg (predicate name) (List.map_congr_left fun e he => ?_)
    exact Entity.replace_congr fun m hm => h m (List.mem_append_left _ (hm ▸ he))
  | canActAs role => rfl
  | canSay depth subject object speaker? ih =>
    have hsubject : subject.replace σ = subject.replace τ :=
      Entity.replace_congr fun m hm => h m (by simp [entities, hm])
    have hobject : object.replace σ = object.replace τ := ih fun m hm => h m (by
      simp only [entities, recorded, List.mem_append, List.mem_cons] at hm ⊢
      grind)
    have hspeaker : speaker?.map (Entity.replace σ) = speaker?.map (Entity.replace τ) := by
      cases speaker? with
      | none => rfl
      | some e =>
        exact congrArg some (Entity.replace_congr fun m hm => h m (by simp [recorded, hm]))
    rw [replace, replace, hsubject, hobject, hspeaker]

theorem Fact.replace_congr {f : Fact} (h : ∀ m, .var m ∈ f.occurrences → σ m = τ m) :
    f.replace σ = f.replace τ := by
  have hsubject : f.subject.replace σ = f.subject.replace τ :=
    Entity.replace_congr fun m hm => h m (by
      rw [mem_occurrences_iff, ← hm]
      exact .inl List.mem_cons_self)
  have hobject : f.object.replace σ = f.object.replace τ := VerbPhrase.replace_congr fun m hm =>
    h m (by
      rw [mem_occurrences_iff]
      rcases List.mem_append.mp hm with hm | hm
      · exact .inl (List.mem_cons_of_mem _ hm)
      · exact .inr (.inr hm))
  have hspeaker : f.speaker?.map (Entity.replace σ) = f.speaker?.map (Entity.replace τ) := by
    cases hf : f.speaker? with
    | none => rfl
    | some e =>
      refine congrArg some (Entity.replace_congr fun m hm => h m ?_)
      rw [mem_occurrences_iff, hf, hm]
      exact .inr (.inl rfl)
  rw [replace, replace, hsubject, hobject, hspeaker]

theorem Constraint.replace_congr {c : Constraint}
    (h : ∀ m, .var m ∈ c.entities → σ m = τ m) : c.replace σ = c.replace τ := by
  induction c with
  | str | int | bool | fail => rfl
  | entity e =>
    exact congrArg entity (Entity.replace_congr fun m hm => h m (List.mem_singleton.mpr hm.symm))
  | call name args ih =>
    rw [replace, replace, replaceList_eq_map, replaceList_eq_map]
    refine congrArg (call name) (List.map_congr_left fun arg harg => ?_)
    refine ih arg harg fun m hm => h m ?_
    rw [entities, entitiesList_eq_flatMap]
    exact List.mem_flatMap.mpr ⟨arg, harg, hm⟩
  | not c ih => exact congrArg not (ih h)
  | binary op a b iha ihb =>
    rw [replace, replace, iha fun m hm => h m (List.mem_append_left _ hm),
      ihb fun m hm => h m (List.mem_append_right _ hm)]

theorem Claim.replace_congr {c : Claim} (h : ∀ m, .var m ∈ c.occurrences → σ m = τ m) :
    c.replace σ = c.replace τ := by
  have hconsequent : Term.replace σ c.consequent = Term.replace τ c.consequent :=
    Fact.replace_congr fun m hm =>
      h m (List.mem_append_left _ (List.mem_append_left _ hm))
  have hantecedents : Term.replace σ c.antecedents = Term.replace τ c.antecedents := by
    refine List.map_congr_left fun f hf => Fact.replace_congr fun m hm => h m ?_
    exact List.mem_append_left _ (List.mem_append_right _ (List.mem_flatMap.mpr ⟨f, hf, hm⟩))
  have hconstraint : Term.replace σ c.constraint = Term.replace τ c.constraint :=
    Constraint.replace_congr fun m hm => h m (List.mem_append_right _ hm)
  rw [replace, replace, hconsequent, hantecedents, hconstraint]

theorem Assertion.replace_congr {a : Assertion} (h : ∀ m, .var m ∈ a.occurrences → σ m = τ m) :
    Term.replace σ a = Term.replace τ a := by
  have hspeaker : Term.replace σ a.speaker = Term.replace τ a.speaker :=
    Entity.replace_congr fun m hm => h m (List.mem_cons.mpr (.inl hm.symm))
  have hclaim : Term.replace σ a.claim = Term.replace τ a.claim :=
    Claim.replace_congr fun m hm => h m (List.mem_cons_of_mem _ hm)
  change a.replace σ = a.replace τ
  rw [replace, replace, hspeaker, hclaim]

end Replace

end AuthLogic
