import AuthLogic.Json.Encode
import AuthLogic.Proofs.Substitution.Walks
import AuthLogic.Proofs.Term.Occurrence
import AuthLogic.Proofs.Unification.Renaming

/-! # Stamping as renaming

To place a term in a scope is to apply the substitution that binds every variable
to its copy there: both go through terms in a way of their own, and reach the same
occurrences. A variable that is in the scope already is its own copy, so a walk may
come back to it, but it leads nowhere else. Nothing but scopes is changed, as the
JSON form of the term shows.
-/

namespace AuthLogic

open Json (form)

/-! ## Occurrences in terms of all kinds -/

/-- Terms whose entities can be listed, those included which they only record. -/
class Searchable (τ : Type) [Term τ] where

  occurrences : τ → List Entity

  occurrences_replace : ∀ (σ : Mention → Entity) (t : τ),
    occurrences (Term.replace σ t) = (occurrences t).map (Entity.replace σ)

  replace_congr : ∀ {σ ρ : Mention → Entity} {t : τ},
    (∀ m, .var m ∈ occurrences t → σ m = ρ m) → Term.replace σ t = Term.replace ρ t

instance : Searchable Entity where
  occurrences e := [e]
  occurrences_replace _ _ := rfl
  replace_congr h := Entity.replace_congr fun m hm => h m (List.mem_singleton.mpr hm.symm)

instance : Searchable VerbPhrase where
  occurrences v := Term.entities v ++ v.recorded
  occurrences_replace σ v := by
    rw [Term.entities_replace, VerbPhrase.recorded_replace, List.map_append]
  replace_congr := VerbPhrase.replace_congr

instance : Searchable Fact where
  occurrences := Fact.occurrences
  occurrences_replace := Fact.occurrences_replace
  replace_congr := Fact.replace_congr

instance : Searchable Constraint where
  occurrences := Term.entities
  occurrences_replace := Term.entities_replace
  replace_congr := Constraint.replace_congr

instance : Searchable Claim where
  occurrences := Claim.occurrences
  occurrences_replace := Claim.occurrences_replace
  replace_congr := Claim.replace_congr

instance : Searchable Assertion where
  occurrences := Assertion.occurrences
  occurrences_replace σ a := congrArg (_ :: ·) (Claim.occurrences_replace σ a.claim)
  replace_congr := Assertion.replace_congr

open Searchable (occurrences)

/-- Replacements that agree on what occurs in a term, up to written types, have the same result. -/
theorem Searchable.same_replace {τ : Type} [Term τ] [Searchable τ] {σ ρ : Mention → Entity} {t : τ}
    (h : ∀ m, .var m ∈ occurrences t → Term.Same (σ m) (ρ m)) :
    Term.Same (Term.replace σ t) (Term.replace ρ t) := by
  rw [Term.Same, Term.untyped, Term.replace_replace, Term.replace_replace]
  exact replace_congr h

theorem Searchable.occurrences_stamp {τ : Type} [Term τ] [Searchable τ] (s : Scope) (t : τ) :
    occurrences (Term.stamp s t) = (occurrences t).map (Term.stamp s) := by
  rw [Term.stamp_eq_replace, occurrences_replace]
  exact List.map_congr_left fun e _ => (Term.stamp_eq_replace s e).symm

theorem Searchable.occurrences_apply {τ : Type} [Term τ] [Searchable τ] (θ : Substitution) (t : τ) :
    occurrences (θ.apply t) = (occurrences t).map θ.apply := by
  rw [θ.apply_eq_replace, occurrences_replace]
  exact List.map_congr_left fun e _ => (θ.apply_eq_replace e).symm

/-! ## Copies -/

namespace Substitution

variable {θ : Substitution} {s : Scope} {es : List Entity} {m : Mention} {v : Variable} {e : Entity}

/-- All variables among some entities are bound, and only copies in a scope are bound to them. -/
structure Copies (θ : Substitution) (s : Scope) (es : List Entity) : Prop where
  bound : ∀ m, .var m ∈ es → ∃ e, θ.get? m.var = some e
  copy : ∀ v e, θ.get? v = some e → ∃ n, e = .var n ∧ n.var = v.inScope s

/-- However far bindings are followed, they lead to the copy: it is its own copy. -/
theorem Copies.of_leads (h : θ.Copies s es) (hv : θ.Leads v e) :
    ∃ n, e = .var n ∧ n.var = v.inScope s := by
  induction hv with
  | binding hv => exact h.copy _ _ hv
  | further hv _ ih =>
    -- the copy of a copy in the same scope
    obtain ⟨n, rfl, hn⟩ := ih
    obtain ⟨_, hm, hcopy⟩ := h.copy _ _ hv
    cases hm
    exact ⟨n, rfl, by rw [hn, hcopy]; rfl⟩

theorem Copies.exists_resolve (h : θ.Copies s es) (hm : .var m ∈ es) :
    ∃ n, θ.resolve m = .var n ∧ n.var = m.var.inScope s := by
  obtain ⟨e, he⟩ := h.bound m hm
  exact h.of_leads (leads_resolve he)

theorem Copies.same_apply {τ : Type} [Term τ] [Searchable τ] {t : τ}
    (h : θ.Copies s (occurrences t)) : Term.Same (Term.stamp s t) (θ.apply t) := by
  rw [Term.stamp_eq_replace, θ.apply_eq_replace]
  refine Searchable.same_replace fun m hm => ?_
  obtain ⟨n, hn, hvar⟩ := h.exists_resolve hm
  rw [hn]
  exact congrArg (fun v => Entity.var ⟨v, none⟩) hvar.symm

/-- Bind some variables to their copies in a scope. -/
def copying (vs : Catalogue Mention.var) (s : Scope) : Substitution :=
  ⟨⟨vs.entries.map fun m => ⟨m, Term.stamp s (.var m)⟩, List.pairwise_map.mpr vs.sorted⟩⟩

theorem get?_copying (vs : Catalogue Mention.var) (s : Scope) (v : Variable) :
    (copying vs s).get? v = (vs.find? v).map fun m => Term.stamp s (.var m) := by
  simp only [get?, copying, Catalogue.find?, List.find?_map, Option.map_map]
  rfl

theorem copies_copying (s : Scope) (es : List Entity) :
    (copying (.ofFirst (es.filterMap Entity.mention?)) s).Copies s es := by
  constructor
  · intro m hm
    have hmem : m ∈ es.filterMap Entity.mention? := List.mem_filterMap.mpr ⟨_, hm, rfl⟩
    have hcontains :
        (.ofFirst (es.filterMap Entity.mention?) : Catalogue Mention.var).contains m.var = true :=
      Catalogue.contains_iff.mpr (Catalogue.exists_mem_ofFirst_iff.mpr ⟨m, hmem, rfl⟩)
    obtain ⟨n, hn⟩ := Option.isSome_iff_exists.mp hcontains
    exact ⟨_, by rw [get?_copying, hn]; rfl⟩
  · intro v e hv
    rw [get?_copying] at hv
    obtain ⟨m, hm, rfl⟩ := Option.map_eq_some_iff.mp hv
    obtain ⟨-, rfl⟩ := Catalogue.find?_eq_some_iff.mp hm
    exact ⟨_, rfl, rfl⟩

end Substitution

/-! ## JSON forms -/

namespace Json

variable {s : Scope}

mutual

/-- Put a scope in place of all scopes in a value. -/
def rescope (s : Scope) : Json → Json
  | arr items => arr (rescopeItems s items)
  | obj fields => obj (rescopeFields s fields)
  | j => j

def rescopeItems (s : Scope) : List Json → List Json
  | [] => []
  | j :: js => j.rescope s :: rescopeItems s js

def rescopeFields (s : Scope) : List (String × Json) → List (String × Json)
  | [] => []
  | (name, j) :: fields =>
    (name, if name = "scope" then int s.id.toNat else j.rescope s) :: rescopeFields s fields

end

theorem rescopeItems_eq_map (s : Scope) (js : List Json) :
    rescopeItems s js = js.map (rescope s) := by
  induction js with
  | nil => rfl
  | cons j js ih => rw [rescopeItems, ih, List.map_cons]

end Json

variable {s : Scope}

theorem Entity.toJson_stamp (s : Scope) (e : Entity) :
    (Term.stamp s e).toJson = e.toJson.rescope s := by
  cases e with
  | const c => rfl
  | var m =>
    obtain ⟨v, type?⟩ := m
    cases type? <;> rfl

theorem Fact.jsonOfParts_stamp (s : Scope) (subject : Entity) (object : Json)
    (speaker? : Option Entity) :
    jsonOfParts (Term.stamp s subject) (object.rescope s) (speaker?.map (Term.stamp s)) =
      (jsonOfParts subject object speaker?).rescope s := by
  cases speaker? with
  | none =>
    change Json.obj [("subject", (Term.stamp s subject).toJson), _] = _
    rw [Entity.toJson_stamp]
    rfl
  | some speaker =>
    change Json.obj [("subject", (Term.stamp s subject).toJson), _,
      ("implicit_speaker", (Term.stamp s speaker).toJson)] = _
    rw [Entity.toJson_stamp, Entity.toJson_stamp]
    rfl

theorem Json.map_rescope {τ : Type} [Term τ] {write : τ → Json} {l : List τ}
    (h : ∀ t ∈ l, write (Term.stamp s t) = (write t).rescope s) :
    (l.map (Term.stamp s)).map write = rescopeItems s (l.map write) := by
  rw [rescopeItems_eq_map, List.map_map, List.map_map]
  exact List.map_congr_left h

theorem VerbPhrase.toJson_stamp (s : Scope) (v : VerbPhrase) :
    (Term.stamp s v).toJson = v.toJson.rescope s := by
  induction v with
  | predicate name args =>
    have hargs := Json.map_rescope (fun e (_ : e ∈ args) => Entity.toJson_stamp s e)
    change form "Predicate" (.obj [_, ("args", .arr ((args.map (Term.stamp s)).map _))]) = _
    rw [hargs]
    rfl
  | canActAs role => rfl
  | canSay depth subject object speaker? ih =>
    change form "CanSay" (.obj [("depth", depth.toJson), ("fact", Fact.jsonOfParts
      (Term.stamp s subject) (Term.stamp s object).toJson (speaker?.map (Term.stamp s)))]) = _
    rw [ih, Fact.jsonOfParts_stamp]
    cases depth <;> rfl

theorem Fact.toJson_stamp (s : Scope) (f : Fact) :
    (Term.stamp s f).toJson = f.toJson.rescope s := by
  rw [toJson, toJson, ← jsonOfParts_stamp, ← VerbPhrase.toJson_stamp]
  rfl

theorem Constraint.toJson_stamp (s : Scope) (c : Constraint) :
    (Term.stamp s c).toJson = c.toJson.rescope s := by
  induction c with
  | str | int | bool | fail => rfl
  | entity e =>
    change form "Entity" (Term.stamp s e).toJson = _
    rw [Entity.toJson_stamp]
    rfl
  | call name args ih =>
    have hstamp : Term.stamp s (call name args) = call name (args.map (Term.stamp s)) :=
      congrArg (call name) (stampList_eq_map s args)
    rw [hstamp, toJson, toJson, toJsonList_eq_map, toJsonList_eq_map, Json.map_rescope ih]
    rfl
  | not c ih =>
    change form "Not" (Term.stamp s c).toJson = _
    rw [ih]
    rfl
  | binary op l r ihl ihr =>
    change form op.formName (.arr [(Term.stamp s l).toJson, (Term.stamp s r).toJson]) = _
    rw [ihl, ihr]
    cases op <;> rfl

theorem Claim.toJson_stamp (s : Scope) (c : Claim) :
    (Term.stamp s c).toJson = c.toJson.rescope s := by
  have hantecedents :=
    Json.map_rescope (fun f (_ : f ∈ c.antecedents) => Fact.toJson_stamp s f)
  change Json.obj [("consequent", (Term.stamp s c.consequent).toJson),
    ("antecedents", .arr ((c.antecedents.map (Term.stamp s)).map Fact.toJson)),
    ("constraint", (Term.stamp s c.constraint).toJson)] = _
  rw [Fact.toJson_stamp, hantecedents, Constraint.toJson_stamp]
  rfl

theorem Assertion.toJson_stamp (s : Scope) (a : Assertion) :
    (a.stamp s).toJson = a.toJson.rescope s := by
  change Json.obj [("speaker", (Term.stamp s a.speaker).toJson),
    ("says", (Term.stamp s a.claim).toJson), ("scope", .int s.id.toNat)] = _
  rw [Entity.toJson_stamp, Claim.toJson_stamp]
  rfl

/-! ## Stamping -/

/-- What is written changes where scopes are written, and nowhere else. -/
def ChangesScopes {τ : Type} (place : Scope → τ → τ) (write : τ → Json) : Prop :=
  ∀ s t, write (place s t) = (write t).rescope s

theorem Assertion.stamp_stamp (s r : Scope) (a : Assertion) : (a.stamp s).stamp r = a.stamp r :=
  congrArg (fun b : Assertion => { b with scope := r }) (Term.stamp_stamp s r a)

/-- A term of any kind that is placed in a scope is the result of binding its variables to their
copies there, and that it was in other scopes before makes no difference. Only an assertion is in a
scope itself, and no substitution changes that one. -/
theorem stamp_renames :
    (∀ {τ : Type} [Term τ] [Searchable τ] (t : τ) (s : Scope),
      (∀ θ : Substitution, θ.Copies s (occurrences t) →
        Term.Same (Term.stamp s t) (θ.apply t)) ∧
      (Substitution.copying (.ofFirst ((occurrences t).filterMap Entity.mention?)) s).Copies s
        (occurrences t) ∧
      occurrences (Term.stamp s t) = (occurrences t).map (Term.stamp s) ∧
      (∀ θ : Substitution, occurrences (θ.apply t) = (occurrences t).map θ.apply) ∧
      ∀ r, Term.stamp r (Term.stamp s t) = Term.stamp r t) ∧
    (∀ (a : Assertion) (s : Scope),
      (∀ θ : Substitution, θ.Copies s a.occurrences →
        Term.Same (a.stamp s) { θ.apply a with scope := s }) ∧
      (∀ θ : Substitution, (θ.apply a).scope = a.scope) ∧
      ∀ r, (a.stamp s).stamp r = a.stamp r) ∧
    ChangesScopes Term.stamp Entity.toJson ∧ ChangesScopes Term.stamp VerbPhrase.toJson ∧
    ChangesScopes Term.stamp Fact.toJson ∧ ChangesScopes Term.stamp Constraint.toJson ∧
    ChangesScopes Term.stamp Claim.toJson ∧ ChangesScopes Assertion.stamp Assertion.toJson := by
  refine ⟨fun t s => ⟨fun θ h => h.same_apply, Substitution.copies_copying s _,
    Searchable.occurrences_stamp s t, fun θ => Searchable.occurrences_apply θ t,
    fun r => Term.stamp_stamp s r t⟩, fun a s => ⟨fun θ h => ?_, fun θ => rfl, fun r => ?_⟩,
    Entity.toJson_stamp, VerbPhrase.toJson_stamp, Fact.toJson_stamp, Constraint.toJson_stamp,
    Claim.toJson_stamp, Assertion.toJson_stamp⟩
  · have hsame : Term.Same (Term.stamp s a) (θ.apply a) := h.same_apply
    exact congrArg (fun b : Assertion => { b with scope := s }) hsame
  · exact a.stamp_stamp s r

/-- One of the variables is in the scope already, under the name of another one that is not. -/
theorem stamp_renames_mixed :
    let x : Mention := ⟨{ name := "X" }, some "Role"⟩
    let y : Mention := ⟨⟨"X", ⟨7⟩⟩, none⟩
    let f : Fact := ⟨.var x, .canSay .unbounded (.var y) (.predicate "enters" []) (some (.var x)),
      some (.var ⟨{ name := "S" }, none⟩)⟩
    let a : Assertion := ⟨.var y, { consequent := f, constraint := .entity (.var x) }, ⟨3⟩⟩
    ∃ θ : Substitution, θ.Copies ⟨7⟩ a.occurrences ∧
      θ.get? x.var = some (.var ⟨⟨"X", ⟨7⟩⟩, some "Role"⟩) ∧ θ.get? y.var = some (.var y) ∧
      Term.Same (Term.stamp ⟨7⟩ a) (θ.apply a) ∧ Term.stamp ⟨7⟩ a ≠ θ.apply a ∧
      Term.Same (a.stamp ⟨7⟩) { θ.apply a with scope := ⟨7⟩ } := by
  intro x y f a
  have hcopies := (stamp_renames.1 a ⟨7⟩).2.1
  exact ⟨_, hcopies, by decide +kernel, by decide +kernel, (stamp_renames.1 a ⟨7⟩).1 _ hcopies,
    by decide +kernel, (stamp_renames.2.1 a ⟨7⟩).1 _ hcopies⟩

end AuthLogic
