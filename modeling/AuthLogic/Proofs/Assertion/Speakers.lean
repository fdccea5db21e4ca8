import AuthLogic.Proofs.Assertion.Roundtrip
import AuthLogic.Proofs.Assertion.Scoping

/-! # Recorded speakers

However an assertion is built, placed, instantiated or cut down to its
consequent, the speaker that is recorded on an antecedent is its speaker. An
assertion that comes from a text records no other speakers. When it is ground,
there is then no variable left anywhere in it, and no substitution changes it.
-/

namespace AuthLogic

theorem VerbPhrase.Legible.recorded_eq_nil {v : VerbPhrase} (h : v.Legible) : v.recorded = [] := by
  induction v with
  | canSay depth subject object speaker? ih =>
    obtain ⟨-, hobject, rfl⟩ := h
    exact ih hobject
  | _ => rfl

namespace Assertion

/-- What can be done to an assertion. -/
inductive Change
  | stamp (s : Scope)
  | apply (θ : Substitution)
  | consequence

def Change.run : Change → Assertion → Assertion
  | stamp s, a => a.stamp s
  | apply θ, a => θ.apply a
  | consequence, a => a.consequence

/-- The assertion after changes, one after the other. -/
def after (a : Assertion) (cs : List Change) : Assertion :=
  cs.foldl (fun a c => c.run a) a

/-- The speaker is recorded on all antecedents. -/
def RecordsSpeaker (a : Assertion) : Prop :=
  ∀ f ∈ a.claim.antecedents, f.speaker? = some a.speaker

/-- No speaker is recorded anywhere else: neither on the consequent nor on delegated facts. -/
def RecordsNoOther (a : Assertion) : Prop :=
  a.claim.consequent.recorded = [] ∧ ∀ f ∈ a.claim.antecedents, f.object.recorded = []

variable {a : Assertion}

/-! ## Changes keep what is recorded -/

theorem RecordsSpeaker.replace (h : a.RecordsSpeaker) (σ : Mention → Entity) :
    (Term.replace σ a).RecordsSpeaker := by
  intro f hf
  obtain ⟨g, hg, rfl⟩ := List.mem_map.mp hf
  change g.speaker?.map (Entity.replace σ) = some (a.speaker.replace σ)
  rw [h g hg]
  rfl

theorem recordsSpeaker_inScope (s : Scope) (speaker : Entity) (claim : Claim) :
    (inScope s speaker claim).RecordsSpeaker :=
  fun _ hf => speaker?_of_mem_inScope hf

/-- Cutting down to the consequent builds a new assertion, the others replace mentions. -/
theorem RecordsSpeaker.run (h : a.RecordsSpeaker) (c : Change) : (c.run a).RecordsSpeaker := by
  cases c with
  | stamp s =>
    have hstamp : (Term.stamp s a).RecordsSpeaker := by
      rw [Term.stamp_eq_replace]
      exact h.replace _
    exact hstamp
  | apply θ =>
    rw [Change.run, θ.apply_eq_replace]
    exact h.replace _
  | consequence => exact recordsSpeaker_inScope _ _ _

theorem RecordsSpeaker.after (h : a.RecordsSpeaker) (cs : List Change) :
    (a.after cs).RecordsSpeaker := by
  induction cs generalizing a with
  | nil => exact h
  | cons c cs ih => exact ih (h.run c)

theorem RecordsNoOther.replace (h : a.RecordsNoOther) (σ : Mention → Entity) :
    (Term.replace σ a).RecordsNoOther := by
  constructor
  · change (Term.replace σ a.claim.consequent).recorded = []
    rw [Fact.recorded_replace, h.1]
    rfl
  · intro f hf
    obtain ⟨g, hg, rfl⟩ := List.mem_map.mp hf
    change (Term.replace σ g.object).recorded = []
    rw [VerbPhrase.recorded_replace, h.2 g hg]
    rfl

/-- Obligations come from texts, which do not tell of speakers. -/
theorem recordsNoOther_inScope (s : Scope) (speaker : Entity) (claim : Claim)
    (hconsequent : claim.consequent.recorded = [])
    (hantecedents : ∀ f ∈ claim.antecedents, f.object.recorded = []) :
    (inScope s speaker claim).RecordsNoOther := by
  constructor
  · rw [consequent_inScope, Term.stamp_eq_replace, Fact.recorded_replace, hconsequent]
    rfl
  · intro f hf
    rcases of_mem_antecedents_inScope hf with ⟨g, hg, rfl⟩ | ⟨text, g, hg, rfl⟩
    · change (Term.stamp s g.object).recorded = []
      rw [Term.stamp_eq_replace, VerbPhrase.recorded_replace, hantecedents g hg]
      rfl
    · exact (Fact.scoped_of_parse hg.2.1).2

theorem RecordsNoOther.run (h : a.RecordsNoOther) (c : Change) : (c.run a).RecordsNoOther := by
  cases c with
  | stamp s =>
    have hstamp : (Term.stamp s a).RecordsNoOther := by
      rw [Term.stamp_eq_replace]
      exact h.replace _
    exact hstamp
  | apply θ =>
    rw [Change.run, θ.apply_eq_replace]
    exact h.replace _
  | consequence =>
    exact recordsNoOther_inScope _ _ { consequent := a.claim.consequent } h.1
      (List.forall_mem_nil _)

theorem RecordsNoOther.after (h : a.RecordsNoOther) (cs : List Change) :
    (a.after cs).RecordsNoOther := by
  induction cs generalizing a with
  | nil => exact h
  | cons c cs ih => exact ih (h.run c)

theorem recordsNoOther_of_parse {levels : Nat} {text : String} {scopes scopes' : ScopeSupply}
    (h : parse levels text scopes = .ok (a, scopes')) : a.RecordsNoOther := by
  obtain ⟨hreadable, hnone⟩ := readable_of_parse h
  constructor
  · rw [Fact.recorded, hnone, hreadable.claim.consequent.1.2.recorded_eq_nil]
    rfl
  · intro f hf
    exact (hreadable.claim.antecedents f hf).1.2.recorded_eq_nil

/-! ## Ground assertions -/

/-- Where only the speaker is recorded, nothing occurs that an assertion does not speak of. -/
theorem mem_entities_of_mem_occurrences (hspeaker : a.RecordsSpeaker) (hother : a.RecordsNoOther)
    {e : Entity} (h : e ∈ a.occurrences) : e ∈ Term.entities a := by
  have hclaim {e : Entity} (h : e ∈ Term.entities a.claim) : e ∈ Term.entities a :=
    List.mem_cons_of_mem _ h
  have hconsequent {e : Entity} (h : e ∈ Term.entities a.claim.consequent) : e ∈ Term.entities a :=
    hclaim (List.mem_append_left _ (List.mem_append_left _ h))
  rcases mem_occurrences_iff.mp h with rfl | h | ⟨f, hf, h⟩ | h
  · exact List.mem_cons_self
  · rw [Fact.occurrences, hother.1, List.append_nil] at h
    exact hconsequent h
  · rcases Fact.mem_occurrences_iff.mp h with h | h | h
    · refine hclaim (List.mem_append_left _ (List.mem_append_right _ ?_))
      exact List.mem_flatMap.mpr ⟨f, hf, h⟩
    · rw [hspeaker f hf] at h
      cases h
      exact List.mem_cons_self
    · rw [hother.2 f hf] at h
      cases h
  · exact hclaim (List.mem_append_right _ h)

theorem apply_of_isGround (hspeaker : a.RecordsSpeaker) (hother : a.RecordsNoOther)
    (h : Term.isGround a = true) (θ : Substitution) : θ.apply a = a := by
  have hcongr : Term.replace θ.resolve a = Term.replace .var a := by
    refine replace_congr fun m hm => ?_
    have hentities := mem_entities_of_mem_occurrences hspeaker hother hm
    exact absurd (Term.mem_mentions_iff.mpr hentities) (Term.isGround_iff.mp h m)
  rw [θ.apply_eq_replace, hcongr, Term.replace_var]

/-- All antecedents name the speaker as it is now, whatever was done to the assertion since it was
built. No substitution moves an assertion to another scope, and none changes a ground assertion
that comes from a text. -/
theorem speaker?_after :
    (∀ (a : Assertion) (cs : List Change), Constructed a →
      ∀ f ∈ (a.after cs).claim.antecedents, f.speaker? = some (a.after cs).speaker) ∧
    (∀ (a : Assertion) (θ : Substitution), (θ.apply a).scope = a.scope) ∧
    ∀ (levels : Nat) (text : String) (scopes scopes' : ScopeSupply) (a : Assertion)
      (cs : List Change), parse levels text scopes = .ok (a, scopes') →
      Term.isGround (a.after cs) = true →
      ∀ θ : Substitution, θ.apply (a.after cs) = a.after cs := by
  have hspeaker {a : Assertion} (h : Constructed a) (cs : List Change) :
      (a.after cs).RecordsSpeaker := by
    have hbuilt : a.RecordsSpeaker := fun f hf => h.speaker?_of_mem hf
    exact hbuilt.after cs
  refine ⟨fun a cs h => hspeaker h cs, fun a θ => rfl, fun levels text scopes scopes' a cs h => ?_⟩
  exact apply_of_isGround (hspeaker (.parse h) cs) ((recordsNoOther_of_parse h).after cs)

/-- The consequent is claimed under the obligation of the speaker, which is stated anew. -/
theorem speaker?_after_consequence :
    let s : Mention := ⟨⟨"S", ⟨9⟩⟩, none⟩
    let θ := Substitution.singleton s (.const ⟨"Hr"⟩)
    let cs : List Change := [.stamp ⟨9⟩, .consequence, .apply θ]
    ∃ a, parse 64 "S:Doctor says Eve enters if S knows Eve." {} = .ok (a, ⟨⟨1⟩⟩) ∧ Constructed a ∧
      (∀ f ∈ (a.after cs).claim.antecedents, f.speaker? = some (a.after cs).speaker) ∧
      (a.after cs).render = "Hr says Eve enters if Hr is-a Doctor." ∧
      Term.isGround (a.after cs) = true ∧
      ∀ η : Substitution, η.apply (a.after cs) = a.after cs := by
  intro s θ cs
  let text := "S:Doctor says Eve enters if S knows Eve."
  have hparse : parse 64 text {} = .ok (((parse 64 text {}).toOption.getD default).1, ⟨⟨1⟩⟩) :=
    Parser.toOption_eq_some_iff.mp (by decide +kernel)
  obtain ⟨hspeaker, -, hfixed⟩ := speaker?_after
  have hground : Term.isGround (((parse 64 text {}).toOption.getD default).1.after cs) = true := by
    decide +kernel
  refine ⟨_, hparse, .parse hparse, hspeaker _ cs (.parse hparse), by decide +kernel, hground, ?_⟩
  exact hfixed _ _ _ _ _ cs hparse hground

end Assertion

end AuthLogic
