import AuthLogic.Proofs.Assertion.Scoping

/-! # Facts and their texts

The facts that a text can tell: variables out of scope and of variable names,
constants without quotes, predicates that are words, and no speakers. Writing and
reading are inverse to each other between these facts and the texts of facts.
-/

namespace AuthLogic

/-- A name that is cut into one word. -/
def IsWord (name : String) : Prop :=
  (Lexeme.ofText name).toOption.map (List.map Lexeme.token) = some [.word name]

instance (name : String) : Decidable (IsWord name) :=
  inferInstanceAs (Decidable (_ = _))

theorem isWord_iff {name : String} :
    IsWord name ↔ ∃ ls, Lexeme.ofText name = .ok ls ∧ ls.map Lexeme.token = [.word name] := by
  rw [IsWord, Option.map_eq_some_iff]
  exact exists_congr fun ls => and_congr_left fun _ => Parser.toOption_eq_some_iff

theorem isWord_iff_lexable {name : String} : IsWord name ↔ (Token.word name).Lexable := by
  rw [isWord_iff]
  constructor
  · rintro ⟨ls, hls, htokens⟩
    obtain ⟨l, rfl, hl⟩ := List.map_eq_singleton_iff.mp htokens
    exact hl ▸ Lexeme.lexable_of_ofChars hls l List.mem_cons_self
  · exact fun h => (Lexeme.Spells.token (.word name) h).exists_ofText

/-- The type of a variable is none of its concerns. -/
def Entity.WellFormed : Entity → Prop
  | const c => '"' ∉ c.name.toList
  | var m => isVariableName m.var.name = true ∧ m.var.scope = .unscoped

instance : (e : Entity) → Decidable e.WellFormed
  | .const _ => inferInstanceAs (Decidable (_ ∉ _))
  | .var _ => inferInstanceAs (Decidable (_ ∧ _))

/-- What a fact has to meet in order to be told by a text. -/
structure Fact.WellFormed (f : Fact) : Prop where

  entities : ∀ e ∈ Term.entities f, e.WellFormed

  /-- That of the innermost fact in a delegation. -/
  predicate : ∀ name ∈ f.predicate?, IsWord name

  /-- Neither on the fact nor on a delegated one. -/
  speakers : f.recorded = []

  /-- The fact and the delegated facts inside of it are open at once. -/
  nesting : f.object.nesting + 1 ≤ defaultLevels

instance (f : Fact) : Decidable f.WellFormed :=
  decidable_of_iff ((∀ e ∈ Term.entities f, e.WellFormed) ∧ (∀ name ∈ f.predicate?, IsWord name) ∧
      f.recorded = [] ∧ f.object.nesting + 1 ≤ defaultLevels)
    ⟨fun ⟨he, hp, hs, hn⟩ => ⟨he, hp, hs, hn⟩, fun ⟨he, hp, hs, hn⟩ => ⟨he, hp, hs, hn⟩⟩

/-! ## Writing -/

theorem Term.same_untyped {τ : Type} [Term τ] (t : τ) : Same (untyped t) t :=
  replace_replace _ _ t

namespace Entity

variable {e : Entity}

theorem WellFormed.untyped_eq_bare (h : e.WellFormed) : Term.untyped e = Term.bare e := by
  cases e with
  | const c => rfl
  | var m =>
    change Entity.var ⟨⟨m.var.name, m.var.scope⟩, none⟩ = .var ⟨⟨m.var.name, .unscoped⟩, none⟩
    rw [h.2]

theorem WellFormed.legible_bare (h : e.WellFormed) : (Term.bare e).Legible := by
  cases e with
  | const c => exact h
  | var m => exact ⟨h.1, by simp⟩

end Entity

namespace VerbPhrase

variable {v : VerbPhrase}

theorem untyped_eq_bare (h : ∀ e ∈ Term.entities v, e.WellFormed) (hv : v.recorded = []) :
    Term.untyped v = Term.bare v := by
  induction v with
  | predicate name args =>
    exact congrArg (predicate name) (List.map_congr_left fun e he => (h e he).untyped_eq_bare)
  | canActAs role => rfl
  | canSay depth subject object speaker? ih =>
    obtain ⟨hs, ho⟩ := List.forall_mem_cons.mp h
    obtain ⟨hspeaker, hobject⟩ := List.append_eq_nil_iff.mp hv
    obtain rfl := Option.toList_eq_nil_iff.mp hspeaker
    change canSay depth (Term.untyped subject) (Term.untyped object) none =
      canSay depth (Term.bare subject) (Term.bare object) none
    rw [hs.untyped_eq_bare, ih ho hobject]

theorem legible_bare (h : ∀ e ∈ Term.entities v, e.WellFormed)
    (hpredicate : ∀ name ∈ v.predicate?, IsWord name) (hv : v.recorded = []) :
    (Term.bare v).Legible := by
  induction v with
  | predicate name args =>
    refine ⟨isWord_iff_lexable.mp (hpredicate name rfl), fun d hd => ?_⟩
    obtain ⟨e, he, rfl⟩ := List.mem_map.mp hd
    exact (h e he).legible_bare
  | canActAs role => exact h _ List.mem_cons_self
  | canSay depth subject object speaker? ih =>
    obtain ⟨hs, ho⟩ := List.forall_mem_cons.mp h
    obtain ⟨hspeaker, hobject⟩ := List.append_eq_nil_iff.mp hv
    obtain rfl := Option.toList_eq_nil_iff.mp hspeaker
    exact ⟨hs.legible_bare, ih ho hpredicate hobject, rfl⟩

end VerbPhrase

namespace Fact

variable {f : Fact}

theorem WellFormed.untyped_eq_bare (h : f.WellFormed) : Term.untyped f = f.bare := by
  obtain ⟨hs, ho⟩ := List.forall_mem_cons.mp h.entities
  obtain ⟨hspeaker, hobject⟩ := List.append_eq_nil_iff.mp h.speakers
  rw [bare_eq (Option.toList_eq_nil_iff.mp hspeaker)]
  change Fact.mk (Term.untyped f.subject) (Term.untyped f.object) (f.speaker?.map Term.untyped) =
    ⟨Term.bare f.subject, Term.bare f.object, f.speaker?.map Term.bare⟩
  rw [hs.untyped_eq_bare, VerbPhrase.untyped_eq_bare ho hobject,
    Option.toList_eq_nil_iff.mp hspeaker]
  rfl

theorem WellFormed.readable_bare (h : f.WellFormed) :
    (Term.bare f).Readable defaultLevels := by
  obtain ⟨hs, ho⟩ := List.forall_mem_cons.mp h.entities
  have hobject := (List.append_eq_nil_iff.mp h.speakers).2
  refine ⟨⟨hs.legible_bare, VerbPhrase.legible_bare ho h.predicate hobject⟩, ?_⟩
  have hnesting : (Term.bare f).object.nesting = f.object.nesting :=
    f.object.nesting_replace _
  rw [hnesting]
  exact h.nesting

/-- A well-formed fact is read back from its text, after which a period may stand. -/
theorem WellFormed.parseFact_render (h : f.WellFormed) :
    parseFact f.render = .ok (Term.untyped f) ∧
      parseFact (f.render ++ ".") = .ok (Term.untyped f) := by
  have hbare : (Term.bare f).bare = Term.untyped f := by
    rw [h.untyped_eq_bare, bare, Term.bare_bare, bare]
  have hrender : (Term.bare f).render = f.render := f.render_replace fun _ => rfl
  rw [← hbare, ← hrender]
  exact ⟨AuthLogic.parseFact_render h.readable_bare, parseFact_render_period h.readable_bare⟩

end Fact

/-! ## Reading -/

theorem Entity.Legible.wellFormed {e : Entity} (h : e.Legible) (he : Scoped .unscoped [e]) :
    e.WellFormed := by
  cases e with
  | const c => exact h
  | var m => exact ⟨h.1, he m List.mem_cons_self⟩

theorem VerbPhrase.Legible.isWord {v : VerbPhrase} (h : v.Legible) {name : String}
    (hname : v.predicate? = some name) : IsWord name := by
  induction v with
  | predicate name' args =>
    cases hname
    exact isWord_iff_lexable.mpr h.1
  | canActAs role => cases hname
  | canSay depth subject object speaker? ih => exact ih h.2.1 hname

namespace Fact

theorem wellFormed_of_parse {text : String} {f : Fact} (h : parseFact text = .ok f) :
    f.WellFormed := by
  obtain ⟨⟨hlegible, hnesting⟩, -⟩ := readable_of_parse h
  obtain ⟨hscoped, hrecorded⟩ := unscoped_of_parse h
  refine ⟨fun e he => ?_, fun name hname => hlegible.2.isWord hname, hrecorded, hnesting⟩
  exact (hlegible.legible_of_mem he).wellFormed fun m hm => hscoped m (List.mem_singleton.mp hm ▸ he)

/-- Every well-formed fact is read back from its text, with or without a period after it; and all
that is read from a text is a well-formed fact, and so is read back from its own text. -/
theorem parse_render_wellFormed :
    (∀ f : Fact, f.WellFormed → ∃ g, parseFact f.render = .ok g ∧
      parseFact (f.render ++ ".") = .ok g ∧ Term.Same g f) ∧
    ∀ (text : String) (f : Fact), parseFact text = .ok f → f.WellFormed ∧
      ∃ g, parseFact f.render = .ok g ∧ Term.Same g f := by
  refine ⟨fun f hf => ?_, fun text f h => ?_⟩
  · obtain ⟨hread, hperiod⟩ := hf.parseFact_render
    exact ⟨_, hread, hperiod, Term.same_untyped f⟩
  · have hf := wellFormed_of_parse h
    exact ⟨hf, _, hf.parseFact_render.1, Term.same_untyped f⟩

/-- A constant that has the name of a variable, and one that looks like a comment. -/
theorem parse_render_wellFormed_delegation :
    let f : Fact :=
      { subject := .var ⟨{ name := "X" }, some "Role"⟩
        object := .canSay .unbounded (.const ⟨"Y"⟩)
          (.predicate "signs-" [.const ⟨"// a."⟩, .var ⟨{ name := "Y" }, none⟩]) none }
    let text := "X:Role can-say inf \"Y\" // on behalf of X\n signs- (\"// a.\", Y)."
    f.WellFormed ∧ f.render = "X can-say inf \"Y\" signs- \"// a.\" Y" ∧
      (∃ g, parseFact f.render = .ok g ∧ parseFact (f.render ++ ".") = .ok g ∧ Term.Same g f) ∧
      parseFact text = .ok f ∧ ∃ g, parseFact f.render = .ok g ∧ Term.Same g f := by
  intro f text
  have hf : f.WellFormed := by decide +kernel
  have hparse : parseFact text = .ok f := Parser.toOption_eq_some_iff.mp (by decide +kernel)
  exact ⟨hf, by decide +kernel, parse_render_wellFormed.1 f hf, hparse,
    (parse_render_wellFormed.2 text f hparse).2⟩

end Fact

end AuthLogic
