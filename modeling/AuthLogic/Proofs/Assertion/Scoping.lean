import AuthLogic.Proofs.Assertion.Readable
import AuthLogic.Proofs.Syntax.DerivationParsed
import AuthLogic.Proofs.Term.Occurrence

/-! # Scoping

Building an assertion places every variable of its parts in the scope. The
antecedents that state its obligations come from a text, and only their subject
is placed in the scope as well: an object with variables keeps these out of it.
-/

namespace AuthLogic

/-! ## Facts from a text -/

theorem NameTree.scoped_value (d : NameTree) : Scoped .unscoped [d.value] := by
  intro m hm
  have hm := List.mem_singleton.mp hm
  rw [value] at hm
  split at hm <;> cases hm
  rfl

theorem EntityTree.scoped_value (d : EntityTree) : Scoped .unscoped [d.value] := by
  cases d with
  | name d => exact d.scoped_value
  | string text =>
    intro m hm
    cases List.mem_singleton.mp hm

theorem VerbPhraseTree.scoped_value (d : VerbPhraseTree) :
    Scoped .unscoped (Term.entities d.value) ∧ d.value.recorded = [] := by
  induction d with
  | canActAs role =>
    refine ⟨fun m hm => ?_, rfl⟩
    cases List.mem_singleton.mp hm
  | canSay depth subject object ih =>
    exact ⟨scoped_append_iff.mpr ⟨subject.scoped_value, ih.1⟩, ih.2⟩
  | predicate name args =>
    refine ⟨fun m hm => ?_, rfl⟩
    obtain ⟨d, -, hd⟩ := List.mem_map.mp hm
    exact d.scoped_value m (List.mem_singleton.mpr hd.symm)

theorem FactTree.scoped_value (d : FactTree) :
    Scoped .unscoped (Term.entities d.value) ∧ d.value.recorded = [] :=
  ⟨scoped_append_iff.mpr ⟨d.subject.scoped_value, d.object.scoped_value.1⟩,
    d.object.scoped_value.2⟩

namespace Fact

variable {text : String} {f : Fact}

theorem readable_of_parse (h : parseFact text = .ok f) :
    f.Readable defaultLevels ∧ f.speaker? = none := by
  obtain ⟨ls, hls, hread⟩ := parseFact_eq_ok_iff.mp h
  refine (Parser.yields_fact defaultLevels _ f [] (fun l hl => ?_) hread).1
  refine Lexeme.lexable_of_ofChars hls l ?_
  rw [Parser.withoutPeriod] at hl
  split at hl
  · exact (List.dropLast_sublist ls).subset hl
  · exact hl

/-- What is read is out of scope, and no speakers are recorded on it. -/
theorem unscoped_of_parse (h : parseFact text = .ok f) :
    Scoped .unscoped (Term.entities f) ∧ f.recorded = [] := by
  obtain ⟨ls, -, hread⟩ := parseFact_eq_ok_iff.mp h
  obtain ⟨-, -, d, -, -, rfl⟩ := Parser.consumes_fact defaultLevels _ f [] hread
  exact d.scoped_value

theorem scoped_of_parse (h : parseFact text = .ok f) :
    Scoped .unscoped (Term.entities f.object) ∧ f.object.recorded = [] :=
  ⟨fun m hm => (unscoped_of_parse h).1 m (List.mem_cons_of_mem _ hm),
    (List.append_eq_nil_iff.mp (unscoped_of_parse h).2).2⟩

/-- Facts of one text have one reading. -/
theorem bare_eq_of_parse {text' : String} {g : Fact} (hf : parseFact text = .ok f)
    (hg : parseFact text' = .ok g) (h : f.render = g.render) : f.bare = g.bare := by
  have hf := parseFact_render (readable_of_parse hf).1
  have hg := parseFact_render (readable_of_parse hg).1
  rw [h, hg] at hf
  exact (Except.ok.inj hf).symm

end Fact

theorem Term.isGround_bare {τ : Type} [Term τ] (t : τ) : isGround (bare t) = isGround t := by
  have h : mentions (bare t) = (mentions t).map fun m => { var := { name := m.var.name } } :=
    (mentions_replace _ t).trans (congrFun List.filterMap_eq_map _)
  rw [isGround, isGround, h, List.isEmpty_map]

/-! ## Texts of placed facts -/

section Render

variable {σ : Mention → Entity}

theorem Entity.render_replace (h : ∀ m, (σ m).render = m.var.name) (e : Entity) :
    (Term.replace σ e).render = e.render := by
  cases e with
  | const c => rfl
  | var m => exact h m

/-- The text of a fact tells the names of its variables only. -/
theorem VerbPhrase.render_replace (h : ∀ m, (σ m).render = m.var.name) (v : VerbPhrase) :
    (Term.replace σ v).render = v.render := by
  induction v with
  | predicate name args =>
    have hargs : (args.map (Term.replace σ)).map (fun arg => " " ++ arg.render) =
        args.map fun arg => " " ++ arg.render := by
      rw [List.map_map]
      exact List.map_congr_left fun e _ => congrArg (" " ++ ·) (e.render_replace h)
    exact congrArg (fun texts => name ++ String.join texts) hargs
  | canActAs role => rfl
  | canSay depth subject object speaker? ih =>
    change "can-say " ++ depth.render ++ " " ++ (Term.replace σ subject).render ++ " " ++
      (Term.replace σ object).render = _
    rw [ih, subject.render_replace h]
    rfl

theorem Fact.render_replace (h : ∀ m, (σ m).render = m.var.name) (f : Fact) :
    (Term.replace σ f).render = f.render := by
  change (Term.replace σ f.subject).render ++ " " ++ (Term.replace σ f.object).render = _
  rw [Entity.render_replace h, VerbPhrase.render_replace h]
  rfl

variable (s : Scope)

theorem Entity.render_stamp (e : Entity) : (Term.stamp s e).render = e.render :=
  e.render_replace fun _ => rfl

theorem Fact.render_stamp (f : Fact) : (Term.stamp s f).render = f.render := by
  rw [Term.stamp_eq_replace]
  exact f.render_replace fun _ => rfl

/-- As the facts of obligations are placed, without their objects. -/
theorem Fact.render_placed (f : Fact) :
    Fact.render { f with subject := Term.stamp s f.subject } = f.render := by
  rw [render, Entity.render_stamp, render]

theorem Claim.states_stamp (c : Claim) (f : Fact) : (Term.stamp s c).states f = c.states f := by
  change (c.antecedents.map (Term.stamp s)).any _ = c.antecedents.any _
  rw [List.any_map]
  refine congrArg (List.any c.antecedents) (funext fun g => ?_)
  rw [Function.comp_apply, Fact.render_stamp]

end Render

/-! ## Obligations -/

namespace Obligation

theorem fact?_eq_some_iff {o : Obligation} {f : Fact} :
    o.fact? = some f ↔
      ∃ g, parseFact o.text = .ok g ∧
        f = { g with subject := Term.stamp o.var.scope g.subject } := by
  rw [fact?]
  split
  case h_1 g hg =>
    rw [hg]
    constructor
    · intro h
      cases h
      exact ⟨g, rfl, rfl⟩
    · rintro ⟨g', hg', rfl⟩
      cases hg'
      rfl
  case h_2 hg =>
    rw [hg]
    constructor
    · intro h
      cases h
    · rintro ⟨g, hg, -⟩
      cases hg

theorem exists_mem_distinct {o : Obligation} {os : List Obligation} (h : o ∈ os) :
    ∃ p ∈ distinct os, p.text = o.text := by
  induction os with
  | nil => cases h
  | cons q os ih =>
    rcases List.mem_cons.mp h with rfl | h
    · exact ⟨o, List.mem_cons_self, rfl⟩
    · obtain ⟨p, hp, htext⟩ := ih h
      by_cases hq : p.text = q.text
      · exact ⟨q, List.mem_cons_self, hq.symm.trans htext⟩
      · exact ⟨p, List.mem_cons_of_mem q (List.mem_filter.mpr ⟨hp, decide_eq_true hq⟩), htext⟩

end Obligation

namespace Claim

theorem states_iff {c : Claim} {f : Fact} :
    c.states f = true ↔ ∃ g ∈ c.antecedents, g.render = f.render := by
  simp [states]

theorem mem_antecedents_oblige {c : Claim} {o : Obligation} {f : Fact} :
    f ∈ (c.oblige o).antecedents ↔
      f ∈ c.antecedents ∨ o.fact? = some f ∧ c.states f = false := by
  rw [oblige]
  split
  case h_1 g hg =>
    rw [hg]
    split
    case isTrue hs =>
      refine ⟨.inl, ?_⟩
      rintro (h | ⟨h, hf⟩)
      · exact h
      · cases h
        rw [hs] at hf
        cases hf
    case isFalse hs =>
      rw [List.mem_append, List.mem_singleton]
      refine or_congr_right ⟨?_, ?_⟩
      · rintro rfl
        exact ⟨rfl, Bool.eq_false_iff.mpr hs⟩
      · rintro ⟨h, -⟩
        exact (Option.some.inj h).symm
  case h_2 hg =>
    rw [hg]
    refine ⟨.inl, ?_⟩
    rintro (h | ⟨h, -⟩)
    · exact h
    · cases h

theorem states_oblige_of_states {c : Claim} {f : Fact} (h : c.states f = true) (o : Obligation) :
    (c.oblige o).states f = true := by
  obtain ⟨g, hg, heq⟩ := states_iff.mp h
  exact states_iff.mpr ⟨g, mem_antecedents_oblige.mpr (.inl hg), heq⟩

theorem states_oblige {c : Claim} {o : Obligation} {f : Fact} (h : o.fact? = some f) :
    (c.oblige o).states f = true := by
  cases hs : c.states f with
  | true => exact states_oblige_of_states hs o
  | false => exact states_iff.mpr ⟨f, mem_antecedents_oblige.mpr (.inr ⟨h, hs⟩), rfl⟩

theorem states_foldl_oblige_of_states {c : Claim} {f : Fact} (h : c.states f = true)
    (os : List Obligation) : (os.foldl oblige c).states f = true := by
  induction os generalizing c with
  | nil => exact h
  | cons o os ih => exact ih (states_oblige_of_states h o)

/-- Every obligation that is a fact ends up stated. -/
theorem states_foldl_oblige {os : List Obligation} {o : Obligation} {f : Fact} (ho : o ∈ os)
    (hf : o.fact? = some f) (c : Claim) : (os.foldl oblige c).states f = true := by
  induction os generalizing c with
  | nil => cases ho
  | cons p os ih =>
    rcases List.mem_cons.mp ho with rfl | ho
    · exact states_foldl_oblige_of_states (states_oblige hf) os
    · exact ih ho (c.oblige p)

/-- An antecedent is written, or states an obligation that was not stated so far. -/
theorem of_mem_antecedents_foldl_oblige {os : List Obligation} {c : Claim} {f : Fact}
    (h : f ∈ (os.foldl oblige c).antecedents) :
    f ∈ c.antecedents ∨ ∃ o ∈ os, o.fact? = some f ∧ c.states f = false := by
  induction os generalizing c with
  | nil => exact .inl h
  | cons o os ih =>
    rcases ih h with h | ⟨p, hp, hf, hs⟩
    · rcases mem_antecedents_oblige.mp h with h | h
      · exact .inl h
      · exact .inr ⟨o, List.mem_cons_self, h⟩
    · refine .inr ⟨p, List.mem_cons_of_mem o hp, hf, ?_⟩
      cases hc : c.states f with
      | false => rfl
      | true =>
        rw [states_oblige_of_states hc o] at hs
        cases hs

theorem states_congr {c : Claim} {f g : Fact} (h : f.render = g.render) :
    c.states f = c.states g := by
  rw [states, states, h]

end Claim

section InScope

variable {s : Scope} {speaker : Entity} {claim : Claim} {m : Mention}

theorem Term.mentions_stamp {τ : Type} [Term τ] (s : Scope) (t : τ) :
    mentions (stamp s t) = (mentions t).map fun m => { m with var.scope := s } := by
  rw [stamp_eq_replace]
  exact (mentions_replace _ t).trans (congrFun List.filterMap_eq_map _)

theorem Term.mem_mentions_stamp_iff {τ : Type} [Term τ] {t : τ} :
    m ∈ mentions (stamp s t) ↔ ∃ n ∈ mentions t, m = { n with var.scope := s } := by
  rw [mentions_stamp, List.mem_map]
  simp only [eq_comm]

/-- The text that a written type obliges the speaker to prove, and that is read as a fact which no
antecedent states. -/
def Claim.Obliges (speaker : Entity) (claim : Claim) (text : String) (f : Fact) : Prop :=
  (∃ m ∈ Term.mentions speaker ++ Term.mentions claim, m.obligation? = some text) ∧
    parseFact text = .ok f ∧ claim.states f = false

theorem Obligation.of_mem_ofAssertion {o : Obligation}
    (h : o ∈ ofAssertion (Term.stamp s speaker) (Term.stamp s claim)) :
    o.var.scope = s ∧
      ∃ m ∈ Term.mentions speaker ++ Term.mentions claim, m.obligation? = some o.text := by
  obtain ⟨m, hm, ho⟩ := List.mem_filterMap.mp (mem_of_mem_distinct h)
  obtain ⟨text, htext, rfl⟩ := Option.map_eq_some_iff.mp ho
  obtain ⟨n, hn, rfl⟩ : ∃ n ∈ Term.mentions speaker ++ Term.mentions claim,
      m = { n with var.scope := s } := by
    rcases List.mem_append.mp hm with hm | hm
    · obtain ⟨n, hn, rfl⟩ := Term.mem_mentions_stamp_iff.mp hm
      exact ⟨n, List.mem_append_left _ hn, rfl⟩
    · obtain ⟨n, hn, rfl⟩ := Term.mem_mentions_stamp_iff.mp hm
      exact ⟨n, List.mem_append_right _ hn, rfl⟩
  exact ⟨rfl, n, hn, htext⟩

theorem Obligation.exists_mem_ofAssertion {text : String}
    (hm : m ∈ Term.mentions speaker ++ Term.mentions claim) (ht : m.obligation? = some text) :
    ∃ o ∈ ofAssertion (Term.stamp s speaker) (Term.stamp s claim), o.text = text := by
  let n : Mention := { m with var.scope := s }
  have hn : n ∈ Term.mentions (Term.stamp s speaker) ++ Term.mentions (Term.stamp s claim) := by
    rcases List.mem_append.mp hm with hm | hm
    · exact List.mem_append_left _ (Term.mem_mentions_stamp_iff.mpr ⟨m, hm, rfl⟩)
    · exact List.mem_append_right _ (Term.mem_mentions_stamp_iff.mpr ⟨m, hm, rfl⟩)
  exact exists_mem_distinct (o := ⟨n.var, text⟩)
    (List.mem_filterMap.mpr ⟨n, hn, Option.map_eq_some_iff.mpr ⟨text, ht, rfl⟩⟩)

namespace Assertion

/-- An antecedent of an assertion is written, or states an obligation; the speaker is recorded on
it. -/
theorem of_mem_antecedents_inScope {f : Fact}
    (h : f ∈ (inScope s speaker claim).claim.antecedents) :
    (∃ g ∈ claim.antecedents,
      f = { Term.stamp s g with speaker? := some (Term.stamp s speaker) }) ∨
    ∃ text g, claim.Obliges speaker text g ∧
      f = { g with subject := Term.stamp s g.subject,
                   speaker? := some (Term.stamp s speaker) } := by
  obtain ⟨g, hg, rfl⟩ := List.mem_map.mp h
  rcases Claim.of_mem_antecedents_foldl_oblige hg with hg | ⟨o, ho, hfact, hs⟩
  · obtain ⟨g', hg', rfl⟩ := List.mem_map.mp hg
    exact .inl ⟨g', hg', rfl⟩
  · obtain ⟨hscope, hm⟩ := Obligation.of_mem_ofAssertion ho
    obtain ⟨g, hparse, rfl⟩ := Obligation.fact?_eq_some_iff.mp hfact
    refine .inr ⟨o.text, g, ⟨hm, hparse, ?_⟩, by rw [hscope]⟩
    rw [← Claim.states_stamp s, ← hs]
    exact Claim.states_congr (Fact.render_placed o.var.scope g).symm

/-- Nothing but the objects of obligations comes from elsewhere. -/
theorem scope_of_mem_occurrences (h : .var m ∈ (inScope s speaker claim).occurrences) :
    m.var.scope = s ∨
      ∃ text f, claim.Obliges speaker text f ∧ .var m ∈ Term.entities f.object := by
  have hspeaker {m : Mention} (h : Term.stamp s speaker = .var m) : m.var.scope = s :=
    Term.scoped_stamp s speaker m (List.mem_singleton.mpr h.symm)
  rcases mem_occurrences_iff.mp h with h | h | ⟨f, hf, h⟩ | h
  · exact .inl (hspeaker h.symm)
  · rw [consequent_inScope] at h
    exact .inl (Fact.scoped_stamp s _ m h)
  · rcases of_mem_antecedents_inScope hf with ⟨g, hg, rfl⟩ | ⟨text, g, hg, rfl⟩
    · rcases Fact.mem_occurrences_iff.mp h with h | h | h
      · exact .inl (Term.scoped_stamp s g m h)
      · exact .inl (hspeaker (Option.some.inj h))
      · exact .inl (Fact.scoped_stamp s g m (Fact.mem_occurrences_iff.mpr (.inr (.inr h))))
    · rcases Fact.mem_occurrences_iff.mp h with h | h | h
      · rcases List.mem_cons.mp h with h | h
        · exact .inl (Term.scoped_stamp s g.subject m (List.mem_singleton.mpr h))
        · exact .inr ⟨text, g, hg, h⟩
      · exact .inl (hspeaker (Option.some.inj h))
      · have hnil : g.object.recorded = [] := (Fact.scoped_of_parse hg.2.1).2
        have h : Entity.var m ∈ g.object.recorded := h
        rw [hnil] at h
        cases h
  · rw [constraint_inScope] at h
    exact .inl (Term.scoped_stamp s _ m h)

/-- The variables in the object of an obligation stay out of scope. -/
theorem exists_mem_occurrences {text : String} {f : Fact} (h : claim.Obliges speaker text f)
    (hf : Term.isGround f.object = false) :
    ∃ m, .var m ∈ (inScope s speaker claim).occurrences ∧ m.var.scope = .unscoped := by
  obtain ⟨⟨m, hm, htext⟩, hparse, hs⟩ := h
  obtain ⟨o, ho, rfl⟩ := Obligation.exists_mem_ofAssertion (s := s) hm htext
  have hfact := Obligation.fact?_eq_some_iff.mpr ⟨f, hparse, rfl⟩
  obtain ⟨g, hg, hrender⟩ := Claim.states_iff.mp
    (Claim.states_foldl_oblige ho hfact (Term.stamp s claim))
  rw [Fact.render_placed] at hrender
  have hmem : { g with speaker? := some (Term.stamp s speaker) } ∈
      (inScope s speaker claim).claim.antecedents := List.mem_map.mpr ⟨g, hg, rfl⟩
  -- The antecedent need not be the fact itself, but it has the same text.
  rcases Claim.of_mem_antecedents_foldl_oblige hg with hg | ⟨p, -, hfact', -⟩
  · have hstates := Claim.states_iff.mpr ⟨g, hg, hrender⟩
    rw [Claim.states_stamp, hs] at hstates
    cases hstates
  · obtain ⟨f', hparse', rfl⟩ := Obligation.fact?_eq_some_iff.mp hfact'
    rw [Fact.render_placed] at hrender
    have hbare := congrArg Fact.object (Fact.bare_eq_of_parse hparse' hparse hrender)
    have hground : Term.isGround f'.object = false := by
      rw [← hf, ← Term.isGround_bare f'.object, ← Term.isGround_bare f.object]
      exact congrArg Term.isGround hbare
    obtain ⟨n, hn⟩ := Term.isGround_eq_false_iff.mp hground
    have hn := Term.mem_mentions_iff.mp hn
    refine ⟨n, mem_occurrences_iff.mpr (.inr (.inr (.inl ⟨_, hmem, ?_⟩))),
      (Fact.scoped_of_parse hparse').1 n hn⟩
    exact Fact.mem_occurrences_iff.mpr (.inl (List.mem_cons_of_mem _ hn))

/-- Every variable of an assertion is in its scope, or else out of any; and all of them are in its
scope exactly if there is no obligation with a variable in its object that is not stated. -/
theorem occurs_inScope_iff (s : Scope) (speaker : Entity) (claim : Claim) :
    (∀ v, (inScope s speaker claim).Occurs v → v.scope = s ∨ v.scope = .unscoped) ∧
    ((∀ v, (inScope s speaker claim).Occurs v → v.scope = s) ↔
      s = .unscoped ∨ ∀ text f, claim.Obliges speaker text f → Term.isGround f.object = true) := by
  refine ⟨?_, ?_, ?_⟩
  · rintro v ⟨m, hm, rfl⟩
    rcases scope_of_mem_occurrences hm with h | ⟨text, f, hf, hm⟩
    · exact .inl h
    · exact .inr ((Fact.scoped_of_parse hf.2.1).1 m hm)
  · intro h
    by_cases hs : s = .unscoped
    · exact .inl hs
    · refine .inr fun text f hf => ?_
      cases hground : Term.isGround f.object with
      | true => rfl
      | false =>
        obtain ⟨m, hm, hscope⟩ := exists_mem_occurrences (s := s) hf hground
        exact absurd ((h m.var ⟨m, hm, rfl⟩).symm.trans hscope) hs
  · rintro h v ⟨m, hm, rfl⟩
    rcases scope_of_mem_occurrences hm with hscope | ⟨text, f, hf, hobject⟩
    · exact hscope
    · rcases h with rfl | h
      · exact (Fact.scoped_of_parse hf.2.1).1 m hobject
      · exact absurd (Term.mem_mentions_iff.mpr hobject) (Term.isGround_iff.mp (h text f hf) m)

/-- A name that is none of a variable may carry a delegation into the text of an obligation. -/
theorem exists_occurs_unscoped :
    ¬ ∀ (s : Scope) (speaker : Entity) (claim : Claim) (v : Variable),
      (inScope s speaker claim).Occurs v → v.scope = s := by
  intro h
  have hmem : .var ⟨⟨"Y", .unscoped⟩, none⟩ ∈ (inScope ⟨7⟩ (.const ⟨"Alice"⟩)
      { consequent :=
        { subject := .var ⟨{ name := "X can-say 0 Y" }, some "Role"⟩
          object := .predicate "enters" [] } }).occurrences := by
    decide +kernel
  exact absurd (h _ _ _ _ ⟨_, hmem, rfl⟩) (by decide)

/-- No variable of legible parts stays out of scope. -/
theorem scope_of_occurs {levels : Nat} (hspeaker : speaker.Legible) (hclaim : claim.Readable levels)
    {v : Variable} (h : (inScope s speaker claim).Occurs v) : v.scope = s := by
  obtain ⟨m, hm, rfl⟩ := h
  rcases scope_of_mem_occurrences hm with h | ⟨text, f, ⟨⟨n, hn, htext⟩, hparse, -⟩, hobject⟩
  · exact h
  · have hlegible : (Entity.var n).Legible := by
      rcases List.mem_append.mp hn with hn | hn
      · cases List.mem_singleton.mp (Term.mem_mentions_iff.mp hn)
        exact hspeaker
      · exact hclaim.legible_of_mem (Term.mem_mentions_iff.mp hn)
    obtain ⟨type, -, hread⟩ := Obligation.exists_parseFact (o := ⟨n.var, text⟩) hlegible
      (Option.map_eq_some_iff.mpr ⟨text, htext, rfl⟩)
    rw [hread] at hparse
    cases hparse
    cases List.mem_singleton.mp hobject

end Assertion

end InScope

end AuthLogic
