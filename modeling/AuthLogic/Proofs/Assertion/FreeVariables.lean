import AuthLogic.Proofs.Assertion.Speakers
import AuthLogic.Proofs.Policy.Partition
import AuthLogic.Proofs.Substitution.Succession
import AuthLogic.Proofs.Syntax.PolicyReading
import AuthLogic.Proofs.Term.Stamping
import AuthLogic.Proofs.Unification.Bindings

/-! # Free variables

Substitutions put the end of a walk in place of every variable that a term
mentions, and what it mentions after that is what stands there, in order. They
also reach the speakers that are recorded on facts, of which the term does not
speak. But where texts are the source of all facts, only the speaker of the
assertion is recorded, and so its instances depend on the variables that it
mentions.
-/

namespace AuthLogic

open Term (Same mentions)

/-! ## Assertions from texts -/

/-- What texts are read as has no speakers recorded on it. -/
theorem AssertionTree.recorded_value (d : AssertionTree) :
    ∀ f ∈ d.value.2.consequent :: d.value.2.antecedents, f.recorded = [] := by
  refine List.forall_mem_cons.mpr ⟨d.claim.consequent.scoped_value.2, fun f hf => ?_⟩
  obtain ⟨g, -, rfl⟩ := List.mem_map.mp hf
  exact g.scoped_value.2

/-- Facts that are read from texts, alone or as parts of assertions. -/
inductive Fact.FromText : Fact → Prop

  | fact {text : String} {f : Fact} : parseFact text = .ok f → FromText f

  | assertion {levels : Nat} {text : String} {speaker : Entity} {claim : Claim} {f : Fact} :
      parseAssertion levels text = .ok (speaker, claim) →
      f ∈ claim.consequent :: claim.antecedents → FromText f

  | policy {levels : Nat} {text : String} {parts : List (Entity × Claim)} {speaker : Entity}
      {claim : Claim} {f : Fact} :
      parsePolicy levels text = .ok parts → (speaker, claim) ∈ parts →
      f ∈ claim.consequent :: claim.antecedents → FromText f

theorem Fact.FromText.recorded_eq_nil {f : Fact} (h : f.FromText) : f.recorded = [] := by
  cases h with
  | fact h => exact (unscoped_of_parse h).2
  | assertion h hf =>
    obtain ⟨ls, -, hread⟩ := parseAssertion_eq_ok_iff.mp h
    obtain ⟨d, -, -, hd⟩ := Parser.assertion_eq_ok_iff.mp hread
    refine d.recorded_value f ?_
    rwa [hd]
  | policy h hpart hf =>
    obtain ⟨ls, -, hread⟩ := parsePolicy_eq_ok_iff.mp h
    obtain ⟨d, -, -, rfl⟩ := Parser.policy_eq_ok_iff.mp hread
    obtain ⟨e, -, he⟩ := List.mem_map.mp hpart
    refine e.recorded_value f ?_
    rwa [he]

/-- A claim about facts from texts, under any constraint. -/
def Claim.FromTexts (c : Claim) : Prop :=
  ∀ f ∈ c.consequent :: c.antecedents, f.FromText

namespace Assertion

/-- What the constructors of assertions build of facts from texts, and what becomes of it when it is
placed, instantiated or cut down to its consequent. -/
inductive FromTexts : Assertion → Prop

  | inScope (scope : Scope) (speaker : Entity) {claim : Claim} :
      claim.FromTexts → FromTexts (inScope scope speaker claim)

  | new (speaker : Entity) {claim : Claim} (scopes : ScopeSupply) :
      claim.FromTexts → FromTexts (Assertion.new speaker claim scopes).1

  | ofFact (speaker : Entity) {consequent : Fact} (scopes : ScopeSupply) :
      consequent.FromText → FromTexts (ofFact speaker consequent scopes).1

  | canActAs (speaker subject : Entity) (role : Constant) (scopes : ScopeSupply) :
      FromTexts (canActAs speaker subject role scopes).1

  | canSay (speaker : Entity) (delegate : Constant) (depth : Depth) {fact : Fact}
      (scopes : ScopeSupply) :
      fact.FromText → FromTexts (canSay speaker delegate depth fact scopes).1

  | parse {levels : Nat} {text : String} {scopes scopes' : ScopeSupply} {a : Assertion} :
      parse levels text scopes = .ok (a, scopes') → FromTexts a

  | policy {levels : Nat} {text : String} {scopes scopes' : ScopeSupply} {as : List Assertion}
      {a : Assertion} : Policy.parse levels text scopes = .ok (as, scopes') → a ∈ as → FromTexts a

  | change {a : Assertion} (c : Change) : FromTexts a → FromTexts (c.run a)

variable {a : Assertion}

theorem records_inScope (scope : Scope) (speaker : Entity) {claim : Claim}
    (h : ∀ f ∈ claim.consequent :: claim.antecedents, f.recorded = []) :
    (inScope scope speaker claim).RecordsSpeaker ∧
      (inScope scope speaker claim).RecordsNoOther := by
  obtain ⟨hconsequent, hantecedents⟩ := List.forall_mem_cons.mp h
  exact ⟨recordsSpeaker_inScope scope speaker claim,
    recordsNoOther_inScope scope speaker claim hconsequent
      fun f hf => (List.append_eq_nil_iff.mp (hantecedents f hf)).2⟩

/-- Only the speaker is recorded, and only on antecedents. -/
theorem FromTexts.records (h : a.FromTexts) : a.RecordsSpeaker ∧ a.RecordsNoOther := by
  induction h with
  | inScope scope speaker h =>
    exact records_inScope scope speaker fun f hf => (h f hf).recorded_eq_nil
  | new speaker scopes h => exact records_inScope _ speaker fun f hf => (h f hf).recorded_eq_nil
  | ofFact speaker scopes h =>
    exact records_inScope _ speaker (List.forall_mem_singleton.mpr h.recorded_eq_nil)
  | canActAs speaker subject role scopes =>
    exact records_inScope _ speaker (List.forall_mem_singleton.mpr rfl)
  | canSay speaker delegate depth scopes h =>
    exact records_inScope _ speaker (List.forall_mem_singleton.mpr h.recorded_eq_nil)
  | parse h =>
    obtain ⟨speaker, claim, hparse, rfl, -⟩ := parse_eq_ok h
    exact records_inScope _ speaker fun f hf => (Fact.FromText.assertion hparse hf).recorded_eq_nil
  | policy h ha =>
    obtain ⟨parts, hparse, rfl, -⟩ := Policy.parse_eq_ok_iff.mp h
    obtain ⟨i, hi, rfl⟩ := List.mem_mapIdx.mp ha
    exact records_inScope _ _ fun f hf =>
      (Fact.FromText.policy hparse (List.getElem_mem hi) hf).recorded_eq_nil
  | change c _ ih => exact ⟨ih.1.run c, ih.2.run c⟩

theorem FromTexts.mem_mentions (h : a.FromTexts) {m : Mention} (hm : .var m ∈ a.occurrences) :
    m ∈ mentions a :=
  Term.mem_mentions_iff.mpr (mem_entities_of_mem_occurrences h.records.1 h.records.2 hm)

end Assertion

/-! ## Walks of several substitutions -/

namespace Substitution

variable {θ η : Substitution} {v : Variable} {m : Mention} {e d : Entity}

/-- A walk that ends is the same where the variables that it comes to are bound to the same. -/
theorem Ends.congr (h : θ.Ends e d)
    (hself : ∀ m, e = .var m → θ.get? m.var = η.get? m.var)
    (hget : ∀ m, e = .var m → ∀ n, θ.Leads m.var (.var n) → θ.get? n.var = η.get? n.var) :
    η.Ends e d := by
  induction h with
  | @free e hfree =>
    refine .free fun m hm => ?_
    rw [← hself m hm]
    exact hfree m hm
  | @binding m e d hm _ ih =>
    refine .binding ((hself m rfl).symm.trans hm) (ih ?_ ?_)
    · rintro n rfl
      exact hget m rfl n (.binding hm)
    · rintro n rfl k hk
      exact hget m rfl k (.further hm hk)

theorem resolve_congr (h : θ.Acyclic) (hself : θ.get? m.var = η.get? m.var)
    (hget : ∀ n, θ.Leads m.var (.var n) → θ.get? n.var = η.get? n.var) :
    θ.resolve m = η.resolve m := by
  have hends : η.Ends (.var m) (θ.resolve m) := by
    refine (h.ends (.var m)).congr ?_ ?_
    · rintro _ ⟨⟩
      exact hself
    · rintro _ ⟨⟩
      exact hget
  exact hends.replace_resolve.symm

/-- A term mentions a variable, or bindings lead to it from one that the term mentions. -/
def Reaches {τ : Type} [Term τ] (θ : Substitution) (t : τ) (v : Variable) : Prop :=
  ∃ m ∈ mentions t, m.var = v ∨ ∃ n, θ.Leads m.var (.var n) ∧ n.var = v

/-- What is reached is mentioned or stands at the right of a binding. -/
theorem Reaches.elim {τ : Type} [Term τ] {t : τ} (h : θ.Reaches t v) (P : Variable → Prop)
    (hmentions : ∀ m ∈ mentions t, P m.var)
    (hbindings : ∀ b ∈ θ.toList, ∀ m, b.term = .var m → P m.var) : P v := by
  have hleads {w : Variable} {e : Entity} (h : θ.Leads w e) : ∀ m, e = .var m → P m.var := by
    induction h with
    | binding hv =>
      obtain ⟨b, hb, -, rfl⟩ := get?_eq_some_iff.mp hv
      exact hbindings b hb
    | further _ _ ih => exact ih
  obtain ⟨m, hm, rfl | ⟨n, hn, rfl⟩⟩ := h
  · exact hmentions m hm
  · exact hleads hn n rfl

end Substitution

namespace Assertion

variable {a : Assertion} {θ η : Substitution}

theorem FromTexts.apply_congr (h : a.FromTexts) (hθ : ∀ m ∈ mentions a, θ.resolve m = η.resolve m) :
    θ.apply a = η.apply a := by
  rw [θ.apply_eq_replace, η.apply_eq_replace]
  exact replace_congr fun m hm => hθ m (h.mem_mentions hm)

/-- What a term mentions after a substitution is, in order, what stands for its variables. Two
substitutions that agree on the variables that an assertion from texts mentions have equal results
on it. They do if they bind the variables alike that bindings lead to from there. -/
theorem apply_determined :
    (∀ {τ : Type} [Term τ] (t : τ) (θ : Substitution), mentions (θ.apply t) =
      (mentions t).filterMap fun m => ((θ.resolve? m.var).getD (.var m)).mention?) ∧
    ∀ a : Assertion, a.FromTexts → ∀ θ η : Substitution,
      ((∀ m ∈ mentions a, Same (θ.resolve m) (η.resolve m)) → Same (θ.apply a) (η.apply a)) ∧
      ((∀ m ∈ mentions a, θ.resolve m = η.resolve m) → θ.apply a = η.apply a) ∧
      (θ.Acyclic → (∀ v, θ.Reaches a v → θ.get? v = η.get? v) → θ.apply a = η.apply a) := by
  refine ⟨fun t θ => ?_, fun a h θ η => ⟨fun hsame => ?_, h.apply_congr,
    fun hacyclic hget => h.apply_congr fun m hm => ?_⟩⟩
  · rw [θ.apply_eq_replace]
    exact Term.mentions_replace _ t
  · rw [θ.apply_eq_replace, η.apply_eq_replace]
    exact Searchable.same_replace fun m hm => hsame m (h.mem_mentions hm)
  · exact Substitution.resolve_congr hacyclic (hget _ ⟨m, hm, .inl rfl⟩)
      fun n hn => hget _ ⟨m, hm, .inr ⟨n, hn, rfl⟩⟩

/-- A binding that is not reached, next to a chain of two that are. -/
theorem apply_determined_chain :
    let x : Mention := ⟨⟨"X", ⟨1⟩⟩, none⟩
    let y : Mention := ⟨⟨"Y", ⟨1⟩⟩, none⟩
    let w : Mention := ⟨⟨"X", ⟨2⟩⟩, none⟩
    let θ := Substitution.ofList [⟨x, .const ⟨"Eve"⟩⟩, ⟨y, .var x⟩]
    let η := θ.insert ⟨w, .const ⟨"Hr"⟩⟩
    ∃ a, parse 64 "X:Doctor says Y enters if Z knows Y." {} = .ok (a, ⟨⟨1⟩⟩) ∧ a.FromTexts ∧
      θ.Acyclic ∧ (∀ v, θ.Reaches a v → θ.get? v = η.get? v) ∧ θ ≠ η ∧
      (∀ m ∈ mentions a, θ.resolve m = η.resolve m) ∧ Same (θ.apply a) (η.apply a) ∧
      θ.apply a = η.apply a ∧ (mentions (θ.apply a)).map (·.var.name) = ["Z"] := by
  intro x y w θ η
  let text := "X:Doctor says Y enters if Z knows Y."
  let a := ((parse 64 text {}).toOption.getD default).1
  have hparse : parse 64 text {} = .ok (a, ⟨⟨1⟩⟩) :=
    Parser.toOption_eq_some_iff.mp (by decide +kernel)
  have ha : a.FromTexts := .parse hparse
  have hlist : θ.toList = [⟨x, .const ⟨"Eve"⟩⟩, ⟨y, .var x⟩] := by decide +kernel
  have hbindings : ∀ b ∈ θ.toList, ∀ m, b.term = .var m → m = x ∧ b = ⟨y, .var x⟩ := by
    rw [hlist]
    refine List.forall_mem_cons.mpr ⟨?_, List.forall_mem_singleton.mpr ?_⟩
    · rintro m ⟨⟩
    · rintro m ⟨⟩
      exact ⟨rfl, rfl⟩
  have hacyclic : θ.Acyclic := by
    refine Substitution.Downward.not_onCycle fun b hb m hm => ?_
    obtain ⟨rfl, rfl⟩ := hbindings b hb m hm
    decide +kernel
  have hget (v : Variable) (hv : θ.Reaches a v) : θ.get? v = η.get? v := by
    have hscope : v.scope = ⟨1⟩ := by
      refine hv.elim (·.scope = ⟨1⟩) (by decide +kernel) fun b hb m hm => ?_
      rw [(hbindings b hb m hm).1]
    refine (Substitution.get?_insert_of_ne θ ?_).symm
    rintro rfl
    cases hscope
  have hresolve : ∀ m ∈ mentions a, θ.resolve m = η.resolve m := by decide +kernel
  obtain ⟨hmentions, hequal⟩ := apply_determined
  obtain ⟨hsame, -, heq⟩ := hequal a ha θ η
  refine ⟨a, hparse, ha, hacyclic, hget, by decide +kernel, hresolve,
    hsame fun m hm => congrArg Term.untyped (hresolve m hm), heq hacyclic hget, ?_⟩
  rw [hmentions]
  decide +kernel

/-- A speaker that is recorded on a consequent is replaced with it, but the assertion does not speak
of that one. -/
theorem exists_apply_ne :
    ∃ (a : Assertion) (θ η : Substitution), (∀ m ∈ mentions a, θ.resolve m = η.resolve m) ∧
      ¬ Same (θ.apply a) (η.apply a) := by
  let x : Mention := ⟨⟨"X", ⟨1⟩⟩, none⟩
  let eve : Entity := .const ⟨"Eve"⟩
  exact ⟨⟨eve, { consequent := ⟨eve, .predicate "enters" [], some (.var x)⟩ }, ⟨1⟩⟩,
    .singleton x eve, .empty, by decide, by decide⟩

end Assertion

end AuthLogic
