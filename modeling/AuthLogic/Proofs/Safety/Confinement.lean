import AuthLogic.Proofs.Term.Ground
import AuthLogic.Safety

/-! # Safety as confinement

The safety conditions are about where variables occur. What they mean is about
substitutions: a variable is safe in a claim when every substitution that grounds
the flat antecedents grounds it, so that a flat consequent, the subject of a
delegating one and the constraint are ground once the antecedents are.
-/

namespace AuthLogic

open Term (Mentions isGround)

namespace Substitution

/-- Every flat antecedent of a claim becomes ground. -/
def GroundsFlat (θ : Substitution) (c : Claim) : Prop :=
  ∀ f ∈ c.antecedents, f.isFlat = true → isGround (θ.apply f) = true

end Substitution

open Substitution

namespace Claim

variable {c : Claim} {v : Variable}

def flatAntecedents (c : Claim) : List Fact :=
  c.antecedents.filter Fact.isFlat

theorem isSafeIn_iff : v.isSafeIn c = true ↔ Mentions c.flatAntecedents v := by
  simp only [Variable.isSafeIn, List.any_eq_true, Bool.and_eq_true, Term.contains_vars_iff,
    Term.mentions_list_iff, flatAntecedents, List.mem_filter, and_assoc]

theorem groundsFlat_iff {θ : Substitution} :
    θ.GroundsFlat c ↔ ∀ v : Variable, v.isSafeIn c = true → θ.Grounds v := by
  simp only [GroundsFlat, isGround_apply_iff, isSafeIn_iff, Term.mentions_list_iff,
    flatAntecedents, List.mem_filter]
  constructor
  · rintro h v ⟨f, ⟨hf, hflat⟩, hv⟩
    exact h f hf hflat v hv
  · exact fun h f hf hflat v hv => h v ⟨f, ⟨hf, hflat⟩, hv⟩

/-- The substitution that binds the variables of the flat antecedents, and those only. -/
theorem exists_groundsFlat (c : Claim) :
    ∃ θ : Substitution, θ.GroundsFlat c ∧
      ∀ v : Variable, θ.Grounds v → v.isSafeIn c = true := by
  have h (v : Variable) : (grounding (Term.vars c.flatAntecedents) default).Grounds v ↔
      v.isSafeIn c = true := by
    rw [grounds_grounding_iff, Term.contains_vars_iff, isSafeIn_iff]
  exact ⟨_, groundsFlat_iff.mpr fun v => (h v).mpr, fun v => (h v).mp⟩

theorem isSafeIn_iff_grounds :
    v.isSafeIn c = true ↔ ∀ θ : Substitution, θ.GroundsFlat c → θ.Grounds v := by
  constructor
  · exact fun h θ hθ => groundsFlat_iff.mp hθ v h
  · intro h
    obtain ⟨θ, hθ, hsafe⟩ := c.exists_groundsFlat
    exact hsafe v (h θ hθ)

theorem entity_isSafeIn_iff {e : Entity} :
    e.isSafeIn c = true ↔ ∀ θ : Substitution, θ.GroundsFlat c → ∃ k, θ.apply e = .const k := by
  cases e with
  | const k => exact ⟨fun _ _ _ => ⟨k, rfl⟩, fun _ => rfl⟩
  | var m =>
    change m.var.isSafeIn c = true ↔ ∀ θ : Substitution, θ.GroundsFlat c → ∃ k, θ.resolve m = _
    simp only [resolve_eq_const_iff]
    exact isSafeIn_iff_grounds

end Claim

namespace Assertion

variable {a : Assertion}

/-- A safety condition is met: no violation of it is reported. -/
def Meets (a : Assertion) (condition : String) : Prop :=
  ∀ x ∈ a.violations, x.condition ≠ condition

instance (a : Assertion) (condition : String) : Decidable (a.Meets condition) :=
  inferInstanceAs (Decidable (∀ x ∈ a.violations, x.condition ≠ condition))

theorem mem_violations {x : Violation} : x ∈ a.violations ↔ x ∈ a.claim.consequentViolations ∨
    x ∈ a.claim.constraintViolations ∨ x ∈ a.claim.antecedentViolations := by
  rw [violations, List.mem_append, List.mem_append, or_assoc]

theorem mem_constraintViolations_of_mem {c : Claim} {m : Mention}
    (hm : m ∈ (Term.vars c.constraint).entries)
    (h : ((Term.vars c.consequent).contains m.var || c.antecedentVars.contains m.var) = false) :
    .strayVariable m ∈ c.constraintViolations := by
  refine List.mem_map_of_mem (List.mem_filter.mpr ⟨hm, ?_⟩)
  rw [h, Bool.not_false]

theorem condition_of_mem_constraint {c : Claim} {x : Violation}
    (h : x ∈ c.constraintViolations) : x.condition = "2" := by
  obtain ⟨m, -, rfl⟩ := List.mem_map.mp h
  rfl

theorem condition_of_mem_antecedent {c : Claim} {x : Violation}
    (h : x ∈ c.antecedentViolations) : x.condition = "3" := by
  obtain ⟨f, -, rfl⟩ := List.mem_map.mp h
  rfl

theorem meets_iff_consequent {s : String} (h₂ : "2" ≠ s) (h₃ : "3" ≠ s) :
    a.Meets s ↔ ∀ x ∈ a.claim.consequentViolations, x.condition ≠ s := by
  constructor
  · exact fun h x hx => h x (mem_violations.mpr (.inl hx))
  · intro h x hx
    rcases mem_violations.mp hx with hx | hx | hx
    · exact h x hx
    · rwa [condition_of_mem_constraint hx]
    · rwa [condition_of_mem_antecedent hx]

theorem meets_1a_iff (hflat : a.claim.consequent.isFlat = true) :
    a.Meets "1a" ↔ ∀ v, Mentions a.claim.consequent v → v.isSafeIn a.claim = true := by
  rw [meets_iff_consequent (by decide) (by decide), Claim.consequentViolations, if_pos hflat]
  simp only [List.forall_mem_map, List.mem_filter, Bool.not_eq_true', Violation.condition,
    ne_eq, not_true_eq_false, imp_false, not_and, Bool.not_eq_false]
  constructor
  · intro h v hv
    obtain ⟨m, hm, rfl⟩ := Term.exists_mem_vars_iff.mpr hv
    exact h m hm
  · exact fun h m hm => h m.var (Term.exists_mem_vars_iff.mp ⟨m, hm, rfl⟩)

theorem meets_1b_iff (hsay : a.claim.consequent.isCanSay = true) :
    a.Meets "1b" ↔ a.claim.consequent.subject.isSafeIn a.claim = true := by
  have hflat : a.claim.consequent.isFlat = false := congrArg Bool.not hsay
  rw [meets_iff_consequent (by decide) (by decide), Claim.consequentViolations, hflat,
    if_neg Bool.false_ne_true]
  split
  case isTrue h => simp [h]
  case isFalse h => simp [h, Violation.condition]

/-- Without violations, the constraint has no variables beyond those of the antecedents. -/
theorem mentions_antecedents_of_safe (hflat : a.claim.consequent.isFlat = true)
    (h : a.violations = []) {v : Variable} (hv : Mentions a.claim.constraint v) :
    Mentions a.claim.antecedents v := by
  have hnone (x : Violation) : x ∉ a.violations := by simp [h]
  have hsafe : a.Meets "1a" := fun x hx => absurd hx (hnone x)
  obtain ⟨m, hm, rfl⟩ := Term.exists_mem_vars_iff.mpr hv
  have hbound : (Term.vars a.claim.consequent).contains m.var = true ∨
      a.claim.antecedentVars.contains m.var = true := by
    refine Classical.byContradiction fun hne => hnone (.strayVariable m) ?_
    refine mem_violations.mpr (.inr (.inl (mem_constraintViolations_of_mem hm ?_)))
    simpa using hne
  rcases hbound with hc | hc
  · have hsafe := (meets_1a_iff hflat).mp hsafe _ (Term.contains_vars_iff.mp hc)
    obtain ⟨f, hf, hv⟩ := Term.mentions_list_iff.mp (Claim.isSafeIn_iff.mp hsafe)
    exact Term.mentions_list_iff.mpr ⟨f, (List.mem_filter.mp hf).1, hv⟩
  · exact Term.contains_vars_iff.mp hc

/-- The safety check is exactly confinement by substitutions. -/
theorem violations_iff_confined (a : Assertion) :
    (a.claim.consequent.isFlat = true →
      (a.Meets "1a" ↔ ∀ θ : Substitution, θ.GroundsFlat a.claim →
        isGround (θ.apply a.claim.consequent) = true)) ∧
    (a.claim.consequent.isCanSay = true →
      (a.Meets "1b" ↔ ∀ θ : Substitution, θ.GroundsFlat a.claim →
        ∃ k, θ.apply a.claim.consequent.subject = .const k)) ∧
    (a.claim.consequent.isFlat = true → a.violations = [] → ∀ θ : Substitution,
      (∀ f ∈ a.claim.antecedents, isGround (θ.apply f) = true) →
        isGround (θ.apply a.claim.constraint) = true) := by
  refine ⟨fun hflat => ?_, fun hsay => ?_, fun hflat h θ hθ => ?_⟩
  · rw [meets_1a_iff hflat]
    simp only [Claim.isSafeIn_iff_grounds, isGround_apply_iff]
    constructor
    · exact fun h θ hθ v hv => h v hv θ hθ
    · exact fun h v hv θ hθ => h θ hθ v hv
  · rw [meets_1b_iff hsay]
    exact Claim.entity_isSafeIn_iff
  · rw [isGround_apply_iff]
    intro v hv
    obtain ⟨f, hf, hv⟩ := Term.mentions_list_iff.mp (mentions_antecedents_of_safe hflat h hv)
    exact isGround_apply_iff.mp (hθ f hf) v hv

/-- `X reads F if X is-a Employee, F is-a Document where X = F`, and the delegation
`D can-say inf X can-act-as Admin`, of which nothing confines the subject. -/
theorem violations_iff_confined_reads :
    let entity (n : String) : Entity := .var ⟨⟨n, ⟨1⟩⟩, none⟩
    let isA (e : Entity) (c : String) : Fact := ⟨e, .predicate "is-a" [.const ⟨c⟩], none⟩
    let x := entity "X"
    let f := entity "F"
    let alice : Entity := .const ⟨"Alice"⟩
    let a : Assertion := ⟨alice, ⟨⟨x, .predicate "reads" [f], none⟩,
      [isA x "Employee", isA f "Document"], .binary .eq (.entity x) (.entity f)⟩, ⟨1⟩⟩
    let b : Assertion := ⟨alice,
      ⟨⟨entity "D", .canSay .unbounded x (.canActAs ⟨"Admin"⟩) none, none⟩, [], .trivial⟩, ⟨1⟩⟩
    (a.claim.consequent.isFlat = true ∧ a.violations = [] ∧
      (a.Meets "1a" ↔ ∀ θ : Substitution, θ.GroundsFlat a.claim →
        isGround (θ.apply a.claim.consequent) = true) ∧
      ∀ θ : Substitution, (∀ f ∈ a.claim.antecedents, isGround (θ.apply f) = true) →
        isGround (θ.apply a.claim.constraint) = true) ∧
    b.claim.consequent.isCanSay = true ∧
      (b.Meets "1b" ↔ ∀ θ : Substitution, θ.GroundsFlat b.claim →
        ∃ k, θ.apply b.claim.consequent.subject = .const k) := by
  intro entity isA x f alice a b
  have ha := violations_iff_confined a
  have hb := violations_iff_confined b
  have hsafe : a.violations = [] := by decide
  exact ⟨⟨rfl, hsafe, ha.1 rfl, ha.2.2 rfl hsafe⟩, rfl, hb.2.1 rfl⟩

end Assertion

end AuthLogic
