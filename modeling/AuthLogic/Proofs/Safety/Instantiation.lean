import AuthLogic.Proofs.Safety.Confinement

/-! # Safety of instances

A substitution may identify variables, ground them, or bring in variables of
other assertions. What is mentioned afterwards is what the variables mentioned
before resolve to, in the consequent, in the flat antecedents and in the
constraint alike, and so an instance breaks no safety condition that the
assertion itself meets.
-/

namespace AuthLogic

open Term (Mentions)

namespace Substitution

variable {τ : Type} [Term τ] {θ : Substitution}

/-- A variable resolves to a variable, which is itself if the variable is unbound. -/
def Sends (θ : Substitution) (v w : Variable) : Prop :=
  ∃ n, θ.resolve ⟨v, none⟩ = .var n ∧ n.var = w

theorem sends_iff {m : Mention} {w : Variable} :
    θ.Sends m.var w ↔ ∃ n, θ.resolve m = .var n ∧ n.var = w := by
  simp only [Sends, resolve]
  cases θ.resolve? m.var with
  | none =>
    constructor
    · rintro ⟨n, hn, rfl⟩
      cases hn
      exact ⟨m, rfl, rfl⟩
    · rintro ⟨n, hn, rfl⟩
      cases hn
      exact ⟨⟨m.var, none⟩, rfl, rfl⟩
  | some e => rfl

theorem mentions_apply_iff {t : τ} {w : Variable} :
    Mentions (θ.apply t) w ↔ ∃ v, Mentions t v ∧ θ.Sends v w := by
  simp only [Mentions, apply_eq_replace, Term.mentions_replace, List.mem_filterMap,
    Entity.mention?_eq_some_iff]
  constructor
  · rintro ⟨n, ⟨m, hm, hn⟩, rfl⟩
    exact ⟨m.var, ⟨m, hm, rfl⟩, sends_iff.mpr ⟨n, hn, rfl⟩⟩
  · rintro ⟨v, ⟨m, hm, rfl⟩, hs⟩
    obtain ⟨n, hn, rfl⟩ := sends_iff.mp hs
    exact ⟨n, ⟨m, hm, hn⟩, rfl⟩

theorem exists_mentions_of_mem_vars {t : τ} {m : Mention} (h : m ∈ (Term.vars (θ.apply t)).entries) :
    ∃ n ∈ (Term.vars t).entries, θ.Sends n.var m.var := by
  obtain ⟨v, hv, hs⟩ := mentions_apply_iff.mp (Term.exists_mem_vars_iff.mp ⟨m, h, rfl⟩)
  obtain ⟨n, hn, rfl⟩ := Term.exists_mem_vars_iff.mpr hv
  exact ⟨n, hn, hs⟩

theorem contains_vars_apply {t : τ} {v w : Variable} (h : (Term.vars t).contains v = true)
    (hs : θ.Sends v w) : (Term.vars (θ.apply t)).contains w = true :=
  Term.contains_vars_iff.mpr (mentions_apply_iff.mpr ⟨v, Term.contains_vars_iff.mp h, hs⟩)

end Substitution

open Substitution

theorem Fact.isFlat_apply (θ : Substitution) (f : Fact) : (θ.apply f).isFlat = f.isFlat := by
  obtain ⟨subject, object, speaker?⟩ := f
  cases object <;> rfl

namespace Claim

variable {c : Claim} {θ : Substitution} {v w : Variable}

theorem flatAntecedents_apply (θ : Substitution) (c : Claim) :
    (θ.apply c).flatAntecedents = θ.apply c.flatAntecedents := by
  change ((c.antecedents.map θ.apply).filter _) = (c.antecedents.filter _).map θ.apply
  rw [List.filter_map]
  exact congrArg _ (List.filter_congr fun f _ => f.isFlat_apply θ)

/-- The variables that are safe in an instance are those that safe variables resolve to. -/
theorem isSafeIn_apply_iff :
    w.isSafeIn (θ.apply c) = true ↔ ∃ v, v.isSafeIn c = true ∧ θ.Sends v w := by
  simp only [isSafeIn_iff, flatAntecedents_apply, mentions_apply_iff]

theorem entity_isSafeIn_apply {e : Entity} (h : e.isSafeIn c = true) :
    (θ.apply e).isSafeIn (θ.apply c) = true := by
  cases e with
  | const k => rfl
  | var m =>
    cases hm : θ.resolve m with
    | const k => exact congrArg (Entity.isSafeIn · (θ.apply c)) hm
    | var n =>
      have hn : θ.apply (Entity.var m) = .var n := hm
      rw [hn]
      exact isSafeIn_apply_iff.mpr ⟨m.var, h, sends_iff.mpr ⟨n, hm, rfl⟩⟩

/-! ## Where the violations of an instance come from -/

variable {y : Violation}

theorem exists_mem_consequentViolations (h : y ∈ (θ.apply c).consequentViolations) :
    ∃ x ∈ c.consequentViolations, x.condition = y.condition := by
  have hflat : (θ.apply c).consequent.isFlat = c.consequent.isFlat := c.consequent.isFlat_apply θ
  rw [consequentViolations, hflat] at h
  rw [consequentViolations]
  split at h
  case isTrue hc =>
    obtain ⟨m, hm, rfl⟩ := List.mem_map.mp h
    obtain ⟨hm, hsafe⟩ := List.mem_filter.mp hm
    obtain ⟨n, hn, hs⟩ := exists_mentions_of_mem_vars hm
    have hloose : (!n.var.isSafeIn c) = true := by
      rw [Bool.not_eq_true'] at hsafe ⊢
      exact Bool.eq_false_iff.mpr fun hn =>
        Bool.eq_false_iff.mp hsafe (isSafeIn_apply_iff.mpr ⟨_, hn, hs⟩)
    rw [if_pos hc]
    exact ⟨_, List.mem_map_of_mem (List.mem_filter.mpr ⟨hn, hloose⟩), rfl⟩
  case isFalse hc =>
    rw [if_neg hc]
    split at h
    case isTrue => cases h
    case isFalse hsafe =>
      rw [List.mem_singleton.mp h, if_neg fun hs => hsafe (entity_isSafeIn_apply hs)]
      exact ⟨_, List.mem_singleton_self _, rfl⟩

theorem exists_mem_constraintViolations (h : y ∈ (θ.apply c).constraintViolations) :
    ∃ x ∈ c.constraintViolations, x.condition = y.condition := by
  obtain ⟨m, hm, rfl⟩ := List.mem_map.mp h
  obtain ⟨hm, hstray⟩ := List.mem_filter.mp hm
  obtain ⟨n, hn, hs⟩ := exists_mentions_of_mem_vars hm
  refine ⟨_, Assertion.mem_constraintViolations_of_mem hn ?_, rfl⟩
  rw [Bool.not_eq_true', Bool.or_eq_false_iff, Bool.eq_false_iff, Bool.eq_false_iff] at hstray
  rw [Bool.or_eq_false_iff, Bool.eq_false_iff, Bool.eq_false_iff]
  exact ⟨fun hc => hstray.1 (contains_vars_apply hc hs),
    fun hc => hstray.2 (contains_vars_apply hc hs)⟩

theorem exists_mem_antecedentViolations (h : y ∈ (θ.apply c).antecedentViolations) :
    ∃ x ∈ c.antecedentViolations, x.condition = y.condition := by
  obtain ⟨f, hf, rfl⟩ := List.mem_map.mp h
  obtain ⟨hf, hnested⟩ := List.mem_filter.mp hf
  obtain ⟨g, hg, rfl⟩ := List.mem_map.mp hf
  have hnested : (!g.isFlat) = true := (congrArg Bool.not (g.isFlat_apply θ)).symm.trans hnested
  exact ⟨_, List.mem_map_of_mem (List.mem_filter.mpr ⟨hg, hnested⟩), rfl⟩

end Claim

namespace Assertion

theorem exists_mem_violations {a : Assertion} {θ : Substitution} {y : Violation}
    (h : y ∈ (θ.apply a).violations) : ∃ x ∈ a.violations, x.condition = y.condition := by
  have hclaim : (θ.apply a).claim = θ.apply a.claim := rfl
  simp only [mem_violations, hclaim] at h ⊢
  rcases h with h | h | h
  · obtain ⟨x, hx, he⟩ := Claim.exists_mem_consequentViolations h
    exact ⟨x, .inl hx, he⟩
  · obtain ⟨x, hx, he⟩ := Claim.exists_mem_constraintViolations h
    exact ⟨x, .inr (.inl hx), he⟩
  · obtain ⟨x, hx, he⟩ := Claim.exists_mem_antecedentViolations h
    exact ⟨x, .inr (.inr hx), he⟩

/-- An instance of a safe assertion is safe, and an instance of any assertion meets the conditions
that the assertion meets. -/
theorem violations_apply (a : Assertion) (θ : Substitution) :
    (a.violations = [] → (θ.apply a).violations = []) ∧
      ∀ condition, a.Meets condition → (θ.apply a).Meets condition := by
  constructor
  · intro h
    refine List.eq_nil_iff_forall_not_mem.mpr fun y hy => ?_
    obtain ⟨x, hx, -⟩ := exists_mem_violations hy
    exact List.eq_nil_iff_forall_not_mem.mp h x hx
  · intro condition h y hy
    obtain ⟨x, hx, he⟩ := exists_mem_violations hy
    exact he ▸ h x hx

/-- A chain into the scope of another assertion and a cycle: `X` resolves to `Y` of scope 7 and `F`
to itself. The delegation is not safe, but meets condition 2 before and after. -/
theorem violations_apply_reads :
    let entity (n : String) (s : UInt64) : Entity := .var ⟨⟨n, ⟨s⟩⟩, none⟩
    let isA (e : Entity) (c : String) : Fact := ⟨e, .predicate "is-a" [.const ⟨c⟩], none⟩
    let x := entity "X" 1
    let f := entity "F" 1
    let alice : Entity := .const ⟨"Alice"⟩
    let θ := Substitution.ofList [⟨⟨⟨"X", ⟨1⟩⟩, none⟩, entity "Z" 1⟩,
      ⟨⟨⟨"Z", ⟨1⟩⟩, none⟩, entity "Y" 7⟩, ⟨⟨⟨"F", ⟨1⟩⟩, none⟩, entity "G" 1⟩,
      ⟨⟨⟨"G", ⟨1⟩⟩, none⟩, entity "F" 1⟩]
    let a : Assertion := ⟨alice, ⟨⟨x, .predicate "reads" [f], none⟩,
      [isA x "Employee", isA f "Document"], .binary .eq (.entity x) (.entity f)⟩, ⟨1⟩⟩
    let b : Assertion := ⟨alice,
      ⟨⟨x, .canSay .unbounded f (.canActAs ⟨"Admin"⟩) none, none⟩, [], .entity f⟩, ⟨1⟩⟩
    a.violations = [] ∧ (θ.apply a).claim.consequent = ⟨entity "Y" 7, .predicate "reads" [f], none⟩ ∧
      (θ.apply a).violations = [] ∧ b.violations ≠ [] ∧ b.Meets "2" ∧ (θ.apply b).Meets "2" := by
  intro entity isA x f alice θ a b
  have ha : a.violations = [] := by decide
  have hb : b.Meets "2" := by decide
  exact ⟨ha, by decide, (violations_apply a θ).1 ha, by decide, hb,
    (violations_apply b θ).2 "2" hb⟩

end Assertion

end AuthLogic
