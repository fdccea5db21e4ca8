import AuthLogic.Proofs.Assertion.Roundtrip
import AuthLogic.Proofs.Constraint.Height
import AuthLogic.Proofs.Syntax.Derivability

/-! # Heights of assertions

The levels that an assertion is read with bound the height of its facts. They do
not bound the height of its constraint: all operands of a chain are read at one
level, and grouped from the left. A constraint is as high as its longest run of
one operator, up to a factor that the levels determine.
-/

namespace AuthLogic

/-- The number of facts inside of one another, the outermost one included. -/
def Fact.height (f : Fact) : Nat :=
  f.object.nesting + 1

/-! ## Derivations -/

section Comparator

variable {l r : Constraint} {op : Comparator} {n : Nat}

theorem Comparator.longestRun_le (h : (op.value l r).longestRun ≤ n) :
    l.longestRun ≤ n ∧ r.longestRun ≤ n := by
  cases op <;> simp only [value, Constraint.longestRun] at h <;> omega

theorem Comparator.height_value_le (hl : l.height ≤ n) (hr : r.height ≤ n) :
    (op.value l r).height ≤ n + 2 := by
  cases op <;> simp only [value, Constraint.height] <;> omega

end Comparator

mutual

theorem ConstraintTree.height_value_le : ∀ (d : ConstraintTree) {n w : Nat}, d.nesting ≤ n →
    d.value.longestRun ≤ w → d.value.height ≤ (2 * w + 3) * n
  | .disjunction first rest, 0, w, hn, _ => by
    rw [ConstraintTree.nesting] at hn
    cases hn
  | .disjunction first rest, n + 1, w, hn, hw => by
    obtain ⟨hfirst, hrest⟩ := ConstraintTree.nesting_disjunction_le_iff.mp hn
    have hoperands : ∀ d ∈ rest, d.value.longestRun ≤ w →
        d.value.height ≤ (2 * w + 3) * n + 3 + w :=
      fun d hd => d.height_value_le (hrest d hd)
    rw [ConstraintTree.value] at hw ⊢
    have := Constraint.height_foldl_le_of_longestRun hw (first.height_value_le hfirst)
      (List.forall_mem_map.mpr hoperands)
    rw [Nat.mul_succ]
    omega

theorem ConjunctionTree.height_value_le : ∀ (d : ConjunctionTree) {n w : Nat}, d.nesting ≤ n →
    d.value.longestRun ≤ w → d.value.height ≤ (2 * w + 3) * n + 3 + w
  | .conjunction first rest, n, w, hn, hw => by
    obtain ⟨hfirst, hrest⟩ := ConjunctionTree.nesting_conjunction_le_iff.mp hn
    have hoperands : ∀ d ∈ rest, d.value.longestRun ≤ w →
        d.value.height ≤ (2 * w + 3) * n + 3 :=
      fun d hd => d.height_value_le (hrest d hd)
    rw [ConjunctionTree.value] at hw ⊢
    exact Constraint.height_foldl_le_of_longestRun hw (first.height_value_le hfirst)
      (List.forall_mem_map.mpr hoperands)

theorem NegationTree.height_value_le : ∀ (d : NegationTree) {n w : Nat}, d.nesting ≤ n →
    d.value.longestRun ≤ w → d.value.height ≤ (2 * w + 3) * n + 3
  | .not operand, 0, w, hn, _ => by
    rw [NegationTree.nesting] at hn
    cases hn
  | .not operand, n + 1, w, hn, hw => by
    rw [NegationTree.nesting] at hn
    rw [NegationTree.value, Constraint.longestRun] at hw
    have := operand.height_value_le (Nat.le_of_succ_le_succ hn) hw
    rw [NegationTree.value, Constraint.height, Nat.mul_succ]
    omega
  | .comparison d, n, w, hn, hw => by
    rw [NegationTree.nesting] at hn
    rw [NegationTree.value] at hw ⊢
    exact d.height_value_le hn hw

theorem ComparisonTree.height_value_le : ∀ (d : ComparisonTree) {n w : Nat}, d.nesting ≤ n →
    d.value.longestRun ≤ w → d.value.height ≤ (2 * w + 3) * n + 3
  | .atom d, n, w, hn, hw => by
    rw [ComparisonTree.nesting] at hn
    rw [ComparisonTree.value] at hw ⊢
    have := d.height_value_le hn hw
    omega
  | .compare left op right, n, w, hn, hw => by
    rw [ComparisonTree.nesting, Nat.max_le] at hn
    rw [ComparisonTree.value] at hw ⊢
    obtain ⟨hl, hr⟩ := op.longestRun_le hw
    exact op.height_value_le (left.height_value_le hn.1 hl) (right.height_value_le hn.2 hr)

theorem AtomTree.height_value_le : ∀ (d : AtomTree) {n w : Nat}, d.nesting ≤ n →
    d.value.longestRun ≤ w → d.value.height ≤ (2 * w + 3) * n + 1
  | .bool _, n, w, _, _ | .int _, n, w, _, _ | .string _, n, w, _, _ | .name _, n, w, _, _ => by
    simp [AtomTree.value, Constraint.height]
  | .call name args, n, w, hn, hw => by
    have hn := AtomTree.nesting_call_le_iff.mp hn
    rw [AtomTree.value, Constraint.longestRun, Constraint.longestRunList_le_iff,
      List.forall_mem_map] at hw
    rw [AtomTree.value, Constraint.height, Nat.add_le_add_iff_right, Constraint.heightList_le_iff,
      List.forall_mem_map]
    exact fun d hd => d.height_value_le (hn d hd) (hw d hd)
  | .parenthesized inner, n, w, hn, hw => by
    rw [AtomTree.nesting] at hn
    rw [AtomTree.value] at hw ⊢
    exact Nat.le_succ_of_le (inner.height_value_le hn hw)

end

/-! ## Assertions -/

theorem ClaimTree.height_constraint_le {d : ClaimTree} {n : Nat} (h : d.nesting ≤ n) :
    d.value.constraint.height ≤ (2 * d.value.constraint.longestRun + 3) * n := by
  obtain ⟨hconsequent, -, hconstraint⟩ := nesting_le_iff.mp h
  obtain ⟨consequent, antecedents, constraint?⟩ := d
  cases constraint? with
  | none =>
    have hpos : 0 < n := Nat.lt_of_lt_of_le (Nat.succ_pos _) hconsequent
    have hle : 1 ≤ (2 * 0 + 3) * n := by omega
    exact hle
  | some c => exact c.height_value_le (hconstraint c rfl) (Nat.le_refl _)

namespace Assertion

variable {levels : Nat} {text : String} {scopes scopes' : ScopeSupply} {a : Assertion}

/-- What is read is what some derivation stands for, placed in the next scope. -/
theorem parse_eq_ok_iff_derived :
    parse levels text scopes = .ok (a, scopes') ↔
      ∃ ls, Lexeme.ofText text = .ok ls ∧ ∃ d : AssertionTree, d.Admissible ∧ d.nesting ≤ levels ∧
        d.tokens = ls.map Lexeme.token ∧
        a = inScope scopes.next.1 d.speaker.value d.claim.value ∧ scopes' = scopes.next.2 := by
  rw [parse_eq_ok_iff]
  simp only [parseAssertion_eq_ok_iff, Parser.assertion_eq_ok_iff]
  constructor
  · rintro ⟨speaker, claim, ⟨ls, hls, d, ⟨hd, hn⟩, htokens, hvalue⟩, ha, hs⟩
    cases hvalue
    exact ⟨ls, hls, d, hd, hn, htokens, ha, hs⟩
  · rintro ⟨ls, hls, d, hd, hn, htokens, ha, hs⟩
    exact ⟨_, _, ⟨ls, hls, d, ⟨hd, hn⟩, htokens, rfl⟩, ha, hs⟩

/-- The levels bound the height of facts, and together with the longest run of an operator that of
the constraint, which is higher than the run is long. -/
theorem height_le_of_parse (h : parse levels text scopes = .ok (a, scopes')) :
    (∀ f ∈ a.facts, f.height ≤ levels) ∧
      a.claim.constraint.longestRun < a.claim.constraint.height ∧
      a.claim.constraint.height ≤ (2 * a.claim.constraint.longestRun + 3) * levels := by
  obtain ⟨⟨-, hclaim⟩, -⟩ := readable_of_parse h
  refine ⟨List.forall_mem_cons.mpr ⟨hclaim.consequent.2, fun f hf => (hclaim.antecedents f hf).2⟩,
    a.claim.constraint.longestRun_lt_height, ?_⟩
  obtain ⟨ls, -, d, -, hn, -, rfl, -⟩ := parse_eq_ok_iff_derived.mp h
  rw [constraint_inScope, Term.stamp_eq_replace, Constraint.height_replace,
    Constraint.longestRun_replace]
  exact ClaimTree.height_constraint_le hn

/-- Facts inside of one another, negation and parentheses take three levels, and no chain has more
than two operators. -/
theorem height_le_of_parse_guests :
    let text := "A says B can-say 0 C can-say 0 X ok where f() and not (g() or h() or 1 = 2)."
    ∃ a scopes', parse 3 text {} = .ok (a, scopes') ∧ (∀ f ∈ a.facts, f.height ≤ 3) ∧
      a.claim.constraint.longestRun = 2 ∧ 2 < a.claim.constraint.height ∧
      a.claim.constraint.height ≤ 21 := by
  intro text
  obtain ⟨a, scopes', h, hrun⟩ : ∃ a scopes', parse 3 text {} = .ok (a, scopes') ∧
      decide (a.claim.constraint.longestRun = 2) = true :=
    exists_of_toOption (P := fun a => decide (a.claim.constraint.longestRun = 2))
      (by decide +kernel)
  have hrun := of_decide_eq_true hrun
  obtain ⟨hfacts, hlt, hle⟩ := height_le_of_parse h
  rw [hrun] at hlt hle
  exact ⟨a, scopes', h, hfacts, hrun, hlt, hle⟩

end Assertion

/-! ## Chains -/

namespace NegationTree

/-- `true` -/
def truth : NegationTree :=
  .comparison (.atom (.bool true))

theorem tokens_truth : truth.tokens = [.keyword .true] := by
  rw [truth, tokens, ComparisonTree.tokens, AtomTree.tokens]

theorem admissible_truth : truth.Admissible := by
  rw [truth, Admissible, ComparisonTree.Admissible, AtomTree.Admissible]
  trivial

theorem nesting_truth : truth.nesting = 0 := by
  rw [truth, nesting, ComparisonTree.nesting, AtomTree.nesting]

end NegationTree

namespace ConstraintTree

/-- `true and true and … and true`, with so many operators. -/
def truths (n : Nat) : ConstraintTree :=
  .disjunction (.conjunction .truth (List.replicate n .truth)) []

variable (n : Nat)

theorem lexable_truths : ∀ t ∈ (truths n).tokens, t.Lexable := by
  rw [truths, tokens, ConjunctionTree.tokens, NegationTree.tokens_truth, List.flatMap_nil,
    List.append_nil, List.forall_mem_append]
  refine ⟨List.forall_mem_singleton.mpr trivial, List.forall_mem_flatMap.mpr fun d hd => ?_⟩
  rw [List.eq_of_mem_replicate hd, NegationTree.tokens_truth]
  simp [Token.Lexable]

theorem admissible_truths : (truths n).Admissible := by
  rw [truths, Admissible, ConjunctionTree.Admissible]
  refine ⟨⟨NegationTree.admissible_truth, fun d hd => ?_⟩, List.forall_mem_nil _⟩
  rw [List.eq_of_mem_replicate hd]
  exact NegationTree.admissible_truth

/-- The operands of a chain are next to each other, not inside of one another. -/
theorem nesting_truths_le : (truths n).nesting ≤ 1 := by
  have htruth := Nat.le_of_eq NegationTree.nesting_truth
  refine nesting_disjunction_le_iff.mpr ⟨?_, List.forall_mem_nil _⟩
  refine ConjunctionTree.nesting_conjunction_le_iff.mpr ⟨htruth, fun d hd => ?_⟩
  rw [List.eq_of_mem_replicate hd]
  exact htruth

theorem lt_height_truths : n < (truths n).value.height := by
  have hrun : n ≤ (truths n).value.longestRun := by
    rw [truths, value, ConjunctionTree.value]
    simpa using Constraint.length_le_longestRun_foldl .and NegationTree.truth.value
      ((List.replicate n .truth).map NegationTree.value)
  exact Nat.lt_of_le_of_lt hrun (truths n).value.longestRun_lt_height

end ConstraintTree

namespace AssertionTree

/-- `A says B ok where true and true and … and true.` -/
def truths (n : Nat) : AssertionTree where
  speaker := .name ⟨"A", none⟩
  claim :=
    { consequent := ⟨.name ⟨"B", none⟩, .predicate "ok" (.bare [])⟩
      antecedents := []
      constraint? := some (.truths n) }

variable (n : Nat)

theorem lexable_truths : ∀ t ∈ (truths n).tokens, t.Lexable := by
  have hA : (Token.name "A").Lexable := ⟨'A', [], rfl, by decide, List.forall_mem_nil _⟩
  have hB : (Token.name "B").Lexable := ⟨'B', [], rfl, by decide, List.forall_mem_nil _⟩
  have hok : (Token.word "ok").Lexable :=
    ⟨⟨'o', ['k'], rfl, by decide, List.all_eq_true.mp (by decide)⟩, by decide⟩
  have hclaim : ∀ t ∈ (truths n).claim.tokens, t.Lexable := by
    simp only [truths, ClaimTree.tokens, FactTree.tokens, EntityTree.tokens, NameTree.tokens,
      VerbPhraseTree.tokens, ArgsTree.tokens, ClaimTree.conditionTokens, ClaimTree.guardTokens,
      List.flatMap_nil, List.nil_append, List.forall_mem_append, List.forall_mem_cons]
    exact ⟨⟨⟨hB, List.forall_mem_nil _⟩, hok, List.forall_mem_nil _⟩,
      Token.lexable_keyword .where, ConstraintTree.lexable_truths n⟩
  rw [tokens, List.forall_mem_append, List.forall_mem_cons, List.forall_mem_append]
  exact ⟨List.forall_mem_singleton.mpr hA, Token.lexable_keyword .say, hclaim,
    List.forall_mem_singleton.mpr (Token.lexable_symbol .period)⟩

theorem admissible_truths : (truths n).Admissible := by
  refine ⟨by simp [truths, EntityTree.Admissible, NameTree.Admissible], ⟨?_, ?_, ?_⟩⟩
  · simp [truths, FactTree.Admissible, EntityTree.Admissible, NameTree.Admissible,
      VerbPhraseTree.Admissible, ArgsTree.Admissible, ArgsTree.entities]
  · exact List.forall_mem_nil _
  · intro c hc
    cases hc
    exact ConstraintTree.admissible_truths n

theorem nesting_truths_le : (truths n).nesting ≤ 1 := by
  refine ClaimTree.nesting_le_iff.mpr ⟨Nat.le_refl 1, List.forall_mem_nil _, fun c hc => ?_⟩
  cases hc
  exact ConstraintTree.nesting_truths_le n

end AssertionTree

namespace Assertion

/-- With a single level, constraints of any height are read. -/
theorem exists_parse_lt_height (n : Nat) (scopes : ScopeSupply) : ∃ text a scopes',
    parse 1 text scopes = .ok (a, scopes') ∧ n < a.claim.constraint.height := by
  obtain ⟨text, ls, hls, htokens⟩ :=
    Lexeme.exists_ofText_tokens (AssertionTree.lexable_truths n)
  refine ⟨text, _, _, parse_eq_ok_iff_derived.mpr ⟨ls, hls, .truths n,
    AssertionTree.admissible_truths n, AssertionTree.nesting_truths_le n, htokens.symm, rfl, rfl⟩,
    ?_⟩
  rw [constraint_inScope, Term.stamp_eq_replace, Constraint.height_replace]
  exact ConstraintTree.lt_height_truths n

/-- The levels alone do not bound the height of constraints. -/
theorem not_exists_height_bound :
    ¬ ∃ bound : Nat → Nat, ∀ (levels : Nat) (text : String) (scopes scopes' : ScopeSupply)
      (a : Assertion), parse levels text scopes = .ok (a, scopes') →
        (∀ f ∈ a.facts, f.height ≤ bound levels) ∧
          a.claim.constraint.height ≤ bound levels := by
  rintro ⟨bound, h⟩
  obtain ⟨text, a, scopes', hparse, hlt⟩ := exists_parse_lt_height (bound 1) {}
  exact absurd (h 1 text {} scopes' a hparse).2 (Nat.not_le_of_lt hlt)

end Assertion

end AuthLogic
