import AuthLogic.Proofs.Syntax.Derivability
import AuthLogic.Proofs.Syntax.Seams

/-! # Where-clauses

Any assertion can be given another where-clause, on a new line after the text of
its head and its conditions. What the clause says is read there as it is read by
itself.
-/

namespace AuthLogic

open Lexeme

theorem lexes_of_toOption {text : String} {ts : List Token}
    (h : (ofText text).toOption.map (List.map token) = some ts) : Lexes text.toList ts := by
  obtain ⟨ls, hls, rfl⟩ := Option.map_eq_some_iff.mp h
  exact lexes_of_ofChars (Parser.toOption_eq_some_iff.mp hls)

namespace AssertionTree

/-- The tokens in front of the where-clause. -/
def openingTokens (d : AssertionTree) : List Token :=
  d.speaker.tokens ++ .keyword .say ::
    (d.claim.consequent.tokens ++ ClaimTree.conditionTokens d.claim.antecedents)

/-- The assertion with a where-clause, in place of its own if it has one. -/
def guarded (d : AssertionTree) (c : ConstraintTree) : AssertionTree :=
  { d with claim := { d.claim with constraint? := some c } }

theorem tokens_guarded (d : AssertionTree) (c : ConstraintTree) : (d.guarded c).tokens =
    d.openingTokens ++ .keyword .where :: (c.tokens ++ [.symbol .period]) := by
  simp only [tokens, guarded, ClaimTree.tokens, ClaimTree.guardTokens, openingTokens,
    List.append_assoc, List.cons_append]

end AssertionTree

/-- A where-clause on a new line, after the text of an assertion up to it. -/
theorem parseAssertion_guarded {levels : Nat} {opening guard : String} {d : AssertionTree}
    {c : ConstraintTree} (hd : d.Admissible) (hlevels : d.nesting ≤ levels) (hc : c.Admissible)
    (hnesting : c.nesting ≤ levels) (hopening : Lexes opening.toList d.openingTokens)
    (hguard : Lexes guard.toList (c.tokens ++ [.symbol .period])) :
    parseAssertion levels (opening ++ "\nwhere " ++ guard) =
      .ok (d.speaker.value, { d.claim.value with constraint := c.value }) := by
  have hwhere : Lexes ('\n' :: ("where".toList ++ ' ' :: guard.toList))
      (.keyword .where :: (c.tokens ++ [.symbol .period])) :=
    (lexes_spelling (Token.lexable_keyword .where) (closed_cons_iff.mpr (by decide))
      (hguard.gap (by decide))).gap (by decide)
  obtain ⟨ls₀, hls₀, htokens₀⟩ := hopening 0
  obtain ⟨ls, hls, htokens⟩ := lexes_append hls₀ (seam_newline _) hwhere 0
  have htext : (opening ++ "\nwhere " ++ guard).toList =
      opening.toList ++ '\n' :: ("where".toList ++ ' ' :: guard.toList) := by
    rw [String.toList_append, String.toList_append, List.append_assoc]
    rfl
  have hguarded : (d.guarded c).Admissible :=
    ⟨hd.1, hd.2.consequent, hd.2.antecedents, fun _ he => Option.some.inj he ▸ hc⟩
  obtain ⟨hconsequent, hantecedents, -⟩ := ClaimTree.nesting_le_iff.mp hlevels
  have hn : (d.guarded c).nesting ≤ levels := ClaimTree.nesting_le_iff.mpr
    ⟨hconsequent, hantecedents, fun _ he => Option.some.inj he ▸ hnesting⟩
  refine parseAssertion_eq_ok_iff.mpr ⟨ls, by rw [ofText, htext]; exact hls, ?_⟩
  refine Parser.assertion_eq_ok_iff.mpr ⟨d.guarded c, ⟨hguarded, hn⟩, ?_, rfl⟩
  rw [AssertionTree.tokens_guarded, htokens, htokens₀]

/-- A text is read as a constraint, by itself and in the where-clause of any assertion. -/
def ReadAsConstraint (levels : Nat) (text : String) (c : Constraint) : Prop :=
  (∃ ls, ofText text = .ok ls ∧ Parser.constraint levels ls = .ok (c, [])) ∧
  ∀ (opening : String) (d : AssertionTree), d.Admissible → d.nesting ≤ levels →
    Lexes opening.toList d.openingTokens →
    parseAssertion levels (opening ++ "\nwhere " ++ text ++ ".") =
      .ok (d.speaker.value, { d.claim.value with constraint := c })

theorem readAsConstraint_of_spells {levels : Nat} {text : String} {ts : List Token}
    {c : Constraint} (hs : Spells text.toList ts)
    (h : ∀ ls, ls.map token = ts → Parser.constraintWithin levels ls = .ok (c, [])) :
    ReadAsConstraint levels text c := by
  obtain ⟨ls, hls, htokens⟩ := hs.exists_ofText
  have hread : Parser.constraint levels ls = .ok (c, []) :=
    (Parser.constraint_eq levels).symm ▸ h ls htokens
  refine ⟨⟨ls, hls, hread⟩, fun opening d hd hlevels hopening => ?_⟩
  obtain ⟨taken, htaken, t, ⟨ht, hnesting⟩, htree, rfl⟩ :=
    Parser.consumes_constraint levels ls c [] (h ls htokens)
  rw [List.append_nil] at htaken
  subst htaken
  have hperiod : Spells ['.'] [.symbol .period] :=
    .token (.symbol .period) (Token.lexable_symbol .period)
  have hguard : Lexes (text ++ ".").toList (t.tokens ++ [.symbol .period]) := by
    have hend :=
      hs.append (closed_cons_iff.mpr (by decide)) hperiod [] [] (by simp [Closed]) lexes_nil
    rw [List.append_nil, List.append_nil] at hend
    rw [String.toList_append, htree, htokens]
    exact hend
  have hparse := parseAssertion_guarded hd hlevels ht hnesting hopening hguard
  rwa [← String.append_assoc] at hparse

end AuthLogic
