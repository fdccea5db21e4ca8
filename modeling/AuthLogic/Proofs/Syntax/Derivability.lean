import AuthLogic.Proofs.Syntax.DerivationParsed

/-! # Derivability

Assertions are read exactly if the grammar derives them. As long as there is a
level for each token, no text is nested too deep.
-/

namespace AuthLogic.Parser

variable {levels : Nat} {ls : List Lexeme}

theorem assertion_eq_ok_iff {r : Entity × Claim} :
    assertionWithin levels ls = .ok (r, []) ↔
      Derived (fun d => d.Admissible ∧ d.nesting ≤ levels) AssertionTree.tokens
        AssertionTree.value (ls.map Lexeme.token) r := by
  constructor
  · intro h
    obtain ⟨taken, hls, hd⟩ := consumes_assertion levels ls r [] h
    rwa [hls, List.append_nil]
  · rintro ⟨d, ⟨hd, hn⟩, htokens, rfl⟩
    have hread := reads_assertionTree (F := fun _ => True) hd hn ls [] htokens.symm (next_nil _)
    rwa [List.append_nil] at hread

/-- What is read is what the grammar derives: tokens are accepted if they have an admissible
derivation, the result is what this stands for, and they have no other one. -/
theorem complete_assertion_iff (text : String) (ls : List Lexeme) (h : ls.length ≤ levels)
    (speaker : Entity) (claim : Claim) :
    (complete (assertion levels) text ls = .ok (speaker, claim) ↔
      ∃ d : AssertionTree, d.tokens = ls.map Lexeme.token ∧ d.Admissible ∧
        d.value = (speaker, claim)) ∧
    ∀ d d' : AssertionTree, d.tokens = ls.map Lexeme.token → d'.tokens = ls.map Lexeme.token →
      d = d' := by
  refine ⟨?_, fun d d' hd hd' => AssertionTree.tokens_inj (hd.trans hd'.symm)⟩
  rw [assertion_eq, complete_eq_ok_iff, assertion_eq_ok_iff]
  constructor
  · rintro ⟨d, ⟨hd, -⟩, htokens, hvalue⟩
    exact ⟨d, htokens, hd, hvalue⟩
  · rintro ⟨d, htokens, hd, hvalue⟩
    -- each level of nesting costs a token, so that the levels do not run out
    have hlen := congrArg List.length htokens
    rw [List.length_map] at hlen
    exact ⟨d, ⟨hd, Nat.le_trans d.nesting_le_length (hlen ▸ h)⟩, htokens, hvalue⟩

theorem complete_assertion_iff_not_greater :
    ∃ d : AssertionTree,
      d.tokens = [.name "Desk", .keyword .say, .name "X", .word "ok", .keyword .where,
        .keyword .not, .int 2, .symbol .greater, .int 1, .symbol .period] ∧
      d.Admissible ∧
      d.value = (.const ⟨"Desk"⟩,
        { consequent := { subject := .var { var := { name := "X" } }, object := .predicate "ok" [] }
          constraint := .not (.binary .less (.int 1) (.int 2)) }) :=
  (complete_assertion_iff "Desk says X ok where not 2 > 1."
    [⟨.name "Desk", 0, 4⟩, ⟨.keyword .say, 5, 9⟩, ⟨.name "X", 10, 11⟩, ⟨.word "ok", 12, 14⟩,
      ⟨.keyword .where, 15, 20⟩, ⟨.keyword .not, 21, 24⟩, ⟨.int 2, 25, 26⟩,
      ⟨.symbol .greater, 27, 28⟩, ⟨.int 1, 29, 30⟩, ⟨.symbol .period, 30, 31⟩]
    (Nat.le_refl 10) _ _).1.mp rfl

end AuthLogic.Parser
