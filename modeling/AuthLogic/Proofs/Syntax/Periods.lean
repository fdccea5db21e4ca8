import AuthLogic.Proofs.Syntax.PolicyReading

/-! # Periods

A period ends an assertion, and it stands nowhere else. A policy has as many
assertions as its text has periods.
-/

namespace AuthLogic

namespace PeriodFree

variable {δ : Type} {tokens : δ → List Token} {ds : List δ}

theorem flatMap (h : ∀ d ∈ ds, PeriodFree (tokens d)) : PeriodFree (ds.flatMap tokens) := by
  intro hp
  obtain ⟨d, hd, hp⟩ := List.mem_flatMap.mp hp
  exact h d hd hp

theorem commas (h : ∀ d ∈ ds, PeriodFree (tokens d)) :
    PeriodFree (AuthLogic.commas (ds.map tokens)) := by
  cases ds with
  | nil => exact nil
  | cons d ds =>
    obtain ⟨hd, hds⟩ := List.forall_mem_cons.mp h
    rw [commas_map_cons]
    exact hd.append (flatMap fun e he => (hds e he).cons (by simp))

/-- The items of a list in parentheses. -/
theorem closed (h : ∀ d ∈ ds, PeriodFree (tokens d)) :
    PeriodFree (.symbol .lparen :: (AuthLogic.commas (ds.map tokens) ++ [.symbol .rparen])) :=
  ((commas h).append (nil.cons (by simp))).cons (by simp)

end PeriodFree

/-! ## Facts -/

theorem NameTree.periodFree (d : NameTree) : PeriodFree d.tokens := by
  obtain ⟨text, type?⟩ := d
  cases type? <;> simp [PeriodFree, tokens]

theorem EntityTree.periodFree (d : EntityTree) : PeriodFree d.tokens := by
  cases d with
  | name d => exact d.periodFree
  | string text => exact .cons (by simp) .nil

theorem DepthTree.token_ne_period (d : DepthTree) : d.token ≠ .symbol .period := by
  cases d <;> simp [token]

theorem ArgsTree.periodFree (d : ArgsTree) : PeriodFree d.tokens := by
  cases d with
  | listed es => exact .closed fun e _ => e.periodFree
  | bare es => exact .flatMap fun e _ => e.periodFree

theorem VerbPhraseTree.periodFree (d : VerbPhraseTree) : PeriodFree d.tokens := by
  induction d with
  | canActAs role => exact role.periodFree.cons (by simp)
  | canSay depth subject object ih =>
    exact ((subject.periodFree.append ih).cons depth.token_ne_period).cons (by simp)
  | predicate name args => exact args.periodFree.cons (by simp)

theorem FactTree.periodFree (d : FactTree) : PeriodFree d.tokens :=
  d.subject.periodFree.append d.object.periodFree

/-! ## Constraints -/

theorem Comparator.token_ne_period (op : Comparator) : op.token ≠ .symbol .period := by
  cases op <;> simp [token]

mutual

theorem ConstraintTree.periodFree : ∀ d : ConstraintTree, PeriodFree d.tokens
  | .disjunction first rest => by
    rw [ConstraintTree.tokens]
    exact first.periodFree.append (.flatMap fun d _ => d.periodFree.cons (by simp))

theorem ConjunctionTree.periodFree : ∀ d : ConjunctionTree, PeriodFree d.tokens
  | .conjunction first rest => by
    rw [ConjunctionTree.tokens]
    exact first.periodFree.append (.flatMap fun d _ => d.periodFree.cons (by simp))

theorem NegationTree.periodFree : ∀ d : NegationTree, PeriodFree d.tokens
  | .not operand => by
    rw [NegationTree.tokens]
    exact operand.periodFree.cons (by simp)
  | .comparison d => by
    rw [NegationTree.tokens]
    exact d.periodFree

theorem ComparisonTree.periodFree : ∀ d : ComparisonTree, PeriodFree d.tokens
  | .atom d => by
    rw [ComparisonTree.tokens]
    exact d.periodFree
  | .compare left op right => by
    rw [ComparisonTree.tokens]
    exact left.periodFree.append (right.periodFree.cons op.token_ne_period)

theorem AtomTree.periodFree : ∀ d : AtomTree, PeriodFree d.tokens
  | .bool true | .bool false | .int _ | .string _ => by
    rw [AtomTree.tokens]
    exact .cons (by simp) .nil
  | .name d => by
    rw [AtomTree.tokens]
    exact d.periodFree
  | .call name args => by
    rw [AtomTree.tokens]
    exact (PeriodFree.closed fun d _ => d.periodFree).cons (by simp)
  | .parenthesized inner => by
    rw [AtomTree.tokens]
    exact (inner.periodFree.append (.cons (by simp) .nil)).cons (by simp)

end

/-! ## Assertions -/

theorem ClaimTree.periodFree (d : ClaimTree) : PeriodFree d.tokens := by
  obtain ⟨consequent, antecedents, constraint?⟩ := d
  have hconditions : PeriodFree (conditionTokens antecedents) := by
    cases antecedents with
    | nil => exact .nil
    | cons f fs => exact (PeriodFree.commas fun g _ => g.periodFree).cons (by simp)
  have hguard : PeriodFree (guardTokens constraint?) := by
    cases constraint? with
    | none => exact .nil
    | some c => exact c.periodFree.cons (by simp)
  exact consequent.periodFree.append (hconditions.append hguard)

theorem AssertionTree.count_period (d : AssertionTree) :
    d.tokens.count (.symbol .period) = 1 := by
  have hbefore : PeriodFree (d.speaker.tokens ++ .keyword .say :: d.claim.tokens) :=
    d.speaker.periodFree.append (d.claim.periodFree.cons (by simp))
  have htokens : d.tokens =
      (d.speaker.tokens ++ .keyword .say :: d.claim.tokens) ++ [.symbol .period] := by
    rw [tokens, List.append_assoc, List.cons_append]
  rw [htokens, List.count_append, List.count_eq_zero.mpr hbefore, List.count_singleton_self]

theorem PolicyTree.count_period (d : PolicyTree) :
    d.tokens.count (.symbol .period) = d.assertions.length := by
  obtain ⟨as⟩ := d
  induction as with
  | nil => rfl
  | cons a as ih =>
    have ih : (as.flatMap AssertionTree.tokens).count _ = as.length := ih
    rw [tokens, List.flatMap_cons, List.count_append, a.count_period, ih, List.length_cons,
      Nat.add_comm]

/-- Each period of a text ends one of its assertions. -/
theorem length_of_parsePolicy {levels : Nat} {text : String} {parts : List (Entity × Claim)}
    (h : parsePolicy levels text = .ok parts) :
    ∃ ls, Lexeme.ofText text = .ok ls ∧
      (ls.map Lexeme.token).count (.symbol .period) = parts.length := by
  obtain ⟨ls, hls, hread⟩ := parsePolicy_eq_ok_iff.mp h
  obtain ⟨d, -, htokens, rfl⟩ := Parser.policy_eq_ok_iff.mp hread
  exact ⟨ls, hls, by rw [← htokens, d.count_period, PolicyTree.value, List.length_map]⟩

end AuthLogic
