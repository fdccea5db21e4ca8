import AuthLogic.Proofs.Syntax.Parsed
import AuthLogic.Proofs.Syntax.Unambiguity

/-! # Reading derivations

The tokens that an admissible derivation tree derives are read as the term that
they stand for, if there are as many levels as the tree is nested deep.
-/

namespace AuthLogic.Parser

variable {ls rest : List Lexeme}

/-! ## Facts -/

theorem reads_name {d : NameTree} (h : d.Admissible) :
    Reads (· ≠ .symbol .colon) entity d.tokens d.value := by
  intro ls rest hls hrest
  obtain ⟨text, type?⟩ := d
  cases type? with
  | none =>
    obtain ⟨⟨t, start, stop⟩, rfl, ht⟩ := List.map_eq_singleton_iff.mp hls
    cases ht
    have htype := declaredType?_of_ne hrest
    cases hv : isVariableName text <;>
      simp [entity, htype, hv, NameTree.value, bind, Except.bind, pure, Except.pure]
  | some type =>
    obtain ⟨⟨t, start, stop⟩, ls, rfl, ht, hls⟩ := List.map_eq_cons_iff.mp hls
    obtain ⟨⟨u, start', stop'⟩, ls, rfl, hu, hls⟩ := List.map_eq_cons_iff.mp hls
    obtain ⟨⟨v, start'', stop''⟩, rfl, hv⟩ := List.map_eq_singleton_iff.mp hls
    cases ht
    cases hu
    cases hv
    have hname : isVariableName text = true := h rfl
    have htype : declaredType?
        (⟨.symbol .colon, start', stop'⟩ :: ⟨.name type, start'', stop''⟩ :: rest) =
          .ok (some type, rest) := rfl
    simp [entity, htype, hname, NameTree.value, bind, Except.bind, pure, Except.pure]

theorem reads_entityTree {d : EntityTree} (h : d.Admissible) :
    Reads (· ≠ .symbol .colon) entity d.tokens d.value := by
  cases d with
  | name d => exact reads_name h
  | string text => exact .of_token fun _ _ _ => rfl

theorem reads_listed {ds : List EntityTree} (h : ∀ d ∈ ds, d.Admissible) :
    Reads Token.EndsFact args (ArgsTree.listed ds).tokens (ds.map EntityTree.value) := by
  have hread := reads_untilClosed (fun d hd => reads_entityTree (h d hd)) (by simp) (by simp)
    fun d _ => d.exists_head_ne_symbol .rparen
  exact .cons (fun _ _ _ => rfl) (hread.mono fun _ _ => trivial)

theorem entityFollows_append {d : EntityTree} {ls' : List Lexeme}
    (h : ls.map Lexeme.token = d.tokens) : entityFollows (ls ++ ls') = .ok (true, ls ++ ls') := by
  obtain ⟨t, ts, hd, ht⟩ := d.exists_head
  rw [hd] at h
  obtain ⟨⟨u, start, stop⟩, ls, rfl, hu, -⟩ := List.map_eq_cons_iff.mp h
  cases hu
  rcases ht with ⟨text, rfl⟩ | ⟨text, rfl⟩ <;> rfl

theorem reads_bare {ds : List EntityTree} (h : ∀ d ∈ ds, d.Admissible) :
    Reads Token.EndsFact (many entityFollows entity) (ds.flatMap EntityTree.tokens)
      (ds.map EntityTree.value) :=
  reads_adjacent (fun d hd => reads_entityTree (h d hd))
    (fun d _ => d.exists_head_ne_symbol .colon) (fun _ _ _ _ => entityFollows_append)
    (fun _ => entityFollows_of_ends) fun _ ht => ht.1

theorem reads_argsTree {d : ArgsTree} (h : d.Admissible) :
    Reads Token.EndsFact args d.tokens d.value := by
  cases d with
  | listed ds => exact reads_listed h
  | bare ds =>
    intro ls rest hls hrest
    have hnext := next_flatMap (fun d _ => d.exists_head_ne_symbol .lparen) hls
      (hrest.mono fun t ht => ht.2.1)
    rw [args, liftM_eq, bind_of_eq_ok (eat_of_ne hnext)]
    exact reads_bare h ls rest hls hrest

theorem reads_depthTree {F : Token → Prop} {d : DepthTree} (h : d.Admissible) :
    Reads F depth [d.token] d.value := by
  refine .of_token fun start stop ls => ?_
  cases d with
  | hops n =>
    have hn : Text.toUInt32? n.toInt = some (UInt32.ofNat n.toInt.toNat) := if_pos h
    simp only [DepthTree.token, depth, hn]
    rfl
  | inf => rfl

theorem reads_roleTree {d : EntityTree} (h : d.Admissible) (hconst : d.value = .const ⟨d.text⟩) :
    Reads (· ≠ .symbol .colon) role d.tokens ⟨d.text⟩ := by
  intro ls rest hls hrest
  have he := reads_entityTree h ls rest hls hrest
  rw [hconst] at he
  simp only [role, he]
  rfl

theorem reads_factTree_of {d : FactTree} {n : Nat} (hs : d.subject.Admissible)
    (ho : Reads Token.EndsFact (verbPhrase (factWithin n)) d.object.tokens d.object.value) :
    Reads Token.EndsFact (factWithin (n + 1)) d.tokens d.value := by
  obtain ⟨t, ts, hts, ht⟩ := d.object.exists_head_ne_symbol .colon
  rw [FactTree.tokens, hts]
  rw [hts] at ho
  exact (reads_entityTree hs).bind_cons
    (ho.map fun object => Fact.mk d.subject.value object none) ht

theorem reads_verbPhraseTree {d : VerbPhraseTree} (h : d.Admissible) {n : Nat}
    (hn : d.nesting ≤ n) : Reads Token.EndsFact (verbPhrase (factWithin n)) d.tokens d.value := by
  induction d generalizing n with
  | canActAs role =>
    exact .cons (fun _ _ _ => rfl)
      (((reads_roleTree h.1 h.2).mono fun t ht => ht.1).map VerbPhrase.canActAs)
  | canSay depth subject object ih =>
    obtain ⟨hd, hs, ho⟩ := h
    cases n with
    | zero => cases hn
    | succ n =>
      have hfact := reads_factTree_of (d := ⟨subject, object⟩) hs
        (ih ho (Nat.le_of_succ_le_succ hn))
      exact .cons (fun _ _ _ => rfl) ((reads_depthTree hd).bind
        (q := fun d => factWithin (n + 1) >>= fun f => pure (VerbPhrase.delegate d f))
        (hfact.map (VerbPhrase.delegate depth.value)) (fun _ _ => trivial) fun _ _ => trivial)
  | predicate name args =>
    exact .cons (fun _ _ _ => rfl)
      ((reads_argsTree h).map fun args => VerbPhrase.predicate name args)

theorem reads_factTree {d : FactTree} (h : d.Admissible) {n : Nat} (hn : d.nesting ≤ n) :
    Reads Token.EndsFact (factWithin n) d.tokens d.value := by
  cases n with
  | zero => cases hn
  | succ n =>
    exact reads_factTree_of h.1 (reads_verbPhraseTree h.2 (Nat.le_of_succ_le_succ hn))

/-! ## Constraints -/

section Chain

variable {δ : Type} {F : Token → Prop} {k : Keyword} {p : Parser Constraint}
  {tokens : δ → List Token} {value : δ → Constraint}

theorem reads_chain (op : Operator) {d : δ} {ds : List δ}
    (hd : Reads F p (tokens d) (value d))
    (hds : ∀ d ∈ ds, Reads F p (tokens d) (value d)) (hk : F (.keyword k)) :
    Reads (fun u => F u ∧ u ≠ .keyword k) (chain k op p)
      (tokens d ++ ds.flatMap fun d => .keyword k :: tokens d)
      ((ds.map value).foldl (.binary op) (value d)) :=
  hd.bind ((reads_many hds hk).map fun cs => cs.foldl (.binary op) (value d))
    (starts_flatMap hk ds) fun _ hu => hu.1

end Chain

theorem reads_compareTree {inner : Parser Constraint} {left right : AtomTree} {op : Comparator}
    (hleft : Reads (· ≠ .symbol .colon) (atom inner) left.tokens left.value)
    (hright : Reads (· ≠ .symbol .colon) (atom inner) right.tokens right.value) :
    Reads Token.EndsComparison (comparison inner) (left.tokens ++ op.token :: right.tokens)
      (op.value left.value right.value) := by
  intro ls rest hls hrest
  obtain ⟨ls₁, ls₂, rfl, h₁, h₂⟩ := List.map_eq_append_iff.mp hls
  obtain ⟨k, ls₂, rfl, hk, h₂⟩ := List.map_eq_cons_iff.mp h₂
  have hnext : Next (· ≠ .symbol .colon) (k :: ls₂ ++ rest) := by
    rw [List.cons_append, next_cons_iff, hk]
    exact op.token_ne_colon
  have hbuild : comparison? k.token = some fun l r => op.value l r := by
    rw [hk, op.comparison?_token]
  rw [List.append_assoc]
  exact comparison_of_cons (hleft ls₁ _ h₁ hnext) hbuild
    (hright ls₂ rest h₂ (hrest.mono fun _ ht => ht.1))

mutual

theorem reads_constraintTree : ∀ (d : ConstraintTree) {n : Nat}, d.Admissible → d.nesting ≤ n →
    Reads Token.EndsConstraint (constraintWithin n) d.tokens d.value
  | .disjunction first rest, 0, _, hn => by
    rw [ConstraintTree.nesting] at hn
    cases hn
  | .disjunction first rest, n + 1, h, hn => by
    rw [ConstraintTree.Admissible] at h
    obtain ⟨hfirst, hrest⟩ := ConstraintTree.nesting_disjunction_le_iff.mp hn
    have hreads : ∀ d ∈ rest, Reads _ (conjunction (negationWithin n)) d.tokens d.value :=
      fun d hd => reads_conjunctionTree d (h.2 d hd) (hrest d hd)
    rw [ConstraintTree.tokens, ConstraintTree.value]
    exact (reads_chain .or (reads_conjunctionTree first h.1 hfirst) hreads
      ⟨Token.endsComparison_keyword .or, by simp⟩).mono fun _ ht => and_assoc.mpr ht

theorem reads_conjunctionTree : ∀ (d : ConjunctionTree) {n : Nat}, d.Admissible → d.nesting ≤ n →
    Reads (fun t => t.EndsComparison ∧ t ≠ .keyword .and) (conjunction (negationWithin n)) d.tokens
      d.value
  | .conjunction first rest, n, h, hn => by
    rw [ConjunctionTree.Admissible] at h
    obtain ⟨hfirst, hrest⟩ := ConjunctionTree.nesting_conjunction_le_iff.mp hn
    have hreads : ∀ d ∈ rest, Reads _ (negationWithin n) d.tokens d.value :=
      fun d hd => reads_negationTree d (h.2 d hd) (hrest d hd)
    rw [ConjunctionTree.tokens, ConjunctionTree.value]
    exact reads_chain .and (reads_negationTree first h.1 hfirst) hreads
      (Token.endsComparison_keyword .and)

theorem reads_negationTree : ∀ (d : NegationTree) {n : Nat}, d.Admissible → d.nesting ≤ n →
    Reads Token.EndsComparison (negationWithin n) d.tokens d.value
  | .not operand, 0, _, hn => by
    rw [NegationTree.nesting] at hn
    cases hn
  | .not operand, n + 1, h, hn => by
    rw [NegationTree.Admissible] at h
    rw [NegationTree.nesting] at hn
    rw [NegationTree.tokens, NegationTree.value]
    exact .cons (fun _ _ _ => negation_succ_cons rfl)
      ((reads_negationTree operand h (Nat.le_of_succ_le_succ hn)).map Constraint.not)
  | .comparison d, n, h, hn => by
    rw [NegationTree.Admissible] at h
    rw [NegationTree.nesting] at hn
    rw [NegationTree.tokens, NegationTree.value]
    intro ls rest hls hrest
    have hnot : Next (· ≠ .keyword .not) (ls ++ rest) := by
      obtain ⟨t, ts, hd, ht, -⟩ := d.exists_head
      rw [hd] at hls
      obtain ⟨l, ls, rfl, hl, -⟩ := List.map_eq_cons_iff.mp hls
      rw [List.cons_append, next_cons_iff, hl]
      exact ht
    rw [negation_of_ne n hnot]
    exact reads_comparisonTree d h hn ls rest hls hrest

theorem reads_comparisonTree : ∀ (d : ComparisonTree) {n : Nat}, d.Admissible → d.nesting ≤ n →
    Reads Token.EndsComparison (comparison (constraintWithin n)) d.tokens d.value
  | .atom d, n, h, hn => by
    rw [ComparisonTree.Admissible] at h
    rw [ComparisonTree.nesting] at hn
    rw [ComparisonTree.tokens, ComparisonTree.value]
    intro ls rest hls hrest
    exact comparison_of_ends
      (reads_atomTree d h hn ls rest hls (hrest.mono fun _ ht => ht.1)) hrest
  | .compare left op right, n, h, hn => by
    rw [ComparisonTree.Admissible] at h
    rw [ComparisonTree.nesting, Nat.max_le] at hn
    rw [ComparisonTree.tokens, ComparisonTree.value]
    exact reads_compareTree (reads_atomTree left h.1 hn.1) (reads_atomTree right h.2 hn.2)

theorem reads_atomTree : ∀ (d : AtomTree) {n : Nat}, d.Admissible → d.nesting ≤ n →
    Reads (· ≠ .symbol .colon) (atom (constraintWithin n)) d.tokens d.value
  | .bool true, _, _, _ | .bool false, _, _, _ | .int _, _, _, _ | .string _, _, _, _ => by
    rw [AtomTree.tokens, AtomTree.value]
    exact .of_token fun _ _ _ => rfl
  | .name d, n, h, _ => by
    rw [AtomTree.Admissible] at h
    rw [AtomTree.tokens, AtomTree.value]
    intro ls rest hls hrest
    have hread : (entity >>= fun e => pure (Constraint.entity e)) (ls ++ rest) = _ :=
      bind_of_eq_ok (reads_name h ls rest hls hrest)
    obtain ⟨ts, hd⟩ := d.tokens_eq_cons
    rw [hd] at hls
    obtain ⟨⟨t, start, stop⟩, ls, rfl, ht, -⟩ := List.map_eq_cons_iff.mp hls
    cases ht
    exact hread
  | .call name args, n, h, hn => by
    rw [AtomTree.Admissible] at h
    have hn := AtomTree.nesting_call_le_iff.mp hn
    have hargs := reads_untilClosed
      (fun d hd => reads_constraintTree d (h d hd) (hn d hd))
      (Token.endsConstraint_symbol (by simp) rfl) (Token.endsConstraint_symbol (by simp) rfl)
      fun d _ => d.exists_head
    rw [AtomTree.tokens, AtomTree.value]
    exact .cons (fun _ _ _ => rfl) ((Reads.expect (.symbol .lparen)).bind
      (q := fun _ => untilClosed (constraintWithin n) >>= fun args =>
        pure (Constraint.call name args))
      ((hargs.mono fun _ _ => trivial).map (Constraint.call name)) (fun _ _ => trivial)
      fun _ _ => trivial)
  | .parenthesized inner, n, h, hn => by
    rw [AtomTree.Admissible] at h
    rw [AtomTree.nesting] at hn
    rw [AtomTree.tokens, AtomTree.value]
    exact reads_atom_parenthesized (reads_constraintTree inner h hn)

end

/-! ## Assertions -/

section Claim

variable {levels : Nat} {f : Fact}

theorem reads_guarded {fs : List Fact} {c? : Option ConstraintTree}
    (h : ∀ c ∈ c?, c.Admissible) (hn : ∀ c ∈ c?, c.nesting ≤ levels) :
    Reads (· = .symbol .period) (guarded levels f fs) (ClaimTree.guardTokens c?)
      { consequent := f, antecedents := fs
        constraint := (c?.map ConstraintTree.value).getD .trivial } := by
  cases c? with
  | none =>
    intro ls rest hls hrest
    rw [List.map_eq_nil_iff.mp hls]
    exact guarded_of_ne (hrest.mono fun t ht => by simp [ht])
  | some c =>
    have hread : Reads (· = .symbol .period) (constraintWithin levels) c.tokens c.value :=
      (reads_constraintTree c (h c rfl) (hn c rfl)).mono fun t ht =>
        ht ▸ Token.endsConstraint_symbol (by simp) rfl
    exact .cons (fun _ _ _ => guarded_cons rfl)
      (hread.map fun constraint => Claim.mk f fs constraint)

theorem reads_conditioned {fs : List FactTree} {c? : Option ConstraintTree}
    (hfs : ∀ f ∈ fs, f.Admissible) (hn : ∀ f ∈ fs, f.nesting ≤ levels)
    (hguard : ∀ gs, Reads (· = .symbol .period) (guarded levels f gs) (ClaimTree.guardTokens c?)
      { consequent := f, antecedents := gs
        constraint := (c?.map ConstraintTree.value).getD .trivial }) :
    Reads (· = .symbol .period)
      (eat (.keyword .if) >>= fun b =>
        if b then separated (.symbol .comma) (factWithin levels) >>= guarded levels f
        else guarded levels f [])
      (ClaimTree.conditionTokens fs ++ ClaimTree.guardTokens c?)
      { consequent := f, antecedents := fs.map FactTree.value
        constraint := (c?.map ConstraintTree.value).getD .trivial } := by
  cases fs with
  | nil =>
    intro ls rest hls hrest
    have hif : Next (· ≠ .keyword .if) (ls ++ rest) :=
      .append hls (ClaimTree.starts_guardTokens c? (by simp)) (hrest.mono fun t ht => by simp [ht])
    rw [bind_of_eq_ok (eat_of_ne hif)]
    exact hguard [] ls rest hls hrest
  | cons g gs =>
    have hfacts := reads_commas (fun g hg => reads_factTree (hfs g hg) (hn g hg))
      (Token.endsFact_symbol (by simp) (by simp))
    rw [ClaimTree.conditionTokens, List.cons_append]
    refine .cons (fun start stop ls => bind_of_eq_ok (eat_cons rfl)) ?_
    refine hfacts.bind (hguard _) (ClaimTree.starts_guardTokens c? ?_) fun t ht => ?_
    · exact ⟨Token.endsFact_keyword .where, by simp⟩
    · exact ht ▸ ⟨Token.endsFact_symbol (by simp) (by simp), by simp⟩

theorem reads_claimTree {d : ClaimTree} (h : d.Admissible) (hn : d.nesting ≤ levels) :
    Reads (· = .symbol .period) (claimWithin levels) d.tokens d.value := by
  obtain ⟨hconsequent, hantecedents, hconstraint⟩ := ClaimTree.nesting_le_iff.mp hn
  have hstart : Starts Token.EndsFact
      (ClaimTree.conditionTokens d.antecedents ++ ClaimTree.guardTokens d.constraint?) :=
    (ClaimTree.starts_conditionTokens _ (Token.endsFact_keyword .if)).append
      (ClaimTree.starts_guardTokens _ (Token.endsFact_keyword .where))
  rw [claim_eq]
  exact (reads_factTree h.consequent hconsequent).bind
    (reads_conditioned h.antecedents hantecedents fun gs => reads_guarded h.constraint hconstraint)
    hstart fun t ht => ht ▸ Token.endsFact_symbol (by simp) (by simp)

end Claim

theorem reads_assertionTree {F : Token → Prop} {d : AssertionTree} {levels : Nat}
    (h : d.Admissible) (hn : d.nesting ≤ levels) :
    Reads F (assertionWithin levels) d.tokens d.value := by
  have hperiod : Reads F (expect (.symbol .period) >>= fun _ => pure d.value)
      [.symbol .period] d.value := (Reads.expect _).map fun _ => d.value
  have hclaim : Reads F (claimWithin levels >>= fun c => expect (.symbol .period) >>= fun _ =>
      pure (d.speaker.value, c)) (d.claim.tokens ++ [.symbol .period]) d.value :=
    (reads_claimTree h.2 hn).bind_cons hperiod rfl
  exact (reads_entityTree h.1).bind_cons
    (.cons (fun _ _ _ => bind_of_eq_ok (expect_cons rfl)) hclaim) (by simp)

end AuthLogic.Parser
