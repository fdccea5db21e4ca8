import AuthLogic.Config.Basic
import AuthLogic.Proofs.Assertion.Readable
import AuthLogic.Proofs.Syntax.Misreading

/-! # Reading assertions back

The text of an assertion that was read from a text is read as the same assertion
in another scope, if and only if its constraint is plain and nested no deeper
than there are levels.
-/

namespace AuthLogic

open AuthLogic.Parser

namespace Parser

variable {levels : Nat} {ls rest : List Lexeme}

/-! ## Claims -/

theorem claim_append {c : Claim} (h : c.Readable levels)
    (hls : ls.map Lexeme.token = c.consequent.tokens ++ c.conditionTokens)
    (hrest : Next (fun t => t = .keyword .where ∨ t = .symbol .period) rest) :
    claimWithin levels (ls ++ rest) =
      guarded levels c.consequent.bare (c.antecedents.map Fact.bare) rest := by
  have hends : Next (fun t => t.EndsFact ∧ t ≠ .symbol .comma) rest := by
    refine hrest.mono fun t ht => ?_
    rcases ht with rfl | rfl
    · exact ⟨Token.endsFact_keyword .where, by simp⟩
    · exact ⟨Token.endsFact_symbol (by simp) (by simp), by simp⟩
  obtain ⟨ls₁, ls₂, rfl, h₁, h₂⟩ := List.map_eq_append_iff.mp hls
  unfold Claim.conditionTokens at h₂
  rw [claim_eq, List.append_assoc]
  cases ha : c.antecedents with
  | nil =>
    rw [ha] at h₂
    rw [List.map_eq_nil_iff.mp h₂, List.nil_append]
    have hconsequent := reads_fact h.consequent ls₁ rest h₁ (hends.mono fun _ ht => ht.1)
    have hif : Next (· ≠ .keyword .if) rest := by
      refine hrest.mono fun t ht => ?_
      rcases ht with rfl | rfl <;> simp
    rw [bind_of_eq_ok hconsequent, bind_of_eq_ok (eat_of_ne hif)]
    rfl
  | cons f fs =>
    rw [ha] at h₂
    obtain ⟨l, ls₂, rfl, hl, h₂⟩ := List.map_eq_cons_iff.mp h₂
    have hconsequent := reads_fact h.consequent ls₁ (l :: ls₂ ++ rest) h₁ (by
      rw [List.cons_append, next_cons_iff, hl]
      exact Token.endsFact_keyword .if)
    have hfacts := reads_commas (fun g hg => reads_fact (h.antecedents g (ha ▸ hg)))
      (Token.endsFact_symbol (by simp) (by simp)) ls₂ rest h₂ hends
    rw [bind_of_eq_ok hconsequent, List.cons_append, bind_of_eq_ok (eat_cons hl), if_pos rfl,
      bind_of_eq_ok hfacts]

theorem guarded_of_fits {c : Claim} (h : c.Readable levels) (hc : c.constraint.Fits levels)
    {l : Lexeme} (hls : ls.map Lexeme.token = c.guardTokens) (hl : l.token = .symbol .period) :
    guarded levels c.consequent.bare (c.antecedents.map Fact.bare) (ls ++ [l]) =
      .ok (c.bare, [l]) := by
  unfold Claim.guardTokens at hls
  split at hls
  case isTrue htrivial =>
    have hne : Next (· ≠ .keyword .where) [l] := by
      rw [next_cons_iff, hl]
      simp
    have hconstraint : c.constraint = .trivial := of_decide_eq_true htrivial
    rw [List.map_eq_nil_iff.mp hls, List.nil_append, guarded_of_ne hne, Claim.bare, hconstraint]
    rfl
  case isFalse =>
    obtain ⟨k, ls, rfl, hk, hls⟩ := List.map_eq_cons_iff.mp hls
    have hnext : Next Token.EndsConstraint [l] := next_endsConstraint_symbol hl (by simp) rfl
    rw [List.cons_append, guarded_cons hk,
      bind_of_eq_ok (reads_constraint h.constraint hc ls [l] hls hnext)]
    rfl

theorem fits_of_guarded {c d : Claim} (h : c.Readable levels) {f : Fact} {fs : List Fact}
    {l : Lexeme} (hls : ls.map Lexeme.token = c.guardTokens) (hl : l.token = .symbol .period)
    (hd : guarded levels f fs (ls ++ [l]) = .ok (d, rest))
    (hrest : Next (comparison? · = none) rest)
    (hbare : Term.bare d.constraint = Term.bare c.constraint) : c.constraint.Fits levels := by
  unfold Claim.guardTokens at hls
  split at hls
  case isTrue htrivial =>
    have hconstraint : c.constraint = .trivial := of_decide_eq_true htrivial
    rw [hconstraint]
    exact ⟨rfl, Nat.zero_lt_of_lt h.consequent.2⟩
  case isFalse =>
    obtain ⟨k, ls, rfl, hk, hls⟩ := List.map_eq_cons_iff.mp hls
    have hnext : Next Token.EndsConstraint [l] := next_endsConstraint_symbol hl (by simp) rfl
    rw [List.cons_append, guarded_cons hk] at hd
    obtain ⟨e, mid, he, hd⟩ := bind_eq_ok_iff.mp hd
    cases hd
    exact fits_of_constraint h.constraint hls hnext he hrest hbare

/-! ## Assertions -/

theorem assertion_append {a : Assertion} (h : a.Readable levels)
    (hls : ls.map Lexeme.token = a.tokens) :
    ∃ ls' l, ls'.map Lexeme.token = a.claim.guardTokens ∧ l.token = .symbol .period ∧
      assertionWithin levels ls = (do
        let claim ← guarded levels a.claim.consequent.bare (a.claim.antecedents.map Fact.bare)
        expect (.symbol .period)
        return (Term.bare a.speaker, claim)) (ls' ++ [l]) := by
  obtain ⟨k, ls, rfl, hk, hls⟩ := List.map_eq_cons_iff.mp hls
  obtain ⟨m, ls, rfl, hm, hls⟩ := List.map_eq_cons_iff.mp hls
  obtain ⟨ls, ls₃, rfl, hls, h₃⟩ := List.map_eq_append_iff.mp hls
  obtain ⟨ls₁, ls₂, rfl, h₁, h₂⟩ := List.map_eq_append_iff.mp hls
  obtain ⟨l, rfl, hl⟩ := List.map_eq_singleton_iff.mp h₃
  refine ⟨ls₂, l, h₂, hl, ?_⟩
  have hnext : Next (fun t => t = .keyword .where ∨ t = .symbol .period) (ls₂ ++ [l]) := by
    refine .append h₂ (fun t ht => ?_) (next_cons_iff.mpr (.inr hl))
    unfold Claim.guardTokens at ht
    split at ht <;> cases ht
    exact .inl rfl
  have hcolon : Next (· ≠ .symbol .colon) (m :: (ls₁ ++ ls₂ ++ [l])) := by
    rw [next_cons_iff, hm]
    simp
  have hspeaker := reads_entity h.speaker [k] _ (congrArg (· :: []) hk) hcolon
  rw [assertionWithin, assertionOf, ← List.singleton_append, liftM_eq, bind_of_eq_ok hspeaker,
    liftM_eq, bind_of_eq_ok (expect_cons hm), List.append_assoc]
  change (claimWithin levels (ls₁ ++ (ls₂ ++ [l])) >>= _) = _
  rw [claim_append h.claim h₁ hnext]
  rfl

theorem assertion_of_fits {a : Assertion} (h : a.Readable levels)
    (hfits : a.claim.constraint.Fits levels) (hls : ls.map Lexeme.token = a.tokens) :
    assertionWithin levels ls = .ok ((Term.bare a.speaker, a.claim.bare), []) := by
  obtain ⟨ls', l, hls', hl, heq⟩ := assertion_append h hls
  rw [heq, bind_of_eq_ok (guarded_of_fits h.claim hfits hls' hl), bind_of_eq_ok (expect_cons hl)]
  rfl

theorem fits_of_assertion {a : Assertion} (h : a.Readable levels)
    (hls : ls.map Lexeme.token = a.tokens) {e : Entity} {c : Claim}
    (hc : assertionWithin levels ls = .ok ((e, c), rest))
    (hbare : Term.bare c.constraint = Term.bare a.claim.constraint) :
    a.claim.constraint.Fits levels := by
  obtain ⟨ls', l, hls', hl, heq⟩ := assertion_append h hls
  rw [heq] at hc
  obtain ⟨d, mid, hd, hc⟩ := bind_eq_ok_iff.mp hc
  obtain ⟨_, mid', hclose, hc⟩ := bind_eq_ok_iff.mp hc
  cases hc
  obtain ⟨r, rfl, hr⟩ := expect_eq_ok_iff.mp hclose
  have hend : Next (comparison? · = none) (r :: rest) := by
    rw [next_cons_iff, hr]
    rfl
  exact fits_of_guarded h.claim hls' hl hd hend hbare

end Parser

namespace Assertion

variable {levels : Nat} {text : String} {a b : Assertion}

/-- Equal up to the scopes, and the types that variables are written with. -/
def SameUpToScope (a b : Assertion) : Prop :=
  Term.Same (a.stamp .unscoped) (b.stamp .unscoped)

theorem sameUpToScope_iff :
    a.SameUpToScope b ↔
      Term.bare a.speaker = Term.bare b.speaker ∧ Term.bare a.claim = Term.bare b.claim := by
  have h (c : Assertion) : Term.untyped (c.stamp .unscoped) =
      { speaker := Term.bare c.speaker, claim := Term.bare c.claim, scope := .unscoped } := by
    rw [← Term.untyped_stamp_unscoped, ← Term.untyped_stamp_unscoped]
    rfl
  rw [SameUpToScope, Term.Same, h, h, Assertion.mk.injEq, and_iff_left rfl]

theorem parse_eq_ok_iff {scopes scopes' : ScopeSupply} :
    parse levels text scopes = .ok (b, scopes') ↔
      ∃ speaker claim, parseAssertion levels text = .ok (speaker, claim) ∧
        b = inScope scopes.next.1 speaker claim ∧ scopes' = scopes.next.2 := by
  constructor
  · exact parse_eq_ok
  · rintro ⟨speaker, claim, h, rfl, rfl⟩
    rw [parse, read_of_ok h]
    rfl

theorem readable_of_parse {scopes scopes' : ScopeSupply}
    (h : parse levels text scopes = .ok (a, scopes')) :
    a.Readable levels ∧ a.claim.consequent.speaker? = none := by
  obtain ⟨speaker, claim, hparse, rfl, -⟩ := parse_eq_ok h
  obtain ⟨ls, hls, hread⟩ := parseAssertion_eq_ok_iff.mp hparse
  obtain ⟨⟨hspeaker, hclaim, hnone⟩, -⟩ :=
    yields_assertion levels ls _ _ (Lexeme.lexable_of_ofChars hls) hread
  refine ⟨readable_inScope hspeaker hclaim, ?_⟩
  rw [consequent_inScope]
  exact congrArg (Option.map _) hnone

/-- Without written types there are no obligations to state. -/
theorem expand_bare (scope : Scope) (speaker : Entity) (claim : Claim) :
    (Term.stamp scope claim.bare).expand (Term.stamp scope (Term.bare speaker)) =
      Term.stamp scope claim.bare := by
  have hnone : ∀ m ∈ Term.mentions (Term.stamp scope (Term.bare speaker)) ++
      Term.mentions (Term.stamp scope claim.bare), Obligation.ofMention? m = none := by
    intro m hm
    have htype : m.type? = none := by
      rcases List.mem_append.mp hm with hm | hm
      · exact Term.type?_of_mem_mentions rfl hm
      · exact Term.type?_of_mem_mentions claim.entities_bare hm
    rw [Obligation.ofMention?, Mention.obligation?, htype]
    rfl
  rw [Claim.expand, Obligation.ofAssertion, List.filterMap_eq_nil_iff.mpr hnone]
  rfl

theorem bare_recorded {f : Fact} {speaker : Entity} (h : f.speaker? = some speaker)
    (scope : Scope) :
    Term.bare { Term.stamp scope f.bare with
      speaker? := some (Term.stamp scope (Term.bare speaker)) } = Term.bare f := by
  obtain ⟨subject, object, speaker?⟩ := f
  cases h
  change Fact.mk (Term.bare (Term.stamp scope (Term.bare subject)))
    (Term.bare (Term.stamp scope (Term.bare object)))
    (some (Term.bare (Term.stamp scope (Term.bare speaker)))) =
      ⟨Term.bare subject, Term.bare object, some (Term.bare speaker)⟩
  simp only [Term.bare_stamp, Term.bare_bare]

theorem sameUpToScope_inScope_bare (hnone : a.claim.consequent.speaker? = none)
    (hsome : ∀ f ∈ a.claim.antecedents, f.speaker? = some a.speaker) (scope : Scope) :
    a.SameUpToScope (inScope scope (Term.bare a.speaker) a.claim.bare) := by
  rw [sameUpToScope_iff, inScope]
  dsimp only
  rw [expand_bare]
  refine ⟨by rw [Term.bare_stamp, Term.bare_bare], ?_⟩
  have hantecedents : Term.bare ((Term.stamp scope (a.claim.antecedents.map Fact.bare)).map
      fun f => { f with speaker? := some (Term.stamp scope (Term.bare a.speaker)) }) =
        Term.bare a.claim.antecedents := by
    change List.map _ (List.map _ (List.map _ (List.map _ _))) = List.map _ _
    rw [List.map_map, List.map_map, List.map_map]
    exact List.map_congr_left fun f hf => bare_recorded (hsome f hf) scope
  have hconsequent : Term.bare (Term.stamp scope a.claim.consequent.bare) =
      Term.bare a.claim.consequent := by
    rw [Term.bare_stamp, Fact.bare_eq hnone, Term.bare_bare]
  have hconstraint : Term.bare (Term.stamp scope (Term.bare a.claim.constraint)) =
      Term.bare a.claim.constraint := by
    rw [Term.bare_stamp, Term.bare_bare]
  change Claim.mk _ _ _ = Claim.mk _ _ _
  rw [Claim.mk.injEq]
  exact ⟨hconsequent.symm, hantecedents.symm, hconstraint.symm⟩

/-- Reading back the text of an assertion gives the same assertion exactly if its constraint
fits. -/
theorem parse_render_iff {scopes scopes' : ScopeSupply}
    (h : parse levels text scopes = .ok (a, scopes')) (scopes₂ : ScopeSupply) :
    (∃ b scopes₃, parse levels a.render scopes₂ = .ok (b, scopes₃) ∧ a.SameUpToScope b) ↔
      a.claim.constraint.Fits levels := by
  obtain ⟨hreadable, hnone⟩ := readable_of_parse h
  obtain ⟨ls, hls, htokens⟩ := hreadable.spells.exists_ofText
  constructor
  · rintro ⟨b, scopes₃, hb, hsame⟩
    obtain ⟨speaker, claim, hparse, rfl, -⟩ := parse_eq_ok hb
    obtain ⟨ls', hls', hread⟩ := parseAssertion_eq_ok_iff.mp hparse
    rw [hls] at hls'
    cases hls'
    have hconstraint := congrArg Claim.constraint (sameUpToScope_iff.mp hsame).2
    have hbare : Term.bare claim.constraint = Term.bare a.claim.constraint := by
      rw [← Term.bare_stamp scopes₂.next.1 claim.constraint, ← constraint_inScope _ speaker]
      exact hconstraint.symm
    exact fits_of_assertion hreadable htokens hread hbare
  · intro hfits
    have hread := assertion_of_fits hreadable hfits htokens
    refine ⟨_, _, parse_eq_ok_iff.mpr
      ⟨_, _, parseAssertion_eq_ok_iff.mpr ⟨ls, hls, hread⟩, rfl, rfl⟩, ?_⟩
    exact sameUpToScope_inScope_bare hnone
      (fun f hf => (Constructed.parse h).speaker?_of_mem hf) scopes₂.next.1

theorem exists_of_toOption {scopes : ScopeSupply} {P : Assertion → Bool}
    (h : ((parse levels text scopes).toOption.any fun r => P r.1) = true) :
    ∃ a scopes', parse levels text scopes = .ok (a, scopes') ∧ P a = true := by
  cases hp : parse levels text scopes with
  | error e =>
    rw [hp] at h
    cases h
  | ok r =>
    rw [hp] at h
    exact ⟨r.1, r.2, rfl, h⟩

/-- The guard is read as the negation of a comparison, which is plain. -/
theorem parse_render_iff_guest :
    ∃ a scopes', parse 64 "A says X enters if X:Guest waits where not f(X) < 2." {} =
        .ok (a, scopes') ∧ a.claim.constraint.Fits 64 ∧
      ∃ b scopes₃, parse 64 a.render scopes' = .ok (b, scopes₃) ∧ a.SameUpToScope b := by
  obtain ⟨a, scopes', h, hfits⟩ :
      ∃ a scopes', parse 64 "A says X enters if X:Guest waits where not f(X) < 2." {} =
        .ok (a, scopes') ∧ decide (a.claim.constraint.Fits 64) = true :=
    exists_of_toOption (P := fun a => decide (a.claim.constraint.Fits 64)) (by decide +kernel)
  have hfits := of_decide_eq_true hfits
  exact ⟨a, scopes', h, hfits, (parse_render_iff h scopes').mpr hfits⟩

/-- A comparison in the place of an operand is written without parentheses, and the text is none
of an assertion. -/
theorem exists_parse_render_error :
    ¬ ∀ (config : Config) (text : String) (scopes scopes' scopes₂ : ScopeSupply) (a : Assertion),
      parse config.levels text scopes = .ok (a, scopes') →
        ∃ b scopes₃, parse config.levels a.render scopes₂ = .ok (b, scopes₃) ∧
          a.SameUpToScope b := by
  intro h
  obtain ⟨a, scopes', ha, hrender⟩ :
      ∃ a scopes', parse 64 "A says B ok where (1 = 1) = true." {} = .ok (a, scopes') ∧
        decide (a.render = "A says B ok where 1 = 1 = true.") = true :=
    exists_of_toOption (P := fun a => decide (a.render = "A says B ok where 1 = 1 = true."))
      (by decide +kernel)
  have herror : (parse 64 "A says B ok where 1 = 1 = true." {}).toOption.isNone = true := by
    decide +kernel
  obtain ⟨b, scopes₃, hb, -⟩ := h {} _ {} scopes' {} a ha
  rw [of_decide_eq_true hrender] at hb
  have hb : parse 64 "A says B ok where 1 = 1 = true." {} = .ok (b, scopes₃) := hb
  rw [hb] at herror
  cases herror

end Assertion

end AuthLogic
