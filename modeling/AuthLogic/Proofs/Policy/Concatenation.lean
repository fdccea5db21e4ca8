import AuthLogic.Proofs.Policy.Partition
import AuthLogic.Proofs.Syntax.Seams

/-! # Concatenation of policies

Two policies on consecutive lines are one policy. Its assertions are those of the
first text and then those of the second one, sorted as they are when the texts
are loaded one after the other.
-/

namespace AuthLogic

/-- The derivations of both texts are put one behind the other, neither within the other. -/
theorem parsePolicy_concat {levels : Nat} {t u : String} {ps qs : List (Entity × Claim)}
    (ht : parsePolicy levels t = .ok ps) (hu : parsePolicy levels u = .ok qs) :
    parsePolicy levels (t ++ "\n" ++ u) = .ok (ps ++ qs) := by
  obtain ⟨ls, hls, hread⟩ := parsePolicy_eq_ok_iff.mp ht
  obtain ⟨ls', hls', hread'⟩ := parsePolicy_eq_ok_iff.mp hu
  obtain ⟨d, ⟨hd, hn⟩, htokens, rfl⟩ := Parser.policy_eq_ok_iff.mp hread
  obtain ⟨d', ⟨hd', hn'⟩, htokens', rfl⟩ := Parser.policy_eq_ok_iff.mp hread'
  obtain ⟨both, hboth, htokens_both⟩ := Lexeme.ofText_concat hls hls'
  refine parsePolicy_eq_ok_iff.mpr ⟨both, hboth, Parser.policy_eq_ok_iff.mpr
    ⟨⟨d.assertions ++ d'.assertions⟩, ⟨?_, ?_⟩, ?_, List.map_append⟩⟩
  · exact List.forall_mem_append.mpr ⟨hd, hd'⟩
  · rw [PolicyTree.nesting_le_iff] at hn hn' ⊢
    exact List.forall_mem_append.mpr ⟨hn, hn'⟩
  · rw [htokens_both, ← htokens, ← htokens']
    exact List.flatMap_append

namespace Screening

/-- What is accepted and what is rejected of two policies, in order. -/
def append (p q : Screening) : Screening where
  accepted := p.accepted ++ q.accepted
  rejected := p.rejected ++ q.rejected

theorem ofAssertions_append (as bs : List Assertion) :
    ofAssertions (as ++ bs) = (ofAssertions as).append (ofAssertions bs) := by
  induction as with
  | nil => rfl
  | cons a as ih =>
    rw [List.cons_append, ofAssertions, ofAssertions, ih]
    split <;> rfl

end Screening

namespace Policy

variable {levels : Nat} {t u : String} {ps qs : List (Entity × Claim)}

theorem build_append (ps qs : List (Entity × Claim)) (scopes : ScopeSupply) :
    build (ps ++ qs) scopes =
      ((build ps scopes).1 ++ (build qs (build ps scopes).2).1,
        (build qs (build ps scopes).2).2) := by
  induction ps generalizing scopes with
  | nil => rfl
  | cons part ps ih =>
    have ih := ih (Assertion.new part.1 part.2 scopes).2
    simp only [List.cons_append, build, ih]

theorem load_of_parsePolicy (h : parsePolicy levels t = .ok ps) (scopes : ScopeSupply) :
    load levels t scopes = .ok (.ofAssertions (build ps scopes).1, (build ps scopes).2) :=
  load_of_parse (by rw [parse, read, h]; rfl)

theorem exists_parsePolicy_of_load {scopes : ScopeSupply} {r : Screening × ScopeSupply}
    (h : load levels t scopes = .ok r) : ∃ ps, parsePolicy levels t = .ok ps := by
  cases hparse : parse levels t scopes with
  | error e => cases (load_eq_error_iff.mpr hparse).symm.trans h
  | ok as =>
    obtain ⟨ps, hps, -⟩ := parse_eq_ok_iff.mp hparse
    exact ⟨ps, hps⟩

/-- Two texts that can be loaded can be loaded as one, with a line break between them. From any
supply of scopes that is the same as to load the first text and after it the second one. -/
theorem load_concat (ht : ∃ scopes r, load levels t scopes = .ok r)
    (hu : ∃ scopes r, load levels u scopes = .ok r) (scopes : ScopeSupply) :
    ∃ p q scopes' scopes'', load levels t scopes = .ok (p, scopes') ∧
      load levels u scopes' = .ok (q, scopes'') ∧
      load levels (t ++ "\n" ++ u) scopes = .ok (p.append q, scopes'') := by
  obtain ⟨_, _, ht⟩ := ht
  obtain ⟨_, _, hu⟩ := hu
  obtain ⟨ps, hps⟩ := exists_parsePolicy_of_load ht
  obtain ⟨qs, hqs⟩ := exists_parsePolicy_of_load hu
  have hboth := load_of_parsePolicy (parsePolicy_concat hps hqs) scopes
  rw [build_append, Screening.ofAssertions_append] at hboth
  exact ⟨_, _, _, _, load_of_parsePolicy hps scopes, load_of_parsePolicy hqs _, hboth⟩

/-- The first text ends within a comment, and the second one starts with a string. -/
theorem load_concat_comment :
    let t := "Hr says Ann enters. Hr says X enters. // not yet: \"Eve"
    let u := "\"Dr Who\" says X:Guest enters.\n// if X waits"
    ∃ p q scopes' scopes'', load 64 t ⟨⟨7⟩⟩ = .ok (p, scopes') ∧
      load 64 u scopes' = .ok (q, scopes'') ∧
      load 64 (t ++ "\n" ++ u) ⟨⟨7⟩⟩ = .ok (p.append q, scopes'') := by
  intro t u
  have ht : load 64 t {} = .ok ((load 64 t {}).toOption.getD default) :=
    Parser.toOption_eq_some_iff.mp (by decide +kernel)
  have hu : load 64 u {} = .ok ((load 64 u {}).toOption.getD default) :=
    Parser.toOption_eq_some_iff.mp (by decide +kernel)
  exact load_concat ⟨_, _, ht⟩ ⟨_, _, hu⟩ ⟨⟨7⟩⟩

end Policy

end AuthLogic
