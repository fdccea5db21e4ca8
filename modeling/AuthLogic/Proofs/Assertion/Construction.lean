import AuthLogic.Assertion

/-! # Construction of assertions

Assertions are built in a scope, directly or in the next one of a supply, from
given parts or from a text. All of them record the speaker on every antecedent.
-/

namespace AuthLogic.Assertion

/-- What the constructors of assertions build. -/
inductive Constructed : Assertion → Prop

  | inScope (scope : Scope) (speaker : Entity) (claim : Claim) :
      Constructed (inScope scope speaker claim)

  | new (speaker : Entity) (claim : Claim) (scopes : ScopeSupply) :
      Constructed (Assertion.new speaker claim scopes).1

  | ofFact (speaker : Entity) (consequent : Fact) (scopes : ScopeSupply) :
      Constructed (ofFact speaker consequent scopes).1

  | canActAs (speaker subject : Entity) (role : Constant) (scopes : ScopeSupply) :
      Constructed (canActAs speaker subject role scopes).1

  | canSay (speaker : Entity) (delegate : Constant) (depth : Depth) (fact : Fact)
      (scopes : ScopeSupply) : Constructed (canSay speaker delegate depth fact scopes).1

  | parse {levels : Nat} {text : String} {scopes scopes' : ScopeSupply} {a : Assertion} :
      parse levels text scopes = .ok (a, scopes') → Constructed a

variable {a : Assertion}

theorem read_of_error {levels : Nat} {text : String} {e : Failure}
    (h : parseAssertion levels text = .error e) (scopes : ScopeSupply) :
    read levels text scopes = (.error e, scopes) := by
  rw [read, h]

theorem read_of_ok {levels : Nat} {text : String} {speaker : Entity} {claim : Claim}
    (h : parseAssertion levels text = .ok (speaker, claim)) (scopes : ScopeSupply) :
    read levels text scopes = (.ok (inScope scopes.next.1 speaker claim), scopes.next.2) := by
  rw [read, h]
  rfl

theorem parse_eq_ok {levels : Nat} {text : String} {scopes scopes' : ScopeSupply}
    (h : parse levels text scopes = .ok (a, scopes')) :
    ∃ speaker claim, parseAssertion levels text = .ok (speaker, claim) ∧
      a = inScope scopes.next.1 speaker claim ∧ scopes' = scopes.next.2 := by
  cases hp : parseAssertion levels text with
  | error e =>
    rw [parse, read_of_error hp] at h
    cases h
  | ok parts =>
    obtain ⟨speaker, claim⟩ := parts
    rw [parse, read_of_ok hp] at h
    cases h
    exact ⟨speaker, claim, rfl, rfl, rfl⟩

theorem Constructed.exists_inScope (h : Constructed a) :
    ∃ scope speaker claim, a = Assertion.inScope scope speaker claim := by
  cases h with
  | inScope scope speaker claim => exact ⟨scope, speaker, claim, rfl⟩
  | new speaker claim scopes => exact ⟨_, speaker, claim, rfl⟩
  | ofFact speaker consequent scopes => exact ⟨_, speaker, _, rfl⟩
  | canActAs speaker subject role scopes => exact ⟨_, speaker, _, rfl⟩
  | canSay speaker delegate depth fact scopes => exact ⟨_, speaker, _, rfl⟩
  | parse h =>
    obtain ⟨speaker, claim, -, rfl, -⟩ := parse_eq_ok h
    exact ⟨_, speaker, claim, rfl⟩

theorem speaker?_of_mem_inScope {scope : Scope} {speaker : Entity} {claim : Claim} {f : Fact}
    (hf : f ∈ (inScope scope speaker claim).claim.antecedents) :
    f.speaker? = some (inScope scope speaker claim).speaker := by
  obtain ⟨g, -, rfl⟩ := List.mem_map.mp hf
  rfl

theorem Constructed.speaker?_of_mem (h : Constructed a) {f : Fact}
    (hf : f ∈ a.claim.antecedents) : f.speaker? = some a.speaker := by
  obtain ⟨scope, speaker, claim, rfl⟩ := h.exists_inScope
  exact speaker?_of_mem_inScope hf

end AuthLogic.Assertion
