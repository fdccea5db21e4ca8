import AuthLogic.Proofs.Syntax.Derivability

/-! # Derivations of policies

A policy is any number of assertions, one after another. Its tokens tell where
each of them ends, and all of them are read with the same number of levels.
-/

namespace AuthLogic

/-- `policy := assertion*` -/
structure PolicyTree where
  assertions : List AssertionTree

namespace PolicyTree

def tokens (d : PolicyTree) : List Token :=
  d.assertions.flatMap AssertionTree.tokens

def Admissible (d : PolicyTree) : Prop :=
  ∀ a ∈ d.assertions, a.Admissible

/-- The speakers and the claims. -/
def value (d : PolicyTree) : List (Entity × Claim) :=
  d.assertions.map AssertionTree.value

def nesting (d : PolicyTree) : Nat :=
  (d.assertions.map AssertionTree.nesting).foldr max 0

theorem nesting_le_iff {d : PolicyTree} {n : Nat} :
    d.nesting ≤ n ↔ ∀ a ∈ d.assertions, a.nesting ≤ n := by
  rw [nesting, foldr_max_le_iff, List.forall_mem_map, and_iff_right (Nat.zero_le n)]

end PolicyTree

theorem AssertionTree.tokens_eq_cons (d : AssertionTree) : ∃ t ts, d.tokens = t :: ts := by
  obtain ⟨t, ts, hd, -⟩ := d.speaker.exists_head
  exact ⟨t, _, congrArg (· ++ _) hd⟩

/-- The tokens of a policy have one derivation only. -/
theorem PolicyTree.tokens_inj {d d' : PolicyTree} (h : d.tokens = d'.tokens) : d = d' := by
  obtain ⟨as⟩ := d
  obtain ⟨as'⟩ := d'
  -- nothing can follow a policy, so that the last assertion is told from further ones
  have has : Determines (fun _ => False) (List.flatMap AssertionTree.tokens) as := by
    refine determines_adjacent AssertionTree.determines (fun a => ?_) (fun _ _ => trivial) as
    obtain ⟨t, ts, ha⟩ := a.tokens_eq_cons
    exact ⟨t, ts, ha, trivial, id⟩
  obtain ⟨rfl, -⟩ := has as' [] [] starts_nil starts_nil (congrArg (· ++ []) h)
  rfl

namespace Parser

variable {levels : Nat}

theorem consumes_policy (levels : Nat) : Consumes (policyWithin levels)
    (Derived (fun d => d.Admissible ∧ d.nesting ≤ levels) PolicyTree.tokens PolicyTree.value) := by
  have hmore : Consumes (do return (← peek).isSome) fun ts b => ts = if b then [] else [] := by
    intro ls b rest h
    cases h
    exact ⟨[], rfl, (ite_self _).symm⟩
  refine (hmore.many (consumes_assertion levels)).mono fun ts rs hrs => ?_
  obtain ⟨ds, hds, rfl, rfl⟩ := hrs
  exact ⟨⟨ds⟩, ⟨fun a ha => (hds a ha).1, PolicyTree.nesting_le_iff.mpr fun a ha => (hds a ha).2⟩,
    rfl, rfl⟩

theorem reads_policyTree {d : PolicyTree} (h : d.Admissible) (hn : d.nesting ≤ levels) :
    Reads (fun _ => False) (policyWithin levels) d.tokens d.value := by
  have hn := PolicyTree.nesting_le_iff.mp hn
  refine reads_adjacent (F := fun _ => True)
    (fun a ha => reads_assertionTree (h a ha) (hn a ha)) (fun a _ => ?_)
    (fun a _ ls rest hls => ?_) (fun rest hrest => ?_) fun _ _ => trivial
  · obtain ⟨t, ts, ha⟩ := a.tokens_eq_cons
    exact ⟨t, ts, ha, trivial⟩
  · obtain ⟨t, ts, ha⟩ := a.tokens_eq_cons
    rw [ha] at hls
    obtain ⟨l, ls, rfl, -⟩ := List.map_eq_cons_iff.mp hls
    rfl
  · cases rest with
    | nil => rfl
    | cons l rest => exact (next_cons_iff.mp hrest).elim

theorem policy_eq_ok_iff {ls : List Lexeme} {rs : List (Entity × Claim)} :
    policyWithin levels ls = .ok (rs, []) ↔
      Derived (fun d => d.Admissible ∧ d.nesting ≤ levels) PolicyTree.tokens PolicyTree.value
        (ls.map Lexeme.token) rs := by
  constructor
  · intro h
    obtain ⟨taken, hls, hd⟩ := consumes_policy levels ls rs [] h
    rwa [hls, List.append_nil]
  · rintro ⟨d, ⟨hd, hn⟩, htokens, rfl⟩
    have hread := reads_policyTree hd hn ls [] htokens.symm (next_nil _)
    rwa [List.append_nil] at hread

end Parser

end AuthLogic
