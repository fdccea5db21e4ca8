import AuthLogic.Proofs.Syntax.PolicyReading
import Mathlib.Data.Nat.Basic
import Mathlib.Order.Basic

/-! # The nesting limit

A construct is open from where it starts to where it ends. Facts are constructs,
and so are negations and the constraints of where-clauses, parentheses and
arguments. A text is read with any number of levels that is not below the largest
number of constructs that are open at one of its points, and the levels change
nothing else.
-/

namespace AuthLogic

/-! ## Open constructs

At each verb phrase and atom, and at each name of a function, the number of constructs that are
open, the given ones around it included.
-/

def VerbPhraseTree.opened (n : Nat) : VerbPhraseTree → List Nat
  | canActAs _ | predicate _ _ => [n]
  | canSay _ _ object => n :: object.opened (n + 1)

def FactTree.opened (n : Nat) (d : FactTree) : List Nat :=
  d.object.opened (n + 1)

mutual

def ConstraintTree.opened (n : Nat) : ConstraintTree → List Nat
  | .disjunction first rest =>
    first.opened (n + 1) ++ rest.flatMap fun d => d.opened (n + 1)

def ConjunctionTree.opened (n : Nat) : ConjunctionTree → List Nat
  | .conjunction first rest => first.opened n ++ rest.flatMap fun d => d.opened n

def NegationTree.opened (n : Nat) : NegationTree → List Nat
  | .not operand => operand.opened (n + 1)
  | .comparison d => d.opened n

def ComparisonTree.opened (n : Nat) : ComparisonTree → List Nat
  | .atom d => d.opened n
  | .compare left _ right => left.opened n ++ right.opened n

def AtomTree.opened (n : Nat) : AtomTree → List Nat
  | .call _ args => n :: args.flatMap fun d => d.opened n
  | .parenthesized inner => inner.opened n
  | .bool _ | .int _ | .string _ | .name _ => [n]

end

def ClaimTree.opened (d : ClaimTree) : List Nat :=
  (d.consequent :: d.antecedents).flatMap (FactTree.opened 0) ++
    d.constraint?.toList.flatMap (ConstraintTree.opened 0)

namespace AssertionTree

def opened (d : AssertionTree) : List Nat :=
  d.claim.opened

/-- The largest number of constructs open at one point. -/
def peak (d : AssertionTree) : Nat :=
  d.opened.foldr max 0

end AssertionTree

namespace PolicyTree

def opened (d : PolicyTree) : List Nat :=
  d.assertions.flatMap AssertionTree.opened

/-- The largest number of constructs open at one point. -/
def peak (d : PolicyTree) : Nat :=
  d.opened.foldr max 0

end PolicyTree

/-! ## The levels that it takes -/

section Levels

variable {m : Nat}

/-- The points of a phrase and of further ones in the same place. -/
theorem forall_mem_opened_iff {δ : Type} {opened : δ → List Nat} {nesting : δ → Nat} {l : List Nat}
    {ds : List δ} {n k : Nat} (hl : (∀ i ∈ l, i ≤ m) ↔ n + k ≤ m)
    (hds : ∀ d ∈ ds, (∀ i ∈ opened d, i ≤ m) ↔ n + nesting d ≤ m) :
    (∀ i ∈ l ++ ds.flatMap opened, i ≤ m) ↔ n + (ds.map nesting).foldr max k ≤ m := by
  rw [List.forall_mem_append, hl, List.forall_mem_flatMap]
  induction ds with
  | nil => simp
  | cons d ds ih =>
    rw [List.forall_mem_cons] at hds
    rw [List.forall_mem_cons, hds.1, and_left_comm, ih hds.2, List.map_cons, List.foldr_cons]
    omega

theorem VerbPhraseTree.forall_mem_opened_iff (d : VerbPhraseTree) (n : Nat) :
    (∀ k ∈ d.opened n, k ≤ m) ↔ n + d.nesting ≤ m := by
  induction d generalizing n with
  | canActAs role => simp [opened, nesting]
  | predicate name args => simp [opened, nesting]
  | canSay depth subject object ih =>
    rw [opened, nesting, List.forall_mem_cons, ih]
    omega

theorem FactTree.forall_mem_opened_iff (d : FactTree) (n : Nat) :
    (∀ k ∈ d.opened n, k ≤ m) ↔ n + d.nesting ≤ m := by
  rw [opened, nesting, d.object.forall_mem_opened_iff]
  omega

mutual

theorem ConstraintTree.forall_mem_opened_iff : ∀ (d : ConstraintTree) (n : Nat),
    (∀ k ∈ d.opened n, k ≤ m) ↔ n + d.nesting ≤ m
  | .disjunction first rest, n => by
    have h := AuthLogic.forall_mem_opened_iff (first.forall_mem_opened_iff (n + 1))
      fun d (_ : d ∈ rest) => d.forall_mem_opened_iff (n + 1)
    rw [ConstraintTree.opened, ConstraintTree.nesting, h]
    omega

theorem ConjunctionTree.forall_mem_opened_iff : ∀ (d : ConjunctionTree) (n : Nat),
    (∀ k ∈ d.opened n, k ≤ m) ↔ n + d.nesting ≤ m
  | .conjunction first rest, n => by
    rw [ConjunctionTree.opened, ConjunctionTree.nesting]
    exact AuthLogic.forall_mem_opened_iff (first.forall_mem_opened_iff n)
      fun d _ => d.forall_mem_opened_iff n

theorem NegationTree.forall_mem_opened_iff : ∀ (d : NegationTree) (n : Nat),
    (∀ k ∈ d.opened n, k ≤ m) ↔ n + d.nesting ≤ m
  | .not operand, n => by
    rw [NegationTree.opened, NegationTree.nesting, operand.forall_mem_opened_iff]
    omega
  | .comparison d, n => by
    rw [NegationTree.opened, NegationTree.nesting]
    exact d.forall_mem_opened_iff n

theorem ComparisonTree.forall_mem_opened_iff : ∀ (d : ComparisonTree) (n : Nat),
    (∀ k ∈ d.opened n, k ≤ m) ↔ n + d.nesting ≤ m
  | .atom d, n => by
    rw [ComparisonTree.opened, ComparisonTree.nesting]
    exact d.forall_mem_opened_iff n
  | .compare left op right, n => by
    rw [ComparisonTree.opened, ComparisonTree.nesting, List.forall_mem_append,
      left.forall_mem_opened_iff, right.forall_mem_opened_iff]
    omega

theorem AtomTree.forall_mem_opened_iff : ∀ (d : AtomTree) (n : Nat),
    (∀ k ∈ d.opened n, k ≤ m) ↔ n + d.nesting ≤ m
  | .bool _, n | .int _, n | .string _, n | .name _, n => by
    simp [AtomTree.opened, AtomTree.nesting]
  | .call name args, n => by
    have hn : (∀ k ∈ [n], k ≤ m) ↔ n + 0 ≤ m := by simp
    rw [AtomTree.opened, AtomTree.nesting]
    exact AuthLogic.forall_mem_opened_iff hn fun d _ => d.forall_mem_opened_iff n
  | .parenthesized inner, n => by
    rw [AtomTree.opened, AtomTree.nesting]
    exact inner.forall_mem_opened_iff n

end

theorem ClaimTree.forall_mem_opened_iff (d : ClaimTree) :
    (∀ k ∈ d.opened, k ≤ m) ↔ d.nesting ≤ m := by
  simp only [opened, List.forall_mem_append, List.forall_mem_flatMap, List.forall_mem_cons,
    FactTree.forall_mem_opened_iff, ConstraintTree.forall_mem_opened_iff, Option.mem_toList,
    Option.mem_def, Nat.zero_add, nesting_le_iff, and_assoc]

end Levels

theorem AssertionTree.peak_le_iff {d : AssertionTree} {m : Nat} : d.peak ≤ m ↔ d.nesting ≤ m := by
  rw [peak, foldr_max_le_iff, and_iff_right (Nat.zero_le m)]
  exact d.claim.forall_mem_opened_iff

namespace PolicyTree

theorem peak_le_iff {d : PolicyTree} {m : Nat} : d.peak ≤ m ↔ d.nesting ≤ m := by
  rw [peak, foldr_max_le_iff, and_iff_right (Nat.zero_le m), opened, List.forall_mem_flatMap,
    nesting_le_iff]
  exact forall₂_congr fun a _ => a.claim.forall_mem_opened_iff

theorem peak_eq_foldr (d : PolicyTree) :
    d.peak = (d.assertions.map AssertionTree.peak).foldr max 0 := by
  refine eq_of_forall_ge_iff fun m => ?_
  rw [peak_le_iff, nesting_le_iff, foldr_max_le_iff, and_iff_right (Nat.zero_le m),
    List.forall_mem_map]
  exact forall₂_congr fun a _ => AssertionTree.peak_le_iff.symm

end PolicyTree

/-- A policy that is read under some limit is read under exactly the limits that are not below the
largest number of constructs open at one of its points, always as the same parts. If some constructs
were open before, then so many more can be open, and the count is back where it was in the end. The
largest number is the largest one of a single assertion. -/
theorem parsePolicy_eq_ok_iff_peak_le {levels₀ : Nat} {text : String}
    {parts : List (Entity × Claim)} (h : parsePolicy levels₀ text = .ok parts) :
    ∃ (ls : List Lexeme) (d : PolicyTree), Lexeme.ofText text = .ok ls ∧
      (∀ d' : PolicyTree, d'.tokens = ls.map Lexeme.token ↔ d' = d) ∧
      (∀ (levels : Nat) (parts' : List (Entity × Claim)),
        parsePolicy levels text = .ok parts' ↔ d.peak ≤ levels ∧ parts' = parts) ∧
      (∀ (depth levels depth' : Nat) (parts' : List (Entity × Claim)),
        Parser.Counted.policy (depth + levels) ls.length depth ls = .ok ((parts', depth'), []) ↔
          d.peak ≤ levels ∧ parts' = parts ∧ depth' = depth) ∧
      d.peak = (d.assertions.map AssertionTree.peak).foldr max 0 := by
  obtain ⟨ls, hls, hparse⟩ := parsePolicy_eq_ok_iff.mp h
  obtain ⟨d, ⟨hd, -⟩, htokens, rfl⟩ := Parser.policy_eq_ok_iff.mp hparse
  have hunique (d' : PolicyTree) : d'.tokens = ls.map Lexeme.token ↔ d' = d := by
    rw [← htokens]
    exact ⟨PolicyTree.tokens_inj, congrArg PolicyTree.tokens⟩
  have hwithin (levels : Nat) (parts' : List (Entity × Claim)) :
      Parser.policyWithin levels ls = .ok (parts', []) ↔ d.peak ≤ levels ∧ parts' = d.value := by
    rw [PolicyTree.peak_le_iff, Parser.policy_eq_ok_iff]
    constructor
    · rintro ⟨d', ⟨-, hn⟩, htokens', rfl⟩
      obtain rfl := (hunique d').mp htokens'
      exact ⟨hn, rfl⟩
    · rintro ⟨hn, rfl⟩
      exact ⟨d, ⟨hd, hn⟩, htokens, rfl⟩
  refine ⟨ls, d, hls, hunique, fun levels parts' => ?_, fun depth levels depth' parts' => ?_,
    d.peak_eq_foldr⟩
  · rw [parsePolicy_eq_ok_iff, ← hwithin]
    constructor
    · rintro ⟨ls', hls', hparse'⟩
      cases hls.symm.trans hls'
      exact hparse'
    · exact fun hparse' => ⟨ls, hls, hparse'⟩
  · -- counting from a depth on is reading with the levels that are left above it
    have hfollows : Parser.Counted.Follows ls.length depth
        (Parser.Counted.policy (depth + levels) ls.length) (Parser.policyWithin levels) :=
      .policy rfl
    rw [hfollows.eq_ok_iff (.policy _ _) (Nat.le_refl _), hwithin, and_assoc]

/-- Two facts inside of one another are open in the first assertion, and in the second one the
guard, the negation, the argument and the parentheses. -/
theorem parsePolicy_eq_ok_iff_peak_le_desk :
    let text := "A says B can-say inf X can-act-as Admin. C says X ok where not f((X)) and 1 < 2."
    ∃ parts, parts.length = 2 ∧ ∀ (levels : Nat) (parts' : List (Entity × Claim)),
      parsePolicy levels text = .ok parts' ↔ 4 ≤ levels ∧ parts' = parts := by
  intro text
  have hlength : (parsePolicy 4 text).toOption.map List.length = some 2 := by decide +kernel
  have hthree : (parsePolicy 3 text).toOption.isNone = true := by decide +kernel
  cases hparts : parsePolicy 4 text with
  | error e =>
    rw [hparts] at hlength
    cases hlength
  | ok parts =>
    rw [hparts] at hlength
    obtain ⟨ls, d, -, -, hread, -, -⟩ := parsePolicy_eq_ok_iff_peak_le hparts
    have hle : d.peak ≤ 4 := ((hread 4 parts).mp hparts).1
    have hlt : 3 < d.peak := by
      refine Nat.lt_of_not_le fun hle => ?_
      rw [(hread 3 parts).mpr ⟨hle, rfl⟩] at hthree
      cases hthree
    have hpeak : d.peak = 4 := by omega
    exact ⟨parts, Option.some.inj hlength, fun levels parts' => hpeak ▸ hread levels parts'⟩

end AuthLogic
