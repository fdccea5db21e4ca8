import AuthLogic.Proofs.Syntax.Legibility
import AuthLogic.Syntax.Grammar

/-! # Derivations

The derivation trees of the grammar of assertions, one type for each of its
phrases. A tree tells the tokens that it derives, the term that these stand for,
whether it meets what is asked beyond the grammar, and how deep it is nested: the
levels that it takes to read it.
-/

namespace AuthLogic

/-! ## Entities -/

/-- `NAME (':' NAME)?` -/
structure NameTree where
  text : String
  type? : Option String

namespace NameTree

def tokens : NameTree → List Token
  | ⟨text, none⟩ => [.name text]
  | ⟨text, some type⟩ => [.name text, .symbol .colon, .name type]

/-- Only variables carry a type. -/
def Admissible (d : NameTree) : Prop :=
  d.type?.isSome → isVariableName d.text = true

def value (d : NameTree) : Entity :=
  if isVariableName d.text then .var ⟨{ name := d.text }, d.type?⟩ else .const ⟨d.text⟩

end NameTree

/-- `entity := NAME (':' NAME)? | STRING` -/
inductive EntityTree
  | name (d : NameTree)
  | string (text : String)

namespace EntityTree

def tokens : EntityTree → List Token
  | name d => d.tokens
  | string text => [.str text]

def Admissible : EntityTree → Prop
  | name d => d.Admissible
  | string _ => True

def value : EntityTree → Entity
  | name d => d.value
  | string text => .const ⟨text⟩

/-- The name of the constant or variable. -/
def text : EntityTree → String
  | name d => d.text
  | string text => text

end EntityTree

/-! ## Facts -/

/-- `depth := INT | 'inf'` -/
inductive DepthTree
  | hops (n : Int64)
  | inf

namespace DepthTree

def token : DepthTree → Token
  | hops n => .int n
  | inf => .keyword .inf

/-- Hops are counted in 32 bits. -/
def Admissible : DepthTree → Prop
  | hops n => 0 ≤ n.toInt ∧ n.toInt.toNat < UInt32.size
  | inf => True

def value : DepthTree → Depth
  | hops n => .bounded (UInt32.ofNat n.toInt.toNat)
  | inf => .unbounded

end DepthTree

/-- `args := '(' (entity (',' entity)*)? ')' | entity*` -/
inductive ArgsTree
  | listed (entities : List EntityTree)
  | bare (entities : List EntityTree)

namespace ArgsTree

def entities : ArgsTree → List EntityTree
  | listed es => es
  | bare es => es

def tokens : ArgsTree → List Token
  | listed es => .symbol .lparen :: (commas (es.map EntityTree.tokens) ++ [.symbol .rparen])
  | bare es => es.flatMap EntityTree.tokens

def Admissible (d : ArgsTree) : Prop :=
  ∀ e ∈ d.entities, e.Admissible

def value (d : ArgsTree) : List Entity :=
  d.entities.map EntityTree.value

end ArgsTree

/-- `verb-phrase := 'can-act-as' entity | 'can-say' depth fact | WORD args`, where the delegated
fact comes in its parts. -/
inductive VerbPhraseTree
  | canActAs (role : EntityTree)
  | canSay (depth : DepthTree) (subject : EntityTree) (object : VerbPhraseTree)
  | predicate (name : String) (args : ArgsTree)

namespace VerbPhraseTree

def tokens : VerbPhraseTree → List Token
  | canActAs role => .keyword .canActAs :: role.tokens
  | canSay depth subject object =>
    .keyword .canSay :: depth.token :: (subject.tokens ++ object.tokens)
  | predicate name args => .word name :: args.tokens

/-- A role is a constant. -/
def Admissible : VerbPhraseTree → Prop
  | canActAs role => role.Admissible ∧ role.value = .const ⟨role.text⟩
  | canSay depth subject object => depth.Admissible ∧ subject.Admissible ∧ object.Admissible
  | predicate _ args => args.Admissible

def value : VerbPhraseTree → VerbPhrase
  | canActAs role => .canActAs ⟨role.text⟩
  | canSay depth subject object =>
    .delegate depth.value { subject := subject.value, object := object.value }
  | predicate name args => .predicate name args.value

/-- The number of delegated facts inside of one another. -/
def nesting : VerbPhraseTree → Nat
  | canSay _ _ object => object.nesting + 1
  | _ => 0

end VerbPhraseTree

/-- `fact := entity verb-phrase` -/
structure FactTree where
  subject : EntityTree
  object : VerbPhraseTree

namespace FactTree

def tokens (d : FactTree) : List Token :=
  d.subject.tokens ++ d.object.tokens

def Admissible (d : FactTree) : Prop :=
  d.subject.Admissible ∧ d.object.Admissible

def value (d : FactTree) : Fact where
  subject := d.subject.value
  object := d.object.value

def nesting (d : FactTree) : Nat :=
  d.object.nesting + 1

end FactTree

/-! ## Constraints -/

inductive Comparator
  | eq
  | notEq
  | less
  | lessEq
  | greater
  | greaterEq

namespace Comparator

def token : Comparator → Token
  | eq => .symbol .eq
  | notEq => .symbol .notEq
  | less => .symbol .less
  | lessEq => .symbol .lessEq
  | greater => .symbol .greater
  | greaterEq => .symbol .greaterEq

/-- Inequality is a negated equality; what is greater has the lesser one on its left. -/
def value (l r : Constraint) : Comparator → Constraint
  | eq => .binary .eq l r
  | notEq => .not (.binary .eq l r)
  | less => .binary .less l r
  | lessEq => .binary .lessEq l r
  | greater => .binary .less r l
  | greaterEq => .binary .lessEq r l

end Comparator

mutual

/-- `constraint := conjunction ('or' conjunction)*` -/
inductive ConstraintTree
  | disjunction (first : ConjunctionTree) (rest : List ConjunctionTree)

/-- `conjunction := negation ('and' negation)*` -/
inductive ConjunctionTree
  | conjunction (first : NegationTree) (rest : List NegationTree)

/-- `negation := 'not' negation | comparison` -/
inductive NegationTree
  | not (operand : NegationTree)
  | comparison (d : ComparisonTree)

/-- `comparison := atom (('=' | '!=' | '<' | '<=' | '>' | '>=') atom)?` -/
inductive ComparisonTree
  | atom (d : AtomTree)
  | compare (left : AtomTree) (op : Comparator) (right : AtomTree)

/-- `atom := 'true' | 'false' | INT | STRING | NAME (':' NAME)?
| WORD '(' (constraint (',' constraint)*)? ')' | '(' constraint ')'` -/
inductive AtomTree
  | bool (b : Bool)
  | int (n : Int64)
  | string (text : String)
  | name (d : NameTree)
  | call (name : String) (args : List ConstraintTree)
  | parenthesized (inner : ConstraintTree)

end

mutual

def ConstraintTree.tokens : ConstraintTree → List Token
  | .disjunction first rest => first.tokens ++ rest.flatMap fun d => .keyword .or :: d.tokens

def ConjunctionTree.tokens : ConjunctionTree → List Token
  | .conjunction first rest => first.tokens ++ rest.flatMap fun d => .keyword .and :: d.tokens

def NegationTree.tokens : NegationTree → List Token
  | .not operand => .keyword .not :: operand.tokens
  | .comparison d => d.tokens

def ComparisonTree.tokens : ComparisonTree → List Token
  | .atom d => d.tokens
  | .compare left op right => left.tokens ++ op.token :: right.tokens

def AtomTree.tokens : AtomTree → List Token
  | .bool true => [.keyword .true]
  | .bool false => [.keyword .false]
  | .int n => [.int n]
  | .string text => [.str text]
  | .name d => d.tokens
  | .call name args =>
    .word name :: .symbol .lparen ::
      (commas (args.map ConstraintTree.tokens) ++ [.symbol .rparen])
  | .parenthesized inner => .symbol .lparen :: (inner.tokens ++ [.symbol .rparen])

end

mutual

def ConstraintTree.Admissible : ConstraintTree → Prop
  | .disjunction first rest => first.Admissible ∧ ∀ d ∈ rest, d.Admissible

def ConjunctionTree.Admissible : ConjunctionTree → Prop
  | .conjunction first rest => first.Admissible ∧ ∀ d ∈ rest, d.Admissible

def NegationTree.Admissible : NegationTree → Prop
  | .not operand => operand.Admissible
  | .comparison d => d.Admissible

def ComparisonTree.Admissible : ComparisonTree → Prop
  | .atom d => d.Admissible
  | .compare left _ right => left.Admissible ∧ right.Admissible

def AtomTree.Admissible : AtomTree → Prop
  | .name d => d.Admissible
  | .call _ args => ∀ d ∈ args, d.Admissible
  | .parenthesized inner => inner.Admissible
  | .bool _ | .int _ | .string _ => True

end

mutual

/-- Grouped from the left. -/
def ConstraintTree.value : ConstraintTree → Constraint
  | .disjunction first rest => (rest.map ConjunctionTree.value).foldl (.binary .or) first.value

/-- Grouped from the left. -/
def ConjunctionTree.value : ConjunctionTree → Constraint
  | .conjunction first rest => (rest.map NegationTree.value).foldl (.binary .and) first.value

def NegationTree.value : NegationTree → Constraint
  | .not operand => .not operand.value
  | .comparison d => d.value

def ComparisonTree.value : ComparisonTree → Constraint
  | .atom d => d.value
  | .compare left op right => op.value left.value right.value

def AtomTree.value : AtomTree → Constraint
  | .bool b => .bool b
  | .int n => .int n
  | .string text => .str text
  | .name d => .entity d.value
  | .call name args => .call name (args.map ConstraintTree.value)
  | .parenthesized inner => inner.value

end

mutual

/-- A constraint is a construct of its own, in parentheses and as an argument as well. -/
def ConstraintTree.nesting : ConstraintTree → Nat
  | .disjunction first rest => (rest.map ConjunctionTree.nesting).foldr max first.nesting + 1

def ConjunctionTree.nesting : ConjunctionTree → Nat
  | .conjunction first rest => (rest.map NegationTree.nesting).foldr max first.nesting

def NegationTree.nesting : NegationTree → Nat
  | .not operand => operand.nesting + 1
  | .comparison d => d.nesting

def ComparisonTree.nesting : ComparisonTree → Nat
  | .atom d => d.nesting
  | .compare left _ right => max left.nesting right.nesting

def AtomTree.nesting : AtomTree → Nat
  | .call _ args => (args.map ConstraintTree.nesting).foldr max 0
  | .parenthesized inner => inner.nesting
  | .bool _ | .int _ | .string _ | .name _ => 0

end

/-! ## Assertions -/

/-- `claim := fact ('if' fact (',' fact)*)? ('where' constraint)?` -/
structure ClaimTree where
  consequent : FactTree
  antecedents : List FactTree
  constraint? : Option ConstraintTree

namespace ClaimTree

def conditionTokens : List FactTree → List Token
  | [] => []
  | f :: fs => .keyword .if :: commas ((f :: fs).map FactTree.tokens)

def guardTokens : Option ConstraintTree → List Token
  | none => []
  | some c => .keyword .where :: c.tokens

def tokens (d : ClaimTree) : List Token :=
  d.consequent.tokens ++ (conditionTokens d.antecedents ++ guardTokens d.constraint?)

structure Admissible (d : ClaimTree) : Prop where
  consequent : d.consequent.Admissible
  antecedents : ∀ f ∈ d.antecedents, f.Admissible
  constraint : ∀ c ∈ d.constraint?, c.Admissible

def value (d : ClaimTree) : Claim where
  consequent := d.consequent.value
  antecedents := d.antecedents.map FactTree.value
  constraint := (d.constraint?.map ConstraintTree.value).getD .trivial

def nesting (d : ClaimTree) : Nat :=
  (d.antecedents.map FactTree.nesting).foldr max
    (max d.consequent.nesting ((d.constraint?.map ConstraintTree.nesting).getD 0))

end ClaimTree

/-- `assertion := entity 'says' claim '.'` -/
structure AssertionTree where
  speaker : EntityTree
  claim : ClaimTree

namespace AssertionTree

def tokens (d : AssertionTree) : List Token :=
  d.speaker.tokens ++ .keyword .say :: (d.claim.tokens ++ [.symbol .period])

def Admissible (d : AssertionTree) : Prop :=
  d.speaker.Admissible ∧ d.claim.Admissible

/-- The speaker and the claim. -/
def value (d : AssertionTree) : Entity × Claim :=
  (d.speaker.value, d.claim.value)

def nesting (d : AssertionTree) : Nat :=
  d.claim.nesting

end AssertionTree

/-! ## Nesting -/

theorem foldr_max_le_iff {l : List Nat} {m n : Nat} :
    l.foldr max m ≤ n ↔ m ≤ n ∧ ∀ k ∈ l, k ≤ n := by
  induction l with
  | nil => simp
  | cons k l ih =>
    rw [List.foldr_cons, Nat.max_le, ih, List.forall_mem_cons]
    exact and_left_comm

theorem ConstraintTree.nesting_disjunction_le_iff {first : ConjunctionTree}
    {rest : List ConjunctionTree} {n : Nat} :
    (disjunction first rest).nesting ≤ n + 1 ↔
      first.nesting ≤ n ∧ ∀ d ∈ rest, d.nesting ≤ n := by
  rw [nesting, Nat.succ_le_succ_iff, foldr_max_le_iff, List.forall_mem_map]

theorem ConjunctionTree.nesting_conjunction_le_iff {first : NegationTree}
    {rest : List NegationTree} {n : Nat} :
    (conjunction first rest).nesting ≤ n ↔ first.nesting ≤ n ∧ ∀ d ∈ rest, d.nesting ≤ n := by
  rw [nesting, foldr_max_le_iff, List.forall_mem_map]

theorem AtomTree.nesting_call_le_iff {name : String} {args : List ConstraintTree} {n : Nat} :
    (call name args).nesting ≤ n ↔ ∀ d ∈ args, d.nesting ≤ n := by
  rw [nesting, foldr_max_le_iff, List.forall_mem_map, and_iff_right (Nat.zero_le n)]

theorem ClaimTree.nesting_le_iff {d : ClaimTree} {n : Nat} :
    d.nesting ≤ n ↔ d.consequent.nesting ≤ n ∧ (∀ f ∈ d.antecedents, f.nesting ≤ n) ∧
      ∀ c ∈ d.constraint?, c.nesting ≤ n := by
  have hguard : (d.constraint?.map ConstraintTree.nesting).getD 0 ≤ n ↔
      ∀ c ∈ d.constraint?, c.nesting ≤ n := by
    cases d.constraint? <;> simp
  rw [nesting, foldr_max_le_iff, List.forall_mem_map, Nat.max_le, hguard]
  exact and_right_comm.trans and_assoc

/-! ## First tokens -/

theorem NameTree.tokens_eq_cons (d : NameTree) : ∃ ts, d.tokens = .name d.text :: ts := by
  obtain ⟨text, type?⟩ := d
  cases type? with
  | none => exact ⟨_, rfl⟩
  | some type => exact ⟨_, rfl⟩

/-- An entity starts with a name or a string. -/
theorem EntityTree.exists_head (d : EntityTree) :
    ∃ t ts, d.tokens = t :: ts ∧ ((∃ text, t = .str text) ∨ ∃ text, t = .name text) := by
  cases d with
  | name d =>
    obtain ⟨ts, hd⟩ := d.tokens_eq_cons
    exact ⟨_, ts, hd, .inr ⟨_, rfl⟩⟩
  | string text => exact ⟨_, [], rfl, .inl ⟨_, rfl⟩⟩

theorem EntityTree.exists_head_ne_symbol (d : EntityTree) (s : Symbol) :
    ∃ t ts, d.tokens = t :: ts ∧ t ≠ .symbol s := by
  obtain ⟨t, ts, hd, ht⟩ := d.exists_head
  refine ⟨t, ts, hd, ?_⟩
  rcases ht with ⟨text, rfl⟩ | ⟨text, rfl⟩ <;> simp

theorem VerbPhraseTree.exists_head_ne_symbol (d : VerbPhraseTree) (s : Symbol) :
    ∃ t ts, d.tokens = t :: ts ∧ t ≠ .symbol s := by
  cases d <;> exact ⟨_, _, rfl, by simp⟩

/-- The token that an atom starts with. -/
def AtomTree.head : AtomTree → Token
  | bool b => .keyword (if b then .true else .false)
  | int n => .int n
  | string text => .str text
  | name d => .name d.text
  | call function _ => .word function
  | parenthesized _ => .symbol .lparen

theorem AtomTree.tokens_eq_cons (d : AtomTree) : ∃ ts, d.tokens = d.head :: ts := by
  cases d with
  | name d =>
    rw [tokens]
    exact d.tokens_eq_cons
  | bool b => cases b <;> rw [tokens] <;> exact ⟨_, rfl⟩
  | _ =>
    rw [tokens]
    exact ⟨_, rfl⟩

theorem AtomTree.head_ne_not (d : AtomTree) : d.head ≠ .keyword .not := by
  cases d with
  | bool b => cases b <;> simp [head]
  | _ => simp [head]

theorem AtomTree.head_ne_rparen (d : AtomTree) : d.head ≠ .symbol .rparen := by
  cases d with
  | bool b => cases b <;> simp [head]
  | _ => simp [head]

theorem ComparisonTree.exists_head (d : ComparisonTree) :
    ∃ t ts, d.tokens = t :: ts ∧ t ≠ .keyword .not ∧ t ≠ .symbol .rparen := by
  cases d with
  | atom d =>
    obtain ⟨ts, hd⟩ := d.tokens_eq_cons
    exact ⟨_, ts, by rw [tokens, hd], d.head_ne_not, d.head_ne_rparen⟩
  | compare left op right =>
    obtain ⟨ts, hd⟩ := left.tokens_eq_cons
    exact ⟨_, ts ++ op.token :: right.tokens, by rw [tokens, hd, List.cons_append],
      left.head_ne_not, left.head_ne_rparen⟩

theorem NegationTree.exists_head (d : NegationTree) :
    ∃ t ts, d.tokens = t :: ts ∧ t ≠ .symbol .rparen := by
  cases d with
  | not operand =>
    rw [tokens]
    exact ⟨_, _, rfl, by simp⟩
  | comparison d =>
    obtain ⟨t, ts, hd, -, ht⟩ := d.exists_head
    exact ⟨t, ts, by rw [tokens, hd], ht⟩

theorem ConstraintTree.exists_head (d : ConstraintTree) :
    ∃ t ts, d.tokens = t :: ts ∧ t ≠ .symbol .rparen := by
  obtain ⟨⟨first, operands⟩, rest⟩ := d
  obtain ⟨t, ts, hd, ht⟩ := first.exists_head
  rw [tokens, ConjunctionTree.tokens, hd]
  exact ⟨t, _, rfl, ht⟩

/-! ## Nesting takes tokens -/

section Length

variable {δ : Type} {tokens : δ → List Token} {nesting : δ → Nat} {ds : List δ} {d : δ}

theorem length_le_commas (h : d ∈ ds) :
    (tokens d).length ≤ (commas (ds.map tokens)).length := by
  induction ds with
  | nil => cases h
  | cons e ds ih =>
    cases ds with
    | nil =>
      cases List.mem_singleton.mp h
      exact Nat.le_of_eq (by rw [List.map_singleton, commas, List.intercalate_singleton])
    | cons e' ds =>
      rw [List.map_cons, List.map_cons, commas, List.intercalate_cons_cons, ← commas,
        ← List.map_cons, List.length_append, List.length_append]
      rcases List.mem_cons.mp h with rfl | h
      · omega
      · have := ih h
        omega

theorem foldr_max_lt_length {t : Token} {m k : Nat} (hm : m < k)
    (h : ∀ d ∈ ds, nesting d < (tokens d).length) :
    (ds.map nesting).foldr max m < k + (ds.flatMap fun d => t :: tokens d).length := by
  induction ds with
  | nil => exact hm
  | cons d ds ih =>
    obtain ⟨hd, hds⟩ := List.forall_mem_cons.mp h
    have := ih hds
    rw [List.map_cons, List.foldr_cons, Nat.max_lt, List.flatMap_cons, List.length_append,
      List.length_cons]
    omega

end Length

theorem EntityTree.length_pos (d : EntityTree) : 0 < d.tokens.length := by
  cases d with
  | name d =>
    obtain ⟨text, type?⟩ := d
    cases type? <;> exact Nat.succ_pos _
  | string text => exact Nat.succ_pos _

theorem VerbPhraseTree.nesting_lt_length (d : VerbPhraseTree) : d.nesting < d.tokens.length := by
  induction d with
  | canActAs role => exact Nat.succ_pos _
  | canSay depth subject object ih =>
    simp only [nesting, tokens, List.length_cons, List.length_append]
    omega
  | predicate name args => exact Nat.succ_pos _

theorem FactTree.nesting_le_length (d : FactTree) : d.nesting ≤ d.tokens.length := by
  have h := d.object.nesting_lt_length
  rw [nesting, tokens, List.length_append]
  omega

mutual

theorem ConstraintTree.nesting_le_length : ∀ d : ConstraintTree, d.nesting ≤ d.tokens.length
  | .disjunction first rest => by
    rw [ConstraintTree.nesting, ConstraintTree.tokens, List.length_append]
    exact foldr_max_lt_length first.nesting_lt_length fun d _ => d.nesting_lt_length

theorem ConjunctionTree.nesting_lt_length : ∀ d : ConjunctionTree, d.nesting < d.tokens.length
  | .conjunction first rest => by
    rw [ConjunctionTree.nesting, ConjunctionTree.tokens, List.length_append]
    exact foldr_max_lt_length first.nesting_lt_length fun d _ => d.nesting_lt_length

theorem NegationTree.nesting_lt_length : ∀ d : NegationTree, d.nesting < d.tokens.length
  | .not operand => by
    rw [NegationTree.nesting, NegationTree.tokens, List.length_cons]
    exact Nat.succ_lt_succ operand.nesting_lt_length
  | .comparison d => by
    rw [NegationTree.nesting, NegationTree.tokens]
    exact d.nesting_lt_length

theorem ComparisonTree.nesting_lt_length : ∀ d : ComparisonTree, d.nesting < d.tokens.length
  | .atom d => by
    rw [ComparisonTree.nesting, ComparisonTree.tokens]
    exact d.nesting_lt_length
  | .compare left op right => by
    have hl := left.nesting_lt_length
    have hr := right.nesting_lt_length
    rw [ComparisonTree.nesting, ComparisonTree.tokens, List.length_append, List.length_cons]
    omega

theorem AtomTree.nesting_lt_length : ∀ d : AtomTree, d.nesting < d.tokens.length
  | .bool true | .bool false | .int _ | .string _ => by
    rw [AtomTree.nesting, AtomTree.tokens]
    exact Nat.succ_pos _
  | .name d => by
    rw [AtomTree.nesting, AtomTree.tokens]
    exact (EntityTree.name d).length_pos
  | .call name args => by
    rw [Nat.lt_iff_add_one_le, AtomTree.tokens, List.length_cons]
    refine Nat.succ_le_succ (AtomTree.nesting_call_le_iff.mpr fun d hd => ?_)
    have hd := Nat.le_trans d.nesting_le_length (length_le_commas hd)
    rw [List.length_cons, List.length_append]
    omega
  | .parenthesized inner => by
    have h := inner.nesting_le_length
    rw [AtomTree.nesting, AtomTree.tokens, List.length_cons, List.length_append]
    omega

end

theorem ClaimTree.nesting_le_length (d : ClaimTree) : d.nesting ≤ d.tokens.length := by
  rw [nesting_le_iff, tokens, List.length_append, List.length_append]
  refine ⟨Nat.le_trans d.consequent.nesting_le_length (Nat.le_add_right _ _), fun f hf => ?_,
    fun c hc => ?_⟩
  · have h := Nat.le_trans f.nesting_le_length (length_le_commas hf)
    obtain ⟨g, gs, hcons⟩ := List.exists_cons_of_ne_nil (List.ne_nil_of_mem hf)
    rw [hcons] at h ⊢
    rw [conditionTokens, List.length_cons]
    omega
  · have h := c.nesting_le_length
    rw [hc, guardTokens, List.length_cons]
    omega

theorem AssertionTree.nesting_le_length (d : AssertionTree) : d.nesting ≤ d.tokens.length := by
  have h := d.claim.nesting_le_length
  rw [nesting, tokens, List.length_append, List.length_cons, List.length_append]
  omega

end AuthLogic
