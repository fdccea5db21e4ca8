import AuthLogic.Assertion
import AuthLogic.Proofs.Constraint.Plain
import AuthLogic.Proofs.Syntax.Spelling

/-! # Legibility

The tokens that the text of a term is cut into. A term is legible if its names
and strings can be told apart in the text: no string contains a quote, no word
is a keyword, and a constant of a constraint is written without quotes.
-/

namespace AuthLogic

open Lexeme

theorem run_of_isVariableName {name : String} (h : isVariableName name = true) :
    Token.Run Char.isUpper isNameChar name := by
  unfold isVariableName at h
  split at h
  case h_1 => cases h
  case h_2 c cs hs =>
    rw [Bool.and_eq_true, List.all_eq_true] at h
    refine ⟨c, cs, hs, h.1, fun d hd => ?_⟩
    have hd := h.2 d hd
    rw [Bool.or_eq_true, Bool.or_eq_true] at hd
    rcases hd with (hd | hd) | hd
    · exact isNameChar_of_isUpper hd
    · exact isNameChar_of_isDigit hd
    · rw [isNameChar, hd, Bool.or_true]

theorem Constant.run_of_isBare {c : Constant} (h : c.isBare = true) :
    Token.Run Char.isUpper isNameChar c.name := by
  unfold isBare at h
  split at h
  case h_1 => cases h
  case h_2 d ds hs =>
    rw [Bool.and_eq_true, Bool.and_eq_true, List.all_eq_true] at h
    exact ⟨d, ds, hs, h.1.1, h.1.2⟩

theorem Constant.isVariableName_of_isBare {c : Constant} (h : c.isBare = true) :
    isVariableName c.name = false := by
  unfold isBare at h
  split at h
  case h_1 => cases h
  case h_2 =>
    rw [Bool.and_eq_true, Bool.not_eq_true'] at h
    exact h.2

/-! ## Entities -/

namespace Entity

def token : Entity → Token
  | const c => if c.isBare then .name c.name else .str c.name
  | var m => .name m.var.name

def Legible : Entity → Prop
  | const c => '"' ∉ c.name.toList
  | var m => isVariableName m.var.name = true ∧ ∀ type ∈ m.type?, '"' ∉ type.toList

variable {e : Entity}

theorem Legible.lexable (h : e.Legible) : e.token.Lexable := by
  cases e with
  | const c =>
    rw [token]
    split
    case isTrue hc => exact c.run_of_isBare hc
    case isFalse => exact h
  | var m => exact run_of_isVariableName h.1

theorem spelling_token (e : Entity) : e.token.spelling = e.render := by
  cases e with
  | const c =>
    rw [token, render, Constant.render]
    split <;> rfl
  | var m => rfl

theorem Legible.spells (h : e.Legible) : Spells e.render.toList [e.token] := by
  rw [← spelling_token]
  exact .token _ h.lexable

end Entity

/-! ## Facts -/

def Depth.token : Depth → Token
  | bounded hops => .int (Int64.ofNat hops.toNat)
  | unbounded => .keyword .inf

theorem Depth.toInt_ofNat (hops : UInt32) : (Int64.ofNat hops.toNat).toInt = hops.toNat :=
  Int64.toInt_ofNat_of_lt (Nat.lt_trans hops.toNat_lt (by decide))

theorem Depth.spells (d : Depth) : Spells d.render.toList [d.token] := by
  have h : d.token.spelling = d.render := by
    cases d with
    | bounded hops =>
      rw [token, Token.spelling, toInt_ofNat]
      rfl
    | unbounded => rfl
  rw [← h]
  cases d with
  | bounded hops => exact .token _ (Token.lexable_int _)
  | unbounded => exact .token _ (Token.lexable_keyword .inf)

namespace VerbPhrase

def tokens : VerbPhrase → List Token
  | predicate name args => .word name :: args.map Entity.token
  | canActAs role => [.keyword .canActAs, (Entity.const role).token]
  | canSay depth subject object _ =>
    .keyword .canSay :: depth.token :: subject.token :: object.tokens

/-- Nothing tells of the speaker of a delegated fact. -/
def Legible : VerbPhrase → Prop
  | predicate name args => (Token.word name).Lexable ∧ ∀ arg ∈ args, arg.Legible
  | canActAs role => (Entity.const role).Legible
  | canSay _ subject object speaker? => subject.Legible ∧ object.Legible ∧ speaker? = none

theorem spells_args {args : List Entity} (h : ∀ arg ∈ args, arg.Legible) :
    Closed (String.join (args.map fun arg => " " ++ arg.render)).toList ∧
      Spells (String.join (args.map fun arg => " " ++ arg.render)).toList
        (args.map Entity.token) := by
  induction args with
  | nil => exact ⟨fun c hc => absurd hc (by simp), .empty⟩
  | cons arg args ih =>
    obtain ⟨harg, hargs⟩ := List.forall_mem_cons.mp h
    obtain ⟨hc, hs⟩ := ih hargs
    have hs := (harg.spells.append hc hs).gap
    simp only [String.toList_join, List.map_cons, List.flatMap_cons, String.toList_append,
      String.reduceToList, List.cons_append, List.nil_append] at hs ⊢
    exact ⟨closed_cons_iff.mpr (by decide), hs⟩

theorem Legible.spells {v : VerbPhrase} (h : v.Legible) : Spells v.render.toList v.tokens := by
  induction v with
  | predicate name args =>
    obtain ⟨hc, hs⟩ := spells_args h.2
    have hn := Spells.token (.word name) h.1
    rw [render, String.toList_append]
    exact hn.append hc hs
  | canActAs role =>
    have hr := Entity.Legible.spells (e := .const role) h
    unfold Entity.render at hr
    rw [render, String.toList_append]
    exact hr.led (Token.lexable_keyword .canActAs) (by decide)
  | canSay depth subject object speaker? ih =>
    have hs := depth.spells.spaced (h.1.spells.spaced (ih h.2.1))
    simp only [render, String.toList_append, List.append_assoc]
    exact hs.led (Token.lexable_keyword .canSay) (by decide)

end VerbPhrase

/-- How many delegations are open around the innermost fact. -/
def VerbPhrase.nesting : VerbPhrase → Nat
  | canSay _ _ object _ => object.nesting + 1
  | _ => 0

namespace Fact

def tokens (f : Fact) : List Token :=
  f.subject.token :: f.object.tokens

def Legible (f : Fact) : Prop :=
  f.subject.Legible ∧ f.object.Legible

/-- Legible with a number of levels. -/
def Readable (levels : Nat) (f : Fact) : Prop :=
  f.Legible ∧ f.object.nesting < levels

theorem Legible.spells {f : Fact} (h : f.Legible) : Spells f.render.toList f.tokens := by
  have hs := h.1.spells.spaced h.2.spells
  simp only [render, String.toList_append, List.append_assoc]
  exact hs

end Fact

/-- The tokens of several items with commas between them. -/
def commas (items : List (List Token)) : List Token :=
  [.symbol .comma].intercalate items

theorem spells_commas {α : Type} {render : α → String} {tokens : α → List Token} {l : List α}
    (h : ∀ a ∈ l, Spells (render a).toList (tokens a)) :
    Spells (", ".intercalate (l.map render)).toList (commas (l.map tokens)) := by
  induction l with
  | nil => exact .empty
  | cons a l ih =>
    obtain ⟨ha, hl⟩ := List.forall_mem_cons.mp h
    cases l with
    | nil =>
      simp only [List.map_cons, List.map_nil, String.intercalate_singleton, commas,
        List.intercalate_singleton]
      exact ha
    | cons b l =>
      have hs := (ih hl).led (s := ", ") (Token.lexable_symbol .comma) (by decide)
      have hs := ha.append (closed_cons_iff.mpr (by decide)) hs
      simp only [List.map_cons, String.intercalate_cons_cons, commas, List.intercalate_cons_cons,
        String.toList_append, List.append_assoc] at hs ⊢
      exact hs

/-! ## Constraints -/

def Operator.token : Operator → Token
  | and => .keyword .and
  | or => .keyword .or
  | eq => .symbol .eq
  | less => .symbol .less
  | lessEq => .symbol .lessEq

theorem Operator.lexable_token (op : Operator) : op.token.Lexable := by
  cases op <;> trivial

namespace Constraint

theorem renderBinary_eq (l r : String) (op : Operator) :
    renderBinary l r op =
      if op.isComparison then l ++ (" " ++ op.token.spelling ++ " ") ++ r
      else "(" ++ l ++ (" " ++ op.token.spelling ++ " ") ++ r ++ ")" := by
  cases op <;> rfl

mutual

def tokens : Constraint → List Token
  | str s => [.str s]
  | int n => [.int n]
  | bool true => [.keyword .true]
  | bool false => [.keyword .false]
  | fail => [.word "fail"]
  | entity e => [e.token]
  | call name args =>
    .word name :: .symbol .lparen :: commas (tokensList args) ++ [.symbol .rparen]
  | not c => .keyword .not :: c.tokens
  | binary op l r =>
    if op.isComparison then l.tokens ++ op.token :: r.tokens
    else .symbol .lparen :: l.tokens ++ op.token :: (r.tokens ++ [.symbol .rparen])

def tokensList : List Constraint → List (List Token)
  | [] => []
  | c :: cs => c.tokens :: tokensList cs

end

@[simp] theorem tokensList_eq_map (cs : List Constraint) : tokensList cs = cs.map tokens := by
  induction cs with
  | nil => rfl
  | cons c cs ih => rw [tokensList, ih, List.map_cons]

inductive Legible : Constraint → Prop

  | str {text : String} : '"' ∉ text.toList → Legible (str text)

  | int (n : Int64) : Legible (int n)

  | bool (b : Bool) : Legible (bool b)

  | entity {e : Entity} {name : String} : e.Legible → e.token = .name name → Legible (entity e)

  | call {name : String} {args : List Constraint} :
      (Token.word name).Lexable → (∀ arg ∈ args, Legible arg) → Legible (call name args)

  | not {c : Constraint} : Legible c → Legible (not c)

  | binary {op : Operator} {l r : Constraint} : Legible l → Legible r → Legible (binary op l r)

theorem spells_rparen : Spells [')'] [.symbol .rparen] :=
  .token (.symbol .rparen) (Token.lexable_symbol .rparen)

theorem Legible.spells {c : Constraint} (h : c.Legible) : Spells c.render.toList c.tokens := by
  induction c with
  | str text =>
    cases h with
    | str h => exact .token (.str text) h
  | int n => exact .token (.int n) (Token.lexable_int n)
  | bool b =>
    cases b with
    | true => exact .token (.keyword .true) (Token.lexable_keyword .true)
    | false => exact .token (.keyword .false) (Token.lexable_keyword .false)
  | fail => cases h
  | entity e =>
    cases h with
    | entity h _ => exact h.spells
  | call name args ih =>
    cases h with
    | call hn h =>
      have hs := spells_commas fun arg harg => ih arg harg (h arg harg)
      have hs := (hs.append (closed_cons_iff.mpr (by decide)) spells_rparen).opened
      have hs := (Spells.token (.word name) hn).append (closed_cons_iff.mpr (by decide)) hs
      simp only [render, renderList_eq_map, tokens, tokensList_eq_map, String.toList_append,
        String.reduceToList, List.append_assoc, List.cons_append, List.nil_append]
      exact hs
  | not c ih =>
    cases h with
    | not h =>
      rw [render, String.toList_append]
      exact (ih h).led (Token.lexable_keyword .not) (by decide)
  | binary op l r ihl ihr =>
    cases h with
    | binary hl hr =>
      have hl := ihl hl
      have hr := ihr hr
      have hr' := hr.append (closed_cons_iff.mpr (by decide)) spells_rparen
      have hop := Spells.token op.token op.lexable_token
      rw [render, tokens, renderBinary_eq]
      split
      · simp only [String.toList_append, String.reduceToList, List.append_assoc, List.cons_append,
          List.nil_append]
        exact hl.spaced (hop.spaced hr)
      · simp only [String.toList_append, String.reduceToList, List.append_assoc, List.cons_append,
          List.nil_append]
        exact (hl.spaced (hop.spaced hr')).opened

end Constraint

/-! ## Assertions -/

namespace Claim

def conditionTokens (c : Claim) : List Token :=
  match c.antecedents with
  | [] => []
  | fs => .keyword .if :: commas (fs.map Fact.tokens)

def guardTokens (c : Claim) : List Token :=
  if c.isUnconstrained then [] else .keyword .where :: c.constraint.tokens

def tokens (c : Claim) : List Token :=
  c.consequent.tokens ++ c.conditionTokens ++ c.guardTokens

/-- The constraint may be nested deeper than the levels. -/
structure Readable (levels : Nat) (c : Claim) : Prop where
  consequent : c.consequent.Readable levels
  antecedents : ∀ f ∈ c.antecedents, f.Readable levels
  constraint : c.constraint.Legible

theorem Readable.spells {levels : Nat} {c : Claim} (h : c.Readable levels) :
    Spells c.render.toList c.tokens := by
  have hguard : ∀ {cs ts}, Spells cs ts → Spells
      (cs ++ (if c.isUnconstrained then "" else " where " ++ c.constraint.render).toList)
      (ts ++ c.guardTokens) := by
    intro cs ts hs
    unfold guardTokens
    split
    · rw [String.toList_empty, List.append_nil, List.append_nil]
      exact hs
    · rw [String.toList_append]
      exact hs.joined (Token.lexable_keyword .where) (by decide) h.constraint.spells
  have hc := h.consequent.1.spells
  rw [render, tokens, String.toList_append, String.toList_append]
  refine hguard ?_
  unfold conditionTokens
  cases ha : c.antecedents with
  | nil =>
    rw [String.toList_empty, List.append_nil, List.append_nil]
    exact hc
  | cons f fs =>
    have hs := spells_commas fun g hg => (h.antecedents g hg).1.spells
    rw [ha] at hs
    rw [String.toList_append]
    exact hc.joined (s := " if ") (Token.lexable_keyword .if) (by decide) hs

end Claim

namespace Assertion

def tokens (a : Assertion) : List Token :=
  a.speaker.token :: .keyword .say :: (a.claim.tokens ++ [.symbol .period])

structure Readable (levels : Nat) (a : Assertion) : Prop where
  speaker : a.speaker.Legible
  claim : a.claim.Readable levels

theorem Readable.spells {levels : Nat} {a : Assertion} (h : a.Readable levels) :
    Spells a.render.toList a.tokens := by
  have hperiod : Spells ['.'] [.symbol .period] :=
    .token (.symbol .period) (Token.lexable_symbol .period)
  have hs := h.claim.spells.append (closed_cons_iff.mpr (by decide)) hperiod
  have hs := h.speaker.spells.joined (s := " says ") (Token.lexable_keyword .say) (by decide) hs
  simp only [render, String.toList_append, List.append_assoc]
  exact hs

end Assertion

end AuthLogic
