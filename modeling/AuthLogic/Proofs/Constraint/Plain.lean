import AuthLogic.Constraint

/-! # Plain constraints

Comparisons come without parentheses, so that the operands of a plain comparison
have to be of a kind that ends by itself. The nesting of a constraint counts the
constructs that are open at a time when its text is read.
-/

namespace AuthLogic

def Operator.isComparison : Operator → Bool
  | and | or => false
  | eq | less | lessEq => true

namespace Constraint

/-- Neither a negation nor a comparison. -/
def isPrimary : Constraint → Bool
  | not _ => false
  | binary op _ _ => !op.isComparison
  | _ => true

mutual

/-- Whether every operand of a comparison is primary. -/
def isPlain : Constraint → Bool
  | call _ args => isPlainList args
  | not c => c.isPlain
  | binary op l r =>
    l.isPlain && r.isPlain && (!op.isComparison || l.isPrimary && r.isPrimary)
  | _ => true

def isPlainList : List Constraint → Bool
  | [] => true
  | c :: cs => c.isPlain && isPlainList cs

end

@[simp] theorem isPlainList_eq_all (cs : List Constraint) : isPlainList cs = cs.all isPlain := by
  induction cs with
  | nil => rfl
  | cons c cs ih => rw [isPlainList, ih, List.all_cons]

mutual

/-- The number of levels that it takes to read the text. -/
def nesting : Constraint → Nat
  | call _ args => nestingList args + 1
  | not c => c.nesting + 1
  | binary op l r => max l.nesting r.nesting + if op.isComparison then 0 else 1
  | _ => 1

def nestingList : List Constraint → Nat
  | [] => 0
  | c :: cs => max c.nesting (nestingList cs)

end

theorem nestingList_le_iff {cs : List Constraint} {n : Nat} :
    nestingList cs ≤ n ↔ ∀ c ∈ cs, c.nesting ≤ n := by
  induction cs with
  | nil => simp [nestingList]
  | cons c cs ih => rw [nestingList, Nat.max_le, ih, List.forall_mem_cons]

theorem one_le_nesting (c : Constraint) : 1 ≤ c.nesting := by
  induction c with
  | call name args ih => exact Nat.le_add_left 1 _
  | not c ih => exact Nat.le_add_left 1 _
  | binary op l r ihl ihr =>
    rw [nesting]
    omega
  | _ => exact Nat.le_refl 1

section Binary

variable {op : Operator} {l r : Constraint}

theorem isPlain_connective (h : op.isComparison = false) :
    (binary op l r).isPlain = true ↔ l.isPlain = true ∧ r.isPlain = true := by
  rw [isPlain, h, Bool.not_false, Bool.true_or, Bool.and_true, Bool.and_eq_true]

theorem isPlain_comparison (h : op.isComparison = true) :
    (binary op l r).isPlain = true ↔
      (l.isPlain = true ∧ r.isPlain = true) ∧ l.isPrimary = true ∧ r.isPrimary = true := by
  rw [isPlain, h, Bool.not_true, Bool.false_or, Bool.and_eq_true, Bool.and_eq_true,
    Bool.and_eq_true]

theorem nesting_connective_le_iff (h : op.isComparison = false) {n : Nat} :
    (binary op l r).nesting ≤ n + 1 ↔ l.nesting ≤ n ∧ r.nesting ≤ n := by
  rw [nesting, h, if_neg Bool.false_ne_true, Nat.succ_le_succ_iff, Nat.max_le]

theorem nesting_comparison_le_iff (h : op.isComparison = true) {n : Nat} :
    (binary op l r).nesting ≤ n ↔ l.nesting ≤ n ∧ r.nesting ≤ n := by
  rw [nesting, h, if_pos rfl, Nat.add_zero, Nat.max_le]

end Binary

/-- Plain, and nested no deeper than there are levels. -/
def Fits (levels : Nat) (c : Constraint) : Prop :=
  c.isPlain = true ∧ c.nesting ≤ levels

instance (levels : Nat) (c : Constraint) : Decidable (c.Fits levels) :=
  inferInstanceAs (Decidable (_ ∧ _))

end Constraint

end AuthLogic
