import AuthLogic.Constraint

/-! # Heights of constraints

The height of a constraint is how deep its rendering, evaluation and substitution
recurse. Operators are grouped from the left, so that a run of one operator is as
high as it is long.
-/

namespace AuthLogic.Constraint

mutual

def height : Constraint → Nat
  | call _ args => heightList args + 1
  | not c => c.height + 1
  | binary _ l r => max l.height r.height + 1
  | _ => 1

def heightList : List Constraint → Nat
  | [] => 0
  | c :: cs => max c.height (heightList cs)

end

/-- How often an operator is repeated at the top, from left operand to left operand. -/
def run (op : Operator) : Constraint → Nat
  | binary o l _ => if o = op then l.run op + 1 else 0
  | _ => 0

mutual

/-- The length of the longest run of an operator. -/
def longestRun : Constraint → Nat
  | call _ args => longestRunList args
  | not c => c.longestRun
  | binary op l r => max (l.run op + 1) (max l.longestRun r.longestRun)
  | _ => 0

def longestRunList : List Constraint → Nat
  | [] => 0
  | c :: cs => max c.longestRun (longestRunList cs)

end

theorem heightList_le_iff {cs : List Constraint} {n : Nat} :
    heightList cs ≤ n ↔ ∀ c ∈ cs, c.height ≤ n := by
  induction cs with
  | nil => simp [heightList]
  | cons c cs ih => rw [heightList, Nat.max_le, ih, List.forall_mem_cons]

theorem longestRunList_le_iff {cs : List Constraint} {n : Nat} :
    longestRunList cs ≤ n ↔ ∀ c ∈ cs, c.longestRun ≤ n := by
  induction cs with
  | nil => simp [longestRunList]
  | cons c cs ih => rw [longestRunList, Nat.max_le, ih, List.forall_mem_cons]

theorem height_pos (c : Constraint) : 0 < c.height := by
  cases c <;> simp [height]

/-! ## Runs -/

section Run

variable {op : Operator}

theorem run_le_longestRun (c : Constraint) : c.run op ≤ c.longestRun := by
  cases c with
  | binary o l r =>
    rw [run, longestRun]
    split
    case isTrue h =>
      subst h
      exact Nat.le_max_left _ _
    case isFalse => exact Nat.zero_le _
  | _ => exact Nat.zero_le _

theorem run_lt_height (c : Constraint) : c.run op < c.height := by
  induction c with
  | binary o l r ihl ihr =>
    rw [run, height]
    split <;> omega
  | _ => exact height_pos _

theorem longestRun_lt_height (c : Constraint) : c.longestRun < c.height := by
  induction c with
  | call name args ih =>
    have hlist : longestRunList args ≤ heightList args :=
      longestRunList_le_iff.mpr fun c hc =>
        Nat.le_trans (Nat.le_of_lt (ih c hc)) (heightList_le_iff.mp (Nat.le_refl _) c hc)
    rw [longestRun, height]
    omega
  | not c ih =>
    rw [longestRun, height]
    omega
  | binary op l r ihl ihr =>
    have hrun : l.run op < l.height := l.run_lt_height
    rw [longestRun, height]
    omega
  | _ => exact height_pos _

section Chain

variable (op : Operator) (c : Constraint) (cs : List Constraint)

theorem run_foldl : (cs.foldl (binary op) c).run op = c.run op + cs.length := by
  induction cs generalizing c with
  | nil => rfl
  | cons d cs ih =>
    rw [List.foldl_cons, ih, run, if_pos rfl, List.length_cons]
    omega

theorem length_le_longestRun_foldl : cs.length ≤ (cs.foldl (binary op) c).longestRun := by
  have h : (cs.foldl (binary op) c).run op ≤ _ := run_le_longestRun _
  rw [run_foldl] at h
  omega

theorem longestRun_le_foldl : c.longestRun ≤ (cs.foldl (binary op) c).longestRun ∧
    ∀ d ∈ cs, d.longestRun ≤ (cs.foldl (binary op) c).longestRun := by
  induction cs generalizing c with
  | nil => simp
  | cons d cs ih =>
    obtain ⟨hc, hcs⟩ := ih (binary op c d)
    rw [longestRun] at hc
    rw [List.foldl_cons, List.forall_mem_cons]
    exact ⟨by omega, by omega, hcs⟩

end Chain

variable {c : Constraint} {cs : List Constraint}

/-- A chain is higher than its operands by no more than their number. -/
theorem height_foldl_le {n : Nat} (hc : c.height ≤ n) (hcs : ∀ d ∈ cs, d.height ≤ n) :
    (cs.foldl (binary op) c).height ≤ n + cs.length := by
  induction cs generalizing c n with
  | nil => exact hc
  | cons d cs ih =>
    obtain ⟨hd, hcs⟩ := List.forall_mem_cons.mp hcs
    have h : (binary op c d).height ≤ n + 1 := by
      rw [height]
      omega
    have := ih h fun e he => Nat.le_succ_of_le (hcs e he)
    rw [List.foldl_cons, List.length_cons]
    omega

theorem height_foldl_le_of_longestRun {n w : Nat} (h : (cs.foldl (binary op) c).longestRun ≤ w)
    (hc : c.longestRun ≤ w → c.height ≤ n) (hcs : ∀ d ∈ cs, d.longestRun ≤ w → d.height ≤ n) :
    (cs.foldl (binary op) c).height ≤ n + w := by
  obtain ⟨hfirst, hrest⟩ := longestRun_le_foldl op c cs
  have hlength : cs.length ≤ w := Nat.le_trans (length_le_longestRun_foldl op c cs) h
  have hheight : (cs.foldl (binary op) c).height ≤ n + cs.length :=
    height_foldl_le (hc (Nat.le_trans hfirst h))
      fun d hd => hcs d hd (Nat.le_trans (hrest d hd) h)
  omega

end Run

/-! ## Substitution -/

section Replace

theorem heightList_map {f : Constraint → Constraint} {cs : List Constraint}
    (h : ∀ c ∈ cs, (f c).height = c.height) : heightList (cs.map f) = heightList cs := by
  induction cs with
  | nil => rfl
  | cons c cs ih =>
    rw [List.forall_mem_cons] at h
    rw [List.map_cons, heightList, heightList, h.1, ih h.2]

theorem longestRunList_map {f : Constraint → Constraint} {cs : List Constraint}
    (h : ∀ c ∈ cs, (f c).longestRun = c.longestRun) :
    longestRunList (cs.map f) = longestRunList cs := by
  induction cs with
  | nil => rfl
  | cons c cs ih =>
    rw [List.forall_mem_cons] at h
    rw [List.map_cons, longestRunList, longestRunList, h.1, ih h.2]

variable (σ : Mention → Entity)

theorem height_replace (c : Constraint) : (Term.replace σ c).height = c.height := by
  induction c with
  | call name args ih =>
    change heightList (replaceList σ args) + 1 = heightList args + 1
    rw [replaceList_eq_map]
    exact congrArg (· + 1) (heightList_map ih)
  | not c ih => exact congrArg (· + 1) ih
  | binary op l r ihl ihr =>
    change max (Term.replace σ l).height (Term.replace σ r).height + 1 = _
    rw [ihl, ihr, height]
  | _ => rfl

theorem run_replace (op : Operator) (c : Constraint) : (Term.replace σ c).run op = c.run op := by
  induction c with
  | binary o l r ihl ihr =>
    change (if o = op then (Term.replace σ l).run op + 1 else 0) = _
    rw [ihl, run]
  | _ => rfl

theorem longestRun_replace (c : Constraint) : (Term.replace σ c).longestRun = c.longestRun := by
  induction c with
  | call name args ih =>
    change longestRunList (replaceList σ args) = longestRunList args
    rw [replaceList_eq_map]
    exact longestRunList_map ih
  | not c ih => exact ih
  | binary op l r ihl ihr =>
    change max ((Term.replace σ l).run op + 1)
      (max (Term.replace σ l).longestRun (Term.replace σ r).longestRun) = _
    rw [run_replace, ihl, ihr, longestRun]
  | _ => rfl

end Replace

end AuthLogic.Constraint
