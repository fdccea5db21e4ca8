import AuthLogic.Proofs.Function.Strictness

/-! # Order of calls

A part of a constraint is found at its position, which tells for every step down
which operand to go on with. Evaluation goes through all positions in post-order,
operands from left to right and each before what it is an operand of, and makes
at most one call at each: whether it does depends on the values of the arguments
there, and on nothing that is around them.
-/

namespace AuthLogic

namespace Constraint

theorem induct_operands {motive : Constraint → Prop}
    (h : ∀ c : Constraint, (∀ d ∈ c.operands, motive d) → motive c) (c : Constraint) :
    motive c := by
  induction c with
  | str | int | bool | fail | entity => exact h _ (List.forall_mem_nil _)
  | call name args ih => exact h _ ih
  | not c ih => exact h _ (List.forall_mem_singleton.mpr ih)
  | binary op a b iha ihb =>
    exact h _ (List.forall_mem_cons.mpr ⟨iha, List.forall_mem_singleton.mpr ihb⟩)

theorem isFail_iff {c : Constraint} : c.isFail = true ↔ c = .fail := by
  cases c <;> simp [isFail]

/-! ## Positions -/

/-- The part at a position. -/
def at? : Constraint → List Nat → Option Constraint
  | c, [] => some c
  | c, i :: p => c.operands[i]?.bind fun d => d.at? p

theorem at?_cons {c d : Constraint} {i : Nat} (h : c.operands[i]? = some d) (p : List Nat) :
    c.at? (i :: p) = d.at? p := by
  rw [at?, h]
  rfl

mutual

/-- All positions in post-order. -/
def positions : Constraint → List (List Nat)
  | call _ args => positionsFrom 0 args ++ [[]]
  | not c => c.positions.map (0 :: ·) ++ [[]]
  | binary _ l r => l.positions.map (0 :: ·) ++ r.positions.map (1 :: ·) ++ [[]]
  | _ => [[]]

/-- The positions in operands that are counted from a number on. -/
def positionsFrom : Nat → List Constraint → List (List Nat)
  | _, [] => []
  | i, c :: cs => c.positions.map (i :: ·) ++ positionsFrom (i + 1) cs

end

theorem positionsFrom_eq_flatMap (i : Nat) (cs : List Constraint) :
    positionsFrom i cs = (cs.zipIdx i).flatMap fun x => x.1.positions.map (x.2 :: ·) := by
  induction cs generalizing i with
  | nil => rfl
  | cons c cs ih => rw [positionsFrom, ih, List.zipIdx_cons, List.flatMap_cons]

theorem positions_eq (c : Constraint) :
    c.positions = (c.operands.zipIdx.flatMap fun x => x.1.positions.map (x.2 :: ·)) ++ [[]] := by
  rw [← positionsFrom_eq_flatMap]
  cases c with
  | str | int | bool | fail | entity | call => rfl
  | not c => rw [positions, operands, positionsFrom, positionsFrom, List.append_nil]
  | binary op l r =>
    rw [positions, operands, positionsFrom, positionsFrom, positionsFrom, List.append_nil]

/-- Of two positions, the one that is left first in a walk from left to right. -/
inductive Before : List Nat → List Nat → Prop

  | inside (i : Nat) (p : List Nat) : Before (i :: p) []

  | left {i j : Nat} (p q : List Nat) : i < j → Before (i :: p) (j :: q)

  | deeper (i : Nat) {p q : List Nat} : Before p q → Before (i :: p) (i :: q)

theorem Before.irrefl (p : List Nat) : ¬ Before p p := by
  induction p with
  | nil => exact fun h => by cases h
  | cons i p ih =>
    intro h
    cases h with
    | left _ _ h => exact Nat.lt_irrefl i h
    | deeper _ h => exact ih h

theorem pairwise_positions (c : Constraint) : c.positions.Pairwise Before := by
  induction c using induct_operands with
  | h c ih =>
    have hindices : c.operands.zipIdx.Pairwise fun x y => x.2 < y.2 := by
      rw [← List.pairwise_map, List.zipIdx_map_snd]
      exact List.pairwise_lt_range'
    rw [positions_eq, List.pairwise_append, List.pairwise_flatMap]
    refine ⟨⟨fun x hx => ?_, hindices.imp fun {x y} hxy => ?_⟩, List.pairwise_singleton _ _, ?_⟩
    · have hpart := ih x.1 (List.fst_mem_of_mem_zipIdx hx)
      exact List.pairwise_map.mpr (hpart.imp (.deeper x.2))
    · intro p hp q hq
      obtain ⟨p, -, rfl⟩ := List.mem_map.mp hp
      obtain ⟨q, -, rfl⟩ := List.mem_map.mp hq
      exact .left p q hxy
    · intro p hp q hq
      obtain ⟨x, -, hp⟩ := List.mem_flatMap.mp hp
      obtain ⟨p, -, rfl⟩ := List.mem_map.mp hp
      cases List.mem_singleton.mp hq
      exact .inside x.2 p

theorem mem_positions_iff {c : Constraint} {p : List Nat} :
    p ∈ c.positions ↔ (c.at? p).isSome := by
  induction p generalizing c with
  | nil =>
    rw [positions_eq]
    exact ⟨fun _ => rfl, fun _ => List.mem_append_right _ List.mem_cons_self⟩
  | cons i p ih =>
    have hstep : i :: p ∈ c.positions ↔ ∃ d, c.operands[i]? = some d ∧ p ∈ d.positions := by
      rw [positions_eq]
      simp [List.mem_zipIdx_iff_getElem?]
    rw [hstep, at?]
    cases c.operands[i]? with
    | none => simp
    | some d => simp [ih]

end Constraint

namespace Registry

/-- The call that is made at a node, after those in its arguments: a registered function takes as
many arguments, and none of them fails. -/
def invocation? (r : Registry) : Constraint → Option Invocation
  | .call name args =>
    if (r.lookup? name).any (fun f => f.arity = args.length) ∧ ∀ arg ∈ args, r.eval arg ≠ .fail then
      some ⟨name, args.map r.eval⟩
    else none
  | _ => none

variable {r : Registry} {c : Constraint}

theorem invocation?_eq_some_iff {i : Invocation} : r.invocation? c = some i ↔
    ∃ name args f, c = .call name args ∧ r.lookup? name = some f ∧ f.arity = args.length ∧
      (∀ arg ∈ args, r.eval arg ≠ .fail) ∧ i = ⟨name, args.map r.eval⟩ := by
  cases c with
  | call name args =>
    simp only [invocation?, Option.any_eq_true, decide_eq_true_eq]
    constructor
    · intro h
      split at h
      case isTrue hcall =>
        obtain ⟨⟨f, hf, harity⟩, hargs⟩ := hcall
        exact ⟨name, args, f, rfl, hf, harity, hargs, (Option.some.inj h).symm⟩
      case isFalse => cases h
    · rintro ⟨_, _, f, ⟨⟩, hf, harity, hargs, rfl⟩
      exact if_pos ⟨⟨f, hf, harity⟩, hargs⟩
  | _ =>
    constructor
    · intro h
      cases h
    · rintro ⟨_, _, _, ⟨⟩, -⟩

theorem calls_invoke (r : Registry) (name : String) (args : List Constraint) :
    (r.invoke name (args.map r.eval)).calls = (r.invocation? (.call name args)).toList := by
  have hfail : (args.map r.eval).any Constraint.isFail = true ↔
      ¬ ∀ arg ∈ args, r.eval arg ≠ .fail := by
    simp [Constraint.isFail_iff]
  rw [invoke, invocation?]
  by_cases hargs : ∀ arg ∈ args, r.eval arg ≠ .fail
  · rw [if_neg (mt hfail.mp (not_not_intro hargs)), List.length_map]
    cases r.lookup? name with
    | none => simp
    | some f =>
      by_cases harity : f.arity = args.length
      · rw [if_pos ⟨decide_eq_true harity, hargs⟩]
        simp [harity]
      · simp [harity]
  · rw [if_pos (hfail.mpr hargs), if_neg fun h => hargs h.2]
    rfl

/-- Whatever the values of the operands, their calls are made before that of the whole. -/
theorem calls_run (r : Registry) (c : Constraint) :
    (r.run c).calls =
      c.operands.flatMap (fun d => (r.run d).calls) ++ (r.invocation? c).toList := by
  cases c with
  | str | int | bool | fail => rfl
  | entity e => cases e <;> rfl
  | call name args =>
    rw [← calls_invoke, run]
    simp only [runList_eq_map, List.flatMap_map, List.map_map]
    rfl
  | not c => simp [run, Constraint.operands, invocation?]
  | binary op a b => simp [run, Constraint.operands, invocation?]

theorem calls_eq_filterMap_positions (r : Registry) (c : Constraint) :
    (r.run c).calls = c.positions.filterMap fun p => (c.at? p).bind r.invocation? := by
  induction c using Constraint.induct_operands with
  | h c ih =>
    have hpart : ∀ x ∈ c.operands.zipIdx, (x.1.positions.map (x.2 :: ·)).filterMap
        (fun p => (c.at? p).bind r.invocation?) = (r.run x.1).calls := by
      intro x hx
      have hx := List.mem_zipIdx_iff_getElem?.mp hx
      rw [List.filterMap_map, ih x.1 (List.mem_of_getElem? hx)]
      refine congrArg (List.filterMap · _) (funext fun p => ?_)
      rw [Function.comp_apply, Constraint.at?_cons hx]
    have hoperands : (c.operands.zipIdx.flatMap fun x => x.1.positions.map (x.2 :: ·)).filterMap
        (fun p => (c.at? p).bind r.invocation?) =
          c.operands.flatMap fun d => (r.run d).calls := by
      rw [List.filterMap_flatMap, List.flatMap_def, List.map_congr_left hpart, ← List.flatMap_def,
        ← List.flatMap_map Prod.fst fun d => (r.run d).calls, List.zipIdx_map_fst]
    have hself : [[]].filterMap (fun p => (c.at? p).bind r.invocation?) =
        (r.invocation? c).toList := by
      cases h : r.invocation? c <;> simp [Constraint.at?, h]
    rw [calls_run, Constraint.positions_eq, List.filterMap_append, hoperands, hself]

/-- Evaluation calls the functions at the nodes of a constraint in post-order, at each node at most
once: where a registered function has as many arguments, none of which fails, on their values. The
arguments of a call that is not made are evaluated all the same, and so are both operands of an
operator, whatever their values. -/
theorem calls_postorder (r : Registry) (c : Constraint) :
    (c.positions.Pairwise Constraint.Before ∧ c.positions.Nodup ∧
      ∀ p, p ∈ c.positions ↔ (c.at? p).isSome) ∧
    (r.run c).calls = c.positions.filterMap (fun p => (c.at? p).bind r.invocation?) ∧
    (∀ d i, r.invocation? d = some i ↔
      ∃ name args f, d = .call name args ∧ r.lookup? name = some f ∧ f.arity = args.length ∧
        (∀ arg ∈ args, r.eval arg ≠ .fail) ∧ i = ⟨name, args.map r.eval⟩) ∧
    (∀ name args, (r.run (.call name args)).calls =
      args.flatMap (fun arg => (r.run arg).calls) ++ (r.invocation? (.call name args)).toList) ∧
    ∀ op a b, (r.run (.binary op a b)).calls = (r.run a).calls ++ (r.run b).calls := by
  have hordered := c.pairwise_positions
  have hnodup : c.positions.Nodup := by
    refine hordered.imp ?_
    rintro p _ hp rfl
    exact Constraint.Before.irrefl p hp
  exact ⟨⟨hordered, hnodup, fun p => Constraint.mem_positions_iff⟩,
    calls_eq_filterMap_positions r c, fun d i => invocation?_eq_some_iff,
    fun name args => calls_run r (.call name args), fun _ _ _ => rfl⟩

/-- `false and near(near(1)) = near(near(2, 3))`, in which the last two calls are not made. -/
theorem calls_postorder_near :
    let r : Registry := ⟨.insert .empty ⟨"near", 1, fun _ => .bool true⟩⟩
    let c : Constraint := .binary .and (.bool false) (.binary .eq
      (.call "near" [.call "near" [.int 1]]) (.call "near" [.call "near" [.int 2, .int 3]]))
    c.positions = [[0], [1, 0, 0, 0], [1, 0, 0], [1, 0], [1, 1, 0, 0], [1, 1, 0, 1], [1, 1, 0],
      [1, 1], [1], []] ∧
    (∀ p, p ∈ c.positions ↔ (c.at? p).isSome) ∧
    (c.at? [1, 0, 0]).bind r.invocation? = some ⟨"near", [.int 1]⟩ ∧
    (c.at? [1, 0]).bind r.invocation? = some ⟨"near", [.bool true]⟩ ∧
    (r.run c).calls = [⟨"near", [.int 1]⟩, ⟨"near", [.bool true]⟩] := by
  intro r c
  obtain ⟨⟨-, -, hmem⟩, hcalls, -⟩ := calls_postorder r c
  refine ⟨by decide +kernel, hmem, by decide +kernel, by decide +kernel, ?_⟩
  rw [hcalls]
  decide +kernel

end Registry

end AuthLogic
