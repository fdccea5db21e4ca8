import AuthLogic.Function.Hour
import AuthLogic.Proofs.Term.Ground

/-! # Strict evaluation

A constraint fails as soon as some part of it does, however deep the part lies
and whatever the connectives, negations and calls around it. Variables fail, so
that a constraint with a value is ground, and no substitution changes it.
-/

namespace AuthLogic

namespace Constraint

/-! ## Parts -/

/-- The constraints that a constraint is put together from. -/
def operands : Constraint → List Constraint
  | call _ args => args
  | not c => [c]
  | binary _ l r => [l, r]
  | _ => []

/-- A constraint occurs in another one, at any depth or as the whole of it. -/
inductive PartOf (s : Constraint) : Constraint → Prop

  | refl : PartOf s s

  | operand {c d : Constraint} : d ∈ c.operands → PartOf s d → PartOf s c

variable {c : Constraint}

/-- What is mentioned is a part. -/
theorem partOf_of_mem_mentions {m : Mention} (h : m ∈ Term.mentions c) :
    PartOf (.entity (.var m)) c := by
  rw [Term.mem_mentions_iff] at h
  induction c with
  | str | int | bool | fail => cases h
  | entity e =>
    cases List.mem_singleton.mp h
    exact .refl
  | call name args ih =>
    have h : .var m ∈ entitiesList args := h
    rw [entitiesList_eq_flatMap] at h
    obtain ⟨arg, harg, h⟩ := List.mem_flatMap.mp h
    exact .operand harg (ih arg harg h)
  | not c ih => exact .operand List.mem_cons_self (ih h)
  | binary op l r ihl ihr =>
    rcases List.mem_append.mp h with h | h
    · exact .operand List.mem_cons_self (ihl h)
    · exact .operand (List.mem_cons_of_mem l List.mem_cons_self) (ihr h)

theorem replace_of_isGround (h : Term.isGround c = true) (f : Mention → Entity) :
    Term.replace f c = c := by
  have hnone : ∀ m, .var m ∉ entities c := fun m hm =>
    Term.isGround_iff.mp h m (Term.mem_mentions_iff.mpr hm)
  clear h
  change c.replace f = c
  induction c with
  | str | int | bool | fail => rfl
  | entity e =>
    cases e with
    | const k => rfl
    | var m => exact absurd List.mem_cons_self (hnone m)
  | call name args ih =>
    simp only [entities, entitiesList_eq_flatMap, List.mem_flatMap, not_exists, not_and] at hnone
    have hargs : ∀ arg ∈ args, arg.replace f = id arg := fun arg harg =>
      ih arg harg fun m => hnone m arg harg
    rw [replace, replaceList_eq_map, List.map_congr_left hargs, List.map_id]
  | not c ih => rw [replace, ih hnone]
  | binary op l r ihl ihr =>
    simp only [entities, List.mem_append, not_or] at hnone
    rw [replace, ihl fun m => (hnone m).1, ihr fun m => (hnone m).2]

/-! ## Failing operands -/

theorem testBools_fail_right (test : Bool → Bool → Bool) (c : Constraint) :
    testBools test c .fail = .fail := by
  cases c <;> rfl

theorem testInts_fail_right (test : Int64 → Int64 → Bool) (c : Constraint) :
    testInts test c .fail = .fail := by
  unfold testInts
  cases c.int? <;> rfl

theorem equal_fail_right (c : Constraint) : equal c .fail = .fail := by
  have hfail : (c.isFail || Constraint.fail.isFail) = true := Bool.or_true _
  unfold equal
  rw [if_pos hfail]

end Constraint

namespace Operator

theorem apply_fail_left (op : Operator) (c : Constraint) : op.apply .fail c = .fail := by
  cases op <;> rfl

theorem apply_fail_right (op : Operator) (c : Constraint) : op.apply c .fail = .fail := by
  cases op with
  | and | or => exact Constraint.testBools_fail_right _ c
  | eq => exact Constraint.equal_fail_right c
  | less | lessEq => exact Constraint.testInts_fail_right _ c

end Operator

namespace Registry

open Constraint (PartOf)

variable {r : Registry} {c d s : Constraint}

theorem invoke_of_fail_mem {args : List Constraint} (h : .fail ∈ args) (name : String) :
    (r.invoke name args).value = .fail := by
  rw [invoke, if_pos (List.any_eq_true.mpr ⟨.fail, h, rfl⟩)]

theorem eval_eq_fail_of_operand (h : d ∈ c.operands) (hd : r.eval d = .fail) :
    r.eval c = .fail := by
  cases c with
  | call name args =>
    have hfail : .fail ∈ args.map r.eval := hd ▸ List.mem_map_of_mem h
    rw [eval_call, invoke_of_fail_mem hfail]
  | not c =>
    cases List.mem_singleton.mp h
    rw [eval_not, hd]
    rfl
  | binary op a b =>
    rw [eval_binary]
    rcases List.mem_cons.mp h with rfl | h
    · rw [hd, Operator.apply_fail_left]
    · cases List.mem_singleton.mp h
      rw [hd, Operator.apply_fail_right]
  | _ => cases h

theorem eval_eq_fail_of_partOf (h : PartOf s c) (hs : r.eval s = .fail) : r.eval c = .fail := by
  induction h with
  | refl => exact hs
  | operand hd _ ih => exact eval_eq_fail_of_operand hd ih

theorem eval_eq_fail_of_mentions {v : Variable} (h : Term.Mentions c v) : r.eval c = .fail := by
  obtain ⟨m, hm, -⟩ := h
  exact eval_eq_fail_of_partOf (Constraint.partOf_of_mem_mentions hm) rfl

theorem isGround_of_eval_ne_fail (h : r.eval c ≠ .fail) : Term.isGround c = true :=
  Term.isGround_iff.mpr fun m hm => h (eval_eq_fail_of_mentions ⟨m, hm, rfl⟩)

/-- A problem anywhere in a constraint makes the whole of it fail, and so does a variable. What
does not fail is ground, and keeps its value under every substitution. -/
theorem eval_strict (r : Registry) (c : Constraint) :
    (∀ s, PartOf s c → r.eval s = .fail → r.eval c = .fail) ∧
    (∀ v, Term.Mentions c v →
      r.eval c = .fail ∧ r.isSatisfied c = false ∧ r.isSatisfied (.not c) = false) ∧
    (r.eval c ≠ .fail →
      Term.isGround c = true ∧ ∀ θ : Substitution, r.eval (θ.apply c) = r.eval c) := by
  refine ⟨fun s hs => eval_eq_fail_of_partOf hs, fun v hv => ?_, fun hne => ?_⟩
  · have hfail : r.eval c = .fail := eval_eq_fail_of_mentions hv
    refine ⟨hfail, ?_, ?_⟩
    · rw [isSatisfied, hfail]
      rfl
    · rw [isSatisfied, eval_not, hfail]
      rfl
  · have hground := isGround_of_eval_ne_fail hne
    refine ⟨hground, fun θ => ?_⟩
    rw [θ.apply_eq_replace, Constraint.replace_of_isGround hground]

/-- `not (true or X = Alice)`, of which the variable is not decisive, and `not beforeHour(17)`. -/
theorem eval_strict_or :
    let r := Registry.withClock (.atHour 9)
    let x : Mention := ⟨⟨"X", ⟨1⟩⟩, none⟩
    let c : Constraint := .not (.binary .or (.bool true)
      (.binary .eq (.entity (.var x)) (.entity (.const ⟨"Alice"⟩))))
    let d : Constraint := .not (.call "beforeHour" [.str "17"])
    (PartOf (.entity (.var x)) c ∧ r.eval (.entity (.var x)) = .fail ∧ r.eval c = .fail) ∧
    (Term.Mentions c x.var ∧ r.eval c = .fail ∧ r.isSatisfied c = false ∧
      r.isSatisfied (.not c) = false) ∧
    r.eval d = .bool false ∧ Term.isGround d = true ∧
      ∀ θ : Substitution, r.eval (θ.apply d) = r.eval d := by
  intro r x c d
  have hc := eval_strict r c
  have hmem : x ∈ Term.mentions c := by decide
  have hpart : PartOf (.entity (.var x)) c := Constraint.partOf_of_mem_mentions hmem
  have hmentions : Term.Mentions c x.var := ⟨x, hmem, rfl⟩
  have hd : r.eval d = .bool false := by decide +kernel
  have hne : r.eval d ≠ .fail := by rw [hd]; decide
  exact ⟨⟨hpart, rfl, hc.1 _ hpart rfl⟩, ⟨hmentions, hc.2.1 _ hmentions⟩, hd,
    (eval_strict r d).2.2 hne⟩

end Registry

end AuthLogic
