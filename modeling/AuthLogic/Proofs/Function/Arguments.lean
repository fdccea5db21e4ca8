import AuthLogic.Proofs.Function.Registration

/-! # Arguments of calls

Functions are given values only: as many as they have parameters, and each of
them a string, an integer or a Boolean. Whatever else an expression holds is
stopped before a call, so that functions that answer such arguments with values
or `fail` make every expression evaluate to a value or `fail`.
-/

namespace AuthLogic

namespace Constraint

def isValue : Constraint → Bool
  | str _ | int _ | bool _ => true
  | _ => false

/-- What evaluation answers: a value, or `fail`. -/
def IsAnswer (c : Constraint) : Prop :=
  c.isValue = true ∨ c = fail

theorem isAnswer_bool (b : Bool) : (bool b).IsAnswer := .inl rfl

theorem isAnswer_fail : fail.IsAnswer := .inr rfl

theorem IsAnswer.isValue_of_ne {c : Constraint} (h : c.IsAnswer) (hc : c.isFail = false) :
    c.isValue = true := by
  rcases h with h | rfl
  · exact h
  · cases hc

variable {c : Constraint}

theorem isGround_of_isValue (h : c.isValue = true) : Term.isGround c = true := by
  cases c with
  | str | int | bool => rfl
  | _ => cases h

theorem ne_fail_of_isValue (h : c.isValue = true) : c ≠ fail := by
  rintro rfl
  cases h

/-- Values stand for themselves. -/
theorem eval_of_isValue (r : Registry) (h : c.isValue = true) : r.eval c = c := by
  cases c with
  | str | int | bool => rfl
  | _ => cases h

/-! ## Answers of the connectives -/

theorem isAnswer_negate (c : Constraint) : c.negate.IsAnswer := by
  unfold negate
  split
  · exact isAnswer_bool _
  · exact isAnswer_fail

theorem isAnswer_testBools (test : Bool → Bool → Bool) (a b : Constraint) :
    (testBools test a b).IsAnswer := by
  unfold testBools
  split
  · exact isAnswer_bool _
  · exact isAnswer_fail

theorem isAnswer_testInts (test : Int64 → Int64 → Bool) (a b : Constraint) :
    (testInts test a b).IsAnswer := by
  unfold testInts
  split
  · exact isAnswer_bool _
  · exact isAnswer_fail

theorem isAnswer_equal (a b : Constraint) : (equal a b).IsAnswer := by
  unfold equal
  split
  · exact isAnswer_fail
  · split
    · exact isAnswer_bool _
    · exact isAnswer_bool _
    · split
      · exact isAnswer_bool _
      · exact isAnswer_fail

end Constraint

open Constraint

theorem Operator.isAnswer_apply (op : Operator) (a b : Constraint) : (op.apply a b).IsAnswer := by
  cases op with
  | and | or => exact isAnswer_testBools _ a b
  | eq => exact isAnswer_equal a b
  | less | lessEq => exact isAnswer_testInts _ a b

/-! ## Calls -/

/-- A function answers as many values as it has parameters with a value or `fail`. Of other
arguments nothing is asked. -/
def Function.Answers (f : Function) : Prop :=
  ∀ args : List Constraint, args.length = f.arity → (∀ a ∈ args, a.isValue = true) →
    (f.apply args).IsAnswer

theorem Function.answers_ofHourTest (name : String) (test : Fin 24 → Bool) :
    (ofHourTest name test).Answers := by
  intro args _ _
  unfold ofHourTest
  dsimp only
  split
  · exact isAnswer_bool _
  · exact isAnswer_fail

theorem Function.answers_of_mem_builtins {clock : Clock} {f : Function}
    (h : f ∈ builtins clock) : f.Answers := by
  simp only [builtins, beforeHour, afterHour, List.mem_cons, List.not_mem_nil, or_false] at h
  rcases h with rfl | rfl <;> exact answers_ofHourTest _ _

namespace Registry

/-- A call is of a function of the registry, with a value for each of its parameters. -/
def Admits (r : Registry) (i : Invocation) : Prop :=
  ∃ f, r.lookup? i.function = some f ∧ i.args.length = f.arity ∧ ∀ a ∈ i.args, a.isValue = true

variable {r : Registry}

theorem mem_of_lookup? {name : String} {f : Function} (h : r.lookup? name = some f) :
    f ∈ r.functions.entries :=
  List.mem_of_find?_eq_some h

theorem mem_builtins_of_mem {clock : Clock} {f : Function}
    (h : f ∈ (withClock clock).functions.entries) : f ∈ Function.builtins clock := by
  have hf : (withClock clock).lookup? f.name = some f := Catalogue.find?_eq_some_iff.mpr ⟨h, rfl⟩
  exact List.mem_of_find?_eq_some ((lookup?_initial (some clock) f.name).symm.trans hf)

/-- To invoke a function on answers: either nothing is called, or what is called gets values. -/
theorem invoke_answers (hr : ∀ f ∈ r.functions.entries, f.Answers) (name : String)
    {args : List Constraint} (hargs : ∀ a ∈ args, a.IsAnswer) :
    (r.invoke name args).value.IsAnswer ∧ ∀ i ∈ (r.invoke name args).calls, r.Admits i := by
  unfold invoke
  split
  case isTrue => exact ⟨isAnswer_fail, List.forall_mem_nil _⟩
  case isFalse hfail =>
    have hvalues : ∀ a ∈ args, a.isValue = true := by
      intro a ha
      refine (hargs a ha).isValue_of_ne (Bool.eq_false_iff.mpr fun h => hfail ?_)
      exact List.any_eq_true.mpr ⟨a, ha, h⟩
    cases hf : r.lookup? name with
    | none => exact ⟨isAnswer_fail, List.forall_mem_nil _⟩
    | some f =>
      dsimp only
      split
      case isFalse => exact ⟨isAnswer_fail, List.forall_mem_nil _⟩
      case isTrue harity =>
        refine ⟨hr f (mem_of_lookup? hf) args harity.symm hvalues, ?_⟩
        exact List.forall_mem_singleton.mpr ⟨f, hf, harity.symm, hvalues⟩

/-- The invariant of a run: its value is an answer, and all its calls are admitted. -/
theorem run_answers (hr : ∀ f ∈ r.functions.entries, f.Answers) (c : Constraint) :
    (r.run c).value.IsAnswer ∧ ∀ i ∈ (r.run c).calls, r.Admits i := by
  induction c with
  | str | int | bool => exact ⟨.inl rfl, List.forall_mem_nil _⟩
  | fail => exact ⟨isAnswer_fail, List.forall_mem_nil _⟩
  | entity e =>
    cases e with
    | const c => exact ⟨.inl rfl, List.forall_mem_nil _⟩
    | var m => exact ⟨isAnswer_fail, List.forall_mem_nil _⟩
  | not c ih => exact ⟨isAnswer_negate _, ih.2⟩
  | binary op a b iha ihb =>
    exact ⟨op.isAnswer_apply _ _, List.forall_mem_append.mpr ⟨iha.2, ihb.2⟩⟩
  | call name args ih =>
    have hargs : ∀ a ∈ (r.runList args).map Outcome.value, a.IsAnswer := by
      simp only [runList_eq_map, List.map_map, List.mem_map, Function.comp_apply]
      rintro a ⟨arg, harg, rfl⟩
      exact (ih arg harg).1
    have hinvoke := invoke_answers hr name hargs
    refine ⟨hinvoke.1, List.forall_mem_append.mpr ⟨fun i hi => ?_, hinvoke.2⟩⟩
    simp only [runList_eq_map, List.mem_flatMap, List.mem_map] at hi
    obtain ⟨o, ⟨arg, harg, rfl⟩, hi⟩ := hi
    exact (ih arg harg).2 i hi

/-- Functions that answer values with values or `fail` are only ever called on values, one for each
parameter: on arguments that are evaluated, ground and do not fail. So every expression evaluates
to a value or `fail`. -/
theorem calls_on_values (r : Registry) (hr : ∀ f ∈ r.functions.entries, f.Answers)
    (c : Constraint) :
    (∀ i ∈ (r.run c).calls, ∃ f, r.lookup? i.function = some f ∧ i.args.length = f.arity ∧
      ∀ a ∈ i.args, a.isValue = true ∧ r.eval a = a ∧ Term.isGround a = true ∧ a ≠ .fail) ∧
    ((r.eval c).isValue = true ∨ r.eval c = .fail) := by
  obtain ⟨hvalue, hcalls⟩ := run_answers hr c
  refine ⟨fun i hi => ?_, hvalue⟩
  obtain ⟨f, hf, harity, hargs⟩ := hcalls i hi
  refine ⟨f, hf, harity, fun a ha => ?_⟩
  have h := hargs a ha
  exact ⟨h, eval_of_isValue r h, isGround_of_isValue h, ne_fail_of_isValue h⟩

/-- Of the calls in `beforeHour(5 < "17") or beforeHour(X) or afterHour()`, only the first one gets
a value for each parameter. -/
theorem calls_on_values_before :
    let r := Registry.withClock (.atHour 9)
    let x : Mention := ⟨⟨"X", ⟨1⟩⟩, none⟩
    let c : Constraint := .binary .or
      (.binary .or (.call "beforeHour" [.binary .less (.int 5) (.str "17")])
        (.call "beforeHour" [.entity (.var x)])) (.call "afterHour" [])
    (∀ f ∈ r.functions.entries, f.Answers) ∧
      (r.run c).calls = [⟨"beforeHour", [.bool true]⟩] ∧
      (∃ f, r.lookup? "beforeHour" = some f ∧ [Constraint.bool true].length = f.arity ∧
        ∀ a ∈ [Constraint.bool true],
          a.isValue = true ∧ r.eval a = a ∧ Term.isGround a = true ∧ a ≠ .fail) ∧
      ((r.eval c).isValue = true ∨ r.eval c = .fail) := by
  intro r x c
  have hr : ∀ f ∈ r.functions.entries, f.Answers := fun f hf =>
    Function.answers_of_mem_builtins (mem_builtins_of_mem hf)
  have hcalls : (r.run c).calls = [⟨"beforeHour", [.bool true]⟩] := by decide +kernel
  obtain ⟨h, hvalue⟩ := calls_on_values r hr c
  exact ⟨hr, hcalls, h ⟨"beforeHour", [.bool true]⟩ (hcalls ▸ List.mem_cons_self), hvalue⟩

end Registry

end AuthLogic
