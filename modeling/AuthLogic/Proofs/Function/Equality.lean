import AuthLogic.Proofs.Function.Arguments
import AuthLogic.Proofs.Function.Comparison

/-! # Equality of values

Integers are compared with integers as numbers, Booleans with Booleans as truth
values, and all other values by their texts. Different integers have different
texts, and so have the truth values: the texts alone decide in every case, and
equality is an equivalence relation however the kinds of values are mixed.
-/

namespace AuthLogic

namespace Constraint

variable {a b : Constraint}

theorem exists_text?_of_isValue (h : a.isValue = true) : ∃ text, a.text? = some text := by
  cases a with
  | str s => exact ⟨s, rfl⟩
  | int n => exact ⟨_, rfl⟩
  | bool p => cases p <;> exact ⟨_, rfl⟩
  | _ => cases h

theorem text?_int_inj {m n : Int64} : (int m).text? = (int n).text? ↔ m = n :=
  ⟨int?_eq_of_text?_eq rfl rfl, fun h => h ▸ rfl⟩

theorem text?_bool_inj {p q : Bool} : (bool p).text? = (bool q).text? ↔ p = q := by
  cases p <;> cases q <;> decide

/-- Whichever way two values are compared, the result is that of comparing their texts. -/
theorem equal_of_isValue (ha : a.isValue = true) (hb : b.isValue = true) :
    equal a b = bool (a.text? = b.text?) := by
  have hmixed {s t : String} : decide (s = t) = decide (some s = some t) :=
    decide_eq_decide.mpr Option.some_inj.symm
  cases a with
  | int m =>
    cases b with
    | int n => exact congrArg bool (decide_eq_decide.mpr text?_int_inj.symm)
    | str t => exact congrArg bool hmixed
    | bool q => cases q <;> exact congrArg bool hmixed
    | _ => cases hb
  | bool p =>
    cases b with
    | bool q => exact congrArg bool (decide_eq_decide.mpr text?_bool_inj.symm)
    | str t | int n => cases p <;> exact congrArg bool hmixed
    | _ => cases hb
  | str s =>
    cases b with
    | str t | int n => exact congrArg bool hmixed
    | bool q => cases q <;> exact congrArg bool hmixed
    | _ => cases hb
  | _ => cases ha

end Constraint

namespace Registry

variable {r : Registry} {a b c : Constraint}

theorem isValue_eval (hr : ∀ f ∈ r.functions.entries, f.Answers) (h : r.eval a ≠ .fail) :
    (r.eval a).isValue = true :=
  (run_answers hr a).1.resolve_right h

theorem eval_eq_of_ne_fail (hr : ∀ f ∈ r.functions.entries, f.Answers) (ha : r.eval a ≠ .fail)
    (hb : r.eval b ≠ .fail) :
    r.eval (.binary .eq a b) = .bool ((r.eval a).text? = (r.eval b).text?) :=
  Constraint.equal_of_isValue (isValue_eval hr ha) (isValue_eval hr hb)

/-- If functions answer values with values or `fail`, then equality is an equivalence relation on
what does not fail, and has a Boolean value there: whether the texts are the same. -/
theorem eval_eq_equivalence (hr : ∀ f ∈ r.functions.entries, f.Answers) (ha : r.eval a ≠ .fail)
    (hb : r.eval b ≠ .fail) (hc : r.eval c ≠ .fail) :
    (∃ p, r.eval (.binary .eq a b) = .bool p) ∧
    r.eval (.binary .eq a a) = .bool true ∧
    r.eval (.binary .eq a b) = r.eval (.binary .eq b a) ∧
    (r.eval (.binary .eq a b) = .bool true → r.eval (.binary .eq b c) = .bool true →
      r.eval (.binary .eq a c) = .bool true) ∧
    ∃ s t, (r.eval a).text? = some s ∧ (r.eval b).text? = some t ∧
      r.eval (.binary .eq a b) = .bool (s = t) := by
  obtain ⟨s, hs⟩ := Constraint.exists_text?_of_isValue (isValue_eval hr ha)
  obtain ⟨t, ht⟩ := Constraint.exists_text?_of_isValue (isValue_eval hr hb)
  rw [eval_eq_of_ne_fail hr ha hb, eval_eq_of_ne_fail hr ha ha, eval_eq_of_ne_fail hr hb ha,
    eval_eq_of_ne_fail hr hb hc, eval_eq_of_ne_fail hr ha hc]
  simp only [Constraint.bool.injEq, decide_eq_true_eq]
  refine ⟨⟨_, rfl⟩, trivial, decide_eq_decide.mpr eq_comm, Eq.trans, s, t, hs, ht, ?_⟩
  rw [hs, ht]
  exact decide_eq_decide.mpr Option.some_inj

/-- The string `"true"` between a literal and the value of a call, and the string `"-7"` next to the
integer. -/
theorem eval_eq_equivalence_true :
    let r := Registry.withClock (.atHour 9)
    let called : Constraint := .call "beforeHour" [.str "17"]
    (∀ f ∈ r.functions.entries, f.Answers) ∧ r.eval called = .bool true ∧
      r.eval (.binary .eq (.bool true) (.str "true")) = .bool true ∧
      r.eval (.binary .eq (.str "true") called) = .bool true ∧
      r.eval (.binary .eq (.bool true) called) = .bool true ∧
      r.eval (.binary .eq (.str "-7") (.int (-7))) = .bool true := by
  intro r called
  have hr : ∀ f ∈ r.functions.entries, f.Answers := fun f hf =>
    Function.answers_of_mem_builtins (mem_builtins_of_mem hf)
  have hcalled : r.eval called = .bool true := by decide +kernel
  have hleft : r.eval (.binary .eq (.bool true) (.str "true")) = .bool true := by decide +kernel
  have hright : r.eval (.binary .eq (.str "true") called) = .bool true := by decide +kernel
  have hne : r.eval called ≠ .fail := by
    rw [hcalled]
    decide
  have hbool : r.eval (.bool true) ≠ .fail := by decide
  have hstr (s : String) : r.eval (.str s) ≠ .fail := by
    intro h
    cases h
  obtain ⟨-, -, -, htrans, -⟩ := eval_eq_equivalence hr hbool (hstr "true") hne
  obtain ⟨-, -, -, -, s, t, hs, ht, h⟩ :=
    eval_eq_equivalence (b := .int (-7)) hr (hstr "-7") (by decide) hbool
  cases hs
  cases ht
  exact ⟨hr, hcalled, hleft, hright, htrans hleft hright, h.trans (by decide)⟩

end Registry

end AuthLogic
