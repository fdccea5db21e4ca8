import AuthLogic.Function.Evaluation
import AuthLogic.Proofs.Syntax.Spelling

/-! # Comparisons

Values are ordered by the integers that they stand for, and equal if their texts
are. One text stands for one integer, but one integer has several texts: signs,
zeros and blanks may be added in front of it. Two of its spellings are neither
equal nor is one of them less than the other.
-/

namespace AuthLogic

/-! ## Spellings of integers -/

namespace Text

theorem isBlank_of_isDigit {c : Char} (h : c.isDigit = true) : isBlank c = false := by
  change (decide ('0'.val ≤ c.val) && decide (c.val ≤ '9'.val)) = true at h
  simp only [Bool.and_eq_true, decide_eq_true_eq, UInt32.le_iff_toNat_le] at h
  have hlow : 48 ≤ c.toNat := h.1
  have hhigh : c.toNat ≤ 57 := h.2
  simp [isBlank, blankRanges]
  omega

theorem trim_of_forall {cs : List Char} (h : ∀ c ∈ cs, isBlank c = false) : trim cs = cs := by
  have hdrop {ds : List Char} (h : ∀ c ∈ ds, isBlank c = false) : ds.dropWhile isBlank = ds := by
    cases ds with
    | nil => rfl
    | cons d ds => rw [List.dropWhile_cons_of_neg (by simp [h d List.mem_cons_self])]
  rw [trim, trimBy, hdrop h, hdrop fun c hc => h c (List.mem_reverse.mp hc), List.reverse_reverse]

theorem trim_writeInt (n : Int) : trim (writeInt n).toList = (writeInt n).toList := by
  obtain ⟨c, cs, hs, hc, hcs⟩ := Lexeme.toList_writeInt n
  rw [hs]
  refine trim_of_forall (List.forall_mem_cons.mpr ⟨?_, fun d hd => isBlank_of_isDigit (hcs d hd)⟩)
  rcases hc with hc | ⟨rfl, -⟩
  · exact isBlank_of_isDigit hc
  · decide

end Text

namespace Constraint

variable {a b : Constraint} {m n : Int64}

/-- The integer that a value stands for is told by its text. -/
theorem exists_text?_of_int? (h : a.int? = some n) :
    ∃ text, a.text? = some text ∧ Text.readInt64? (Text.trim text.toList) = some n := by
  cases a with
  | str s => exact ⟨s, rfl, h⟩
  | int k =>
    cases h
    refine ⟨_, rfl, ?_⟩
    rw [Text.trim_writeInt]
    exact Lexeme.readInt64?_writeInt n
  | _ => cases h

theorem int?_eq_of_text?_eq (ha : a.int? = some m) (hb : b.int? = some n)
    (h : a.text? = b.text?) : m = n := by
  obtain ⟨s, hs, hm⟩ := exists_text?_of_int? ha
  obtain ⟨t, ht, hn⟩ := exists_text?_of_int? hb
  rw [hs, ht] at h
  cases h
  exact Option.some.inj (hm.symm.trans hn)

/-- Two values have different texts, which stand for one integer. -/
def Respelled (a b : Constraint) : Prop :=
  a.int? = b.int? ∧ a.text? ≠ b.text?

instance (a b : Constraint) : Decidable (a.Respelled b) :=
  inferInstanceAs (Decidable (_ ∧ _))

/-- The text of a value is the one that is written for the integer it stands for. -/
def IsNumeral (a : Constraint) : Prop :=
  a.text? = a.int?.map fun n => Text.writeInt n.toInt

theorem IsNumeral.not_respelled (ha : a.IsNumeral) (hb : b.IsNumeral) : ¬ a.Respelled b := by
  rintro ⟨hint, htext⟩
  rw [ha, hb, hint] at htext
  exact htext rfl

/-! ## Tests of integers -/

theorem testInts_of_int? (test : Int64 → Int64 → Bool) (ha : a.int? = some m)
    (hb : b.int? = some n) : testInts test a b = bool (test m n) := by
  rw [testInts, ha, hb]

theorem equal_of_int? (ha : a.int? = some m) (hb : b.int? = some n) :
    equal a b = bool (a.text? = b.text?) := by
  cases a with
  | str s =>
    cases b with
    | str | int => exact congrArg bool (decide_eq_decide.mpr Option.some_inj.symm)
    | _ => cases hb
  | int k =>
    cases b with
    | str t => exact congrArg bool (decide_eq_decide.mpr Option.some_inj.symm)
    | int l =>
      refine congrArg bool (decide_eq_decide.mpr ⟨fun h => h ▸ rfl, fun h => ?_⟩)
      exact int?_eq_of_text?_eq rfl rfl h
    | _ => cases hb
  | _ => cases ha

theorem exists_int?_of_testInts {test : Int64 → Int64 → Bool} {p : Bool}
    (h : testInts test a b = bool p) : ∃ m n, a.int? = some m ∧ b.int? = some n := by
  unfold testInts at h
  split at h
  case h_1 m n hm hn => exact ⟨m, n, hm, hn⟩
  case h_2 => cases h

end Constraint

namespace Registry

variable {r : Registry} {a b : Constraint}

theorem isSatisfied_eq {c : Constraint} {p : Bool} (h : r.eval c = .bool p) :
    r.isSatisfied c = p := by
  rw [isSatisfied, h]
  simp

/-- Where `a < b` has a Boolean value, so have `a = b`, `b < a` and `a <= b`. Exactly one of the
first three is true, and `a <= b` if `a < b` or `a = b` is, unless one integer is respelled: then
none of the three is true, and `a <= b` and `b <= a` are. -/
theorem comparisons_coherent {p : Bool} (h : r.eval (.binary .less a b) = .bool p) :
    (∀ c ∈ [Constraint.binary .less a b, .binary .eq a b, .binary .less b a, .binary .lessEq a b],
      ∃ q, r.eval c = .bool q) ∧
    (¬ (r.eval a).Respelled (r.eval b) →
      [Constraint.binary .less a b, .binary .eq a b, .binary .less b a].countP r.isSatisfied = 1 ∧
      (r.isSatisfied (.binary .lessEq a b) = true ↔
        r.isSatisfied (.binary .less a b) = true ∨ r.isSatisfied (.binary .eq a b) = true)) ∧
    ((r.eval a).Respelled (r.eval b) →
      [Constraint.binary .less a b, .binary .eq a b, .binary .less b a].countP r.isSatisfied = 0 ∧
      r.isSatisfied (.binary .lessEq a b) = true ∧ r.isSatisfied (.binary .lessEq b a) = true) ∧
    ((r.eval a).IsNumeral → (r.eval b).IsNumeral → ¬ (r.eval a).Respelled (r.eval b)) := by
  obtain ⟨m, n, hm, hn⟩ : ∃ m n, (r.eval a).int? = some m ∧ (r.eval b).int? = some n :=
    Constraint.exists_int?_of_testInts h
  have hless : r.eval (.binary .less a b) = .bool (m < n) := Constraint.testInts_of_int? _ hm hn
  have heq : r.eval (.binary .eq a b) = .bool ((r.eval a).text? = (r.eval b).text?) :=
    Constraint.equal_of_int? hm hn
  have hgreater : r.eval (.binary .less b a) = .bool (n < m) := Constraint.testInts_of_int? _ hn hm
  have hle : r.eval (.binary .lessEq a b) = .bool (m ≤ n) := Constraint.testInts_of_int? _ hm hn
  have hge : r.eval (.binary .lessEq b a) = .bool (n ≤ m) := Constraint.testInts_of_int? _ hn hm
  have hrespelled : (r.eval a).Respelled (r.eval b) ↔
      m = n ∧ (r.eval a).text? ≠ (r.eval b).text? := by
    rw [Constraint.Respelled, hm, hn, Option.some.injEq]
  rw [hrespelled, List.countP_cons, List.countP_cons, List.countP_cons, List.countP_nil,
    isSatisfied_eq hless, isSatisfied_eq heq, isSatisfied_eq hgreater, isSatisfied_eq hle,
    isSatisfied_eq hge]
  refine ⟨?_, fun hspelling => ?_, ?_, fun ha hb => mt hrespelled.mpr (ha.not_respelled hb)⟩
  · simp only [List.forall_mem_cons]
    exact ⟨⟨_, hless⟩, ⟨_, heq⟩, ⟨_, hgreater⟩, ⟨_, hle⟩, List.forall_mem_nil _⟩
  · by_cases htext : (r.eval a).text? = (r.eval b).text?
    · cases Constraint.int?_eq_of_text?_eq hm hn htext
      simp [htext]
    · rcases Int64.lt_or_lt_of_ne fun hmn => hspelling ⟨hmn, htext⟩ with hlt | hgt
      · simp [htext, hlt, Int64.lt_asymm hlt, Int64.le_of_lt hlt]
      · simp [htext, hgt, Int64.lt_asymm hgt, Int64.not_le.mpr hgt]
  · rintro ⟨rfl, htext⟩
    simp [htext]

/-- The string `"4"` next to the integer `3`, and `"01"` next to `1`. -/
theorem comparisons_coherent_zero :
    let r := Registry.empty
    let tests (a b : Constraint) : List Constraint :=
      [.binary .less a b, .binary .eq a b, .binary .less b a]
    (r.eval (.binary .less (.int 3) (.str "4")) = .bool true ∧
      ¬ (r.eval (.int 3)).Respelled (r.eval (.str "4")) ∧
      (tests (.int 3) (.str "4")).countP r.isSatisfied = 1) ∧
    r.eval (.binary .less (.str "01") (.int 1)) = .bool false ∧
      (r.eval (.str "01")).Respelled (r.eval (.int 1)) ∧
      (tests (.str "01") (.int 1)).countP r.isSatisfied = 0 ∧
      r.isSatisfied (.binary .lessEq (.str "01") (.int 1)) = true := by
  intro r tests
  have hfour : r.eval (.binary .less (.int 3) (.str "4")) = .bool true := by decide +kernel
  have hdistinct : ¬ (r.eval (.int 3)).Respelled (r.eval (.str "4")) := by decide +kernel
  have hone : r.eval (.binary .less (.str "01") (.int 1)) = .bool false := by decide +kernel
  have hrespelled : (r.eval (.str "01")).Respelled (r.eval (.int 1)) := by decide +kernel
  obtain ⟨-, hcount, -⟩ := comparisons_coherent hfour
  obtain ⟨-, -, hnone, -⟩ := comparisons_coherent hone
  exact ⟨⟨hfour, hdistinct, (hcount hdistinct).1⟩, hone, hrespelled, (hnone hrespelled).1,
    (hnone hrespelled).2.1⟩

/-- The string `"01"` stands for `1`, but is not equal to it. -/
theorem exists_respelled :
    ¬ ∀ (r : Registry) (a b : Constraint) (p : Bool), r.eval (.binary .less a b) = .bool p →
      [Constraint.binary .less a b, .binary .eq a b, .binary .less b a].countP r.isSatisfied = 1 ∧
      (r.isSatisfied (.binary .lessEq a b) = true ↔
        r.isSatisfied (.binary .less a b) = true ∨ r.isSatisfied (.binary .eq a b) = true) := by
  intro h
  obtain ⟨hcount, -⟩ := h .empty (.str "01") (.int 1) false (by decide +kernel)
  exact absurd hcount (by decide +kernel)

end Registry

end AuthLogic
