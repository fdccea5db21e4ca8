import AuthLogic.Proofs.Assertion.Height
import AuthLogic.Proofs.Function.Registration
import AuthLogic.Proofs.Syntax.WhereClause

/-! # Calls in texts

A text calls a function by its name, with the arguments in parentheses. The names
that functions are registered under are cut from a text in one piece, but some of
them are keywords, and a keyword is never read as the name of a function.
-/

namespace AuthLogic

open Lexeme

/-! ## Names -/

theorem run_of_isFunctionName {name : String} (h : isFunctionName name = true) :
    Token.Run Char.isLower isWordChar name := by
  unfold isFunctionName at h
  split at h
  case h_1 => cases h
  case h_2 c cs hs =>
    rw [Bool.and_eq_true, List.all_eq_true] at h
    exact ⟨c, cs, hs, h.1, fun d hd => isWordChar_of_isNameChar (h.2 d hd)⟩

/-- A call of a function in front of a text that goes on with its arguments. -/
theorem lexes_call {name : String} {rest : List Char} {ts : List Token}
    (h : (Token.word name).Lexable) (hrest : Lexes rest ts) :
    Lexes (name.toList ++ '(' :: rest) (.word name :: .symbol .lparen :: ts) := by
  have hp : piece '(' ([] ++ rest) = (.token (.symbol .lparen), [].length) :=
    piece_symbol rfl (.inl rfl)
  have hopen : Lexes ('(' :: rest) (.symbol .lparen :: ts) := @Lexes.token '(' [] rest _ _ hp hrest
  exact lexes_spelling h (closed_cons_iff.mpr (by decide)) hopen

/-! ## Where-clauses -/

namespace ConstraintTree

/-- A call as a constraint. -/
def call (name : String) (args : List ConstraintTree) : ConstraintTree :=
  .disjunction (.conjunction (.comparison (.atom (.call name args))) []) []

variable {name : String} {args : List ConstraintTree}

theorem tokens_call : (call name args).tokens = .word name :: .symbol .lparen ::
    (commas (args.map tokens) ++ [.symbol .rparen]) := by
  rw [call, tokens, ConjunctionTree.tokens, NegationTree.tokens, ComparisonTree.tokens,
    AtomTree.tokens]
  simp only [List.flatMap_nil, List.append_nil]

theorem admissible_call (h : ∀ c ∈ args, c.Admissible) : (call name args).Admissible := by
  rw [call, Admissible, ConjunctionTree.Admissible, NegationTree.Admissible,
    ComparisonTree.Admissible, AtomTree.Admissible]
  exact ⟨⟨h, List.forall_mem_nil _⟩, List.forall_mem_nil _⟩

theorem nesting_call_le {n : Nat} (hn : 0 < n) (h : ∀ c ∈ args, c.nesting < n) :
    (call name args).nesting ≤ n := by
  obtain ⟨n, rfl⟩ := Nat.exists_eq_succ_of_ne_zero (Nat.ne_zero_of_lt hn)
  rw [call, nesting_disjunction_le_iff, ConjunctionTree.nesting_conjunction_le_iff,
    NegationTree.nesting, ComparisonTree.nesting, AtomTree.nesting_call_le_iff]
  exact ⟨⟨fun c hc => Nat.le_of_lt_succ (h c hc), List.forall_mem_nil _⟩, List.forall_mem_nil _⟩

theorem value_call : (call name args).value = .call name (args.map value) := by
  rw [call, value, ConjunctionTree.value, NegationTree.value, ComparisonTree.value, AtomTree.value]
  rfl

theorem tokens_truths_zero : (truths 0).tokens = [.keyword .true] := by
  rw [truths, tokens, ConjunctionTree.tokens, NegationTree.tokens_truth]
  rfl

theorem value_truths_zero : (truths 0).value = .bool true := by
  rw [truths, value, ConjunctionTree.value, NegationTree.truth, NegationTree.value,
    ComparisonTree.value, AtomTree.value]
  rfl

end ConstraintTree

/-- The texts `name(arguments)` are read as calls of the name, for all arguments that the grammar
derives: in an assertion with any opening, and with any gaps and comments among the arguments. -/
def ReadAsCall (name : String) : Prop :=
  ∀ (levels : Nat) (opening rest : String) (d : AssertionTree) (args : List ConstraintTree),
    d.Admissible → d.nesting ≤ levels → Lexes opening.toList d.openingTokens →
    (∀ c ∈ args, c.Admissible ∧ c.nesting < levels) →
    Lexes rest.toList
      (commas (args.map ConstraintTree.tokens) ++ [.symbol .rparen, .symbol .period]) →
    parseAssertion levels (opening ++ "\nwhere " ++ name ++ "(" ++ rest) =
      .ok (d.speaker.value,
        { d.claim.value with constraint := .call name (args.map ConstraintTree.value) })

theorem readAsCall_of_lexable {name : String} (hname : (Token.word name).Lexable) :
    ReadAsCall name := by
  intro levels opening rest d args hd hlevels hopening hargs hrest
  have hpositive : 0 < levels :=
    Nat.lt_of_lt_of_le (Nat.succ_pos _) (ClaimTree.nesting_le_iff.mp hlevels).1
  have hguard : Lexes (name ++ "(" ++ rest).toList
      ((ConstraintTree.call name args).tokens ++ [.symbol .period]) := by
    have htext : (name ++ "(" ++ rest).toList = name.toList ++ '(' :: rest.toList := by
      rw [String.toList_append, String.toList_append, List.append_assoc]
      rfl
    rw [htext, ConstraintTree.tokens_call, List.cons_append, List.cons_append, List.append_assoc]
    exact lexes_call hname hrest
  have hparse := parseAssertion_guarded hd hlevels
    (ConstraintTree.admissible_call fun c hc => (hargs c hc).1)
    (ConstraintTree.nesting_call_le hpositive fun c hc => (hargs c hc).2) hopening hguard
  rw [ConstraintTree.value_call] at hparse
  simpa only [String.append_assoc] using hparse

/-! ## Functions that texts reach -/

/-- What a constraint of a text calls has a name that is a word. -/
theorem Constraint.Legible.lexable_of_mem_calls {c : Constraint} (h : c.Legible) (r : Registry)
    {i : Invocation} (hi : i ∈ (r.run c).calls) : (Token.word i.function).Lexable := by
  induction h with
  | str | int | bool => cases hi
  | @entity e _ _ _ => cases e <;> cases hi
  | @call name args hname _ ih =>
    rw [Registry.run, Registry.runList_eq_map] at hi
    rcases List.mem_append.mp hi with hi | hi
    · simp only [List.mem_flatMap, List.mem_map] at hi
      obtain ⟨o, ⟨arg, harg, rfl⟩, hi⟩ := hi
      exact ih arg harg hi
    · have hname' : i.function = name := by
        unfold Registry.invoke at hi
        split at hi
        · cases hi
        split at hi
        · cases hi
        split at hi
        · cases List.mem_singleton.mp hi
          rfl
        · cases hi
      rwa [hname']
  | not _ ih => exact ih hi
  | binary _ _ ihl ihr =>
    rcases List.mem_append.mp hi with hi | hi
    · exact ihl hi
    · exact ihr hi

namespace Registry

variable {r r' : Registry} {f : Function}

theorem of_register (h : r.register f = .ok r') :
    isFunctionName f.name = true ∧ r'.lookup? f.name = some f := by
  rw [register] at h
  rcases r.offer_cases f with ⟨e, he⟩ | ⟨hname, -, hoffer⟩
  · rw [he] at h
    cases h
  · rw [hoffer] at h
    cases h
    exact ⟨hname, by rw [lookup?_insert, if_pos rfl]⟩

/-- Some text has an assertion whose constraint calls a function. -/
def Reaches (r : Registry) (name : String) : Prop :=
  ∃ (levels : Nat) (text : String) (speaker : Entity) (claim : Claim) (i : Invocation),
    parseAssertion levels text = .ok (speaker, claim) ∧ i ∈ (r.run claim.constraint).calls ∧
      i.function = name

theorem Reaches.lexable {name : String} (h : r.Reaches name) : (Token.word name).Lexable := by
  obtain ⟨levels, text, speaker, claim, i, hparse, hi, rfl⟩ := h
  obtain ⟨ls, hls, hread⟩ := parseAssertion_eq_ok_iff.mp hparse
  obtain ⟨⟨-, hclaim, -⟩, -⟩ :=
    Parser.yields_assertion levels ls _ _ (lexable_of_ofChars hls) hread
  exact hclaim.constraint.lexable_of_mem_calls r hi

/-- A function is reached with `true` for each of its parameters. -/
theorem reaches_of_readAsCall (h : ReadAsCall f.name) (hf : r.lookup? f.name = some f) :
    r.Reaches f.name := by
  let args : List ConstraintTree := List.replicate f.arity (.truths 0)
  have hopening : Lexes "A says B ok".toList (AssertionTree.truths 0).openingTokens :=
    lexes_of_toOption (by decide +kernel)
  have htruth : Spells "true".toList (ConstraintTree.truths 0).tokens := by
    rw [ConstraintTree.tokens_truths_zero]
    exact .token (.keyword .true) (Token.lexable_keyword .true)
  have hargs : Spells (", ".intercalate (args.map fun _ => "true")).toList
      (commas (args.map ConstraintTree.tokens)) :=
    spells_commas fun c hc => List.eq_of_mem_replicate hc ▸ htruth
  have hclose : Lexes ").".toList [.symbol .rparen, .symbol .period] :=
    lexes_of_toOption (by decide +kernel)
  have hrest : Lexes (", ".intercalate (args.map fun _ => "true") ++ ").").toList
      (commas (args.map ConstraintTree.tokens) ++ [.symbol .rparen, .symbol .period]) := by
    rw [String.toList_append]
    exact hargs _ _ (closed_cons_iff.mpr (by decide)) hclose
  have hparse := h 2 _ _ _ args (AssertionTree.admissible_truths 0)
    (Nat.le_succ_of_le (AssertionTree.nesting_truths_le 0)) hopening
    (fun c hc => List.eq_of_mem_replicate hc ▸ ⟨ConstraintTree.admissible_truths 0,
      Nat.lt_succ_of_le (ConstraintTree.nesting_truths_le 0)⟩) hrest
  refine ⟨_, _, _, _, ⟨f.name, List.replicate f.arity (.bool true)⟩, hparse, ?_, rfl⟩
  have htruths : args.map ConstraintTree.value = List.replicate f.arity (.bool true) := by
    rw [List.map_replicate, ConstraintTree.value_truths_zero]
  have hvalues : (r.runList (args.map ConstraintTree.value)).map Outcome.value =
      List.replicate f.arity (.bool true) := by
    rw [htruths, runList_eq_map, List.map_replicate, List.map_replicate]
    rfl
  have hinvoke : (r.invoke f.name (List.replicate f.arity (.bool true))).calls =
      [⟨f.name, List.replicate f.arity (.bool true)⟩] := by
    have hfail : (List.replicate f.arity (Constraint.bool true)).any Constraint.isFail = false := by
      simp [Constraint.isFail]
    rw [invoke, hfail, if_neg Bool.false_ne_true, hf]
    simp
  change _ ∈ _ ++ (r.invoke f.name ((r.runList (args.map ConstraintTree.value)).map _)).calls
  rw [hvalues, hinvoke]
  exact List.mem_append_right _ List.mem_cons_self

/-- A function that is registered can be called by its name, with any arguments, unless the name is
a keyword. Under such a name no text reaches it. -/
theorem register_reaches_iff (h : r.register f = .ok r') :
    (ReadAsCall f.name ↔ Keyword.ofSpelling? f.name = none) ∧
    (r'.Reaches f.name ↔ Keyword.ofSpelling? f.name = none) := by
  obtain ⟨hname, hlookup⟩ := of_register h
  have hlexable : (Token.word f.name).Lexable ↔ Keyword.ofSpelling? f.name = none :=
    and_iff_right (run_of_isFunctionName hname)
  -- a word is read as a call, what is read as a call is reached, and what is reached is a word
  rw [← hlexable]
  refine ⟨⟨fun hread => ?_, readAsCall_of_lexable⟩, Reaches.lexable, fun hword => ?_⟩
  · exact (reaches_of_readAsCall hread hlookup).lexable
  · exact reaches_of_readAsCall (readAsCall_of_lexable hword) hlookup

/-- The call `near(1, not X)` with a comment behind it. -/
theorem register_reaches_iff_near :
    let f : Function := ⟨"near", 2, fun _ => .bool true⟩
    let r : Registry := ⟨.insert .empty f⟩
    let d := AssertionTree.truths 0
    let args : List ConstraintTree :=
      [.disjunction (.conjunction (.comparison (.atom (.int 1))) []) [],
        .disjunction (.conjunction (.not (.comparison (.atom (.name ⟨"X", none⟩)))) []) []]
    let rest := "1, not X) // at most\n."
    Registry.empty.register f = .ok r ∧ Keyword.ofSpelling? f.name = none ∧
      (d.Admissible ∧ d.nesting ≤ 64 ∧ Lexes "A says B ok".toList d.openingTokens ∧
        (∀ c ∈ args, c.Admissible ∧ c.nesting < 64) ∧
        Lexes rest.toList
          (commas (args.map ConstraintTree.tokens) ++ [.symbol .rparen, .symbol .period])) ∧
      parseAssertion 64 ("A says B ok" ++ "\nwhere " ++ f.name ++ "(" ++ rest) =
        .ok (d.speaker.value,
          { d.claim.value with constraint := .call f.name (args.map ConstraintTree.value) }) ∧
      r.Reaches f.name := by
  intro f r d args rest
  have hregister : Registry.empty.register f = .ok r := by
    rw [register, offer_of_eq_none (by decide) rfl]
    rfl
  have hkeyword : Keyword.ofSpelling? f.name = none := by decide
  have hopening : Lexes "A says B ok".toList d.openingTokens :=
    lexes_of_toOption (by decide +kernel)
  have hlevels : d.nesting ≤ 64 := Nat.le_trans (AssertionTree.nesting_truths_le 0) (by decide)
  have hargs : ∀ c ∈ args, c.Admissible ∧ c.nesting < 64 := by
    simp [args, ConstraintTree.Admissible, ConjunctionTree.Admissible, NegationTree.Admissible,
      ComparisonTree.Admissible, AtomTree.Admissible, NameTree.Admissible, ConstraintTree.nesting,
      ConjunctionTree.nesting, NegationTree.nesting, ComparisonTree.nesting, AtomTree.nesting]
  have htokens : commas (args.map ConstraintTree.tokens) ++ [.symbol .rparen, .symbol .period] =
      [.int 1, .symbol .comma, .keyword .not, .name "X", .symbol .rparen, .symbol .period] := by
    simp [args, commas, ConstraintTree.tokens, ConjunctionTree.tokens, NegationTree.tokens,
      ComparisonTree.tokens, AtomTree.tokens, NameTree.tokens]
  have hrest : Lexes rest.toList
      (commas (args.map ConstraintTree.tokens) ++ [.symbol .rparen, .symbol .period]) := by
    rw [htokens]
    exact lexes_of_toOption (by decide +kernel)
  obtain ⟨hread, hreaches⟩ := register_reaches_iff hregister
  exact ⟨hregister, hkeyword,
    ⟨AssertionTree.admissible_truths 0, hlevels, hopening, hargs, hrest⟩,
    hread.mpr hkeyword 64 _ _ _ _ (AssertionTree.admissible_truths 0) hlevels hopening hargs hrest,
    hreaches.mpr hkeyword⟩

/-- A function may be registered under a keyword, and no text calls it then. -/
theorem exists_register_parse_error :
    ¬ ∀ (r r' : Registry) (f : Function), r.register f = .ok r' → ReadAsCall f.name := by
  intro h
  have hparse := h .empty _ ⟨"says", 0, fun _ => .bool true⟩ rfl 64 "A says B ok" ")."
    (.truths 0) [] (AssertionTree.admissible_truths 0)
    (Nat.le_trans (AssertionTree.nesting_truths_le 0) (by decide))
    (lexes_of_toOption (by decide +kernel)) (List.forall_mem_nil _)
    (lexes_of_toOption (by decide +kernel))
  have herror : (parseAssertion 64 "A says B ok\nwhere says().").toOption.isNone = true := by
    decide +kernel
  change parseAssertion 64 "A says B ok\nwhere says()." = _ at hparse
  rw [hparse] at herror
  cases herror

end Registry

end AuthLogic
