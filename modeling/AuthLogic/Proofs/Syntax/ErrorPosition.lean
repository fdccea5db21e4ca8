import AuthLogic.Proofs.Syntax.Location
import AuthLogic.Proofs.Syntax.Tiling

/-! # The position of syntax errors

An assertion is refused at the first token that no assertion goes on with. The
tokens before it can be completed to an assertion.
-/

namespace AuthLogic

/-! ## Offsets -/

namespace Lexeme

/-- The lexemes in front of one of them, or of the end of the text, are those that start before. -/
theorem eq_filter_of_ofText {text : String} {before after : List Lexeme}
    (h : ofText text = .ok (before ++ after)) :
    before = (before ++ after).filter fun l =>
      l.start < (Parser.position? after).getD text.utf8ByteSize := by
  have htiles := tiles_of_ofText h
  obtain ⟨-, hafter, hbefore⟩ := List.pairwise_append.mp htiles.increasing
  rw [List.filter_append]
  cases after with
  | nil =>
    have hall : ∀ l ∈ before, decide (l.start < text.utf8ByteSize) = true := by
      intro l hl
      have hl := List.mem_append_left [] hl
      exact decide_eq_true (Nat.lt_of_lt_of_le (htiles.nonempty l hl) (htiles.inBounds l hl))
    rw [List.filter_nil, List.append_nil]
    exact (List.filter_eq_self.mpr hall).symm
  | cons k after =>
    have hall : ∀ l ∈ before, decide (l.start < k.start) = true :=
      fun l hl => decide_eq_true (hbefore l hl k List.mem_cons_self)
    have hnone : ∀ l ∈ k :: after, ¬ decide (l.start < k.start) = true := by
      intro l hl
      rw [decide_eq_true_eq]
      rcases List.mem_cons.mp hl with rfl | hl
      · exact Nat.lt_irrefl _
      · exact Nat.lt_asymm (List.rel_of_pairwise_cons hafter hl)
    change before = before.filter (fun l => l.start < k.start) ++
      (k :: after).filter (fun l => l.start < k.start)
    rw [List.filter_eq_self.mpr hall, List.filter_eq_nil_iff.mpr hnone, List.append_nil]

end Lexeme

/-! ## Assertions -/

/-- Tokens that are an assertion, also one that is refused for what it says. -/
def Sentence (ts : List Token) : Prop :=
  ∃ d : AssertionTree, d.tokens = ts

/-- Tokens that can be completed to an assertion. -/
def Viable (ts : List Token) : Prop :=
  ∃ us, Sentence (ts ++ us)

/-- An error stands at the first lexeme that cannot go on with those before it, or at the end of
the text if the first thing that is wrong with it is that it ends. -/
structure SyntaxError.Pinpoints (e : SyntaxError) (text : String) (before after : List Lexeme) :
    Prop where
  position : e.position? = Parser.position? after
  before_eq : Lexeme.ofText text = .ok (before ++ after) →
    before = (before ++ after).filter fun l => l.start < e.position?.getD text.utf8ByteSize
  viable : Viable (before.map Lexeme.token)
  found : ∀ wanted found, e.cause = .expected wanted found → found = Parser.nextToken after
  not_viable : ∀ wanted t, e.cause = .expected wanted (some t) →
    ¬ Viable (before.map Lexeme.token ++ [t])
  not_sentence : ∀ wanted, e.cause = .expected wanted none →
    ¬ Sentence (before.map Lexeme.token) ∧ after = [] ∧
      e.report text = .parse e.cause.message text.utf8ByteSize

namespace Parser

variable {levels : Nat} {text : String} {ls : List Lexeme} {e : SyntaxError}

theorem eq_nil_of_nextToken (h : nextToken ls = none) : ls = [] := by
  cases ls with
  | nil => rfl
  | cons l ls => cases h

/-- A continuation of the tokens taken, in front of anything, is one in particular at the end. -/
theorem pinpoints_of_stuck {before after : List Lexeme} (hposition : e.position? = position? after)
    (hviable : ∃ (d : AssertionTree) (us : List Token), d.tokens = before.map Lexeme.token ++ us)
    (hfirst : ∀ wanted found, e.cause = .expected wanted found → found = nextToken after ∧
      ∀ d, ¬ Continues (fun _ => True) AssertionTree.tokens (before.map Lexeme.token) found d) :
    e.Pinpoints text before after where
  position := hposition
  before_eq h := by
    rw [hposition]
    exact Lexeme.eq_filter_of_ofText h
  viable := by
    obtain ⟨d, us, hd⟩ := hviable
    exact ⟨us, d, hd⟩
  found wanted found hcause := (hfirst wanted found hcause).1
  not_viable wanted t hcause := by
    rintro ⟨us, d, hd⟩
    refine (hfirst wanted _ hcause).2 d ⟨[], t :: us, starts_nil, ?_, rfl⟩
    rw [List.append_nil, hd, List.append_assoc]
    rfl
  not_sentence wanted hcause := by
    obtain ⟨hfound, hnone⟩ := hfirst wanted none hcause
    obtain rfl := eq_nil_of_nextToken hfound.symm
    refine ⟨?_, rfl, ?_⟩
    · rintro ⟨d, hd⟩
      exact hnone d ⟨[], [], starts_nil, by rw [hd], rfl⟩
    · rw [SyntaxError.report, hposition]
      rfl

/-- Unless it is nested too deep, an assertion that is refused is refused at the first token that
cannot go on with those before it. -/
theorem complete_assertion_pinpoints (h : complete (assertion levels) text ls = .error e)
    (hdeep : e.cause ≠ .nestingTooDeep) :
    ∃ before after, ls = before ++ after ∧ e.Pinpoints text before after := by
  have hlocates := locates_assertion (F := fun _ => True) levels ls
  simp only [assertion_eq, complete, bind, Except.bind] at h
  generalize assertionWithin levels ls = r at h hlocates
  cases hlocates with
  | read taken hls hd hlast =>
    rename_i a rest
    cases rest with
    | nil => cases h
    | cons l rest =>
      -- a whole assertion has been read, and input is left
      cases h
      obtain ⟨d, hd⟩ := hd
      refine ⟨taken, l :: rest, hls, pinpoints_of_stuck rfl ⟨d, [], ?_⟩ ?_⟩
      · rw [hd, List.append_nil]
      · intro wanted found hcause
        cases hcause
  | stuck taken hls hposition hviable hfirst =>
    cases h
    exact ⟨taken, _, hls, pinpoints_of_stuck hposition hviable hfirst⟩
  | tooDeep hcause =>
    cases h
    exact absurd hcause hdeep

theorem complete_assertion_pinpoints_not :
    Viable [.name "Desk", .keyword .say, .name "X", .word "ok", .keyword .where, .keyword .not] ∧
    ¬ Viable [.name "Desk", .keyword .say, .name "X", .word "ok", .keyword .where, .keyword .not,
      .symbol .period] := by
  let ls : List Lexeme := [⟨.name "Desk", 0, 4⟩, ⟨.keyword .say, 5, 9⟩, ⟨.name "X", 10, 11⟩,
    ⟨.word "ok", 12, 14⟩, ⟨.keyword .where, 15, 20⟩, ⟨.keyword .not, 21, 24⟩,
    ⟨.symbol .period, 24, 25⟩]
  have htext : Lexeme.ofText "Desk says X ok where not." = .ok ls :=
    toOption_eq_some_iff.mp (by decide +kernel)
  have herror : complete (assertion 2) "Desk says X ok where not." ls =
      .error ⟨.expected .constraint (some (.symbol .period)), some 24⟩ := rfl
  obtain ⟨before, after, hls, hp⟩ := complete_assertion_pinpoints herror (by simp)
  have hbefore := hp.before_eq (hls ▸ htext)
  rw [← hls] at hbefore
  obtain rfl : before = _ := hbefore
  exact ⟨hp.viable, hp.not_viable _ _ rfl⟩

end Parser

end AuthLogic
