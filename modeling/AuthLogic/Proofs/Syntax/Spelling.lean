import AuthLogic.Syntax.Lexeme

/-! # Spelling

How tokens are written. The tokens that are cut from a text can be spelled, and a
spelling is cut into its token again, whatever follows it, unless the character
that follows goes on with the token.
-/

namespace AuthLogic

open Lexeme

namespace Token

def spelling : Token → String
  | keyword k => k.spelling
  | symbol s => s.spelling
  | int n => Text.writeInt n.toInt
  | str text => "\"" ++ text ++ "\""
  | name text => text
  | word text => text

/-- A letter of some class, and further letters. -/
def Run (first further : Char → Bool) (s : String) : Prop :=
  ∃ c cs, s.toList = c :: cs ∧ first c = true ∧ ∀ d ∈ cs, further d = true

/-- Tokens whose spelling stands for them. -/
def Lexable : Token → Prop
  | str text => '"' ∉ text.toList
  | name text => Run Char.isUpper isNameChar text
  | word text => Run Char.isLower isWordChar text ∧ Keyword.ofSpelling? text = none
  | _ => True

theorem lexable_keyword (k : Keyword) : (keyword k).Lexable := trivial

theorem lexable_symbol (s : Symbol) : (symbol s).Lexable := trivial

theorem lexable_int (n : Int64) : (int n).Lexable := trivial

end Token

namespace Lexeme

/-! ## Tokens of a text -/

theorem lexable_ofWord {s : String} (h : Token.Run Char.isLower isWordChar s) :
    (Token.ofWord s).Lexable := by
  unfold Token.ofWord
  cases hk : Keyword.ofSpelling? s with
  | some k => trivial
  | none => exact ⟨h, hk⟩

theorem run_ofList {first further : Char → Bool} {c : Char} (h : first c = true) (cs : List Char) :
    Token.Run first further (String.ofList (c :: cs.takeWhile further)) :=
  ⟨c, cs.takeWhile further, String.toList_ofList, h, fun d hd => by
    have := List.all_takeWhile (p := further) (l := cs)
    exact List.all_eq_true.mp this d hd⟩

theorem lexable_of_piece {c : Char} {cs : List Char} {t : Token} {n : Nat}
    (h : piece c cs = (.token t, n)) : t.Lexable := by
  unfold piece at h
  split at h
  · cases h
  split at h
  · cases h
  split at h
  case isTrue hl =>
    cases h
    exact lexable_ofWord (run_ofList hl cs)
  split at h
  case isTrue hu =>
    cases h
    exact run_ofList hu cs
  split at h
  · unfold number at h
    dsimp only at h
    split at h <;> cases h
    trivial
  split at h
  · dsimp only at h
    split at h
    · cases h
    · cases h
      intro hq
      rw [String.toList_ofList] at hq
      have := List.all_eq_true.mp (List.all_takeWhile (l := cs)) _ hq
      simp at this
  split at h
  · cases h
    trivial
  · cases h

/-- Induction on the lexemes of a text, with the gaps between them. -/
theorem ofChars_induct {motive : Nat → List Char → List Lexeme → Prop}
    (nil : ∀ offset, motive offset [] [])
    (gap : ∀ offset c cs ls, (piece c cs).1 = .gap →
      motive (offset + byteSize (c :: cs.take (piece c cs).2)) (cs.drop (piece c cs).2) ls →
      motive offset (c :: cs) ls)
    (token : ∀ offset c cs t ls, (piece c cs).1 = .token t →
      motive (offset + byteSize (c :: cs.take (piece c cs).2)) (cs.drop (piece c cs).2) ls →
      motive offset (c :: cs)
        (⟨t, offset, offset + byteSize (c :: cs.take (piece c cs).2)⟩ :: ls))
    {offset : Nat} {cs : List Char} {ls : List Lexeme} (h : ofChars offset cs = .ok ls) :
    motive offset cs ls := by
  fun_induction ofChars offset cs generalizing ls with
  | case1 =>
    cases h
    exact nil _
  | case2 offset c cs p text stop hp =>
    rename_i ih
    exact gap offset c cs ls hp (ih h)
  | case3 offset c cs p text stop t hp =>
    rename_i ih
    cases hrest : ofChars stop (cs.drop p.2) with
    | error e =>
      rw [hrest] at h
      cases h
    | ok rest =>
      rw [hrest] at h
      cases h
      exact token offset c cs t rest hp (ih hrest)
  | case4 => cases h

theorem lexable_of_ofChars {offset : Nat} {cs : List Char} {ls : List Lexeme}
    (h : ofChars offset cs = .ok ls) : ∀ l ∈ ls, l.token.Lexable := by
  refine ofChars_induct (motive := fun _ _ ls => ∀ l ∈ ls, l.token.Lexable)
    (fun _ => List.forall_mem_nil _) (fun _ _ _ _ _ ih => ih) (fun _ c cs t ls hp ih => ?_) h
  exact List.forall_mem_cons.mpr ⟨lexable_of_piece (Prod.ext hp rfl), ih⟩

/-! ## Cutting a spelling -/

/-- A text is cut into lexemes of the given tokens, wherever it starts. -/
def Lexes (cs : List Char) (ts : List Token) : Prop :=
  ∀ offset, ∃ ls, ofChars offset cs = .ok ls ∧ ls.map token = ts

theorem lexes_nil : Lexes [] [] := fun offset =>
  ⟨[], by rw [ofChars], rfl⟩

/-- A piece that is a gap, such as a comment. -/
theorem Lexes.skip {c : Char} {cs rest : List Char} {ts : List Token}
    (hp : piece c (cs ++ rest) = (.gap, cs.length)) (h : Lexes rest ts) :
    Lexes (c :: cs ++ rest) ts := by
  intro offset
  rw [List.cons_append, ofChars, hp]
  dsimp only
  rw [List.drop_left]
  exact h _

theorem Lexes.gap {c : Char} {cs : List Char} {ts : List Token} (hc : isGap c = true)
    (h : Lexes cs ts) : Lexes (c :: cs) ts := by
  have hp : piece c cs = (.gap, 0) := by rw [piece, if_pos hc]
  exact @Lexes.skip c [] cs ts hp h

theorem Lexes.token {c : Char} {cs rest : List Char} {t : Token} {ts : List Token}
    (hp : piece c (cs ++ rest) = (.token t, cs.length)) (h : Lexes rest ts) :
    Lexes (c :: cs ++ rest) (t :: ts) := by
  intro offset
  rw [List.cons_append, ofChars, hp]
  dsimp only
  rw [List.drop_left]
  obtain ⟨ls, hls, hts⟩ := h (offset + byteSize (c :: (cs ++ rest).take cs.length))
  rw [hls]
  exact ⟨_, rfl, congrArg _ hts⟩

/-- The next character does not go on with a token that stands before it. -/
def Closed (cs : List Char) : Prop :=
  ∀ c ∈ cs.head?, isWordChar c = false ∧ c ≠ '='

theorem takeWhile_append_closed {p : Char → Bool} (hp : ∀ c, p c = true → isWordChar c = true)
    {cs rest : List Char} (hcs : ∀ c ∈ cs, p c = true) (hrest : Closed rest) :
    (cs ++ rest).takeWhile p = cs := by
  rw [List.takeWhile_append_of_pos hcs]
  cases rest with
  | nil => rw [List.takeWhile_nil, List.append_nil]
  | cons d rest =>
    have hd : p d = false := by
      cases h : p d with
      | false => rfl
      | true =>
        have hw := (hrest d rfl).1
        rw [hp d h] at hw
        cases hw
    rw [List.takeWhile_cons, hd, if_neg Bool.false_ne_true, List.append_nil]

theorem not_isGap {c : Char} (h : isWordChar c = true) : isGap c = false := by
  simp only [isGap, Bool.or_eq_false_iff, decide_eq_false_iff_not]
  refine ⟨⟨⟨⟨?_, ?_⟩, ?_⟩, ?_⟩, ?_⟩ <;> rintro rfl <;> exact absurd h (by decide)

theorem isWordChar_of_isNameChar {c : Char} (h : isNameChar c = true) : isWordChar c = true := by
  rw [isWordChar, h, Bool.true_or]

section CharacterClasses

variable {c : Char}

theorem isNameChar_of_isAlphanum (h : c.isAlphanum = true) : isNameChar c = true := by
  rw [isNameChar, h, Bool.true_or]

theorem isNameChar_of_isLower (h : c.isLower = true) : isNameChar c = true := by
  refine isNameChar_of_isAlphanum ?_
  change (c.isUpper || c.isLower || c.isDigit) = true
  rw [h, Bool.or_true, Bool.true_or]

theorem isNameChar_of_isUpper (h : c.isUpper = true) : isNameChar c = true := by
  refine isNameChar_of_isAlphanum ?_
  change (c.isUpper || c.isLower || c.isDigit) = true
  rw [h, Bool.true_or, Bool.true_or]

theorem isNameChar_of_isDigit (h : c.isDigit = true) : isNameChar c = true := by
  refine isNameChar_of_isAlphanum ?_
  change (c.isUpper || c.isLower || c.isDigit) = true
  rw [h, Bool.or_true]

theorem le_of_isUpper (h : c.isUpper = true) : 'A'.val ≤ c.val ∧ c.val ≤ 'Z'.val :=
  of_decide_eq_true h

theorem le_of_isLower (h : c.isLower = true) : 'a'.val ≤ c.val := by
  change (decide ('a'.val ≤ c.val) && decide (c.val ≤ 'z'.val)) = true at h
  rw [Bool.and_eq_true] at h
  exact of_decide_eq_true h.1

theorem le_of_isDigit (h : c.isDigit = true) : c.val ≤ '9'.val := by
  change (decide ('0'.val ≤ c.val) && decide (c.val ≤ '9'.val)) = true at h
  rw [Bool.and_eq_true] at h
  exact of_decide_eq_true h.2

theorem isLower_of_isUpper (h : c.isUpper = true) : c.isLower = false :=
  Bool.eq_false_iff.mpr fun hl =>
    absurd (UInt32.le_trans (le_of_isLower hl) (le_of_isUpper h).2) (by decide)

theorem isLower_of_isDigit (h : c.isDigit = true) : c.isLower = false :=
  Bool.eq_false_iff.mpr fun hl =>
    absurd (UInt32.le_trans (le_of_isLower hl) (le_of_isDigit h)) (by decide)

theorem isUpper_of_isDigit (h : c.isDigit = true) : c.isUpper = false :=
  Bool.eq_false_iff.mpr fun hu =>
    absurd (UInt32.le_trans (le_of_isUpper hu).1 (le_of_isDigit h)) (by decide)

end CharacterClasses

section Piece

variable {c : Char} {cs rest : List Char}

theorem piece_word (hc : c.isLower = true) (hcs : ∀ d ∈ cs, isWordChar d = true)
    (hrest : Closed rest) :
    piece c (cs ++ rest) = (.token (Token.ofWord (String.ofList (c :: cs))), cs.length) := by
  have hg := not_isGap (isWordChar_of_isNameChar (isNameChar_of_isLower hc))
  have hs : c ≠ '/' := by
    rintro rfl
    exact absurd hc (by decide)
  rw [piece, hg, if_neg Bool.false_ne_true, if_neg fun h => hs h.1, if_pos hc]
  simp only [takeWhile_append_closed (fun _ h => h) hcs hrest]

theorem piece_name (hc : c.isUpper = true) (hcs : ∀ d ∈ cs, isNameChar d = true)
    (hrest : Closed rest) :
    piece c (cs ++ rest) = (.token (.name (String.ofList (c :: cs))), cs.length) := by
  have hg := not_isGap (isWordChar_of_isNameChar (isNameChar_of_isUpper hc))
  have hs : c ≠ '/' := by
    rintro rfl
    exact absurd hc (by decide)
  have hl := isLower_of_isUpper hc
  rw [piece, hg, if_neg Bool.false_ne_true, if_neg fun h => hs h.1, hl, if_neg Bool.false_ne_true,
    if_pos hc]
  simp only [takeWhile_append_closed (fun _ => isWordChar_of_isNameChar) hcs hrest]

theorem piece_int {n : Int64} (hn : Text.readInt64? (c :: cs) = some n)
    (hc : c.isDigit = true ∨ c = '-' ∧ cs.head?.any Char.isDigit = true)
    (hcs : ∀ d ∈ cs, d.isDigit = true) (hrest : Closed rest) :
    piece c (cs ++ rest) = (.token (.int n), cs.length) := by
  have hw : isWordChar c = true := by
    rcases hc with hc | ⟨rfl, -⟩
    · exact isWordChar_of_isNameChar (isNameChar_of_isDigit hc)
    · decide
  have hs : c ≠ '/' := by
    rintro rfl
    exact absurd hw (by decide)
  have hl : c.isLower = false := by
    rcases hc with hc | ⟨rfl, -⟩
    · exact isLower_of_isDigit hc
    · decide
  have hu : c.isUpper = false := by
    rcases hc with hc | ⟨rfl, -⟩
    · exact isUpper_of_isDigit hc
    · decide
  have hc : c.isDigit = true ∨ c = '-' ∧ (cs ++ rest).head?.any Char.isDigit = true := by
    refine hc.imp id fun h => ⟨h.1, ?_⟩
    cases cs with
    | nil => exact absurd h.2 (by simp)
    | cons d cs => exact h.2
  have hdigits : (cs ++ rest).takeWhile Char.isDigit = cs :=
    takeWhile_append_closed (fun _ h => isWordChar_of_isNameChar (isNameChar_of_isDigit h)) hcs
      hrest
  rw [piece, not_isGap hw, if_neg Bool.false_ne_true, if_neg fun h => hs h.1, hl,
    if_neg Bool.false_ne_true, hu, if_neg Bool.false_ne_true, if_pos hc]
  simp only [number, hn, hdigits]

theorem piece_str (rest : List Char) (hcs : '"' ∉ cs) :
    piece '"' (cs ++ ['"'] ++ rest) = (.token (.str (String.ofList cs)), (cs ++ ['"']).length) := by
  have hbody : (cs ++ ['"'] ++ rest).takeWhile (fun d => decide (d ≠ '"')) = cs := by
    rw [List.append_assoc, List.takeWhile_append_of_pos fun d hd => ?_]
    · simp
    · simp only [ne_eq, decide_not, Bool.not_eq_true', decide_eq_false_iff_not]
      rintro rfl
      exact hcs hd
  have hdrop : ((cs ++ ['"'] ++ rest).drop cs.length).isEmpty = false := by simp
  have h₁ : isGap '"' = false := by decide
  have h₂ : Char.isLower '"' = false := by decide
  have h₃ : Char.isUpper '"' = false := by decide
  have h₄ : ¬ (Char.isDigit '"' = true ∨ '"' = '-' ∧
      (cs ++ ['"'] ++ rest).head?.any Char.isDigit = true) := by simp
  rw [piece, h₁, if_neg Bool.false_ne_true, if_neg (by simp), h₂, if_neg Bool.false_ne_true, h₃,
    if_neg Bool.false_ne_true, if_neg h₄, if_pos rfl]
  simp only [hbody, hdrop, if_neg Bool.false_ne_true, List.length_append, List.length_singleton]

theorem piece_symbol {s : Symbol} (hs : s.spelling.toList = c :: cs)
    (hrest : s = .lparen ∨ rest.head? ≠ some '=') :
    piece c (cs ++ rest) = (.token (.symbol s), cs.length) := by
  cases s with
  | less | greater =>
    simp only [reduceCtorEq, false_or] at hrest
    simp [Symbol.spelling] at hs
    obtain ⟨rfl, rfl⟩ := hs
    simp [piece, isGap, symbol?]
  | _ =>
    simp [Symbol.spelling] at hs
    obtain ⟨rfl, rfl⟩ := hs
    simp [piece, isGap, symbol?]

end Piece

theorem toList_repr (n : Nat) :
    ∃ c cs, n.repr.toList = c :: cs ∧ c.isDigit = true ∧ ∀ d ∈ cs, d.isDigit = true := by
  have hd : ∀ d ∈ n.repr.toList, d.isDigit = true := by
    rw [Nat.repr_eq_ofList_toDigits, String.toList_ofList]
    exact fun d => Nat.isDigit_of_mem_toDigits (by decide) (by decide)
  have hne : n.repr.toList ≠ [] := by
    rw [Nat.repr_eq_ofList_toDigits, String.toList_ofList]
    exact Nat.toDigits_ne_nil
  cases h : n.repr.toList with
  | nil => exact absurd h hne
  | cons c cs =>
    rw [h] at hd
    exact ⟨c, cs, rfl, hd c List.mem_cons_self, fun d h => hd d (List.mem_cons_of_mem c h)⟩

theorem toList_writeInt (n : Int) :
    ∃ c cs, (Text.writeInt n).toList = c :: cs ∧
      (c.isDigit = true ∨ c = '-' ∧ cs.head?.any Char.isDigit = true) ∧
      ∀ d ∈ cs, d.isDigit = true := by
  cases n with
  | ofNat n =>
    obtain ⟨c, cs, h, hc, hcs⟩ := toList_repr n
    exact ⟨c, cs, h, .inl hc, hcs⟩
  | negSucc n =>
    obtain ⟨c, cs, h, hc, hcs⟩ := toList_repr (n + 1)
    refine ⟨'-', c :: cs, ?_, .inr ⟨rfl, hc⟩, List.forall_mem_cons.mpr ⟨hc, hcs⟩⟩
    rw [Text.writeInt, String.toList_append, h]
    rfl

theorem readInt64?_writeInt (n : Int64) :
    Text.readInt64? (Text.writeInt n.toInt).toList = some n := by
  rw [Text.readInt64?, Text.readInt?_writeInt, Option.bind_some, Text.toInt64?_toInt]

/-- A token is cut off whatever follows it, except what goes on with it. -/
theorem lexes_spelling {t : Token} {rest : List Char} {ts : List Token} (ht : t.Lexable)
    (hrest : Closed rest) (h : Lexes rest ts) : Lexes (t.spelling.toList ++ rest) (t :: ts) := by
  cases t with
  | keyword k =>
    have hk : Token.Run Char.isLower isWordChar k.spelling := by
      cases k <;> exact ⟨_, _, rfl, by decide, List.all_eq_true.mp (by decide)⟩
    obtain ⟨c, cs, hs, hc, hcs⟩ := hk
    have hp := piece_word hc hcs hrest
    rw [← hs, String.ofList_toList, Token.ofWord, Keyword.ofSpelling?_spelling] at hp
    rw [Token.spelling, hs]
    exact h.token hp
  | symbol s =>
    obtain ⟨c, cs, hs⟩ : ∃ c cs, s.spelling.toList = c :: cs := by
      cases s <;> exact ⟨_, _, rfl⟩
    have hr : rest.head? ≠ some '=' := fun hr => (hrest '=' hr).2 rfl
    rw [Token.spelling, hs]
    exact h.token (piece_symbol hs (.inr hr))
  | int n =>
    obtain ⟨c, cs, hs, hc, hcs⟩ := toList_writeInt n.toInt
    have hn := readInt64?_writeInt n
    rw [hs] at hn
    rw [Token.spelling, hs]
    exact h.token (piece_int hn hc hcs hrest)
  | str text =>
    have hs : (Token.str text).spelling.toList = '"' :: (text.toList ++ ['"']) := by
      simp [Token.spelling]
    have hp := piece_str rest ht
    rw [String.ofList_toList] at hp
    rw [hs]
    exact h.token hp
  | name text =>
    obtain ⟨c, cs, hs, hc, hcs⟩ := ht
    have hp := piece_name hc hcs hrest
    rw [← hs, String.ofList_toList] at hp
    rw [Token.spelling, hs]
    exact h.token hp
  | word text =>
    obtain ⟨⟨c, cs, hs, hc, hcs⟩, hk⟩ := ht
    have hp := piece_word hc hcs hrest
    rw [← hs, String.ofList_toList, Token.ofWord, hk] at hp
    rw [Token.spelling, hs]
    exact h.token hp

/-! ## Texts in front of others -/

/-- A text is cut into tokens wherever it stands, if what follows does not go on with it. -/
def Spells (cs : List Char) (ts : List Token) : Prop :=
  ∀ rest ts', Closed rest → Lexes rest ts' → Lexes (cs ++ rest) (ts ++ ts')

theorem closed_cons_iff {c : Char} {cs : List Char} :
    Closed (c :: cs) ↔ isWordChar c = false ∧ c ≠ '=' := by
  simp [Closed]

theorem Closed.append {cs rest : List Char} (h : Closed cs) (hrest : Closed rest) :
    Closed (cs ++ rest) := by
  cases cs with
  | nil => exact hrest
  | cons c cs => exact closed_cons_iff.mpr (closed_cons_iff.mp h)

namespace Spells

variable {cs ds : List Char} {ts us : List Token}

theorem empty : Spells [] [] := fun _ _ _ h => h

theorem token (t : Token) (ht : t.Lexable) : Spells t.spelling.toList [t] :=
  fun _ _ hrest h => lexes_spelling ht hrest h

theorem gap (h : Spells cs ts) : Spells (' ' :: cs) ts := fun rest ts' hrest hts' =>
  (h rest ts' hrest hts').gap (by decide)

/-- Nothing goes on with an opening parenthesis. -/
theorem opened (h : Spells cs ts) : Spells ('(' :: cs) (.symbol .lparen :: ts) := by
  intro rest ts' hrest hts'
  have hp : piece '(' ([] ++ (cs ++ rest)) = (.token (.symbol .lparen), [].length) :=
    piece_symbol rfl (.inl rfl)
  exact @Lexes.token '(' [] (cs ++ rest) _ _ hp (h rest ts' hrest hts')

theorem append (h : Spells cs ts) (hds : Closed ds) (h' : Spells ds us) :
    Spells (cs ++ ds) (ts ++ us) := by
  intro rest ts' hrest hts'
  rw [List.append_assoc, List.append_assoc]
  exact h _ _ (hds.append hrest) (h' rest ts' hrest hts')

/-- A gap keeps two texts apart. -/
theorem spaced (h : Spells cs ts) (h' : Spells ds us) : Spells (cs ++ ' ' :: ds) (ts ++ us) :=
  h.append (closed_cons_iff.mpr (by decide)) h'.gap

/-- A token that is set off by a gap. -/
theorem led {s : String} {t : Token} (ht : t.Lexable) (hs : s.toList = t.spelling.toList ++ [' '])
    (h : Spells cs ts) : Spells (s.toList ++ cs) (t :: ts) := by
  have h := (token t ht).spaced h
  rw [hs, List.append_assoc]
  exact h

/-- A token with a gap on both sides. -/
theorem joined {s : String} {t : Token} (h : Spells cs ts) (ht : t.Lexable)
    (hs : s.toList = ' ' :: (t.spelling.toList ++ [' '])) (h' : Spells ds us) :
    Spells (cs ++ (s.toList ++ ds)) (ts ++ t :: us) := by
  have h := h.spaced ((token t ht).spaced h')
  rw [hs, List.cons_append, List.append_assoc]
  exact h

theorem exists_ofText {s : String} (h : Spells s.toList ts) :
    ∃ ls, ofText s = .ok ls ∧ ls.map Lexeme.token = ts := by
  have hc : Closed [] := fun c hc => absurd hc (by simp)
  obtain ⟨ls, hls, hts⟩ := h [] [] hc lexes_nil 0
  rw [List.append_nil] at hls hts
  exact ⟨ls, hls, hts⟩

end Spells

/-- The tokens with a blank in front of each are a text. -/
theorem exists_ofText_tokens {ts : List Token} (h : ∀ t ∈ ts, t.Lexable) :
    ∃ text ls, ofText text = .ok ls ∧ ls.map Lexeme.token = ts := by
  have hspells : Spells (ts.flatMap fun t => ' ' :: t.spelling.toList) ts := by
    induction ts with
    | nil => exact .empty
    | cons t ts ih =>
      obtain ⟨ht, hts⟩ := List.forall_mem_cons.mp h
      refine (Spells.token t ht).gap.append ?_ (ih hts)
      cases ts with
      | nil => exact fun c hc => by cases hc
      | cons u us => exact closed_cons_iff.mpr (by decide)
  rw [← String.toList_ofList (l := ts.flatMap _)] at hspells
  obtain ⟨ls, hls, htokens⟩ := hspells.exists_ofText
  exact ⟨_, ls, hls, htokens⟩

end Lexeme

end AuthLogic
