import AuthLogic.Proofs.Syntax.Spelling

/-! # Seams

Where a text can be followed by another one. A text that can be cut ends with a
whole piece, whatever it is: at a line break, nothing that follows is taken into
that piece.
-/

namespace AuthLogic.Lexeme

variable {c : Char} {cs tail : List Char}

/-- What stands behind a text changes none of its pieces. -/
def Seam (tail : List Char) : Prop :=
  ∀ c cs, (piece c cs).1 ≠ .unknown → piece c (cs ++ tail) = piece c cs

theorem seam_nil : Seam [] := fun c cs _ => by rw [List.append_nil]

/-! ## Pieces -/

theorem takeWhile_append_of_stop {p : Char → Bool} (hp : p c = false) (cs tail : List Char) :
    (cs ++ c :: tail).takeWhile p = cs.takeWhile p := by
  induction cs with
  | nil => rw [List.nil_append, List.takeWhile_cons, hp, if_neg Bool.false_ne_true,
      List.takeWhile_nil]
  | cons d cs ih => rw [List.cons_append, List.takeWhile_cons, List.takeWhile_cons, ih]

theorem symbol?_newline (c : Char) : symbol? c (some '\n') = symbol? c none := by
  unfold symbol?
  split <;> simp_all

/-- A string ends where its quotation mark stands. -/
theorem exists_of_piece_quote (h : (piece '"' cs).1 ≠ .unknown) :
    ∃ body rest, '"' ∉ body ∧ cs = body ++ ['"'] ++ rest := by
  by_cases hq : '"' ∈ cs
  · obtain ⟨body, rest, rfl, hbody⟩ := List.eq_append_cons_of_mem hq
    exact ⟨body, rest, hbody, by rw [List.append_assoc, List.singleton_append]⟩
  · have hall : ∀ d ∈ cs, (!decide (d = '"')) = true := by
      intro d hd
      simpa using fun hd' : d = '"' => hq (hd' ▸ hd)
    have hbody : (cs ++ []).takeWhile (fun d => !decide (d = '"')) = cs ++ [] :=
      List.takeWhile_append_of_pos hall
    rw [List.append_nil] at hbody
    exact absurd (by simp [piece, isGap, hbody]) h

theorem seam_newline (ds : List Char) : Seam ('\n' :: ds) := by
  intro c cs h
  by_cases hc : c = '"'
  · -- a string may have line breaks in it, but this one has its end
    subst hc
    obtain ⟨body, rest, hbody, rfl⟩ := exists_of_piece_quote h
    rw [List.append_assoc (body ++ _), piece_str _ hbody, piece_str _ hbody]
  -- all that other pieces look at stops at a line break
  have hslash : (cs ++ '\n' :: ds).head? = some '/' ↔ cs.head? = some '/' := by
    cases cs <;> simp
  have hdigit : (cs ++ '\n' :: ds).head?.any Char.isDigit = cs.head?.any Char.isDigit := by
    cases cs <;> rfl
  have hsymbol : symbol? c (cs ++ '\n' :: ds).head? = symbol? c cs.head? := by
    cases cs with
    | nil => exact symbol?_newline c
    | cons e cs => rfl
  have hcomment := takeWhile_append_of_stop (c := '\n') (p := fun d => decide (d ≠ '\n')) rfl cs ds
  have hword := takeWhile_append_of_stop (c := '\n') (p := isWordChar) rfl cs ds
  have hname := takeWhile_append_of_stop (c := '\n') (p := isNameChar) rfl cs ds
  have hnumber := takeWhile_append_of_stop (c := '\n') (p := Char.isDigit) rfl cs ds
  simp only [piece, hslash, hdigit, hsymbol, hcomment, hword, hname, hnumber, hc, if_false]

theorem symbol?_le {next? : Option Char} {s : Symbol} {n : Nat}
    (h : symbol? c next? = some (s, n)) : n ≤ next?.toList.length := by
  unfold symbol? at h
  split at h <;> cases h <;> simp

/-- A piece is part of the text. -/
theorem piece_le (h : (piece c cs).1 ≠ .unknown) : (piece c cs).2 ≤ cs.length := by
  by_cases hc : c = '"'
  · subst hc
    obtain ⟨body, rest, hbody, rfl⟩ := exists_of_piece_quote h
    rw [piece_str rest hbody]
    exact (List.sublist_append_left _ rest).length_le
  have hwhile (p : Char → Bool) : (cs.takeWhile p).length ≤ cs.length :=
    (List.takeWhile_sublist p).length_le
  unfold piece
  split
  · exact Nat.zero_le _
  split
  · exact hwhile _
  split
  · exact hwhile _
  split
  · exact hwhile _
  split
  · exact hwhile _
  split
  case h_1 s n hs =>
    have hn := symbol?_le hs
    cases cs with
    | nil => exact hn
    | cons d cs => exact Nat.le_trans hn (Nat.succ_le_succ (Nat.zero_le _))
  case h_2 => exact Nat.zero_le _

/-- A piece in front of a seam, with the characters that it takes split off. -/
theorem Seam.piece_eq (htail : Seam tail) {p : Piece} (hp : (piece c cs).1 = p)
    (hne : p ≠ .unknown) :
    piece c (cs.take (piece c cs).2 ++ (cs.drop (piece c cs).2 ++ tail)) =
      (p, (cs.take (piece c cs).2).length) := by
  subst hp
  rw [← List.append_assoc, List.take_append_drop, htail c cs hne,
    List.length_take_of_le (piece_le hne)]

/-! ## Texts -/

/-- A text that can be cut is cut the same way in front of a seam, and so is what follows. -/
theorem lexes_append {offset : Nat} {ls : List Lexeme} {ts : List Token}
    (h : ofChars offset cs = .ok ls) (htail : Seam tail) (hts : Lexes tail ts) :
    Lexes (cs ++ tail) (ls.map Lexeme.token ++ ts) := by
  have hsplit (c : Char) (cs : List Char) (n : Nat) :
      c :: cs ++ tail = c :: cs.take n ++ (cs.drop n ++ tail) := by
    rw [List.cons_append, List.cons_append, ← List.append_assoc, List.take_append_drop]
  refine ofChars_induct (motive := fun _ cs ls => Lexes (cs ++ tail) (ls.map Lexeme.token ++ ts))
    (fun _ => hts) (fun _ c cs ls hp ih => ?_) (fun _ c cs t ls hp ih => ?_) h
  · rw [hsplit c cs (piece c cs).2]
    exact Lexes.skip (htail.piece_eq hp (by simp)) ih
  · rw [hsplit c cs (piece c cs).2]
    exact Lexes.token (htail.piece_eq hp (by simp)) ih

theorem lexes_of_ofChars {offset : Nat} {ls : List Lexeme} (h : ofChars offset cs = .ok ls) :
    Lexes cs (ls.map Lexeme.token) := by
  have hlexes := lexes_append h seam_nil lexes_nil
  rwa [List.append_nil, List.append_nil] at hlexes

/-- The lexemes of two texts, one line after the other. -/
theorem ofText_concat {t u : String} {ls ls' : List Lexeme} (ht : ofText t = .ok ls)
    (hu : ofText u = .ok ls') :
    ∃ ls'', ofText (t ++ "\n" ++ u) = .ok ls'' ∧
      ls''.map token = ls.map token ++ ls'.map token := by
  have hnewline : Lexes ('\n' :: u.toList) (ls'.map Lexeme.token) :=
    (lexes_of_ofChars hu).gap (by decide)
  have htext : (t ++ "\n" ++ u).toList = t.toList ++ '\n' :: u.toList := by
    rw [String.toList_append, String.toList_append, List.append_assoc]
    rfl
  rw [ofText, htext]
  exact lexes_append ht (seam_newline _) hnewline 0

end AuthLogic.Lexeme
