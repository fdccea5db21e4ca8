import AuthLogic.Proofs.Syntax.Seams
import Mathlib.Data.String.Basic

/-! # Tiling

The lexemes of a text stand in it one after the other, with white space and
comments between them, and each is what its own part of the text is cut into. A
piece looks only at what it takes, so a text can be cut on its own up to any
place where a piece ends.
-/

namespace AuthLogic.Lexeme

variable {c : Char} {cs ds es after : List Char} {offset : Nat} {ls : List Lexeme}

/-! ## Pieces -/

theorem takeWhile_of_append {p : Char → Bool} (h : ((ds ++ es).takeWhile p).length ≤ ds.length) :
    ds.takeWhile p = (ds ++ es).takeWhile p := by
  rw [List.takeWhile_append] at h ⊢
  split
  case isTrue hds =>
    rw [if_pos hds, List.length_append] at h
    have hes : es.takeWhile p = [] := List.eq_nil_of_length_eq_zero (by omega)
    rw [hes, List.append_nil]
    exact (List.takeWhile_prefix p).eq_of_length hds
  case isFalse => rfl

theorem head?_of_append {p : Char → Bool} {d : Char} (hd : (ds ++ es).head? = some d)
    (hp : p d = true) (h : ((ds ++ es).takeWhile p).length ≤ ds.length) : ds.head? = some d := by
  cases ds with
  | nil =>
    cases es with
    | nil => cases hd
    | cons e es =>
      cases hd
      rw [List.nil_append, List.takeWhile_cons, if_pos hp] at h
      cases h
  | cons e ds => exact hd

theorem symbol?_of_append {s : Symbol} {n : Nat} (h : symbol? c (ds ++ es).head? = some (s, n))
    (hle : n ≤ ds.length) : symbol? c ds.head? = some (s, n) := by
  cases ds with
  | nil =>
    obtain rfl := Nat.le_zero.mp hle
    unfold symbol? at h
    split at h <;> cases h <;> rfl
  | cons d ds => exact h

/-- What a piece does not take may be missing. -/
theorem piece_of_append (h : (piece c (ds ++ es)).1 ≠ .unknown)
    (hle : (piece c (ds ++ es)).2 ≤ ds.length) : piece c ds = piece c (ds ++ es) := by
  by_cases hquote : c = '"'
  · -- the closing quotation mark is among what is left
    subst hquote
    obtain ⟨body, rest, hbody, heq⟩ := exists_of_piece_quote h
    rw [heq, piece_str rest hbody] at hle
    have hprefix : body ++ ['"'] <+: ds ++ es := heq ▸ List.prefix_append ..
    obtain ⟨rest', rfl⟩ := List.prefix_of_prefix_length_le hprefix (List.prefix_append ds es) hle
    rw [heq, piece_str rest hbody, piece_str rest' hbody]
  have hhead {d : Char} (hd : ds.head? = some d) : (ds ++ es).head? = some d := by
    rw [List.head?_append, hd, Option.some_or]
  -- the same test decides in both texts: the next character is looked at only where it is taken
  unfold piece at h hle ⊢
  by_cases hgap : isGap c = true
  · rw [if_pos hgap, if_pos hgap]
  rw [if_neg hgap] at h hle ⊢
  rw [if_neg hgap]
  by_cases hslash : c = '/' ∧ (ds ++ es).head? = some '/'
  · rw [if_pos hslash] at hle ⊢
    rw [if_pos ⟨hslash.1, head?_of_append hslash.2 rfl hle⟩, takeWhile_of_append hle]
  rw [if_neg hslash] at h hle ⊢
  rw [if_neg fun hd => hslash ⟨hd.1, hhead hd.2⟩]
  by_cases hlower : c.isLower = true
  · rw [if_pos hlower] at hle ⊢
    rw [if_pos hlower, takeWhile_of_append hle]
  rw [if_neg hlower] at h hle ⊢
  rw [if_neg hlower]
  by_cases hupper : c.isUpper = true
  · rw [if_pos hupper] at hle ⊢
    rw [if_pos hupper, takeWhile_of_append hle]
  rw [if_neg hupper] at h hle ⊢
  rw [if_neg hupper]
  by_cases hnumber : c.isDigit = true ∨ c = '-' ∧ (ds ++ es).head?.any Char.isDigit = true
  · rw [if_pos hnumber] at hle ⊢
    have hnumber : c.isDigit = true ∨ c = '-' ∧ ds.head?.any Char.isDigit = true := by
      refine hnumber.imp_right fun ⟨hc, hany⟩ => ⟨hc, ?_⟩
      obtain ⟨d, hd, hdigit⟩ := (Option.any_eq_true _ _).mp hany
      rw [head?_of_append hd hdigit hle]
      exact hdigit
    rw [if_pos hnumber, takeWhile_of_append hle]
  rw [if_neg hnumber, if_neg hquote] at h hle ⊢
  have hnumber : ¬ (c.isDigit = true ∨ c = '-' ∧ ds.head?.any Char.isDigit = true) := by
    refine mt (Or.imp_right fun ⟨hc, hany⟩ => ⟨hc, ?_⟩) hnumber
    obtain ⟨d, hd, hdigit⟩ := (Option.any_eq_true _ _).mp hany
    rw [hhead hd]
    exact hdigit
  rw [if_neg hnumber, if_neg hquote]
  split at h
  case h_1 s n hs =>
    rw [hs] at hle
    rw [symbol?_of_append hs hle]
  case h_2 => exact absurd rfl h

/-- A piece, in front of the first characters of what it leaves. -/
theorem piece_take_append {p : Piece} (hp : (piece c cs).1 = p) (hne : p ≠ .unknown)
    (hdrop : cs.drop (piece c cs).2 = ds ++ es) :
    piece c (cs.take (piece c cs).2 ++ ds) = (p, (cs.take (piece c cs).2).length) := by
  subst hp
  have hlen := List.length_take_of_le (piece_le hne)
  have hcs : cs = cs.take (piece c cs).2 ++ ds ++ es := by
    rw [List.append_assoc, ← hdrop, List.take_append_drop]
  have hpiece : piece c (cs.take (piece c cs).2 ++ ds ++ es) = piece c cs := by rw [← hcs]
  have hle : (piece c (cs.take (piece c cs).2 ++ ds ++ es)).2 ≤
      (cs.take (piece c cs).2 ++ ds).length := by
    rw [hpiece, List.length_append, hlen]
    exact Nat.le_add_right ..
  rw [piece_of_append (by rwa [hpiece]) hle, hpiece, hlen]

/-- A gap is a blank character, or a comment up to the end of its line. -/
theorem exists_of_piece_gap (h : (piece c cs).1 = .gap) :
    isGap c = true ∧ (piece c cs).2 = 0 ∨
      ∃ body rest, c = '/' ∧ cs = '/' :: body ++ rest ∧ '\n' ∉ body ∧
        (∀ d ∈ rest.head?, d = '\n') ∧ (piece c cs).2 = ('/' :: body).length := by
  unfold piece at h ⊢
  split at h
  case isTrue hgap => exact .inl ⟨hgap, by rw [if_pos hgap]⟩
  rename_i hgap
  split at h
  case isTrue hslash =>
    obtain ⟨rfl, hhead⟩ := hslash
    obtain ⟨es, rfl⟩ := List.head?_eq_some_iff.mp hhead
    refine .inr ⟨es.takeWhile (· ≠ '\n'), es.dropWhile (· ≠ '\n'), rfl, ?_, ?_, ?_, rfl⟩
    · rw [List.cons_append, List.takeWhile_append_dropWhile]
    · intro hmem
      simpa using List.all_eq_true.mp List.all_takeWhile _ hmem
    · intro d hd
      have := List.head?_dropWhile_not (· ≠ '\n') es
      rw [Option.mem_def.mp hd] at this
      simpa using this
  split at h
  · cases h
  split at h
  · cases h
  split at h
  · unfold number at h
    dsimp only at h
    split at h <;> cases h
  split at h
  · dsimp only at h
    split at h <;> cases h
  split at h <;> cases h

/-! ## Gaps -/

/-- White space and comments, in front of what stands `after` them. A comment takes up the rest of
its line. -/
inductive Skipped (after : List Char) : List Char → Prop
  | nil : Skipped after []
  | space {d : Char} {ds : List Char} : d ∈ [' ', '\t', '\r', '\n', '\x0c'] →
      Skipped after ds → Skipped after (d :: ds)
  | comment {body ds : List Char} : '\n' ∉ body → (∀ d ∈ (ds ++ after).head?, d = '\n') →
      Skipped after ds → Skipped after ('/' :: '/' :: body ++ ds)

theorem mem_of_isGap (h : isGap c = true) : c ∈ [' ', '\t', '\r', '\n', '\x0c'] := by
  simpa [isGap, or_assoc] using h

/-- A piece that is a gap, in front of more of it. -/
theorem Skipped.of_piece (hp : (piece c cs).1 = .gap)
    (hdrop : cs.drop (piece c cs).2 = ds ++ after) (h : Skipped after ds) :
    Skipped after (c :: cs.take (piece c cs).2 ++ ds) := by
  obtain ⟨hgap, hn⟩ | ⟨body, rest, rfl, rfl, hbody, hrest, hn⟩ := exists_of_piece_gap hp
  · rw [hn, List.take_zero]
    exact .space (mem_of_isGap hgap) h
  · rw [hn, List.drop_left] at hdrop
    rw [hn, List.take_left]
    exact .comment hbody (hdrop ▸ hrest) h

/-! ## Texts -/

/-- Characters that are one token, wherever they start. -/
def Alone (cs : List Char) (t : Token) : Prop :=
  ∀ offset, ofChars offset cs = .ok [⟨t, offset, offset + byteSize cs⟩]

theorem alone_of_piece {t : Token} (h : (piece c cs).1 = .token t) :
    Alone (c :: cs.take (piece c cs).2) t := by
  intro offset
  have hpiece := piece_take_append h (by simp) (List.nil_append _).symm
  rw [List.append_nil] at hpiece
  rw [ofChars, hpiece]
  dsimp only
  rw [List.take_length, List.drop_length, ofChars]
  rfl

/-- Lexemes in a text that starts at an offset. -/
inductive Tiled : Nat → List Char → List Lexeme → Prop
  | nil {offset : Nat} {gap : List Char} : Skipped [] gap → Tiled offset gap []
  | cons {offset start stop : Nat} {gap part rest : List Char} {t : Token} {ls : List Lexeme} :
      Skipped (part ++ rest) gap → start = offset + byteSize gap →
      part ≠ [] → Alone part t → stop = start + byteSize part → Tiled stop rest ls →
      Tiled offset (gap ++ (part ++ rest)) (⟨t, start, stop⟩ :: ls)

theorem byteSize_eq (cs : List Char) : byteSize cs = String.utf8Len cs := by
  induction cs with
  | nil => rfl
  | cons c cs ih => rw [byteSize, String.utf8Len_cons, ih, Nat.add_comm]

theorem byteSize_append (cs ds : List Char) : byteSize (cs ++ ds) = byteSize cs + byteSize ds := by
  simp only [byteSize_eq, String.utf8Len_append]

theorem byteSize_pos (h : cs ≠ []) : 0 < byteSize cs := by
  cases cs with
  | nil => exact absurd rfl h
  | cons c cs => exact Nat.add_pos_left c.utf8Size_pos _

/-- A gap in front of tiled lexemes. -/
theorem Tiled.skip (hp : (piece c cs).1 = .gap)
    (h : Tiled (offset + byteSize (c :: cs.take (piece c cs).2)) (cs.drop (piece c cs).2) ls) :
    Tiled offset (c :: cs) ls := by
  have hcs : c :: cs = c :: cs.take (piece c cs).2 ++ cs.drop (piece c cs).2 := by
    rw [List.cons_append, List.take_append_drop]
  rw [hcs]
  generalize hdrop : cs.drop (piece c cs).2 = rest at h
  cases h with
  | nil hgap => exact .nil (.of_piece hp (by rw [hdrop, List.append_nil]) hgap)
  | cons hgap hstart hne halone hstop hrest =>
    rw [← List.append_assoc]
    refine .cons (.of_piece hp hdrop hgap) ?_ hne halone hstop hrest
    rw [hstart, byteSize_append, Nat.add_assoc]

theorem tiled_of_ofChars (h : ofChars offset cs = .ok ls) : Tiled offset cs ls := by
  refine ofChars_induct (motive := Tiled) (fun _ => .nil .nil) (fun _ _ _ _ hp ih => .skip hp ih)
    (fun _ c cs t ls hp ih => ?_) h
  have htiled := Tiled.cons .nil rfl (List.cons_ne_nil _ _) (alone_of_piece hp) rfl ih
  rwa [List.nil_append, List.cons_append, List.take_append_drop] at htiled

/-! ## Places -/

/-- Characters between two positions in a text that starts at an offset, and those around them. -/
structure Excerpt (offset : Nat) (cs : List Char) (start stop : Nat)
    (before part after : List Char) : Prop where
  eq : cs = before ++ part ++ after
  start_eq : start = offset + byteSize before
  stop_eq : stop = start + byteSize part

variable {start stop : Nat} {before part : List Char}

theorem Excerpt.append {offset' : Nat} (h : Excerpt offset' cs start stop before part after)
    (hds : offset' = offset + byteSize ds) :
    Excerpt offset (ds ++ cs) start stop (ds ++ before) part after where
  eq := by rw [h.eq, List.append_assoc ds, List.append_assoc ds]
  start_eq := by rw [h.start_eq, hds, byteSize_append, Nat.add_assoc]
  stop_eq := h.stop_eq

/-- An excerpt of what stands behind a gap and a lexeme. -/
theorem Excerpt.behind {gap slice : List Char} {start' stop' : Nat}
    (h : Excerpt stop' cs start stop before part after) (hstart : start' = offset + byteSize gap)
    (hstop : stop' = start' + byteSize slice) :
    Excerpt offset (gap ++ (slice ++ cs)) start stop (gap ++ slice ++ before) part after := by
  rw [← List.append_assoc]
  exact h.append (by rw [hstop, hstart, byteSize_append, Nat.add_assoc])

/-- The positions between which there are no lexemes. -/
def gaps (start stop : Nat) : List Lexeme → List (Nat × Nat)
  | [] => [(start, stop)]
  | l :: ls => (start, l.start) :: gaps l.stop stop ls

theorem Tiled.bounds (h : Tiled offset cs ls) :
    ls.Pairwise (·.stop ≤ ·.start) ∧
      ∀ l ∈ ls, offset ≤ l.start ∧ l.start < l.stop ∧ l.stop ≤ offset + byteSize cs := by
  induction h with
  | nil => exact ⟨.nil, List.forall_mem_nil _⟩
  | @cons offset start stop gap part rest t ls _ hstart hne _ hstop _ ih =>
    obtain ⟨hpairwise, hbounds⟩ := ih
    have := byteSize_pos hne
    have := byteSize_append gap (part ++ rest)
    have := byteSize_append part rest
    refine ⟨.cons (fun l hl => (hbounds l hl).1) hpairwise, List.forall_mem_cons.mpr ⟨?_, ?_⟩⟩
    · dsimp only
      omega
    · intro l hl
      have := hbounds l hl
      omega

theorem Tiled.alone {l : Lexeme} (h : Tiled offset cs ls) (hl : l ∈ ls) :
    ∃ before part after, Excerpt offset cs l.start l.stop before part after ∧
      Alone part l.token := by
  induction h with
  | nil => cases hl
  | @cons offset start stop gap part rest t ls _ hstart _ halone hstop _ ih =>
    rcases List.mem_cons.mp hl with rfl | hl
    · exact ⟨gap, part, rest, ⟨(List.append_assoc ..).symm, hstart, hstop⟩, halone⟩
    · obtain ⟨before, mid, after, hmid, htoken⟩ := ih hl
      exact ⟨_, mid, after, hmid.behind hstart hstop, htoken⟩

theorem Tiled.skipped {g : Nat × Nat} (h : Tiled offset cs ls)
    (hg : g ∈ gaps offset (offset + byteSize cs) ls) :
    ∃ before part after, Excerpt offset cs g.1 g.2 before part after ∧ Skipped after part := by
  induction h with
  | nil hgap =>
    obtain rfl := List.mem_singleton.mp hg
    exact ⟨[], _, [], ⟨(List.append_nil _).symm, rfl, rfl⟩, hgap⟩
  | @cons offset start stop gap part rest t ls hgap hstart _ _ hstop _ ih =>
    rcases List.mem_cons.mp hg with rfl | hg
    · exact ⟨[], gap, part ++ rest, ⟨rfl, rfl, hstart⟩, hgap⟩
    · rw [byteSize_append, byteSize_append, ← Nat.add_assoc, ← hstart, ← Nat.add_assoc,
        ← hstop] at hg
      obtain ⟨before, mid, after, hmid, hskipped⟩ := ih hg
      exact ⟨_, mid, after, hmid.behind hstart hstop, hskipped⟩

/-- What stands in front of unknown input can be cut. -/
theorem excerpt_of_ofChars_error {e : SyntaxError} (h : ofChars offset cs = .error e) :
    ∃ start stop before part after ts, Excerpt offset cs start stop before part after ∧
      part ≠ [] ∧ e = ⟨.unexpectedInput (String.ofList part), some start⟩ ∧ Lexes before ts := by
  have hsplit (c : Char) (cs : List Char) (n : Nat) : c :: cs.take n ++ cs.drop n = c :: cs := by
    rw [List.cons_append, List.take_append_drop]
  fun_induction ofChars offset cs with
  | case1 => cases h
  | case2 offset c cs p text stop hp =>
    rename_i ih
    obtain ⟨_, _, before, part, after, ts, hpart, hne, he, hbefore⟩ := ih h
    have hdrop := hpart.eq.trans (List.append_assoc ..)
    exact ⟨_, _, _, part, after, ts, hsplit c cs p.2 ▸ hpart.append rfl, hne, he,
      .skip (piece_take_append hp (by simp) hdrop) hbefore⟩
  | case3 offset c cs p text stop t hp =>
    rename_i ih
    cases hrest : ofChars stop (cs.drop p.2) with
    | ok rest =>
      rw [hrest] at h
      cases h
    | error e =>
      rw [hrest] at h
      cases h
      obtain ⟨_, _, before, part, after, ts, hpart, hne, he, hbefore⟩ := ih hrest
      have hdrop := hpart.eq.trans (List.append_assoc ..)
      exact ⟨_, _, _, part, after, t :: ts, hsplit c cs p.2 ▸ hpart.append rfl, hne, he,
        .token (piece_take_append hp (by simp) hdrop) hbefore⟩
  | case4 offset c cs p text hp =>
    cases h
    exact ⟨_, _, [], text, cs.drop p.2, [], ⟨(hsplit c cs p.2).symm, rfl, rfl⟩,
      List.cons_ne_nil _ _, rfl, lexes_nil⟩

/-! ## Slices -/

/-- The part of a text between two positions. -/
def slice (text : String) (start stop : Nat) : String :=
  String.Pos.Raw.extract text ⟨start⟩ ⟨stop⟩

/-- A position between two characters of a text, or at one of its ends. -/
def IsBoundary (text : String) (position : Nat) : Prop :=
  (⟨position⟩ : String.Pos.Raw).IsValid text

section Slices

variable {text : String}

theorem isBoundary_of_append (h : text.toList = before ++ after) :
    IsBoundary text (byteSize before) := by
  rw [byteSize_eq, ← String.utf8ByteSize_ofList]
  refine String.Pos.Raw.isValid_iff_exists_append.mpr ⟨_, String.ofList after, ?_, rfl⟩
  rw [← String.ofList_append, ← h, String.ofList_toList]

theorem utf8ByteSize_eq (text : String) : text.utf8ByteSize = byteSize text.toList := by
  rw [byteSize_eq, ← String.utf8ByteSize_ofList, String.ofList_toList]

theorem slice_of_append (h : text.toList = before ++ part ++ after) :
    slice text (byteSize before) (byteSize before + byteSize part) = String.ofList part := by
  rw [slice, ← String.ofList_toList (s := text), h, byteSize_eq, byteSize_eq]
  exact String.extract_of_valid before part after

namespace Excerpt

variable (h : Excerpt 0 text.toList start stop before part after)
include h

theorem slice_eq : slice text start stop = String.ofList part := by
  rw [h.stop_eq, h.start_eq, Nat.zero_add]
  exact slice_of_append h.eq

theorem slice_before : slice text 0 start = String.ofList before := by
  have heq : text.toList = [] ++ before ++ (part ++ after) := by
    rw [h.eq, List.nil_append, List.append_assoc]
  rw [h.start_eq]
  exact slice_of_append heq

theorem slice_after : slice text stop text.utf8ByteSize = String.ofList after := by
  have heq : text.toList = before ++ part ++ after ++ [] := by rw [h.eq, List.append_nil]
  have hstop : stop = byteSize (before ++ part) := by
    rw [byteSize_append, h.stop_eq, h.start_eq, Nat.zero_add]
  rw [utf8ByteSize_eq, h.eq, hstop, byteSize_append (before ++ part)]
  exact slice_of_append heq

theorem isBoundary_start : IsBoundary text start := by
  rw [h.start_eq, Nat.zero_add]
  exact isBoundary_of_append (h.eq.trans (List.append_assoc ..))

theorem isBoundary_stop : IsBoundary text stop := by
  rw [h.stop_eq, h.start_eq, Nat.zero_add, ← byteSize_append]
  exact isBoundary_of_append h.eq

end Excerpt

end Slices

/-- Lexemes that take up a text, but for white space and comments. -/
structure Tiles (text : String) (ls : List Lexeme) : Prop where
  inBounds : ∀ l ∈ ls, l.stop ≤ text.utf8ByteSize
  boundaries : ∀ l ∈ ls, IsBoundary text l.start ∧ IsBoundary text l.stop
  nonempty : ∀ l ∈ ls, l.start < l.stop
  increasing : ls.Pairwise (·.start < ·.start)
  disjoint : ls.Pairwise (·.stop ≤ ·.start)
  skipped : ∀ g ∈ gaps 0 text.utf8ByteSize ls,
    Skipped (slice text g.2 text.utf8ByteSize).toList (slice text g.1 g.2).toList
  alone : ∀ l ∈ ls, ofText (slice text l.start l.stop) = .ok [⟨l.token, 0, l.stop - l.start⟩]

/-- Lexemes that are in order and not empty start in order. -/
theorem pairwise_start (hdisjoint : ls.Pairwise (·.stop ≤ ·.start))
    (hnonempty : ∀ l ∈ ls, l.start < l.stop) : ls.Pairwise (·.start < ·.start) :=
  hdisjoint.imp_of_mem fun hl _ hle => Nat.lt_of_lt_of_le (hnonempty _ hl) hle

theorem tiles_of_ofText {text : String} (h : ofText text = .ok ls) : Tiles text ls := by
  have htiled := tiled_of_ofChars h
  obtain ⟨hdisjoint, hbounds⟩ := htiled.bounds
  have hsize := utf8ByteSize_eq text
  refine ⟨fun l hl => ?_, fun l hl => ?_, fun l hl => (hbounds l hl).2.1,
    pairwise_start hdisjoint fun l hl => (hbounds l hl).2.1, hdisjoint, fun g hg => ?_,
    fun l hl => ?_⟩
  · have := hbounds l hl
    omega
  · obtain ⟨_, _, _, hpart, -⟩ := htiled.alone hl
    exact ⟨hpart.isBoundary_start, hpart.isBoundary_stop⟩
  · rw [hsize, ← Nat.zero_add (byteSize _)] at hg
    obtain ⟨_, _, _, hpart, hskipped⟩ := htiled.skipped hg
    rwa [hpart.slice_eq, hpart.slice_after, String.toList_ofList, String.toList_ofList]
  · obtain ⟨_, part, _, hpart, halone⟩ := htiled.alone hl
    have hlen : l.stop - l.start = 0 + byteSize part := by
      rw [hpart.stop_eq, Nat.add_sub_cancel_left, Nat.zero_add]
    rw [hpart.slice_eq, ofText, String.toList_ofList, hlen]
    exact halone 0

/-- An error at a position in a text at which unknown input stands, behind what can be cut. -/
structure Refused (text : String) (e : SyntaxError) (position : Nat) : Prop where
  inside : position < text.utf8ByteSize
  boundary : IsBoundary text position
  before : ∃ ls, ofText (slice text 0 position) = .ok ls
  unknown : ∃ u, u ≠ "" ∧ slice text position (position + u.utf8ByteSize) = u ∧
    e = ⟨.unexpectedInput u, some position⟩ ∧
    e.report text = .parse ("unexpected input '" ++ u ++ "'") position

theorem refused_of_ofText {text : String} {e : SyntaxError} (h : ofText text = .error e) :
    ∃ position, Refused text e position := by
  obtain ⟨start, stop, before, part, after, ts, hpart, hne, rfl, hlexes⟩ :=
    excerpt_of_ofChars_error h
  have hpos := byteSize_pos hne
  have hstop : stop = start + (String.ofList part).utf8ByteSize := by
    rw [hpart.stop_eq, byteSize_eq, String.utf8ByteSize_ofList]
  refine ⟨start, ?_, hpart.isBoundary_start, ?_, String.ofList part, ?_, ?_, rfl, rfl⟩
  · have hsize := utf8ByteSize_eq text
    rw [hpart.eq, byteSize_append, byteSize_append] at hsize
    have := hpart.start_eq
    omega
  · obtain ⟨ls, hls, -⟩ := hlexes 0
    rw [hpart.slice_before, ofText, String.toList_ofList]
    exact ⟨ls, hls⟩
  · rwa [Ne, String.ofList_eq_empty_iff]
  · rw [← hstop]
    exact hpart.slice_eq

/-- A text is tiled by its lexemes, or there is a place in it where unknown input starts. -/
theorem ofText_tiles (text : String) :
    (∀ ls, ofText text = .ok ls → Tiles text ls) ∧
      ∀ e, ofText text = .error e → ∃ position, Refused text e position :=
  ⟨fun _ => tiles_of_ofText, fun _ => refused_of_ofText⟩

theorem ofText_tiles_accent :
    Tiles "X \"é\" // so" [⟨.name "X", 0, 1⟩, ⟨.str "é", 2, 6⟩] ∧
      ∃ position, Refused "X \"é\" - 1" ⟨.unexpectedInput "-", some 7⟩ position :=
  ⟨(ofText_tiles _).1 _ (by decide +kernel), (ofText_tiles _).2 _ (by decide +kernel)⟩

end AuthLogic.Lexeme
