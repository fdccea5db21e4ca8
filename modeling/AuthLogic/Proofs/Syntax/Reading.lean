import AuthLogic.Proofs.Syntax.Legibility

/-! # Reading

Laws of the readers that are put together from others. They tell what a reader
makes of given tokens, whatever stands behind them, and what is true of all that
it returns.
-/

namespace AuthLogic.Parser

variable {α β : Type} {p : Parser α} {q : α → Parser β} {ls rest mid : List Lexeme} {t : Token}

/-- Readers that do nothing but read are parts of their phrases as they are. -/
@[simp] theorem liftM_eq (p : Parser α) : (liftM p : Parser α) = p := rfl

theorem bind_of_eq_ok {a : α} (h : p ls = .ok (a, mid)) : (p >>= q) ls = q a mid := by
  change (p ls >>= fun r => q r.1 r.2) = q a mid
  rw [h]
  rfl

theorem bind_eq_ok_iff {b : β} :
    (p >>= q) ls = .ok (b, rest) ↔ ∃ a mid, p ls = .ok (a, mid) ∧ q a mid = .ok (b, rest) := by
  constructor
  · intro h
    cases hp : p ls with
    | error e =>
      have h : (p ls >>= fun r => q r.1 r.2) = .ok (b, rest) := h
      rw [hp] at h
      cases h
    | ok r =>
      rw [bind_of_eq_ok hp] at h
      exact ⟨r.1, r.2, rfl, h⟩
  · rintro ⟨a, mid, hp, h⟩
    rw [bind_of_eq_ok hp, h]

theorem pure_eq_ok_iff {a b : α} : (pure a : Parser α) ls = .ok (b, rest) ↔ a = b ∧ ls = rest := by
  constructor
  · intro h
    cases h
    exact ⟨rfl, rfl⟩
  · rintro ⟨rfl, rfl⟩
    rfl

theorem complete_eq_ok_iff (text : String) {a : α} :
    complete p text ls = .ok a ↔ p ls = .ok (a, []) := by
  simp only [complete, bind, Except.bind]
  constructor
  · intro h
    cases hp : p ls with
    | error e =>
      rw [hp] at h
      cases h
    | ok r =>
      rw [hp] at h
      obtain ⟨b, rest⟩ := r
      cases rest with
      | nil =>
        cases h
        rfl
      | cons l rest => cases h
  · intro h
    rw [h]
    rfl

theorem mapError_eq_ok_iff {ε ε' : Type} {f : ε → ε'} {x : Except ε α} {a : α} :
    x.mapError f = .ok a ↔ x = .ok a := by
  cases x with
  | error e => constructor <;> (intro h; cases h)
  | ok b => constructor <;> (intro h; cases h; rfl)

theorem toOption_eq_some_iff {ε : Type} {x : Except ε α} {a : α} :
    x.toOption = some a ↔ x = .ok a := by
  cases x with
  | error e => constructor <;> (intro h; cases h)
  | ok b => constructor <;> (intro h; cases h; rfl)

/-- A text is read if it can be cut into lexemes, and these are read as a whole. -/
theorem ofText_complete_eq_ok_iff {text : String} {f : List Lexeme → List Lexeme} {a : α} :
    (Except.mapError (SyntaxError.report · text) do
        complete p text (f (← Lexeme.ofText text))) = .ok a ↔
      ∃ ls, Lexeme.ofText text = .ok ls ∧ p (f ls) = .ok (a, []) := by
  simp only [mapError_eq_ok_iff, ← complete_eq_ok_iff text]
  cases Lexeme.ofText text with
  | error e =>
    constructor
    · intro h
      cases h
    · rintro ⟨ls, hls, -⟩
      cases hls
  | ok ls =>
    constructor
    · exact fun h => ⟨ls, rfl, h⟩
    · rintro ⟨_, hls, h⟩
      cases hls
      exact h

/-! ## Single tokens -/

/-- The next token is of some kind, if there is one. -/
def Next (F : Token → Prop) (ls : List Lexeme) : Prop :=
  ∀ l ∈ ls.head?, F l.token

theorem next_nil (F : Token → Prop) : Next F [] := fun l hl => absurd hl (by simp)

theorem next_cons_iff {F : Token → Prop} {l : Lexeme} : Next F (l :: ls) ↔ F l.token := by
  simp [Next]

theorem Next.mono {F G : Token → Prop} (h : Next F ls) (hFG : ∀ t, F t → G t) : Next G ls :=
  fun l hl => hFG _ (h l hl)

/-- Lexemes of given tokens, and what follows them. -/
theorem Next.append {F : Token → Prop} {ts : List Token} (hls : ls.map Lexeme.token = ts)
    (hts : ∀ t ∈ ts.head?, F t) (hrest : Next F rest) : Next F (ls ++ rest) := by
  cases ls with
  | nil => exact hrest
  | cons l ls =>
    rw [← hls] at hts
    exact next_cons_iff.mpr (hts l.token rfl)

/-- Either a token of some kind is next, or not. -/
theorem cons_or_next (F : Token → Prop) (ls : List Lexeme) :
    (∃ l rest, ls = l :: rest ∧ F l.token) ∨ Next (¬ F ·) ls := by
  cases ls with
  | nil => exact .inr (next_nil _)
  | cons l ls =>
    by_cases h : F l.token
    · exact .inl ⟨l, ls, rfl, h⟩
    · exact .inr (next_cons_iff.mpr h)

theorem eat_cons {l : Lexeme} (h : l.token = t) : eat t (l :: ls) = .ok (true, ls) := by
  rw [eat, if_pos h]

theorem eat_of_ne (h : Next (· ≠ t) ls) : eat t ls = .ok (false, ls) := by
  cases ls with
  | nil => rfl
  | cons l ls => rw [eat, if_neg (next_cons_iff.mp h)]

theorem eat_eq_ok {b : Bool} (h : eat t ls = .ok (b, rest)) :
    (b = true ∧ ∃ l, ls = l :: rest ∧ l.token = t) ∨ b = false ∧ rest = ls ∧ Next (· ≠ t) ls := by
  cases ls with
  | nil =>
    cases h
    exact .inr ⟨rfl, rfl, next_nil _⟩
  | cons l ls =>
    rw [eat] at h
    split at h
    case isTrue hl =>
      cases h
      exact .inl ⟨rfl, l, rfl, hl⟩
    case isFalse hl =>
      cases h
      exact .inr ⟨rfl, rfl, next_cons_iff.mpr hl⟩

theorem expect_eq_ok_iff : expect t ls = .ok ((), rest) ↔ ∃ l, ls = l :: rest ∧ l.token = t := by
  rw [expect, bind_eq_ok_iff]
  constructor
  · rintro ⟨b, mid, he, h⟩
    rcases eat_eq_ok he with ⟨rfl, l, rfl, hl⟩ | ⟨rfl, -, -⟩
    · cases h
      exact ⟨l, rfl, hl⟩
    · cases h
  · rintro ⟨l, rfl, hl⟩
    exact ⟨true, rest, eat_cons hl, rfl⟩

theorem expect_cons {l : Lexeme} (h : l.token = t) : expect t (l :: ls) = .ok ((), ls) :=
  expect_eq_ok_iff.mpr ⟨l, rfl, h⟩

/-! ## What readers make of given tokens -/

/-- Given tokens are read as a result in front of tokens of some kind. -/
def Reads (F : Token → Prop) (p : Parser α) (ts : List Token) (a : α) : Prop :=
  ∀ ls rest, ls.map Lexeme.token = ts → Next F rest → p (ls ++ rest) = .ok (a, rest)

namespace Reads

variable {F G : Token → Prop} {ts us : List Token} {a : α} {b : β}

/-- A reader that takes a token and goes on as another one. -/
theorem cons {p' : Parser α} (h : ∀ start stop ls, p (⟨t, start, stop⟩ :: ls) = p' ls)
    (hp : Reads F p' ts a) : Reads F p (t :: ts) a := by
  intro ls rest hls hrest
  obtain ⟨⟨u, start, stop⟩, ls, rfl, hu, hts⟩ := List.map_eq_cons_iff.mp hls
  cases hu
  exact (h start stop _).trans (hp ls rest hts hrest)

theorem of_token (h : ∀ start stop ls, p (⟨t, start, stop⟩ :: ls) = .ok (a, ls)) :
    Reads F p [t] a := by
  intro ls rest hls _
  obtain ⟨⟨u, start, stop⟩, rfl, hu⟩ := List.map_eq_singleton_iff.mp hls
  cases hu
  exact h start stop rest

theorem bind (hp : Reads F p ts a) (hq : Reads G (q a) us b) (hus : ∀ t ∈ us.head?, F t)
    (hGF : ∀ t, G t → F t) : Reads G (p >>= q) (ts ++ us) b := by
  intro ls rest hls hrest
  obtain ⟨ls₁, ls₂, rfl, h₁, h₂⟩ := List.map_eq_append_iff.mp hls
  rw [List.append_assoc, bind_of_eq_ok (hp ls₁ _ h₁ (.append h₂ hus (hrest.mono hGF)))]
  exact hq ls₂ rest h₂ hrest

/-- The second reader has tokens of its own, which the first one ends at. -/
theorem bind_cons {u : Token} (hp : Reads F p ts a) (hq : Reads G (q a) (u :: us) b) (hu : F u) :
    Reads G (p >>= q) (ts ++ u :: us) b := by
  intro ls rest hls hrest
  obtain ⟨ls₁, ls₂, rfl, h₁, h₂⟩ := List.map_eq_append_iff.mp hls
  have hnext : Next F (ls₂ ++ rest) := by
    obtain ⟨l, ls₂, rfl, hl, -⟩ := List.map_eq_cons_iff.mp h₂
    rw [List.cons_append, next_cons_iff, hl]
    exact hu
  rw [List.append_assoc, bind_of_eq_ok (hp ls₁ _ h₁ hnext)]
  exact hq ls₂ rest h₂ hrest

theorem map (hp : Reads F p ts a) (f : α → β) :
    Reads F (p >>= fun a => pure (f a)) ts (f a) := by
  intro ls rest hls hrest
  rw [bind_of_eq_ok (hp ls rest hls hrest)]
  rfl

theorem expect (t : Token) : Reads F (expect t) [t] () :=
  .of_token fun _ _ _ => expect_cons rfl

theorem mono (hp : Reads F p ts a) (hGF : ∀ t, G t → F t) : Reads G p ts a :=
  fun ls rest hls hrest => hp ls rest hls (hrest.mono hGF)

end Reads

section Many

variable {F : Token → Prop} {tokens : β → List Token} {value : β → α} {bs : List β}

theorem many_eq (more : Parser Bool) (p : Parser α) (ls : List Lexeme) :
    many more p ls = manyWithin more p ls ls := rfl

theorem manyWithin_eat_of_ne (bound : List Lexeme) (h : Next (· ≠ t) ls) :
    manyWithin (eat t) p bound ls = .ok ([], ls) := by
  cases bound with
  | nil => rfl
  | cons l bound =>
    rw [manyWithin, bind_of_eq_ok (eat_of_ne h)]
    rfl

theorem many_eat_of_ne (h : Next (· ≠ t) ls) : many (eat t) p ls = .ok ([], ls) :=
  manyWithin_eat_of_ne ls h

theorem manyWithin_cons {more : Parser Bool} {l : Lexeme} {bound ls' ls'' : List Lexeme} {a : α}
    {as : List α} (hmore : more ls = .ok (true, ls')) (ha : p ls' = .ok (a, ls''))
    (has : manyWithin more p bound ls'' = .ok (as, rest)) :
    manyWithin more p (l :: bound) ls = .ok (a :: as, rest) := by
  rw [manyWithin, bind_of_eq_ok hmore, if_pos rfl, bind_of_eq_ok ha, bind_of_eq_ok has]
  rfl

theorem next_of_flatMap (hls : ls.map Lexeme.token = bs.flatMap fun b => t :: tokens b) (ht : F t)
    (hrest : Next (fun u => F u ∧ u ≠ t) rest) : Next F (ls ++ rest) := by
  refine .append hls (fun u hu => ?_) (hrest.mono fun u hu => hu.1)
  cases bs with
  | nil => cases hu
  | cons b bs =>
    cases hu
    exact ht

theorem length_le_of_flatMap (hls : ls.map Lexeme.token = bs.flatMap fun b => t :: tokens b) :
    bs.length ≤ (ls ++ rest).length := by
  have hlen : ls.length = (bs.flatMap fun b => t :: tokens b).length := by
    rw [← hls, List.length_map]
  have hle : bs.length ≤ (bs.flatMap fun b => t :: tokens b).length := by
    clear hlen hls
    induction bs with
    | nil => exact Nat.le_refl 0
    | cons b bs ih =>
      simp only [List.flatMap_cons, List.length_append, List.length_cons]
      omega
  rw [List.length_append]
  omega

/-- Items that each follow a token. -/
theorem reads_manyWithin (h : ∀ b ∈ bs, Reads F p (tokens b) (value b)) (ht : F t)
    {bound : List Lexeme} (hbound : bs.length ≤ bound.length) :
    Reads (fun u => F u ∧ u ≠ t) (manyWithin (eat t) p bound)
      (bs.flatMap fun b => t :: tokens b) (bs.map value) := by
  induction bs generalizing bound with
  | nil =>
    intro ls rest hls hrest
    rw [List.map_eq_nil_iff.mp hls]
    exact manyWithin_eat_of_ne bound (hrest.mono fun u hu => hu.2)
  | cons b bs ih =>
    obtain ⟨hb, hbs⟩ := List.forall_mem_cons.mp h
    intro ls rest hls hrest
    obtain ⟨l, ls, rfl, hl, hls⟩ := List.map_eq_cons_iff.mp hls
    obtain ⟨ls₁, ls₂, rfl, h₁, h₂⟩ := List.map_eq_append_iff.mp hls
    cases bound with
    | nil => cases hbound
    | cons k bound =>
      have htail := ih hbs (Nat.le_of_succ_le_succ hbound) ls₂ rest h₂ hrest
      rw [List.cons_append, List.append_assoc]
      exact manyWithin_cons (eat_cons hl) (hb ls₁ _ h₁ (next_of_flatMap h₂ ht hrest)) htail

theorem reads_many (h : ∀ b ∈ bs, Reads F p (tokens b) (value b)) (ht : F t) :
    Reads (fun u => F u ∧ u ≠ t) (many (eat t) p) (bs.flatMap fun b => t :: tokens b)
      (bs.map value) :=
  fun ls rest hls hrest => reads_manyWithin h ht (length_le_of_flatMap hls) ls rest hls hrest

theorem length_le_flatMap (h : ∀ b ∈ bs, ∃ t ts, tokens b = t :: ts ∧ F t) :
    bs.length ≤ (bs.flatMap tokens).length := by
  induction bs with
  | nil => exact Nat.le_refl 0
  | cons b bs ih =>
    obtain ⟨⟨t, ts, hb, -⟩, hbs⟩ := List.forall_mem_cons.mp h
    have := ih hbs
    simp only [List.flatMap_cons, hb, List.length_append, List.length_cons]
    omega

theorem next_flatMap (h : ∀ b ∈ bs, ∃ t ts, tokens b = t :: ts ∧ F t)
    (hls : ls.map Lexeme.token = bs.flatMap tokens) (hrest : Next F rest) :
    Next F (ls ++ rest) := by
  refine .append hls (fun u hu => ?_) hrest
  cases bs with
  | nil => cases hu
  | cons b bs =>
    obtain ⟨t, ts, hb, ht⟩ := h b List.mem_cons_self
    rw [List.flatMap_cons, hb] at hu
    cases hu
    exact ht

section Adjacent

variable {G : Token → Prop} {more : Parser Bool}

theorem reads_manyWithin_adjacent (h : ∀ b ∈ bs, Reads F p (tokens b) (value b))
    (hhead : ∀ b ∈ bs, ∃ t ts, tokens b = t :: ts ∧ F t)
    (hmore : ∀ b ∈ bs, ∀ ls rest, ls.map Lexeme.token = tokens b →
      more (ls ++ rest) = .ok (true, ls ++ rest))
    (hend : ∀ rest, Next G rest → more rest = .ok (false, rest)) (hGF : ∀ t, G t → F t)
    {bound : List Lexeme} (hbound : bs.length ≤ bound.length) :
    Reads G (manyWithin more p bound) (bs.flatMap tokens) (bs.map value) := by
  induction bs generalizing bound with
  | nil =>
    intro ls rest hls hrest
    rw [List.map_eq_nil_iff.mp hls, List.nil_append]
    cases bound with
    | nil => rfl
    | cons l bound =>
      rw [manyWithin, bind_of_eq_ok (hend rest hrest)]
      rfl
  | cons b bs ih =>
    rw [List.forall_mem_cons] at h hhead hmore
    intro ls rest hls hrest
    obtain ⟨ls₁, ls₂, rfl, h₁, h₂⟩ := List.map_eq_append_iff.mp hls
    cases bound with
    | nil => cases hbound
    | cons k bound =>
      rw [List.append_assoc]
      exact manyWithin_cons (hmore.1 ls₁ _ h₁)
        (h.1 ls₁ _ h₁ (next_flatMap hhead.2 h₂ (hrest.mono hGF)))
        (ih h.2 hhead.2 hmore.2 (Nat.le_of_succ_le_succ hbound) ls₂ rest h₂ hrest)

/-- Items that stand next to each other, which the test tells from what follows. -/
theorem reads_adjacent (h : ∀ b ∈ bs, Reads F p (tokens b) (value b))
    (hhead : ∀ b ∈ bs, ∃ t ts, tokens b = t :: ts ∧ F t)
    (hmore : ∀ b ∈ bs, ∀ ls rest, ls.map Lexeme.token = tokens b →
      more (ls ++ rest) = .ok (true, ls ++ rest))
    (hend : ∀ rest, Next G rest → more rest = .ok (false, rest)) (hGF : ∀ t, G t → F t) :
    Reads G (many more p) (bs.flatMap tokens) (bs.map value) := by
  intro ls rest hls hrest
  have hbound : bs.length ≤ (ls ++ rest).length := by
    have hle := length_le_flatMap hhead
    rw [← hls, List.length_map] at hle
    rw [List.length_append]
    omega
  exact reads_manyWithin_adjacent h hhead hmore hend hGF hbound ls rest hls hrest

end Adjacent

theorem reads_separated {b : β} (hb : Reads F p (tokens b) (value b))
    (h : ∀ b ∈ bs, Reads F p (tokens b) (value b)) (ht : F t) :
    Reads (fun u => F u ∧ u ≠ t) (separated t p) (tokens b ++ bs.flatMap fun b => t :: tokens b)
      (value b :: bs.map value) := by
  intro ls rest hls hrest
  obtain ⟨ls₁, ls₂, rfl, h₁, h₂⟩ := List.map_eq_append_iff.mp hls
  have hbound : bs.length ≤ (ls₂ ++ rest).length := length_le_of_flatMap h₂
  have hmany := reads_manyWithin h ht hbound ls₂ rest h₂ hrest
  rw [List.append_assoc, separated, liftM_eq,
    bind_of_eq_ok (hb ls₁ (ls₂ ++ rest) h₁ (next_of_flatMap h₂ ht hrest)),
    bind_of_eq_ok (p := many (eat t) p) hmany]
  rfl

theorem commas_cons (item : List Token) (items : List (List Token)) :
    commas (item :: items) = item ++ items.flatMap fun item => .symbol .comma :: item := by
  induction items generalizing item with
  | nil => rw [commas, List.intercalate_singleton, List.flatMap_nil, List.append_nil]
  | cons item' items ih =>
    rw [commas, List.intercalate_cons_cons, ← commas, ih, List.flatMap_cons, List.append_assoc]
    rfl

theorem reads_commas {b : β} (h : ∀ c ∈ b :: bs, Reads F p (tokens c) (value c))
    (hF : F (.symbol .comma)) :
    Reads (fun u => F u ∧ u ≠ .symbol .comma) (separated (.symbol .comma) p)
      (commas ((b :: bs).map tokens)) ((b :: bs).map value) := by
  obtain ⟨hb, hbs⟩ := List.forall_mem_cons.mp h
  rw [List.map_cons, commas_cons, List.flatMap_map]
  exact reads_separated hb hbs hF

theorem next_commas {b : β} (hb : ∃ u us, tokens b = u :: us ∧ u ≠ t)
    (hls : ls.map Lexeme.token = commas ((b :: bs).map tokens)) : Next (· ≠ t) (ls ++ rest) := by
  obtain ⟨u, us, hu, hne⟩ := hb
  rw [List.map_cons, commas_cons, hu, List.cons_append] at hls
  obtain ⟨l, ls, rfl, hl, -⟩ := List.map_eq_cons_iff.mp hls
  rw [List.cons_append, next_cons_iff, hl]
  exact hne

theorem reads_untilClosed (h : ∀ b ∈ bs, Reads F p (tokens b) (value b))
    (hF : F (.symbol .comma)) (hF' : F (.symbol .rparen))
    (hhead : ∀ b ∈ bs, ∃ u us, tokens b = u :: us ∧ u ≠ .symbol .rparen) :
    Reads (fun _ => True) (untilClosed p) (commas (bs.map tokens) ++ [.symbol .rparen])
      (bs.map value) := by
  intro ls rest hls _
  cases bs with
  | nil =>
    obtain ⟨l, rfl, hl⟩ := List.map_eq_singleton_iff.mp hls
    exact bind_of_eq_ok (eat_cons hl)
  | cons b bs =>
    obtain ⟨ls₁, ls₂, rfl, h₁, h₂⟩ := List.map_eq_append_iff.mp hls
    obtain ⟨l, rfl, hl⟩ := List.map_eq_singleton_iff.mp h₂
    have hnext : Next (fun u => F u ∧ u ≠ .symbol .comma) (l :: rest) := by
      rw [next_cons_iff, hl]
      exact ⟨hF', by simp⟩
    have hopen : Next (· ≠ .symbol .rparen) (ls₁ ++ l :: rest) :=
      next_commas (hhead b List.mem_cons_self) h₁
    rw [List.append_assoc, List.singleton_append, untilClosed, liftM_eq,
      bind_of_eq_ok (eat_of_ne hopen)]
    exact (bind_of_eq_ok (reads_commas h hF ls₁ (l :: rest) h₁ hnext)).trans
      (bind_of_eq_ok (expect_cons hl))

end Many

/-! ## What readers return -/

/-- Every result is of some kind, provided that the tokens can be spelled. -/
def Yields (p : Parser α) (P : α → Prop) : Prop :=
  ∀ ls a rest, (∀ l ∈ ls, l.token.Lexable) → p ls = .ok (a, rest) →
    P a ∧ ∀ l ∈ rest, l.token.Lexable

namespace Yields

variable {P : α → Prop} {Q : β → Prop}

theorem pure {a : α} (h : P a) : Yields (pure a) P := by
  intro ls b rest hls hb
  obtain ⟨rfl, rfl⟩ := pure_eq_ok_iff.mp hb
  exact ⟨h, hls⟩

theorem bind (hp : Yields p P) (hq : ∀ a, P a → Yields (q a) Q) : Yields (p >>= q) Q := by
  intro ls b rest hls h
  obtain ⟨a, mid, ha, hb⟩ := bind_eq_ok_iff.mp h
  obtain ⟨hPa, hmid⟩ := hp ls a mid hls ha
  exact hq a hPa mid b rest hmid hb

theorem fail (cause : SyntaxError.Cause) : Yields (fail cause) P := by
  intro ls a rest _ h
  cases h

theorem unexpected (wanted : Wanted) : Yields (unexpected wanted) P := by
  intro ls a rest _ h
  cases h

theorem peek : Yields peek fun t? => ∀ t ∈ t?, t.Lexable := by
  intro ls t? rest hls h
  cases h
  refine ⟨fun t ht => ?_, hls⟩
  obtain ⟨l, hl, rfl⟩ := Option.map_eq_some_iff.mp ht
  exact hls l (List.mem_of_head? hl)

theorem tail : Yields (modify List.tail : Parser Unit) fun _ => True := by
  intro ls _ rest hls h
  cases h
  exact ⟨trivial, fun l hl => hls l (List.mem_of_mem_tail hl)⟩

theorem eat (t : Token) : Yields (eat t) fun _ => True := by
  intro ls b rest hls h
  refine ⟨trivial, ?_⟩
  rcases eat_eq_ok h with ⟨-, l, rfl, -⟩ | ⟨-, rfl, -⟩
  · exact fun k hk => hls k (List.mem_cons_of_mem l hk)
  · exact hls

theorem expect (t : Token) : Yields (expect t) fun _ => True := by
  intro ls _ rest hls h
  obtain ⟨l, rfl, -⟩ := expect_eq_ok_iff.mp h
  exact ⟨trivial, fun k hk => hls k (List.mem_cons_of_mem l hk)⟩

theorem manyWithin {more : Parser Bool} (hmore : Yields more fun _ => True) (hp : Yields p P)
    (bound : List Lexeme) : Yields (manyWithin more p bound) fun as => ∀ a ∈ as, P a := by
  induction bound with
  | nil => exact .pure (List.forall_mem_nil P)
  | cons l bound ih =>
    refine hmore.bind fun b _ => ?_
    cases b with
    | false => exact .pure (List.forall_mem_nil P)
    | true =>
      exact hp.bind fun a ha => ih.bind fun as has => .pure (List.forall_mem_cons.mpr ⟨ha, has⟩)

theorem many {more : Parser Bool} (hmore : Yields more fun _ => True) (hp : Yields p P) :
    Yields (many more p) fun as => ∀ a ∈ as, P a :=
  fun ls => manyWithin hmore hp ls ls

theorem separated (t : Token) (hp : Yields p P) :
    Yields (separated t p) fun as => ∀ a ∈ as, P a :=
  hp.bind fun _ ha => (many (eat t) hp).bind fun _ has =>
    .pure (List.forall_mem_cons.mpr ⟨ha, has⟩)

theorem untilClosed (hp : Yields p P) : Yields (untilClosed p) fun as => ∀ a ∈ as, P a := by
  refine (eat _).bind fun b _ => ?_
  cases b with
  | true => exact .pure (List.forall_mem_nil P)
  | false =>
    exact (separated _ hp).bind fun _ has => (expect _).bind fun _ _ => .pure has

end Yields

end AuthLogic.Parser
