import AuthLogic.Proofs.Syntax.ConstraintReading

/-! # Misread constraints

The text of any constraint is read as a whole, unless the reader stops at a
comparison in the midst of it. From this follows the converse of reading back: a
constraint that is not plain, or is nested too deep, is not what its text is read
as.
-/

namespace AuthLogic

open Constraint

namespace Parser

variable {α β γ : Type} {p : Parser α} {ls rest rest' : List Lexeme}

/-- A comparison comes next. -/
def Stuck (ls : List Lexeme) : Prop :=
  ∃ l tail op, ls = l :: tail ∧ Operator.isComparison op = true ∧ l.token = op.token

theorem Stuck.next {F : Token → Prop} (h : Stuck ls)
    (hF : ∀ op : Operator, op.isComparison = true → F op.token) : Next F ls := by
  obtain ⟨l, tail, op, rfl, hop, hl⟩ := h
  rw [next_cons_iff, hl]
  exact hF op hop

theorem Stuck.next_endsChain (h : Stuck ls) : Next Token.EndsChain ls :=
  h.next fun op hop => by
    cases op with
    | and | or => cases hop
    | _ => simp [Token.EndsChain, Operator.token]

theorem next_endsChain_of_stuck (h : rest' = rest ∨ Stuck rest')
    (hrest : Next Token.EndsChain rest) : Next Token.EndsChain rest' := by
  rcases h with rfl | hstuck
  · exact hrest
  · exact hstuck.next_endsChain

theorem Stuck.next_ne (h : Stuck ls) {s : Symbol} (hs : comparison? (.symbol s) = none) :
    Next (· ≠ .symbol s) ls :=
  h.next fun op hop heq => by
    have hsome := op.comparison?_token hop
    rw [heq, hs] at hsome
    cases hsome

theorem Stuck.not_ends (h : Stuck ls) : ¬ Next (comparison? · = none) ls := by
  obtain ⟨l, tail, op, rfl, hop, hl⟩ := h
  rw [next_cons_iff, hl, op.comparison?_token hop]
  simp

/-! ## Readers that may stop early -/

/-- A reader that succeeds has taken all of the given tokens. -/
def Takes (F : Token → Prop) (p : Parser α) (ts : List Token) (Q : α → Prop) : Prop :=
  ∀ ls rest a rest', ls.map Lexeme.token = ts → Next F rest → p (ls ++ rest) = .ok (a, rest') →
    rest' = rest ∧ Q a

/-- A reader that succeeds has taken all of the given tokens, or stops at a comparison. -/
def Tries (F : Token → Prop) (p : Parser α) (ts : List Token) (Q : α → Prop) : Prop :=
  ∀ ls rest a rest', ls.map Lexeme.token = ts → Next F rest → p (ls ++ rest) = .ok (a, rest') →
    rest' = rest ∧ Q a ∨ Stuck rest'

section Many

variable {F : Token → Prop} {t : Token} {ts : List Token} {tokens : β → List Token}
  {f : α → γ} {value : β → γ} {bs : List β} {Q : α → Prop} {R : β → Prop}

theorem Reads.takes {a : α} (h : Reads F p ts a) (ha : Q a) : Takes F p ts Q := by
  intro ls rest b rest' hls hrest hb
  rw [h ls rest hls hrest] at hb
  cases hb
  exact ⟨rfl, ha⟩

theorem Takes.cons {p' : Parser α} (h : ∀ start stop ls, p (⟨t, start, stop⟩ :: ls) = p' ls)
    (hp : Takes F p' ts Q) : Takes F p (t :: ts) Q := by
  intro ls rest a rest' hls hrest ha
  obtain ⟨⟨u, start, stop⟩, ls, rfl, hu, hts⟩ := List.map_eq_cons_iff.mp hls
  cases hu
  exact hp ls rest a rest' hts hrest ((h start stop _).symm.trans ha)

theorem forall_mem_cons_of_map_eq {a : α} {as : List α} {b : β} (hb : f a = value b → R b)
    (hbs : as.map f = bs.map value → ∀ c ∈ bs, R c)
    (h : (a :: as).map f = (b :: bs).map value) : ∀ c ∈ b :: bs, R c := by
  rw [List.map_cons, List.map_cons, List.cons.injEq] at h
  exact List.forall_mem_cons.mpr ⟨hb h.1, hbs h.2⟩

theorem tries_manyWithin {s : Symbol} (hs : comparison? (.symbol s) = none) (hF : F (.symbol s))
    (h : ∀ b ∈ bs, Tries F p (tokens b) fun a => f a = value b → R b) {bound : List Lexeme}
    (hbound : bs.length ≤ bound.length) :
    Tries (fun u => F u ∧ u ≠ .symbol s) (manyWithin (eat (.symbol s)) p bound)
      (bs.flatMap fun b => .symbol s :: tokens b)
      fun as => as.map f = bs.map value → ∀ b ∈ bs, R b := by
  induction bs generalizing bound with
  | nil =>
    intro ls rest as rest' hls hrest has
    rw [List.map_eq_nil_iff.mp hls, List.nil_append,
      manyWithin_eat_of_ne bound (hrest.mono fun _ hu => hu.2)] at has
    cases has
    exact .inl ⟨rfl, fun _ => List.forall_mem_nil R⟩
  | cons b bs ih =>
    obtain ⟨hb, hbs⟩ := List.forall_mem_cons.mp h
    intro ls rest as rest' hls hrest has
    obtain ⟨l, ls, rfl, hl, hls⟩ := List.map_eq_cons_iff.mp hls
    obtain ⟨ls₁, ls₂, rfl, h₁, h₂⟩ := List.map_eq_append_iff.mp hls
    cases bound with
    | nil => cases hbound
    | cons k bound =>
      rw [List.cons_append, List.append_assoc, manyWithin, bind_of_eq_ok (eat_cons hl),
        if_pos rfl] at has
      obtain ⟨a, mid, ha, has⟩ := bind_eq_ok_iff.mp has
      obtain ⟨as, mid', has', heq⟩ := bind_eq_ok_iff.mp has
      cases heq
      rcases hb ls₁ _ a mid h₁ (next_of_flatMap h₂ hF hrest) ha with ⟨rfl, hR⟩ | hstuck
      · refine (ih hbs (Nat.le_of_succ_le_succ hbound) ls₂ rest as rest' h₂ hrest has').imp_left ?_
        rintro ⟨rfl, hRs⟩
        exact ⟨rfl, forall_mem_cons_of_map_eq hR hRs⟩
      · rw [manyWithin_eat_of_ne bound (hstuck.next_ne hs)] at has'
        cases has'
        exact .inr hstuck

theorem tries_commas {b : β}
    (h : ∀ c ∈ b :: bs, Tries F p (tokens c) fun a => f a = value c → R c)
    (hF : F (.symbol .comma)) :
    Tries (fun u => F u ∧ u ≠ .symbol .comma) (separated (.symbol .comma) p)
      (commas ((b :: bs).map tokens))
      fun as => as.map f = (b :: bs).map value → ∀ c ∈ b :: bs, R c := by
  obtain ⟨hb, hbs⟩ := List.forall_mem_cons.mp h
  intro ls rest as rest' hls hrest has
  rw [List.map_cons, commas_cons, List.flatMap_map] at hls
  obtain ⟨ls₁, ls₂, rfl, h₁, h₂⟩ := List.map_eq_append_iff.mp hls
  rw [List.append_assoc] at has
  obtain ⟨a, mid, ha, has⟩ := bind_eq_ok_iff.mp has
  obtain ⟨as, mid', has', heq⟩ := bind_eq_ok_iff.mp has
  cases heq
  rcases hb ls₁ _ a mid h₁ (next_of_flatMap h₂ hF hrest) ha with ⟨rfl, hR⟩ | hstuck
  · have hbound : bs.length ≤ (ls₂ ++ rest).length := length_le_of_flatMap h₂
    have htail := tries_manyWithin rfl hF hbs hbound ls₂ rest as rest' h₂ hrest has'
    refine htail.imp_left ?_
    rintro ⟨rfl, hRs⟩
    exact ⟨rfl, forall_mem_cons_of_map_eq hR hRs⟩
  · rw [liftM_eq, many_eat_of_ne (hstuck.next_ne rfl)] at has'
    cases has'
    exact .inr hstuck

theorem takes_untilClosed (h : ∀ b ∈ bs, Tries F p (tokens b) fun a => f a = value b → R b)
    (hF : F (.symbol .comma)) (hF' : F (.symbol .rparen))
    (hhead : ∀ b ∈ bs, ∃ u us, tokens b = u :: us ∧ u ≠ .symbol .rparen) :
    Takes (fun _ => True) (untilClosed p) (commas (bs.map tokens) ++ [.symbol .rparen])
      fun as => as.map f = bs.map value → ∀ b ∈ bs, R b := by
  intro ls rest as rest' hls _ has
  cases bs with
  | nil =>
    obtain ⟨l, rfl, hl⟩ := List.map_eq_singleton_iff.mp hls
    rw [untilClosed, liftM_eq, List.singleton_append, bind_of_eq_ok (eat_cons hl)] at has
    cases has
    exact ⟨rfl, fun _ => List.forall_mem_nil R⟩
  | cons b bs =>
    obtain ⟨ls₁, ls₂, rfl, h₁, h₂⟩ := List.map_eq_append_iff.mp hls
    obtain ⟨l, rfl, hl⟩ := List.map_eq_singleton_iff.mp h₂
    have hopen : Next (· ≠ .symbol .rparen) (ls₁ ++ l :: rest) :=
      next_commas (hhead b List.mem_cons_self) h₁
    have hnext : Next (fun u => F u ∧ u ≠ .symbol .comma) (l :: rest) := by
      rw [next_cons_iff, hl]
      exact ⟨hF', by simp⟩
    rw [List.append_assoc, List.singleton_append, untilClosed, liftM_eq,
      bind_of_eq_ok (eat_of_ne hopen)] at has
    obtain ⟨as', mid, has', has⟩ := bind_eq_ok_iff.mp has
    obtain ⟨_, mid', hclose, has⟩ := bind_eq_ok_iff.mp has
    cases has
    obtain ⟨k, rfl, hk⟩ := expect_eq_ok_iff.mp hclose
    rcases tries_commas h hF ls₁ (l :: rest) as _ h₁ hnext has' with ⟨heq, hR⟩ | hstuck
    · cases heq
      exact ⟨rfl, hR⟩
    · exact absurd hk (next_cons_iff.mp (hstuck.next_ne rfl))

end Many

/-! ## Constraints -/

/-- What a negation leaves of the lexemes behind its text. -/
inductive Leaves : List Lexeme → List Lexeme → Prop

  | all (rest : List Lexeme) : Leaves rest rest

  | stuck {rest rest' : List Lexeme} : Stuck rest' → Leaves rest rest'

  /-- The text is the left operand of a comparison, of which the right one is read as well. -/
  | operand {n : Nat} {l : Lexeme} {tail rest' : List Lexeme} {c : Constraint} :
      comparison? l.token ≠ none → atom (constraintWithin n) tail = .ok (c, rest') →
      Leaves (l :: tail) rest'

theorem Leaves.of_ends (h : Leaves rest rest') (hrest : Next Token.EndsComparison rest) :
    rest' = rest ∨ Stuck rest' := by
  cases h with
  | all => exact .inl rfl
  | stuck h => exact .inr h
  | operand h _ => exact absurd (next_cons_iff.mp hrest).2 h

variable {c d : Constraint} {n : Nat}

theorem negation_eq_ok (h : negationWithin n ls = .ok (c, rest)) :
    (∃ l tail m d, ls = l :: tail ∧ l.token = .keyword .not ∧ n = m + 1 ∧
      negationWithin m tail = .ok (d, rest) ∧ c = .not d) ∨
    comparison (constraintWithin n) ls = .ok (c, rest) := by
  by_cases hne : Next (· ≠ .keyword .not) ls
  · rw [negation_of_ne n hne] at h
    exact .inr h
  · cases ls with
    | nil => exact absurd (next_nil _) hne
    | cons l tail =>
      have hl : l.token = .keyword .not :=
        Classical.byContradiction fun hl => hne (next_cons_iff.mpr hl)
      cases n with
      | zero =>
        rw [negation_zero_cons hl] at h
        cases h
      | succ m =>
        rw [negation_succ_cons hl] at h
        obtain ⟨d, mid, hd, h⟩ := bind_eq_ok_iff.mp h
        cases h
        exact .inl ⟨l, tail, m, d, rfl, hl, rfl, hd, rfl⟩

/-- What is known of the negation that is read from the text of a constraint. -/
def NegationLeaves (c : Constraint) : Prop :=
  ∀ n ls rest d rest', ls.map Lexeme.token = c.tokens → Next (· ≠ .symbol .colon) rest →
    negationWithin n (ls ++ rest) = .ok (d, rest') →
    Leaves rest rest' ∧
      (Next Token.EndsComparison rest → rest' = rest → Term.bare d = Term.bare c → Fits (n + 1) c)

theorem tries_constraint (h : NegationLeaves c) :
    Tries Token.EndsConstraint (constraintWithin n) c.tokens fun d =>
      Term.bare d = Term.bare c → Fits n c := by
  intro ls rest d rest' hls hrest hd
  cases n with
  | zero => cases hd
  | succ m =>
    have hends := hrest.mono fun _ ht => ht.1
    obtain ⟨d', mid, hd', -⟩ := disjunction_eq_ok hd
    obtain ⟨hleaves, hfits⟩ := h m ls rest d' mid hls (hends.mono fun _ ht => ht.1) hd'
    have hmid := hleaves.of_ends hends
    have hchain := next_endsChain_of_stuck hmid (hrest.mono fun _ ht => ht.2)
    have heq : constraintWithin (m + 1) (ls ++ rest) = .ok (d', mid) :=
      disjunction_of_ends hd' hchain
    rw [hd] at heq
    cases heq
    exact hmid.imp_left fun hrest' => ⟨hrest', hfits hends hrest'⟩

/-- What is known of the atom that is read from the text of a constraint. -/
structure AtomReading (c : Constraint) : Prop where

  takes (n : Nat) : c.isPrimary = true →
    Takes (· ≠ .symbol .colon) (atom (constraintWithin n)) c.tokens fun d =>
      d.isPrimary = true ∧ (Term.bare d = Term.bare c → Fits (n + 1) c)

  stops {n : Nat} {ls rest : List Lexeme} {d : Constraint} {rest' : List Lexeme} :
    c.isPrimary = false → ls.map Lexeme.token = c.tokens → Next (· ≠ .symbol .colon) rest →
    atom (constraintWithin n) (ls ++ rest) = .ok (d, rest') → d.isPrimary = true ∧ Stuck rest'

theorem AtomReading.of_takes
    (h : ∀ n, Takes (· ≠ .symbol .colon) (atom (constraintWithin n)) c.tokens fun d =>
      d.isPrimary = true ∧ (Term.bare d = Term.bare c → Fits (n + 1) c))
    (hc : c.isPrimary = true) : AtomReading c where
  takes n _ := h n
  stops hc' := by
    rw [hc] at hc'
    cases hc'

theorem AtomReading.negationLeaves (h : AtomReading c) (hc : c.isPrimary = true) :
    NegationLeaves c := by
  intro n ls rest d rest' hls hrest hd
  rw [negation_of_ne n (next_ne_not hc (hls.trans (List.append_nil _).symm))] at hd
  obtain ⟨x, mid, hx, hcases⟩ := comparison_eq_ok hd
  obtain ⟨rfl, -, hfits⟩ := h.takes n hc ls rest x mid hls hrest hx
  rcases hcases with ⟨-, rfl, rfl⟩ | ⟨l, tail, build, e, rfl, hl, he, -⟩
  · exact ⟨.all rest', fun _ _ => hfits⟩
  · have hsome : comparison? l.token ≠ none := by
      rw [hl]
      simp
    exact ⟨.operand hsome he, fun hends => absurd (next_cons_iff.mp hends).2 hsome⟩

theorem atomReading_of_reads (hc : c.isPrimary = true) (hplain : c.isPlain = true)
    (hnesting : c.nesting = 1)
    (h : ∀ n, Reads (· ≠ .symbol .colon) (atom (constraintWithin n)) c.tokens (Term.bare c))
    (hbare : (Term.bare c).isPrimary = true) : AtomReading c :=
  .of_takes (fun n => (h n).takes ⟨hbare, fun _ => ⟨hplain, by rw [hnesting]; omega⟩⟩) hc

theorem atomReading_call {name : String} {args : List Constraint}
    (h : ∀ arg ∈ args, NegationLeaves arg) : AtomReading (.call name args) := by
  refine .of_takes (fun n => ?_) rfl
  rw [tokens, tokensList_eq_map]
  have hargs := takes_untilClosed (fun arg harg => tries_constraint (n := n) (h arg harg))
    (Token.endsConstraint_symbol (by simp) rfl) (Token.endsConstraint_symbol (by simp) rfl)
    fun arg _ => arg.exists_head_tokens
  have hatom : ∀ start stop ls, atom (constraintWithin n) (⟨.word name, start, stop⟩ :: ls) =
      (expect (.symbol .lparen) >>= fun _ => untilClosed (constraintWithin n) >>= fun args =>
        pure (Constraint.call name args)) ls := fun _ _ _ => rfl
  refine .cons hatom ?_
  intro ls rest d rest' hls hrest hd
  obtain ⟨l, ls, rfl, hl, hls⟩ := List.map_eq_cons_iff.mp hls
  rw [List.cons_append, bind_of_eq_ok (expect_cons hl)] at hd
  obtain ⟨ds, mid, hds, hd⟩ := bind_eq_ok_iff.mp hd
  cases hd
  obtain ⟨hrest', hfits⟩ := hargs ls rest ds rest' hls (hrest.mono fun _ _ => trivial) hds
  refine ⟨hrest', rfl, fun heq => ?_⟩
  rw [bare_call, bare_call, Constraint.call.injEq] at heq
  have hfits := hfits heq.2
  constructor
  · rw [isPlain, isPlainList_eq_all, List.all_eq_true]
    exact fun arg harg => (hfits arg harg).1
  · exact Nat.succ_le_succ (nestingList_le_iff.mpr fun arg harg => (hfits arg harg).2)

/-- The operands of a chain are read one after the other, unless one of them is left early. -/
theorem tries_disjunction {op : Operator} (hop : op.isComparison = false)
    (hc : NegationLeaves c) (hd : NegationLeaves d) :
    Tries Token.EndsConstraint (disjunction (negationWithin n)) (c.tokens ++ op.token :: d.tokens)
      fun e => e.isPrimary = true ∧
        (Term.bare e = Term.bare (.binary op c d) → Fits (n + 2) (.binary op c d)) := by
  intro ls rest e rest' hls hrest he
  obtain ⟨ls₁, ls₂, rfl, h₁, h₂⟩ := List.map_eq_append_iff.mp hls
  obtain ⟨k, ls₂, rfl, hk, h₂⟩ := List.map_eq_cons_iff.mp h₂
  rw [List.append_assoc, List.cons_append] at he
  have hends := hrest.mono fun _ ht => ht.1
  have hendsk : Next Token.EndsComparison (k :: (ls₂ ++ rest)) := by
    rw [next_cons_iff, hk]
    exact op.endsComparison_token hop
  obtain ⟨x, mid, hx, hmore⟩ := disjunction_eq_ok he
  obtain ⟨hleaves, hfitsc⟩ := hc n ls₁ _ x mid h₁ (hendsk.mono fun _ ht => ht.1) hx
  rcases hleaves.of_ends hendsk with rfl | hstuck
  · obtain ⟨y, mid, hy⟩ := hmore op k _ hop rfl hk
    obtain ⟨hleaves, hfitsd⟩ := hd n ls₂ rest y mid h₂ (hends.mono fun _ ht => ht.1) hy
    have hmid := hleaves.of_ends hends
    have hchain := next_endsChain_of_stuck hmid (hrest.mono fun _ ht => ht.2)
    rw [disjunction_of_cons hop hx hk hy hchain] at he
    cases he
    refine hmid.imp_left fun hrest' => ⟨hrest', by rw [isPrimary, hop]; rfl, fun heq => ?_⟩
    have heq : Constraint.binary op (Term.bare x) (Term.bare y) =
        .binary op (Term.bare c) (Term.bare d) := heq
    rw [Constraint.binary.injEq] at heq
    obtain ⟨hplainc, hnestingc⟩ := hfitsc hendsk rfl heq.2.1
    obtain ⟨hplaind, hnestingd⟩ := hfitsd hends hrest' heq.2.2
    exact ⟨(isPlain_connective hop).mpr ⟨hplainc, hplaind⟩,
      (nesting_connective_le_iff hop).mpr ⟨hnestingc, hnestingd⟩⟩
  · rw [disjunction_of_ends hx hstuck.next_endsChain] at he
    cases he
    exact .inr hstuck

/-- Nothing is left of a text in parentheses. -/
theorem takes_parenthesized {F : Token → Prop} {p : Parser Constraint} {ts : List Token}
    {Q : Constraint → Prop} (h : Tries Token.EndsConstraint p ts Q) :
    Takes F (p >>= fun c => expect (.symbol .rparen) >>= fun _ => pure c)
      (ts ++ [.symbol .rparen]) Q := by
  intro ls rest c rest' hls _ hc
  obtain ⟨ls₁, ls₂, rfl, h₁, h₂⟩ := List.map_eq_append_iff.mp hls
  obtain ⟨l, rfl, hl⟩ := List.map_eq_singleton_iff.mp h₂
  rw [List.append_assoc, List.singleton_append] at hc
  obtain ⟨x, mid, hx, hc⟩ := bind_eq_ok_iff.mp hc
  obtain ⟨_, mid', hclose, hc⟩ := bind_eq_ok_iff.mp hc
  cases hc
  obtain ⟨k, rfl, hk⟩ := expect_eq_ok_iff.mp hclose
  have hnext : Next Token.EndsConstraint (l :: rest) :=
    next_endsConstraint_symbol hl (by simp) rfl
  rcases h ls₁ (l :: rest) c _ h₁ hnext hx with ⟨heq, hQ⟩ | hstuck
  · cases heq
    exact ⟨rfl, hQ⟩
  · exact absurd hk (next_cons_iff.mp (hstuck.next_ne rfl))

theorem atomReading_connective {op : Operator} (hop : op.isComparison = false)
    (hc : NegationLeaves c) (hd : NegationLeaves d) : AtomReading (.binary op c d) := by
  refine .of_takes (fun n => ?_) (by rw [isPrimary, hop]; rfl)
  rw [tokens_connective hop]
  have hatom : ∀ start stop ls, atom (constraintWithin n) (⟨.symbol .lparen, start, stop⟩ :: ls) =
      (constraintWithin n >>= fun c => expect (.symbol .rparen) >>= fun _ => pure c) ls :=
    fun _ _ _ => rfl
  refine .cons hatom ?_
  cases n with
  | zero =>
    intro ls rest e rest' _ _ he
    cases he
  | succ n => exact takes_parenthesized (tries_disjunction hop hc hd)

theorem negationLeaves_not (h : NegationLeaves c) : NegationLeaves (.not c) := by
  intro n ls rest d rest' hls hrest hd
  obtain ⟨l, ls, rfl, hl, hls⟩ := List.map_eq_cons_iff.mp hls
  cases n with
  | zero =>
    rw [List.cons_append, negation_zero_cons hl] at hd
    cases hd
  | succ m =>
    rw [List.cons_append, negation_succ_cons hl] at hd
    obtain ⟨x, mid, hx, hd⟩ := bind_eq_ok_iff.mp hd
    cases hd
    obtain ⟨hleaves, hfits⟩ := h m ls rest x rest' hls hrest hx
    refine ⟨hleaves, fun hends hrest' heq => ?_⟩
    have heq : Constraint.not (Term.bare x) = .not (Term.bare c) := heq
    rw [Constraint.not.injEq] at heq
    exact (hfits hends hrest' heq).imp_right Nat.succ_le_succ

theorem atomReading_not (c : Constraint) : AtomReading (.not c) where
  takes _ hc := by cases hc
  stops _ hls _ hd := by
    obtain ⟨⟨t, start, stop⟩, ls, rfl, ht, -⟩ := List.map_eq_cons_iff.mp hls
    cases ht
    cases hd

theorem isPrimary_bare (c : Constraint) : (Term.bare c).isPrimary = c.isPrimary := by
  cases c <;> rfl

section Comparison

variable {op : Operator}

theorem atomReading_comparison (hop : op.isComparison = true) (hc : AtomReading c) :
    AtomReading (.binary op c d) where
  takes n h := by
    rw [isPrimary, hop] at h
    cases h
  stops {n ls rest e rest'} _ hls _ he := by
    rw [tokens_comparison hop] at hls
    obtain ⟨ls₁, ls₂, rfl, h₁, h₂⟩ := List.map_eq_append_iff.mp hls
    obtain ⟨k, ls₂, rfl, hk, h₂⟩ := List.map_eq_cons_iff.mp h₂
    have hnext : Next (· ≠ .symbol .colon) (k :: ls₂ ++ rest) := by
      rw [List.cons_append, next_cons_iff, hk]
      exact op.token_ne_colon
    rw [List.append_assoc] at he
    cases hprimary : c.isPrimary with
    | true =>
      obtain ⟨rfl, he, -⟩ := hc.takes n hprimary ls₁ _ e rest' h₁ hnext he
      exact ⟨he, k, ls₂ ++ rest, op, rfl, hop, hk⟩
    | false => exact hc.stops hprimary h₁ hnext he

/-- Otherwise the text of the left operand would go on into the comparison. -/
theorem isPrimary_of_comparison (hc : AtomReading c) (h₁ : ls.map Lexeme.token = c.tokens)
    (hnext : Next (· ≠ .symbol .colon) rest) {e : Constraint}
    (h : comparison (constraintWithin n) (ls ++ rest) = .ok (e, rest'))
    (he : Term.bare e = Term.bare (.binary op c d)) : c.isPrimary = true := by
  obtain ⟨x, mid, hx, hcases⟩ := comparison_eq_ok h
  cases hprimary : c.isPrimary with
  | true => rfl
  | false =>
    obtain ⟨hx', hstuck⟩ := hc.stops hprimary h₁ hnext hx
    rcases hcases with ⟨hnone, -, -⟩ | ⟨l, tail, build, y, rfl, hl, -, rfl⟩
    · exact absurd hnone hstuck.not_ends
    · obtain ⟨l', tail', op', heq, hop', hl'⟩ := hstuck
      cases heq
      rw [hl', op'.comparison?_token hop'] at hl
      cases hl
      have he : Constraint.binary op' (Term.bare x) (Term.bare y) =
          .binary op (Term.bare c) (Term.bare d) := he
      rw [Constraint.binary.injEq] at he
      rw [← isPrimary_bare, he.2.1, isPrimary_bare, hprimary] at hx'
      cases hx'

/-- A comparison that is read from its own text has primary operands. -/
theorem fits_of_comparison (hop : op.isComparison = true) (hc : AtomReading c)
    (hd : AtomReading d) {ls₁ ls₂ : List Lexeme} {k : Lexeme}
    (h₁ : ls₁.map Lexeme.token = c.tokens) (h₂ : ls₂.map Lexeme.token = d.tokens)
    (hk : k.token = op.token) (hrest : Next Token.EndsComparison rest) {e : Constraint}
    (h : comparison (constraintWithin n) (ls₁ ++ k :: (ls₂ ++ rest)) = .ok (e, rest))
    (he : Term.bare e = Term.bare (.binary op c d)) : Fits (n + 1) (.binary op c d) := by
  have hnext : Next (· ≠ .symbol .colon) (k :: (ls₂ ++ rest)) := by
    rw [next_cons_iff, hk]
    exact op.token_ne_colon
  have hnext' : Next (· ≠ .symbol .colon) rest := hrest.mono fun _ ht => ht.1
  have hprimary := isPrimary_of_comparison hc h₁ hnext h he
  obtain ⟨x, mid, hx, hcases⟩ := comparison_eq_ok h
  obtain ⟨rfl, -, hfitsc⟩ := hc.takes n hprimary ls₁ _ x mid h₁ hnext hx
  rcases hcases with ⟨hnone, -, -⟩ | ⟨l, tail, build, y, heq, hl, hy, rfl⟩
  · exact absurd hnone (Stuck.not_ends ⟨k, _, op, rfl, hop, hk⟩)
  · cases heq
    rw [hk, op.comparison?_token hop] at hl
    cases hl
    have he : Constraint.binary op (Term.bare x) (Term.bare y) =
        .binary op (Term.bare c) (Term.bare d) := he
    rw [Constraint.binary.injEq] at he
    cases hprimary' : d.isPrimary with
    | true =>
      obtain ⟨-, -, hfitsd⟩ := hd.takes n hprimary' ls₂ rest y rest h₂ hnext' hy
      obtain ⟨hplainc, hnestingc⟩ := hfitsc he.2.1
      obtain ⟨hplaind, hnestingd⟩ := hfitsd he.2.2
      exact ⟨(isPlain_comparison hop).mpr ⟨⟨hplainc, hplaind⟩, hprimary, hprimary'⟩,
        (nesting_comparison_le_iff hop).mpr ⟨hnestingc, hnestingd⟩⟩
    | false =>
      have hstuck := (hd.stops hprimary' h₂ hnext' hy).2
      exact absurd (hrest.mono fun _ ht => ht.2) hstuck.not_ends

theorem negationLeaves_comparison (hop : op.isComparison = true) (hc : NegationLeaves c)
    (hc' : AtomReading c) (hd : AtomReading d) : NegationLeaves (.binary op c d) := by
  intro n ls rest e rest' hls hrest he
  rw [tokens_comparison hop] at hls
  obtain ⟨ls₁, ls₂, rfl, h₁, h₂⟩ := List.map_eq_append_iff.mp hls
  obtain ⟨k, ls₂, rfl, hk, h₂⟩ := List.map_eq_cons_iff.mp h₂
  have hnext : Next (· ≠ .symbol .colon) (k :: ls₂ ++ rest) := by
    rw [List.cons_append, next_cons_iff, hk]
    exact op.token_ne_colon
  rw [List.append_assoc] at he
  constructor
  · obtain ⟨hleaves, -⟩ := hc n ls₁ _ e rest' h₁ hnext he
    cases hleaves with
    | all => exact .stuck ⟨k, ls₂ ++ rest, op, rfl, hop, hk⟩
    | stuck hstuck => exact .stuck hstuck
    | operand _ hatom =>
      cases hprimary : d.isPrimary with
      | true =>
        obtain ⟨rfl, -⟩ := hd.takes _ hprimary ls₂ rest _ rest' h₂ hrest hatom
        exact .all rest'
      | false => exact .stuck (hd.stops hprimary h₂ hrest hatom).2
  · rintro hends rfl heq
    rcases negation_eq_ok he with ⟨l, tail, m, x, -, -, -, -, rfl⟩ | hcomparison
    · have heq : Constraint.not (Term.bare x) = .binary op (Term.bare c) (Term.bare d) := heq
      cases heq
    · exact fits_of_comparison hop hc' hd h₁ h₂ hk hends hcomparison heq

end Comparison

/-- By induction on the constraint, as a negation and as an atom. -/
theorem negationLeaves_of_legible (h : c.Legible) : NegationLeaves c ∧ AtomReading c := by
  have of_atom {c : Constraint} (hc : c.isPrimary = true) (h : AtomReading c) :
      NegationLeaves c ∧ AtomReading c := ⟨h.negationLeaves hc, h⟩
  induction c with
  | str text =>
    exact of_atom rfl (atomReading_of_reads rfl rfl rfl (fun _ => .of_token fun _ _ _ => rfl) rfl)
  | int n =>
    exact of_atom rfl (atomReading_of_reads rfl rfl rfl (fun _ => .of_token fun _ _ _ => rfl) rfl)
  | bool b =>
    cases b <;>
      exact of_atom rfl (atomReading_of_reads rfl rfl rfl (fun _ => .of_token fun _ _ _ => rfl) rfl)
  | fail => cases h
  | entity e =>
    cases h with
    | entity he htoken =>
      exact of_atom rfl
        (atomReading_of_reads rfl rfl rfl (fun _ => reads_atom_entity he htoken) rfl)
  | call name args ih =>
    cases h with
    | call _ hargs =>
      exact of_atom rfl (atomReading_call fun arg harg => (ih arg harg (hargs arg harg)).1)
  | not c ih =>
    cases h with
    | not h => exact ⟨negationLeaves_not (ih h).1, atomReading_not c⟩
  | binary op l r ihl ihr =>
    cases h with
    | binary hl hr =>
      obtain ⟨hnl, hal⟩ := ihl hl
      obtain ⟨hnr, har⟩ := ihr hr
      cases hop : op.isComparison with
      | false => exact of_atom (by rw [isPrimary, hop]; rfl) (atomReading_connective hop hnl hnr)
      | true => exact ⟨negationLeaves_comparison hop hnl hal har, atomReading_comparison hop hal⟩

/-- Only a constraint that fits is what its text is read as. -/
theorem fits_of_constraint (h : c.Legible) (hls : ls.map Lexeme.token = c.tokens)
    (hrest : Next Token.EndsConstraint rest) (hc : constraintWithin n (ls ++ rest) = .ok (d, rest'))
    (hrest' : Next (comparison? · = none) rest') (hd : Term.bare d = Term.bare c) : Fits n c := by
  rcases tries_constraint (negationLeaves_of_legible h).1 ls rest d rest' hls hrest hc with
    ⟨-, hfits⟩ | hstuck
  · exact hfits hd
  · exact absurd hrest' hstuck.not_ends

end Parser

end AuthLogic
