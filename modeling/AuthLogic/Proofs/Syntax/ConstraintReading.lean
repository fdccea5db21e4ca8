import AuthLogic.Proofs.Syntax.FactReading

/-! # Reading constraints back

The text of a plain constraint is read as the constraint itself, if there are as
many levels as it is nested deep.
-/

namespace AuthLogic

open Constraint

namespace Token

/-- Tokens that go on neither with an entity nor with a comparison. -/
def EndsComparison (t : Token) : Prop :=
  t ≠ .symbol .colon ∧ Parser.comparison? t = none

/-- Tokens that do not go on with a chain. -/
def EndsChain (t : Token) : Prop :=
  t ≠ .keyword .and ∧ t ≠ .keyword .or

def EndsConstraint (t : Token) : Prop :=
  t.EndsComparison ∧ t.EndsChain

theorem endsConstraint_symbol {s : Symbol} (h : s ≠ .colon)
    (hs : Parser.comparison? (symbol s) = none) : (symbol s).EndsConstraint := by
  simp [EndsConstraint, EndsComparison, EndsChain, h, hs]

end Token

theorem Operator.comparison?_token {op : Operator} (h : op.isComparison = true) :
    Parser.comparison? op.token = some (.binary op) := by
  cases op <;> first | rfl | cases h

theorem Operator.token_ne_colon (op : Operator) : op.token ≠ .symbol .colon := by
  cases op <;> simp [token]

theorem Operator.endsComparison_token {op : Operator} (h : op.isComparison = false) :
    op.token.EndsComparison := by
  cases op <;> first | exact ⟨by simp [token], rfl⟩ | cases h

namespace Constraint

theorem tokens_connective {op : Operator} (hop : op.isComparison = false) (l r : Constraint) :
    (binary op l r).tokens =
      .symbol .lparen :: ((l.tokens ++ op.token :: r.tokens) ++ [.symbol .rparen]) := by
  rw [tokens, hop, if_neg Bool.false_ne_true, List.append_assoc]
  rfl

theorem tokens_comparison {op : Operator} (hop : op.isComparison = true) (l r : Constraint) :
    (binary op l r).tokens = l.tokens ++ op.token :: r.tokens := by
  rw [tokens, hop, if_pos rfl]

/-- The text of a constraint never starts with a closing parenthesis. -/
theorem exists_head_tokens (c : Constraint) :
    ∃ t ts, c.tokens = t :: ts ∧ t ≠ .symbol .rparen := by
  induction c with
  | bool b => cases b <;> exact ⟨_, _, rfl, by simp⟩
  | entity e => exact ⟨_, _, rfl, e.token_ne_symbol .rparen⟩
  | binary op l r ihl =>
    unfold tokens
    split
    · obtain ⟨t, ts, hl, ht⟩ := ihl
      exact ⟨t, _, by rw [hl, List.cons_append], ht⟩
    · exact ⟨_, _, rfl, by simp⟩
  | _ => exact ⟨_, _, rfl, by simp⟩

theorem head_tokens_ne_not {c : Constraint} (h : c.isPrimary = true) :
    ∀ t ∈ c.tokens.head?, t ≠ .keyword .not := by
  intro t ht
  cases c with
  | bool b => cases b <;> cases ht <;> simp
  | entity e =>
    cases ht
    rcases e.token_eq with ⟨text, he⟩ | ⟨text, he⟩ <;> simp [he]
  | not c => cases h
  | binary op l r =>
    have hop : op.isComparison = false := by simpa [isPrimary] using h
    rw [tokens, hop, if_neg Bool.false_ne_true] at ht
    cases ht
    simp
  | _ =>
    cases ht
    simp

end Constraint

namespace Parser

variable {p inner : Parser Constraint} {ls rest mid : List Lexeme} {c d : Constraint} {l : Lexeme}

theorem next_endsConstraint_symbol {s : Symbol} (hl : l.token = .symbol s) (h : s ≠ .colon)
    (hs : comparison? (.symbol s) = none) : Next Token.EndsConstraint (l :: ls) := by
  rw [next_cons_iff, hl]
  exact Token.endsConstraint_symbol h hs

/-! ## Comparisons -/

theorem comparison_of_ends (hc : atom inner ls = .ok (c, rest))
    (hrest : Next Token.EndsComparison rest) : comparison inner ls = .ok (c, rest) := by
  have hnone : (rest.head?.map Lexeme.token).bind comparison? = none := by
    cases rest with
    | nil => rfl
    | cons l rest => exact (next_cons_iff.mp hrest).2
  rw [comparison, bind_of_eq_ok hc, liftM_eq, bind_of_eq_ok (p := peek) rfl, hnone]
  rfl

theorem comparison_of_cons {build : Constraint → Constraint → Constraint}
    (hc : atom inner ls = .ok (c, l :: mid)) (hl : comparison? l.token = some build)
    (hd : atom inner mid = .ok (d, rest)) : comparison inner ls = .ok (build c d, rest) := by
  have hsome : ((l :: mid).head?.map Lexeme.token).bind comparison? = some build := hl
  have htail : skip (l :: mid) = .ok ((), mid) := rfl
  rw [comparison, bind_of_eq_ok hc, liftM_eq, bind_of_eq_ok (p := peek) rfl, hsome]
  exact (bind_of_eq_ok htail).trans (bind_of_eq_ok hd)

theorem comparison_eq_ok (h : comparison inner ls = .ok (c, rest)) :
    ∃ d mid, atom inner ls = .ok (d, mid) ∧
      ((Next (comparison? · = none) mid ∧ c = d ∧ rest = mid) ∨
        ∃ l tail build e, mid = l :: tail ∧ comparison? l.token = some build ∧
          atom inner tail = .ok (e, rest) ∧ c = build d e) := by
  obtain ⟨d, mid, hd, h⟩ := bind_eq_ok_iff.mp h
  refine ⟨d, mid, hd, ?_⟩
  rw [liftM_eq, bind_of_eq_ok (p := peek) rfl] at h
  cases mid with
  | nil =>
    cases h
    exact .inl ⟨next_nil _, rfl, rfl⟩
  | cons l tail =>
    cases hl : comparison? l.token with
    | none =>
      have hnone : ((l :: tail).head?.map Lexeme.token).bind comparison? = none := hl
      rw [hnone] at h
      cases h
      exact .inl ⟨next_cons_iff.mpr hl, rfl, rfl⟩
    | some build =>
      have hsome : ((l :: tail).head?.map Lexeme.token).bind comparison? = some build := hl
      rw [hsome] at h
      obtain ⟨u, mid, hu, h⟩ := bind_eq_ok_iff.mp h
      cases hu
      obtain ⟨e, mid, he, h⟩ := bind_eq_ok_iff.mp h
      cases h
      exact .inr ⟨l, tail, build, e, rfl, hl, he, rfl⟩

/-! ## Negations -/

theorem negation_of_ne (n : Nat) (h : Next (· ≠ .keyword .not) ls) :
    negationWithin n ls = comparison (constraintWithin n) ls := by
  rw [negationWithin_eq, bind_of_eq_ok (eat_of_ne h)]
  rfl

theorem negation_zero_cons (hl : l.token = .keyword .not) :
    negationWithin 0 (l :: ls) = fail .nestingTooDeep ls := by
  rw [negationWithin, bind_of_eq_ok (eat_cons hl)]
  rfl

theorem negation_succ_cons {n : Nat} (hl : l.token = .keyword .not) :
    negationWithin (n + 1) (l :: ls) = (negationWithin n >>= fun c => pure (.not c)) ls := by
  rw [negationWithin, bind_of_eq_ok (eat_cons hl)]
  rfl

/-! ## Chains -/

section Chain

variable {k : Keyword} {op : Operator}

theorem chain_of_ne (hc : p ls = .ok (c, rest)) (hrest : Next (· ≠ .keyword k) rest) :
    chain k op p ls = .ok (c, rest) := by
  rw [chain, bind_of_eq_ok hc, liftM_eq, bind_of_eq_ok (many_eat_of_ne hrest)]
  rfl

theorem chain_of_cons (hc : p ls = .ok (c, l :: mid)) (hl : l.token = .keyword k)
    (hd : p mid = .ok (d, rest)) (hrest : Next (· ≠ .keyword k) rest) :
    chain k op p ls = .ok (.binary op c d, rest) := by
  have hmany : many (eat (.keyword k)) p (l :: mid) = .ok ([d], rest) := by
    rw [many_eq]
    exact manyWithin_cons (eat_cons hl) hd (manyWithin_eat_of_ne mid hrest)
  rw [chain, bind_of_eq_ok hc, liftM_eq, bind_of_eq_ok hmany]
  rfl

/-- A chain starts with an operand, and has another one wherever there is an operator. -/
theorem chain_eq_ok (h : chain k op p ls = .ok (c, rest)) :
    ∃ d mid, p ls = .ok (d, mid) ∧ ∀ l tail, mid = l :: tail → l.token = .keyword k →
      ∃ e rest', p tail = .ok (e, rest') := by
  obtain ⟨d, mid, hd, h⟩ := bind_eq_ok_iff.mp h
  refine ⟨d, mid, hd, ?_⟩
  rintro l tail rfl hl
  obtain ⟨ds, mid, hmany, -⟩ := bind_eq_ok_iff.mp h
  have hmany : manyWithin (eat (.keyword k)) p (l :: tail) (l :: tail) = .ok (ds, mid) := hmany
  rw [manyWithin, bind_of_eq_ok (eat_cons hl), if_pos rfl] at hmany
  obtain ⟨e, rest', he, -⟩ := bind_eq_ok_iff.mp hmany
  exact ⟨e, rest', he⟩

theorem disjunction_of_ends (hc : p ls = .ok (c, rest)) (hrest : Next Token.EndsChain rest) :
    disjunction p ls = .ok (c, rest) :=
  chain_of_ne (chain_of_ne hc (hrest.mono fun _ ht => ht.1)) (hrest.mono fun _ ht => ht.2)

theorem disjunction_of_cons (hop : op.isComparison = false) (hc : p ls = .ok (c, l :: mid))
    (hl : l.token = op.token) (hd : p mid = .ok (d, rest)) (hrest : Next Token.EndsChain rest) :
    disjunction p ls = .ok (.binary op c d, rest) := by
  have hand := hrest.mono fun _ ht => ht.1
  have hor := hrest.mono fun _ ht => ht.2
  cases op with
  | and => exact chain_of_ne (chain_of_cons hc hl hd hand) hor
  | or =>
    have hne : Next (· ≠ .keyword .and) (l :: mid) := by
      rw [next_cons_iff, hl]
      simp [Operator.token]
    exact chain_of_cons (chain_of_ne hc hne) hl (chain_of_ne hd hand) hor
  | _ => cases hop

theorem disjunction_eq_ok (h : disjunction p ls = .ok (c, rest)) :
    ∃ d mid, p ls = .ok (d, mid) ∧ ∀ (op : Operator) l tail, op.isComparison = false →
      mid = l :: tail → l.token = op.token → ∃ e rest', p tail = .ok (e, rest') := by
  obtain ⟨c', mid', hc', hor⟩ := chain_eq_ok h
  obtain ⟨d, mid, hd, hand⟩ := chain_eq_ok hc'
  refine ⟨d, mid, hd, ?_⟩
  rintro op l tail hop rfl hl
  cases op with
  | and => exact hand l tail rfl hl
  | or =>
    have hne : Next (· ≠ .keyword .and) (l :: tail) := by
      rw [next_cons_iff, hl]
      simp [Operator.token]
    have heq : conjunction p ls = .ok (d, l :: tail) := chain_of_ne hd hne
    rw [hc'] at heq
    cases heq
    obtain ⟨e, rest', he⟩ := hor l tail rfl hl
    obtain ⟨e, rest', he, -⟩ := chain_eq_ok he
    exact ⟨e, rest', he⟩
  | _ => cases hop

end Chain

/-! ## Plain constraints -/

theorem bare_call (name : String) (args : List Constraint) :
    Term.bare (Constraint.call name args) = .call name (args.map Term.bare) :=
  congrArg _ (replaceList_eq_map _ args)

theorem next_ne_not {ts : List Token} (hc : c.isPrimary = true)
    (hls : ls.map Lexeme.token = c.tokens ++ ts) : Next (· ≠ .keyword .not) (ls ++ rest) := by
  obtain ⟨t, us, htokens, -⟩ := c.exists_head_tokens
  have hne := head_tokens_ne_not hc
  rw [htokens] at hls hne
  obtain ⟨l, ls, rfl, hl, -⟩ := List.map_eq_cons_iff.mp hls
  rw [List.cons_append, next_cons_iff, hl]
  exact hne t rfl

theorem reads_negation_of_atom {n : Nat} (hc : c.isPrimary = true)
    (h : Reads (· ≠ .symbol .colon) (atom (constraintWithin n)) c.tokens (Term.bare c)) :
    Reads Token.EndsComparison (negationWithin n) c.tokens (Term.bare c) := by
  intro ls rest hls hrest
  rw [negation_of_ne n (next_ne_not hc (hls.trans (List.append_nil _).symm))]
  exact comparison_of_ends (h ls rest hls (hrest.mono fun _ ht => ht.1)) hrest

theorem reads_constraint_of_negation {n : Nat}
    (h : ∀ {m}, c.nesting ≤ m + 1 →
      Reads Token.EndsComparison (negationWithin m) c.tokens (Term.bare c))
    (hn : c.nesting ≤ n) :
    Reads Token.EndsConstraint (constraintWithin n) c.tokens (Term.bare c) := by
  obtain ⟨m, rfl⟩ : ∃ m, n = m + 1 := Nat.exists_eq_add_one.mpr (Nat.le_trans c.one_le_nesting hn)
  intro ls rest hls hrest
  exact disjunction_of_ends (h hn ls rest hls (hrest.mono fun _ ht => ht.1))
    (hrest.mono fun _ ht => ht.2)

theorem reads_atom_entity {e : Entity} {name : String} (he : e.Legible)
    (htoken : e.token = .name name) :
    Reads (· ≠ .symbol .colon) (atom inner) [e.token] (Term.bare (Constraint.entity e)) := by
  intro ls rest hls hrest
  have hread := reads_entity he ls rest hls hrest
  obtain ⟨⟨t, start, stop⟩, rfl, ht⟩ := List.map_eq_singleton_iff.mp hls
  rw [htoken] at ht
  cases ht
  have hentity : (entity >>= fun e => pure (Constraint.entity e))
      ([⟨.name name, start, stop⟩] ++ rest) = .ok (.entity (Term.bare e), rest) :=
    bind_of_eq_ok hread
  exact hentity

theorem reads_atom_call {F : Token → Prop} (name : String) {args : List Constraint}
    (h : ∀ arg ∈ args, Reads Token.EndsConstraint inner arg.tokens (Term.bare arg)) :
    Reads F (atom inner) (Constraint.call name args).tokens
      (Term.bare (Constraint.call name args)) := by
  have hargs := reads_untilClosed h (Token.endsConstraint_symbol (by simp) rfl)
    (Token.endsConstraint_symbol (by simp) rfl)
    fun arg _ => arg.exists_head_tokens
  rw [bare_call, tokens, tokensList_eq_map]
  exact .cons (fun _ _ _ => rfl) ((Reads.expect (.symbol .lparen)).bind
    (q := fun _ => untilClosed inner >>= fun args => pure (Constraint.call name args))
    ((hargs.mono fun _ _ => trivial).map (Constraint.call name)) (fun _ _ => trivial)
    fun _ _ => trivial)

theorem reads_atom_parenthesized {F : Token → Prop} {ts : List Token}
    (h : Reads Token.EndsConstraint inner ts c) :
    Reads F (atom inner) (.symbol .lparen :: (ts ++ [.symbol .rparen])) c :=
  .cons (fun _ _ _ => rfl) (h.bind_cons
    (q := fun c => expect (.symbol .rparen) >>= fun _ => pure c)
    ((Reads.expect (.symbol .rparen)).map fun _ => c) (Token.endsConstraint_symbol (by simp) rfl))

theorem reads_disjunction_of {op : Operator} (hop : op.isComparison = false)
    {ts us : List Token} (hc : Reads Token.EndsComparison p ts c)
    (hd : Reads Token.EndsComparison p us d) :
    Reads Token.EndsConstraint (disjunction p) (ts ++ op.token :: us) (.binary op c d) := by
  intro ls rest hls hrest
  obtain ⟨ls₁, ls₂, rfl, h₁, h₂⟩ := List.map_eq_append_iff.mp hls
  obtain ⟨k, ls₂, rfl, hk, h₂⟩ := List.map_eq_cons_iff.mp h₂
  have hnext : Next Token.EndsComparison (k :: ls₂ ++ rest) := by
    rw [List.cons_append, next_cons_iff, hk]
    exact op.endsComparison_token hop
  rw [List.append_assoc]
  exact disjunction_of_cons hop (hc ls₁ _ h₁ hnext) hk
    (hd ls₂ rest h₂ (hrest.mono fun _ ht => ht.1)) (hrest.mono fun _ ht => ht.2)

theorem reads_comparison_of {op : Operator} (hop : op.isComparison = true)
    {ts us : List Token} (hc : Reads (· ≠ .symbol .colon) (atom inner) ts c)
    (hd : Reads (· ≠ .symbol .colon) (atom inner) us d) :
    Reads Token.EndsComparison (comparison inner) (ts ++ op.token :: us) (.binary op c d) := by
  intro ls rest hls hrest
  obtain ⟨ls₁, ls₂, rfl, h₁, h₂⟩ := List.map_eq_append_iff.mp hls
  obtain ⟨k, ls₂, rfl, hk, h₂⟩ := List.map_eq_cons_iff.mp h₂
  have hnext : Next (· ≠ .symbol .colon) (k :: ls₂ ++ rest) := by
    rw [List.cons_append, next_cons_iff, hk]
    exact op.token_ne_colon
  have hbuild : comparison? k.token = some (.binary op) := by
    rw [hk, op.comparison?_token hop]
  rw [List.append_assoc]
  exact comparison_of_cons (hc ls₁ _ h₁ hnext) hbuild
    (hd ls₂ rest h₂ (hrest.mono fun _ ht => ht.1))

/-- By induction on the constraint, as a negation and, where it is primary, as an atom. -/
theorem reads_negation (hl : c.Legible) (hc : c.isPlain = true) {n : Nat} (hn : c.nesting ≤ n + 1) :
    Reads Token.EndsComparison (negationWithin n) c.tokens (Term.bare c) ∧
      (c.isPrimary = true →
        Reads (· ≠ .symbol .colon) (atom (constraintWithin n)) c.tokens (Term.bare c)) := by
  have of_atom {c : Constraint} {n : Nat} (hp : c.isPrimary = true)
      (h : Reads (· ≠ .symbol .colon) (atom (constraintWithin n)) c.tokens (Term.bare c)) :
      Reads Token.EndsComparison (negationWithin n) c.tokens (Term.bare c) ∧ (c.isPrimary = true →
        Reads (· ≠ .symbol .colon) (atom (constraintWithin n)) c.tokens (Term.bare c)) :=
    ⟨reads_negation_of_atom hp h, fun _ => h⟩
  induction c generalizing n with
  | str text => exact of_atom rfl (.of_token fun _ _ _ => rfl)
  | int m => exact of_atom rfl (.of_token fun _ _ _ => rfl)
  | bool b => cases b <;> exact of_atom rfl (.of_token fun _ _ _ => rfl)
  | fail => cases hl
  | entity e =>
    cases hl with
    | entity he htoken => exact of_atom rfl (reads_atom_entity he htoken)
  | call name args ih =>
    cases hl with
    | call hname hargs =>
      rw [isPlain, isPlainList_eq_all, List.all_eq_true] at hc
      have hn := nestingList_le_iff.mp (Nat.le_of_succ_le_succ hn)
      refine of_atom rfl (reads_atom_call name fun arg harg => ?_)
      exact reads_constraint_of_negation
        (fun hm => (ih arg harg (hargs arg harg) (hc arg harg) hm).1) (hn arg harg)
  | not c ih =>
    cases hl with
    | not hl =>
      have hn := Nat.le_of_succ_le_succ hn
      obtain ⟨m, rfl⟩ : ∃ m, n = m + 1 :=
        Nat.exists_eq_add_one.mpr (Nat.le_trans c.one_le_nesting hn)
      have hread := (ih hl hc hn).1
      refine ⟨.cons (fun _ _ _ => negation_succ_cons rfl) (hread.map Constraint.not), ?_⟩
      intro h
      cases h
  | binary op l r ihl ihr =>
    cases hl with
    | binary hll hlr =>
      cases hop : op.isComparison with
      | false =>
        obtain ⟨hcl, hcr⟩ := (isPlain_connective hop).mp hc
        obtain ⟨hnl, hnr⟩ := (nesting_connective_le_iff hop).mp hn
        obtain ⟨m, rfl⟩ : ∃ m, n = m + 1 :=
          Nat.exists_eq_add_one.mpr (Nat.le_trans l.one_le_nesting hnl)
        have hread := reads_disjunction_of hop (ihl hll hcl hnl).1 (ihr hlr hcr hnr).1
        refine of_atom (by rw [isPrimary, hop]; rfl) ?_
        rw [tokens_connective hop]
        exact reads_atom_parenthesized hread
      | true =>
        obtain ⟨⟨hcl, hcr⟩, hpl, hpr⟩ := (isPlain_comparison hop).mp hc
        obtain ⟨hnl, hnr⟩ := (nesting_comparison_le_iff hop).mp hn
        have hread := reads_comparison_of hop ((ihl hll hcl hnl).2 hpl) ((ihr hlr hcr hnr).2 hpr)
        rw [tokens_comparison hop]
        refine ⟨fun ls rest hls hrest => ?_, fun h => ?_⟩
        · rw [negation_of_ne n (next_ne_not hpl hls)]
          exact hread ls rest hls hrest
        · rw [isPrimary, hop] at h
          cases h

theorem reads_constraint (h : c.Legible) {n : Nat} (hc : c.Fits n) :
    Reads Token.EndsConstraint (constraintWithin n) c.tokens (Term.bare c) :=
  reads_constraint_of_negation (fun hm => (reads_negation h hc.1 hm).1) hc.2

end Parser

end AuthLogic
