import AuthLogic.Proofs.Syntax.ConstraintReading
import AuthLogic.Proofs.Syntax.Derivation

/-! # Unambiguity

Different derivation trees of an assertion derive different tokens. Inside of an
assertion, a phrase ends where a token follows that does not go on with it.
-/

namespace AuthLogic

open Token (EndsFact EndsComparison EndsConstraint)

/-- The first token is of some kind, if there is one. -/
def Starts (F : Token → Prop) (ts : List Token) : Prop :=
  ∀ t ∈ ts.head?, F t

/-- A tree is told by its tokens, in front of tokens of some kind. -/
def Determines {δ : Type} (F : Token → Prop) (tokens : δ → List Token) (d : δ) : Prop :=
  ∀ d' rest rest', Starts F rest → Starts F rest' → tokens d ++ rest = tokens d' ++ rest' →
    d = d' ∧ rest = rest'

section Combination

variable {δ ε : Type} {F G : Token → Prop} {t : Token} {ts rest : List Token}
  {tokens : δ → List Token} {tokens' : ε → List Token}

theorem starts_nil : Starts F [] := fun _ ht => by cases ht

theorem starts_cons_iff : Starts F (t :: ts) ↔ F t := by
  simp [Starts]

theorem Starts.mono (h : Starts F ts) (hFG : ∀ t, F t → G t) : Starts G ts :=
  fun t ht => hFG t (h t ht)

theorem Starts.append (hts : Starts F ts) (hrest : Starts F rest) : Starts F (ts ++ rest) := by
  cases ts with
  | nil => exact hrest
  | cons t ts => exact starts_cons_iff.mpr (starts_cons_iff.mp hts)

/-- One tree after another. -/
theorem Determines.pair {d : δ} {e : ε} (hd : Determines F tokens d)
    (he : Determines G tokens' e) (hFG : ∀ e rest, Starts G rest → Starts F (tokens' e ++ rest)) :
    Determines G (fun p : δ × ε => tokens p.1 ++ tokens' p.2) (d, e) := by
  intro ⟨d', e'⟩ rest rest' hrest hrest' heq
  rw [List.append_assoc, List.append_assoc] at heq
  obtain ⟨rfl, htail⟩ := hd d' _ _ (hFG e rest hrest) (hFG e' rest' hrest') heq
  obtain ⟨rfl, rfl⟩ := he e' rest rest' hrest hrest' htail
  exact ⟨rfl, rfl⟩

/-! ## Lists -/

theorem starts_flatMap (ht : F t) (ds : List δ) :
    Starts F (ds.flatMap fun d => t :: tokens d) := by
  cases ds with
  | nil => exact starts_nil
  | cons d ds => exact starts_cons_iff.mpr ht

/-- Trees that each follow a token. -/
theorem determines_flatMap {ds : List δ} (h : ∀ d ∈ ds, Determines F tokens d) (ht : F t) :
    Determines (fun u => F u ∧ u ≠ t) (List.flatMap fun d => t :: tokens d) ds := by
  have hstop {ts us : List Token} (hs : Starts (fun u => F u ∧ u ≠ t) ts) : ts ≠ t :: us := by
    rintro rfl
    exact (starts_cons_iff.mp hs).2 rfl
  induction ds with
  | nil =>
    intro ds' rest rest' hrest hrest' heq
    cases ds' with
    | nil => exact ⟨rfl, heq⟩
    | cons d' ds' => exact absurd heq (hstop hrest)
  | cons d ds ih =>
    obtain ⟨hd, hds⟩ := List.forall_mem_cons.mp h
    intro ds' rest rest' hrest hrest' heq
    cases ds' with
    | nil => exact absurd heq.symm (hstop hrest')
    | cons d' ds' =>
      obtain ⟨hpair, rfl⟩ := hd.pair (ih hds)
        (fun es _ h => (starts_flatMap ht es).append (h.mono fun _ hu => hu.1)) (d', ds') rest
        rest' hrest hrest' (List.cons.inj heq).2
      cases hpair
      exact ⟨rfl, rfl⟩

/-- Trees that stand next to each other, in front of what none of them starts with. -/
theorem determines_adjacent (h : ∀ d, Determines F tokens d)
    (hhead : ∀ d, ∃ u us, tokens d = u :: us ∧ F u ∧ ¬ G u) (hGF : ∀ t, G t → F t) (ds : List δ) :
    Determines G (List.flatMap tokens) ds := by
  have hstop (d : δ) (ts us : List Token) (hus : Starts G us) : us ≠ tokens d ++ ts := by
    obtain ⟨u, vs, hd, -, hu⟩ := hhead d
    rintro rfl
    rw [hd] at hus
    exact hu (starts_cons_iff.mp hus)
  have hstarts (ds : List δ) (us : List Token) (hus : Starts G us) :
      Starts F (ds.flatMap tokens ++ us) := by
    cases ds with
    | nil => exact hus.mono hGF
    | cons d ds =>
      obtain ⟨u, vs, hd, hu, -⟩ := hhead d
      rw [List.flatMap_cons, hd]
      exact starts_cons_iff.mpr hu
  induction ds with
  | nil =>
    intro ds' rest rest' hrest hrest' heq
    cases ds' with
    | nil => exact ⟨rfl, heq⟩
    | cons d' ds' => exact absurd (heq.trans (List.append_assoc ..)) (hstop d' _ rest hrest)
  | cons d ds ih =>
    intro ds' rest rest' hrest hrest' heq
    cases ds' with
    | nil => exact absurd (heq.symm.trans (List.append_assoc ..)) (hstop d _ rest' hrest')
    | cons d' ds' =>
      obtain ⟨hpair, rfl⟩ := (h d).pair ih hstarts (d', ds') rest rest' hrest hrest' heq
      cases hpair
      exact ⟨rfl, rfl⟩

/-- A tree, and further ones that each follow a token. -/
theorem determines_separated {d : δ} {ds : List δ} (hd : Determines F tokens d)
    (hds : ∀ d ∈ ds, Determines F tokens d) (ht : F t) :
    Determines (fun u => F u ∧ u ≠ t)
      (fun p : δ × List δ => tokens p.1 ++ p.2.flatMap fun d => t :: tokens d) (d, ds) :=
  hd.pair (determines_flatMap hds ht) fun es _ h =>
    (starts_flatMap ht es).append (h.mono fun _ hu => hu.1)

theorem commas_map_cons (d : δ) (ds : List δ) :
    commas ((d :: ds).map tokens) =
      tokens d ++ ds.flatMap fun d => .symbol .comma :: tokens d := by
  rw [List.map_cons, Parser.commas_cons, List.flatMap_map]

theorem determines_closed {ds : List δ} (h : ∀ d ∈ ds, Determines F tokens d)
    (hF : F (.symbol .comma)) (hF' : F (.symbol .rparen))
    (hhead : ∀ d, ∃ u us, tokens d = u :: us ∧ u ≠ .symbol .rparen) :
    Determines (fun _ => True) (fun ds => commas (ds.map tokens) ++ [.symbol .rparen]) ds := by
  have hopen (e : δ) (es : List δ) (rest us : List Token) :
      commas ((e :: es).map tokens) ++ rest ≠ .symbol .rparen :: us := by
    obtain ⟨u, us, hu, hne⟩ := hhead e
    rw [commas_map_cons, hu]
    intro heq
    exact hne (List.cons.inj heq).1
  intro ds' rest rest' _ _ heq
  dsimp only at heq
  rw [List.append_assoc, List.append_assoc] at heq
  cases ds with
  | nil =>
    cases ds' with
    | nil => exact ⟨rfl, (List.cons.inj heq).2⟩
    | cons d' ds' => exact absurd heq.symm (hopen d' ds' _ _)
  | cons d ds =>
    cases ds' with
    | nil => exact absurd heq (hopen d ds _ _)
    | cons d' ds' =>
      obtain ⟨hd, hds⟩ := List.forall_mem_cons.mp h
      have hclose (rest : List Token) :
          Starts (fun u => F u ∧ u ≠ .symbol .comma) (.symbol .rparen :: rest) :=
        starts_cons_iff.mpr ⟨hF', by simp⟩
      rw [commas_map_cons, commas_map_cons] at heq
      obtain ⟨hpair, htail⟩ := determines_separated hd hds hF (d', ds') _ _ (hclose rest)
        (hclose rest') heq
      cases hpair
      exact ⟨rfl, (List.cons.inj htail).2⟩

end Combination

/-! ## Facts -/

theorem NameTree.determines (d : NameTree) : Determines (· ≠ .symbol .colon) tokens d := by
  intro d' rest rest' hrest hrest' heq
  obtain ⟨text, type?⟩ := d
  obtain ⟨text', type'?⟩ := d'
  -- A colon after the name belongs to it.
  cases type? with
  | none =>
    cases type'? with
    | none =>
      cases heq
      exact ⟨rfl, rfl⟩
    | some type' =>
      cases heq
      exact absurd rfl (starts_cons_iff.mp hrest)
  | some type =>
    cases type'? with
    | none =>
      cases heq
      exact absurd rfl (starts_cons_iff.mp hrest')
    | some type' =>
      cases heq
      exact ⟨rfl, rfl⟩

namespace EntityTree

theorem determines (d : EntityTree) : Determines (· ≠ .symbol .colon) tokens d := by
  intro d' rest rest' hrest hrest' heq
  cases d with
  | name d =>
    cases d' with
    | name d' =>
      obtain ⟨rfl, rfl⟩ := d.determines d' rest rest' hrest hrest' heq
      exact ⟨rfl, rfl⟩
    | string text =>
      obtain ⟨ts, hd⟩ := d.tokens_eq_cons
      rw [tokens, hd] at heq
      cases heq
  | string text =>
    cases d' with
    | name d' =>
      obtain ⟨ts, hd⟩ := d'.tokens_eq_cons
      rw [tokens, tokens, hd] at heq
      cases heq
    | string text' =>
      cases heq
      exact ⟨rfl, rfl⟩

theorem exists_head_not_endsFact (d : EntityTree) :
    ∃ t ts, d.tokens = t :: ts ∧ t ≠ .symbol .colon ∧ ¬ EndsFact t := by
  obtain ⟨t, ts, hd, ht⟩ := d.exists_head
  refine ⟨t, ts, hd, ?_⟩
  rcases ht with ⟨text, rfl⟩ | ⟨text, rfl⟩
  · exact ⟨by simp, fun h => (h.2.2 text).1 rfl⟩
  · exact ⟨by simp, fun h => (h.2.2 text).2 rfl⟩

theorem starts_flatMap (ds : List EntityTree) (s : Symbol) :
    Starts (· ≠ .symbol s) (ds.flatMap tokens) := by
  cases ds with
  | nil => exact starts_nil
  | cons d ds =>
    obtain ⟨t, ts, hd, ht⟩ := d.exists_head_ne_symbol s
    rw [List.flatMap_cons, hd]
    exact starts_cons_iff.mpr ht

theorem determines_flatMap (ds : List EntityTree) : Determines EndsFact (List.flatMap tokens) ds :=
  determines_adjacent determines exists_head_not_endsFact (fun _ h => h.1) ds

end EntityTree

theorem DepthTree.token_inj {d d' : DepthTree} (h : d.token = d'.token) : d = d' := by
  cases d <;> cases d' <;> cases h <;> rfl

theorem ArgsTree.determines (d : ArgsTree) : Determines EndsFact tokens d := by
  have hbare (ds : List EntityTree) {rest us : List Token} (hrest : Starts EndsFact rest) :
      ds.flatMap EntityTree.tokens ++ rest ≠ .symbol .lparen :: us := by
    intro heq
    have hs := (EntityTree.starts_flatMap ds .lparen).append (hrest.mono fun _ ht => ht.2.1)
    rw [heq] at hs
    exact starts_cons_iff.mp hs rfl
  intro d' rest rest' hrest hrest' heq
  cases d with
  | listed es =>
    cases d' with
    | listed es' =>
      obtain ⟨rfl, rfl⟩ := determines_closed (fun e _ => e.determines) (by simp) (by simp)
        (fun e => e.exists_head_ne_symbol .rparen) es' rest rest' (hrest.mono fun _ _ => trivial)
        (hrest'.mono fun _ _ => trivial) (List.cons.inj heq).2
      exact ⟨rfl, rfl⟩
    | bare es' => exact absurd heq.symm (hbare es' hrest')
  | bare es =>
    cases d' with
    | listed es' => exact absurd heq (hbare es hrest)
    | bare es' =>
      obtain ⟨rfl, rfl⟩ := EntityTree.determines_flatMap es es' rest rest' hrest hrest' heq
      exact ⟨rfl, rfl⟩

theorem VerbPhraseTree.starts_ne_colon (d : VerbPhraseTree) (rest : List Token) :
    Starts (· ≠ .symbol .colon) (d.tokens ++ rest) := by
  obtain ⟨t, ts, hd, ht⟩ := d.exists_head_ne_symbol .colon
  rw [hd]
  exact starts_cons_iff.mpr ht

theorem VerbPhraseTree.determines (d : VerbPhraseTree) : Determines EndsFact tokens d := by
  induction d with
  | canActAs role =>
    intro d' rest rest' hrest hrest' heq
    cases d' with
    | canActAs role' =>
      obtain ⟨rfl, rfl⟩ := role.determines role' rest rest' (hrest.mono fun _ ht => ht.1)
        (hrest'.mono fun _ ht => ht.1) (List.cons.inj heq).2
      exact ⟨rfl, rfl⟩
    | _ => cases heq
  | canSay depth subject object ih =>
    intro d' rest rest' hrest hrest' heq
    cases d' with
    | canSay depth' subject' object' =>
      obtain ⟨hdepth, heq⟩ := List.cons.inj (List.cons.inj heq).2
      obtain ⟨hpair, rfl⟩ := subject.determines.pair ih (fun o rest _ => o.starts_ne_colon rest)
        (subject', object') rest rest' hrest hrest' heq
      cases hpair
      cases DepthTree.token_inj hdepth
      exact ⟨rfl, rfl⟩
    | _ => cases heq
  | predicate name args =>
    intro d' rest rest' hrest hrest' heq
    cases d' with
    | predicate name' args' =>
      obtain ⟨hname, heq⟩ := List.cons.inj heq
      obtain ⟨rfl, rfl⟩ := args.determines args' rest rest' hrest hrest' heq
      cases hname
      exact ⟨rfl, rfl⟩
    | _ => cases heq

theorem FactTree.determines (d : FactTree) : Determines EndsFact tokens d := by
  intro ⟨subject', object'⟩ rest rest' hrest hrest' heq
  obtain ⟨subject, object⟩ := d
  obtain ⟨hpair, rfl⟩ := subject.determines.pair object.determines
    (fun o rest _ => o.starts_ne_colon rest) (subject', object') rest rest' hrest hrest' heq
  cases hpair
  exact ⟨rfl, rfl⟩

/-! ## Constraints -/

theorem Token.endsComparison_keyword (k : Keyword) : (keyword k).EndsComparison :=
  ⟨by simp, rfl⟩

theorem Comparator.token_inj {op op' : Comparator} (h : op.token = op'.token) : op = op' := by
  cases op <;> cases op' <;> first | rfl | cases h

theorem Comparator.comparison?_token (op : Comparator) :
    Parser.comparison? op.token = some fun l r => op.value l r := by
  cases op <;> rfl

theorem Comparator.token_ne_colon (op : Comparator) : op.token ≠ .symbol .colon := by
  cases op <;> simp [token]

theorem Comparator.starts_ne_colon (op : Comparator) (ts : List Token) :
    Starts (· ≠ .symbol .colon) (op.token :: ts) :=
  starts_cons_iff.mpr op.token_ne_colon

theorem Comparator.not_starts (op : Comparator) (ts : List Token) :
    ¬ Starts EndsComparison (op.token :: ts) := by
  rw [starts_cons_iff]
  intro h
  have := h.2
  rw [op.comparison?_token] at this
  cases this

theorem AtomTree.head_eq {d d' : AtomTree} {rest rest' : List Token}
    (h : d.tokens ++ rest = d'.tokens ++ rest') : d.head = d'.head := by
  obtain ⟨ts, hd⟩ := d.tokens_eq_cons
  obtain ⟨ts', hd'⟩ := d'.tokens_eq_cons
  rw [hd, hd'] at h
  exact (List.cons.inj h).1

theorem ComparisonTree.append_ne_not (d : ComparisonTree) (rest us : List Token) :
    d.tokens ++ rest ≠ .keyword .not :: us := by
  obtain ⟨t, ts, hd, ht, -⟩ := d.exists_head
  rw [hd]
  intro heq
  exact ht (List.cons.inj heq).1

mutual

theorem ConstraintTree.determines : ∀ d : ConstraintTree,
    Determines EndsConstraint ConstraintTree.tokens d
  | .disjunction first rest => by
    intro ⟨first', rest'⟩ us us' hus hus' heq
    rw [ConstraintTree.tokens, ConstraintTree.tokens] at heq
    have hrest : ∀ d ∈ rest, Determines _ ConjunctionTree.tokens d := fun d _ => d.determines
    have hpair := determines_separated (t := .keyword .or) first.determines hrest
      ⟨Token.endsComparison_keyword .or, by simp⟩
    obtain ⟨hpair, rfl⟩ := hpair (first', rest') us us' (hus.mono fun _ h => and_assoc.mpr h)
      (hus'.mono fun _ h => and_assoc.mpr h) heq
    cases hpair
    exact ⟨rfl, rfl⟩

theorem ConjunctionTree.determines : ∀ d : ConjunctionTree,
    Determines (fun t => EndsComparison t ∧ t ≠ .keyword .and) ConjunctionTree.tokens d
  | .conjunction first rest => by
    intro ⟨first', rest'⟩ us us' hus hus' heq
    rw [ConjunctionTree.tokens, ConjunctionTree.tokens] at heq
    have hrest : ∀ d ∈ rest, Determines _ NegationTree.tokens d := fun d _ => d.determines
    have hpair := determines_separated (t := .keyword .and) first.determines hrest
      (Token.endsComparison_keyword .and)
    obtain ⟨hpair, rfl⟩ := hpair (first', rest') us us' hus hus' heq
    cases hpair
    exact ⟨rfl, rfl⟩

theorem NegationTree.determines : ∀ d : NegationTree,
    Determines EndsComparison NegationTree.tokens d
  | .not operand => by
    intro d' us us' hus hus' heq
    cases d' with
    | not operand' =>
      rw [NegationTree.tokens, NegationTree.tokens] at heq
      obtain ⟨rfl, rfl⟩ := operand.determines operand' us us' hus hus' (List.cons.inj heq).2
      exact ⟨rfl, rfl⟩
    | comparison d' =>
      rw [NegationTree.tokens, NegationTree.tokens] at heq
      exact absurd heq.symm (d'.append_ne_not us' _)
  | .comparison d => by
    intro d' us us' hus hus' heq
    cases d' with
    | not operand' =>
      rw [NegationTree.tokens, NegationTree.tokens] at heq
      exact absurd heq (d.append_ne_not us _)
    | comparison d' =>
      rw [NegationTree.tokens, NegationTree.tokens] at heq
      obtain ⟨rfl, rfl⟩ := d.determines d' us us' hus hus' heq
      exact ⟨rfl, rfl⟩

theorem ComparisonTree.determines : ∀ d : ComparisonTree,
    Determines EndsComparison ComparisonTree.tokens d
  | .atom d => by
    intro d' us us' hus hus' heq
    cases d' with
    | atom d' =>
      rw [ComparisonTree.tokens, ComparisonTree.tokens] at heq
      obtain ⟨rfl, rfl⟩ := d.determines d' us us' (hus.mono fun _ h => h.1)
        (hus'.mono fun _ h => h.1) heq
      exact ⟨rfl, rfl⟩
    | compare left op right =>
      rw [ComparisonTree.tokens, ComparisonTree.tokens, List.append_assoc] at heq
      obtain ⟨-, rfl⟩ := d.determines left us _ (hus.mono fun _ h => h.1)
        (op.starts_ne_colon _) heq
      exact (op.not_starts _ hus).elim
  | .compare left op right => by
    intro d' us us' hus hus' heq
    cases d' with
    | atom d' =>
      rw [ComparisonTree.tokens, ComparisonTree.tokens, List.append_assoc] at heq
      obtain ⟨-, rfl⟩ := left.determines d' _ us' (op.starts_ne_colon _)
        (hus'.mono fun _ h => h.1) heq
      exact (op.not_starts _ hus').elim
    | compare left' op' right' =>
      rw [ComparisonTree.tokens, ComparisonTree.tokens, List.append_assoc, List.append_assoc] at heq
      obtain ⟨rfl, htail⟩ := left.determines left' _ _ (op.starts_ne_colon _)
        (op'.starts_ne_colon _) heq
      obtain ⟨hop, hright⟩ := List.cons.inj htail
      obtain ⟨rfl, rfl⟩ := right.determines right' us us' (hus.mono fun _ h => h.1)
        (hus'.mono fun _ h => h.1) hright
      cases Comparator.token_inj hop
      exact ⟨rfl, rfl⟩

theorem AtomTree.determines : ∀ d : AtomTree,
    Determines (· ≠ .symbol .colon) AtomTree.tokens d
  | .bool b => by
    intro d' us us' _ _ heq
    cases d' with
    | bool b' =>
      cases b <;> cases b' <;>
      · simp only [AtomTree.tokens] at heq
        cases heq <;> exact ⟨rfl, rfl⟩
    | _ => cases AtomTree.head_eq heq
  | .int n => by
    intro d' us us' _ _ heq
    cases d' with
    | int n' =>
      rw [AtomTree.tokens, AtomTree.tokens] at heq
      cases heq
      exact ⟨rfl, rfl⟩
    | _ => cases AtomTree.head_eq heq
  | .string text => by
    intro d' us us' _ _ heq
    cases d' with
    | string text' =>
      rw [AtomTree.tokens, AtomTree.tokens] at heq
      cases heq
      exact ⟨rfl, rfl⟩
    | _ => cases AtomTree.head_eq heq
  | .name d => by
    intro d' us us' hus hus' heq
    cases d' with
    | name d' =>
      rw [AtomTree.tokens, AtomTree.tokens] at heq
      obtain ⟨rfl, rfl⟩ := d.determines d' us us' hus hus' heq
      exact ⟨rfl, rfl⟩
    | _ => cases AtomTree.head_eq heq
  | .call name args => by
    intro d' us us' hus hus' heq
    cases d' with
    | call name' args' =>
      rw [AtomTree.tokens, AtomTree.tokens] at heq
      obtain ⟨hname, heq⟩ := List.cons.inj heq
      obtain ⟨rfl, rfl⟩ := determines_closed (fun d _ => d.determines)
        (Token.endsConstraint_symbol (by simp) rfl) (Token.endsConstraint_symbol (by simp) rfl)
        ConstraintTree.exists_head args' us us' (hus.mono fun _ _ => trivial)
        (hus'.mono fun _ _ => trivial) (List.cons.inj heq).2
      cases hname
      exact ⟨rfl, rfl⟩
    | _ => cases AtomTree.head_eq heq
  | .parenthesized inner => by
    intro d' us us' _ _ heq
    cases d' with
    | parenthesized inner' =>
      rw [AtomTree.tokens, AtomTree.tokens] at heq
      rw [List.cons_append, List.cons_append, List.append_assoc, List.append_assoc] at heq
      have hclose (us : List Token) : Starts EndsConstraint (.symbol .rparen :: us) :=
        starts_cons_iff.mpr (Token.endsConstraint_symbol (by simp) rfl)
      obtain ⟨rfl, htail⟩ := inner.determines inner' _ _ (hclose us) (hclose us')
        (List.cons.inj heq).2
      exact ⟨rfl, (List.cons.inj htail).2⟩
    | _ => cases AtomTree.head_eq heq

end

/-! ## Assertions -/

namespace ClaimTree

theorem starts_guardTokens {F : Token → Prop} (c? : Option ConstraintTree)
    (hF : F (.keyword .where)) : Starts F (guardTokens c?) := by
  cases c? with
  | none => exact starts_nil
  | some c => exact starts_cons_iff.mpr hF

theorem starts_conditionTokens {F : Token → Prop} (fs : List FactTree) (hF : F (.keyword .if)) :
    Starts F (conditionTokens fs) := by
  cases fs with
  | nil => exact starts_nil
  | cons f fs => exact starts_cons_iff.mpr hF

theorem determines_guardTokens (c? : Option ConstraintTree) :
    Determines (· = .symbol .period) guardTokens c? := by
  have hstop {us ts : List Token} (h : Starts (· = .symbol .period) us) :
      us ≠ .keyword .where :: ts := by
    rintro rfl
    cases starts_cons_iff.mp h
  have hends {us : List Token} (h : Starts (· = .symbol .period) us) : Starts EndsConstraint us :=
    h.mono fun t ht => ht ▸ Token.endsConstraint_symbol (by simp) rfl
  intro c'? us us' hus hus' heq
  cases c? with
  | none =>
    cases c'? with
    | none => exact ⟨rfl, heq⟩
    | some c' => exact absurd heq (hstop hus)
  | some c =>
    cases c'? with
    | none => exact absurd heq.symm (hstop hus')
    | some c' =>
      obtain ⟨rfl, rfl⟩ := c.determines c' us us' (hends hus) (hends hus') (List.cons.inj heq).2
      exact ⟨rfl, rfl⟩

theorem determines_conditionTokens (fs : List FactTree) :
    Determines (fun t => t = .keyword .where ∨ t = .symbol .period) conditionTokens fs := by
  have hstop {us ts : List Token}
      (h : Starts (fun t => t = .keyword .where ∨ t = .symbol .period) us) :
      us ≠ .keyword .if :: ts := by
    rintro rfl
    rcases starts_cons_iff.mp h with h | h <;> cases h
  have hends {us : List Token}
      (h : Starts (fun t => t = .keyword .where ∨ t = .symbol .period) us) :
      Starts (fun t => EndsFact t ∧ t ≠ .symbol .comma) us := by
    refine h.mono fun t ht => ?_
    rcases ht with rfl | rfl
    · exact ⟨Token.endsFact_keyword .where, by simp⟩
    · exact ⟨Token.endsFact_symbol (by simp) (by simp), by simp⟩
  intro fs' us us' hus hus' heq
  cases fs with
  | nil =>
    cases fs' with
    | nil => exact ⟨rfl, heq⟩
    | cons f' fs' => exact absurd heq (hstop hus)
  | cons f fs =>
    cases fs' with
    | nil => exact absurd heq.symm (hstop hus')
    | cons f' fs' =>
      rw [conditionTokens, conditionTokens, commas_map_cons, commas_map_cons] at heq
      have hrest : ∀ f ∈ fs, Determines _ FactTree.tokens f := fun f _ => f.determines
      have hpair := determines_separated (t := .symbol .comma) f.determines hrest
        (Token.endsFact_symbol (by simp) (by simp))
      obtain ⟨hpair, rfl⟩ := hpair (f', fs') us us' (hends hus) (hends hus') (List.cons.inj heq).2
      cases hpair
      exact ⟨rfl, rfl⟩

theorem determines (d : ClaimTree) : Determines (· = .symbol .period) tokens d := by
  obtain ⟨consequent, antecedents, constraint?⟩ := d
  intro ⟨consequent', antecedents', constraint'?⟩ us us' hus hus' heq
  have hguard (c? : Option ConstraintTree) (us : List Token)
      (hus : Starts (· = .symbol .period) us) :
      Starts (fun t => t = .keyword .where ∨ t = .symbol .period) (guardTokens c? ++ us) :=
    (starts_guardTokens c? (.inl rfl)).append (hus.mono fun _ ht => .inr ht)
  have hcondition (p : List FactTree × Option ConstraintTree) (us : List Token)
      (hus : Starts (· = .symbol .period) us) :
      Starts EndsFact (conditionTokens p.1 ++ guardTokens p.2 ++ us) :=
    ((starts_conditionTokens p.1 (Token.endsFact_keyword .if)).append
      (starts_guardTokens p.2 (Token.endsFact_keyword .where))).append
        (hus.mono fun t ht => ht ▸ Token.endsFact_symbol (by simp) (by simp))
  have hpair := consequent.determines.pair
    ((determines_conditionTokens antecedents).pair (determines_guardTokens constraint?) hguard)
    hcondition
  obtain ⟨hpair, rfl⟩ := hpair (consequent', antecedents', constraint'?) us us' hus hus' heq
  cases hpair
  exact ⟨rfl, rfl⟩

end ClaimTree

namespace AssertionTree

/-- The period ends an assertion, whatever follows. -/
theorem determines (d : AssertionTree) : Determines (fun _ => True) tokens d := by
  intro ⟨speaker', claim'⟩ us us' _ _ heq
  obtain ⟨speaker, claim⟩ := d
  have hsay (us : List Token) : Starts (· ≠ .symbol .colon) (.keyword .say :: us) :=
    starts_cons_iff.mpr (by simp)
  have hperiod (us : List Token) : Starts (· = .symbol .period) (.symbol .period :: us) :=
    starts_cons_iff.mpr rfl
  simp only [tokens, List.append_assoc, List.cons_append, List.nil_append] at heq
  obtain ⟨rfl, htail⟩ := speaker.determines speaker' _ _ (hsay _) (hsay _) heq
  obtain ⟨rfl, hend⟩ := claim.determines claim' _ _ (hperiod us) (hperiod us')
    (List.cons.inj htail).2
  exact ⟨rfl, (List.cons.inj hend).2⟩

/-- The tokens of an assertion have one derivation only. -/
theorem tokens_inj {d d' : AssertionTree} (h : d.tokens = d'.tokens) : d = d' :=
  (d.determines d' [] [] starts_nil starts_nil (congrArg (· ++ []) h)).1

end AssertionTree

end AuthLogic
