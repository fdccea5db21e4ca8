import AuthLogic.Proofs.Syntax.DerivationParsed
import AuthLogic.Proofs.Syntax.Viability

/-! # Locating phrases

The readers of all phrases of an assertion stop where the grammar tells: behind the
longest phrase, or at the first token that no phrase goes on with.
-/

namespace AuthLogic

open Token (EndsFact EndsComparison EndsConstraint)

/-! ## Inhabited phrases -/

instance : Inhabited NameTree := ⟨⟨"X", none⟩⟩

instance : Inhabited EntityTree := ⟨.string ""⟩

instance : Inhabited DepthTree := ⟨.inf⟩

instance : Inhabited ArgsTree := ⟨.bare []⟩

instance : Inhabited VerbPhraseTree := ⟨.predicate "" default⟩

instance : Inhabited FactTree := ⟨default, default⟩

instance : Inhabited AtomTree := ⟨.int 0⟩

instance : Inhabited ComparisonTree := ⟨.atom default⟩

instance : Inhabited NegationTree := ⟨.comparison default⟩

instance : Inhabited ConjunctionTree := ⟨.conjunction default []⟩

instance : Inhabited ConstraintTree := ⟨.disjunction default []⟩

instance : Inhabited ClaimTree := ⟨default, [], none⟩

namespace AtomTree

theorem head_eq_of_tokens {d : AtomTree} {t : Token} {ts : List Token}
    (h : d.tokens = t :: ts) : d.head = t := by
  obtain ⟨us, hd⟩ := d.tokens_eq_cons
  exact (List.cons.inj (hd.symm.trans h)).1

theorem head_ne_keyword (d : AtomTree) {k : Keyword} (htrue : k ≠ .true)
    (hfalse : k ≠ .false) : d.head ≠ .keyword k := by
  cases d with
  | bool b => cases b <;> simp [head, htrue.symm, hfalse.symm]
  | _ => simp [head]

theorem head_ne_symbol (d : AtomTree) {s : Symbol} (hs : s ≠ .lparen) :
    d.head ≠ .symbol s := by
  cases d with
  | bool b => cases b <;> simp [head]
  | parenthesized inner => simp [head, hs.symm]
  | _ => simp [head]

theorem tokens_ne_nil (d : AtomTree) : d.tokens ≠ [] := by
  obtain ⟨ts, hd⟩ := d.tokens_eq_cons
  exact hd ▸ List.cons_ne_nil _ _

end AtomTree

namespace Parser

variable {F : Token → Prop} {ls : List Lexeme}

/-! ## Entities -/

def typeTokens (type? : Option String) : List Token :=
  type?.elim [] fun type => [.symbol .colon, .name type]

theorem locates_declaredType? (ls : List Lexeme) :
    Locates (· ≠ .symbol .colon) typeTokens ls (declaredType? ls) := by
  rw [declaredType?]
  rcases cons_or_next (· = .symbol .colon) ls with ⟨l, ls, rfl, hl⟩ | h
  · rw [bind_of_eq_ok (eat_cons hl)]
    refine .cons (fun type => [.name type]) ?_ hl (fun ts => ⟨?_, ?_⟩) fun _ _ h => h rfl
    · cases ls with
      | nil => exact .unexpected _ fun type => ⟨_, [], rfl, by simp [nextToken]⟩
      | cons l ls =>
        obtain ⟨t, start, stop⟩ := l
        cases t with
        | name type =>
          exact .token (t := .name type) rfl ⟨type, rfl⟩
            (fun _ _ htype => (List.cons.inj htype).2.symm) fun _ htype => absurd htype (by simp)
        | _ => exact .unexpected _ fun type => ⟨_, [], rfl, by simp [nextToken]⟩
    · rintro ⟨type?, htype⟩
      cases type? with
      | none => cases htype
      | some type => exact ⟨type, (List.cons.inj htype).2⟩
    · rintro ⟨type, rfl⟩
      exact ⟨some type, rfl⟩
  · rw [bind_of_eq_ok (eat_of_ne h)]
    refine .nothing ⟨none, rfl⟩ fun type? htype => ?_
    cases type? with
    | none => rfl
    | some type => exact absurd (htype.head_eq rfl) (ne_nextToken_iff.mpr h)

theorem tokens_cons_name_iff {text : String} {ts : List Token} :
    (∃ d : NameTree, d.tokens = .name text :: ts) ↔ ∃ type?, typeTokens type? = ts := by
  constructor
  · rintro ⟨⟨text', type?⟩, hd⟩
    cases type? with
    | none => exact ⟨none, (List.cons.inj hd).2⟩
    | some type => exact ⟨some type, (List.cons.inj hd).2⟩
  · rintro ⟨type?, rfl⟩
    refine ⟨⟨text, type?⟩, ?_⟩
    cases type? <;> rfl

/-- A name that starts a phrase, of whatever kind this is. -/
theorem locates_name {δ : Type} {tokens : δ → List Token} {text : String} {start stop : Nat}
    (htail : ∀ ts, (∃ d, tokens d = .name text :: ts) ↔
      ∃ d : NameTree, d.tokens = .name text :: ts)
    (hnil : ∀ d, tokens d ≠ []) (ls : List Lexeme) :
    Locates (· ≠ .symbol .colon) tokens (⟨.name text, start, stop⟩ :: ls)
      (entity (⟨.name text, start, stop⟩ :: ls)) := by
  have hname : Locates (· ≠ .symbol .colon) tokens (⟨.name text, start, stop⟩ :: ls)
      (declaredType? ls) :=
    .cons typeTokens (locates_declaredType? ls) rfl
      (fun ts => (htail ts).trans tokens_cons_name_iff) fun d hd => absurd hd (hnil d)
  refine hname.checked (fun type? rest h => ?_) fun e h => ?_
  · dsimp only [entity]
    rw [h]
    dsimp only [bind, Except.bind]
    -- a typed constant is refused
    split
    · exact .inl ⟨_, rfl⟩
    · split
      · exact .inr ⟨_, rfl, by simp⟩
      · exact .inl ⟨_, rfl⟩
  · dsimp only [entity]
    rw [h]
    rfl

theorem locates_entity (ls : List Lexeme) :
    Locates (· ≠ .symbol .colon) EntityTree.tokens ls (entity ls) := by
  have hother (h : ∀ text, nextToken ls ≠ some (.str text) ∧ nextToken ls ≠ some (.name text))
      (d : EntityTree) : ∃ t ts, d.tokens = t :: ts ∧ nextToken ls ≠ some t := by
    obtain ⟨t, ts, hd, ht⟩ := d.exists_head
    refine ⟨t, ts, hd, ?_⟩
    rcases ht with ⟨text, rfl⟩ | ⟨text, rfl⟩
    · exact (h text).1
    · exact (h text).2
  have hnil (d : EntityTree) : d.tokens ≠ [] := List.ne_nil_of_length_pos d.length_pos
  cases ls with
  | nil => exact .unexpected _ (hother fun _ => by simp [nextToken])
  | cons l ls =>
    obtain ⟨t, start, stop⟩ := l
    cases t with
    | str text =>
      refine .token (t := .str text) rfl ⟨.string text, rfl⟩ (fun d ts hd => ?_)
        fun d hd => absurd hd (hnil d)
      cases d with
      | name d =>
        obtain ⟨us, hus⟩ := d.tokens_eq_cons
        cases hus.symm.trans hd
      | string text' => exact (List.cons.inj hd).2.symm
    | name text =>
      refine locates_name (fun ts => ⟨?_, ?_⟩) hnil ls
      · rintro ⟨d, hd⟩
        cases d with
        | name d => exact ⟨d, hd⟩
        | string text' => cases hd
      · rintro ⟨d, hd⟩
        exact ⟨.name d, hd⟩
    | _ => exact .unexpected _ (hother fun _ => by simp [nextToken])

/-! ## Facts -/

theorem tests_entityFollows :
    Locates.Tests entityFollows [] fun t => (∃ text, t = .str text) ∨ ∃ text, t = .name text where
  yes l ls hl := by
    refine ⟨[], l :: ls, rfl, rfl, ?_⟩
    obtain ⟨t, start, stop⟩ := l
    rcases hl with ⟨text, rfl⟩ | ⟨text, rfl⟩ <;> rfl
  no ls h := by
    cases ls with
    | nil => rfl
    | cons l ls =>
      obtain ⟨t, start, stop⟩ := l
      have h := next_cons_iff.mp h
      cases t with
      | str text => exact absurd (.inl ⟨text, rfl⟩) h
      | name text => exact absurd (.inr ⟨text, rfl⟩) h
      | _ => rfl

theorem locates_args (ls : List Lexeme) :
    Locates EndsFact ArgsTree.tokens ls ((args : Parser (List Entity)) ls) := by
  rw [args, liftM_eq]
  rcases cons_or_next (· = .symbol .lparen) ls with ⟨l, ls, rfl, hl⟩ | h
  · rw [bind_of_eq_ok (eat_cons hl)]
    have hlisted := Locates.untilClosed (G := EndsFact) locates_entity (by simp) (by simp)
      (fun d => d.exists_head_ne_symbol .rparen) ls
    refine .cons _ hlisted hl (fun ts => ⟨?_, ?_⟩) fun _ _ h => h.2.1 rfl
    · rintro ⟨d, hd⟩
      cases d with
      | listed es => exact ⟨es, (List.cons.inj hd).2⟩
      | bare es =>
        have hs := EntityTree.starts_flatMap es .lparen
        rw [show es.flatMap EntityTree.tokens = _ from hd] at hs
        exact absurd rfl (starts_cons_iff.mp hs)
    · rintro ⟨es, rfl⟩
      exact ⟨.listed es, rfl⟩
  · rw [bind_of_eq_ok (eat_of_ne h)]
    have hmany : Locates EndsFact (List.flatMap EntityTree.tokens) ls
        (many entityFollows entity ls) := by
      refine .many tests_entityFollows locates_entity EntityTree.exists_head ?_ ?_ ls
      · rintro t (⟨text, rfl⟩ | ⟨text, rfl⟩) <;> simp
      · refine fun t ht => ⟨ht.1, ?_⟩
        rintro (⟨text, rfl⟩ | ⟨text, rfl⟩)
        · exact (ht.2.2 text).1 rfl
        · exact (ht.2.2 text).2 rfl
    refine hmany.of_head (fun es => ⟨.bare es, rfl⟩) fun d hd => ?_
    cases d with
    | listed es => exact absurd (hd.head_eq rfl) (ne_nextToken_iff.mpr h)
    | bare es => exact ⟨es, rfl⟩

theorem locates_depth (ls : List Lexeme) :
    Locates F (fun d : DepthTree => [d.token]) ls (depth ls) := by
  have hread {l : Lexeme} {ls : List Lexeme} {a : Depth} (d : DepthTree) (hl : l.token = d.token) :
      Locates F (fun d : DepthTree => [d.token]) (l :: ls) (.ok (a, ls)) :=
    .token hl ⟨d, rfl⟩ (fun _ _ h => (List.cons.inj h).2.symm) fun _ h => absurd h (by simp)
  have hother (h : ∀ d : DepthTree, nextToken ls ≠ some d.token) :
      Locates F (fun d : DepthTree => [d.token]) ls (unexpected (α := Depth) .depth ls) :=
    .unexpected _ fun d => ⟨_, [], rfl, h d⟩
  cases ls with
  | nil => exact hother fun d => by simp [nextToken]
  | cons l ls =>
    obtain ⟨t, start, stop⟩ := l
    cases t with
    | keyword k =>
      cases k with
      | inf => exact hread .inf rfl
      | _ => exact hother fun d => by cases d <;> simp [nextToken, DepthTree.token]
    | int n =>
      have hint : Locates F (fun d : DepthTree => [d.token]) (⟨.int n, start, stop⟩ :: ls)
          (.ok (Depth.unbounded, ls)) := hread (.hops n) rfl
      refine hint.checked (fun _ rest h => ?_) fun e h => by cases h
      cases h
      unfold depth
      dsimp only
      split
      · exact .inl ⟨_, rfl⟩
      · exact .inr ⟨_, rfl, by simp⟩
    | _ => exact hother fun d => by cases d <;> simp [nextToken, DepthTree.token]

theorem locates_role (ls : List Lexeme) :
    Locates (· ≠ .symbol .colon) EntityTree.tokens ls (role ls) := by
  refine (locates_entity ls).checked (fun e rest h => ?_) fun e h => ?_
  · unfold role
    rw [h]
    cases e with
    | const c => exact .inl ⟨c, rfl⟩
    | var m => exact .inr ⟨.variableRole m.var.name, rfl, by simp⟩
  · unfold role
    rw [h]
    rfl

theorem locates_verbPhrase {fact : Parser Fact}
    (hfact : ∀ ls, Locates EndsFact FactTree.tokens ls (fact ls)) (ls : List Lexeme) :
    Locates EndsFact VerbPhraseTree.tokens ls (verbPhrase fact ls) := by
  have hnil (d : VerbPhraseTree) : d.tokens ≠ [] := by cases d <;> exact List.cons_ne_nil _ _
  have hother (h : nextToken ls ≠ some (.keyword .canActAs) ∧
      nextToken ls ≠ some (.keyword .canSay) ∧ ∀ name, nextToken ls ≠ some (.word name))
      (d : VerbPhraseTree) : ∃ t ts, d.tokens = t :: ts ∧ nextToken ls ≠ some t := by
    cases d with
    | canActAs role => exact ⟨_, _, rfl, h.1⟩
    | canSay depth subject object => exact ⟨_, _, rfl, h.2.1⟩
    | predicate name args => exact ⟨_, _, rfl, h.2.2 name⟩
  cases ls with
  | nil => exact .unexpected _ (hother (by simp [nextToken]))
  | cons l ls =>
    obtain ⟨t, start, stop⟩ := l
    cases t with
    | keyword k =>
      cases k with
      | canActAs =>
        have hrole := ((locates_role ls).mono fun _ (h : EndsFact _) => h.1).map VerbPhrase.canActAs
        refine .cons EntityTree.tokens hrole rfl (fun ts => ⟨?_, ?_⟩) fun d hd => absurd hd (hnil d)
        · rintro ⟨d, hd⟩
          cases d with
          | canActAs role => exact ⟨role, (List.cons.inj hd).2⟩
          | _ => cases hd
        · rintro ⟨role, rfl⟩
          exact ⟨.canActAs role, rfl⟩
      | canSay =>
        have hdelegate := (locates_depth (F := fun _ => True) ls).bind
          (fun depth mid _ => (hfact mid).map (VerbPhrase.delegate depth)) fun _ _ _ _ _ => trivial
        refine .cons _ hdelegate rfl (fun ts => ⟨?_, ?_⟩) fun d hd => absurd hd (hnil d)
        · rintro ⟨d, hd⟩
          cases d with
          | canSay depth subject object => exact ⟨(depth, ⟨subject, object⟩), (List.cons.inj hd).2⟩
          | _ => cases hd
        · rintro ⟨⟨depth, subject, object⟩, rfl⟩
          exact ⟨.canSay depth subject object, rfl⟩
      | _ => exact .unexpected _ (hother (by simp [nextToken]))
    | word name =>
      have hargs := (locates_args ls).map (VerbPhrase.predicate name)
      refine .cons ArgsTree.tokens hargs rfl (fun ts => ⟨?_, ?_⟩) fun d hd => absurd hd (hnil d)
      · rintro ⟨d, hd⟩
        cases d with
        | predicate name' args => exact ⟨args, (List.cons.inj hd).2⟩
        | _ => cases hd
      · rintro ⟨args, rfl⟩
        exact ⟨.predicate name args, rfl⟩
    | _ => exact .unexpected _ (hother (by simp [nextToken]))

theorem locates_fact (n : Nat) (ls : List Lexeme) :
    Locates EndsFact FactTree.tokens ls (factWithin n ls) := by
  -- on the levels; without any, reading is given up for its depth, of which nothing is said
  induction n generalizing ls with
  | zero => exact .tooDeep rfl
  | succ n ih =>
    have hfact := (locates_entity ls).bind (q := fun subject =>
        verbPhrase (factWithin n) >>= fun object => pure { subject, object : Fact })
      (fun subject mid _ => (locates_verbPhrase ih mid).map fun object =>
        Fact.mk subject object none) fun object rest _ => object.starts_ne_colon rest
    exact hfact.of_surjective (fun r => ⟨r.1, r.2⟩) (fun d => ⟨(d.subject, d.object), rfl⟩)
      fun _ => rfl

/-! ## Constraints -/

section Constraint

variable {inner p : Parser Constraint}

/-- A token that is an atom by itself. -/
theorem locates_leaf {c : Constraint} {l : Lexeme} (d : AtomTree) (hl : l.token = d.head)
    (hd : d.tokens = [d.head]) (h : ∀ d' : AtomTree, d'.head = d.head → d' = d) :
    Locates F AtomTree.tokens (l :: ls) (.ok (c, ls)) := by
  refine .token hl ⟨d, hd⟩ (fun d' ts hts => ?_) fun d' hd' => absurd hd' d'.tokens_ne_nil
  rw [h d' (AtomTree.head_eq_of_tokens hts), hd] at hts
  exact (List.cons.inj hts).2.symm

theorem locates_bool {b : Bool} {c : Constraint} {l : Lexeme}
    (hl : l.token = .keyword (if b then .true else .false)) :
    Locates F AtomTree.tokens (l :: ls) (.ok (c, ls)) := by
  refine locates_leaf (.bool b) hl ?_ fun d hd => ?_
  · cases b <;> rw [AtomTree.tokens] <;> rfl
  · cases d with
    | bool b' => cases b <;> cases b' <;> first | rfl | cases hd
    | _ => cases b <;> cases hd

theorem locates_call (name : String) {start stop : Nat}
    (hinner : ∀ ls, Locates EndsConstraint ConstraintTree.tokens ls (inner ls)) (ls : List Lexeme) :
    Locates F AtomTree.tokens (⟨.word name, start, stop⟩ :: ls)
      (atom inner (⟨.word name, start, stop⟩ :: ls)) := by
  have hargs (ls : List Lexeme) := (Locates.untilClosed (G := F) hinner
    (Token.endsConstraint_symbol (by simp) rfl) (Token.endsConstraint_symbol (by simp) rfl)
    ConstraintTree.exists_head ls).map (Constraint.call name)
  have hcall := (Locates.expect (F := fun _ => True) (.symbol .lparen) ls).bind
    (q := fun _ => untilClosed inner >>= fun args => pure (Constraint.call name args))
    (fun _ mid _ => hargs mid) fun _ _ _ _ _ => trivial
  refine .cons _ hcall rfl (fun ts => ⟨?_, ?_⟩) fun d hd => absurd hd d.tokens_ne_nil
  · rintro ⟨d, hd⟩
    have hhead := AtomTree.head_eq_of_tokens hd
    cases d with
    | call name' args =>
      rw [AtomTree.tokens] at hd
      exact ⟨((), args), (List.cons.inj hd).2⟩
    | _ => cases hhead
  · rintro ⟨⟨-, args⟩, rfl⟩
    exact ⟨.call name args, by rw [AtomTree.tokens]; rfl⟩

theorem locates_parenthesized {start stop : Nat}
    (hinner : ∀ ls, Locates EndsConstraint ConstraintTree.tokens ls (inner ls)) (ls : List Lexeme) :
    Locates F AtomTree.tokens (⟨.symbol .lparen, start, stop⟩ :: ls)
      (atom inner (⟨.symbol .lparen, start, stop⟩ :: ls)) := by
  have hparen := (hinner ls).bind (G := F)
    (q := fun c => expect (.symbol .rparen) >>= fun _ => pure c)
    (fun c mid _ => (Locates.expect _ mid).map fun _ => c)
    fun _ _ _ => starts_cons_iff.mpr (Token.endsConstraint_symbol (by simp) rfl)
  refine .cons _ hparen rfl (fun ts => ⟨?_, ?_⟩) fun d hd => absurd hd d.tokens_ne_nil
  · rintro ⟨d, hd⟩
    have hhead := AtomTree.head_eq_of_tokens hd
    cases d with
    | parenthesized d =>
      rw [AtomTree.tokens] at hd
      exact ⟨(d, ()), (List.cons.inj hd).2⟩
    | bool b => cases b <;> cases hhead
    | _ => cases hhead
  · rintro ⟨⟨d, -⟩, rfl⟩
    exact ⟨.parenthesized d, by rw [AtomTree.tokens]⟩

theorem locates_atom (hinner : ∀ ls, Locates EndsConstraint ConstraintTree.tokens ls (inner ls))
    (ls : List Lexeme) : Locates (· ≠ .symbol .colon) AtomTree.tokens ls (atom inner ls) := by
  have hother (h : ∀ d : AtomTree, nextToken ls ≠ some d.head) :
      Locates (· ≠ .symbol .colon) AtomTree.tokens ls
        (unexpected (α := Constraint) .constraint ls) := by
    refine .unexpected _ fun d => ?_
    obtain ⟨ts, hd⟩ := d.tokens_eq_cons
    exact ⟨_, ts, hd, h d⟩
  cases ls with
  | nil => exact hother fun d => by simp [nextToken]
  | cons l ls =>
    obtain ⟨t, start, stop⟩ := l
    cases t with
    | keyword k =>
      cases k with
      | true => exact locates_bool (b := true) rfl
      | false => exact locates_bool (b := false) rfl
      | _ => exact hother fun d h => d.head_ne_keyword (by simp) (by simp) (Option.some.inj h).symm
    | int n =>
      refine locates_leaf (.int n) rfl (by rw [AtomTree.tokens, AtomTree.head]) fun d hd => ?_
      cases d <;> cases hd
      rfl
    | str text =>
      refine locates_leaf (.string text) rfl (by rw [AtomTree.tokens, AtomTree.head]) fun d hd => ?_
      cases d <;> cases hd
      rfl
    | name text =>
      have hname : Locates (· ≠ .symbol .colon) AtomTree.tokens (⟨.name text, start, stop⟩ :: ls)
          (entity (⟨.name text, start, stop⟩ :: ls)) := by
        refine locates_name (fun ts => ⟨?_, ?_⟩) AtomTree.tokens_ne_nil ls
        · rintro ⟨d, hd⟩
          have hhead := AtomTree.head_eq_of_tokens hd
          cases d with
          | name d =>
            rw [AtomTree.tokens] at hd
            exact ⟨d, hd⟩
          | _ => cases hhead
        · rintro ⟨d, hd⟩
          exact ⟨.name d, by rw [AtomTree.tokens, hd]⟩
      exact hname.map Constraint.entity
    | word name => exact locates_call name hinner ls
    | symbol s =>
      cases s with
      | lparen => exact locates_parenthesized hinner ls
      | _ => exact hother fun d h => d.head_ne_symbol (by simp) (Option.some.inj h).symm

/-- What may stand behind the left operand of a comparison. -/
def operandTokens (r? : Option (Comparator × AtomTree)) : List Token :=
  r?.elim [] fun r => r.1.token :: r.2.tokens

theorem starts_operandTokens (r? : Option (Comparator × AtomTree)) (rest : List Token)
    (hrest : Starts EndsComparison rest) :
    Starts (· ≠ .symbol .colon) (operandTokens r? ++ rest) := by
  cases r? with
  | none => exact hrest.mono fun _ h => h.1
  | some r => exact r.1.starts_ne_colon _

/-- The reader of what may stand there. -/
theorem locates_operand
    (hinner : ∀ ls, Locates EndsConstraint ConstraintTree.tokens ls (inner ls)) (left : Constraint)
    (ls : List Lexeme) :
    Locates EndsComparison operandTokens ls ((do
      match (← peek).bind comparison? with
      | some build => skip; return build left (← atom inner)
      | none => return left : Parser Constraint) ls) := by
  rw [bind_of_eq_ok (p := peek) rfl]
  have hstop (h : Next (comparison? · = none) ls) :
      Locates EndsComparison operandTokens ls (.ok (left, ls)) := by
    refine .nothing ⟨none, rfl⟩ fun r? hr => ?_
    cases r? with
    | none => rfl
    | some r =>
      have hnext := ne_nextToken_iff.mpr (h.mono fun t ht => show t ≠ r.1.token by
        rintro rfl
        rw [r.1.comparison?_token] at ht
        cases ht)
      exact absurd (hr.head_eq rfl) hnext
  cases ls with
  | nil => exact hstop (next_nil _)
  | cons l ls =>
    cases hl : comparison? l.token with
    | none =>
      have hnone : ((l :: ls).head?.map Lexeme.token).bind comparison? = none := hl
      rw [hnone]
      exact hstop (next_cons_iff.mpr hl)
    | some build =>
      have hsome : ((l :: ls).head?.map Lexeme.token).bind comparison? = some build := hl
      rw [hsome]
      obtain ⟨op, hop, rfl⟩ := exists_comparator hl
      have hright := ((locates_atom hinner ls).mono fun _ (h : EndsComparison _) => h.1).map
        (op.value left)
      refine .cons AtomTree.tokens hright hop (fun ts => ⟨?_, ?_⟩) fun _ _ h => ?_
      · rintro ⟨r?, hr⟩
        cases r? with
        | none => cases hr
        | some r => exact ⟨r.2, (List.cons.inj hr).2⟩
      · rintro ⟨d, rfl⟩
        exact ⟨some (op, d), rfl⟩
      · exact op.not_starts [] (starts_cons_iff.mpr h)

theorem locates_comparison
    (hinner : ∀ ls, Locates EndsConstraint ConstraintTree.tokens ls (inner ls)) (ls : List Lexeme) :
    Locates EndsComparison ComparisonTree.tokens ls (comparison inner ls) := by
  have hpair := (locates_atom hinner ls).bind (fun left mid _ => locates_operand hinner left mid)
    starts_operandTokens
  refine hpair.of_surjective
    (fun r => r.2.elim (.atom r.1) fun s => .compare r.1 s.1 s.2) ?_ ?_
  · intro d
    cases d with
    | atom d => exact ⟨(d, none), rfl⟩
    | compare left op right => exact ⟨(left, some (op, right)), rfl⟩
  · rintro ⟨d, r?⟩
    cases r? with
    | none => exact (ComparisonTree.tokens.eq_1 d).trans (List.append_nil _).symm
    | some r => exact ComparisonTree.tokens.eq_2 d r.1 r.2

theorem locates_conjunction
    (h : ∀ ls, Locates EndsComparison NegationTree.tokens ls (p ls)) (ls : List Lexeme) :
    Locates (fun t => EndsComparison t ∧ t ≠ .keyword .and) ConjunctionTree.tokens ls
      (conjunction p ls) := by
  have hchain := Locates.items h (Token.endsComparison_keyword .and)
    (fun first rest => rest.foldl (Constraint.binary .and) first) ls
  refine hchain.of_surjective (fun r => .conjunction r.1 r.2) ?_
    fun r => ConjunctionTree.tokens.eq_1 r.1 r.2
  rintro ⟨first, rest⟩
  exact ⟨(first, rest), rfl⟩

theorem locates_disjunction
    (h : ∀ ls, Locates EndsComparison NegationTree.tokens ls (p ls)) (ls : List Lexeme) :
    Locates EndsConstraint ConstraintTree.tokens ls (disjunction p ls) := by
  have hchain := Locates.items (t := .keyword .or) (locates_conjunction h)
    ⟨Token.endsComparison_keyword .or, by simp⟩
    (fun first rest => rest.foldl (Constraint.binary .or) first) ls
  refine (hchain.mono fun _ h => and_assoc.mpr h).of_surjective (fun r => .disjunction r.1 r.2) ?_
    fun r => ConstraintTree.tokens.eq_1 r.1 r.2
  rintro ⟨first, rest⟩
  exact ⟨(first, rest), rfl⟩

theorem locates_negation_comparison
    (hinner : ∀ ls, Locates EndsConstraint ConstraintTree.tokens ls (inner ls))
    (h : Next (· ≠ .keyword .not) ls) :
    Locates EndsComparison NegationTree.tokens ls (comparison inner ls) := by
  refine (locates_comparison hinner ls).of_head (fun d => ⟨.comparison d, ?_⟩) fun d hd => ?_
  · rw [NegationTree.tokens]
  · cases d with
    | not operand =>
      exact absurd (hd.head_eq (NegationTree.tokens.eq_1 operand)) (ne_nextToken_iff.mpr h)
    | comparison d => exact ⟨d, by rw [NegationTree.tokens]⟩

theorem locates_negation (n : Nat) (ls : List Lexeme) :
    Locates EndsComparison NegationTree.tokens ls (negationWithin n ls) := by
  induction n generalizing ls with
  | zero =>
    rcases cons_or_next (· = .keyword .not) ls with ⟨l, ls, rfl, hl⟩ | h
    · rw [negation_zero_cons hl]
      exact .tooDeep rfl
    · rw [negation_of_ne 0 h]
      exact locates_negation_comparison (fun _ => .tooDeep rfl) h
  | succ n ih =>
    rcases cons_or_next (· = .keyword .not) ls with ⟨l, ls, rfl, hl⟩ | h
    · rw [negation_succ_cons hl]
      refine .cons NegationTree.tokens ((ih ls).map Constraint.not) hl (fun ts => ⟨?_, ?_⟩)
        fun d hd => ?_
      · rintro ⟨d, hd⟩
        cases d with
        | not operand =>
          rw [NegationTree.tokens] at hd
          exact ⟨operand, (List.cons.inj hd).2⟩
        | comparison d =>
          rw [NegationTree.tokens] at hd
          exact absurd (congrArg (· ++ []) hd) (d.append_ne_not [] _)
      · rintro ⟨d, rfl⟩
        exact ⟨.not d, by rw [NegationTree.tokens]⟩
      · obtain ⟨t, ts, htokens, -⟩ := d.exists_head
        cases htokens.symm.trans hd
    · rw [negation_of_ne (n + 1) h]
      exact locates_negation_comparison (locates_disjunction ih) h

theorem locates_constraint (n : Nat) (ls : List Lexeme) :
    Locates EndsConstraint ConstraintTree.tokens ls (constraintWithin n ls) := by
  cases n with
  | zero => exact .tooDeep rfl
  | succ n => exact locates_disjunction (locates_negation n) ls

end Constraint

/-! ## Assertions -/

theorem locates_guarded (levels : Nat) (f : Fact) (fs : List Fact) (ls : List Lexeme) :
    Locates (· = .symbol .period) ClaimTree.guardTokens ls (guarded levels f fs ls) := by
  rcases cons_or_next (· = .keyword .where) ls with ⟨l, ls, rfl, hl⟩ | h
  · rw [guarded_cons hl]
    have hconstraint := (locates_constraint levels ls).mono (G := (· = .symbol .period))
      fun t ht => ht ▸ Token.endsConstraint_symbol (by simp) rfl
    refine .cons ConstraintTree.tokens (hconstraint.map _) hl (fun ts => ⟨?_, ?_⟩)
      fun _ _ h => by cases h
    · rintro ⟨c?, hc⟩
      cases c? with
      | none => cases hc
      | some c => exact ⟨c, (List.cons.inj hc).2⟩
    · rintro ⟨c, rfl⟩
      exact ⟨some c, rfl⟩
  · rw [guarded_of_ne h]
    refine .nothing ⟨none, rfl⟩ fun c? hc => ?_
    cases c? with
    | none => rfl
    | some c => exact absurd (hc.head_eq rfl) (ne_nextToken_iff.mpr h)

theorem starts_guardTokens_append (c? : Option ConstraintTree) (rest : List Token)
    (hrest : Starts (· = .symbol .period) rest) :
    Starts (fun t => EndsFact t ∧ t ≠ .symbol .comma) (ClaimTree.guardTokens c? ++ rest) :=
  (ClaimTree.starts_guardTokens c? ⟨Token.endsFact_keyword .where, by simp⟩).append
    (hrest.mono fun _ ht => ht ▸ ⟨Token.endsFact_symbol (by simp) (by simp), by simp⟩)

/-- The conditions and the guard of a claim. -/
theorem locates_conditioned (levels : Nat) (f : Fact) (ls : List Lexeme) :
    Locates (· = .symbol .period)
      (fun r : List FactTree × Option ConstraintTree =>
        ClaimTree.conditionTokens r.1 ++ ClaimTree.guardTokens r.2) ls
      ((eat (.keyword .if) >>= fun b =>
        if b then separated (.symbol .comma) (factWithin levels) >>= guarded levels f
        else guarded levels f []) ls) := by
  rcases cons_or_next (· = .keyword .if) ls with ⟨l, ls, rfl, hl⟩ | h
  · rw [bind_of_eq_ok (eat_cons hl)]
    have hfacts := Locates.items (t := .symbol .comma) (locates_fact levels)
      (Token.endsFact_symbol (by simp) (by simp)) List.cons ls
    have hguarded := hfacts.bind (q := guarded levels f)
      (fun fs mid _ => locates_guarded levels f fs mid) starts_guardTokens_append
    refine .cons _ hguarded hl (fun ts => ⟨?_, ?_⟩) fun _ _ h => by cases h
    · rintro ⟨⟨fs, c?⟩, hd⟩
      cases fs with
      | nil => cases c? <;> cases hd
      | cons g gs =>
        refine ⟨((g, gs), c?), ?_⟩
        rw [← (List.cons.inj hd).2, ← commas_map_cons]
        rfl
    · rintro ⟨⟨⟨g, gs⟩, c?⟩, rfl⟩
      refine ⟨(g :: gs, c?), ?_⟩
      dsimp only
      rw [ClaimTree.conditionTokens, commas_map_cons]
      rfl
  · rw [bind_of_eq_ok (eat_of_ne h)]
    refine (locates_guarded levels f [] ls).of_head (fun c? => ⟨([], c?), rfl⟩) fun r hr => ?_
    obtain ⟨fs, c?⟩ := r
    cases fs with
    | nil => exact ⟨c?, rfl⟩
    | cons g gs => exact absurd (hr.head_eq rfl) (ne_nextToken_iff.mpr h)

theorem locates_claim (levels : Nat) (ls : List Lexeme) :
    Locates (· = .symbol .period) ClaimTree.tokens ls (claimWithin levels ls) := by
  rw [claim_eq]
  have hclaim := (locates_fact levels ls).bind (fun f mid _ => locates_conditioned levels f mid)
    fun r rest hrest => ?_
  · exact hclaim.of_surjective (fun r => ⟨r.1, r.2.1, r.2.2⟩)
      (fun d => ⟨(d.consequent, d.antecedents, d.constraint?), rfl⟩) fun _ => rfl
  · rw [List.append_assoc]
    exact (ClaimTree.starts_conditionTokens r.1 (Token.endsFact_keyword .if)).append
      ((starts_guardTokens_append r.2 rest hrest).mono fun _ h => h.1)

theorem locates_assertion (levels : Nat) (ls : List Lexeme) :
    Locates F AssertionTree.tokens ls (assertionWithin levels ls) := by
  have hperiod (speaker : Entity) (c : Claim) (ls : List Lexeme) :=
    (Locates.expect (F := F) (.symbol .period) ls).map fun _ => (speaker, c)
  have hclaim (speaker : Entity) (ls : List Lexeme) := (locates_claim levels ls).bind
    (fun c mid _ => hperiod speaker c mid) fun _ _ _ => starts_cons_iff.mpr rfl
  have hsay (speaker : Entity) (ls : List Lexeme) :=
    (Locates.expect (F := fun _ => True) (.keyword .say) ls).bind
      (fun _ mid _ => hclaim speaker mid) fun _ _ _ _ _ => trivial
  have hassertion := (locates_entity ls).bind (fun speaker mid _ => hsay speaker mid)
    fun _ _ _ => starts_cons_iff.mpr (by simp)
  exact hassertion.of_surjective (fun r => ⟨r.1, r.2.2.1⟩)
    (fun d => ⟨(d.speaker, (), d.claim, ()), rfl⟩) fun _ => rfl

end Parser

end AuthLogic
