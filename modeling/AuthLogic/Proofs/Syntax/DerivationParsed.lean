import AuthLogic.Proofs.Syntax.DerivationReading

/-! # Parsed derivations

Whatever is read comes with a derivation tree: it derives the tokens that were
taken, stands for what was read, and is nested no deeper than the levels that it
was read with.
-/

namespace AuthLogic

/-- Some tree of a kind derives the tokens and stands for the result. -/
def Derived {α δ : Type} (P : δ → Prop) (tokens : δ → List Token) (value : δ → α)
    (ts : List Token) (a : α) : Prop :=
  ∃ d, P d ∧ tokens d = ts ∧ value d = a

namespace Parser

/-- What is read is related to the tokens that are taken. -/
def Consumes {α : Type} (p : Parser α) (R : List Token → α → Prop) : Prop :=
  ∀ ls a rest, p ls = .ok (a, rest) →
    ∃ taken, ls = taken ++ rest ∧ R (taken.map Lexeme.token) a

namespace Consumes

variable {α β : Type} {p : Parser α} {q : α → Parser β} {R R' : List Token → α → Prop}
  {S : List Token → β → Prop}

theorem pure {a : α} (h : R [] a) : Consumes (pure a) R := by
  intro ls b rest hb
  obtain ⟨rfl, rfl⟩ := pure_eq_ok_iff.mp hb
  exact ⟨[], rfl, h⟩

theorem mono (h : Consumes p R) (hR : ∀ ts a, R ts a → R' ts a) : Consumes p R' := by
  intro ls a rest ha
  obtain ⟨taken, rfl, ht⟩ := h ls a rest ha
  exact ⟨taken, rfl, hR _ _ ht⟩

theorem bind (hp : Consumes p R) (hq : ∀ ts a, R ts a → Consumes (q a) fun us b => S (ts ++ us) b) :
    Consumes (p >>= q) S := by
  intro ls b rest h
  obtain ⟨a, mid, ha, hb⟩ := bind_eq_ok_iff.mp h
  obtain ⟨taken, rfl, ht⟩ := hp ls a mid ha
  obtain ⟨taken', rfl, hu⟩ := hq _ a ht mid b rest hb
  exact ⟨taken ++ taken', (List.append_assoc ..).symm, by rwa [List.map_append]⟩

theorem map (hp : Consumes p R) (f : α → β) (h : ∀ ts a, R ts a → S ts (f a)) :
    Consumes (p >>= fun a => Pure.pure (f a)) S :=
  hp.bind fun ts a ha => .pure (by rw [List.append_nil]; exact h ts a ha)

theorem fail (cause : SyntaxError.Cause) : Consumes (fail cause) R := by
  intro ls a rest h
  cases h

theorem eat (t : Token) : Consumes (eat t) fun ts b => ts = if b then [t] else [] := by
  intro ls b rest h
  rcases eat_eq_ok h with ⟨rfl, l, rfl, hl⟩ | ⟨rfl, rfl, -⟩
  · exact ⟨[l], rfl, congrArg (· :: []) hl⟩
  · exact ⟨[], rfl, rfl⟩

theorem expect (t : Token) : Consumes (expect t) fun ts _ => ts = [t] := by
  intro ls _ rest h
  obtain ⟨l, rfl, hl⟩ := expect_eq_ok_iff.mp h
  exact ⟨[l], rfl, congrArg (· :: []) hl⟩

/-- A reader that goes on as another one, depending on the token that it takes. -/
theorem of_cons (hnil : ∀ r, p [] ≠ .ok r)
    (hcons : ∀ t start stop ls r, p (⟨t, start, stop⟩ :: ls) = .ok r →
      ∃ p' : Parser α, p' ls = .ok r ∧ Consumes p' fun us a => R (t :: us) a) : Consumes p R := by
  intro ls a rest h
  cases ls with
  | nil => exact absurd h (hnil _)
  | cons l ls =>
    obtain ⟨t, start, stop⟩ := l
    obtain ⟨p', h, hp'⟩ := hcons t start stop ls _ h
    obtain ⟨taken, rfl, ht⟩ := hp' ls a rest h
    exact ⟨⟨t, start, stop⟩ :: taken, rfl, ht⟩

section Many

variable {δ : Type} {P : δ → Prop} {tokens : δ → List Token} {value : δ → α} {sep : List Token}
  {more : Parser Bool}

theorem manyWithin (hmore : Consumes more fun ts b => ts = if b then sep else [])
    (hp : Consumes p (Derived P tokens value)) (bound : List Lexeme) :
    Consumes (manyWithin more p bound)
      (Derived (∀ d ∈ ·, P d) (List.flatMap fun d => sep ++ tokens d) (List.map value)) := by
  induction bound with
  | nil => exact .pure ⟨[], List.forall_mem_nil P, rfl, rfl⟩
  | cons l bound ih =>
    refine hmore.bind fun ts b hts => ?_
    cases b with
    | false => exact .pure ⟨[], List.forall_mem_nil P, by rw [hts]; rfl, rfl⟩
    | true =>
      refine hp.bind fun us a ha => ih.map _ fun vs as has => ?_
      obtain ⟨d, hd, rfl, rfl⟩ := ha
      obtain ⟨ds, hds, rfl, rfl⟩ := has
      refine ⟨d :: ds, List.forall_mem_cons.mpr ⟨hd, hds⟩, ?_, rfl⟩
      rw [hts, if_pos rfl, List.flatMap_cons, List.append_assoc]

theorem many (hmore : Consumes more fun ts b => ts = if b then sep else [])
    (hp : Consumes p (Derived P tokens value)) :
    Consumes (many more p)
      (Derived (∀ d ∈ ·, P d) (List.flatMap fun d => sep ++ tokens d) (List.map value)) :=
  fun ls => manyWithin hmore hp ls ls

theorem separated (t : Token) (hp : Consumes p (Derived P tokens value)) :
    Consumes (separated t p) (Derived (fun r : δ × List δ => P r.1 ∧ ∀ d ∈ r.2, P d)
      (fun r => tokens r.1 ++ r.2.flatMap fun d => t :: tokens d)
      (fun r => value r.1 :: r.2.map value)) := by
  refine hp.bind fun ts a ha => (many (eat t) hp).map _ fun us as has => ?_
  obtain ⟨d, hd, rfl, rfl⟩ := ha
  obtain ⟨ds, hds, rfl, rfl⟩ := has
  exact ⟨(d, ds), ⟨hd, hds⟩, rfl, rfl⟩

theorem untilClosed (hp : Consumes p (Derived P tokens value)) :
    Consumes (untilClosed p) (Derived (∀ d ∈ ·, P d)
      (fun ds => commas (ds.map tokens) ++ [.symbol .rparen]) (List.map value)) := by
  refine (eat _).bind fun ts b hts => ?_
  cases b with
  | true => exact .pure ⟨[], List.forall_mem_nil P, by rw [hts]; rfl, rfl⟩
  | false =>
    refine (separated _ hp).bind fun us as has => (expect _).map _ fun vs _ hvs => ?_
    obtain ⟨⟨d, ds⟩, hd, rfl, rfl⟩ := has
    refine ⟨d :: ds, List.forall_mem_cons.mpr hd, ?_, rfl⟩
    rw [hts, hvs]
    exact congrArg (· ++ _) (commas_map_cons d ds)

end Many

end Consumes

variable {ls rest : List Lexeme}

/-! ## Facts -/

theorem consumes_declaredType? : Consumes declaredType? fun ts type? =>
    ts = type?.elim [] fun type => [.symbol .colon, .name type] := by
  refine (Consumes.eat _).bind fun ts b hts => ?_
  cases b with
  | false => exact .pure (by rw [hts]; rfl)
  | true =>
    refine .of_cons (fun r h => by cases h) fun t start stop ls r h => ?_
    cases t with
    | name type =>
      exact ⟨_, h, .pure (by rw [hts]; rfl)⟩
    | _ => cases h

theorem consumes_name {text : String} {start stop : Nat} :
    Consumes (fun ls => entity (⟨.name text, start, stop⟩ :: ls)) fun us e =>
      Derived NameTree.Admissible NameTree.tokens NameTree.value (.name text :: us) e := by
  intro ls e rest h
  dsimp only [entity] at h
  cases ht : declaredType? ls with
  | error e =>
    rw [ht] at h
    cases h
  | ok r =>
    obtain ⟨type?, mid⟩ := r
    obtain ⟨taken, rfl, htaken⟩ := consumes_declaredType? ls type? mid ht
    have htokens : NameTree.tokens ⟨text, type?⟩ = .name text :: taken.map Lexeme.token := by
      rw [htaken]
      cases type? <;> rfl
    rw [ht] at h
    dsimp only [bind, Except.bind] at h
    split at h
    case isTrue hv =>
      cases h
      exact ⟨taken, rfl, ⟨text, type?⟩, fun _ => hv, htokens, if_pos hv⟩
    case isFalse hv =>
      split at h
      · cases h
      case isFalse htype =>
        cases h
        exact ⟨taken, rfl, ⟨text, type?⟩, fun h => absurd h htype, htokens, if_neg hv⟩

theorem consumes_entity :
    Consumes entity (Derived EntityTree.Admissible EntityTree.tokens EntityTree.value) := by
  refine .of_cons (fun r h => by cases h) fun t start stop ls r h => ?_
  cases t with
  | str text => exact ⟨_, h, .pure ⟨.string text, trivial, rfl, rfl⟩⟩
  | name text =>
    refine ⟨_, h, consumes_name.mono fun us e he => ?_⟩
    obtain ⟨d, hd, htokens, rfl⟩ := he
    exact ⟨.name d, hd, htokens, rfl⟩
  | _ => cases h

theorem consumes_entityFollows : Consumes entityFollows fun ts b => ts = if b then [] else [] := by
  intro ls b rest h
  have hls : rest = ls := by
    unfold entityFollows at h
    split at h <;> cases h <;> rfl
  exact ⟨[], hls.symm, by cases b <;> rfl⟩

theorem consumes_args :
    Consumes args (Derived ArgsTree.Admissible ArgsTree.tokens ArgsTree.value) := by
  refine (Consumes.eat _).bind fun ts b hts => ?_
  cases b with
  | true =>
    refine consumes_entity.untilClosed.mono fun us as has => ?_
    obtain ⟨ds, hds, rfl, rfl⟩ := has
    exact ⟨.listed ds, hds, by rw [hts]; rfl, rfl⟩
  | false =>
    refine (consumes_entityFollows.many consumes_entity).mono fun us as has => ?_
    obtain ⟨ds, hds, rfl, rfl⟩ := has
    exact ⟨.bare ds, hds, by rw [hts]; rfl, rfl⟩

theorem consumes_depth : Consumes depth
    (Derived DepthTree.Admissible (fun d => [d.token]) DepthTree.value) := by
  refine .of_cons (fun r h => by cases h) fun t start stop ls r h => ?_
  cases t with
  | keyword k =>
    cases k with
    | inf => exact ⟨_, h, .pure ⟨.inf, trivial, rfl, rfl⟩⟩
    | _ => cases h
  | int n =>
    unfold depth at h
    dsimp only at h
    split at h
    case h_1 hops hn =>
      rw [Text.toUInt32?] at hn
      split at hn
      case isTrue hsize =>
        cases hn
        exact ⟨_, h, .pure ⟨.hops n, hsize, rfl, rfl⟩⟩
      case isFalse => cases hn
    case h_2 => cases h
  | _ => cases h

theorem EntityTree.value_eq_const {d : EntityTree} {c : Constant} (h : d.value = .const c) :
    c = ⟨d.text⟩ := by
  cases d with
  | name d =>
    rw [EntityTree.value, NameTree.value] at h
    split at h
    · cases h
    · cases h
      rfl
  | string text =>
    cases h
    rfl

theorem consumes_role : Consumes role (Derived
    (fun d : EntityTree => d.Admissible ∧ d.value = .const ⟨d.text⟩) EntityTree.tokens
    fun d => ⟨d.text⟩) := by
  intro ls c rest h
  unfold role at h
  cases he : entity ls with
  | error e =>
    rw [he] at h
    cases h
  | ok r =>
    obtain ⟨e, mid⟩ := r
    obtain ⟨taken, rfl, d, hd, htokens, rfl⟩ := consumes_entity ls e mid he
    rw [he] at h
    dsimp only [bind, Except.bind] at h
    split at h
    case h_1 c' mid' hr =>
      cases h
      obtain ⟨hc, rfl⟩ := Prod.mk.inj hr
      obtain rfl := EntityTree.value_eq_const hc
      exact ⟨taken, rfl, d, ⟨hd, hc⟩, htokens, rfl⟩
    case h_2 => cases h

theorem consumes_fact (n : Nat) : Consumes (factWithin n)
    (Derived (fun d => d.Admissible ∧ d.nesting ≤ n) FactTree.tokens FactTree.value) := by
  -- on the levels, not on the tokens: what is delegated is read with one level less
  induction n with
  | zero => exact .fail _
  | succ n ih =>
    have hobject : Consumes (verbPhrase (factWithin n))
        (Derived (fun d => d.Admissible ∧ d.nesting ≤ n) VerbPhraseTree.tokens
          VerbPhraseTree.value) := by
      refine .of_cons (fun r h => by cases h) fun t start stop ls r h => ?_
      cases t with
      | keyword k =>
        cases k with
        | canActAs =>
          refine ⟨_, h, consumes_role.map VerbPhrase.canActAs fun us c hc => ?_⟩
          obtain ⟨d, hd, rfl, rfl⟩ := hc
          exact ⟨.canActAs d, ⟨hd, Nat.zero_le n⟩, rfl, rfl⟩
        | canSay =>
          refine ⟨_, h, consumes_depth.bind fun us depth hdepth => ih.map _ fun vs f hf => ?_⟩
          obtain ⟨d, hd, rfl, rfl⟩ := hdepth
          obtain ⟨⟨subject, object⟩, ⟨hf, hn⟩, rfl, rfl⟩ := hf
          exact ⟨.canSay d subject object, ⟨⟨hd, hf.1, hf.2⟩, hn⟩, rfl, rfl⟩
        | _ => cases h
      | word name =>
        refine ⟨_, h, consumes_args.map (VerbPhrase.predicate name) fun us as has => ?_⟩
        obtain ⟨d, hd, rfl, rfl⟩ := has
        exact ⟨.predicate name d, ⟨hd, Nat.zero_le n⟩, rfl, rfl⟩
      | _ => cases h
    refine consumes_entity.bind fun ts e he => hobject.map _ fun us v hv => ?_
    obtain ⟨subject, hs, rfl, rfl⟩ := he
    obtain ⟨object, ⟨ho, hn⟩, rfl, rfl⟩ := hv
    exact ⟨⟨subject, object⟩, ⟨⟨hs, ho⟩, Nat.succ_le_succ hn⟩, rfl, rfl⟩

/-! ## Constraints -/

section Constraint

variable {n : Nat} {inner : Parser Constraint}

theorem consumes_atom (hinner : Consumes inner (Derived (fun d => d.Admissible ∧ d.nesting ≤ n)
      ConstraintTree.tokens ConstraintTree.value)) :
    Consumes (atom inner) (Derived (fun d => d.Admissible ∧ d.nesting ≤ n)
      AtomTree.tokens AtomTree.value) := by
  refine .of_cons (fun r h => by cases h) fun t start stop ls r h => ?_
  cases t with
  | keyword k =>
    cases k with
    | true =>
      exact ⟨_, h, .pure ⟨.bool true, by simp [AtomTree.Admissible, AtomTree.nesting],
        AtomTree.tokens.eq_1, AtomTree.value.eq_1 true⟩⟩
    | false =>
      exact ⟨_, h, .pure ⟨.bool false, by simp [AtomTree.Admissible, AtomTree.nesting],
        AtomTree.tokens.eq_2, AtomTree.value.eq_1 false⟩⟩
    | _ => cases h
  | int m =>
    exact ⟨_, h, .pure ⟨.int m, by simp [AtomTree.Admissible, AtomTree.nesting],
      by rw [AtomTree.tokens], by rw [AtomTree.value]⟩⟩
  | str text =>
    exact ⟨_, h, .pure ⟨.string text, by simp [AtomTree.Admissible, AtomTree.nesting],
      by rw [AtomTree.tokens], by rw [AtomTree.value]⟩⟩
  | name text =>
    refine ⟨_, h, consumes_name.map Constraint.entity fun us e he => ?_⟩
    obtain ⟨d, hd, htokens, rfl⟩ := he
    refine ⟨.name d, ⟨?_, ?_⟩, ?_, ?_⟩
    · rwa [AtomTree.Admissible]
    · rw [AtomTree.nesting]
      exact Nat.zero_le n
    · rwa [AtomTree.tokens]
    · rw [AtomTree.value]
  | word name =>
    refine ⟨_, h, (Consumes.expect _).bind fun us _ hus =>
      hinner.untilClosed.map (Constraint.call name) fun vs as has => ?_⟩
    obtain ⟨ds, hds, rfl, rfl⟩ := has
    refine ⟨.call name ds, ⟨?_, AtomTree.nesting_call_le_iff.mpr fun d hd => (hds d hd).2⟩, ?_, ?_⟩
    · rw [AtomTree.Admissible]
      exact fun d hd => (hds d hd).1
    · rw [AtomTree.tokens, hus]
      rfl
    · rw [AtomTree.value]
  | symbol s =>
    cases s with
    | lparen =>
      refine ⟨_, h, hinner.bind fun us c hc =>
        (Consumes.expect _).map (fun _ => c) fun vs _ hvs => ?_⟩
      obtain ⟨d, ⟨hd, hn⟩, rfl, rfl⟩ := hc
      refine ⟨.parenthesized d, ⟨?_, ?_⟩, ?_, ?_⟩
      · rwa [AtomTree.Admissible]
      · rwa [AtomTree.nesting]
      · rw [AtomTree.tokens, hvs]
      · rw [AtomTree.value]
    | _ => cases h

theorem exists_comparator {t : Token} {build : Constraint → Constraint → Constraint}
    (h : comparison? t = some build) :
    ∃ op : Comparator, t = op.token ∧ build = fun l r => op.value l r := by
  unfold comparison? at h
  split at h <;> cases h
  · exact ⟨.eq, rfl, rfl⟩
  · exact ⟨.notEq, rfl, rfl⟩
  · exact ⟨.less, rfl, rfl⟩
  · exact ⟨.lessEq, rfl, rfl⟩
  · exact ⟨.greater, rfl, rfl⟩
  · exact ⟨.greaterEq, rfl, rfl⟩

theorem consumes_comparison
    (hinner : Consumes inner (Derived (fun d => d.Admissible ∧ d.nesting ≤ n)
      ConstraintTree.tokens ConstraintTree.value)) :
    Consumes (comparison inner) (Derived (fun d => d.Admissible ∧ d.nesting ≤ n)
      ComparisonTree.tokens ComparisonTree.value) := by
  intro ls c rest h
  obtain ⟨c', mid, hc', h⟩ := comparison_eq_ok h
  obtain ⟨taken, rfl, left, ⟨hl, hnl⟩, htokens, rfl⟩ := consumes_atom hinner ls c' mid hc'
  rcases h with ⟨-, rfl, rfl⟩ | ⟨l, tail, build, e, rfl, hbuild, he, rfl⟩
  · refine ⟨taken, rfl, .atom left, ⟨?_, ?_⟩, ?_, ?_⟩
    · rwa [ComparisonTree.Admissible]
    · rwa [ComparisonTree.nesting]
    · rwa [ComparisonTree.tokens]
    · rw [ComparisonTree.value]
  · obtain ⟨taken', rfl, right, ⟨hr, hnr⟩, htokens', rfl⟩ := consumes_atom hinner tail e rest he
    obtain ⟨op, hop, rfl⟩ := exists_comparator hbuild
    refine ⟨taken ++ l :: taken', by simp, .compare left op right, ⟨?_, ?_⟩, ?_, ?_⟩
    · rw [ComparisonTree.Admissible]
      exact ⟨hl, hr⟩
    · rw [ComparisonTree.nesting]
      exact Nat.max_le.mpr ⟨hnl, hnr⟩
    · rw [ComparisonTree.tokens, htokens, htokens', List.map_append, List.map_cons, hop]
    · rw [ComparisonTree.value]

theorem consumes_chain {δ : Type} {P : δ → Prop} {tokens : δ → List Token} {value : δ → Constraint}
    {p : Parser Constraint} (k : Keyword) (op : Operator)
    (hp : Consumes p (Derived P tokens value)) :
    Consumes (chain k op p) (Derived (fun r : δ × List δ => P r.1 ∧ ∀ d ∈ r.2, P d)
      (fun r => tokens r.1 ++ r.2.flatMap fun d => .keyword k :: tokens d)
      fun r => (r.2.map value).foldl (.binary op) (value r.1)) := by
  refine hp.bind fun ts c hc => ((Consumes.eat _).many hp).map _ fun us cs hcs => ?_
  obtain ⟨d, hd, rfl, rfl⟩ := hc
  obtain ⟨ds, hds, rfl, rfl⟩ := hcs
  exact ⟨(d, ds), ⟨hd, hds⟩, rfl, rfl⟩

theorem consumes_conjunction {p : Parser Constraint}
    (hp : Consumes p (Derived (fun d => d.Admissible ∧ d.nesting ≤ n)
      NegationTree.tokens NegationTree.value)) :
    Consumes (conjunction p) (Derived (fun d => d.Admissible ∧ d.nesting ≤ n)
      ConjunctionTree.tokens ConjunctionTree.value) := by
  refine (consumes_chain .and .and hp).mono fun ts c hc => ?_
  obtain ⟨⟨first, rest⟩, ⟨hfirst, hrest⟩, rfl, rfl⟩ := hc
  refine ⟨.conjunction first rest, ⟨?_, ?_⟩, ?_, ?_⟩
  · rw [ConjunctionTree.Admissible]
    exact ⟨hfirst.1, fun d hd => (hrest d hd).1⟩
  · exact ConjunctionTree.nesting_conjunction_le_iff.mpr ⟨hfirst.2, fun d hd => (hrest d hd).2⟩
  · rw [ConjunctionTree.tokens]
  · rw [ConjunctionTree.value]

theorem consumes_disjunction {p : Parser Constraint}
    (hp : Consumes p (Derived (fun d => d.Admissible ∧ d.nesting ≤ n)
      NegationTree.tokens NegationTree.value)) :
    Consumes (disjunction p) (Derived (fun d => d.Admissible ∧ d.nesting ≤ n + 1)
      ConstraintTree.tokens ConstraintTree.value) := by
  refine (consumes_chain .or .or (consumes_conjunction hp)).mono fun ts c hc => ?_
  obtain ⟨⟨first, rest⟩, ⟨hfirst, hrest⟩, rfl, rfl⟩ := hc
  refine ⟨.disjunction first rest, ⟨?_, ?_⟩, ?_, ?_⟩
  · rw [ConstraintTree.Admissible]
    exact ⟨hfirst.1, fun d hd => (hrest d hd).1⟩
  · exact ConstraintTree.nesting_disjunction_le_iff.mpr ⟨hfirst.2, fun d hd => (hrest d hd).2⟩
  · rw [ConstraintTree.tokens]
  · rw [ConstraintTree.value]

theorem consumes_negation_comparison
    (hinner : Consumes inner (Derived (fun d => d.Admissible ∧ d.nesting ≤ n)
      ConstraintTree.tokens ConstraintTree.value)) :
    Consumes (comparison inner) (Derived (fun d => d.Admissible ∧ d.nesting ≤ n)
      NegationTree.tokens NegationTree.value) := by
  refine (consumes_comparison hinner).mono fun ts c hc => ?_
  obtain ⟨d, ⟨hd, hn⟩, rfl, rfl⟩ := hc
  refine ⟨.comparison d, ⟨?_, ?_⟩, ?_, ?_⟩
  · rwa [NegationTree.Admissible]
  · rwa [NegationTree.nesting]
  · rw [NegationTree.tokens]
  · rw [NegationTree.value]

theorem consumes_negation (n : Nat) : Consumes (negationWithin n)
    (Derived (fun d => d.Admissible ∧ d.nesting ≤ n) NegationTree.tokens NegationTree.value) := by
  induction n with
  | zero =>
    refine (Consumes.eat _).bind fun ts b hts => ?_
    cases b with
    | true => exact .fail _
    | false =>
      -- without a level there are still comparisons of plain atoms
      rw [hts]
      exact consumes_negation_comparison (.fail _)
  | succ n ih =>
    refine (Consumes.eat _).bind fun ts b hts => ?_
    rw [hts]
    cases b with
    | true =>
      refine ih.map Constraint.not fun us c hc => ?_
      obtain ⟨d, ⟨hd, hn⟩, rfl, rfl⟩ := hc
      refine ⟨.not d, ⟨?_, ?_⟩, ?_, ?_⟩
      · rwa [NegationTree.Admissible]
      · rw [NegationTree.nesting]
        exact Nat.succ_le_succ hn
      · rw [NegationTree.tokens]
        rfl
      · rw [NegationTree.value]
    | false => exact consumes_negation_comparison (consumes_disjunction ih)

theorem consumes_constraint (n : Nat) : Consumes (constraintWithin n)
    (Derived (fun d => d.Admissible ∧ d.nesting ≤ n)
      ConstraintTree.tokens ConstraintTree.value) := by
  cases n with
  | zero => exact .fail _
  | succ n => exact consumes_disjunction (consumes_negation n)

end Constraint

/-! ## Assertions -/

theorem consumes_guarded {levels : Nat} {f : Fact} {fs : List Fact} :
    Consumes (guarded levels f fs) (Derived
      (fun c? : Option ConstraintTree => ∀ c ∈ c?, c.Admissible ∧ c.nesting ≤ levels)
      ClaimTree.guardTokens
      fun c? => { consequent := f, antecedents := fs
                  constraint := (c?.map ConstraintTree.value).getD .trivial }) := by
  refine (Consumes.eat _).bind fun ts b hts => ?_
  rw [hts]
  cases b with
  | false => exact .pure ⟨none, by simp, rfl, rfl⟩
  | true =>
    refine (consumes_constraint levels).map (fun c => Claim.mk f fs c) fun us c hc => ?_
    obtain ⟨d, hd, rfl, rfl⟩ := hc
    exact ⟨some d, by simpa using hd, rfl, rfl⟩

theorem consumes_claim (levels : Nat) : Consumes (claimWithin levels)
    (Derived (fun d => d.Admissible ∧ d.nesting ≤ levels) ClaimTree.tokens ClaimTree.value) := by
  rw [claim_eq]
  refine (consumes_fact levels).bind fun ts f hf => (Consumes.eat _).bind fun us b hus => ?_
  obtain ⟨consequent, ⟨hf, hn⟩, rfl, rfl⟩ := hf
  rw [hus]
  cases b with
  | false =>
    refine consumes_guarded.mono fun vs c hc => ?_
    obtain ⟨c?, hc, rfl, rfl⟩ := hc
    refine ⟨⟨consequent, [], c?⟩,
      ⟨⟨hf, List.forall_mem_nil _, fun c h => (hc c h).1⟩, ?_⟩, rfl, rfl⟩
    exact ClaimTree.nesting_le_iff.mpr ⟨hn, List.forall_mem_nil _, fun c h => (hc c h).2⟩
  | true =>
    refine ((consumes_fact levels).separated _).bind fun vs fs hfs => ?_
    obtain ⟨⟨g, gs⟩, hfs, rfl, rfl⟩ := hfs
    have hfs : ∀ f ∈ g :: gs, f.Admissible ∧ f.nesting ≤ levels := List.forall_mem_cons.mpr hfs
    refine consumes_guarded.mono fun vs c hc => ?_
    obtain ⟨c?, hc, rfl, rfl⟩ := hc
    refine ⟨⟨consequent, g :: gs, c?⟩,
      ⟨⟨hf, fun f h => (hfs f h).1, fun c h => (hc c h).1⟩, ?_⟩, ?_, rfl⟩
    · exact ClaimTree.nesting_le_iff.mpr ⟨hn, fun f h => (hfs f h).2, fun c h => (hc c h).2⟩
    · rw [ClaimTree.tokens, ClaimTree.conditionTokens, commas_map_cons]
      rfl

theorem consumes_assertion (levels : Nat) : Consumes (assertionWithin levels)
    (Derived (fun d => d.Admissible ∧ d.nesting ≤ levels)
      AssertionTree.tokens AssertionTree.value) := by
  refine consumes_entity.bind fun ts e he => (Consumes.expect _).bind fun us _ hus =>
    (consumes_claim levels).bind fun vs c hc =>
      (Consumes.expect _).map (fun _ => (e, c)) fun ws _ hws => ?_
  obtain ⟨speaker, hs, rfl, rfl⟩ := he
  obtain ⟨claim, ⟨hc, hn⟩, rfl, rfl⟩ := hc
  refine ⟨⟨speaker, claim⟩, ⟨⟨hs, hc⟩, hn⟩, ?_, rfl⟩
  rw [AssertionTree.tokens, hus, hws]
  rfl

end Parser

end AuthLogic
