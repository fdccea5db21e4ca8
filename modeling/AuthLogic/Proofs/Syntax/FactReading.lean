import AuthLogic.Proofs.Syntax.Levels
import AuthLogic.Proofs.Term.Bare

/-! # Reading facts back

The text of a legible fact is read as the fact itself, up to what the text does
not tell.
-/

namespace AuthLogic

/-- Tokens that go on neither with an entity nor with a list of entities. -/
def Token.EndsFact (t : Token) : Prop :=
  t ≠ .symbol .colon ∧ t ≠ .symbol .lparen ∧ ∀ text, t ≠ .str text ∧ t ≠ .name text

theorem Token.endsFact_keyword (k : Keyword) : (keyword k).EndsFact := by
  simp [EndsFact]

theorem Token.endsFact_symbol {s : Symbol} (h : s ≠ .colon) (h' : s ≠ .lparen) :
    (symbol s).EndsFact := by
  simp [EndsFact, h, h']

theorem Entity.token_eq (e : Entity) :
    (∃ text, e.token = .str text) ∨ ∃ text, e.token = .name text := by
  cases e with
  | const c =>
    rw [token]
    split
    · exact .inr ⟨_, rfl⟩
    · exact .inl ⟨_, rfl⟩
  | var m => exact .inr ⟨_, rfl⟩

theorem Entity.token_ne_symbol (e : Entity) (s : Symbol) : e.token ≠ .symbol s := by
  rcases e.token_eq with ⟨text, h⟩ | ⟨text, h⟩ <;> simp [h]

/-- Tokens among which there is no period. -/
def PeriodFree (ts : List Token) : Prop :=
  .symbol .period ∉ ts

namespace PeriodFree

variable {ts us : List Token} {t : Token}

theorem nil : PeriodFree [] := List.not_mem_nil

theorem cons (ht : t ≠ .symbol .period) (h : PeriodFree ts) : PeriodFree (t :: ts) :=
  List.not_mem_cons_of_ne_of_not_mem ht.symm h

theorem append (hts : PeriodFree ts) (hus : PeriodFree us) : PeriodFree (ts ++ us) :=
  fun h => (List.mem_append.mp h).elim hts hus

end PeriodFree

theorem VerbPhrase.periodFree (v : VerbPhrase) : PeriodFree v.tokens := by
  induction v with
  | predicate name args =>
    refine .cons (by simp) fun h => ?_
    obtain ⟨e, -, he⟩ := List.mem_map.mp h
    exact e.token_ne_symbol .period he
  | canActAs role =>
    exact .cons (by simp) (.cons ((Entity.const role).token_ne_symbol .period) .nil)
  | canSay depth subject object speaker? ih =>
    have hdepth : depth.token ≠ .symbol .period := by cases depth <;> simp [Depth.token]
    exact ((ih.cons (subject.token_ne_symbol .period)).cons hdepth).cons (by simp)

theorem VerbPhrase.head_tokens_ne (v : VerbPhrase) : ∀ t ∈ v.tokens.head?, t ≠ .symbol .colon := by
  intro t ht
  cases v <;> cases ht <;> simp

namespace Parser

variable {ls rest : List Lexeme}

/-! ## Entities -/

theorem declaredType?_of_ne (h : Next (· ≠ .symbol .colon) ls) :
    declaredType? ls = .ok (none, ls) :=
  bind_of_eq_ok (eat_of_ne h)

theorem reads_entity {e : Entity} (h : e.Legible) :
    Reads (· ≠ .symbol .colon) entity [e.token] (Term.bare e) := by
  intro ls rest hls hrest
  obtain ⟨⟨t, start, stop⟩, rfl, ht⟩ := List.map_eq_singleton_iff.mp hls
  have htype := declaredType?_of_ne hrest
  cases e with
  | const c =>
    rw [Entity.token] at ht
    split at ht
    case isTrue hc =>
      cases ht
      have hv := c.isVariableName_of_isBare hc
      simp [entity, htype, hv, bind, Except.bind, pure, Except.pure]
      rfl
    case isFalse =>
      cases ht
      rfl
  | var m =>
    cases ht
    simp [entity, htype, h.1, bind, Except.bind, pure, Except.pure]
    rfl

theorem entityFollows_of_ends (h : Next Token.EndsFact ls) :
    entityFollows ls = .ok (false, ls) := by
  unfold entityFollows
  split
  case h_1 => exact absurd rfl ((next_cons_iff.mp h).2.2 _).1
  case h_2 => exact absurd rfl ((next_cons_iff.mp h).2.2 _).2
  case h_3 => rfl

theorem entityFollows_cons {e : Entity} {l : Lexeme} (h : l.token = e.token) :
    entityFollows (l :: ls) = .ok (true, l :: ls) := by
  obtain ⟨t, start, stop⟩ := l
  rcases e.token_eq with ⟨text, ht⟩ | ⟨text, ht⟩ <;>
  · rw [ht] at h
    cases h
    rfl

theorem reads_entities {es : List Entity} (h : ∀ e ∈ es, e.Legible) :
    Reads Token.EndsFact (many entityFollows entity) (es.flatMap fun e => [e.token])
      (es.map Term.bare) := by
  refine reads_adjacent (fun e he => reads_entity (h e he))
    (fun e _ => ⟨_, [], rfl, e.token_ne_symbol .colon⟩) (fun e _ ls rest hls => ?_)
    (fun _ => entityFollows_of_ends) fun _ ht => ht.1
  obtain ⟨l, rfl, hl⟩ := List.map_eq_singleton_iff.mp hls
  exact entityFollows_cons hl

theorem reads_args {es : List Entity} (h : ∀ e ∈ es, e.Legible) :
    Reads Token.EndsFact args (es.map Entity.token) (es.map Term.bare) := by
  rw [List.map_eq_flatMap]
  intro ls rest hls hrest
  have hnext := next_flatMap (fun e _ => ⟨_, [], rfl, e.token_ne_symbol .lparen⟩) hls
    (hrest.mono fun t ht => ht.2.1)
  rw [args, liftM_eq, bind_of_eq_ok (eat_of_ne hnext)]
  exact reads_entities h ls rest hls hrest

/-! ## Facts -/

theorem reads_depth {F : Token → Prop} (d : Depth) : Reads F depth [d.token] d := by
  refine .of_token fun start stop ls => ?_
  cases d with
  | bounded hops =>
    have hn : Text.toUInt32? (Int64.ofNat hops.toNat).toInt = some hops := by
      rw [Depth.toInt_ofNat, Text.toUInt32?_toNat]
    simp only [Depth.token, depth, hn]
  | unbounded => rfl

theorem reads_role {c : Constant} (h : (Entity.const c).Legible) :
    Reads (· ≠ .symbol .colon) role [(Entity.const c).token] c := by
  intro ls rest hls hrest
  have he := reads_entity h ls rest hls hrest
  simp only [role, he]
  rfl

theorem reads_fact_of {subject : Entity} {v : VerbPhrase} {n : Nat} (hs : subject.Legible)
    (hv : Reads Token.EndsFact (verbPhrase (factWithin n)) v.tokens (Term.bare v)) :
    Reads Token.EndsFact (factWithin (n + 1)) (subject.token :: v.tokens)
      { subject := Term.bare subject, object := Term.bare v } :=
  (reads_entity hs).bind (hv.map fun object => Fact.mk (Term.bare subject) object none)
    v.head_tokens_ne fun _ ht => ht.1

theorem reads_verbPhrase {v : VerbPhrase} (h : v.Legible) {n : Nat} (hn : v.nesting ≤ n) :
    Reads Token.EndsFact (verbPhrase (factWithin n)) v.tokens (Term.bare v) := by
  induction v generalizing n with
  | predicate name args =>
    exact .cons (fun _ _ _ => rfl)
      ((reads_args h.2).map fun args => VerbPhrase.predicate name args)
  | canActAs role =>
    exact .cons (fun _ _ _ => rfl)
      (((reads_role h).mono fun t ht => ht.1).map VerbPhrase.canActAs)
  | canSay depth subject object speaker? ih =>
    obtain ⟨hs, ho, rfl⟩ := h
    cases n with
    | zero => cases hn
    | succ n =>
      have hfact := reads_fact_of hs (ih ho (Nat.le_of_succ_le_succ hn))
      exact .cons (fun _ _ _ => rfl) ((reads_depth depth).bind
        (q := fun d => factWithin (n + 1) >>= fun f => pure (VerbPhrase.delegate d f))
        (hfact.map (VerbPhrase.delegate depth)) (fun _ _ => trivial) fun _ _ => trivial)

theorem reads_fact {f : Fact} {levels : Nat} (h : f.Readable levels) :
    Reads Token.EndsFact (factWithin levels) f.tokens f.bare := by
  obtain ⟨⟨hs, ho⟩, hn⟩ := h
  cases levels with
  | zero => cases hn
  | succ n => exact reads_fact_of hs (reads_verbPhrase ho (Nat.le_of_lt_succ hn))

theorem withoutPeriod_of_periodFree (h : PeriodFree (ls.map Lexeme.token)) :
    withoutPeriod ls = ls := by
  rw [withoutPeriod, if_neg]
  intro hl
  exact h (List.mem_of_getLast? (by rw [List.getLast?_map]; exact hl))

theorem withoutPeriod_append {l : Lexeme} (h : l.token = .symbol .period) :
    withoutPeriod (ls ++ [l]) = ls := by
  have hlast : (ls ++ [l]).getLast?.map Lexeme.token = some (.symbol .period) := by
    rw [List.getLast?_append, List.getLast?_singleton, Option.some_or, Option.map_some, h]
  rw [withoutPeriod, if_pos hlast, List.dropLast_concat]

end Parser

theorem Fact.periodFree (f : Fact) : PeriodFree f.tokens :=
  f.object.periodFree.cons (f.subject.token_ne_symbol .period)

theorem parseFact_of_tokens {f : Fact} {text : String} {ls : List Lexeme}
    (h : f.Readable defaultLevels) (hls : Lexeme.ofText text = .ok ls)
    (hts : (Parser.withoutPeriod ls).map Lexeme.token = f.tokens) :
    parseFact text = .ok f.bare := by
  have hread := Parser.reads_fact h _ [] hts (Parser.next_nil _)
  rw [List.append_nil] at hread
  exact parseFact_eq_ok_iff.mpr ⟨ls, hls, hread⟩

/-- What the text of a legible fact is read as. -/
theorem parseFact_render {f : Fact} (h : f.Readable defaultLevels) :
    parseFact f.render = .ok f.bare := by
  obtain ⟨ls, hls, hts⟩ := h.1.spells.exists_ofText
  refine parseFact_of_tokens h hls ?_
  rw [Parser.withoutPeriod_of_periodFree (hts ▸ f.periodFree), hts]

/-- A period may follow. -/
theorem parseFact_render_period {f : Fact} (h : f.Readable defaultLevels) :
    parseFact (f.render ++ ".") = .ok f.bare := by
  have hperiod : Lexeme.Spells ['.'] [.symbol .period] :=
    .token (.symbol .period) (Token.lexable_symbol .period)
  have hs := h.1.spells.append (Lexeme.closed_cons_iff.mpr (by decide)) hperiod
  have htext : (f.render ++ ".").toList = f.render.toList ++ ['.'] := String.toList_append
  rw [← htext] at hs
  obtain ⟨ls, hls, hts⟩ := hs.exists_ofText
  obtain ⟨ls₁, ls₂, rfl, h₁, h₂⟩ := List.map_eq_append_iff.mp hts
  obtain ⟨l, rfl, hl⟩ := List.map_eq_singleton_iff.mp h₂
  refine parseFact_of_tokens h hls ?_
  rw [Parser.withoutPeriod_append hl, h₁]

end AuthLogic
