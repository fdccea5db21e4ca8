import AuthLogic.Proofs.Syntax.Unambiguity

/-! # Where reading stops

A reader of phrases stops behind the longest one that stands there, or in front of
the first token that none goes on with. This passes on from readers to those that
are put together from them, given which tokens may follow each phrase.
-/

namespace AuthLogic

/-- The tokens of a tree, in front of tokens of some kind, start with given ones, after which a
given token comes next, or nothing. -/
def Continues {δ : Type} (F : Token → Prop) (tokens : δ → List Token) (ts : List Token)
    (t? : Option Token) (d : δ) : Prop :=
  ∃ rest us, Starts F rest ∧ tokens d ++ rest = ts ++ us ∧ us.head? = t?

namespace Continues

variable {δ ε : Type} {F G : Token → Prop} {tokens : δ → List Token} {tokens' : ε → List Token}
  {ts us : List Token} {t : Token} {t? : Option Token} {d : δ} {e : ε}

theorem mono (h : Continues F tokens ts t? d) (hFG : ∀ t, F t → G t) :
    Continues G tokens ts t? d := by
  obtain ⟨rest, us, hrest, h⟩ := h
  exact ⟨rest, us, hrest.mono hFG, h⟩

/-- The tokens taken come first, if there are any. -/
theorem of_append (h : Continues F tokens (ts ++ us) t? d) :
    Continues F tokens ts (us.head?.or t?) d := by
  obtain ⟨rest, vs, hrest, heq, rfl⟩ := h
  exact ⟨rest, us ++ vs, hrest, heq.trans (List.append_assoc ..), List.head?_append⟩

theorem head_eq (h : Continues F tokens [] t? d) (hd : tokens d = t :: ts) : t? = some t := by
  obtain ⟨rest, us, -, heq, rfl⟩ := h
  rw [hd] at heq
  rw [← heq.trans (List.nil_append us)]
  rfl

/-- Where nothing is derived, what follows is next. -/
theorem of_tokens_eq_nil (h : Continues F tokens [] t? d) (hd : tokens d = []) :
    ∀ t ∈ t?, F t := by
  obtain ⟨rest, us, hrest, heq, rfl⟩ := h
  rw [hd] at heq
  exact (show rest = us from heq) ▸ hrest

theorem fst {r : δ × ε} (h : Continues G (fun r : δ × ε => tokens r.1 ++ tokens' r.2) ts t? r)
    (hFG : ∀ e rest, Starts G rest → Starts F (tokens' e ++ rest)) :
    Continues F tokens ts t? r.1 := by
  obtain ⟨rest, us, hrest, heq, ht⟩ := h
  exact ⟨tokens' r.2 ++ rest, us, hFG r.2 rest hrest, (List.append_assoc ..).symm.trans heq, ht⟩

theorem snd {r : δ × ε}
    (h : Continues G (fun r : δ × ε => tokens r.1 ++ tokens' r.2) (ts ++ us) t? r)
    (hr : tokens r.1 = ts) : Continues G tokens' us t? r.2 := by
  obtain ⟨rest, vs, hrest, heq, ht⟩ := h
  rw [← hr, List.append_assoc, List.append_assoc] at heq
  exact ⟨rest, vs, hrest, List.append_cancel_left heq, ht⟩

/-- If no tree goes on with the next token after the tokens taken, then these are the first one's. -/
theorem split {r : δ × ε}
    (h : Continues G (fun r : δ × ε => tokens r.1 ++ tokens' r.2) (ts ++ us) t? r)
    (hFG : ∀ e rest, Starts G rest → Starts F (tokens' e ++ rest))
    (hlast : ∀ d, Continues F tokens ts (us.head?.or t?) d → tokens d = ts) :
    tokens r.1 = ts ∧ Continues G tokens' us t? r.2 := by
  have hfst := hlast r.1 (h.of_append.fst hFG)
  exact ⟨hfst, h.snd hfst⟩

/-- A first token that cannot be the one of what follows belongs to the tree. -/
theorem tail (h : Continues F tokens (t :: ts) t? d)
    (htail : ∀ us, (∃ d, tokens d = t :: us) → ∃ e, tokens' e = us)
    (hnil : ∀ d, tokens d = [] → ¬ F t) :
    ∃ e, tokens d = t :: tokens' e ∧ Continues F tokens' ts t? e := by
  obtain ⟨rest, us, hrest, heq, ht⟩ := h
  cases hd : tokens d with
  | nil =>
    rw [hd] at heq
    rw [show rest = t :: (ts ++ us) from heq] at hrest
    exact absurd (starts_cons_iff.mp hrest) (hnil d hd)
  | cons u vs =>
    rw [hd] at heq
    obtain ⟨rfl, htokens⟩ := List.cons.inj heq
    obtain ⟨e, rfl⟩ := htail vs ⟨d, hd⟩
    exact ⟨e, rfl, rest, us, hrest, htokens, ht⟩

end Continues

namespace Parser

def nextToken (ls : List Lexeme) : Option Token :=
  ls.head?.map Lexeme.token

theorem nextToken_append (ls rest : List Lexeme) :
    nextToken (ls ++ rest) = (ls.map Lexeme.token).head?.or (nextToken rest) := by
  cases ls <;> rfl

theorem ne_nextToken_iff {t : Token} {ls : List Lexeme} :
    nextToken ls ≠ some t ↔ Next (· ≠ t) ls := by
  cases ls with
  | nil => simp [nextToken, Next]
  | cons l ls => simp [nextToken, Next]

/-- What may come of reading a phrase, where tokens of some kind may follow it. Nothing is said of
phrases that are nested too deep. -/
inductive Locates {α δ : Type} (F : Token → Prop) (tokens : δ → List Token) (ls : List Lexeme) :
    Except SyntaxError (α × List Lexeme) → Prop
  /-- The tokens taken are a phrase, and no phrase goes on from there with the next token. -/
  | read {a : α} (taken : List Lexeme) {rest : List Lexeme} (hls : ls = taken ++ rest)
      (hd : ∃ d, tokens d = taken.map Lexeme.token)
      (hlast : ∀ d, Continues F tokens (taken.map Lexeme.token) (nextToken rest) d →
        tokens d = taken.map Lexeme.token) :
      Locates F tokens ls (.ok (a, rest))
  /-- Some phrase goes on from the place of the error, but none with a token that is reported. -/
  | stuck {e : SyntaxError} (taken : List Lexeme) {rest : List Lexeme} (hls : ls = taken ++ rest)
      (hposition : e.position? = position? rest)
      (hviable : ∃ d us, tokens d = taken.map Lexeme.token ++ us)
      (hfirst : ∀ wanted found, e.cause = .expected wanted found →
        found = nextToken rest ∧ ∀ d, ¬ Continues F tokens (taken.map Lexeme.token) found d) :
      Locates F tokens ls (.error e)
  | tooDeep {e : SyntaxError} (h : e.cause = .nestingTooDeep) : Locates F tokens ls (.error e)

theorem bind_of_eq_error {α β : Type} {p : Parser α} {q : α → Parser β} {ls : List Lexeme}
    {e : SyntaxError} (h : p ls = .error e) : (p >>= q) ls = .error e := by
  change (p ls >>= fun r => q r.1 r.2) = .error e
  rw [h]
  rfl

namespace Locates

variable {α β δ ε : Type} {F G : Token → Prop} {tokens : δ → List Token}
  {tokens' : ε → List Token} {ls : List Lexeme} {l : Lexeme} {t : Token}

theorem nothing {a : α} (hd : ∃ d, tokens d = [])
    (hlast : ∀ d, Continues F tokens [] (nextToken ls) d → tokens d = []) :
    Locates F tokens ls (.ok (a, ls)) :=
  .read [] rfl hd hlast

theorem unexpected [Nonempty δ] (wanted : Wanted)
    (h : ∀ d, ∃ t ts, tokens d = t :: ts ∧ nextToken ls ≠ some t) :
    Locates (α := α) F tokens ls (unexpected wanted ls) := by
  obtain ⟨d⟩ := ‹Nonempty δ›
  refine .stuck [] rfl rfl ⟨d, tokens d, rfl⟩ fun wanted found hcause => ?_
  cases hcause
  refine ⟨rfl, fun d hd => ?_⟩
  obtain ⟨t, ts, htokens, ht⟩ := h d
  exact ht (hd.head_eq htokens)

/-- A check of what has been read may refuse it, at the place where it starts. -/
theorem checked {r : Except SyntaxError (α × List Lexeme)}
    {r' : Except SyntaxError (β × List Lexeme)} (h : Locates F tokens ls r)
    (hok : ∀ a rest, r = .ok (a, rest) → (∃ b, r' = .ok (b, rest)) ∨
      ∃ cause, r' = fail cause ls ∧ ∀ wanted found, cause ≠ .expected wanted found)
    (herror : ∀ e, r = .error e → r' = .error e) : Locates F tokens ls r' := by
  cases h with
  | read taken hls hd hlast =>
    rcases hok _ _ rfl with ⟨b, rfl⟩ | ⟨cause, rfl, hcause⟩
    · exact .read taken hls hd hlast
    · obtain ⟨d, hd⟩ := hd
      exact .stuck [] rfl rfl ⟨d, tokens d, rfl⟩
        fun wanted found h => absurd h (hcause wanted found)
  | stuck taken hls hposition hviable hfirst =>
    rw [herror _ rfl]
    exact .stuck taken hls hposition hviable hfirst
  | tooDeep h =>
    rw [herror _ rfl]
    exact .tooDeep h

theorem map {p : Parser α} (h : Locates F tokens ls (p ls)) (f : α → β) :
    Locates F tokens ls ((p >>= fun a => pure (f a)) ls) :=
  h.checked (fun a _ hp => .inl ⟨f a, bind_of_eq_ok hp⟩) fun _ hp => bind_of_eq_error hp

theorem mono {r : Except SyntaxError (α × List Lexeme)} (h : Locates F tokens ls r)
    (hGF : ∀ t, G t → F t) : Locates G tokens ls r := by
  cases h with
  | read taken hls hd hlast => exact .read taken hls hd fun d h => hlast d (h.mono hGF)
  | stuck taken hls hposition hviable hfirst =>
    refine .stuck taken hls hposition hviable fun wanted found hcause => ?_
    obtain ⟨hfound, hnone⟩ := hfirst wanted found hcause
    exact ⟨hfound, fun d h => hnone d (h.mono hGF)⟩
  | tooDeep h => exact .tooDeep h

/-- Phrases of another kind are told from these by their first tokens. -/
theorem of_head {r : Except SyntaxError (α × List Lexeme)} (h : Locates F tokens' ls r)
    (hsub : ∀ e, ∃ d, tokens d = tokens' e)
    (hhead : ∀ d, Continues F tokens [] (nextToken ls) d → ∃ e, tokens' e = tokens d) :
    Locates F tokens ls r := by
  have hcontinues {taken rest : List Lexeme} {d : δ} (hls : ls = taken ++ rest)
      (hd : Continues F tokens (taken.map Lexeme.token) (nextToken rest) d) :
      ∃ e, tokens' e = tokens d ∧
        Continues F tokens' (taken.map Lexeme.token) (nextToken rest) e := by
    have hnext : Continues F tokens [] ((taken.map Lexeme.token).head?.or (nextToken rest)) d :=
      hd.of_append
    rw [← nextToken_append, ← hls] at hnext
    obtain ⟨e, he⟩ := hhead d hnext
    refine ⟨e, he, ?_⟩
    rwa [Continues, he]
  cases h with
  | read taken hls hd hlast =>
    refine .read taken hls ?_ fun d hd => ?_
    · obtain ⟨e, he⟩ := hd
      obtain ⟨d, hd⟩ := hsub e
      exact ⟨d, hd.trans he⟩
    · obtain ⟨e, he, hcont⟩ := hcontinues hls hd
      exact he ▸ hlast e hcont
  | stuck taken hls hposition hviable hfirst =>
    refine .stuck taken hls hposition ?_ fun wanted found hcause => ?_
    · obtain ⟨e, us, he⟩ := hviable
      obtain ⟨d, hd⟩ := hsub e
      exact ⟨d, us, hd.trans he⟩
    · obtain ⟨rfl, hnone⟩ := hfirst wanted found hcause
      refine ⟨rfl, fun d hd => ?_⟩
      obtain ⟨e, -, hcont⟩ := hcontinues hls hd
      exact hnone e hcont
  | tooDeep h => exact .tooDeep h

/-- The same phrases, as trees of another kind. -/
theorem of_surjective {r : Except SyntaxError (α × List Lexeme)} (h : Locates F tokens' ls r)
    (f : ε → δ) (hf : f.Surjective) (htokens : ∀ e, tokens (f e) = tokens' e) :
    Locates F tokens ls r :=
  h.of_head (fun e => ⟨f e, htokens e⟩) fun d _ => by
    obtain ⟨e, rfl⟩ := hf d
    exact ⟨e, (htokens e).symm⟩

/-- A reader that takes a token and goes on with the rest of the phrases that start with it. -/
theorem cons (tokens' : ε → List Token) {r : Except SyntaxError (α × List Lexeme)}
    (h : Locates F tokens' ls r)
    (hl : l.token = t) (htail : ∀ ts, (∃ d, tokens d = t :: ts) ↔ ∃ e, tokens' e = ts)
    (hnil : ∀ d, tokens d = [] → ¬ F t) : Locates F tokens (l :: ls) r := by
  subst hl
  have hcontinues {ts : List Token} {t? : Option Token} {d : δ}
      (hd : Continues F tokens (l.token :: ts) t? d) :
      ∃ e, tokens d = l.token :: tokens' e ∧ Continues F tokens' ts t? e :=
    hd.tail (fun us => (htail us).mp) hnil
  cases h with
  | read taken hls hd hlast =>
    refine .read (l :: taken) (congrArg (l :: ·) hls) ((htail _).mpr hd) fun d hd => ?_
    obtain ⟨e, he, hcont⟩ := hcontinues hd
    rw [he, hlast e hcont, List.map_cons]
  | stuck taken hls hposition hviable hfirst =>
    refine .stuck (l :: taken) (congrArg (l :: ·) hls) hposition ?_ fun wanted found h => ?_
    · obtain ⟨e, us, he⟩ := hviable
      obtain ⟨d, hd⟩ := (htail _).mpr ⟨e, he⟩
      exact ⟨d, us, hd⟩
    · obtain ⟨hfound, hnone⟩ := hfirst wanted found h
      refine ⟨hfound, fun d hd => ?_⟩
      obtain ⟨e, -, hcont⟩ := hcontinues hd
      exact hnone e hcont
  | tooDeep h => exact .tooDeep h

/-- A token that is all of the phrase. -/
theorem token {a : α} (hl : l.token = t) (hd : ∃ d, tokens d = [t])
    (htail : ∀ d ts, tokens d = t :: ts → ts = []) (hnil : ∀ d, tokens d = [] → ¬ F t) :
    Locates F tokens (l :: ls) (.ok (a, ls)) := by
  refine .cons (fun _ : Unit => []) (.nothing ⟨(), rfl⟩ fun _ _ => rfl) hl (fun ts => ⟨?_, ?_⟩) hnil
  · rintro ⟨d, hd⟩
    exact ⟨(), (htail d ts hd).symm⟩
  · rintro ⟨-, rfl⟩
    exact hd

/-- One phrase after another, where the second one starts with what may follow the first one. -/
theorem bind [Nonempty ε] {p : Parser α} {q : α → Parser β} (hp : Locates F tokens ls (p ls))
    (hq : ∀ a rest, p ls = .ok (a, rest) → Locates G tokens' rest (q a rest))
    (hFG : ∀ e rest, Starts G rest → Starts F (tokens' e ++ rest)) :
    Locates G (fun r : δ × ε => tokens r.1 ++ tokens' r.2) ls ((p >>= q) ls) := by
  cases hr : p ls with
  | error e =>
    rw [hr] at hp
    rw [bind_of_eq_error hr]
    cases hp with
    | stuck taken hls hposition hviable hfirst =>
      refine .stuck taken hls hposition ?_ fun wanted found hcause => ?_
      · obtain ⟨d, us, hd⟩ := hviable
        obtain ⟨e⟩ := ‹Nonempty ε›
        refine ⟨(d, e), us ++ tokens' e, ?_⟩
        rw [hd, List.append_assoc]
      · obtain ⟨hfound, hnone⟩ := hfirst wanted found hcause
        exact ⟨hfound, fun r hcont => hnone r.1 (hcont.fst hFG)⟩
    | tooDeep h => exact .tooDeep h
  | ok r =>
    obtain ⟨a, mid⟩ := r
    have hq := hq a mid hr
    rw [hr] at hp
    rw [bind_of_eq_ok hr]
    cases hp with
    | read taken hls hd hlast =>
      obtain ⟨d, hd⟩ := hd
      -- the next token does not go on with the first phrase, so that it is the one read
      have hsplit {taken' rest : List Lexeme} {r : δ × ε} (hmid : mid = taken' ++ rest)
          (h : Continues G (fun r : δ × ε => tokens r.1 ++ tokens' r.2)
            ((taken ++ taken').map Lexeme.token) (nextToken rest) r) :
          tokens r.1 = taken.map Lexeme.token ∧
            Continues G tokens' (taken'.map Lexeme.token) (nextToken rest) r.2 := by
        rw [List.map_append] at h
        rw [hmid, nextToken_append] at hlast
        exact h.split hFG hlast
      have happend {taken' rest : List Lexeme} (hmid : mid = taken' ++ rest) :
          ls = (taken ++ taken') ++ rest := by
        rw [hls, hmid, List.append_assoc]
      generalize q a mid = r at hq ⊢
      cases hq with
      | read taken' hmid he hlast' =>
        refine .read (taken ++ taken') (happend hmid) ?_ fun r h => ?_
        · obtain ⟨e, he⟩ := he
          exact ⟨(d, e), by rw [hd, he, List.map_append]⟩
        · obtain ⟨hfst, hsnd⟩ := hsplit hmid h
          rw [hfst, hlast' r.2 hsnd, List.map_append]
      | stuck taken' hmid hposition hviable hfirst =>
        refine .stuck (taken ++ taken') (happend hmid) hposition ?_ fun wanted found hcause => ?_
        · obtain ⟨e, us, he⟩ := hviable
          exact ⟨(d, e), us, by rw [hd, he, List.map_append, List.append_assoc]⟩
        · obtain ⟨rfl, hnone⟩ := hfirst wanted found hcause
          exact ⟨rfl, fun r h => hnone r.2 (hsplit hmid h).2⟩
      | tooDeep h => exact .tooDeep h

/-! ## Lists -/

theorem expect (t : Token) (ls : List Lexeme) :
    Locates F (fun _ : Unit => [t]) ls (expect t ls) := by
  rcases cons_or_next (· = t) ls with ⟨l, ls, rfl, hl⟩ | h
  · rw [expect_cons hl]
    exact .read [l] rfl ⟨(), congrArg (· :: []) hl.symm⟩
      fun _ _ => congrArg (· :: []) hl.symm
  · have hls : Parser.expect t ls = Parser.unexpected (.token t) ls := bind_of_eq_ok (eat_of_ne h)
    rw [hls]
    exact .unexpected _ fun _ => ⟨t, [], rfl, ne_nextToken_iff.mpr h⟩

section Many

variable {G : Token → Prop} {S : Token → Prop} {sep : List Token} {more : Parser Bool}
  {item : Parser α}

/-- What tells a test for another item from the end of a list. -/
structure Tests (more : Parser Bool) (sep : List Token) (S : Token → Prop) : Prop where
  yes : ∀ l ls, S l.token → ∃ taken rest, l :: ls = taken ++ rest ∧
    taken.map Lexeme.token = sep ∧ more (l :: ls) = .ok (true, rest)
  no : ∀ ls, Next (¬ S ·) ls → more ls = .ok (false, ls)

theorem tests_eat (t : Token) : Tests (eat t) [t] (· = t) where
  yes l ls hl := ⟨[l], ls, rfl, congrArg (· :: []) hl, eat_cons hl⟩
  no _ h := eat_of_ne h

section Items

variable (hmore : Tests more sep S) (hitem : ∀ ls, Locates F tokens ls (item ls))
  (hhead : ∀ d, ∃ t ts, sep ++ tokens d = t :: ts ∧ S t) (hSF : ∀ t, S t → F t)
  (hGF : ∀ t, G t → F t ∧ ¬ S t)

include hhead

theorem stop {a : α} (hnext : Next (¬ S ·) ls) :
    Locates G (List.flatMap fun d => sep ++ tokens d) ls (.ok (a, ls)) := by
  refine .nothing ⟨[], rfl⟩ fun ds hds => ?_
  cases ds with
  | nil => rfl
  | cons d ds =>
    obtain ⟨t, ts, hd, ht⟩ := hhead d
    have hfirst := hds.head_eq (t := t) (by rw [List.flatMap_cons, hd]; rfl)
    exact absurd hfirst (ne_nextToken_iff.mpr (hnext.mono fun u hu h => hu (h ▸ ht)))

/-- A separator and an item take at least one lexeme. -/
theorem length_lt {a : α} {taken rest mid : List Lexeme} (hls : ls = taken ++ rest)
    (hsep : taken.map Lexeme.token = sep) (hread : Locates F tokens rest (.ok (a, mid))) :
    mid.length < ls.length := by
  cases hread with
  | read taken' hrest hd hlast =>
    obtain ⟨d, hd⟩ := hd
    obtain ⟨t, ts, htokens, -⟩ := hhead d
    have hpos := congrArg List.length htokens
    rw [← hsep, hd, ← List.map_append, List.length_map, List.length_cons] at hpos
    rw [hls, hrest, ← List.append_assoc, List.length_append, hpos]
    omega

include hSF hGF

theorem starts_items (ds : List δ) (rest : List Token) (hrest : Starts G rest) :
    Starts F ((ds.flatMap fun d => sep ++ tokens d) ++ rest) := by
  cases ds with
  | nil => exact hrest.mono fun t ht => (hGF t ht).1
  | cons d ds =>
    obtain ⟨t, ts, hd, ht⟩ := hhead d
    rw [List.flatMap_cons, hd]
    exact starts_cons_iff.mpr (hSF t ht)

include hmore hitem

theorem manyWithin_step [Nonempty δ] {k : Lexeme} {bound tail : List Lexeme} (hl : S l.token)
    (htail : ∀ mid, mid.length < (l :: tail).length →
      Locates G (List.flatMap fun d => sep ++ tokens d) mid (manyWithin more item bound mid)) :
    Locates G (List.flatMap fun d => sep ++ tokens d) (l :: tail)
      (manyWithin more item (k :: bound) (l :: tail)) := by
  obtain ⟨taken, rest, hls, hsep, hyes⟩ := hmore.yes l tail hl
  have hfirst : Locates (fun _ => True) (fun _ : Unit => sep) (l :: tail)
      (more (l :: tail)) := by
    rw [hyes]
    exact .read taken hls ⟨(), hsep.symm⟩ fun _ _ => hsep.symm
  have hrest : ∀ b mid, more (l :: tail) = .ok (b, mid) →
      Locates G (fun r : δ × List δ => tokens r.1 ++ r.2.flatMap fun d => sep ++ tokens d) mid
        ((if b then return (← item) :: (← manyWithin more item bound)
          else return [] : Parser (List α)) mid) := by
    rintro b mid hb
    rw [hyes] at hb
    cases hb
    refine (hitem rest).bind (fun a mid ha => ?_) (starts_items hhead hSF hGF)
    exact (htail mid (length_lt hhead hls hsep (ha ▸ hitem rest))).map (a :: ·)
  refine (hfirst.bind hrest fun _ _ _ _ _ => trivial).of_head ?_ ?_
  · rintro ⟨-, d, ds⟩
    exact ⟨d :: ds, by rw [List.flatMap_cons, List.append_assoc]⟩
  · intro ds hds
    cases ds with
    | nil => exact absurd hl (hGF _ (hds.of_tokens_eq_nil rfl _ rfl)).2
    | cons d ds => exact ⟨((), d, ds), by rw [List.flatMap_cons, List.append_assoc]⟩

theorem manyWithin [Nonempty δ] {bound : List Lexeme} (hbound : ls.length ≤ bound.length) :
    Locates G (List.flatMap fun d => sep ++ tokens d) ls (manyWithin more item bound ls) := by
  induction bound generalizing ls with
  | nil =>
    obtain rfl := List.length_eq_zero_iff.mp (Nat.le_zero.mp hbound)
    exact .stop hhead (next_nil _)
  | cons k bound ih =>
    rcases cons_or_next S ls with ⟨l, tail, rfl, hl⟩ | h
    · exact manyWithin_step hmore hitem hhead hSF hGF hl fun mid hmid =>
        ih (Nat.le_of_lt_succ (Nat.lt_of_lt_of_le hmid hbound))
    · rw [Parser.manyWithin, bind_of_eq_ok (hmore.no ls h)]
      exact .stop hhead h

theorem many [Nonempty δ] (ls : List Lexeme) :
    Locates G (List.flatMap fun d => sep ++ tokens d) ls (many more item ls) :=
  manyWithin hmore hitem hhead hSF hGF (Nat.le_refl _)

end Items

theorem many_eat [Nonempty δ] (hitem : ∀ ls, Locates F tokens ls (item ls)) (ht : F t)
    (ls : List Lexeme) :
    Locates (fun u => F u ∧ u ≠ t) (List.flatMap fun d => t :: tokens d) ls
      (Parser.many (eat t) item ls) :=
  many (tests_eat t) hitem (fun d => ⟨t, tokens d, rfl, rfl⟩) (fun _ hu => hu ▸ ht)
    (fun _ hu => hu) ls

/-- One or more items, whatever is made of them. -/
theorem items [Nonempty δ] (hitem : ∀ ls, Locates F tokens ls (item ls)) (ht : F t)
    (f : α → List α → β) (ls : List Lexeme) :
    Locates (fun u => F u ∧ u ≠ t)
      (fun r : δ × List δ => tokens r.1 ++ r.2.flatMap fun d => t :: tokens d) ls
      ((item >>= fun a => Parser.many (eat t) item >>= fun as => pure (f a as)) ls) :=
  (hitem ls).bind (fun a mid _ => (many_eat hitem ht mid).map (f a)) fun ds _ hrest =>
    (starts_flatMap ht ds).append (hrest.mono fun _ hu => hu.1)

theorem untilClosed [Nonempty δ] (hitem : ∀ ls, Locates F tokens ls (item ls))
    (hcomma : F (.symbol .comma)) (hrparen : F (.symbol .rparen))
    (hhead : ∀ d, ∃ u us, tokens d = u :: us ∧ u ≠ .symbol .rparen) (ls : List Lexeme) :
    Locates G (fun ds : List δ => commas (ds.map tokens) ++ [.symbol .rparen]) ls
      (untilClosed item ls) := by
  have hopen (d : δ) (ds : List δ) :
      ∃ u us, commas ((d :: ds).map tokens) ++ [.symbol .rparen] = u :: us ∧
        u ≠ .symbol .rparen := by
    obtain ⟨u, us, hd, hu⟩ := hhead d
    exact ⟨u, _, by rw [commas_map_cons, hd]; rfl, hu⟩
  rw [Parser.untilClosed, liftM_eq]
  rcases cons_or_next (· = .symbol .rparen) ls with ⟨l, ls, rfl, hl⟩ | h
  · rw [bind_of_eq_ok (eat_cons hl)]
    refine .token hl ⟨[], rfl⟩ (fun ds ts hds => ?_) fun ds hds => absurd hds (by simp)
    cases ds with
    | nil => exact (List.cons.inj hds).2.symm
    | cons d ds =>
      obtain ⟨u, us, hd, hu⟩ := hopen d ds
      exact absurd (List.cons.inj (hd.symm.trans hds)).1 hu
  · rw [bind_of_eq_ok (eat_of_ne h)]
    have hrest : ∀ as mid, separated (.symbol .comma) item ls = .ok (as, mid) →
        Locates G (fun _ : Unit => [.symbol .rparen]) mid
          ((Parser.expect (.symbol .rparen) >>= fun _ => pure as) mid) :=
      fun as mid _ => (expect _ mid).map fun _ => as
    refine ((items hitem hcomma List.cons ls).bind hrest fun _ _ _ =>
      starts_cons_iff.mpr ⟨hrparen, by simp⟩).of_head ?_ ?_
    · rintro ⟨⟨d, ds⟩, -⟩
      exact ⟨d :: ds, congrArg (· ++ _) (commas_map_cons d ds)⟩
    · intro ds hds
      cases ds with
      | nil => exact absurd (hds.head_eq rfl) (ne_nextToken_iff.mpr h)
      | cons d ds => exact ⟨((d, ds), ()), congrArg (· ++ _) (commas_map_cons d ds).symm⟩

end Many

end Locates

end Parser

end AuthLogic
