import AuthLogic.Proofs.Syntax.Balance

/-! # Levels

Counting from no open construct up to a limit is the same as counting down from the
limit: a phrase is read with one level for each further construct that may be open
inside of it, and reading recurses on the levels left. No level is used up by what
stands in front of a phrase, for what is read before it is balanced.
-/

namespace AuthLogic.Parser

variable {α β : Type}

/-! ## Reading with the levels left -/

def factWithin : (levels : Nat) → Parser Fact
  | 0 => fail .nestingTooDeep
  | n + 1 => do
    let subject ← entity
    let object ← verbPhrase (factWithin n)
    return { subject, object }

/-- A negation inside of which so many levels are left. -/
def negationWithin : (levels : Nat) → Parser Constraint
  | 0 => do
    if ← eat (.keyword .not) then fail .nestingTooDeep
    else comparison (fail .nestingTooDeep)
  | n + 1 => do
    if ← eat (.keyword .not) then return .not (← negationWithin n)
    else comparison (disjunction (negationWithin n))

def constraintWithin : (levels : Nat) → Parser Constraint
  | 0 => fail .nestingTooDeep
  | n + 1 => disjunction (negationWithin n)

theorem negationWithin_eq (n : Nat) : negationWithin n = (do
    if ← eat (.keyword .not) then
      (match n with
        | 0 => fail .nestingTooDeep
        | n + 1 => do return .not (← negationWithin n))
    else comparison (constraintWithin n)) := by
  cases n with
  | zero => rfl
  | succ n => rfl

def claimWithin (levels : Nat) : Parser Claim :=
  claimOf (factWithin levels) (constraintWithin levels)

def assertionWithin (levels : Nat) : Parser (Entity × Claim) :=
  assertionOf (claimWithin levels)

def policyWithin (levels : Nat) : Parser (List (Entity × Claim)) :=
  policyOf (assertionWithin levels)

/-! ## Counting up and counting down -/

namespace Counted

variable {p : Counted α} {q : α → Counted β} {r : Parser α} {s : α → Parser β}
  {d room : Nat} {ls : List Lexeme}

theorem run'_apply (p : Counted α) (d : Nat) (ls : List Lexeme) :
    p.run' d ls = (p d ls >>= fun x => .ok (x.1.1, x.2)) := rfl

theorem run'_bind (p : Counted α) (q : α → Counted β) (d : Nat) (ls : List Lexeme) :
    (p >>= q).run' d ls = (p d ls >>= fun x => (q x.1.1).run' x.1.2 x.2) := by
  have h : (p >>= q) d ls = (p d ls >>= fun x => q x.1.1 x.1.2 x.2) := rfl
  rw [run'_apply, h]
  cases p d ls with
  | error e => rfl
  | ok x => rfl

theorem run'_lift_bind (r : Parser α) (q : α → Counted β) (d : Nat) (ls : List Lexeme) :
    (liftM r >>= q).run' d ls = (r ls >>= fun x => (q x.1).run' d x.2) := by
  have h : (liftM r : Counted α) d ls = (r ls >>= fun x => .ok ((x.1, d), x.2)) := rfl
  rw [run'_bind, h]
  cases r ls with
  | error e => rfl
  | ok x => rfl

/-- At a count, and as long as there are so many lexemes at most, what is read with the count is
what is read without. -/
def Follows (room d : Nat) (p : Counted α) (r : Parser α) : Prop :=
  ∀ ls, ls.length ≤ room → p.run' d ls = r ls

namespace Follows

theorem mono {room' : Nat} (h : Follows room d p r) (hle : room' ≤ room) : Follows room' d p r :=
  fun ls hls => h ls (Nat.le_trans hls hle)

theorem pure (a : α) : Follows room d (pure a) (pure a) :=
  fun _ _ => rfl

theorem lift (r : Parser α) : Follows room d (liftM r) r := by
  intro ls _
  change (r ls >>= fun x => .ok ((x.1, d), x.2)) >>= (fun x => .ok (x.1.1, x.2)) = r ls
  cases r ls with
  | error e => rfl
  | ok x => rfl

theorem lift_bind {k : Nat} (hr : Shortens k r) (h : ∀ a, Follows (room - k) d (q a) (s a)) :
    Follows room d (liftM r >>= q) (r >>= s) := by
  intro ls hls
  rw [run'_lift_bind]
  change _ = r ls >>= fun x => s x.1 x.2
  cases hx : r ls with
  | error e => rfl
  | ok x => exact h x.1 x.2 (Nat.le_trans (hr ls x.1 x.2 hx) (Nat.sub_le_sub_right hls k))

/-- What is read first is balanced, so that what is read next starts at the same count. -/
theorem bind (hp : Balanced p) (h : Follows room d p r) (hq : ∀ a, Follows room d (q a) (s a)) :
    Follows room d (p >>= q) (r >>= s) := by
  intro ls hls
  rw [run'_bind]
  change _ = r ls >>= fun x => s x.1 x.2
  rw [← h ls hls, run'_apply]
  cases hx : p d ls with
  | error e => rfl
  | ok x =>
    obtain ⟨⟨a, e⟩, mid⟩ := x
    obtain ⟨rfl, hmid⟩ := hp d ls a e mid hx
    exact hq a mid (Nat.le_trans hmid hls)

/-- A token tells how to go on, and is taken in one of the two cases. -/
theorem eat_bind {t : Token} {q : Bool → Counted β} {s : Bool → Parser β}
    (htrue : Follows (room - 1) d (q true) (s true)) (hfalse : Follows room d (q false) (s false)) :
    Follows room d (liftM (eat t) >>= q) (eat t >>= s) := by
  intro ls hls
  rw [run'_lift_bind]
  rcases cons_or_next (· = t) ls with ⟨l, tail, rfl, hl⟩ | h
  · rw [Parser.bind_of_eq_ok (eat_cons hl), eat_cons hl]
    exact htrue tail (Nat.le_sub_one_of_lt hls)
  · rw [Parser.bind_of_eq_ok (eat_of_ne h), eat_of_ne h]
    exact hfalse ls hls

/-! ## Phrases -/

section Phrases

variable {p' : Parser α}

theorem manyWithin {more : Counted Bool} {more' : Parser Bool} (hmore : Balanced more)
    (h : Follows room d more more') (hp : Balanced p) (hr : Follows room d p r)
    (bound : List Lexeme) :
    Follows room d (manyWithin more p bound) (manyWithin more' r bound) := by
  induction bound with
  | nil => exact pure []
  | cons l bound ih =>
    refine bind hmore h fun b => ?_
    cases b with
    | true => exact bind hp hr fun a => bind (hmore.manyWithin hp bound) ih fun as => pure _
    | false => exact pure []

theorem many {more : Counted Bool} {more' : Parser Bool} (hmore : Balanced more)
    (h : Follows room d more more') (hp : Balanced p) (hr : Follows room d p r) :
    Follows room d (many more p) (many more' r) :=
  lift_bind .get fun bound => manyWithin hmore h hp hr bound

theorem separated (t : Token) (hp : Balanced p) (hr : Follows room d p r) :
    Follows room d (separated t p) (separated t r) :=
  bind hp hr fun _ => bind (Balanced.many (.lift (.eat t)) hp)
    (many (.lift (.eat t)) (lift _) hp hr) fun _ => pure _

theorem untilClosed (hp : Balanced p) (hr : Follows room d p r) :
    Follows room d (untilClosed p) (untilClosed r) :=
  eat_bind (pure []) (bind (hp.separated _) (separated _ hp hr) fun items =>
    lift_bind (.expect _) fun _ => pure items)

theorem args : Follows room d args args :=
  eat_bind (untilClosed (.lift .entity) (lift _))
    (many (.lift .entityFollows) (lift _) (.lift .entity) (lift _))

theorem verbPhrase {fact : Counted Fact} {fact' : Parser Fact} (hb : Balanced fact)
    (h : Follows room d fact fact') : Follows room d (verbPhrase fact) (verbPhrase fact') := by
  refine lift_bind .peek fun t? => ?_
  split
  case h_1 => exact lift_bind .skip fun _ => lift_bind .role fun _ => pure _
  case h_2 =>
    have hle : room - 0 - 1 - 1 ≤ room := by omega
    exact lift_bind .skip fun _ => lift_bind .depth fun _ => bind hb (h.mono hle) fun _ => pure _
  case h_3 => exact lift_bind .skip fun _ => bind .args args fun _ => pure _
  case h_4 => exact lift _

/-- What stands in parentheses has one lexeme less at least. -/
theorem atom {inner : Counted Constraint} {inner' : Parser Constraint} (hb : Balanced inner)
    (h : Follows (room - 1) d inner inner') : Follows room d (atom inner) (atom inner') := by
  refine lift_bind .peek fun t? => ?_
  cases t? with
  | none => exact lift _
  | some t =>
    cases t with
    | int | str => exact lift_bind .skip fun _ => pure _
    | name => exact lift_bind .entity fun _ => pure _
    | word name =>
      exact lift_bind .skip fun _ => lift_bind (.expect _) fun _ =>
        bind hb.untilClosed (untilClosed hb (h.mono (Nat.sub_le _ _))) fun _ => pure _
    | keyword k =>
      cases k with
      | true | false => exact lift_bind .skip fun _ => pure _
      | _ => exact lift _
    | symbol s =>
      cases s with
      | lparen =>
        exact lift_bind .skip fun _ => bind hb h fun c => lift_bind (.expect _) fun _ => pure c
      | _ => exact lift _

theorem comparison {inner : Counted Constraint} {inner' : Parser Constraint}
    (hb : Balanced inner) (h : Follows (room - 1) d inner inner') :
    Follows room d (comparison inner) (comparison inner') := by
  refine bind hb.atom (atom hb h) fun l => lift_bind .peek fun t? => ?_
  split
  · exact lift_bind .skip fun _ => bind hb.atom (atom hb (h.mono (Nat.sub_le _ _))) fun _ => pure _
  · exact pure l

theorem chain {operand : Counted Constraint} {operand' : Parser Constraint} (k : Keyword)
    (op : Operator) (hb : Balanced operand) (h : Follows room d operand operand') :
    Follows room d (chain k op operand) (chain k op operand') :=
  bind hb h fun _ => bind (Balanced.many (.lift (.eat _)) hb)
    (many (.lift (.eat _)) (lift _) hb h) fun _ => pure _

theorem disjunction {negation : Counted Constraint} {negation' : Parser Constraint}
    (hb : Balanced negation) (h : Follows room d negation negation') :
    Follows room d (disjunction negation) (disjunction negation') :=
  chain _ _ (hb.chain _ _) (chain _ _ hb h)

theorem claimOf {fact : Counted Fact} {fact' : Parser Fact} {constraint : Counted Constraint}
    {constraint' : Parser Constraint} (hfb : Balanced fact) (hf : Follows room d fact fact')
    (hcb : Balanced constraint) (hc : Follows room d constraint constraint') :
    Follows room d (claimOf fact constraint) (claimOf fact' constraint') := by
  have hguard {room' : Nat} (hle : room' ≤ room) (f : Fact) (fs : List Fact) : Follows room' d
      (do
        let constraint ← if ← Parser.eat (.keyword .where) then constraint else Pure.pure .trivial
        return Claim.mk f fs constraint)
      (do
        let constraint ← if ← Parser.eat (.keyword .where) then constraint' else Pure.pure .trivial
        return Claim.mk f fs constraint) :=
    eat_bind (bind hcb (hc.mono (Nat.le_trans (Nat.sub_le _ _) hle)) fun _ => pure _) (pure _)
  refine bind hfb hf fun f => eat_bind ?_ (hguard (Nat.le_refl _) f [])
  exact bind (hfb.separated _) (separated _ hfb (hf.mono (Nat.sub_le _ _))) fun fs =>
    hguard (Nat.sub_le _ _) f fs

theorem assertionOf {claim : Counted Claim} {claim' : Parser Claim} (hb : Balanced claim)
    (h : Follows room d claim claim') :
    Follows room d (assertionOf claim) (assertionOf claim') := by
  refine lift_bind .entity fun _ => lift_bind (.expect _) fun _ => ?_
  exact bind hb (h.mono (by omega)) fun _ => lift_bind (.expect _) fun _ => pure _

end Phrases

/-! ## Constructs -/

section Constructs

variable {limit n : Nat}

theorem enter_of_le {q : Unit → Counted α} (h : limit ≤ d) :
    Follows room d (enter limit >>= q) (fail .nestingTooDeep) := by
  intro ls _
  have henter : enter limit d ls = fail .nestingTooDeep ls := by
    change (if limit < d + 1 then (fail .nestingTooDeep : Counted Unit) else Pure.pure ())
      (d + 1) ls = _
    rw [if_pos (Nat.lt_succ_of_le h)]
    rfl
  rw [run'_bind, henter]
  rfl

theorem enter_of_lt {q : Unit → Counted α} (hlt : d < limit) (h : Follows room (d + 1) (q ()) r) :
    Follows room d (enter limit >>= q) r := by
  intro ls hls
  have henter : enter limit d ls = .ok (((), d + 1), ls) := by
    change (if limit < d + 1 then (fail .nestingTooDeep : Counted Unit) else Pure.pure ())
      (d + 1) ls = _
    rw [if_neg (Nat.not_lt_of_ge hlt)]
    rfl
  rw [run'_bind, henter]
  exact h ls hls

/-- A construct is closed behind what stands in it. -/
theorem leave (hp : Balanced p) (h : Follows room (d + 1) p r) (f : α → β) :
    Follows room (d + 1) (do let a ← p; leave; return f a) (do return f (← r)) :=
  bind hp h fun _ _ _ => rfl

theorem fact (h : limit = d + n) : Follows room d (fact limit room) (factWithin n) := by
  induction room generalizing d n with
  | zero =>
    cases n with
    | zero => exact enter_of_le (Nat.le_of_eq h)
    | succ n =>
      refine enter_of_lt (by omega) fun ls hls => ?_
      rw [List.eq_nil_of_length_eq_zero (Nat.eq_zero_of_le_zero hls)]
      rfl
  | succ room ih =>
    cases n with
    | zero => exact enter_of_le (Nat.le_of_eq h)
    | succ n =>
      refine enter_of_lt (by omega) (lift_bind .entity fun subject => ?_)
      exact leave (Balanced.fact limit room).verbPhrase
        (verbPhrase (.fact limit room) (ih (by omega))) fun object => Fact.mk subject object none

theorem enclosed {negation : Counted Constraint} (hb : Balanced negation) (h : limit = d + n)
    (hn : ∀ m, limit = d + 1 + m → Follows room (d + 1) negation (negationWithin m)) :
    Follows room d (enclosed limit negation) (constraintWithin n) := by
  cases n with
  | zero => exact enter_of_le (Nat.le_of_eq h)
  | succ n =>
    have hfollows := disjunction hb (hn n (by omega))
    rw [constraintWithin, ← bind_pure (Parser.disjunction (negationWithin n))]
    exact enter_of_lt (by omega) (leave hb.disjunction hfollows id)

theorem negation (h : limit = d + n) : Follows room d (negation limit room) (negationWithin n) := by
  induction room generalizing d n with
  | zero =>
    intro ls hls
    rw [List.eq_nil_of_length_eq_zero (Nat.eq_zero_of_le_zero hls)]
    cases n with
    | zero => rfl
    | succ n => rfl
  | succ room ih =>
    have hcomparison : Follows (room + 1) d _ (Parser.comparison (constraintWithin n)) :=
      comparison (Balanced.negation limit room).enclosed
        (enclosed (.negation limit room) h fun _ => ih)
    rw [negationWithin_eq]
    refine eat_bind ?_ hcomparison
    cases n with
    | zero => exact enter_of_le (Nat.le_of_eq h)
    | succ n =>
      exact enter_of_lt (by omega) (leave (.negation limit room) (ih (by omega)) Constraint.not)

theorem constraint (h : limit = d + n) :
    Follows room d (constraint limit room) (constraintWithin n) :=
  enclosed (.negation limit room) h fun _ => negation

theorem claim (h : limit = d + n) : Follows room d (claim limit room) (claimWithin n) :=
  claimOf (.fact limit room) (fact h) (.constraint limit room) (constraint h)

theorem assertion (h : limit = d + n) :
    Follows room d (assertion limit room) (assertionWithin n) :=
  assertionOf (.claim limit room) (claim h)

theorem policy (h : limit = d + n) : Follows room d (policy limit room) (policyWithin n) :=
  many ((Balanced.lift .peek).bind fun _ => .pure _) (lift_bind .peek fun _ => pure _)
    (.assertion limit room) (assertion h)

end Constructs

/-- What is read with a count is what is read with the levels left, and the count ends where it
started. -/
theorem eq_ok_iff (h : Follows room d p r) (hp : Balanced p) (hls : ls.length ≤ room) {a : α}
    {m : Nat} {rest : List Lexeme} :
    p d ls = .ok ((a, m), rest) ↔ r ls = .ok (a, rest) ∧ m = d := by
  rw [← h ls hls, run'_apply]
  constructor
  · intro hx
    rw [hx]
    exact ⟨rfl, (hp d ls a m rest hx).1⟩
  · rintro ⟨hx, rfl⟩
    cases hp' : p m ls with
    | error e =>
      rw [hp'] at hx
      cases hx
    | ok x =>
      obtain ⟨⟨b, e⟩, mid⟩ := x
      obtain ⟨rfl, -⟩ := hp m ls b e mid hp'
      rw [hp'] at hx
      cases hx
      rfl

end Follows

end Counted

/-! ## Nothing is open in the beginning -/

theorem fact_eq (levels : Nat) : fact levels = factWithin levels :=
  funext fun ls => Counted.Follows.fact (Nat.zero_add levels).symm ls (Nat.le_refl _)

theorem constraint_eq (levels : Nat) : constraint levels = constraintWithin levels :=
  funext fun ls => Counted.Follows.constraint (Nat.zero_add levels).symm ls (Nat.le_refl _)

theorem assertion_eq (levels : Nat) : assertion levels = assertionWithin levels :=
  funext fun ls => Counted.Follows.assertion (Nat.zero_add levels).symm ls (Nat.le_refl _)

theorem policy_eq (levels : Nat) : policy levels = policyWithin levels :=
  funext fun ls => Counted.Follows.policy (Nat.zero_add levels).symm ls (Nat.le_refl _)

end AuthLogic.Parser

namespace AuthLogic

/-! ## Whole texts -/

theorem parseFact_eq_ok_iff {text : String} {f : Fact} :
    parseFact text = .ok f ↔ ∃ ls, Lexeme.ofText text = .ok ls ∧
      Parser.factWithin defaultLevels (Parser.withoutPeriod ls) = .ok (f, []) := by
  rw [← Parser.fact_eq]
  exact Parser.ofText_complete_eq_ok_iff

theorem parseAssertion_eq_ok_iff {levels : Nat} {text : String} {r : Entity × Claim} :
    parseAssertion levels text = .ok r ↔
      ∃ ls, Lexeme.ofText text = .ok ls ∧ Parser.assertionWithin levels ls = .ok (r, []) := by
  rw [← Parser.assertion_eq]
  exact Parser.ofText_complete_eq_ok_iff (f := id)

theorem parsePolicy_eq_ok_iff {levels : Nat} {text : String} {rs : List (Entity × Claim)} :
    parsePolicy levels text = .ok rs ↔
      ∃ ls, Lexeme.ofText text = .ok ls ∧ Parser.policyWithin levels ls = .ok (rs, []) := by
  rw [← Parser.policy_eq]
  exact Parser.ofText_complete_eq_ok_iff (f := id)

end AuthLogic
