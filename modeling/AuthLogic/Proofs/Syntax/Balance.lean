import AuthLogic.Proofs.Syntax.Reading

/-! # The count of open constructs

Every phrase closes the constructs that it opens. Wherever the count stands when a
phrase starts, it stands there again when the phrase has been read, for all limits.
-/

namespace AuthLogic.Parser

variable {α β : Type}

/-! ## Taking lexemes -/

/-- At least so many lexemes are taken, as far as there are any. -/
def Shortens (k : Nat) (p : Parser α) : Prop :=
  ∀ ls a rest, p ls = .ok (a, rest) → rest.length ≤ ls.length - k

namespace Shortens

variable {k : Nat} {p : Parser α} {q : α → Parser β}

theorem bind (hp : Shortens 0 p) (hq : ∀ a, Shortens 0 (q a)) : Shortens 0 (p >>= q) := by
  intro ls b rest h
  obtain ⟨a, mid, ha, hb⟩ := bind_eq_ok_iff.mp h
  exact Nat.le_trans (hq a mid b rest hb) (hp ls a mid ha)

theorem fail (cause : SyntaxError.Cause) : Shortens k (fail cause : Parser α) := by
  intro ls a rest h
  cases h

theorem unexpected (wanted : Wanted) : Shortens k (unexpected wanted : Parser α) := by
  intro ls a rest h
  cases h

theorem get : Shortens 0 (get : Parser (List Lexeme)) := by
  intro ls a rest h
  cases h
  exact Nat.le_refl _

theorem peek : Shortens 0 peek := by
  intro ls t? rest h
  cases h
  exact Nat.le_refl _

theorem skip : Shortens 1 skip := by
  intro ls _ rest h
  cases h
  exact Nat.le_of_eq List.length_tail

theorem eat (t : Token) : Shortens 0 (eat t) := by
  intro ls b rest h
  rcases eat_eq_ok h with ⟨-, l, rfl, -⟩ | ⟨-, rfl, -⟩
  · exact Nat.le_succ _
  · exact Nat.le_refl _

theorem expect (t : Token) : Shortens 1 (expect t) := by
  intro ls _ rest h
  obtain ⟨l, rfl, -⟩ := expect_eq_ok_iff.mp h
  exact Nat.le_refl _

theorem declaredType? : Shortens 0 declaredType? := by
  refine (eat _).bind fun b => ?_
  cases b with
  | false =>
    intro ls a rest h
    cases h
    exact Nat.le_refl _
  | true =>
    refine peek.bind fun t? => ?_
    split
    case h_1 type =>
      intro ls a rest h
      cases h
      exact Nat.le_trans (Nat.le_of_eq List.length_tail) (Nat.sub_le _ _)
    case h_2 => exact unexpected _

theorem entity : Shortens 1 entity := by
  intro ls e rest h
  unfold Parser.entity at h
  split at h
  case h_1 =>
    cases h
    exact Nat.le_refl _
  case h_2 n start stop ls =>
    cases ht : Parser.declaredType? ls with
    | error e =>
      rw [ht] at h
      cases h
    | ok r =>
      have hrest := declaredType? ls r.1 r.2 ht
      rw [ht] at h
      dsimp only [Bind.bind, Except.bind] at h
      split at h
      · cases h
        exact hrest
      · split at h
        · cases h
        · cases h
          exact hrest
  case h_3 => cases h

theorem entityFollows : Shortens 0 entityFollows := by
  intro ls b rest h
  unfold Parser.entityFollows at h
  split at h <;> cases h <;> exact Nat.le_refl _

theorem depth : Shortens 1 depth := by
  intro ls d rest h
  unfold Parser.depth at h
  split at h
  case h_1 =>
    cases h
    exact Nat.le_refl _
  case h_2 =>
    split at h
    · cases h
      exact Nat.le_refl _
    · cases h
  case h_3 => cases h

theorem role : Shortens 1 role := by
  intro ls c rest h
  unfold Parser.role at h
  cases he : Parser.entity ls with
  | error e =>
    rw [he] at h
    cases h
  | ok r =>
    have hrest := entity ls r.1 r.2 he
    rw [he] at h
    obtain ⟨e, ls'⟩ := r
    cases e with
    | const c =>
      cases h
      exact hrest
    | var m => cases h

end Shortens

namespace Counted

variable {p : Counted α} {q : α → Counted β} {d e f : Nat} {ls rest : List Lexeme}

theorem bind_eq_ok_iff {b : β} {n : Nat} :
    (p >>= q) d ls = .ok ((b, n), rest) ↔
      ∃ a e mid, p d ls = .ok ((a, e), mid) ∧ q a e mid = .ok ((b, n), rest) := by
  constructor
  · intro h
    obtain ⟨⟨a, e⟩, mid, ha, hb⟩ :=
      (Parser.bind_eq_ok_iff (p := p d) (q := fun r => q r.1 r.2)).mp h
    exact ⟨a, e, mid, ha, hb⟩
  · rintro ⟨a, e, mid, ha, hb⟩
    exact (Parser.bind_eq_ok_iff (p := p d) (q := fun r => q r.1 r.2)).mpr ⟨(a, e), mid, ha, hb⟩

theorem lift_eq_ok_iff {r : Parser α} {a : α} {n : Nat} :
    (liftM r : Counted α) d ls = .ok ((a, n), rest) ↔ r ls = .ok (a, rest) ∧ n = d := by
  constructor
  · intro h
    obtain ⟨b, mid, hb, h⟩ := (Parser.bind_eq_ok_iff (p := r) (q := fun a => pure (a, d))).mp h
    cases h
    exact ⟨hb, rfl⟩
  · rintro ⟨h, rfl⟩
    exact (Parser.bind_eq_ok_iff (p := r) (q := fun a => pure (a, n))).mpr ⟨a, rest, h, rfl⟩

/-! ## The count -/

/-- Reading that starts at a count ends at another one, and adds no lexemes. -/
def Leads (p : Counted α) (d e : Nat) : Prop :=
  ∀ ls a n rest, p d ls = .ok ((a, n), rest) → n = e ∧ rest.length ≤ ls.length

namespace Leads

theorem pure (a : α) : Leads (pure a) d d := by
  intro ls b n rest h
  cases h
  exact ⟨rfl, Nat.le_refl _⟩

theorem bind (hp : Leads p d e) (hq : ∀ a, Leads (q a) e f) : Leads (p >>= q) d f := by
  intro ls b n rest h
  obtain ⟨a, e', mid, ha, hb⟩ := bind_eq_ok_iff.mp h
  obtain ⟨rfl, hmid⟩ := hp ls a e' mid ha
  obtain ⟨rfl, hrest⟩ := hq a mid b n rest hb
  exact ⟨rfl, Nat.le_trans hrest hmid⟩

theorem enter (limit : Nat) : Leads (enter limit) d (d + 1) := by
  intro ls _ n rest h
  obtain ⟨_, d', mid, hd, h⟩ := bind_eq_ok_iff.mp h
  cases hd
  obtain ⟨n', d', mid, hd, h⟩ := bind_eq_ok_iff.mp h
  cases hd
  split at h <;> cases h
  exact ⟨rfl, Nat.le_refl _⟩

theorem leave : Leads leave (d + 1) d := by
  intro ls _ n rest h
  cases h
  exact ⟨rfl, Nat.le_refl _⟩

theorem unexpected (wanted : Wanted) : Leads (liftM (unexpected wanted : Parser α)) d e := by
  intro ls a n rest h
  cases h

end Leads

/-- The count is in the end what it was in the beginning. -/
def Balanced (p : Counted α) : Prop :=
  ∀ d, Leads p d d

namespace Balanced

variable {limit : Nat}

theorem lift {k : Nat} {r : Parser α} (h : Shortens k r) : Balanced (liftM r) := by
  intro d ls a n rest hlift
  obtain ⟨ha, rfl⟩ := lift_eq_ok_iff.mp hlift
  exact ⟨rfl, Nat.le_trans (h ls a rest ha) (Nat.sub_le _ _)⟩

theorem pure (a : α) : Balanced (pure a) :=
  fun _ => .pure a

theorem bind (hp : Balanced p) (hq : ∀ a, Balanced (q a)) : Balanced (p >>= q) :=
  fun d => (hp d).bind fun a => hq a d

/-- A construct is closed behind what stands in it. -/
theorem enclose {q : α → β} (hp : Balanced p) : Balanced (do
    enter limit
    let a ← p
    leave
    return q a) :=
  fun d => (Leads.enter limit).bind fun _ => (hp (d + 1)).bind fun a =>
    Leads.leave.bind fun _ => .pure (q a)

/-! ## Phrases -/

theorem manyWithin {more : Counted Bool} (hmore : Balanced more) (hp : Balanced p)
    (bound : List Lexeme) : Balanced (manyWithin more p bound) := by
  induction bound with
  | nil => exact .pure []
  | cons l bound ih =>
    refine hmore.bind fun b => ?_
    cases b with
    | true => exact hp.bind fun a => ih.bind fun as => .pure (a :: as)
    | false => exact .pure []

theorem many {more : Counted Bool} (hmore : Balanced more) (hp : Balanced p) :
    Balanced (many more p) :=
  (lift .get).bind fun bound => hmore.manyWithin hp bound

theorem separated (t : Token) (hp : Balanced p) : Balanced (separated t p) :=
  hp.bind fun a => (many (lift (.eat t)) hp).bind fun as => .pure (a :: as)

theorem untilClosed (hp : Balanced p) : Balanced (untilClosed p) := by
  refine (lift (.eat _)).bind fun b => ?_
  cases b with
  | true => exact .pure []
  | false =>
    exact (hp.separated _).bind fun items => (lift (.expect _)).bind fun _ => .pure items

theorem args : Balanced args := by
  refine (lift (.eat _)).bind fun b => ?_
  cases b with
  | true => exact (lift .entity).untilClosed
  | false => exact many (lift .entityFollows) (lift .entity)

theorem verbPhrase {fact : Counted Fact} (hfact : Balanced fact) : Balanced (verbPhrase fact) := by
  refine (lift .peek).bind fun t? => ?_
  split
  case h_1 => exact (lift .skip).bind fun _ => (lift .role).bind fun c => .pure _
  case h_2 =>
    exact (lift .skip).bind fun _ => (lift .depth).bind fun d => hfact.bind fun f => .pure _
  case h_3 => exact (lift .skip).bind fun _ => args.bind fun as => .pure _
  case h_4 => exact fun _ => .unexpected _

theorem atom {inner : Counted Constraint} (hinner : Balanced inner) : Balanced (atom inner) := by
  refine (lift .peek).bind fun t? => ?_
  have hother : Balanced (liftM (Parser.unexpected .constraint : Parser Constraint)) :=
    fun _ => .unexpected _
  cases t? with
  | none => exact hother
  | some t =>
    cases t with
    | int | str => exact (lift .skip).bind fun _ => .pure _
    | name => exact (lift .entity).bind fun e => .pure _
    | word name =>
      exact (lift .skip).bind fun _ => (lift (.expect _)).bind fun _ =>
        hinner.untilClosed.bind fun as => .pure _
    | keyword k =>
      cases k with
      | true | false => exact (lift .skip).bind fun _ => .pure _
      | _ => exact hother
    | symbol s =>
      cases s with
      | lparen =>
        exact (lift .skip).bind fun _ => hinner.bind fun c =>
          (lift (.expect _)).bind fun _ => .pure c
      | _ => exact hother

theorem comparison {inner : Counted Constraint} (hinner : Balanced inner) :
    Balanced (comparison inner) := by
  refine hinner.atom.bind fun l => (lift .peek).bind fun t? => ?_
  split
  · exact (lift .skip).bind fun _ => hinner.atom.bind fun r => .pure _
  · exact .pure l

theorem chain {operand : Counted Constraint} (k : Keyword) (op : Operator)
    (hoperand : Balanced operand) : Balanced (chain k op operand) :=
  hoperand.bind fun _ => (many (lift (.eat _)) hoperand).bind fun _ => .pure _

theorem disjunction {negation : Counted Constraint} (hnegation : Balanced negation) :
    Balanced (disjunction negation) :=
  (hnegation.chain .and .and).chain .or .or

theorem claimOf {fact : Counted Fact} {constraint : Counted Constraint} (hfact : Balanced fact)
    (hconstraint : Balanced constraint) : Balanced (claimOf fact constraint) := by
  have hguard (f : Fact) (fs : List Fact) : Balanced (do
      let constraint ← if ← Parser.eat (.keyword .where) then constraint else Pure.pure .trivial
      return Claim.mk f fs constraint) := by
    refine (lift (.eat _)).bind fun b => ?_
    cases b with
    | true => exact hconstraint.bind fun c => .pure _
    | false => exact .pure _
  refine hfact.bind fun f => (lift (.eat _)).bind fun b => ?_
  cases b with
  | true => exact (hfact.separated _).bind fun fs => hguard f fs
  | false => exact hguard f []

theorem assertionOf {claim : Counted Claim} (hclaim : Balanced claim) :
    Balanced (assertionOf claim) :=
  (lift .entity).bind fun _ => (lift (.expect _)).bind fun _ => hclaim.bind fun _ =>
    (lift (.expect _)).bind fun _ => .pure _

/-! ## Constructs -/

theorem fact (limit room : Nat) : Balanced (fact limit room) := by
  induction room with
  | zero => exact fun d => (Leads.enter limit).bind fun _ => .unexpected _
  | succ n ih =>
    intro d
    exact (Leads.enter limit).bind fun _ => (lift .entity (d + 1)).bind fun _ =>
      (ih.verbPhrase (d + 1)).bind fun _ => Leads.leave.bind fun _ => .pure _

theorem enclosed {negation : Counted Constraint} (hnegation : Balanced negation) :
    Balanced (enclosed limit negation) :=
  hnegation.disjunction.enclose (q := id)

theorem negation (limit room : Nat) : Balanced (negation limit room) := by
  induction room with
  | zero => exact fun _ => .unexpected _
  | succ n ih =>
    refine (lift (.eat _)).bind fun b => ?_
    cases b with
    | true => exact ih.enclose
    | false => exact ih.enclosed.comparison

theorem constraint (limit room : Nat) : Balanced (constraint limit room) :=
  (negation limit room).enclosed

theorem claim (limit room : Nat) : Balanced (claim limit room) :=
  (fact limit room).claimOf (constraint limit room)

theorem assertion (limit room : Nat) : Balanced (assertion limit room) :=
  (claim limit room).assertionOf

theorem policy (limit room : Nat) : Balanced (policy limit room) :=
  many ((lift .peek).bind fun _ => .pure _) (assertion limit room)

end Balanced

end Counted

end AuthLogic.Parser
