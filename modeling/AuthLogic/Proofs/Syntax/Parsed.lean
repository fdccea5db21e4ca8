import AuthLogic.Proofs.Syntax.Levels

/-! # Parsed terms

Terms that come from a text are legible, and their facts are nested no deeper
than the levels that they were read with.
-/

namespace AuthLogic.Parser

open Lexeme

variable {ls rest : List Lexeme}

/-! ## Names -/

theorem quote_notMem_of_run {text : String} (h : Token.Run Char.isUpper isNameChar text) :
    '"' ∉ text.toList := by
  obtain ⟨c, cs, hs, hc, hcs⟩ := h
  rw [hs]
  intro hq
  rcases List.mem_cons.mp hq with rfl | hq
  · exact absurd hc (by decide)
  · exact absurd (hcs _ hq) (by decide)

theorem token_const_of_run {name : String} (h : Token.Run Char.isUpper isNameChar name)
    (hv : isVariableName name = false) : (Entity.const ⟨name⟩).token = .name name := by
  obtain ⟨c, cs, hs, hc, hcs⟩ := h
  have hb : Constant.isBare ⟨name⟩ = true := by
    rw [Constant.isBare, hs]
    simp only [hc, hv, Bool.true_and, Bool.not_false, Bool.and_true, List.all_eq_true]
    exact hcs
  rw [Entity.token, if_pos hb]

/-! ## Entities -/

theorem yields_declaredType? : Yields declaredType? fun type? =>
    ∀ type ∈ type?, '"' ∉ type.toList := by
  refine (Yields.eat _).bind fun b _ => ?_
  cases b with
  | false =>
    refine .pure fun type h => ?_
    cases h
  | true =>
    refine Yields.peek.bind fun t? ht => ?_
    split
    case h_1 type =>
      refine Yields.tail.bind fun _ _ => .pure fun type' h => ?_
      cases h
      exact quote_notMem_of_run (ht _ rfl)
    case h_2 => exact .unexpected _

/-- An entity starts with a name or a string, which tells how it is written. -/
theorem entity_eq_ok {e : Entity} (hls : ∀ l ∈ ls, l.token.Lexable)
    (h : entity ls = .ok (e, rest)) :
    (e.Legible ∧ ∀ l ∈ rest, l.token.Lexable) ∧
      ∀ l ∈ ls.head?, ∀ name, l.token = .name name → e.token = .name name := by
  unfold entity at h
  split at h
  case h_1 s start stop ls =>
    cases h
    obtain ⟨hs, hrest⟩ := List.forall_mem_cons.mp hls
    refine ⟨⟨hs, hrest⟩, fun l hl name hname => ?_⟩
    cases hl
    cases hname
  case h_2 n start stop ls =>
    obtain ⟨hn, hls⟩ := List.forall_mem_cons.mp hls
    cases ht : declaredType? ls with
    | error e =>
      rw [ht] at h
      cases h
    | ok r =>
      obtain ⟨htype, hrest⟩ := yields_declaredType? ls r.1 r.2 hls ht
      rw [ht] at h
      dsimp only [bind, Except.bind] at h
      split at h
      case isTrue hv =>
        cases h
        refine ⟨⟨⟨hv, htype⟩, hrest⟩, fun l hl name hname => ?_⟩
        cases hl
        cases hname
        rfl
      case isFalse hv =>
        split at h
        · cases h
        · cases h
          refine ⟨⟨quote_notMem_of_run hn, hrest⟩, fun l hl name hname => ?_⟩
          cases hl
          cases hname
          exact token_const_of_run hn (Bool.eq_false_iff.mpr hv)
  case h_3 => cases h

theorem yields_entity : Yields entity Entity.Legible :=
  fun _ _ _ hls h => (entity_eq_ok hls h).1

/-! ## Facts -/

theorem yields_entityFollows : Yields entityFollows fun _ => True := by
  intro ls b rest hls h
  unfold entityFollows at h
  split at h <;> cases h <;> exact ⟨trivial, hls⟩

theorem yields_args : Yields args fun as => ∀ a ∈ as, a.Legible := by
  refine (Yields.eat _).bind fun b _ => ?_
  cases b with
  | true => exact yields_entity.untilClosed
  | false => exact .many yields_entityFollows yields_entity

theorem yields_depth : Yields depth fun _ => True := by
  intro ls d rest hls h
  unfold depth at h
  split at h
  case h_1 =>
    cases h
    exact ⟨trivial, (List.forall_mem_cons.mp hls).2⟩
  case h_2 =>
    split at h
    · cases h
      exact ⟨trivial, (List.forall_mem_cons.mp hls).2⟩
    · cases h
  case h_3 => cases h

theorem yields_role : Yields role fun c => (Entity.const c).Legible := by
  intro ls c rest hls h
  unfold role at h
  cases he : entity ls with
  | error e =>
    rw [he] at h
    cases h
  | ok r =>
    have hr := yields_entity ls r.1 r.2 hls he
    rw [he] at h
    obtain ⟨e, ls'⟩ := r
    cases e with
    | const c =>
      cases h
      exact hr
    | var m => cases h

theorem yields_fact (levels : Nat) :
    Yields (factWithin levels) fun f => f.Readable levels ∧ f.speaker? = none := by
  induction levels with
  | zero => exact .fail _
  | succ n ih =>
    refine yields_entity.bind fun subject hs => ?_
    refine Yields.bind (P := fun v => v.Legible ∧ v.nesting < n + 1) ?_ fun object ho =>
      .pure ⟨⟨⟨hs, ho.1⟩, ho.2⟩, rfl⟩
    refine Yields.peek.bind fun t? ht => ?_
    split
    case h_1 =>
      exact Yields.tail.bind fun _ _ => yields_role.bind fun c hc => .pure ⟨hc, Nat.succ_pos n⟩
    case h_2 =>
      refine Yields.tail.bind fun _ _ => yields_depth.bind fun d _ => ih.bind fun f hf => ?_
      exact .pure ⟨⟨hf.1.1.1, hf.1.1.2, hf.2⟩, Nat.succ_lt_succ hf.1.2⟩
    case h_3 name =>
      refine Yields.tail.bind fun _ _ => yields_args.bind fun as has => ?_
      exact .pure ⟨⟨ht _ rfl, has⟩, Nat.succ_pos n⟩
    case h_4 => exact .unexpected _

/-! ## Constraints -/

section Constraint

variable {inner p : Parser Constraint}

theorem yields_atom (hinner : Yields inner Constraint.Legible) :
    Yields (atom inner) Constraint.Legible := by
  intro ls c rest hls h
  obtain ⟨t?, mid, hp, h⟩ := bind_eq_ok_iff.mp h
  obtain ⟨ht, -⟩ := Yields.peek ls t? mid hls hp
  obtain ⟨hnext, rfl⟩ : ls.head?.map Lexeme.token = t? ∧ ls = mid := by
    cases hp
    exact ⟨rfl, rfl⟩
  -- An entity is the only atom that is read without taking the token first.
  cases t? with
  | none => cases h
  | some t =>
    have ht := ht t rfl
    cases t with
    | keyword k =>
      cases k with
      | true => exact Yields.tail.bind (fun _ _ => .pure (.bool true)) ls c rest hls h
      | false => exact Yields.tail.bind (fun _ _ => .pure (.bool false)) ls c rest hls h
      | _ => cases h
    | symbol s =>
      cases s with
      | lparen =>
        refine Yields.tail.bind (fun _ _ => ?_) ls c rest hls h
        exact hinner.bind fun _ hc => (Yields.expect _).bind fun _ _ => .pure hc
      | _ => cases h
    | int n => exact Yields.tail.bind (fun _ _ => .pure (.int n)) ls c rest hls h
    | str s => exact Yields.tail.bind (fun _ _ => .pure (.str ht)) ls c rest hls h
    | name name =>
      obtain ⟨l, hl, hname⟩ := Option.map_eq_some_iff.mp hnext
      obtain ⟨e, mid, he, h⟩ := bind_eq_ok_iff.mp h
      obtain ⟨⟨hlegible, hrest⟩, htoken⟩ := entity_eq_ok hls he
      cases h
      exact ⟨.entity hlegible (htoken l hl name hname), hrest⟩
    | word name =>
      refine Yields.tail.bind (fun _ _ => ?_) ls c rest hls h
      exact (Yields.expect _).bind fun _ _ => hinner.untilClosed.bind fun _ has =>
        .pure (.call ht has)

theorem legible_of_comparison? {t : Token} {build : Constraint → Constraint → Constraint}
    (h : comparison? t = some build) {l r : Constraint} (hl : l.Legible) (hr : r.Legible) :
    (build l r).Legible := by
  unfold comparison? at h
  split at h <;> cases h
  case h_1 | h_3 | h_4 => exact .binary hl hr
  case h_2 => exact .not (.binary hl hr)
  case h_5 | h_6 => exact .binary hr hl

theorem yields_comparison (hinner : Yields inner Constraint.Legible) :
    Yields (comparison inner) Constraint.Legible := by
  refine (yields_atom hinner).bind fun l hl => Yields.peek.bind fun t? _ => ?_
  split
  case h_1 build hbuild =>
    obtain ⟨t, -, hbuild⟩ := Option.bind_eq_some_iff.mp hbuild
    exact Yields.tail.bind fun _ _ => (yields_atom hinner).bind fun r hr =>
      .pure (legible_of_comparison? hbuild hl hr)
  case h_2 => exact .pure hl

theorem yields_chain (k : Keyword) (op : Operator) (hp : Yields p Constraint.Legible) :
    Yields (chain k op p) Constraint.Legible := by
  refine hp.bind fun c hc => (Yields.many (.eat _) hp).bind fun cs hcs => .pure ?_
  induction cs generalizing c with
  | nil => exact hc
  | cons d cs ih =>
    obtain ⟨hd, hcs⟩ := List.forall_mem_cons.mp hcs
    exact ih (.binary op c d) (.binary hc hd) hcs

theorem yields_disjunction (hp : Yields p Constraint.Legible) :
    Yields (disjunction p) Constraint.Legible :=
  yields_chain _ _ (yields_chain _ _ hp)

theorem yields_negation (n : Nat) : Yields (negationWithin n) Constraint.Legible := by
  induction n with
  | zero =>
    refine (Yields.eat _).bind fun b _ => ?_
    cases b with
    | true => exact .fail _
    | false => exact yields_comparison (.fail _)
  | succ n ih =>
    refine (Yields.eat _).bind fun b _ => ?_
    cases b with
    | true => exact ih.bind fun c hc => .pure (.not hc)
    | false => exact yields_comparison (yields_disjunction ih)

theorem yields_constraint (levels : Nat) : Yields (constraintWithin levels) Constraint.Legible := by
  cases levels with
  | zero => exact .fail _
  | succ n => exact yields_disjunction (yields_negation n)

end Constraint

/-! ## Assertions -/

/-- The rest of a claim, from its where-clause on. -/
def guarded (levels : Nat) (consequent : Fact) (antecedents : List Fact) : Parser Claim := do
  let constraint ← if ← eat (.keyword .where) then constraintWithin levels else pure .trivial
  return { consequent, antecedents, constraint }

theorem claim_eq (levels : Nat) :
    claimWithin levels = factWithin levels >>= fun f => eat (.keyword .if) >>= fun b =>
      if b then separated (.symbol .comma) (factWithin levels) >>= guarded levels f
      else guarded levels f [] := rfl

section Guarded

variable {levels : Nat} {f : Fact} {fs : List Fact}

theorem guarded_cons {l : Lexeme} (hl : l.token = .keyword .where) :
    guarded levels f fs (l :: ls) =
      (constraintWithin levels >>= fun constraint =>
        pure { consequent := f, antecedents := fs, constraint }) ls := by
  rw [guarded, bind_of_eq_ok (eat_cons hl)]
  rfl

theorem guarded_of_ne (h : Next (· ≠ .keyword .where) ls) :
    guarded levels f fs ls =
      .ok ({ consequent := f, antecedents := fs, constraint := .trivial }, ls) := by
  rw [guarded, bind_of_eq_ok (eat_of_ne h)]
  rfl

theorem yields_guarded
    (hf : f.Readable levels ∧ f.speaker? = none) (hfs : ∀ g ∈ fs, g.Readable levels) :
    Yields (guarded levels f fs) fun c =>
      c.Readable levels ∧ c.consequent.speaker? = none := by
  refine (Yields.eat _).bind fun b _ => ?_
  cases b with
  | true => exact (yields_constraint levels).bind fun c hc => .pure ⟨⟨hf.1, hfs, hc⟩, hf.2⟩
  | false => exact .pure ⟨⟨hf.1, hfs, .bool true⟩, hf.2⟩

end Guarded

theorem yields_claim (levels : Nat) :
    Yields (claimWithin levels) fun c => c.Readable levels ∧ c.consequent.speaker? = none := by
  rw [claim_eq]
  refine (yields_fact levels).bind fun f hf => (Yields.eat _).bind fun b _ => ?_
  cases b with
  | true =>
    exact (Yields.separated _ (yields_fact levels)).bind fun fs hfs =>
      yields_guarded hf fun g hg => (hfs g hg).1
  | false => exact yields_guarded hf (List.forall_mem_nil _)

theorem yields_assertion (levels : Nat) : Yields (assertionWithin levels) fun r =>
    r.1.Legible ∧ r.2.Readable levels ∧ r.2.consequent.speaker? = none :=
  yields_entity.bind fun _ he => (Yields.expect _).bind fun _ _ =>
    (yields_claim levels).bind fun _ hc => (Yields.expect _).bind fun _ _ => .pure ⟨he, hc⟩

theorem yields_policy (levels : Nat) : Yields (policyWithin levels) fun rs => ∀ r ∈ rs,
    r.1.Legible ∧ r.2.Readable levels ∧ r.2.consequent.speaker? = none :=
  .many (Yields.peek.bind fun _ _ => .pure trivial) (yields_assertion levels)

end AuthLogic.Parser
