import AuthLogic.Proofs.Assertion.Construction
import AuthLogic.Proofs.Syntax.FactReading
import AuthLogic.Proofs.Syntax.Parsed
import AuthLogic.Proofs.Term.Ground

/-! # Readable assertions

An assertion that is read from a text can be written as a text: placing it in a
scope keeps it legible, and so do the antecedents that state its obligations.
-/

namespace AuthLogic

/-! ## Scopes -/

section Stamp

variable {s : Scope}

theorem Entity.Legible.stamp {e : Entity} (h : e.Legible) : (Term.stamp s e).Legible := by
  cases e <;> exact h

theorem VerbPhrase.Legible.stamp {v : VerbPhrase} (h : v.Legible) :
    (Term.stamp s v).Legible := by
  induction v with
  | predicate name args =>
    refine ⟨h.1, fun e he => ?_⟩
    obtain ⟨d, hd, rfl⟩ := List.mem_map.mp he
    exact (h.2 d hd).stamp
  | canActAs role => exact h
  | canSay depth subject object speaker? ih =>
    obtain ⟨hs, ho, rfl⟩ := h
    exact ⟨hs.stamp, ih ho, rfl⟩

theorem VerbPhrase.nesting_replace (σ : Mention → Entity) (v : VerbPhrase) :
    (Term.replace σ v).nesting = v.nesting := by
  induction v with
  | canSay depth subject object speaker? ih => exact congrArg (· + 1) ih
  | _ => rfl

theorem Constraint.Legible.stamp {c : Constraint} (h : c.Legible) :
    (Term.stamp s c).Legible := by
  induction h with
  | str h => exact .str h
  | int n => exact .int n
  | bool b => exact .bool b
  | @entity e name h htoken =>
    have hstamp : (Term.stamp s e).token = .name name := by cases e <;> exact htoken
    exact .entity h.stamp hstamp
  | @call name args hname hargs ih =>
    have hstamp : Term.stamp s (Constraint.call name args) = .call name (args.map (Term.stamp s)) :=
      congrArg _ (stampList_eq_map s args)
    rw [hstamp]
    refine .call hname fun arg harg => ?_
    obtain ⟨c, hc, rfl⟩ := List.mem_map.mp harg
    exact ih c hc
  | not h ih => exact .not ih
  | binary hl hr ihl ihr => exact .binary ihl ihr

variable {levels : Nat}

theorem Fact.Readable.stamp {f : Fact} (h : f.Readable levels) :
    (Term.stamp s f).Readable levels := by
  refine ⟨⟨h.1.1.stamp, h.1.2.stamp⟩, ?_⟩
  have hn : (Term.stamp s f.object).nesting = f.object.nesting := by
    rw [Term.stamp_eq_replace, VerbPhrase.nesting_replace]
  exact hn ▸ h.2

theorem Claim.Readable.stamp {c : Claim} (h : c.Readable levels) :
    (Term.stamp s c).Readable levels where
  consequent := h.consequent.stamp
  antecedents f hf := by
    obtain ⟨g, hg, rfl⟩ := List.mem_map.mp hf
    exact (h.antecedents g hg).stamp
  constraint := h.constraint.stamp

end Stamp

/-! ## Entities -/

theorem VerbPhrase.Legible.legible_of_mem {v : VerbPhrase} (h : v.Legible) {e : Entity}
    (he : e ∈ Term.entities v) : e.Legible := by
  induction v with
  | predicate name args => exact h.2 e he
  | canActAs role =>
    cases List.mem_singleton.mp he
    exact h
  | canSay depth subject object speaker? ih =>
    rcases List.mem_cons.mp he with rfl | he
    · exact h.1
    · exact ih h.2.1 he

theorem Constraint.Legible.legible_of_mem {c : Constraint} (h : c.Legible) {e : Entity}
    (he : e ∈ Term.entities c) : e.Legible := by
  induction h with
  | str | int | bool => cases he
  | entity h _ =>
    cases List.mem_singleton.mp he
    exact h
  | @call name args _ _ ih =>
    have he : e ∈ entitiesList args := he
    rw [entitiesList_eq_flatMap] at he
    obtain ⟨arg, harg, he⟩ := List.mem_flatMap.mp he
    exact ih arg harg he
  | not _ ih => exact ih he
  | binary _ _ ihl ihr =>
    rcases List.mem_append.mp he with he | he
    · exact ihl he
    · exact ihr he

theorem Fact.Legible.legible_of_mem {f : Fact} (h : f.Legible) {e : Entity}
    (he : e ∈ Term.entities f) : e.Legible := by
  rcases List.mem_cons.mp he with rfl | he
  · exact h.1
  · exact h.2.legible_of_mem he

theorem Claim.Readable.legible_of_mem {levels : Nat} {c : Claim} (h : c.Readable levels)
    {e : Entity} (he : e ∈ Term.entities c) : e.Legible := by
  rcases List.mem_append.mp he with he | he
  · rcases List.mem_append.mp he with he | he
    · exact h.consequent.1.legible_of_mem he
    · obtain ⟨f, hf, he⟩ := List.mem_flatMap.mp he
      exact (h.antecedents f hf).1.legible_of_mem he
  · exact h.constraint.legible_of_mem he

/-! ## Obligations -/

namespace Obligation

theorem mem_of_mem_distinct {o : Obligation} {os : List Obligation} (h : o ∈ distinct os) :
    o ∈ os := by
  induction os with
  | nil => exact h
  | cons p os ih =>
    rcases List.mem_cons.mp h with rfl | h
    · exact List.mem_cons_self
    · exact List.mem_cons_of_mem p (ih (List.mem_filter.mp h).1)

/-- The text of an obligation is that of a fact about its variable. -/
theorem exists_fact {m : Mention} {o : Obligation} (h : ofMention? m = some o) :
    ∃ type, m.type? = some type ∧
      o.text = Fact.render ⟨.var m, .predicate "is-a" [.const ⟨type⟩], none⟩ := by
  obtain ⟨text, htext, rfl⟩ := Option.map_eq_some_iff.mp h
  obtain ⟨type, htype, rfl⟩ := Option.map_eq_some_iff.mp htext
  refine ⟨type, htype, String.toList_inj.mp ?_⟩
  simp [Fact.render, VerbPhrase.render, Entity.render]

theorem lexable_isA : (Token.word "is-a").Lexable :=
  ⟨⟨'i', _, rfl, by decide, List.all_eq_true.mp (by decide)⟩, by decide⟩

/-- What the obligation of a legible variable is read as. -/
theorem exists_parseFact {m : Mention} {o : Obligation} (hm : (Entity.var m).Legible)
    (ho : ofMention? m = some o) :
    ∃ type, m.type? = some type ∧ parseFact o.text =
      .ok ⟨Term.bare (Entity.var m), .predicate "is-a" [.const ⟨type⟩], none⟩ := by
  obtain ⟨type, htype, htext⟩ := exists_fact ho
  have hargs : ∀ e ∈ [Entity.const ⟨type⟩], e.Legible :=
    List.forall_mem_singleton.mpr (hm.2 type htype)
  refine ⟨type, htype, ?_⟩
  rw [htext]
  exact parseFact_render ⟨⟨hm, lexable_isA, hargs⟩, Nat.succ_pos 63⟩

theorem readable_of_fact? {m : Mention} {o : Obligation} {f : Fact} {levels : Nat}
    (hm : (Entity.var m).Legible) (ho : ofMention? m = some o) (hf : o.fact? = some f)
    (hlevels : 0 < levels) : f.Readable levels := by
  obtain ⟨type, htype, hread⟩ := exists_parseFact hm ho
  rw [fact?, hread] at hf
  cases hf
  have hbare : (Term.bare (Entity.var m)).Legible := ⟨hm.1, by simp⟩
  have hargs : ∀ e ∈ [Entity.const ⟨type⟩], e.Legible :=
    List.forall_mem_singleton.mpr (hm.2 type htype)
  exact ⟨⟨hbare.stamp, lexable_isA, hargs⟩, hlevels⟩

end Obligation

namespace Claim

variable {levels : Nat}

theorem Readable.oblige {c : Claim} (h : c.Readable levels) {m : Mention} {o : Obligation}
    (hm : (Entity.var m).Legible) (ho : Obligation.ofMention? m = some o) :
    (c.oblige o).Readable levels := by
  unfold Claim.oblige
  split
  case h_1 f hf =>
    split
    · exact h
    · have hlevels := Nat.zero_lt_of_lt h.consequent.2
      refine ⟨h.consequent, fun g hg => ?_, h.constraint⟩
      rcases List.mem_append.mp hg with hg | hg
      · exact h.antecedents g hg
      · cases List.mem_singleton.mp hg
        exact Obligation.readable_of_fact? hm ho hf hlevels
  case h_2 => exact h

theorem Readable.foldl_oblige {os : List Obligation} {c : Claim} (h : c.Readable levels)
    (hos : ∀ o ∈ os, ∃ m, (Entity.var m).Legible ∧ Obligation.ofMention? m = some o) :
    (os.foldl Claim.oblige c).Readable levels := by
  induction os generalizing c with
  | nil => exact h
  | cons o os ih =>
    obtain ⟨⟨m, hm, ho⟩, hos⟩ := List.forall_mem_cons.mp hos
    exact ih (h.oblige hm ho) hos

theorem Readable.expand {speaker : Entity} {c : Claim} (hs : speaker.Legible)
    (h : c.Readable levels) : (c.expand speaker).Readable levels := by
  refine h.foldl_oblige fun o ho => ?_
  obtain ⟨m, hm, ho⟩ := List.mem_filterMap.mp (Obligation.mem_of_mem_distinct ho)
  refine ⟨m, ?_, ho⟩
  rcases List.mem_append.mp hm with hm | hm
  · have he := Term.mem_mentions_iff.mp hm
    cases List.mem_singleton.mp he
    exact hs
  · exact h.legible_of_mem (Term.mem_mentions_iff.mp hm)

/-- Obligations concern the antecedents only. -/
theorem foldl_oblige_eq (os : List Obligation) (c : Claim) :
    (os.foldl Claim.oblige c).consequent = c.consequent ∧
      (os.foldl Claim.oblige c).constraint = c.constraint := by
  induction os generalizing c with
  | nil => exact ⟨rfl, rfl⟩
  | cons o os ih =>
    have ho : (c.oblige o).consequent = c.consequent ∧ (c.oblige o).constraint = c.constraint := by
      unfold Claim.oblige
      split
      · split <;> exact ⟨rfl, rfl⟩
      · exact ⟨rfl, rfl⟩
    rw [List.foldl_cons, (ih _).1, (ih _).2]
    exact ho

end Claim

namespace Assertion

theorem consequent_inScope (scope : Scope) (speaker : Entity) (claim : Claim) :
    (inScope scope speaker claim).claim.consequent = Term.stamp scope claim.consequent :=
  (Claim.foldl_oblige_eq _ _).1

theorem constraint_inScope (scope : Scope) (speaker : Entity) (claim : Claim) :
    (inScope scope speaker claim).claim.constraint = Term.stamp scope claim.constraint :=
  (Claim.foldl_oblige_eq _ _).2

theorem readable_inScope {levels : Nat} {scope : Scope} {speaker : Entity} {claim : Claim}
    (hs : speaker.Legible) (h : claim.Readable levels) :
    (inScope scope speaker claim).Readable levels := by
  have hclaim : ((Term.stamp scope claim).expand (Term.stamp scope speaker)).Readable levels :=
    h.stamp.expand hs.stamp
  refine ⟨hs.stamp, hclaim.consequent, fun f hf => ?_, hclaim.constraint⟩
  obtain ⟨g, hg, rfl⟩ := List.mem_map.mp hf
  exact hclaim.antecedents g hg

end Assertion

end AuthLogic
