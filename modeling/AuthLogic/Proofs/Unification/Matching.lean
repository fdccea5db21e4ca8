import AuthLogic.Assertion
import AuthLogic.Proofs.Unification.Problem

/-! # Matching terms

Unifying two terms of one kind solves the problem of making them agree, at every
level: entities are matched by a single binding, and the terms built of them part
by part. Constraints, the speakers recorded on facts and the scopes of assertions
are not looked at.
-/

namespace AuthLogic

open Matchable
open Unification (Solves)

/-! ## Entities -/

namespace Entity

instance : Matchable Entity where
  essence e := e
  essence_replace _ _ := rfl

theorem over_iff {S : Entity → Prop} {e : Entity} : Over S e ↔ S e :=
  List.forall_mem_singleton

theorem unifies (a b : Entity) : Unifies a b := by
  intro S ha hb
  rw [over_iff] at ha hb
  change Solves S (fun σ => σ.apply a = σ.apply b) (a.unify b)
  cases a with
  | const a =>
    cases b with
    | const b =>
      rw [unify]
      split
      case isTrue h => exact .empty fun σ => congrArg _ (congrArg _ h)
      case isFalse h => exact .failure fun σ hσ => h (Entity.const.inj hσ)
    | var n => exact (Solves.bind hb ha fun m' h => by cases h).congr fun σ => eq_comm
  | var m =>
    cases b with
    | const b => exact Solves.bind ha hb fun m' h => by cases h
    | var n =>
      rw [unify]
      split
      case h_1 heq =>
        refine .empty fun σ => ?_
        change σ m.var = σ n.var
        rw [Std.LawfulEqOrd.eq_of_compare heq]
      case h_2 hgt =>
        refine Solves.bind ha hb fun m' h => ?_
        cases h
        exact Std.OrientedCmp.lt_of_gt hgt
      case h_3 hlt =>
        refine (Solves.bind hb ha fun m' h => ?_).congr fun σ => eq_comm
        cases h
        exact hlt

end Entity

/-! ## Lists -/

section Sequence

variable {τ : Type} [Matchable τ] {S : Entity → Prop}

theorem agree_cons_iff {a b : τ} {as bs : List τ} {σ : Assignment} :
    Agree (a :: as) (b :: bs) σ ↔ Agree a b σ ∧ Agree as bs σ := by
  change essence (σ.apply a) :: _ = essence (σ.apply b) :: _ ↔ _
  rw [List.cons.injEq]
  rfl

theorem over_cons_iff {a : τ} {as : List τ} : Over S (a :: as) ↔ Over S a ∧ Over S as := by
  change (∀ e ∈ List.flatMap Term.entities (essence a :: List.map essence as), S e) ↔ _
  simp only [List.flatMap_cons, List.mem_append, or_imp, forall_and]
  rfl

theorem solves_unifyRest (hu : ∀ a b : τ, Unifies a b) {as bs : List τ}
    (hlen : as.length = bs.length) (ha : Over S as) (hb : Over S bs) {u : Unification}
    {E : Assignment → Prop} (h : Solves S E u) :
    Solves S (fun σ => E σ ∧ Agree as bs σ) (unifyRest u as bs) := by
  induction as generalizing bs u E with
  | nil =>
    cases bs with
    | nil => exact h.congr fun σ => ⟨fun hσ => ⟨hσ, rfl⟩, And.left⟩
    | cons b bs => cases hlen
  | cons a as ih =>
    cases bs with
    | nil => cases hlen
    | cons b bs =>
      obtain ⟨ha, has⟩ := over_cons_iff.mp ha
      obtain ⟨hb, hbs⟩ := over_cons_iff.mp hb
      have hstep := h.andThen_unify (fun θ => hu (θ.apply a) (θ.apply b)) ha hb
      refine (ih (Nat.succ.inj hlen) has hbs hstep).congr fun σ => ?_
      rw [agree_cons_iff, and_assoc]

theorem unifies_list (hu : ∀ a b : τ, Unifies a b) (as bs : List τ) : Unifies as bs := by
  intro S ha hb
  change Solves S _ (unifyList as bs)
  rw [unifyList]
  split
  case isTrue hlen =>
    refine (solves_unifyRest hu hlen ha hb (.empty fun _ => trivial)).congr fun σ => ?_
    exact iff_of_eq (true_and _)
  case isFalse hlen =>
    refine .failure fun σ hσ => hlen ?_
    have h : (essence (σ.apply as)).length = (essence (σ.apply bs)).length := congrArg _ hσ
    change (List.map essence (List.map _ as)).length =
      (List.map essence (List.map _ bs)).length at h
    simpa only [List.length_map] using h

end Sequence

/-! ## Verb phrases and facts -/

def VerbPhrase.essence : VerbPhrase → VerbPhrase
  | predicate name args => predicate name args
  | canActAs role => canActAs role
  | canSay depth subject object _ => canSay depth subject object.essence none

instance : Matchable VerbPhrase where
  essence := VerbPhrase.essence
  essence_replace f v := by
    change (v.replace f).essence = v.essence.replace f
    induction v with
    | predicate name args => rfl
    | canActAs role => rfl
    | canSay depth subject object speaker? ih =>
      simp only [VerbPhrase.replace, VerbPhrase.essence, ih, Option.map_none]

def Fact.essence (f : Fact) : Fact where
  subject := f.subject
  object := f.object.essence

instance : Matchable Fact where
  essence := Fact.essence
  essence_replace f g := by
    change (g.replace f).essence = g.essence.replace f
    have h : (g.object.replace f).essence = g.object.essence.replace f :=
      Matchable.essence_replace f g.object
    simp only [Fact.replace, Fact.essence, h, Option.map_none]

namespace Fact

variable {f g : Fact} {S : Entity → Prop} {σ : Assignment}

theorem agree_iff : Agree f g σ ↔ Agree f.subject g.subject σ ∧ Agree f.object g.object σ := by
  change Fact.mk _ _ none = Fact.mk _ _ none ↔ _
  rw [Fact.mk.injEq]
  constructor
  · rintro ⟨hs, ho, -⟩
    exact ⟨hs, ho⟩
  · rintro ⟨hs, ho⟩
    exact ⟨hs, ho, rfl⟩

theorem over_iff : Over S f ↔ Over S f.subject ∧ Over S f.object := by
  rw [Entity.over_iff]
  exact List.forall_mem_cons

theorem unifies_of_object
    (hu : ∀ θ : Substitution, Unifies (θ.apply f.object) (θ.apply g.object)) : Unifies f g := by
  intro S hf hg
  obtain ⟨hfs, hfo⟩ := over_iff.mp hf
  obtain ⟨hgs, hgo⟩ := over_iff.mp hg
  refine ((Entity.unifies _ _ S hfs hgs).andThen_unify hu hfo hgo).congr fun σ => ?_
  exact agree_iff.symm

end Fact

namespace VerbPhrase

variable {σ : Assignment} {S : Entity → Prop}

theorem agree_predicate_iff {n m : String} {as bs : List Entity} :
    Agree (predicate n as) (predicate m bs) σ ↔ n = m ∧ Agree as bs σ := by
  change predicate n (σ.apply as) = predicate m (σ.apply bs) ↔
    n = m ∧ List.map id (σ.apply as) = List.map id (σ.apply bs)
  rw [predicate.injEq, List.map_id, List.map_id]

theorem agree_delegate_iff {d e : Depth} {f g : Fact} :
    Agree (delegate d f) (delegate e g) σ ↔ d = e ∧ Agree f g σ := by
  rw [Fact.agree_iff]
  change canSay d _ _ none = canSay e _ _ none ↔ _
  rw [canSay.injEq]
  constructor
  · rintro ⟨hd, hs, ho, -⟩
    exact ⟨hd, hs, ho⟩
  · rintro ⟨hd, hs, ho⟩
    exact ⟨hd, hs, ho, rfl⟩

theorem over_predicate_iff {n : String} {as : List Entity} :
    Over S (predicate n as) ↔ Over S as := by
  change (∀ e ∈ as, S e) ↔ ∀ e ∈ List.flatMap (fun e => [e]) (List.map id as), S e
  rw [List.map_id, List.flatMap_singleton']

/-- The delegated fact is matched under bindings found before it, and so the induction is on the
verb phrase before any mention is replaced. -/
theorem unifies_replace (v : VerbPhrase) (ρ : Mention → Entity) (w : VerbPhrase) :
    Unifies (v.replace ρ) w := by
  induction v generalizing ρ w with
  | predicate n as =>
    cases w with
    | predicate m bs =>
      intro S ha hb
      change Solves S _ (unify (predicate n _) (predicate m bs))
      rw [unify_predicate]
      split
      case isTrue h =>
        refine (unifies_list Entity.unifies _ bs S (over_predicate_iff.mp ha)
          (over_predicate_iff.mp hb)).congr fun σ => ?_
        constructor
        · exact fun hσ => agree_predicate_iff.mpr ⟨h, hσ⟩
        · exact fun hσ => (agree_predicate_iff.mp hσ).2
      case isFalse h => exact .failure fun σ hσ => h (agree_predicate_iff.mp hσ).1
    | _ => exact fun S _ _ => .failure fun σ hσ => by cases hσ
  | canActAs r =>
    cases w with
    | canActAs s =>
      intro S _ _
      change Solves S _ (if r = s then Unification.empty else none)
      split
      case isTrue h => exact .empty fun σ => congrArg canActAs h
      case isFalse h => exact .failure fun σ hσ => h (canActAs.inj hσ)
    | _ => exact fun S _ _ => .failure fun σ hσ => by cases hσ
  | canSay d subject object speaker? ih =>
    cases w with
    | canSay e subject₂ object₂ speaker₂? =>
      intro S ha hb
      let f : Fact := ⟨subject.replace ρ, object.replace ρ, speaker?.map (Entity.replace ρ)⟩
      let g : Fact := ⟨subject₂, object₂, speaker₂?⟩
      change Solves S (Agree (delegate d f) (delegate e g)) (unify (delegate d f) (delegate e g))
      rw [unify_delegate]
      split
      case isTrue h =>
        have hfact : Unifies f g := Fact.unifies_of_object fun θ => by
          have hθ : θ.apply f.object = object.replace fun m => (ρ m).replace θ.resolve :=
            (θ.apply_eq_replace f.object).trans (Term.replace_replace ρ θ.resolve object)
          rw [hθ]
          exact ih _ _
        refine (hfact S ha hb).congr fun σ => ?_
        constructor
        · exact fun hσ => agree_delegate_iff.mpr ⟨h, hσ⟩
        · exact fun hσ => (agree_delegate_iff.mp hσ).2
      case isFalse h => exact .failure fun σ hσ => h (agree_delegate_iff.mp hσ).1
    | _ => exact fun S _ _ => .failure fun σ hσ => by cases hσ

theorem unifies (v w : VerbPhrase) : Unifies v w := by
  have h := v.unifies_replace .var w
  rwa [show v.replace .var = v from Term.replace_var v] at h

end VerbPhrase

theorem Fact.unifies (f g : Fact) : Unifies f g :=
  unifies_of_object fun _ => VerbPhrase.unifies _ _

/-! ## Claims and assertions -/

instance : Matchable Claim where
  essence c := { consequent := c.consequent.essence, antecedents := c.antecedents.map Fact.essence }
  essence_replace f c := by
    change Claim.mk (Matchable.essence (Term.replace f c.consequent))
        (Matchable.essence (Term.replace f c.antecedents)) .trivial =
      Claim.mk (Term.replace f (Matchable.essence c.consequent))
        (Term.replace f (Matchable.essence c.antecedents)) .trivial
    rw [Matchable.essence_replace, Matchable.essence_replace]

namespace Claim

variable {c d : Claim} {S : Entity → Prop} {σ : Assignment}

theorem agree_iff :
    Agree c d σ ↔ Agree c.consequent d.consequent σ ∧ Agree c.antecedents d.antecedents σ := by
  change Claim.mk _ _ .trivial = Claim.mk _ _ .trivial ↔ _
  rw [Claim.mk.injEq]
  constructor
  · rintro ⟨hc, ha, -⟩
    exact ⟨hc, ha⟩
  · rintro ⟨hc, ha⟩
    exact ⟨hc, ha, rfl⟩

theorem over_iff : Over S c ↔ Over S c.consequent ∧ Over S c.antecedents := by
  change (∀ e ∈ Term.entities (essence c.consequent) ++ Term.entities (essence c.antecedents) ++ [],
    S e) ↔ _
  simp only [List.append_nil, List.mem_append, or_imp, forall_and]
  rfl

theorem unifies (c d : Claim) : Unifies c d := by
  intro S hc hd
  obtain ⟨hcc, hca⟩ := over_iff.mp hc
  obtain ⟨hdc, hda⟩ := over_iff.mp hd
  have hu (θ : Substitution) : Unifies (θ.apply c.antecedents) (θ.apply d.antecedents) :=
    unifies_list Fact.unifies _ _
  exact ((Fact.unifies _ _ S hcc hdc).andThen_unify hu hca hda).congr fun σ => agree_iff.symm

end Claim

instance : Matchable Assertion where
  essence a := { speaker := a.speaker, claim := essence a.claim, scope := .unscoped }
  essence_replace f a := congrArg (Assertion.mk _ · .unscoped) (essence_replace f a.claim)

namespace Assertion

variable {a b : Assertion} {S : Entity → Prop} {σ : Assignment}

theorem agree_iff : Agree a b σ ↔ Agree a.speaker b.speaker σ ∧ Agree a.claim b.claim σ := by
  change Assertion.mk _ _ .unscoped = Assertion.mk _ _ .unscoped ↔ _
  rw [Assertion.mk.injEq]
  constructor
  · rintro ⟨hs, hc, -⟩
    exact ⟨hs, hc⟩
  · rintro ⟨hs, hc⟩
    exact ⟨hs, hc, rfl⟩

theorem over_iff : Over S a ↔ Over S a.speaker ∧ Over S a.claim := by
  change (∀ e ∈ Term.entities (essence a.speaker) ++ Term.entities (essence a.claim), S e) ↔ _
  simp only [List.mem_append, or_imp, forall_and]
  rfl

theorem unifies (a b : Assertion) : Unifies a b := by
  intro S ha hb
  obtain ⟨has, hac⟩ := over_iff.mp ha
  obtain ⟨hbs, hbc⟩ := over_iff.mp hb
  have hu (θ : Substitution) : Unifies (θ.apply a.claim) (θ.apply b.claim) := Claim.unifies _ _
  exact ((Entity.unifies _ _ S has hbs).andThen_unify hu hac hbc).congr fun σ => agree_iff.symm

end Assertion

/-! ## Kinds of terms -/

/-- The kinds of terms that are unified, with lists of terms of one kind among them. -/
inductive Kind
  | entity
  | verbPhrase
  | fact
  | claim
  | assertion
  | list (k : Kind)

namespace Kind

/-- The terms of a kind. -/
def Carrier : Kind → Type
  | entity => Entity
  | verbPhrase => VerbPhrase
  | fact => Fact
  | claim => Claim
  | assertion => Assertion
  | list k => List k.Carrier

instance matchable : (k : Kind) → Matchable k.Carrier
  | entity => inferInstanceAs (Matchable Entity)
  | verbPhrase => inferInstanceAs (Matchable VerbPhrase)
  | fact => inferInstanceAs (Matchable Fact)
  | claim => inferInstanceAs (Matchable Claim)
  | assertion => inferInstanceAs (Matchable Assertion)
  | list k =>
    have := matchable k
    inferInstanceAs (Matchable (List k.Carrier))

theorem unifies (k : Kind) (a b : k.Carrier) : Unifies a b := by
  induction k with
  | entity => exact Entity.unifies a b
  | verbPhrase => exact VerbPhrase.unifies a b
  | fact => exact Fact.unifies a b
  | claim => exact Claim.unifies a b
  | assertion => exact Assertion.unifies a b
  | list k ih => exact unifies_list ih a b

end Kind

end AuthLogic
