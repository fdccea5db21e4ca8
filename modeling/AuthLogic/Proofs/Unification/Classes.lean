import Mathlib.Logic.Relation
import AuthLogic.Proofs.Unification.Places

/-! # Classes of entities

Matching two terms links the entities at the same places, and so divides entities
into classes. A unifier takes every variable to the entity that stands for its
class: to the constant of the class, or else to the least variable in it. Which
bindings it is made of depends on the order in which terms are matched, but what
it does to terms does not.
-/

namespace AuthLogic

open Matchable

/-! ## Links -/

section Linked

variable {τ : Type} [Matchable τ] {a b : τ} {σ : Assignment} {x y : Entity}

/-- The least equivalence of entities, written types aside, that holds between those at the same
places of two terms. -/
def Matchable.Linked (a b : τ) : Entity → Entity → Prop :=
  Relation.EqvGen fun x y => ∃ p ∈ places a b, x = Term.untyped p.1 ∧ y = Term.untyped p.2

theorem Assignment.apply_untyped (σ : Assignment) (x : Entity) :
    σ.apply (Term.untyped x) = σ.apply x :=
  Term.replace_replace _ _ x

/-- Entities of a class are made equal along with those at the same places. -/
theorem Matchable.Linked.apply_eq (h : Linked a b x y) (hσ : AgreeAt (places a b) σ) :
    σ.apply x = σ.apply y := by
  induction h with
  | rel x y h =>
    obtain ⟨p, hp, rfl, rfl⟩ := h
    rw [σ.apply_untyped, σ.apply_untyped]
    exact hσ p hp
  | refl x => rfl
  | symm x y _ ih => exact ih.symm
  | trans x y z _ _ ih ih' => exact ih.trans ih'

end Linked

/-! ## Representatives -/

/-- The entity that stands for a variable in an equivalence: the constant of its class, or else the
least variable of the class. -/
structure IsRepresentative (R : Entity → Entity → Prop) (v : Variable) (e : Entity) : Prop where
  related : R (.var ⟨v, none⟩) e
  constant : ∀ c, R (.var ⟨v, none⟩) (.const c) → e = .const c
  least : ∀ m n, e = .var m → R (.var ⟨v, none⟩) (.var n) → m.var = n.var ∨ m.var < n.var

open Classical in
/-- The assignment with another value on a class of variables. -/
noncomputable def Assignment.recolor (σ : Assignment) (C : Entity → Prop) (e : Entity) :
    Assignment :=
  fun v => if C (.var ⟨v, none⟩) then e else σ v

section Representative

variable {τ : Type} [Matchable τ] {a b : τ} {σ : Assignment} {v : Variable} {e : Entity}

open Classical in
theorem Assignment.recolor_apply {C : Entity → Prop} (hC : ∀ c, ¬ C (.const c)) (x : Entity) :
    (σ.recolor C e).apply x = if C (Term.untyped x) then e else σ.apply x := by
  cases x with
  | const c => exact (if_neg (hC c)).symm
  | var m => rfl

/-- As long as a class has no constant, its variables can take any common value. -/
theorem agreeAt_recolor (hconst : ∀ c, ¬ Linked a b (.var ⟨v, none⟩) (.const c))
    (hσ : AgreeAt (places a b) σ) :
    AgreeAt (places a b) (σ.recolor (Linked a b (.var ⟨v, none⟩)) e) := by
  intro p hp
  have hlink : Linked a b (Term.untyped p.1) (Term.untyped p.2) := .rel _ _ ⟨p, hp, rfl, rfl⟩
  have hiff : Linked a b (.var ⟨v, none⟩) (Term.untyped p.1) ↔
      Linked a b (.var ⟨v, none⟩) (Term.untyped p.2) :=
    ⟨fun h => h.trans _ _ _ hlink, fun h => h.trans _ _ _ (hlink.symm _ _)⟩
  rw [Assignment.recolor_apply hconst, Assignment.recolor_apply hconst]
  by_cases hm : Linked a b (.var ⟨v, none⟩) (Term.untyped p.1)
  · rw [if_pos hm, if_pos (hiff.mp hm)]
  · rw [if_neg hm, if_neg (mt hiff.mpr hm), hσ p hp]

variable {θ : Substitution}

/-- A variable is resolved within its class. Otherwise its class could take another value than the
entity that it is resolved to. -/
theorem linked_assignment (hp : Placewise a b) (hd : θ.Downward)
    (hs : ∀ σ, θ.SolvedBy σ ↔ Agree a b σ) (v : Variable) :
    Linked a b (.var ⟨v, none⟩) (θ.assignment v) := by
  have hagree : Agree a b θ.assignment := (hs _).mp hd.solvedBy_assignment
  by_cases hconst : ∃ c, Linked a b (.var ⟨v, none⟩) (.const c)
  · obtain ⟨c, hc⟩ := hconst
    have hv : θ.assignment v = .const c := hc.apply_eq hagree.agreeAt
    rwa [hv]
  · rw [not_exists] at hconst
    refine Classical.byContradiction fun hout => ?_
    have hvalue (e : Entity) : θ.assignment v = e := by
      have hsolves : θ.SolvedBy (θ.assignment.recolor (Linked a b (.var ⟨v, none⟩)) e) :=
        (hs _).mpr (hp _ _ hagree (agreeAt_recolor hconst hagree.agreeAt))
      have hv := hsolves.apply_assignment hd v
      rw [Assignment.recolor_apply hconst, θ.untyped_assignment, if_neg hout,
        hd.solvedBy_assignment.apply_assignment hd] at hv
      exact hv.trans (if_pos (.refl _))
    cases (hvalue (.const default)).symm.trans (hvalue (.var default))

theorem isRepresentative_assignment (hp : Placewise a b) (hd : θ.Downward)
    (hs : ∀ σ, θ.SolvedBy σ ↔ Agree a b σ) (v : Variable) :
    IsRepresentative (Linked a b) v (θ.assignment v) := by
  have hagree : AgreeAt (places a b) θ.assignment :=
    ((hs _).mp hd.solvedBy_assignment).agreeAt
  refine ⟨linked_assignment hp hd hs v, fun c hc => hc.apply_eq hagree, fun m n hm hn => ?_⟩
  have hn : θ.assignment v = θ.assignment n.var := hn.apply_eq hagree
  exact hd.eq_or_lt_of_assignment (hn.symm.trans hm)

end Representative

/-! ## Order -/

theorem agree_list_iff {τ : Type} [Matchable τ] {as bs : List τ} (h : as.length = bs.length)
    {σ : Assignment} : Agree as bs σ ↔ ∀ p ∈ as.zip bs, Agree p.1 p.2 σ := by
  induction as generalizing bs with
  | nil =>
    cases bs with
    | nil => exact ⟨fun _ => List.forall_mem_nil _, fun _ => rfl⟩
    | cons b bs => cases h
  | cons a as ih =>
    cases bs with
    | nil => cases h
    | cons b bs =>
      rw [agree_cons_iff, ih (Nat.succ.inj h), List.zip_cons_cons, List.forall_mem_cons]

/-- Matching the elements of two lists in another order fails in the same cases and has the same
effect on all terms, and each variable ends at the representative of its class. -/
theorem unifyList_perm (k : Kind) {as bs as' bs' : List k.Carrier} (h : as.length = bs.length)
    (h' : as'.length = bs'.length) (hperm : (as.zip bs).Perm (as'.zip bs')) :
    (unifyList as bs = none ↔ unifyList as' bs' = none) ∧
    (∀ θ η : Substitution, unifyList as bs = some θ → unifyList as' bs' = some η →
      ∀ (τ : Type) [Term τ] (t : τ), Term.Same (θ.apply t) (η.apply t)) ∧
    ∀ θ : Substitution, unifyList as bs = some θ → ∀ m : Mention,
      IsRepresentative (Linked as bs) m.var (Term.untyped (θ.apply (Entity.var m))) := by
  have hsolves (cs ds : List k.Carrier) :
      Unification.Solves (fun _ => True) (Agree cs ds) (unifyList cs ds) :=
    unifies_list k.unifies cs ds _ (fun _ _ => trivial) (fun _ _ => trivial)
  have hagree (σ : Assignment) : Agree as bs σ ↔ Agree as' bs' σ := by
    rw [agree_list_iff h, agree_list_iff h']
    exact forall_congr' fun p => imp_congr_left hperm.mem_iff
  refine ⟨?_, fun θ η hθ hη τ _ t => ?_, fun θ hθ m => ?_⟩
  · have hnone := (hsolves as bs).eq_none_iff
    have hnone' := (hsolves as' bs').eq_none_iff
    simp only [hagree] at hnone
    exact hnone.trans hnone'.symm
  · obtain ⟨hdθ, hsθ⟩ := (hθ ▸ hsolves as bs).of_some
    obtain ⟨hdη, hsη⟩ := (hη ▸ hsolves as' bs').of_some
    have heq : θ.assignment = η.assignment :=
      hdθ.assignment_eq hdη fun σ => (hsθ σ).trans ((hagree σ).trans (hsη σ).symm)
    rw [Term.Same, ← θ.assignment_apply, ← η.assignment_apply, heq]
  · obtain ⟨hd, hs⟩ := (hθ ▸ hsolves as bs).of_some
    have hm : Term.untyped (θ.apply (Entity.var m)) = θ.assignment m.var := θ.untyped_resolve m
    rw [hm]
    exact isRepresentative_assignment (placewise_list k.placewise as bs) hd hs m.var

/-- The facts `X reads Y` and `Y can-say inf Z can-act-as Admin`, matched with `Y reads Z` and `Alice
can-say inf Z can-act-as Admin` in both orders: the bindings differ, and `Z` is `Alice` by both. -/
theorem unifyList_perm_delegation :
    let entity (n : String) : Entity := .var ⟨⟨n, ⟨1⟩⟩, none⟩
    let reads (e d : Entity) : Fact := ⟨e, .predicate "reads" [d], none⟩
    let trusts (e d : Entity) : Fact := ⟨e, .canSay .unbounded d (.canActAs ⟨"Admin"⟩) none, none⟩
    let alice : Entity := .const ⟨"Alice"⟩
    let as : List Fact := [reads (entity "X") (entity "Y"), trusts (entity "Y") (entity "Z")]
    let bs : List Fact := [reads (entity "Y") (entity "Z"), trusts alice (entity "Z")]
    as.length = bs.length ∧ (as.zip bs).Perm (as.reverse.zip bs.reverse) ∧
      ∃ θ η : Substitution, unifyList as bs = some θ ∧ unifyList as.reverse bs.reverse = some η ∧
        θ ≠ η ∧ Term.Same (θ.apply as) (η.apply as) ∧
        IsRepresentative (Linked as bs) ⟨"Z", ⟨1⟩⟩ alice := by
  intro entity reads trusts alice as bs
  let bound (y z : Entity) : Substitution :=
    .ofList [⟨⟨⟨"X", ⟨1⟩⟩, none⟩, alice⟩, ⟨⟨⟨"Y", ⟨1⟩⟩, none⟩, y⟩, ⟨⟨⟨"Z", ⟨1⟩⟩, none⟩, z⟩]
  have hperm : (as.zip bs).Perm (as.reverse.zip bs.reverse) := .swap _ _ []
  have hθ : unifyList as bs = some (bound (entity "X") (entity "X")) := by decide +kernel
  have hη : unifyList as.reverse bs.reverse = some (bound alice alice) := by decide +kernel
  have hlen : as.length = bs.length := rfl
  have hlen' : as.reverse.length = bs.reverse.length := rfl
  obtain ⟨-, hsame, hrep⟩ := unifyList_perm .fact hlen hlen' hperm
  have hz : Term.untyped ((bound (entity "X") (entity "X")).apply (entity "Z")) = alice := by
    decide +kernel
  exact ⟨hlen, hperm, _, _, hθ, hη, by decide +kernel, hsame _ _ hθ hη _ as,
    hz ▸ hrep _ hθ ⟨⟨"Z", ⟨1⟩⟩, none⟩⟩

end AuthLogic
