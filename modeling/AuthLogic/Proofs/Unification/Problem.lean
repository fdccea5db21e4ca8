import AuthLogic.Proofs.Substitution.Equations
import AuthLogic.Proofs.Substitution.Union
import AuthLogic.Unification

/-! # Unification problems

To unify two terms is to solve the problem of making them agree. Only part of a
term matters for that, its essence. A unification solves a problem when its
bindings have exactly the solutions of the problem, and failure means that there
are none; the bindings are in solved form and speak of entities of the problem.
Matching one part after the other solves the problems of all parts.
-/

namespace AuthLogic

open Substitution

namespace Substitution

/-- Every binding is between entities of a class. -/
def Within (θ : Substitution) (S : Entity → Prop) : Prop :=
  ∀ b ∈ θ.toList, S (.var b.mention) ∧ S b.term

theorem Within.resolve {θ : Substitution} {S : Entity → Prop} (hS : θ.Within S) (h : θ.Downward)
    {m : Mention} (hm : S (.var m)) : S (θ.resolve m) := by
  suffices ∀ v m, m.var = v → S (.var m) → S (θ.resolve m) from this m.var m rfl hm
  clear hm m
  refine h.induct fun v ih m hmv hm => ?_
  cases hv : θ.get? m.var with
  | none =>
    rw [resolve_of_get?_none hv]
    exact hm
  | some e =>
    obtain ⟨b, hb, -, rfl⟩ := get?_eq_some_iff.mp hv
    have hterm := (hS b hb).2
    rw [h.resolve_of_get? hv]
    cases ht : b.term with
    | const c =>
      rw [ht] at hterm
      exact hterm
    | var m' =>
      rw [ht] at hterm
      exact ih m' (by rw [← hmv, hv, ht]) m' rfl hterm

theorem Within.replace {θ : Substitution} {S : Entity → Prop} (hS : θ.Within S) (h : θ.Downward)
    {e : Entity} (he : S e) : S (e.replace θ.resolve) ∧ θ.Free (e.replace θ.resolve) := by
  cases e with
  | const c => exact ⟨he, free_const θ c⟩
  | var m => exact ⟨hS.resolve h he, h.free_resolve m⟩

end Substitution

/-- A unification solves a problem in terms of the entities of a class. -/
inductive Unification.Solves (S : Entity → Prop) (E : Assignment → Prop) : Unification → Prop

  | unifier {θ : Substitution} : θ.Downward → θ.Within S → (∀ σ, θ.SolvedBy σ ↔ E σ) →
      Solves S E (some θ)

  | failure : (∀ σ, ¬ E σ) → Solves S E none

namespace Unification.Solves

variable {S : Entity → Prop} {E E₁ E₂ : Assignment → Prop} {u : Unification}

theorem congr (h : Solves S E u) (hE : ∀ σ, E σ ↔ E₁ σ) : Solves S E₁ u := by
  cases h with
  | unifier hd hw hs => exact .unifier hd hw fun σ => (hs σ).trans (hE σ)
  | failure hn => exact .failure fun σ hσ => hn σ ((hE σ).mpr hσ)

theorem of_some {θ : Substitution} (h : Solves S E (some θ)) :
    θ.Downward ∧ ∀ σ, θ.SolvedBy σ ↔ E σ := by
  cases h with
  | unifier hd _ hs => exact ⟨hd, hs⟩

/-- Failure means that there are no solutions. -/
theorem eq_none_iff (h : Solves S E u) : u = none ↔ ∀ σ, ¬ E σ := by
  cases h with
  | failure hn => exact ⟨fun _ => hn, fun _ => rfl⟩
  | @unifier θ hd _ hs =>
    constructor
    · rintro ⟨⟩
    · exact fun hn => (hn _ ((hs _).mp hd.solvedBy_assignment)).elim

theorem empty (hE : ∀ σ, E σ) : Solves S E Unification.empty := by
  refine .unifier ?_ ?_ fun σ => ⟨fun _ => hE σ, fun _ => ?_⟩ <;> intro b hb <;> cases hb

theorem bind {m : Mention} {e : Entity} (hm : S (.var m)) (he : S e)
    (hlt : ∀ m', e = .var m' → m'.var < m.var) :
    Solves S (fun σ => σ m.var = σ.apply e) (Unification.bind m e) := by
  have hmem {b : Binding} : b ∈ (Substitution.singleton m e).toList ↔ b = ⟨m, e⟩ :=
    List.mem_singleton
  refine .unifier (fun b hb => ?_) (fun b hb => ?_) fun σ => ?_
  · rw [hmem.mp hb]
    exact hlt
  · rw [hmem.mp hb]
    exact ⟨hm, he⟩
  · constructor
    · exact fun hσ => hσ _ (hmem.mpr rfl)
    · intro hσ b hb
      rw [hmem.mp hb]
      exact hσ

/-- The next part is matched under the bindings found so far. Its bindings are of variables that are
not bound yet, so that they never conflict with those. -/
theorem andThen {E : Substitution → Assignment → Prop} {next : Substitution → Unification}
    (h₁ : Solves S E₁ u)
    (h₂ : ∀ θ : Substitution, θ.Downward → θ.Within S →
      Solves (fun e => S e ∧ θ.Free e) (E θ) (next θ))
    (hE : ∀ (θ : Substitution) σ, θ.Downward → θ.SolvedBy σ → (E θ σ ↔ E₂ σ)) :
    Solves S (fun σ => E₁ σ ∧ E₂ σ) (u.andThen next) := by
  cases h₁ with
  | failure hn => exact .failure fun σ hσ => hn σ hσ.1
  | @unifier θ hd hw hs =>
    have hstep := h₂ θ hd hw
    rw [andThen_eq_compose, Option.bind_some]
    cases hnext : next θ with
    | none =>
      rw [hnext] at hstep
      cases hstep with
      | failure hn =>
        refine .failure fun σ hσ => hn σ ?_
        exact (hE θ σ hd ((hs σ).mpr hσ.1)).mpr hσ.2
    | some η =>
      rw [hnext] at hstep
      cases hstep with
      | unifier hd' hw' hs' =>
        obtain ⟨μ, hμ, hmem⟩ := exists_merge? fun b hb => free_var.mp (hw' b hb).1.2
        change Solves S _ (θ.merge? η)
        rw [hμ]
        refine .unifier (fun b hb => ?_) (fun b hb => ?_) fun σ => ?_
        · exact ((hmem b).mp hb).elim (hd b) (hd' b)
        · exact ((hmem b).mp hb).elim (hw b) fun hb => ⟨(hw' b hb).1.1, (hw' b hb).2.1⟩
        · have hunion : μ.SolvedBy σ ↔ θ.SolvedBy σ ∧ η.SolvedBy σ := by
            simp only [SolvedBy, hmem, or_imp, forall_and]
          rw [hunion, hs' σ]
          constructor
          · rintro ⟨hσ, he⟩
            exact ⟨(hs σ).mp hσ, (hE θ σ hd hσ).mp he⟩
          · rintro ⟨hσ, he⟩
            have hσ := (hs σ).mpr hσ
            exact ⟨hσ, (hE θ σ hd hσ).mpr he⟩

end Unification.Solves

/-! ## Problems of terms -/

/-- Terms of which a part is looked at when they are matched. -/
class Matchable (τ : Type) extends Unifiable τ where

  essence : τ → τ

  essence_replace : ∀ (f : Mention → Entity) (t : τ),
    essence (Term.replace f t) = Term.replace f (essence t)

/-- A list of terms is matched element by element. -/
instance {τ : Type} [Matchable τ] : Matchable (List τ) where
  essence := List.map Matchable.essence
  essence_replace f l := by
    change List.map _ (List.map _ l) = List.map _ (List.map _ l)
    simp only [List.map_map, Function.comp_def, Matchable.essence_replace]

namespace Matchable

variable {τ : Type} [Matchable τ] {S : Entity → Prop}

/-- What is looked at of a term speaks of entities of a class only. -/
def Over (S : Entity → Prop) (t : τ) : Prop :=
  ∀ e ∈ Term.entities (essence t), S e

/-- The problem of making two terms agree. -/
def Agree (a b : τ) (σ : Assignment) : Prop :=
  essence (σ.apply a) = essence (σ.apply b)

/-- Unifying two terms solves the problem of making them agree. -/
def Unifies (a b : τ) : Prop :=
  ∀ S, Over S a → Over S b → Unification.Solves S (Agree a b) (Unifiable.unify a b)

theorem Over.apply {θ : Substitution} (hw : θ.Within S) (hd : θ.Downward) {t : τ} (ht : Over S t) :
    Over (fun e => S e ∧ θ.Free e) (θ.apply t) := by
  intro e he
  rw [Substitution.apply_eq_replace, essence_replace, Term.entities_replace] at he
  obtain ⟨e₀, he₀, rfl⟩ := List.mem_map.mp he
  exact hw.replace hd (ht e₀ he₀)

theorem agree_apply_iff {θ : Substitution} {σ : Assignment} (hd : θ.Downward) (hσ : θ.SolvedBy σ)
    (a b : τ) : Agree (θ.apply a) (θ.apply b) σ ↔ Agree a b σ := by
  simp only [Agree, hσ.apply_apply hd]

end Matchable

open Matchable

/-- Going on with further terms. -/
theorem Unification.Solves.andThen_unify {τ : Type} [Matchable τ] {S : Entity → Prop}
    {E : Assignment → Prop} {u : Unification} {a b : τ} (h : Solves S E u)
    (hu : ∀ θ : Substitution, Unifies (θ.apply a) (θ.apply b)) (ha : Over S a) (hb : Over S b) :
    Solves S (fun σ => E σ ∧ Agree a b σ)
      (u.andThen fun θ => Unifiable.unify (θ.apply a) (θ.apply b)) :=
  h.andThen (fun θ hd hw => hu θ _ (ha.apply hw hd) (hb.apply hw hd))
    fun _ _ hd hσ => agree_apply_iff hd hσ a b

end AuthLogic
