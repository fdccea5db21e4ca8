import AuthLogic.Proofs.Substitution.Succession
import AuthLogic.Proofs.Unification.Bindings

/-! # Bindings found in succession

Two terms are matched part by part, and the bindings of the next parts are joined
to those found before. The next parts are matched with the earlier bindings in
place, so that what they add keeps clear of these: the joined bindings do what the
earlier ones and then the added ones do.
-/

namespace AuthLogic

open Matchable

/-- How matching takes two terms apart: into two parts that are matched first, and two that are
matched next, under the bindings found for the first ones. -/
inductive Split : (k : Kind) → k.Carrier → k.Carrier → (i : Kind) → i.Carrier → i.Carrier →
    (j : Kind) → j.Carrier → j.Carrier → Prop

  | list {k : Kind} (as bs : List k.Carrier) (a b : k.Carrier) : as.length = bs.length →
      Split (.list k) (as ++ [a] : List k.Carrier) (bs ++ [b] : List k.Carrier)
        (.list k) as bs k a b

  | fact (f g : Fact) :
      Split .fact f g .entity f.subject g.subject .verbPhrase f.object g.object

  | delegate (d : Depth) (f g : Fact) :
      Split .verbPhrase (VerbPhrase.delegate d f) (VerbPhrase.delegate d g)
        .entity f.subject g.subject .verbPhrase f.object g.object

  | claim (c d : Claim) :
      Split .claim c d .fact c.consequent d.consequent (.list .fact) c.antecedents d.antecedents

  | assertion (a b : Assertion) :
      Split .assertion a b .entity a.speaker b.speaker .claim a.claim b.claim

section Sequence

variable {τ : Type} [Unifiable τ]

theorem unifyRest_concat {as bs : List τ} (h : as.length = bs.length) (u : Unification) (a b : τ) :
    unifyRest u (as ++ [a]) (bs ++ [b]) =
      (unifyRest u as bs).andThen fun θ => Unifiable.unify (θ.apply a) (θ.apply b) := by
  induction as generalizing bs u with
  | nil =>
    cases bs with
    | nil => rfl
    | cons b bs => cases h
  | cons a as ih =>
    cases bs with
    | nil => cases h
    | cons b bs => exact ih (Nat.succ.inj h) _

/-- The last elements of two lists are matched last. -/
theorem unifyList_concat {as bs : List τ} (h : as.length = bs.length) (a b : τ) :
    unifyList (as ++ [a]) (bs ++ [b]) =
      (unifyList as bs).andThen fun θ => Unifiable.unify (θ.apply a) (θ.apply b) := by
  have hlen : (as ++ [a]).length = (bs ++ [b]).length := by simp [h]
  rw [unifyList, if_pos hlen, unifyList, if_pos h, unifyRest_concat h]

end Sequence

variable {k i j : Kind} {a b : k.Carrier} {x y : i.Carrier} {p q : j.Carrier}

theorem Split.unify_eq (h : Split k a b i x y j p q) :
    Unifiable.unify a b =
      (Unifiable.unify x y).andThen fun θ => Unifiable.unify (θ.apply p) (θ.apply q) := by
  cases h with
  | list _ _ _ _ hlen => exact unifyList_concat hlen _ _
  | fact f g => rfl
  | delegate d f g => exact (VerbPhrase.unify_delegate d d f g).trans (if_pos rfl)
  | claim c d => rfl
  | assertion a b => rfl

/-- Bindings found under earlier ones neither bind what these bind nor lead to it. -/
theorem composable_of_unify {θ η : Substitution} (hθ : Unifiable.unify x y = some θ)
    (hη : Unifiable.unify (θ.apply p) (θ.apply q) = some η) : θ.Composable η := by
  have hfirst := i.unifies x y (fun _ => True) (fun _ _ => trivial) (fun _ _ => trivial)
  rw [hθ] at hfirst
  cases hfirst with
  | unifier hd hw _ =>
    have hover (t : j.Carrier) : Over (fun e => True ∧ θ.Free e) (θ.apply t) :=
      Over.apply hw hd fun _ _ => trivial
    have hnext := j.unifies (θ.apply p) (θ.apply q) _ (hover p) (hover q)
    rw [hη] at hnext
    cases hnext with
    | unifier hd' hw' _ =>
      refine ⟨hd.not_onCycle, hd'.not_onCycle, fun v => ?_, fun v e he => ?_⟩
      · cases hv : η.get? v with
        | none => exact .inr rfl
        | some e =>
          obtain ⟨b, hb, rfl, -⟩ := Substitution.get?_eq_some_iff.mp hv
          exact .inl (Substitution.free_var.mp (hw' b hb).1.2)
      · obtain ⟨b, hb, -, rfl⟩ := Substitution.get?_eq_some_iff.mp he
        exact (hw' b hb).2.2

/-- Substitutions without cycles that bind different variables, and of which the second one leads to
none that the first one binds, are joined, and the result does to every term what the two do one
after the other. Wherever unification joins bindings, they are of this kind. -/
theorem apply_merge :
    (∀ θ η : Substitution, θ.Composable η → ∃ μ, θ.merge? η = some μ ∧
      ∀ (τ : Type) [Term τ] (t : τ), μ.apply t = η.apply (θ.apply t)) ∧
    ∀ (k : Kind) (a b : k.Carrier) (i : Kind) (x y : i.Carrier) (j : Kind) (p q : j.Carrier),
      Split k a b i x y j p q →
      (Unifiable.unify a b =
        (Unifiable.unify x y).andThen fun θ => Unifiable.unify (θ.apply p) (θ.apply q)) ∧
      ∀ θ η, Unifiable.unify x y = some θ → Unifiable.unify (θ.apply p) (θ.apply q) = some η →
        θ.Composable η := by
  refine ⟨fun θ η h => ⟨θ ∪ η, h.merge?, fun τ _ t => h.apply_union t⟩, ?_⟩
  intro k a b i x y j p q h
  exact ⟨h.unify_eq, fun θ η hθ hη => composable_of_unify hθ hη⟩

/-- In `Z#3, Z#3` and `Y#2, X#1`, the variable `Z` is bound to `Y` first, and then `Y` to `X`. -/
theorem apply_merge_chain :
    let x : Mention := ⟨⟨"X", ⟨1⟩⟩, none⟩
    let y : Mention := ⟨⟨"Y", ⟨2⟩⟩, some "Role"⟩
    let z : Mention := ⟨⟨"Z", ⟨3⟩⟩, none⟩
    let θ := Substitution.singleton z (.var y)
    let η := Substitution.singleton y (.var x)
    let fact : Fact :=
      ⟨.var z, .canSay .unbounded (.var y) (.predicate "reads" [.var x]) none, none⟩
    Unifiable.unify [Entity.var z, .var z] [.var y, .var x] =
        Unification.andThen (some θ) (fun ρ => Unifiable.unify (ρ.apply (Entity.var z))
          (ρ.apply (Entity.var x))) ∧
      θ.Composable η ∧ ∃ μ, θ.merge? η = some μ ∧ μ.resolve z = .var x ∧
        μ.apply fact = η.apply (θ.apply fact) := by
  intro x y z θ η fact
  obtain ⟨hmerge, hsplit⟩ := apply_merge
  obtain ⟨hunify, hnext⟩ :=
    hsplit _ _ _ _ _ _ _ _ _ (.list (k := .entity) [.var z] [.var y] (.var z) (.var x) rfl)
  have hθ : Unifiable.unify [Entity.var z] [.var y] = some θ := by decide +kernel
  have hη : Unifiable.unify (θ.apply (Entity.var z)) (θ.apply (Entity.var x)) = some η := by
    decide +kernel
  have hcomposable := hnext θ η hθ hη
  obtain ⟨μ, hμ, happly⟩ := hmerge θ η hcomposable
  have hz : μ.resolve z = η.apply (θ.apply (Entity.var z)) := happly Entity (.var z)
  refine ⟨?_, hcomposable, μ, hμ, hz.trans (by decide +kernel), happly Fact fact⟩
  rw [← hθ]
  exact hunify

end AuthLogic
