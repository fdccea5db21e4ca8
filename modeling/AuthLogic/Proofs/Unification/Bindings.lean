import AuthLogic.Proofs.Substitution.Walks
import AuthLogic.Proofs.Unification.Matching

/-! # The bindings of unifiers

Unifiers are in solved form. They bind what occurs in the two terms to what occurs
in them, and variables only to lesser ones. So there are no cycles, and every walk
ends by itself: no further step would change where it ends.
-/

namespace AuthLogic

open Matchable

namespace Substitution

variable {θ : Substitution}

/-- Bindings lead downward. -/
theorem Downward.lt_of_leads (h : θ.Downward) {v : Variable} {e : Entity} (hv : θ.Leads v e)
    {m : Mention} (he : e = .var m) : m.var < v := by
  induction hv with
  | binding hv =>
    subst he
    exact h.lt hv
  | further hv _ ih => exact Variable.lt_trans (ih he) (h.lt hv)

theorem Downward.not_onCycle (h : θ.Downward) (v : Variable) : ¬ θ.OnCycle v := by
  rintro ⟨m, hleads, rfl⟩
  exact Variable.lt_irrefl _ (h.lt_of_leads hleads rfl)

/-- One step less than there are bindings is enough. -/
theorem Downward.walk_eq_resolve (h : θ.Downward) {m : Mention} {e : Entity}
    (hm : θ.get? m.var = some e) {n : Nat} (hn : θ.size ≤ n + 1) :
    θ.walk m.var n e = θ.resolve m := by
  obtain ⟨b, hb, hbv, rfl⟩ := get?_eq_some_iff.mp hm
  have hsize := rank_lt_size hb
  rw [resolve_eq_walk hm]
  refine h.walk_eq fun c hc k hk hcv => ?_
  have hlt : k.var < m.var := hbv ▸ h b hb k hk
  have hrank : θ.rank c.var < θ.rank b.var := rank_lt hc (by rwa [hcv, hbv])
  rw [hcv] at hrank
  exact ⟨hlt, hlt, by omega, by omega⟩

end Substitution

/-- The entities of two terms that are looked at when they are matched. -/
def Matchable.occurring {τ : Type} [Matchable τ] (a b : τ) : List Entity :=
  Term.entities (essence a) ++ Term.entities (essence b)

/-- Unifiers bind variables that occur to entities that occur, and always to lesser variables, so
that there are no cycles. Every walk ends by itself, at a constant or a variable without binding. -/
theorem unify_solvedForm (k : Kind) (a b : k.Carrier) (θ : Substitution)
    (h : Unifiable.unify a b = some θ) :
    (∀ β ∈ θ.toList, .var β.mention ∈ occurring a b ∧ β.term ∈ occurring a b) ∧
    (∀ v m, θ.get? v = some (.var m) → m.var < v) ∧ (∀ v, ¬ θ.OnCycle v) ∧
    ∀ m : Mention, θ.Free (θ.resolve m) ∧ ∀ e, θ.get? m.var = some e →
      θ.Leads m.var (θ.resolve m) ∧ ∀ n, θ.size ≤ n + 1 → θ.walk m.var n e = θ.resolve m := by
  have hsolves := k.unifies a b (· ∈ occurring a b) (fun _ => List.mem_append_left _)
    (fun _ => List.mem_append_right _)
  rw [h] at hsolves
  cases hsolves with
  | unifier hd hw _ =>
    refine ⟨hw, fun v m => hd.lt, hd.not_onCycle, fun m => ⟨hd.free_resolve m, fun e hm => ?_⟩⟩
    exact ⟨Substitution.leads_resolve hm, fun n => hd.walk_eq_resolve hm⟩

/-- `X#1, X#1, Y#2` and `X#2, Y#2, Alice`, of which the last bindings are chained behind the first. -/
theorem unify_solvedForm_chain :
    let x (scope : UInt64) : Mention := ⟨⟨"X", ⟨scope⟩⟩, none⟩
    let y : Mention := ⟨⟨"Y", ⟨2⟩⟩, some "Role"⟩
    let alice : Entity := .const ⟨"Alice"⟩
    let as : List Entity := [.var (x 1), .var (x 1), .var y]
    let bs : List Entity := [.var (x 2), .var y, alice]
    let θ := Substitution.ofList [⟨x 1, alice⟩, ⟨x 2, .var (x 1)⟩, ⟨y, .var (x 1)⟩]
    Unifiable.unify as bs = some θ ∧ .var y ∈ occurring as bs ∧ (x 1).var < (x 2).var ∧
      ¬ θ.OnCycle (x 1).var ∧ θ.Free (θ.resolve y) ∧ θ.Leads y.var (θ.resolve y) ∧
      θ.walk y.var 2 (.var (x 1)) = θ.resolve y := by
  intro x y alice as bs θ
  have h : Unifiable.unify as bs = some θ := by decide +kernel
  obtain ⟨hoccur, hlt, hcycle, hresolve⟩ := unify_solvedForm (.list .entity) as bs θ h
  have hy : θ.get? y.var = some (.var (x 1)) := by decide +kernel
  have hx : θ.get? (x 2).var = some (.var (x 1)) := by decide +kernel
  obtain ⟨hfree, hwalk⟩ := hresolve y
  exact ⟨h, (hoccur ⟨y, .var (x 1)⟩ (by decide +kernel)).1, hlt _ _ hx, hcycle _, hfree,
    (hwalk _ hy).1, (hwalk _ hy).2 2 (by decide +kernel)⟩

end AuthLogic
