import AuthLogic.Claim

/-! # Bare terms

What the text of a term tells: names, but neither scopes nor written types, nor
the speakers that are recorded on facts.
-/

namespace AuthLogic

namespace Term

variable {τ : Type} [Term τ]

/-- The term with its variables out of scope and without types. -/
def bare : τ → τ :=
  replace fun m => .var { var := { name := m.var.name } }

@[simp] theorem bare_bare (t : τ) : bare (bare t) = bare t :=
  replace_replace _ _ t

@[simp] theorem bare_stamp (s : Scope) (t : τ) : bare (stamp s t) = bare t := by
  rw [stamp_eq_replace]
  exact replace_replace _ _ t

theorem stamp_stamp (s r : Scope) (t : τ) : stamp r (stamp s t) = stamp r t := by
  rw [stamp_eq_replace, stamp_eq_replace, stamp_eq_replace]
  exact replace_replace _ _ t

theorem untyped_stamp_unscoped (t : τ) : untyped (stamp .unscoped t) = bare t := by
  rw [stamp_eq_replace]
  exact replace_replace _ _ t

theorem type?_of_mem_mentions {s : Scope} {t u : τ} (hu : entities u = entities (bare t))
    {m : Mention} (h : m ∈ mentions (stamp s u)) : m.type? = none := by
  rw [mentions, stamp_eq_replace, entities_replace, hu, bare, entities_replace, List.map_map,
    List.filterMap_map] at h
  obtain ⟨e, -, he⟩ := List.mem_filterMap.mp h
  cases e with
  | const c => cases he
  | var n =>
    cases he
    rfl

end Term

/-- The fact alone, whoever states it. -/
def Fact.bare (f : Fact) : Fact :=
  { Term.bare f with speaker? := none }

theorem Fact.bare_eq {f : Fact} (h : f.speaker? = none) : f.bare = Term.bare f := by
  have hnone : (Term.bare f).speaker? = none := congrArg (Option.map _) h
  rw [bare, ← hnone]

namespace Claim

def bare (c : Claim) : Claim where
  consequent := c.consequent.bare
  antecedents := c.antecedents.map Fact.bare
  constraint := Term.bare c.constraint

theorem entities_bare (c : Claim) : Term.entities c.bare = Term.entities (Term.bare c) := by
  have h : Term.entities (c.antecedents.map Fact.bare) =
      Term.entities (c.antecedents.map Term.bare) := by
    change (c.antecedents.map Fact.bare).flatMap Term.entities =
      (c.antecedents.map Term.bare).flatMap Term.entities
    rw [List.flatMap_map, List.flatMap_map]
    rfl
  change _ ++ Term.entities (c.antecedents.map Fact.bare) ++ _ = _
  rw [h]
  rfl

end Claim

end AuthLogic
