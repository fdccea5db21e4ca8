import Mathlib.Order.Bounds.Basic
import AuthLogic.Proofs.Substitution.SolvedForm

/-! # Unions of substitutions

The union of two substitutions has the bindings of the first one, and those of the
second one for further variables. Joining refuses two substitutions that bind a
variable to different entities, and is their union otherwise: the least
substitution that contains both, written types aside.
-/

namespace AuthLogic.Substitution

variable {θ η ρ μ : Substitution} {b : Binding} {v : Variable}

def binding? (θ : Substitution) (v : Variable) : Option Binding :=
  θ.bindings.find? v

theorem get?_eq_map_binding? (θ : Substitution) (v : Variable) :
    θ.get? v = (θ.binding? v).map Binding.term := rfl

theorem var_of_binding? (h : θ.binding? v = some b) : b.var = v :=
  (Catalogue.find?_eq_some_iff.mp h).2

theorem mem_toList_iff : b ∈ θ.toList ↔ θ.binding? b.var = some b := by
  rw [binding?, Catalogue.find?_eq_some_iff, and_iff_left rfl, toList]

theorem ext_binding? (h : ∀ v, θ.binding? v = η.binding? v) : θ = η :=
  congrArg mk (Catalogue.ext_find? h)

/-! ## Unions -/

/-- Where both have a binding, the first one stays. -/
def union (θ η : Substitution) : Substitution :=
  ⟨η.toList.foldl Catalogue.add θ.bindings⟩

instance : Union Substitution := ⟨union⟩

@[simp] theorem binding?_union (θ η : Substitution) (v : Variable) :
    (θ ∪ η).binding? v = (θ.binding? v).or (η.binding? v) :=
  Catalogue.find?_foldl_add η.toList θ.bindings v

@[simp] theorem get?_union (θ η : Substitution) (v : Variable) :
    (θ ∪ η).get? v = (θ.get? v).or (η.get? v) := by
  simp [get?_eq_map_binding?, Option.map_or]

theorem union_assoc (θ η ρ : Substitution) : θ ∪ η ∪ ρ = θ ∪ (η ∪ ρ) :=
  ext_binding? fun v => by simp [Option.or_assoc]

theorem union_self (θ : Substitution) : θ ∪ θ = θ :=
  ext_binding? fun v => by simp

theorem empty_union (θ : Substitution) : empty ∪ θ = θ :=
  ext_binding? fun v => by rw [binding?_union]; rfl

/-! ## Agreement -/

/-- No variable is bound to different entities. -/
def Agrees (θ η : Substitution) : Prop :=
  ∀ v e d, θ.get? v = some e → η.get? v = some d → Term.Same e d

theorem Agrees.refl (θ : Substitution) : θ.Agrees θ := by
  intro v e d he hd
  cases he.symm.trans hd
  rfl

theorem agrees_empty (θ : Substitution) : θ.Agrees empty := by
  rintro v e d - ⟨⟩

theorem Agrees.symm (h : θ.Agrees η) : η.Agrees θ :=
  fun v e d he hd => Eq.symm (h v d e hd he)

theorem not_agrees_iff :
    ¬ θ.Agrees η ↔ ∃ v e d, θ.get? v = some e ∧ η.get? v = some d ∧ ¬ Term.Same e d := by
  simp only [Agrees, Classical.not_forall, exists_prop]

/-- Where the first two have a binding each, these are the same. -/
theorem Agrees.union_left_iff (h : θ.Agrees η) :
    (θ ∪ η).Agrees ρ ↔ θ.Agrees ρ ∧ η.Agrees ρ := by
  constructor
  · intro hρ
    refine ⟨fun v e d he hd => hρ v e d (by simp [he]) hd, fun v e d he hd => ?_⟩
    cases hv : θ.get? v with
    | none => exact hρ v e d (by simp [hv, he]) hd
    | some e' => exact Eq.trans (Eq.symm (h v e' e hv he)) (hρ v e' d (by simp [hv]) hd)
  · rintro ⟨hθ, hη⟩ v e d he hd
    rw [get?_union, Option.or_eq_some_iff] at he
    rcases he with he | ⟨-, he⟩
    · exact hθ v e d he hd
    · exact hη v e d he hd

theorem Agrees.union_right_iff (h : η.Agrees ρ) :
    θ.Agrees (η ∪ ρ) ↔ θ.Agrees η ∧ θ.Agrees ρ := by
  have hsymm {η : Substitution} : θ.Agrees η ↔ η.Agrees θ := ⟨.symm, .symm⟩
  rw [hsymm, h.union_left_iff, hsymm, hsymm (η := ρ)]

/-! ## Joining -/

theorem extend?_eq_some_iff : θ.extend? b = some μ ↔
    (∀ e, θ.get? b.var = some e → Term.Same e b.term) ∧ μ = ⟨θ.bindings.add b⟩ := by
  have hcontains : θ.bindings.contains b.var = (θ.get? b.var).isSome := Option.isSome_map.symm
  rw [extend?, Catalogue.add, hcontains]
  cases hv : θ.get? b.var with
  | none => simp [insert, eq_comm]
  | some e =>
    by_cases he : Term.Same e b.term
    · simpa [he] using eq_comm
    · simp [he]

/-- By induction on the bindings that are taken over: as these are of different variables, none of
them meets one that was taken over before. -/
theorem foldlM_extend?_eq_some_iff {l : List Binding} (hl : l.Pairwise fun b c => b.var ≠ c.var) :
    l.foldlM extend? θ = some μ ↔
      (∀ b ∈ l, ∀ e, θ.get? b.var = some e → Term.Same e b.term) ∧
        μ = ⟨l.foldl Catalogue.add θ.bindings⟩ := by
  induction hl generalizing θ with
  | nil => simp [eq_comm]
  | @cons b l hb _ ih =>
    have hget (c : Binding) (hc : c ∈ l) : get? ⟨θ.bindings.add b⟩ c.var = θ.get? c.var := by
      have hne : compare b.var c.var ≠ .eq := mt Std.LawfulEqOrd.eq_of_compare (hb c hc)
      have hfind := Catalogue.find?_add θ.bindings b c.var
      have hnone : [b].find? (fun d => (compare d.var c.var).isEq) = none := by
        simpa [Ordering.isEq_iff_eq_eq] using hne
      rw [hnone, Option.or_none] at hfind
      exact congrArg (Option.map Binding.term) hfind
    have htail : (∀ c ∈ l, ∀ e, get? ⟨θ.bindings.add b⟩ c.var = some e → Term.Same e c.term) ↔
        ∀ c ∈ l, ∀ e, θ.get? c.var = some e → Term.Same e c.term :=
      forall₂_congr fun c hc => by rw [hget c hc]
    simp only [List.foldlM_cons, Option.bind_eq_bind, Option.bind_eq_some_iff, extend?_eq_some_iff,
      List.forall_mem_cons, List.foldl_cons]
    constructor
    · rintro ⟨_, ⟨hhead, rfl⟩, hfold⟩
      obtain ⟨hrest, rfl⟩ := ih.mp hfold
      exact ⟨⟨hhead, htail.mp hrest⟩, rfl⟩
    · rintro ⟨⟨hhead, hrest⟩, rfl⟩
      exact ⟨_, ⟨hhead, rfl⟩, ih.mpr ⟨htail.mpr hrest, rfl⟩⟩

/-- Substitutions that agree are joined to their union, and others are refused. -/
theorem merge?_eq_some_iff : θ.merge? η = some μ ↔ θ.Agrees η ∧ μ = θ ∪ η := by
  have hdistinct : η.toList.Pairwise fun b c => b.var ≠ c.var := by
    refine η.bindings.sorted.imp fun {b c} hlt heq => ?_
    rw [heq, Std.ReflOrd.compare_self] at hlt
    cases hlt
  have hagrees : (∀ b ∈ η.toList, ∀ e, θ.get? b.var = some e → Term.Same e b.term) ↔
      θ.Agrees η := by
    constructor
    · intro h v e d he hd
      obtain ⟨b, hb, rfl, rfl⟩ := get?_eq_some_iff.mp hd
      exact h b hb e he
    · exact fun h b hb e he => h b.var e b.term he (get?_of_mem hb)
  rw [merge?, foldlM_extend?_eq_some_iff hdistinct, hagrees]
  rfl

/-- Going on with the union. -/
theorem merge?_bind_eq_some_iff (next : Substitution → Option Substitution) :
    Option.bind (θ.merge? η) next = some μ ↔ θ.Agrees η ∧ next (θ ∪ η) = some μ := by
  simp only [Option.bind_eq_some_iff, merge?_eq_some_iff]
  constructor
  · rintro ⟨_, ⟨hagrees, rfl⟩, hnext⟩
    exact ⟨hagrees, hnext⟩
  · rintro ⟨hagrees, hnext⟩
    exact ⟨_, ⟨hagrees, rfl⟩, hnext⟩

theorem merge?_eq_none_iff : θ.merge? η = none ↔ ¬ θ.Agrees η := by
  simp only [Option.eq_none_iff_forall_ne_some, ne_eq, merge?_eq_some_iff, not_and]
  exact ⟨fun h hagrees => h _ hagrees rfl, fun h _ hagrees => absurd hagrees h⟩

/-- Substitutions that bind different variables agree, and their union has the bindings of both. -/
theorem exists_merge? (h : ∀ b ∈ η.toList, θ.get? b.var = none) :
    ∃ μ, θ.merge? η = some μ ∧ ∀ b, b ∈ μ.toList ↔ b ∈ θ.toList ∨ b ∈ η.toList := by
  have hagrees : θ.Agrees η := by
    intro v e d he hd
    obtain ⟨b, hb, rfl, -⟩ := get?_eq_some_iff.mp hd
    rw [h b hb] at he
    cases he
  refine ⟨θ ∪ η, merge?_eq_some_iff.mpr ⟨hagrees, rfl⟩, fun b => ?_⟩
  have hnone (hb : η.binding? b.var = some b) : θ.binding? b.var = none :=
    Option.map_eq_none_iff.mp (h b (mem_toList_iff.mpr hb))
  rw [mem_toList_iff, mem_toList_iff, mem_toList_iff, binding?_union, Option.or_eq_some_iff]
  exact or_congr_right ⟨And.right, fun hb => ⟨hnone hb, hb⟩⟩

/-! ## Containment -/

/-- A substitution is below another one that has all its bindings, up to written types. -/
instance : Preorder Substitution where
  le θ η := ∀ v e, θ.get? v = some e → ∃ d, η.get? v = some d ∧ Term.Same e d
  le_refl θ v e h := ⟨e, h, rfl⟩
  le_trans θ η ρ h h' v e he := by
    obtain ⟨d, hd, hed⟩ := h v e he
    obtain ⟨c, hc, hdc⟩ := h' v d hd
    exact ⟨c, hc, Eq.trans hed hdc⟩

/-- The bindings without the written types. -/
def untyped (θ : Substitution) : Substitution :=
  ⟨⟨θ.toList.map Binding.untyped, List.pairwise_map.mpr θ.bindings.sorted⟩⟩

theorem binding?_untyped (θ : Substitution) (v : Variable) :
    θ.untyped.binding? v = (θ.get? v).map fun e => ⟨⟨v, none⟩, Term.untyped e⟩ := by
  have hfind : θ.untyped.binding? v = (θ.binding? v).map Binding.untyped := by
    simp only [binding?, untyped, Catalogue.find?, List.find?_map, toList]
    rfl
  rw [hfind, get?_eq_map_binding?]
  cases hb : θ.binding? v with
  | none => rfl
  | some b =>
    obtain rfl := var_of_binding? hb
    rfl

theorem same_iff_get? :
    θ.Same η ↔ ∀ v, (θ.get? v).map Term.untyped = (η.get? v).map Term.untyped := by
  have hget (θ : Substitution) (v : Variable) :
      θ.untyped.get? v = (θ.get? v).map Term.untyped := by
    rw [get?_eq_map_binding?, binding?_untyped, Option.map_map]
    rfl
  constructor
  · intro h v
    have huntyped : θ.untyped = η.untyped := congrArg mk (Catalogue.ext h)
    rw [← hget, huntyped, hget]
  · intro h
    have huntyped : θ.untyped = η.untyped := ext_binding? fun v => by
      have hmap (θ : Substitution) : θ.untyped.binding? v =
          ((θ.get? v).map Term.untyped).map fun e => ⟨⟨v, none⟩, e⟩ := by
        rw [binding?_untyped, Option.map_map]
        rfl
      rw [hmap, h, hmap]
    exact congrArg toList huntyped

theorem same_of_le_of_le (h : θ ≤ η) (h' : η ≤ θ) : θ.Same η := by
  rw [same_iff_get?]
  intro v
  cases hθ : θ.get? v with
  | some e =>
    obtain ⟨d, hd, hsame⟩ := h v e hθ
    rw [hd]
    exact congrArg some hsame
  | none =>
    cases hη : η.get? v with
    | none => rfl
    | some d =>
      obtain ⟨e, he, -⟩ := h' v d hη
      rw [hθ] at he
      cases he

theorem Agrees.isLUB_union (h : θ.Agrees η) : IsLUB {θ, η} (θ ∪ η) := by
  constructor
  · rintro κ (rfl | rfl) v e he
    · exact ⟨e, by simp [he], rfl⟩
    · cases hv : θ.get? v with
      | none => exact ⟨e, by simp [hv, he], rfl⟩
      | some d => exact ⟨d, by simp [hv], Eq.symm (h v d e hv he)⟩
  · intro κ hκ v e he
    rw [get?_union, Option.or_eq_some_iff] at he
    rcases he with he | ⟨-, he⟩
    · exact hκ (.inl rfl) v e he
    · exact hκ (.inr rfl) v e he

theorem Agrees.union_comm (h : θ.Agrees η) : (θ ∪ η).Same (η ∪ θ) := by
  have hunion := h.isLUB_union
  have hunion' := h.symm.isLUB_union
  rw [Set.pair_comm] at hunion'
  exact same_of_le_of_le (hunion.2 hunion'.1) (hunion'.2 hunion.1)

end AuthLogic.Substitution
