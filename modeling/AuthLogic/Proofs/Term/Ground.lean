import AuthLogic.Proofs.Lookup
import AuthLogic.Substitution

/-! # Ground terms

A term is ground when it mentions no variable. Applying a substitution makes it
ground exactly when every variable that it mentions resolves to a constant, and
binding some variables to a constant grounds those and no others.
-/

namespace AuthLogic

theorem Entity.mention?_eq_some_iff {e : Entity} {m : Mention} :
    e.mention? = some m ↔ e = .var m := by
  cases e <;> simp [mention?]

namespace Term

variable {τ : Type} [Term τ]

/-- Some mention in a term is of a variable. -/
def Mentions (t : τ) (v : Variable) : Prop :=
  ∃ m ∈ mentions t, m.var = v

theorem mem_mentions_iff {t : τ} {m : Mention} : m ∈ mentions t ↔ .var m ∈ entities t := by
  simp only [mentions, List.mem_filterMap, Entity.mention?_eq_some_iff, exists_eq_right]

theorem mentions_replace (σ : Mention → Entity) (t : τ) :
    mentions (replace σ t) = (mentions t).filterMap fun m => (σ m).mention? := by
  rw [mentions, entities_replace, mentions, List.filterMap_map, List.filterMap_filterMap]
  refine congrArg (List.filterMap · (entities t)) (funext fun e => ?_)
  cases e <;> rfl

theorem exists_mem_vars_iff {t : τ} {v : Variable} :
    (∃ m ∈ (vars t).entries, m.var = v) ↔ Mentions t v :=
  Catalogue.exists_mem_ofFirst_iff

theorem contains_vars_iff {t : τ} {v : Variable} : (vars t).contains v = true ↔ Mentions t v :=
  Catalogue.contains_iff.trans exists_mem_vars_iff

theorem isGround_iff {t : τ} : isGround t = true ↔ ∀ m, m ∉ mentions t := by
  rw [isGround, List.isEmpty_iff, List.eq_nil_iff_forall_not_mem]

theorem isGround_eq_false_iff {t : τ} : isGround t = false ↔ ∃ m, m ∈ mentions t :=
  List.isEmpty_eq_false_iff_exists_mem

theorem mentions_list_iff {l : List τ} {v : Variable} :
    Mentions l v ↔ ∃ t ∈ l, Mentions t v := by
  have h (m : Mention) : m ∈ mentions l ↔ ∃ t ∈ l, m ∈ mentions t := by
    simp only [mem_mentions_iff]
    exact List.mem_flatMap
  simp only [Mentions, h]
  constructor
  · rintro ⟨m, ⟨t, ht, hm⟩, hv⟩
    exact ⟨t, ht, m, hm, hv⟩
  · rintro ⟨t, ht, m, hm, hv⟩
    exact ⟨m, ⟨t, ht, hm⟩, hv⟩

end Term

namespace Substitution

variable {τ : Type} [Term τ] {θ : Substitution}

/-- A variable resolves to a constant. -/
def Grounds (θ : Substitution) (v : Variable) : Prop :=
  ∃ c, θ.resolve? v = some (.const c)

theorem resolve_eq_const_iff {m : Mention} : (∃ c, θ.resolve m = .const c) ↔ θ.Grounds m.var := by
  rw [Grounds, resolve]
  cases θ.resolve? m.var with
  | none =>
    constructor <;> rintro ⟨c, hc⟩ <;> cases hc
  | some e => exact exists_congr fun c => ⟨congrArg some, Option.some.inj⟩

theorem isGround_apply_iff {t : τ} :
    Term.isGround (θ.apply t) = true ↔ ∀ v, Term.Mentions t v → θ.Grounds v := by
  simp only [Term.isGround_iff, apply_eq_replace, Term.mentions_replace, List.mem_filterMap,
    not_exists, not_and]
  constructor
  · rintro h v ⟨m, hm, rfl⟩
    rw [← resolve_eq_const_iff]
    cases he : θ.resolve m with
    | const c => exact ⟨c, rfl⟩
    | var n => exact absurd (congrArg Entity.mention? he) (h n m hm)
  · intro h n m hm hn
    obtain ⟨c, hc⟩ := resolve_eq_const_iff.mpr (h m.var ⟨m, hm, rfl⟩)
    rw [hc] at hn
    cases hn

/-- Bind some variables to one constant. -/
def grounding (vs : Catalogue Mention.var) (c : Constant) : Substitution :=
  ⟨⟨vs.entries.map (⟨·, .const c⟩), List.pairwise_map.mpr vs.sorted⟩⟩

variable {vs : Catalogue Mention.var} {c : Constant} {v : Variable}

theorem get?_grounding : (grounding vs c).get? v = (vs.find? v).map fun _ => .const c := by
  simp only [get?, grounding, Catalogue.find?, List.find?_map, Option.map_map]
  rfl

theorem grounds_grounding_iff : (grounding vs c).Grounds v ↔ vs.contains v = true := by
  rw [Grounds, resolve?, get?_grounding, Catalogue.contains]
  cases vs.find? v with
  | none => simp
  | some m =>
    have hw (n : Nat) : (grounding vs c).walk v n (.const c) = .const c := by cases n <;> rfl
    simp [hw]

end Substitution

end AuthLogic
