import AuthLogic.Proofs.Term.Occurrence
import AuthLogic.Proofs.Unification.Places

/-! # Unification with copies

A term and its copy in a later scope agree exactly if every variable has the same
value as its copy. So their unifier consists of one binding for each variable: of
the copy, which is the greater one, to the variable itself. Nothing is left to
bind where a term is matched with itself.
-/

namespace AuthLogic

open Matchable

namespace Variable

/-- The variable of the same name in a scope. -/
def inScope (v : Variable) (s : Scope) : Variable :=
  { v with scope := s }

theorem lt_of_scope_lt {v w : Variable} (h : v.scope.id < w.scope.id) : v < w := by
  have hscope : compare v.scope.id w.scope.id = .lt := Std.compare_eq_lt.mpr h
  change (compare v.scope.id w.scope.id).then (compare v.name w.name) = .lt
  rw [hscope]
  rfl

theorem eq_of_name_eq {v w : Variable} (hname : v.name = w.name) (hscope : v.scope = w.scope) :
    v = w :=
  congr (congrArg mk hname) hscope

/-- Of two variables of one name in two scopes, the lesser one is in the lesser scope. -/
theorem scope_of_lt {v w : Variable} {s s' : Scope} (hs : s.id < s'.id) (hname : v.name = w.name)
    (hv : v.scope = s ∨ v.scope = s') (hw : w.scope = s ∨ w.scope = s') (h : v < w) :
    v.scope = s ∧ w.scope = s' := by
  have hne (hscope : v.scope = w.scope) : False := by
    rw [eq_of_name_eq hname hscope] at h
    exact lt_irrefl w h
  rcases hv with hv | hv <;> rcases hw with hw | hw
  · exact (hne (hv.trans hw.symm)).elim
  · exact ⟨hv, hw⟩
  · have hgt : w < v := lt_of_scope_lt (by rwa [hv, hw])
    exact (lt_irrefl v (lt_trans h hgt)).elim
  · exact (hne (hv.trans hw.symm)).elim

end Variable

/-- Every variable stands for itself. -/
def Assignment.identity : Assignment := fun v => .var ⟨v, none⟩

/-- All variables of one name have one value. -/
def Assignment.scopeless : Assignment := fun v => .var ⟨v.inScope .unscoped, none⟩

section Copy

variable {k : Kind} {t : k.Carrier} {s s' : Scope} {σ : Assignment}

theorem apply_scopeless_stamp {τ : Type} [Term τ] (t : τ) :
    Assignment.scopeless.apply (Term.stamp s t) = Assignment.scopeless.apply t := by
  rw [Term.stamp_eq_replace]
  exact Term.replace_replace _ _ t

theorem agree_scopeless_stamp (t : k.Carrier) (s : Scope) :
    Agree t (Term.stamp s t) Assignment.scopeless :=
  congrArg essence (apply_scopeless_stamp t).symm

theorem entities_essence_stamp (t : k.Carrier) (s : Scope) :
    Term.entities (essence (Term.stamp s t)) =
      (Term.entities (essence t)).map (Term.stamp s) := by
  rw [Term.stamp_eq_replace, essence_replace, Term.entities_replace]
  rfl

/-- A term and its copy agree if their variables do, one by one. -/
theorem agree_stamp_iff : Agree t (Term.stamp s t) σ ↔
    ∀ m, .var m ∈ Term.entities (essence t) → σ m.var = σ (m.var.inScope s) := by
  constructor
  · intro h m hm
    have hmap := h.map_entities
    rw [entities_essence_stamp, List.map_map] at hmap
    exact List.map_inj_left.mp hmap (.var m) hm
  · intro h
    refine k.placewise t (Term.stamp s t) .scopeless σ (agree_scopeless_stamp t s) ?_
    rw [places, entities_essence_stamp]
    refine agreeAt_zip ?_
    rw [List.map_map]
    refine List.map_congr_left fun e he => ?_
    cases e with
    | const c => rfl
    | var m => exact h m he

/-- Variables of a term, and their copies in a scope. -/
def OfCopies (t : k.Carrier) (s : Scope) (e : Entity) : Prop :=
  ∀ m, e = .var m → ∃ n, .var n ∈ Term.entities (essence t) ∧
    (m.var = n.var ∨ m.var = n.var.inScope s)

theorem over_ofCopies (t : k.Carrier) (s : Scope) : Over (OfCopies t s) t := by
  rintro _ he m rfl
  exact ⟨m, he, .inl rfl⟩

theorem over_ofCopies_stamp (t : k.Carrier) (s : Scope) :
    Over (OfCopies t s) (Term.stamp s t) := by
  rintro _ he m rfl
  rw [entities_essence_stamp] at he
  obtain ⟨d, hd, hm⟩ := List.mem_map.mp he
  cases d with
  | const c => cases hm
  | var n =>
    cases hm
    exact ⟨n, hd, .inr rfl⟩

theorem OfCopies.of_var (hscope : Scoped s (Term.entities (essence t))) {m : Mention}
    (h : OfCopies t s' (.var m)) : ∃ n, .var n ∈ Term.entities (essence t) ∧
      m.var.name = n.var.name ∧ (m.var.scope = s ∨ m.var.scope = s') := by
  obtain ⟨n, hn, hm | hm⟩ := h m rfl
  · exact ⟨n, hn, congrArg Variable.name hm, .inl (hm ▸ hscope n hn)⟩
  · exact ⟨n, hn, (congrArg Variable.name hm :), .inr (congrArg Variable.scope hm)⟩

/-- What a variable is bound to in a unifier of copies: a binding leads to a variable of the same
name, and downward from the later scope to the earlier one. -/
theorem get?_eq_some_of_copies {θ : Substitution} (hscope : Scoped s (Term.entities (essence t)))
    (hs : s.id < s'.id) (hd : θ.Downward) (hw : θ.Within (OfCopies t s'))
    (hsolved : θ.SolvedBy .scopeless) {v : Variable} {e : Entity} (hv : θ.get? v = some e) :
    ∃ n m, .var n ∈ Term.entities (essence t) ∧ v = n.var.inScope s' ∧ e = .var m ∧
      m.var = n.var := by
  obtain ⟨b, hb, rfl, rfl⟩ := Substitution.get?_eq_some_iff.mp hv
  have hvalue := hsolved b hb
  cases hterm : b.term with
  | const c =>
    rw [hterm] at hvalue
    cases hvalue
  | var m =>
    have hname : b.var.name = m.var.name := by
      rw [hterm] at hvalue
      exact congrArg (fun k => k.var.name) (Entity.var.inj hvalue)
    obtain ⟨hmention, hentity⟩ := hw b hb
    obtain ⟨n, hn, hbn, hbscope⟩ := hmention.of_var hscope
    obtain ⟨-, -, -, hmscope⟩ := (hterm ▸ hentity).of_var hscope
    obtain ⟨hm, hb'⟩ := Variable.scope_of_lt hs hname.symm hmscope hbscope (hd b hb m hterm)
    exact ⟨n, m, hn, Variable.eq_of_name_eq hbn hb', rfl,
      Variable.eq_of_name_eq (hname.symm.trans hbn) (hm.trans (hscope n hn).symm)⟩

/-- The unifier of a term and its copy in a later scope. -/
theorem exists_unify_stamp (hscope : Scoped s (Term.entities (essence t))) (hs' : s.id < s'.id) :
    ∃ θ, Unifiable.unify t (Term.stamp s' t) = some θ ∧
      (∀ n, .var n ∈ Term.entities (essence t) →
        ∃ m, θ.get? (n.var.inScope s') = some (.var m) ∧ m.var = n.var) ∧
      ∀ v e, θ.get? v = some e →
        ∃ n, .var n ∈ Term.entities (essence t) ∧ v = n.var.inScope s' := by
  have hsolves := k.unifies t (Term.stamp s' t) _ (over_ofCopies t s') (over_ofCopies_stamp t s')
  have hagree := agree_scopeless_stamp t s'
  generalize Unifiable.unify t (Term.stamp s' t) = u at hsolves
  cases hsolves with
  | failure hn => exact absurd hagree (hn _)
  | @unifier θ hd hw hs =>
    have hsolved := (hs _).mpr hagree
    refine ⟨θ, rfl, fun n hn => ?_, fun v e hv => ?_⟩
    · cases hv : θ.get? (n.var.inScope s') with
      | some e =>
        obtain ⟨n', m, hn', hcopy, rfl, hm⟩ := get?_eq_some_of_copies hscope hs' hd hw hsolved hv
        have hname : n'.var.name = n.var.name := (congrArg Variable.name hcopy.symm :)
        have hsame := Variable.eq_of_name_eq hname ((hscope n' hn').trans (hscope n hn).symm)
        exact ⟨m, rfl, hm.trans hsame⟩
      | none =>
        -- otherwise the variable would be resolved to its copy, which is greater
        have hvalue := agree_stamp_iff.mp ((hs _).mp hd.solvedBy_assignment) n hn
        have hcopy : θ.assignment (n.var.inScope s') = .var ⟨n.var.inScope s', none⟩ :=
          congrArg Term.untyped
            (Substitution.resolve_of_get?_none (m := ⟨n.var.inScope s', none⟩) hv)
        rw [hcopy] at hvalue
        have hgt : n.var < n.var.inScope s' := Variable.lt_of_scope_lt (by rwa [hscope n hn])
        rcases hd.eq_or_lt_of_assignment hvalue with heq | hlt
        · have heq : n.var.inScope s' = n.var := heq
          rw [heq] at hgt
          exact (Variable.lt_irrefl _ hgt).elim
        · exact (Variable.lt_irrefl _ (Variable.lt_trans hgt hlt)).elim
    · obtain ⟨n, -, hn, hcopy, -⟩ := get?_eq_some_of_copies hscope hs' hd hw hsolved hv
      exact ⟨n, hn, hcopy⟩

end Copy

/-- A substitution that every assignment solves has no bindings. -/
theorem Substitution.eq_empty_of_solvedBy {θ : Substitution} (hd : θ.Downward)
    (h : θ.SolvedBy .identity) : θ = empty := by
  refine ext_binding? fun v => ?_
  cases hv : θ.binding? v with
  | none => rfl
  | some b =>
    obtain rfl := var_of_binding? hv
    have hb := mem_toList_iff.mpr hv
    have hvalue := h b hb
    cases hterm : b.term with
    | const c =>
      rw [hterm] at hvalue
      cases hvalue
    | var m =>
      rw [hterm] at hvalue
      have heq : b.var = m.var := congrArg (fun k => k.var) (Entity.var.inj hvalue)
      have hlt := hd b hb m hterm
      rw [heq] at hlt
      exact (Variable.lt_irrefl _ hlt).elim

theorem unify_self (k : Kind) (t : k.Carrier) : Unifiable.unify t t = Unification.empty := by
  have hsolves := k.unifies t t (fun _ => True) (fun _ _ => trivial) (fun _ _ => trivial)
  generalize Unifiable.unify t t = u at hsolves
  cases hsolves with
  | failure hn => exact absurd rfl (hn .identity)
  | unifier hd _ hs =>
    have hsolved := (hs .identity).mpr rfl
    exact congrArg some (Substitution.eq_empty_of_solvedBy hd hsolved)

end AuthLogic
