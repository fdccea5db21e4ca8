import Mathlib.Data.Finset.Card
import Mathlib.Dynamics.PeriodicPts.Defs
import AuthLogic.Fact
import AuthLogic.Proofs.Substitution.SolvedForm

/-! # Walks

Bindings may lead anywhere, also round in cycles. Following them is the iteration
of one step, and among more steps than there are bindings there are always two
that end at the same entity. So a walk ends at an entity that stays where it is
or that comes back to itself, and a second walk from there ends at the same one.
-/

namespace AuthLogic.Substitution

open Function

variable {θ : Substitution} {e : Entity} {m : Mention} {v : Variable}

/-- Bindings lead from a variable to an entity. -/
inductive Leads (θ : Substitution) : Variable → Entity → Prop

  | binding {v : Variable} {e : Entity} : θ.get? v = some e → Leads θ v e

  | further {v : Variable} {m : Mention} {e : Entity} :
      θ.get? v = some (.var m) → Leads θ m.var e → Leads θ v e

/-- Bindings lead from a variable back to it. -/
def OnCycle (θ : Substitution) (v : Variable) : Prop :=
  ∃ m, θ.Leads v (.var m) ∧ m.var = v

/-! ## Steps -/

/-- Follow one binding, if there is one. -/
def step (θ : Substitution) : Entity → Entity
  | .const c => .const c
  | .var m => (θ.get? m.var).getD (.var m)

theorem step_of_get? (h : θ.get? m.var = some e) : θ.step (.var m) = e := by
  simp [step, h]

theorem step_of_free (h : θ.Free e) : θ.step e = e := by
  cases e with
  | const c => rfl
  | var m => simp [step, free_var.mp h]

theorem iterate_step_of_free (h : θ.Free e) (n : Nat) : θ.step^[n] e = e :=
  IsFixedPt.iterate (step_of_free h) n

theorem exists_get?_of_not_free (h : ¬ θ.Free e) : ∃ m d, e = .var m ∧ θ.get? m.var = some d := by
  simp only [Free, not_forall] at h
  obtain ⟨m, rfl, hm⟩ := h
  obtain ⟨d, hd⟩ := Option.ne_none_iff_exists'.mp hm
  exact ⟨m, d, rfl, hd⟩

theorem leads_iterate_step (h : θ.get? v = some e) (n : Nat) : θ.Leads v (θ.step^[n] e) := by
  induction n generalizing v e with
  | zero => exact .binding h
  | succ n ih =>
    by_cases hf : θ.Free e
    · simpa only [iterate_step_of_free hf] using ih h
    · obtain ⟨m, d, rfl, hd⟩ := exists_get?_of_not_free hf
      rw [iterate_succ_apply, step_of_get? hd]
      exact .further h (ih hd)

theorem Leads.exists_iterate_step (h : θ.Leads v e) (hm : m.var = v) :
    ∃ n, θ.step^[n + 1] (.var m) = e := by
  induction h generalizing m with
  | binding h => exact ⟨0, step_of_get? (hm ▸ h)⟩
  | @further v k e h _ ih =>
    obtain ⟨n, hn⟩ := ih rfl
    refine ⟨n + 1, ?_⟩
    rw [iterate_succ_apply, step_of_get? (hm ▸ h), hn]

/-- Following as many bindings as there are, either there is no further one at some point, or two
of them have the same entity. -/
theorem exists_free_or_iterate_eq (θ : Substitution) (e : Entity) :
    (∃ i ≤ θ.size, θ.Free (θ.step^[i] e)) ∨
      ∃ i j, i < j ∧ j ≤ θ.size ∧ θ.step^[i + 1] e = θ.step^[j + 1] e := by
  by_cases hfree : ∃ i ≤ θ.size, θ.Free (θ.step^[i] e)
  · exact .inl hfree
  right
  simp only [not_exists, not_and] at hfree
  let terms := (θ.toList.map Binding.term).toFinset
  have hterms : ∀ i ∈ Finset.range (θ.size + 1), θ.step^[i + 1] e ∈ terms := by
    intro i hi
    obtain ⟨m, d, hm, hd⟩ := exists_get?_of_not_free (hfree i (Finset.mem_range_succ_iff.mp hi))
    obtain ⟨b, hb, -, rfl⟩ := get?_eq_some_iff.mp hd
    rw [iterate_succ_apply', hm, step_of_get? hd]
    exact List.mem_toFinset.mpr (List.mem_map_of_mem hb)
  have hcard : terms.card < (Finset.range (θ.size + 1)).card := by
    have hle : terms.card ≤ (θ.toList.map Binding.term).length := List.toFinset_card_le _
    rw [List.length_map] at hle
    rw [Finset.card_range]
    exact Nat.lt_succ_of_le hle
  obtain ⟨i, hi, j, hj, hne, heq⟩ :=
    Finset.exists_ne_map_eq_of_card_lt_of_maps_to hcard hterms
  rw [Finset.mem_range_succ_iff] at hi hj
  rcases Nat.lt_or_gt_of_ne hne with hlt | hlt
  · exact ⟨i, j, hlt, hj, heq⟩
  · exact ⟨j, i, hlt, hi, heq.symm⟩

/-! ## Entities that come back -/

theorem mem_periodicPts_of_free (h : θ.Free e) : e ∈ periodicPts θ.step :=
  mk_mem_periodicPts Nat.one_pos (step_of_free h)

theorem iterate_step_mem_periodicPts {n : Nat} (hn : θ.size ≤ n) (e : Entity) :
    θ.step^[n] e ∈ periodicPts θ.step := by
  rcases θ.exists_free_or_iterate_eq e with ⟨i, hi, hfree⟩ | ⟨i, j, hij, hj, heq⟩
  · obtain ⟨k, rfl⟩ := Nat.exists_eq_add_of_le' (hi.trans hn)
    rw [iterate_add_apply, iterate_step_of_free hfree]
    exact mem_periodicPts_of_free hfree
  · obtain ⟨k, rfl⟩ := Nat.exists_eq_add_of_le' (show i + 1 ≤ n by omega)
    have hperiod : IsPeriodicPt θ.step (j - i) (θ.step^[i + 1] e) := by
      rw [IsPeriodicPt, IsFixedPt, ← iterate_add_apply, show j - i + (i + 1) = j + 1 by omega, heq]
    rw [iterate_add_apply]
    exact mk_mem_periodicPts (Nat.sub_pos_of_lt hij) (hperiod.apply_iterate k)

theorem mem_periodicPts_iterate_step (h : e ∈ periodicPts θ.step) (n : Nat) :
    θ.step^[n] e ∈ periodicPts θ.step := by
  obtain ⟨k, hk, hperiod⟩ := h
  exact mk_mem_periodicPts hk (hperiod.apply_iterate n)

theorem eq_of_iterate_step_eq {d : Entity} (he : e ∈ periodicPts θ.step)
    (hd : d ∈ periodicPts θ.step) {n : Nat} (h : θ.step^[n] e = θ.step^[n] d) : e = d := by
  obtain ⟨k, hk, he⟩ := he
  obtain ⟨l, hl, hd⟩ := hd
  exact (he.iterate n).eq_of_apply_eq (hd.iterate n) hk hl h

theorem iterate_step_eq_of_free {n : Nat} (he : e ∈ periodicPts θ.step)
    (hfree : θ.Free (θ.step^[n] e)) : θ.step^[n] e = e :=
  eq_of_iterate_step_eq (n := n) (mem_periodicPts_of_free hfree) he (iterate_step_of_free hfree n)

theorem onCycle_of_mem_periodicPts (h : .var m ∈ periodicPts θ.step) (hm : θ.get? m.var = some e) :
    θ.OnCycle m.var := by
  obtain ⟨n, hn, hperiod⟩ := h
  obtain ⟨n, rfl⟩ := Nat.exists_eq_succ_of_ne_zero hn.ne'
  have hback : θ.step^[n] e = .var m := by
    have hback : θ.step^[n] (θ.step (.var m)) = .var m := hperiod
    rwa [step_of_get? hm] at hback
  exact ⟨m, hback ▸ leads_iterate_step hm n, rfl⟩

/-! ## Walks -/

/-- A walk stops where it runs out of steps, where there is no binding and at its start, and nowhere
before. -/
theorem exists_walk_eq (θ : Substitution) (s : Variable) (n : Nat) (e : Entity) :
    ∃ k ≤ n, θ.walk s n e = θ.step^[k] e ∧
      (k = n ∨ θ.Free (θ.step^[k] e) ∨ ∃ m, θ.step^[k] e = .var m ∧ m.var = s) ∧
      ∀ i < k, ∀ m, θ.step^[i] e = .var m → m.var ≠ s := by
  have hnone (e : Entity) : ∀ i < 0, ∀ m, θ.step^[i] e = .var m → m.var ≠ s :=
    fun i hi => absurd hi (Nat.not_lt_zero i)
  induction n generalizing e with
  | zero => exact ⟨0, le_rfl, rfl, .inl rfl, hnone e⟩
  | succ n ih =>
    by_cases hf : θ.Free e
    · exact ⟨0, Nat.zero_le _, walk_of_free hf s (n + 1), .inr (.inl hf), hnone e⟩
    obtain ⟨m, d, rfl, hd⟩ := exists_get?_of_not_free hf
    by_cases hs : m.var = s
    · refine ⟨0, Nat.zero_le _, ?_, .inr (.inr ⟨m, rfl, hs⟩), hnone _⟩
      rw [walk, hd]
      exact if_pos hs
    · obtain ⟨k, hk, hwalk, hend, hbefore⟩ := ih d
      have hstep (i : Nat) : θ.step^[i + 1] (.var m) = θ.step^[i] d := by
        rw [iterate_succ_apply, step_of_get? hd]
      refine ⟨k + 1, Nat.succ_le_succ hk, ?_, ?_, fun i hi n hn => ?_⟩
      · rw [walk_of_get? hd hs, hwalk, hstep]
      · rw [hstep]
        exact hend.imp_left (congrArg (· + 1))
      · cases i with
        | zero =>
          cases hn
          exact hs
        | succ i => exact hbefore i (Nat.lt_of_succ_lt_succ hi) n (hstep i ▸ hn)

theorem resolve_eq_walk (hm : θ.get? m.var = some e) : θ.resolve m = θ.walk m.var θ.size e := by
  simp [resolve, resolve?, hm]

/-- What a variable resolves to comes back to itself. -/
theorem resolve_mem_periodicPts (θ : Substitution) (m : Mention) :
    θ.resolve m ∈ periodicPts θ.step := by
  cases hm : θ.get? m.var with
  | none =>
    rw [resolve_of_get?_none hm]
    exact mem_periodicPts_of_free (free_var.mpr hm)
  | some e =>
    obtain ⟨k, -, hwalk, hend, -⟩ := θ.exists_walk_eq m.var θ.size e
    rw [resolve_eq_walk hm, hwalk]
    rcases hend with rfl | hfree | ⟨n, hn, hstart⟩
    · exact iterate_step_mem_periodicPts le_rfl e
    · exact mem_periodicPts_of_free hfree
    · have hback : θ.step (θ.step^[k] e) = e := by
        rw [hn, step_of_get? (hstart ▸ hm)]
      refine mk_mem_periodicPts (Nat.succ_pos k) ?_
      change θ.step^[k] (θ.step (θ.step^[k] e)) = _
      rw [hback]

/-- What comes back to itself resolves to itself. -/
theorem replace_resolve_of_mem_periodicPts (h : e ∈ periodicPts θ.step) :
    e.replace θ.resolve = e := by
  cases e with
  | const c => rfl
  | var m =>
    change θ.resolve m = .var m
    cases hm : θ.get? m.var with
    | none => exact resolve_of_get?_none hm
    | some e =>
      have hstep (i : Nat) : θ.step^[i + 1] (.var m) = θ.step^[i] e := by
        rw [iterate_succ_apply, step_of_get? hm]
      have hbound (i : Nat) : ¬ θ.Free (θ.step^[i] (.var m)) := fun hfree => by
        rw [iterate_step_eq_of_free h hfree, free_var, hm] at hfree
        cases hfree
      obtain ⟨k, -, hwalk, hend, hbefore⟩ := θ.exists_walk_eq m.var θ.size e
      rw [resolve_eq_walk hm, hwalk]
      rcases hend with rfl | hfree | ⟨n, hn, hstart⟩
      · -- a walk that runs out of steps has come back to its start before
        rcases θ.exists_free_or_iterate_eq (.var m) with ⟨i, -, hfree⟩ | ⟨i, j, hij, hj, heq⟩
        · exact absurd hfree (hbound i)
        · obtain ⟨d, rfl⟩ := Nat.exists_eq_add_of_lt hij
          have hback : θ.step^[d + 1] (.var m) = .var m := by
            refine eq_of_iterate_step_eq (n := i + 1) ?_ h ?_
            · exact mem_periodicPts_iterate_step h (d + 1)
            · rw [← iterate_add_apply, heq, show i + 1 + (d + 1) = i + d + 1 + 1 by omega]
          exact absurd rfl (hbefore d (by omega) m (hstep d ▸ hback))
      · exact absurd (hstep k ▸ hfree) (hbound (k + 1))
      · have hn' : .var n ∈ periodicPts θ.step := by
          rw [← hn, ← hstep]
          exact mem_periodicPts_iterate_step h (k + 1)
        have hsame : θ.step (.var n) = θ.step (.var m) := by
          rw [step_of_get? hm, step_of_get? (hstart ▸ hm)]
        rw [hn, eq_of_iterate_step_eq (n := 1) hn' h hsame]

theorem leads_resolve (hm : θ.get? m.var = some e) : θ.Leads m.var (θ.resolve m) := by
  obtain ⟨k, -, hwalk, -⟩ := θ.exists_walk_eq m.var θ.size e
  rw [resolve_eq_walk hm, hwalk]
  exact leads_iterate_step hm k

theorem OnCycle.exists_resolve (h : θ.OnCycle m.var) :
    ∃ n, θ.resolve m = .var n ∧ n.var = m.var := by
  obtain ⟨n, hleads, hn⟩ := h
  obtain ⟨e, hm⟩ : ∃ e, θ.get? m.var = some e := by
    cases hleads with
    | binding h => exact ⟨_, h⟩
    | further h _ => exact ⟨_, h⟩
  obtain ⟨k, hk⟩ := hleads.exists_iterate_step (m := n) hn
  have hperiodic : .var n ∈ periodicPts θ.step := mk_mem_periodicPts (Nat.succ_pos k) hk
  refine ⟨n, ?_, hn⟩
  have hresolve : θ.resolve n = .var n := replace_resolve_of_mem_periodicPts hperiodic
  rw [← hresolve, resolve_eq_walk hm, resolve_eq_walk (hn ▸ hm), hn]

/-- Applying any substitution twice is the same as applying it once. The variables on a cycle
resolve to themselves, and the other ones to where their bindings lead: to a constant, to a
variable without binding, or to one on a cycle. -/
theorem apply_idempotent (θ : Substitution) :
    (∀ (τ : Type) [Term τ] (t : τ), θ.apply (θ.apply t) = θ.apply t) ∧
    ∀ m : Mention, (θ.OnCycle m.var → ∃ n, θ.resolve m = .var n ∧ n.var = m.var) ∧
      (θ.get? m.var = none ∧ θ.resolve m = .var m ∨ θ.Leads m.var (θ.resolve m)) ∧
      (θ.Free (θ.resolve m) ∨ ∃ n, θ.resolve m = .var n ∧ θ.OnCycle n.var) := by
  refine ⟨fun τ _ t => ?_, fun m => ⟨OnCycle.exists_resolve, ?_, ?_⟩⟩
  · rw [apply_eq_replace, apply_eq_replace, Term.replace_replace]
    congr 1
    funext m
    exact replace_resolve_of_mem_periodicPts (θ.resolve_mem_periodicPts m)
  · cases hm : θ.get? m.var with
    | none => exact .inl ⟨rfl, resolve_of_get?_none hm⟩
    | some e => exact .inr (leads_resolve hm)
  · by_cases hfree : θ.Free (θ.resolve m)
    · exact .inl hfree
    · obtain ⟨n, e, hn, he⟩ := exists_get?_of_not_free hfree
      exact .inr ⟨n, hn, onCycle_of_mem_periodicPts (hn ▸ θ.resolve_mem_periodicPts m) he⟩

/-- `Z` leads into a cycle of `X` and `Y`, which is entered at the typed `Y`. -/
theorem apply_idempotent_tail :
    let x : Mention := ⟨⟨"X", ⟨1⟩⟩, none⟩
    let y : Mention := ⟨⟨"Y", ⟨1⟩⟩, none⟩
    let z : Mention := ⟨⟨"Z", ⟨2⟩⟩, none⟩
    let θ := Substitution.ofList
      [⟨x, .var y⟩, ⟨y, .var x⟩, ⟨z, .var { y with type? := some "Role" }⟩]
    let fact : Fact := ⟨.var z, .canSay .unbounded (.var y) (.predicate "reads" [.var x]) none, none⟩
    (θ.OnCycle x.var ∧ ∃ n, θ.resolve x = .var n ∧ n.var = x.var) ∧ θ.Leads z.var (θ.resolve z) ∧
      (∃ n, θ.resolve z = .var n ∧ θ.OnCycle n.var) ∧ θ.apply (θ.apply fact) = θ.apply fact := by
  intro x y z θ fact
  obtain ⟨hterms, hmentions⟩ := apply_idempotent θ
  have hcycle : θ.OnCycle x.var :=
    ⟨x, .further (show θ.get? x.var = some (.var y) by decide) (.binding (by decide)), rfl⟩
  have hz : θ.get? z.var ≠ none := by decide
  have hbound : ¬ θ.Free (θ.resolve z) := fun hfree => by
    have hz : θ.resolve z = .var x := by decide
    have hx : θ.get? x.var ≠ none := by decide
    exact hx (free_var.mp (hz ▸ hfree))
  exact ⟨⟨hcycle, (hmentions x).1 hcycle⟩, (hmentions z).2.1.resolve_left fun h => hz h.1,
    (hmentions z).2.2.resolve_left hbound, hterms Fact fact⟩

end AuthLogic.Substitution
