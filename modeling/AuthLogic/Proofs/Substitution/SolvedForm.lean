import AuthLogic.Proofs.Lookup
import AuthLogic.Substitution

/-! # Solved forms

A substitution is in solved form when variables are bound to constants and to
lesser variables only. Walks then never go round: they end at constants and at
unbound variables, well before they run out of steps, and so looking a variable
up is a recursion along the bindings.
-/

namespace AuthLogic

instance : LT Variable := ltOfOrd

namespace Variable

theorem lt_iff {v w : Variable} : v < w ↔ compare v w = .lt := Iff.rfl

theorem lt_trans {u v w : Variable} (h : u < v) (h' : v < w) : u < w :=
  Std.TransCmp.lt_trans h h'

theorem lt_irrefl (v : Variable) : ¬ v < v := by
  rw [lt_iff, Std.ReflOrd.compare_self]
  decide

end Variable

namespace Substitution

variable {θ : Substitution}

theorem get?_eq_some_iff {v : Variable} {e : Entity} :
    θ.get? v = some e ↔ ∃ b ∈ θ.toList, b.var = v ∧ b.term = e := by
  simp only [get?, Option.map_eq_some_iff, Catalogue.find?_eq_some_iff, toList, and_assoc]

theorem get?_of_mem {b : Binding} (h : b ∈ θ.toList) : θ.get? b.var = some b.term :=
  get?_eq_some_iff.mpr ⟨b, h, rfl, rfl⟩

/-- Variables are bound to constants and to lesser variables. -/
def Downward (θ : Substitution) : Prop :=
  ∀ b ∈ θ.toList, ∀ m, b.term = .var m → m.var < b.var

theorem Downward.lt (h : θ.Downward) {v : Variable} {m : Mention} (hv : θ.get? v = some (.var m)) :
    m.var < v := by
  obtain ⟨b, hb, rfl, ht⟩ := get?_eq_some_iff.mp hv
  exact h b hb m ht

/-- Entities that a substitution leaves alone. -/
def Free (θ : Substitution) (e : Entity) : Prop :=
  ∀ m, e = .var m → θ.get? m.var = none

theorem free_const (θ : Substitution) (c : Constant) : θ.Free (.const c) := by
  rintro m ⟨⟩

theorem free_var {m : Mention} : θ.Free (.var m) ↔ θ.get? m.var = none := by
  simp [Free]

/-! ## Walks -/

/-- The number of bound variables below a variable, which walks use up. -/
def rank (θ : Substitution) (v : Variable) : Nat :=
  θ.toList.countP fun b => compare b.var v = .lt

theorem rank_lt {b : Binding} {v : Variable} (hb : b ∈ θ.toList) (h : b.var < v) :
    θ.rank b.var < θ.rank v := by
  obtain ⟨l, r, hl⟩ := List.append_of_mem hb
  have hmono (k : List Binding) : k.countP (fun c => compare c.var b.var = .lt) ≤
      k.countP fun c => compare c.var v = .lt :=
    List.countP_mono_left fun c _ hc => by
      simp only [decide_eq_true_eq] at hc ⊢
      exact Variable.lt_trans hc h
  have hself : ¬ compare b.var b.var = .lt := Variable.lt_irrefl b.var
  have hb : compare b.var v = .lt := h
  have hl' := hmono l
  have hr' := hmono r
  simp only [rank, hl, List.countP_append, List.countP_cons, hself, hb, decide_true, decide_false,
    Bool.false_eq_true, if_true, if_false]
  omega

theorem rank_lt_size {b : Binding} (hb : b ∈ θ.toList) : θ.rank b.var < θ.size := by
  have hne : θ.toList.countP (fun c => compare c.var b.var = .lt) ≠ θ.toList.length := fun h => by
    have := List.countP_eq_length.mp h b hb
    simp only [decide_eq_true_eq] at this
    exact Variable.lt_irrefl _ this
  exact Nat.lt_of_le_of_ne List.countP_le_length hne

theorem walk_of_free {e : Entity} (h : θ.Free e) (s : Variable) (n : Nat) : θ.walk s n e = e := by
  cases n with
  | zero => rfl
  | succ n =>
    cases e with
    | const c => rfl
    | var m => rw [walk, free_var.mp h]

theorem walk_of_get? {m : Mention} {e : Entity} (h : θ.get? m.var = some e) {s : Variable}
    (hs : m.var ≠ s) (n : Nat) : θ.walk s (n + 1) (.var m) = θ.walk s n e := by
  rw [walk, h]
  exact if_neg hs

/-- A walk that is long enough depends on neither its length nor its start. -/
theorem Downward.walk_eq (h : θ.Downward) {s t : Variable} {n k : Nat} {e : Entity}
    (he : ∀ b ∈ θ.toList, ∀ m, e = .var m → b.var = m.var →
      m.var < s ∧ m.var < t ∧ θ.rank m.var < n ∧ θ.rank m.var < k) :
    θ.walk s n e = θ.walk t k e := by
  by_cases hf : θ.Free e
  · rw [walk_of_free hf, walk_of_free hf]
  · obtain ⟨m, rfl, hm⟩ : ∃ m, e = .var m ∧ θ.get? m.var ≠ none := by
      simpa only [Free, Classical.not_forall, exists_prop] using hf
    obtain ⟨e, hget⟩ := Option.ne_none_iff_exists'.mp hm
    obtain ⟨b, hb, hbv, rfl⟩ := get?_eq_some_iff.mp hget
    obtain ⟨hs, ht, hn, hk⟩ := he b hb m rfl hbv
    have hns : m.var ≠ s := fun hms => Variable.lt_irrefl _ (hms ▸ hs)
    have hnt : m.var ≠ t := fun hmt => Variable.lt_irrefl _ (hmt ▸ ht)
    obtain ⟨n, rfl⟩ := Nat.exists_eq_succ_of_ne_zero (Nat.ne_zero_of_lt hn)
    obtain ⟨k, rfl⟩ := Nat.exists_eq_succ_of_ne_zero (Nat.ne_zero_of_lt hk)
    rw [walk_of_get? hget hns, walk_of_get? hget hnt]
    refine h.walk_eq fun c hc m' hm' hcv => ?_
    have hlt : m'.var < m.var := hbv ▸ h b hb m' hm'
    have hrank := rank_lt hc (hcv ▸ hlt)
    rw [hcv] at hrank
    exact ⟨Variable.lt_trans hlt hs, Variable.lt_trans hlt ht, by omega, by omega⟩
termination_by n

theorem resolve_of_get?_none {m : Mention} (h : θ.get? m.var = none) : θ.resolve m = .var m := by
  rw [resolve, resolve?, h]
  rfl

/-- A bound variable resolves to what it is bound to, resolved. -/
theorem Downward.resolve_of_get? (h : θ.Downward) {m : Mention} {e : Entity}
    (hm : θ.get? m.var = some e) : θ.resolve m = e.replace θ.resolve := by
  have hw : θ.resolve m = θ.walk m.var θ.size e := by
    rw [resolve, resolve?, hm]
    rfl
  rw [hw]
  obtain ⟨b, hb, hbv, rfl⟩ := get?_eq_some_iff.mp hm
  cases ht : b.term with
  | const c => exact walk_of_free (free_const θ c) _ _
  | var m' =>
    have hlt : m'.var < m.var := hbv ▸ h b hb m' ht
    cases hm' : θ.get? m'.var with
    | none => rw [walk_of_free (free_var.mpr hm'), Entity.replace, resolve_of_get?_none hm']
    | some e' =>
      obtain ⟨c, hc, hcv, rfl⟩ := get?_eq_some_iff.mp hm'
      have hne : m'.var ≠ m.var := fun hmm => Variable.lt_irrefl _ (hmm ▸ hlt)
      have hsize := rank_lt_size hb
      obtain ⟨n, hn⟩ := Nat.exists_eq_succ_of_ne_zero (Nat.ne_zero_of_lt hsize)
      have hrank := rank_lt hc (hcv ▸ hlt)
      rw [Entity.replace, resolve, resolve?, hm', hn, walk_of_get? hm' hne]
      refine h.walk_eq fun d hd m'' hm'' hdv => ?_
      have hlt' : m''.var < m'.var := hcv ▸ h c hc m'' hm''
      have hrank' := rank_lt hd (hdv ▸ hlt')
      rw [hcv] at hrank
      rw [hdv] at hrank'
      rw [hbv] at hsize
      exact ⟨Variable.lt_trans hlt' hlt, hlt', by omega, by omega⟩

/-- Induction along bindings. -/
theorem Downward.induct (h : θ.Downward) {P : Variable → Prop}
    (step : ∀ v, (∀ m, θ.get? v = some (.var m) → P m.var) → P v) (v : Variable) : P v := by
  suffices ∀ n v, θ.rank v < n → P v from this _ v (Nat.lt_succ_self _)
  intro n
  induction n with
  | zero => exact fun v hv => absurd hv (Nat.not_lt_zero _)
  | succ n ih =>
    intro v hv
    refine step v fun m hm => ?_
    cases hm' : θ.get? m.var with
    | none =>
      refine step m.var fun m' h' => ?_
      rw [hm'] at h'
      cases h'
    | some e =>
      obtain ⟨b, hb, hbv, -⟩ := get?_eq_some_iff.mp hm'
      have hrank := rank_lt hb (hbv ▸ h.lt hm)
      rw [hbv] at hrank
      exact ih m.var (by omega)

theorem Downward.free_resolve (h : θ.Downward) (m : Mention) : θ.Free (θ.resolve m) := by
  suffices ∀ v m, m.var = v → θ.Free (θ.resolve m) from this m.var m rfl
  refine h.induct fun v ih m hm => ?_
  cases hv : θ.get? m.var with
  | none =>
    rw [resolve_of_get?_none hv]
    exact free_var.mpr hv
  | some e =>
    rw [h.resolve_of_get? hv]
    cases e with
    | const c => exact free_const θ c
    | var m' => exact ih m' (hm ▸ hv) m' rfl

/-- Variables resolve to themselves or to lesser ones. -/
theorem Downward.eq_or_lt_of_resolve (h : θ.Downward) {m n : Mention} (hm : θ.resolve m = .var n) :
    n.var = m.var ∨ n.var < m.var := by
  suffices ∀ v m, m.var = v → θ.resolve m = .var n → n.var = m.var ∨ n.var < m.var from
    this m.var m rfl hm
  clear hm m
  refine h.induct fun v ih m hmv hm => ?_
  cases hv : θ.get? m.var with
  | none =>
    rw [resolve_of_get?_none hv] at hm
    cases hm
    exact .inl rfl
  | some e =>
    rw [h.resolve_of_get? hv] at hm
    cases e with
    | const c => cases hm
    | var m' =>
      have hlt := h.lt hv
      rcases ih m' (hmv ▸ hv) m' rfl hm with heq | hlt'
      · exact .inr (heq ▸ hlt)
      · exact .inr (Variable.lt_trans hlt' hlt)

end Substitution

end AuthLogic
