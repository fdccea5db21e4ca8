import AuthLogic.Proofs.Policy.Session
import AuthLogic.Proofs.Syntax.Periods
import Mathlib.Data.List.Nodup

/-! # Partitions of policies

To load a policy is to read its assertions and to part them: those without
violations are accepted, the others are rejected with their violations. Both
lists keep the order of the text, and the scopes tell how they were mixed.
-/

namespace AuthLogic

namespace Screening

/-- What it means for assertions to be sorted by safety. -/
structure Partitions (p : Screening) (as : List Assertion) : Prop where
  perm : (p.accepted ++ p.rejected.map Rejection.assertion).Perm as
  accepted_sublist : p.accepted.Sublist as
  rejected_sublist : (p.rejected.map Rejection.assertion).Sublist as
  mem_accepted_iff : ∀ a ∈ as, a ∈ p.accepted ↔ a.violations = []
  violations_eq : ∀ r ∈ p.rejected, r.violations = r.assertion.violations ∧ r.violations ≠ []

/-- All assertions, merged by the places that they have. -/
def merged (p : Screening) (place : Assertion → UInt64) : List Assertion :=
  p.accepted.merge (p.rejected.map Rejection.assertion) fun a b => place a ≤ place b

theorem accepted_ofAssertions (as : List Assertion) :
    (ofAssertions as).accepted = as.filter Assertion.isSafe := by
  induction as with
  | nil => rfl
  | cons a as ih =>
    rw [ofAssertions, List.filter_cons]
    split
    · exact congrArg (a :: ·) ih
    · exact ih

theorem rejected_ofAssertions (as : List Assertion) :
    (ofAssertions as).rejected =
      (as.filter fun a => !a.isSafe).map fun a => ⟨a, a.violations⟩ := by
  induction as with
  | nil => rfl
  | cons a as ih =>
    rw [ofAssertions]
    split
    case isTrue h => rw [List.filter_cons_of_neg (by simp [h]), ← ih]
    case isFalse h => rw [List.filter_cons_of_pos (by simp [h]), List.map_cons, ← ih]

theorem assertions_rejected_ofAssertions (as : List Assertion) :
    (ofAssertions as).rejected.map Rejection.assertion = as.filter fun a => !a.isSafe := by
  rw [rejected_ofAssertions, List.map_map]
  exact List.map_id _

theorem partitions_ofAssertions (as : List Assertion) : (ofAssertions as).Partitions as where
  perm := perm_ofAssertions as
  accepted_sublist := by
    rw [accepted_ofAssertions]
    exact List.filter_sublist
  rejected_sublist := by
    rw [assertions_rejected_ofAssertions]
    exact List.filter_sublist
  mem_accepted_iff a ha := by
    rw [accepted_ofAssertions, List.mem_filter, and_iff_right ha]
    exact List.isEmpty_iff
  violations_eq r hr := by
    rw [rejected_ofAssertions] at hr
    obtain ⟨a, ha, rfl⟩ := List.mem_map.mp hr
    have hunsafe := (List.mem_filter.mp ha).2
    rw [Assertion.isSafe, Bool.not_eq_true', List.isEmpty_eq_false_iff] at hunsafe
    exact ⟨rfl, hunsafe⟩

theorem Partitions.length_add {p : Screening} {as : List Assertion} (h : p.Partitions as) :
    p.accepted.length + p.rejected.length = as.length := by
  rw [← h.perm.length_eq, List.length_append, List.length_map]

/-- Assertions whose places increase are what is merged from their parts. -/
theorem Partitions.merged_eq {p : Screening} {as : List Assertion} (h : p.Partitions as)
    {place : Assertion → UInt64} (has : as.Pairwise fun a b => place a < place b) :
    p.merged place = as := by
  have hle : as.Pairwise fun a b => decide (place a ≤ place b) = true :=
    has.imp fun hab => decide_eq_true (UInt64.le_of_lt hab)
  have hperm : (p.merged place).Perm as := (List.merge_perm_append _).trans h.perm
  refine hperm.eq_of_pairwise (fun a b ha hb hab hba => ?_) ?_ hle
  · -- no two assertions have one place
    have hnodup : (as.map place).Nodup := List.pairwise_map.mpr (has.imp UInt64.ne_of_lt)
    exact List.inj_on_of_nodup_map hnodup (hperm.mem_iff.mp ha) hb
      (UInt64.le_antisymm (of_decide_eq_true hab) (of_decide_eq_true hba))
  · refine List.pairwise_merge (fun a b c hab hbc => ?_) (fun a b => ?_) _ _
      (hle.sublist h.accepted_sublist) (hle.sublist h.rejected_sublist)
    · exact decide_eq_true (UInt64.le_trans (of_decide_eq_true hab) (of_decide_eq_true hbc))
    · rw [Bool.or_eq_true, decide_eq_true_iff, decide_eq_true_iff]
      exact UInt64.le_total _ _

end Screening

/-- As long as no scope is handed out twice, each assertion is further away from where the scopes
are counted from than those before it. -/
theorem pairwise_placed {m k : Nat} {parts : List (Entity × Claim)}
    (h : k + parts.length < UInt64.size) :
    (placed (m + k) parts).Pairwise fun a b => a.scope.id - .ofNat m < b.scope.id - .ofNat m := by
  have hscope (i : Nat) (hi : i < (placed (m + k) parts).length) :
      (placed (m + k) parts)[i].scope.id - .ofNat m = .ofNat (k + i + 1) := by
    have hid : (placed (m + k) parts)[i].scope.id = .ofNat (k + i + 1 + m) := by
      simp only [placed, List.getElem_mapIdx]
      exact congrArg UInt64.ofNat (by omega)
    rw [hid, UInt64.ofNat_add, UInt64.add_sub_cancel]
  refine List.pairwise_iff_getElem.mpr fun i j hi hj hij => ?_
  rw [hscope i hi, hscope j hj]
  rw [length_placed] at hi hj
  exact (UInt64.ofNat_lt_iff_lt (by omega) (by omega)).mpr (by omega)

namespace Policy

variable {levels : Nat} {text : String} {scopes scopes' : ScopeSupply} {as : List Assertion}

theorem parse_eq_ok_iff :
    parse levels text scopes = .ok (as, scopes') ↔
      ∃ parts, parsePolicy levels text = .ok parts ∧
        as = placed scopes.current.id.toNat parts ∧
        scopes' = ⟨⟨.ofNat (scopes.current.id.toNat + parts.length)⟩⟩ := by
  constructor
  · intro h
    cases hparts : parsePolicy levels text with
    | error e =>
      rw [parse, read_of_error hparts] at h
      cases h
    | ok parts =>
      rw [parse, read_of_ok hparts] at h
      cases h
      exact ⟨parts, rfl, rfl, rfl⟩
  · rintro ⟨parts, hparts, rfl, rfl⟩
    rw [parse, read_of_ok hparts]
    rfl

theorem load_eq_map (levels : Nat) (text : String) (scopes : ScopeSupply) :
    load levels text scopes =
      (parse levels text scopes).map fun r => (.ofAssertions r.1, r.2) := by
  rw [load, screen, parse]
  rcases read levels text scopes with ⟨_ | as, scopes'⟩ <;> rfl

theorem load_of_parse (h : parse levels text scopes = .ok (as, scopes')) :
    load levels text scopes = .ok (.ofAssertions as, scopes') := by
  rw [load_eq_map, h]
  rfl

theorem load_eq_error_iff {e : Failure} :
    load levels text scopes = .error e ↔ parse levels text scopes = .error e := by
  cases h : parse levels text scopes with
  | error e' =>
    rw [load_eq_map, h]
    constructor <;> (intro h; cases h; rfl)
  | ok r =>
    rw [load_of_parse h]
    constructor <;> (intro h; cases h)

/-- To load a policy fails as reading it does. Else its assertions are those that are read, parted
by safety in the order of the text: merged by increasing scope they are the same list again, even
where the supply starts over if scopes are counted from the first one. Each period of the text
stands for one of them. -/
theorem load_partitions (levels : Nat) (text : String) (scopes : ScopeSupply) :
    (∀ e, load levels text scopes = .error e ↔ parse levels text scopes = .error e) ∧
    ∀ as scopes', parse levels text scopes = .ok (as, scopes') →
      ∃ p ls, load levels text scopes = .ok (p, scopes') ∧ Lexeme.ofText text = .ok ls ∧
        p.Partitions as ∧
        (scopes.current.id.toNat + as.length < UInt64.size →
          p.merged (fun a => a.scope.id) = as) ∧
        (as.length < UInt64.size →
          p.merged (fun a => a.scope.id - scopes.current.id) = as) ∧
        p.accepted.length + p.rejected.length =
          (ls.map Lexeme.token).count (.symbol .period) := by
  refine ⟨fun e => load_eq_error_iff, fun as scopes' h => ?_⟩
  obtain ⟨parts, hparts, rfl, rfl⟩ := parse_eq_ok_iff.mp h
  obtain ⟨ls, hls, hcount⟩ := length_of_parsePolicy hparts
  have hp := Screening.partitions_ofAssertions (placed scopes.current.id.toNat parts)
  refine ⟨_, ls, load_of_parse h, hls, hp, fun hlt => hp.merged_eq ?_, fun hlt => hp.merged_eq ?_,
    ?_⟩
  · rw [length_placed] at hlt
    simpa using pairwise_placed (m := 0) hlt
  · rw [length_placed, ← Nat.zero_add parts.length] at hlt
    simpa using pairwise_placed (m := scopes.current.id.toNat) hlt
  · rw [hp.length_add, length_placed, hcount]

/-- The second assertion does not confine its variable. Neither the string nor the comment has a
period in it that is a token. -/
theorem load_partitions_badge :
    let text := "Hr says Ann enters. // Hr says Eve enters.\nHr says X enters.
      Hr says X shows \"v1.2\" if X is-a Nurse."
    ∃ as p ls, parse 64 text {} = .ok (as, ⟨⟨3⟩⟩) ∧ load 64 text {} = .ok (p, ⟨⟨3⟩⟩) ∧
      Lexeme.ofText text = .ok ls ∧ p.Partitions as ∧ p.merged (fun a => a.scope.id) = as ∧
      p.accepted.map (fun a => a.scope.id) = [1, 3] ∧
      p.rejected.map (fun r => r.violations.map Violation.condition) = [["1a"]] ∧
      (ls.map Lexeme.token).count (.symbol .period) = 3 := by
  intro text
  have hparse : parse 64 text {} = .ok (((parse 64 text {}).toOption.getD default).1, ⟨⟨3⟩⟩) :=
    Parser.toOption_eq_some_iff.mp (by decide +kernel)
  obtain ⟨p, ls, hload, hls, hp, hmerged, -, hcount⟩ := (load_partitions 64 text {}).2 _ _ hparse
  have hscreening : p.accepted.map (fun a => a.scope.id) = [1, 3] ∧
      p.rejected.map (fun r => r.violations.map Violation.condition) = [["1a"]] := by
    cases (load_of_parse hparse).symm.trans hload
    decide +kernel
  obtain ⟨haccepted, hrejected⟩ := hscreening
  have hlength := hp.length_add
  rw [← List.length_map fun a : Assertion => a.scope.id, haccepted,
    ← List.length_map fun r : Rejection => r.violations.map Violation.condition, hrejected]
    at hlength
  refine ⟨_, p, ls, hparse, hload, hls, hp, hmerged ?_, haccepted, hrejected, ?_⟩
  · rw [← hlength]
    decide
  · rw [← hcount, hp.length_add, ← hlength]
    rfl

end Policy

end AuthLogic
