import AuthLogic.Config.Basic
import AuthLogic.Policy
import AuthLogic.Proofs.Assertion.Scoping

/-! # Sessions

Calls that read assertions, one after the other, from one supply of scopes. A
call that fails takes no scope, any other takes one for each assertion that it
reads. No two assertions of a session have a variable in common, as long as the
supply does not start over.
-/

namespace AuthLogic

/-- Texts are read with a configuration. -/
inductive Call
  | assertion (config : Config) (text : String)
  | policy (config : Config) (text : String)
  | load (config : Config) (text : String)

/-- What a call returns. -/
inductive Answer
  | assertion (a : Assertion)
  | policy (as : List Assertion)
  | screening (p : Screening)

namespace Answer

/-- The answer consists of assertions, which are given in the order of the text. -/
def Of (as : List Assertion) : Answer → Prop
  | assertion a => as = [a]
  | policy bs => bs = as
  | screening p => p = .ofAssertions as

/-- The assertions that are accepted come before those that are not. -/
def assertions : Answer → List Assertion
  | assertion a => [a]
  | policy as => as
  | screening p => p.accepted ++ p.rejected.map Rejection.assertion

end Answer

namespace Call

/-- The speakers and claims of the text. -/
def parts : Call → Except Failure (List (Entity × Claim))
  | assertion config text => (parseAssertion config.levels text).map fun part => [part]
  | policy config text => parsePolicy config.levels text
  | load config text => parsePolicy config.levels text

/-- The answer, and the supply after the call. -/
def serve : Call → ScopeSupply → Except Failure Answer × ScopeSupply
  | assertion config text, scopes =>
    let (a, scopes) := Assertion.read config.levels text scopes
    (a.map .assertion, scopes)
  | policy config text, scopes =>
    let (as, scopes) := Policy.read config.levels text scopes
    (as.map .policy, scopes)
  | load config text, scopes =>
    let (p, scopes) := Policy.screen config.levels text scopes
    (p.map .screening, scopes)

/-- The answers of calls that follow one another. -/
def serveAll : List Call → ScopeSupply → List (Except Failure Answer) × ScopeSupply
  | [], scopes => ([], scopes)
  | c :: cs, scopes =>
    let (answer, scopes) := c.serve scopes
    let (answers, scopes) := serveAll cs scopes
    (answer :: answers, scopes)

/-- All the assertions that calls return. -/
def assertions (cs : List Call) (scopes : ScopeSupply) : List Assertion :=
  (serveAll cs scopes).1.flatMap fun answer => answer.toOption.elim [] Answer.assertions

end Call

/-! ## Scopes of a text -/

/-- The assertions of a text, in the scopes that follow a given one. -/
def placed (n : Nat) (parts : List (Entity × Claim)) : List Assertion :=
  parts.mapIdx fun i part => .inScope ⟨.ofNat (n + i + 1)⟩ part.1 part.2

theorem placed_cons (n : Nat) (part : Entity × Claim) (parts : List (Entity × Claim)) :
    placed n (part :: parts) =
      .inScope ⟨.ofNat (n + 1)⟩ part.1 part.2 :: placed (n + 1) parts := by
  rw [placed, List.mapIdx_cons, placed]
  simp only [Nat.add_zero, Nat.add_assoc, Nat.add_comm 1]

theorem length_placed (n : Nat) (parts : List (Entity × Claim)) :
    (placed n parts).length = parts.length :=
  List.length_mapIdx

/-- As long as there are scopes left, each assertion gets the next one. -/
theorem map_scope_placed {n : Nat} {parts : List (Entity × Claim)}
    (h : n + parts.length < UInt64.size) :
    (placed n parts).map (fun a => a.scope.id.toNat) = List.range' (n + 1) parts.length := by
  induction parts generalizing n with
  | nil => rfl
  | cons part parts ih =>
    rw [List.length_cons] at h
    rw [placed_cons, List.map_cons, ih (by omega), List.length_cons, List.range'_succ]
    exact congrArg (· :: _) (UInt64.toNat_ofNat_of_lt (Nat.lt_of_le_of_lt (by omega) h))

theorem Policy.build_eq {n : Nat} {scopes : ScopeSupply} (h : scopes.current.id = .ofNat n)
    (parts : List (Entity × Claim)) :
    build parts scopes = (placed n parts, ⟨⟨.ofNat (n + parts.length)⟩⟩) := by
  induction parts generalizing n scopes with
  | nil =>
    have hscopes : scopes = ⟨⟨.ofNat n⟩⟩ := by rw [← h]
    rw [hscopes]
    rfl
  | cons part parts ih =>
    have hnext : scopes.next.2.current.id = .ofNat (n + 1) := by
      rw [UInt64.ofNat_add, ← h]
      rfl
    have hscope : scopes.next.1 = ⟨.ofNat (n + 1)⟩ := by rw [← hnext]; rfl
    have htail := ih hnext
    rw [placed_cons, ← hscope, List.length_cons, Nat.add_comm parts.length, ← Nat.add_assoc]
    change (Assertion.inScope _ _ _ :: (build parts scopes.next.2).1,
      (build parts scopes.next.2).2) = _
    rw [htail]
    rfl

theorem Policy.read_of_error {levels : Nat} {text : String} {e : Failure}
    (h : parsePolicy levels text = .error e) (scopes : ScopeSupply) :
    read levels text scopes = (.error e, scopes) := by
  rw [read, h]

theorem Policy.read_of_ok {levels : Nat} {text : String} {parts : List (Entity × Claim)}
    (h : parsePolicy levels text = .ok parts) (scopes : ScopeSupply) :
    read levels text scopes = (.ok (placed scopes.current.id.toNat parts),
      ⟨⟨.ofNat (scopes.current.id.toNat + parts.length)⟩⟩) := by
  rw [read, h]
  exact congrArg (fun r => (Except.ok r.1, r.2)) (build_eq UInt64.ofNat_toNat.symm parts)

theorem Screening.perm_ofAssertions (as : List Assertion) :
    ((ofAssertions as).accepted ++ (ofAssertions as).rejected.map Rejection.assertion).Perm as := by
  induction as with
  | nil => exact .nil
  | cons a as ih =>
    rw [ofAssertions]
    split
    · exact ih.cons a
    · exact List.perm_middle.trans (ih.cons a)

theorem Answer.Of.perm {as : List Assertion} {answer : Answer} (h : answer.Of as) :
    answer.assertions.Perm as := by
  cases answer with
  | assertion a =>
    rw [h]
    exact .refl _
  | policy bs =>
    rw [← h]
    exact .refl _
  | screening p =>
    rw [h]
    exact Screening.perm_ofAssertions as

/-! ## Single calls -/

namespace Call

variable {c : Call} {cs : List Call} {scopes : ScopeSupply}

/-- A call fails as its text does, and else places the assertions of the text. -/
theorem serve_cases (c : Call) (scopes : ScopeSupply) :
    (∃ e, c.parts = .error e ∧ c.serve scopes = (.error e, scopes)) ∨
      ∃ parts answer, c.parts = .ok parts ∧
        answer.Of (placed scopes.current.id.toNat parts) ∧
        c.serve scopes =
          (.ok answer, ⟨⟨.ofNat (scopes.current.id.toNat + parts.length)⟩⟩) := by
  cases c with
  | assertion config text =>
    cases h : parseAssertion config.levels text with
    | error e =>
      exact .inl ⟨e, by rw [parts, h]; rfl, by rw [serve, Assertion.read_of_error h]; rfl⟩
    | ok part =>
      have hnew : Policy.build [part] scopes = _ := Policy.build_eq UInt64.ofNat_toNat.symm [part]
      refine .inr ⟨[part], .assertion (Assertion.new part.1 part.2 scopes).1, by rw [parts, h]; rfl,
        (congrArg Prod.fst hnew).symm, ?_⟩
      rw [serve, Assertion.read_of_ok h]
      exact congrArg (_, ·) (congrArg Prod.snd hnew)
  | policy config text =>
    cases h : parsePolicy config.levels text with
    | error e => exact .inl ⟨e, h, by rw [serve, Policy.read_of_error h]; rfl⟩
    | ok ps => exact .inr ⟨ps, .policy _, h, rfl, by rw [serve, Policy.read_of_ok h]; rfl⟩
  | load config text =>
    cases h : parsePolicy config.levels text with
    | error e => exact .inl ⟨e, h, by rw [serve, Policy.screen, Policy.read_of_error h]; rfl⟩
    | ok ps =>
      exact .inr ⟨ps, .screening _, h, rfl, by rw [serve, Policy.screen, Policy.read_of_ok h]; rfl⟩

/-- What is read is legible. -/
theorem legible_of_mem_parts {ps : List (Entity × Claim)} (h : c.parts = .ok ps)
    {part : Entity × Claim} (hp : part ∈ ps) :
    part.1.Legible ∧ ∃ levels, part.2.Readable levels := by
  have of_policy {levels : Nat} {text : String} (h : parsePolicy levels text = .ok ps) :
      part.1.Legible ∧ ∃ levels, part.2.Readable levels := by
    obtain ⟨ls, hls, hread⟩ := parsePolicy_eq_ok_iff.mp h
    obtain ⟨hs, hc, -⟩ := (Parser.yields_policy levels ls ps []
      (Lexeme.lexable_of_ofChars hls) hread).1 part hp
    exact ⟨hs, levels, hc⟩
  cases c with
  | assertion config text =>
    cases hparse : parseAssertion config.levels text with
    | error e =>
      rw [parts, hparse] at h
      cases h
    | ok r =>
      rw [parts, hparse] at h
      cases h
      cases List.mem_singleton.mp hp
      obtain ⟨ls, hls, hread⟩ := parseAssertion_eq_ok_iff.mp hparse
      obtain ⟨hs, hc, -⟩ := (Parser.yields_assertion config.levels ls _ []
        (Lexeme.lexable_of_ofChars hls) hread).1
      exact ⟨hs, _, hc⟩
  | policy config text => exact of_policy h
  | load config text => exact of_policy h

theorem scope_of_occurs_placed {ps : List (Entity × Claim)} (h : c.parts = .ok ps) {n : Nat}
    {a : Assertion} (ha : a ∈ placed n ps) {v : Variable} (hv : a.Occurs v) :
    v.scope = a.scope := by
  obtain ⟨i, hi, rfl⟩ := List.mem_mapIdx.mp ha
  obtain ⟨hspeaker, levels, hclaim⟩ := legible_of_mem_parts h (List.getElem_mem hi)
  exact Assertion.scope_of_occurs hspeaker hclaim hv

/-! ## Runs -/

theorem serveAll_append (cs ds : List Call) (scopes : ScopeSupply) :
    serveAll (cs ++ ds) scopes =
      ((serveAll cs scopes).1 ++ (serveAll ds (serveAll cs scopes).2).1,
        (serveAll ds (serveAll cs scopes).2).2) := by
  induction cs generalizing scopes with
  | nil => rfl
  | cons c cs ih =>
    have ih := ih (c.serve scopes).2
    change ((c.serve scopes).1 :: (serveAll (cs ++ ds) (c.serve scopes).2).1,
      (serveAll (cs ++ ds) (c.serve scopes).2).2) = _
    rw [ih]
    rfl

theorem assertions_append (cs ds : List Call) (scopes : ScopeSupply) :
    assertions (cs ++ ds) scopes =
      assertions cs scopes ++ assertions ds (serveAll cs scopes).2 := by
  rw [assertions, serveAll_append, List.flatMap_append]
  rfl

theorem assertions_of_error {e : Failure} (h : c.serve scopes = (.error e, scopes))
    (cs : List Call) :
    assertions (c :: cs) scopes = assertions cs scopes ∧
      (serveAll (c :: cs) scopes).2 = (serveAll cs scopes).2 := by
  rw [assertions, serveAll, h]
  exact ⟨rfl, rfl⟩

theorem assertions_of_ok {answer : Answer} {scopes' : ScopeSupply}
    (h : c.serve scopes = (.ok answer, scopes')) (cs : List Call) :
    assertions (c :: cs) scopes = answer.assertions ++ assertions cs scopes' ∧
      (serveAll (c :: cs) scopes).2 = (serveAll cs scopes').2 := by
  rw [assertions, serveAll, h]
  exact ⟨rfl, rfl⟩

/-- The scopes of a session are those that follow the first one, each taken once. -/
theorem perm_scopes {cs : List Call} {scopes : ScopeSupply}
    (h : scopes.current.id.toNat + (assertions cs scopes).length < UInt64.size) :
    (serveAll cs scopes).2.current.id.toNat =
        scopes.current.id.toNat + (assertions cs scopes).length ∧
      ((assertions cs scopes).map fun a => a.scope.id.toNat).Perm
        (List.range' (scopes.current.id.toNat + 1) (assertions cs scopes).length) := by
  induction cs generalizing scopes with
  | nil => exact ⟨rfl, .nil⟩
  | cons c cs ih =>
    rcases c.serve_cases scopes with ⟨e, -, hserve⟩ | ⟨ps, answer, -, hof, hserve⟩
    · obtain ⟨hassertions, hlast⟩ := assertions_of_error hserve cs
      rw [hassertions] at h ⊢
      rw [hlast]
      exact ih h
    · obtain ⟨hassertions, hlast⟩ := assertions_of_ok hserve cs
      have hlength : answer.assertions.length = ps.length := by
        rw [hof.perm.length_eq, length_placed]
      rw [hassertions, List.length_append, hlength] at h
      have hcurrent : (UInt64.ofNat (scopes.current.id.toNat + ps.length)).toNat =
          scopes.current.id.toNat + ps.length :=
        UInt64.toNat_ofNat_of_lt (Nat.lt_of_le_of_lt (by omega) h)
      have ih := @ih ⟨⟨.ofNat (scopes.current.id.toNat + ps.length)⟩⟩
      dsimp only at ih
      rw [hcurrent] at ih
      obtain ⟨hcount, hperm⟩ := ih (by omega)
      rw [hlast, hcount, hassertions, List.length_append, hlength]
      refine ⟨Nat.add_assoc .., ?_⟩
      rw [List.map_append, ← List.range'_append_1, Nat.add_right_comm]
      refine .append ?_ hperm
      exact (hof.perm.map _).trans (.of_eq (map_scope_placed (by omega)))

theorem scope_of_occurs_of_mem {a : Assertion} (ha : a ∈ assertions cs scopes) {v : Variable}
    (hv : a.Occurs v) : v.scope = a.scope := by
  induction cs generalizing scopes with
  | nil => cases ha
  | cons c cs ih =>
    rcases c.serve_cases scopes with ⟨e, -, hserve⟩ | ⟨ps, answer, hps, hof, hserve⟩
    · rw [(assertions_of_error hserve _).1] at ha
      exact ih ha
    · rw [(assertions_of_ok hserve _).1] at ha
      rcases List.mem_append.mp ha with ha | ha
      · exact scope_of_occurs_placed hps (hof.perm.mem_iff.mp ha) hv
      · exact ih ha

/-- Along a session, a call that fails leaves the supply as it is, and any other takes the next
scopes, in the order of its text; and no variable occurs in two of the assertions. -/
theorem serveAll_separates (cs : List Call) (scopes : ScopeSupply)
    (h : scopes.current.id.toNat + (assertions cs scopes).length < UInt64.size) :
    (∀ before c after, cs = before ++ c :: after →
      let now := (serveAll before scopes).2
      (∀ e, (c.serve now).1 = .error e →
        c.parts = .error e ∧ (c.serve now).2.current = now.current) ∧
      ∀ answer, (c.serve now).1 = .ok answer →
        ∃ parts, c.parts = .ok parts ∧ answer.Of (placed now.current.id.toNat parts) ∧
          (placed now.current.id.toNat parts).map (fun a => a.scope.id.toNat) =
            List.range' (now.current.id.toNat + 1) parts.length ∧
          (c.serve now).2.current.id.toNat = now.current.id.toNat + parts.length) ∧
    (assertions cs scopes).Pairwise fun a b => ∀ v, a.Occurs v → ¬ b.Occurs v := by
  constructor
  · rintro before c after rfl now
    rw [assertions_append, List.length_append, ← Nat.add_assoc] at h
    rw [← (perm_scopes (Nat.lt_of_le_of_lt (Nat.le_add_right _ _) h)).1] at h
    rcases c.serve_cases now with ⟨e, he, hserve⟩ | ⟨parts, answer, hparts, hof, hserve⟩
    · rw [hserve]
      refine ⟨fun e' h => ?_, fun answer h => ?_⟩
      · cases h
        exact ⟨he, rfl⟩
      · cases h
    · have hlength := (hof.perm.length_eq).trans (length_placed _ parts)
      rw [(assertions_of_ok hserve _).1, List.length_append, hlength, ← Nat.add_assoc] at h
      have hlt := Nat.lt_of_le_of_lt (Nat.le_add_right _ _) h
      rw [hserve]
      refine ⟨fun _ h => ?_, fun answer' h => ?_⟩
      · cases h
      · cases h
        exact ⟨parts, hparts, hof, map_scope_placed hlt, UInt64.toNat_ofNat_of_lt hlt⟩
  · -- with a variable in common, two assertions would have the same scope
    have hnodup : ((assertions cs scopes).map fun a => a.scope.id.toNat).Nodup :=
      (perm_scopes h).2.nodup_iff.mpr List.nodup_range'
    rw [List.Nodup, List.pairwise_map] at hnodup
    refine hnodup.imp_of_mem fun {a b} ha hb hne v hva hvb => hne ?_
    rw [← scope_of_occurs_of_mem ha hva, scope_of_occurs_of_mem hb hvb]

/-- Both policies have an assertion about `X`, and the text between them is none. -/
theorem serveAll_separates_guests :
    let cs : List Call := [.policy {} "Hr says Bob reads. Hr says X:Guest enters if X waits.",
      .assertion {} "Hr says X.", .load {} "Hr says X:Guest enters."]
    let start : ScopeSupply := {}
    start.current.id.toNat + (assertions cs start).length < UInt64.size ∧
      (assertions cs start).map (fun a => a.scope.id) = [1, 2, 3] ∧
      (assertions cs start).Pairwise fun a b => ∀ v, a.Occurs v → ¬ b.Occurs v := by
  intro cs start
  have hscopes : (assertions cs start).map (fun a => a.scope.id) = [1, 2, 3] := by decide +kernel
  have hlength : (assertions cs start).length = 3 := by
    rw [← List.length_map, hscopes]
    rfl
  have h : start.current.id.toNat + (assertions cs start).length < UInt64.size := by
    rw [hlength]
    decide
  exact ⟨h, hscopes, (serveAll_separates cs start h).2⟩

end Call

end AuthLogic
