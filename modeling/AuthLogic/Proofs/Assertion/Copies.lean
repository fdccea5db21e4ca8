import AuthLogic.Proofs.Assertion.Consequence
import AuthLogic.Proofs.Assertion.Height
import AuthLogic.Proofs.Unification.Renaming
import AuthLogic.Proofs.Unification.Symmetry

/-! # Copies of assertions

Two readings of one text differ in their scopes only. No scope is written in the
texts by which expansion compares facts, and so it adds the same antecedents in
every scope. To unify the readings takes one binding for every variable in the
parts that are matched, which are all but the constraint.
-/

namespace AuthLogic

open Matchable
open Term (mentions Mentions)

namespace Term

variable {τ : Type} [Term τ]

instance (t : τ) (v : Variable) : Decidable (Mentions t v) :=
  inferInstanceAs (Decidable (∃ m ∈ mentions t, m.var = v))

end Term

/-! ## Expansion in several scopes -/

namespace Obligation

theorem map_text_distinct {os ps : List Obligation} (h : os.map text = ps.map text) :
    (distinct os).map text = (distinct ps).map text := by
  have hfilter (qs : List Obligation) (t : String) :
      (qs.filter fun q => q.text ≠ t).map text = (qs.map text).filter (· ≠ t) := by
    rw [List.filter_map]
    rfl
  induction os generalizing ps with
  | nil =>
    cases ps with
    | nil => rfl
    | cons p ps => cases h
  | cons o os ih =>
    cases ps with
    | nil => cases h
    | cons p ps =>
      obtain ⟨ho, h⟩ := List.cons.inj h
      rw [distinct, distinct, List.map_cons, List.map_cons, hfilter, hfilter, ih h, ho]

/-- The texts of obligations tell the names of variables only. -/
theorem map_text_ofAssertion_stamp (s s' : Scope) (speaker : Entity) (claim : Claim) :
    (ofAssertion (Term.stamp s speaker) (Term.stamp s claim)).map text =
      (ofAssertion (Term.stamp s' speaker) (Term.stamp s' claim)).map text := by
  have htexts (s : Scope) :
      ((mentions (Term.stamp s speaker) ++ mentions (Term.stamp s claim)).filterMap
        ofMention?).map text =
          (mentions speaker ++ mentions claim).filterMap Mention.obligation? := by
    rw [Term.mentions_stamp, Term.mentions_stamp, ← List.map_append, List.filterMap_map,
      List.map_filterMap]
    refine congrArg (List.filterMap · _) (funext fun m => ?_)
    change (m.obligation?.map _).map text = m.obligation?
    rw [Option.map_map]
    exact Option.map_id'
  exact map_text_distinct ((htexts s).trans (htexts s').symm)

end Obligation

namespace Claim

variable {r : Scope} {c d : Claim}

theorem stamp_oblige {o p : Obligation} (h : Term.stamp r c = Term.stamp r d)
    (ho : o.text = p.text) : Term.stamp r (c.oblige o) = Term.stamp r (d.oblige p) := by
  rw [oblige, oblige, Obligation.fact?, Obligation.fact?, ← ho]
  cases parseFact o.text with
  | error e => exact h
  | ok g =>
    dsimp only
    have hstates : c.states { g with subject := Term.stamp o.var.scope g.subject } =
        d.states { g with subject := Term.stamp p.var.scope g.subject } := by
      rw [← states_stamp r c, h, states_stamp]
      exact states_congr ((Fact.render_placed _ g).trans (Fact.render_placed _ g).symm)
    have hfact (s : Scope) : Term.stamp r { g with subject := Term.stamp s g.subject } =
        Term.stamp r g :=
      congrArg (Fact.mk · _ _) (Term.stamp_stamp s r g.subject)
    have hantecedents : (c.antecedents.map (Term.stamp r)) = d.antecedents.map (Term.stamp r) :=
      congrArg Claim.antecedents h
    rw [hstates]
    split
    · exact h
    · change Claim.mk (Term.stamp r c.consequent) (List.map (Term.stamp r) (_ ++ [_]))
        (Term.stamp r c.constraint) = Claim.mk (Term.stamp r d.consequent)
          (List.map (Term.stamp r) (_ ++ [_])) (Term.stamp r d.constraint)
      rw [List.map_append, List.map_append, List.map_singleton, List.map_singleton, hfact, hfact,
        hantecedents]
      exact congr (congrArg (Claim.mk · _) (congrArg Claim.consequent h :))
        (congrArg Claim.constraint h :)

theorem stamp_foldl_oblige {os ps : List Obligation} (h : Term.stamp r c = Term.stamp r d)
    (hos : os.map Obligation.text = ps.map Obligation.text) :
    Term.stamp r (os.foldl oblige c) = Term.stamp r (ps.foldl oblige d) := by
  induction os generalizing ps c d with
  | nil =>
    cases ps with
    | nil => exact h
    | cons p ps => cases hos
  | cons o os ih =>
    cases ps with
    | nil => cases hos
    | cons p ps =>
      obtain ⟨ho, hos⟩ := List.cons.inj hos
      rw [List.foldl_cons, List.foldl_cons]
      exact ih (stamp_oblige h ho) hos

end Claim

namespace Assertion

/-- Placed in a third scope, assertions that are built from the same parts are the same. -/
theorem stamp_inScope (s s' r : Scope) (speaker : Entity) (claim : Claim) :
    (inScope s speaker claim).stamp r = (inScope s' speaker claim).stamp r := by
  have hspeaker : Term.stamp r (Term.stamp s speaker) = Term.stamp r (Term.stamp s' speaker) := by
    rw [Term.stamp_stamp, Term.stamp_stamp]
  have hclaim : Term.stamp r ((Term.stamp s claim).expand (Term.stamp s speaker)) =
      Term.stamp r ((Term.stamp s' claim).expand (Term.stamp s' speaker)) :=
    Claim.stamp_foldl_oblige (by rw [Term.stamp_stamp, Term.stamp_stamp])
      (Obligation.map_text_ofAssertion_stamp s s' speaker claim)
  have hrecord (e : Entity) (fs : List Fact) :
      (fs.map fun f => { f with speaker? := some e }).map (Term.stamp r) =
        (fs.map (Term.stamp r)).map fun f => { f with speaker? := some (Term.stamp r e) } := by
    rw [List.map_map, List.map_map]
    rfl
  have hstamp (s : Scope) : (inScope s speaker claim).stamp r =
      let e := Term.stamp r (Term.stamp s speaker)
      let c := Term.stamp r ((Term.stamp s claim).expand (Term.stamp s speaker))
      ⟨e, { c with antecedents := c.antecedents.map fun f => { f with speaker? := some e } }, r⟩ :=
    congrArg (fun fs => Assertion.mk _ ⟨_, fs, _⟩ r) (hrecord _ _)
  rw [hstamp s, hstamp s', hspeaker, hclaim]

variable {levels levels' : Nat} {text : String} {scopes₁ scopes₂ scopes₃ scopes₄ : ScopeSupply}
  {a b : Assertion}

theorem stamp_scope_of_parse (h : parse levels text scopes₁ = .ok (a, scopes₂)) :
    a.stamp a.scope = a := by
  have hstamp : Term.stamp a.scope a = Term.replace .var a := by
    rw [Term.stamp_eq_replace]
    exact replace_congr fun m hm => by rw [← scoped_of_parse h ⟨m, hm, rfl⟩]
  rw [stamp, hstamp, Term.replace_var]

/-- Of two readings of one text, each is a copy of the other. -/
theorem eq_stamp_of_parse (ha : parse levels text scopes₁ = .ok (a, scopes₂))
    (hb : parse levels' text scopes₃ = .ok (b, scopes₄)) : b = a.stamp b.scope := by
  obtain ⟨ls, hls, d, -, -, htokens, haparts, -⟩ := parse_eq_ok_iff_derived.mp ha
  obtain ⟨ls', hls', d', -, -, htokens', hbparts, -⟩ := parse_eq_ok_iff_derived.mp hb
  cases hls.symm.trans hls'
  cases AssertionTree.tokens_inj (htokens.trans htokens'.symm)
  calc b = b.stamp b.scope := (stamp_scope_of_parse hb).symm
    _ = a.stamp b.scope := by
      rw [haparts, hbparts]
      exact stamp_inScope _ _ _ _ _

/-! ## Unifying copies -/

/-- Some part other than the constraint mentions a variable. -/
def MentionsUnguarded (a : Assertion) (v : Variable) : Prop :=
  Mentions a.speaker v ∨ Mentions a.claim.consequent v ∨ Mentions a.claim.antecedents v

instance (a : Assertion) (v : Variable) : Decidable (a.MentionsUnguarded v) :=
  inferInstanceAs (Decidable (_ ∨ _))

theorem mentionsUnguarded_iff {v : Variable} :
    a.MentionsUnguarded v ↔ ∃ m, .var m ∈ Term.entities (essence a) ∧ m.var = v := by
  have hantecedents : (a.claim.antecedents.map Fact.essence).flatMap Term.entities =
      Term.entities a.claim.antecedents := by
    rw [List.flatMap_map]
    exact congrArg (List.flatMap · _) (funext Fact.entities_essence)
  have hentities : Term.entities (essence a) = [a.speaker] ++
      (Term.entities a.claim.consequent ++ Term.entities a.claim.antecedents) := by
    rw [← Fact.entities_essence, ← hantecedents]
    exact congrArg (a.speaker :: ·) (List.append_nil _)
  rw [hentities]
  simp only [MentionsUnguarded, Mentions, Term.mem_mentions_iff, List.mem_append, or_and_right,
    exists_or]
  rfl

theorem mentionsUnguarded_stamp_iff {s : Scope} {v : Variable} :
    (a.stamp s).MentionsUnguarded v ↔ ∃ w, a.MentionsUnguarded w ∧ v = w.inScope s := by
  have hentities : Term.entities (essence (a.stamp s)) =
      (Term.entities (essence a)).map (Term.stamp s) :=
    entities_essence_stamp (k := .assertion) a s
  simp only [mentionsUnguarded_iff, hentities, List.mem_map]
  constructor
  · rintro ⟨m, ⟨e, he, hm⟩, rfl⟩
    cases e with
    | const c => cases hm
    | var n =>
      cases hm
      exact ⟨n.var, ⟨n, he, rfl⟩, rfl⟩
  · rintro ⟨_, ⟨n, hn, rfl⟩, rfl⟩
    exact ⟨_, ⟨.var n, hn, rfl⟩, rfl⟩

/-- Read twice from one text, an assertion is unified with its copy by taking the variables of the
later scope to those of the earlier one, except where only the constraint mentions them. The
variables of the earlier one that are not left out all have a copy bound to them. Nothing at all is
bound to match a term with itself. -/
theorem unify_copies :
    (∀ (levels levels' : Nat) (text : String) (scopes₁ scopes₂ scopes₃ scopes₄ : ScopeSupply)
      (a b : Assertion), parse levels text scopes₁ = .ok (a, scopes₂) →
        parse levels' text scopes₃ = .ok (b, scopes₄) → a.scope.id < b.scope.id →
        ∃ θ : Substitution, Unifiable.unify a b = some θ ∧ Unifiable.unify b a = some θ ∧
          (∀ v, (b.MentionsUnguarded v → v.scope = b.scope ∧
              a.MentionsUnguarded (v.inScope a.scope) ∧
              ∃ m, θ.get? v = some (.var m) ∧ m.var = v.inScope a.scope) ∧
            (¬ b.MentionsUnguarded v → θ.get? v = none)) ∧
          ∀ w, a.MentionsUnguarded w → w.scope = a.scope ∧
            b.MentionsUnguarded (w.inScope b.scope) ∧
            ∃ m, θ.get? (w.inScope b.scope) = some (.var m) ∧ m.var = w) ∧
    ∀ (k : Kind) (t : k.Carrier), Unifiable.unify t t = Unification.empty := by
  refine ⟨fun levels levels' text scopes₁ scopes₂ scopes₃ scopes₄ a b ha hb hs => ?_, unify_self⟩
  have hscope := scoped_essence_of_parse ha
  obtain ⟨θ, hθ, hbound, hrange⟩ := exists_unify_stamp (k := .assertion) hscope hs
  have hunify : Unifiable.unify a b = some θ := by
    rw [eq_stamp_of_parse ha hb]
    exact hθ
  have hcopy {v : Variable} :
      b.MentionsUnguarded v ↔ ∃ w, a.MentionsUnguarded w ∧ v = w.inScope b.scope := by
    rw [eq_stamp_of_parse ha hb]
    exact mentionsUnguarded_stamp_iff
  refine ⟨θ, hunify, (b.unify_symm a).trans hunify, fun v => ⟨fun hv => ?_, fun hv => ?_⟩,
    fun w hw => ?_⟩
  · obtain ⟨w, hw, rfl⟩ := hcopy.mp hv
    obtain ⟨n, hn, rfl⟩ := mentionsUnguarded_iff.mp hw
    have heq : (n.var.inScope b.scope).inScope a.scope = n.var :=
      Variable.eq_of_name_eq rfl (hscope n hn).symm
    rw [heq]
    exact ⟨rfl, hw, hbound n hn⟩
  · cases hget : θ.get? v with
    | none => rfl
    | some e =>
      obtain ⟨n, hn, rfl⟩ := hrange v e hget
      exact absurd (hcopy.mpr ⟨n.var, mentionsUnguarded_iff.mpr ⟨n, hn, rfl⟩, rfl⟩) hv
  · obtain ⟨n, hn, rfl⟩ := mentionsUnguarded_iff.mp hw
    exact ⟨hscope n hn, hcopy.mpr ⟨n.var, hw, rfl⟩, hbound n hn⟩

/-- `Y` is mentioned three times, and in the antecedent that its type adds; `W` only in the
constraint. -/
theorem unify_copies_delegation :
    let text := "X says Y:Role can-say inf Z enters Y if Y knows X where f(W) = 1."
    ∃ a b : Assertion, parse 64 text {} = .ok (a, ⟨⟨1⟩⟩) ∧ parse 64 text ⟨⟨1⟩⟩ = .ok (b, ⟨⟨2⟩⟩) ∧
      a.scope.id < b.scope.id ∧ a.claim.antecedents.length = 2 ∧
      (∃ θ : Substitution, Unifiable.unify a b = some θ ∧ Unifiable.unify b a = some θ ∧
        (∀ name ∈ ["X", "Y", "Z"], a.MentionsUnguarded ⟨name, ⟨1⟩⟩ ∧
          b.MentionsUnguarded ⟨name, ⟨2⟩⟩ ∧
          ∃ m, θ.get? ⟨name, ⟨2⟩⟩ = some (.var m) ∧ m.var = ⟨name, ⟨1⟩⟩) ∧
        θ.get? ⟨"W", ⟨2⟩⟩ = none) ∧
      Unifiable.unify a a = Unification.empty := by
  intro text
  let entity (name : String) (type? : Option String) : Entity := .var ⟨{ name }, type?⟩
  let claim : Claim :=
    { consequent := ⟨entity "Y" "Role", .canSay .unbounded (entity "Z" none)
        (.predicate "enters" [entity "Y" none]) none, none⟩
      antecedents := [⟨entity "Y" none, .predicate "knows" [entity "X" none], none⟩]
      constraint := .binary .eq (.call "f" [.entity (entity "W" none)]) (.int 1) }
  let a := inScope ⟨1⟩ (entity "X" none) claim
  let b := inScope ⟨2⟩ (entity "X" none) claim
  have hparse : (parseAssertion 64 text).toOption = some (entity "X" none, claim) := by
    decide +kernel
  have ha : parse 64 text {} = .ok (a, ⟨⟨1⟩⟩) := parse_of_toOption _ hparse {}
  have hb : parse 64 text ⟨⟨1⟩⟩ = .ok (b, ⟨⟨2⟩⟩) := parse_of_toOption _ hparse ⟨⟨1⟩⟩
  have hs : a.scope.id < b.scope.id := by decide
  obtain ⟨θ, hab, hba, hθ, hcopies⟩ := unify_copies.1 _ _ _ _ _ _ _ _ _ ha hb hs
  have hmentions : ∀ name ∈ ["X", "Y", "Z"], a.MentionsUnguarded ⟨name, ⟨1⟩⟩ := by decide +kernel
  refine ⟨a, b, ha, hb, hs, by decide +kernel, ⟨θ, hab, hba, fun name hname => ?_, ?_⟩,
    unify_copies.2 .assertion a⟩
  · exact ⟨hmentions name hname, (hcopies _ (hmentions name hname)).2⟩
  · exact (hθ _).2 (by decide +kernel)

end Assertion

end AuthLogic
