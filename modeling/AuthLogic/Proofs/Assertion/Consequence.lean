import AuthLogic.Proofs.Assertion.Speakers
import AuthLogic.Proofs.Unification.MostGeneral
import AuthLogic.Proofs.Unification.Places

/-! # Consequences

The consequence of an assertion is built anew from its speaker and its consequent.
Building states the obligations of the types that they are written with, and so the
conditions come back that a consequence is meant to be without. It also places the
variables in the scope of the assertion once more, among them those that a unifier
has bound in from another assertion.
-/

namespace AuthLogic

open Matchable
open Term (mentions Mentions isGround)

theorem VerbPhrase.entities_essence (v : VerbPhrase) :
    Term.entities v.essence = Term.entities v := by
  induction v with
  | canSay depth subject object speaker? ih => exact congrArg (subject :: ·) ih
  | _ => rfl

theorem Fact.entities_essence (f : Fact) : Term.entities f.essence = Term.entities f :=
  congrArg (f.subject :: ·) f.object.entities_essence

/-! ## Scopes of unifiers -/

theorem Variable.scope_le {v w : Variable} (h : v = w ∨ v < w) : v.scope.id ≤ w.scope.id := by
  rcases h with rfl | h
  · exact UInt64.le_refl _
  · have h : (compare v.scope.id w.scope.id).then (compare v.name w.name) = .lt := h
    rw [Ordering.then_eq_lt] at h
    refine Std.isLE_compare.mp ?_
    rcases h with h | ⟨h, -⟩ <;> rw [h] <;> rfl

/-- Variables of one of two scopes. -/
def InEither (s t : Scope) (e : Entity) : Prop :=
  ∀ m, e = .var m → m.var.scope = s ∨ m.var.scope = t

/-- Of two terms in two scopes that agree by their bindings, the instances are in the lesser
scope. -/
theorem scope_of_mem_apply {τ : Type} [Matchable τ] {a b : τ} {θ : Substitution} {s t : Scope}
    (hd : θ.Downward) (hw : θ.Within (InEither s t)) (hagree : Agree a b θ.assignment)
    (ha : Scoped s (Term.entities (essence a))) (hb : Scoped t (Term.entities (essence b)))
    {e : Entity} (he : e ∈ Term.entities (essence a)) {m : Mention} (hm : θ.apply e = .var m) :
    (s.id ≤ t.id → m.var.scope = s) ∧ (t.id ≤ s.id → m.var.scope = t) := by
  have hvalue : θ.assignment.apply e = .var ⟨m.var, none⟩ := by
    rw [θ.assignment_apply, hm]
    rfl
  -- a variable at an entity of either term is resolved to a variable that is no greater
  have hle {d : Entity} {r : Scope} (hd' : ∀ n, d = .var n → n.var.scope = r)
      (hvalue : θ.assignment.apply d = .var ⟨m.var, none⟩) : m.var.scope.id ≤ r.id := by
    cases d with
    | const c => cases hvalue
    | var n =>
      rw [← hd' n rfl]
      exact Variable.scope_le (hd.eq_or_lt_of_assignment (m := ⟨m.var, none⟩) hvalue)
  have hs : m.var.scope.id ≤ s.id := hle (fun n hn => ha n (hn ▸ he)) hvalue
  have ht : m.var.scope.id ≤ t.id := by
    have hmem : θ.assignment.apply e ∈ (Term.entities (essence b)).map θ.assignment.apply := by
      rw [← hagree.map_entities]
      exact List.mem_map_of_mem he
    obtain ⟨d, hd', heq⟩ := List.mem_map.mp hmem
    exact hle (fun n hn => hb n (hn ▸ hd')) (heq.trans hvalue)
  have hscope : m.var.scope = s ∨ m.var.scope = t := by
    cases e with
    | const c => cases hm
    | var n => exact hw.resolve hd (fun _ hn => .inl (ha _ (hn ▸ he))) m hm
  have heq {r q : Scope} (h : r.id ≤ q.id) (h' : q.id ≤ r.id) : r = q :=
    congrArg Scope.mk (UInt64.le_antisymm h h')
  rcases hscope with h | h
  · exact ⟨fun _ => h, fun hts => h.trans (heq (h ▸ ht) hts)⟩
  · exact ⟨fun hst => h.trans (heq (h ▸ hs) hst), fun _ => h⟩

/-- The same on either side of a unification. -/
theorem scope_of_unify {k : Kind} {a b : k.Carrier} {θ : Substitution} {s t : Scope}
    (ha : Scoped s (Term.entities (essence a))) (hb : Scoped t (Term.entities (essence b)))
    (h : Unifiable.unify a b = some θ ∨ Unifiable.unify b a = some θ) {e : Entity}
    (he : e ∈ Term.entities (essence a)) {m : Mention} (hm : θ.apply e = .var m) :
    (s.id ≤ t.id → m.var.scope = s) ∧ (t.id ≤ s.id → m.var.scope = t) := by
  have hSa : Over (InEither s t) a := fun e he m hm => .inl (ha m (hm ▸ he))
  have hSb : Over (InEither s t) b := fun e he m hm => .inr (hb m (hm ▸ he))
  rcases h with h | h
  · have hsolves := k.unifies a b _ hSa hSb
    rw [h] at hsolves
    cases hsolves with
    | unifier hd hw hs =>
      exact scope_of_mem_apply hd hw ((hs _).mp hd.solvedBy_assignment) ha hb he hm
  · have hsolves := k.unifies b a _ hSb hSa
    rw [h] at hsolves
    cases hsolves with
    | unifier hd hw hs =>
      exact scope_of_mem_apply hd hw ((hs _).mp hd.solvedBy_assignment).symm ha hb he hm

namespace Assertion

variable {a b : Assertion}

/-! ## Heads -/

/-- What is asserted, without the conditions. -/
def head (a : Assertion) : Assertion :=
  { a with claim := { consequent := a.claim.consequent } }

theorem head_inScope (s : Scope) (speaker : Entity) (claim : Claim) :
    (inScope s speaker claim).head =
      Term.stamp s { speaker, claim := { consequent := claim.consequent }, scope := s } := by
  change Assertion.mk _ ⟨(inScope s speaker claim).claim.consequent, [], .trivial⟩ _ = _
  rw [consequent_inScope]
  rfl

theorem head_apply (θ : Substitution) (a : Assertion) : (θ.apply a).head = θ.apply a.head := by
  rw [θ.apply_eq_replace, θ.apply_eq_replace]
  rfl

theorem head_consequence (a : Assertion) : a.consequence.head = Term.stamp a.scope a.head :=
  head_inScope a.scope a.speaker { consequent := a.claim.consequent }

theorem entities_head (a : Assertion) :
    Term.entities a.head = a.speaker :: Term.entities a.claim.consequent := by
  change a.speaker :: (Term.entities a.claim.consequent ++ [] ++ []) = _
  rw [List.append_nil, List.append_nil]

theorem stamp_head_eq_iff {s : Scope} (h : a.claim.consequent.recorded = []) :
    Term.stamp s a.head = a.head ↔ ∀ v, Mentions a.head v → v.scope = s := by
  constructor
  · rintro heq v ⟨m, hm, rfl⟩
    have hm := Term.mem_mentions_iff.mp hm
    rw [← heq] at hm
    exact Term.scoped_stamp s a.head m hm
  · intro hscope
    have hspeaker : a.head.RecordsSpeaker := fun f hf => absurd hf List.not_mem_nil
    have hother : a.head.RecordsNoOther := ⟨h, List.forall_mem_nil _⟩
    have hcongr : Term.stamp s a.head = Term.replace .var a.head := by
      rw [Term.stamp_eq_replace]
      refine replace_congr fun m hm => ?_
      have hm := mem_entities_of_mem_occurrences hspeaker hother hm
      rw [← hscope m.var ⟨m, Term.mem_mentions_iff.mpr hm, rfl⟩]
    rw [hcongr, Term.replace_var]

/-! ## Obligations of heads -/

/-- A type that is written in the head obliges the speaker to prove a fact. -/
def Owes (a : Assertion) : Prop :=
  ∃ m ∈ mentions a.head, ∃ text f, m.obligation? = some text ∧ parseFact text = .ok f

theorem owes_iff : a.Owes ↔
    ∃ text f, Claim.Obliges a.speaker { consequent := a.claim.consequent } text f := by
  have hmentions : mentions a.head =
      mentions a.speaker ++ mentions (Claim.mk a.claim.consequent [] .trivial) :=
    List.filterMap_append (l := [a.speaker])
  rw [Owes, hmentions]
  constructor
  · rintro ⟨m, hm, text, f, htext, hf⟩
    exact ⟨text, f, ⟨m, hm, htext⟩, hf, rfl⟩
  · rintro ⟨text, f, ⟨m, hm, htext⟩, hf, -⟩
    exact ⟨m, hm, text, f, htext, hf⟩

theorem antecedents_consequence_eq_nil_iff :
    a.consequence.claim.antecedents = [] ↔ ¬ a.Owes := by
  rw [owes_iff, List.eq_nil_iff_forall_not_mem]
  constructor
  · rintro h ⟨text, f, ⟨m, hm, htext⟩, hparse, -⟩
    obtain ⟨o, ho, rfl⟩ := Obligation.exists_mem_ofAssertion (s := a.scope) hm htext
    have hfact := Obligation.fact?_eq_some_iff.mpr ⟨f, hparse, rfl⟩
    obtain ⟨g, hg, -⟩ := Claim.states_iff.mp (Claim.states_foldl_oblige ho hfact _)
    exact h _ (List.mem_map_of_mem hg)
  · intro h f hf
    rcases of_mem_antecedents_inScope hf with ⟨g, hg, -⟩ | ⟨text, g, hg, -⟩
    · cases hg
    · exact h ⟨text, g, hg⟩

/-- Types in a text are always legible. -/
theorem owes_iff_of_parse {levels : Nat} {text : String} {scopes scopes' : ScopeSupply}
    (h : parse levels text scopes = .ok (a, scopes')) :
    a.Owes ↔ ∃ m ∈ mentions a.head, m.type?.isSome := by
  obtain ⟨hreadable, -⟩ := readable_of_parse h
  refine exists_congr fun m => and_congr_right fun hm => ?_
  rw [Option.isSome_iff_exists]
  constructor
  · rintro ⟨_, _, htext, -⟩
    obtain ⟨type, htype, -⟩ := Option.map_eq_some_iff.mp htext
    exact ⟨type, htype⟩
  · rintro ⟨type, htype⟩
    have hlegible : (Entity.var m).Legible := by
      have hm := Term.mem_mentions_iff.mp hm
      rw [entities_head] at hm
      rcases List.mem_cons.mp hm with hm | hm
      · exact hm ▸ hreadable.speaker
      · exact hreadable.claim.consequent.1.legible_of_mem hm
    obtain ⟨text, htext⟩ : ∃ text, m.obligation? = some text :=
      ⟨_, Option.map_eq_some_iff.mpr ⟨type, htype, rfl⟩⟩
    obtain ⟨_, -, hread⟩ := Obligation.exists_parseFact (o := ⟨m.var, text⟩) hlegible
      (Option.map_eq_some_iff.mpr ⟨text, htext, rfl⟩)
    exact ⟨text, _, htext, hread⟩

/-! ## Unifying consequences -/

theorem parse_of_toOption {levels : Nat} {text : String} (parts : Entity × Claim)
    (h : (parseAssertion levels text).toOption = some parts) (scopes : ScopeSupply) :
    parse levels text scopes = .ok (inScope scopes.next.1 parts.1 parts.2, scopes.next.2) :=
  parse_eq_ok_iff.mpr ⟨_, _, Parser.toOption_eq_some_iff.mp h, rfl, rfl⟩

theorem head_consequence_of_constructed (h : Constructed a) : a.consequence.head = a.head := by
  obtain ⟨scope, speaker, claim, rfl⟩ := h.exists_inScope
  rw [head_consequence, head_inScope, Term.stamp_stamp]
  rfl

theorem exists_unify_iff (a b : Assertion) :
    (∃ θ, Unifiable.unify a b = some θ) ↔ ∃ σ, Agree a b σ := by
  have hsolves := Kind.unifies .assertion a b (fun _ => True) (fun _ _ => trivial)
    (fun _ _ => trivial)
  have hnone : Unifiable.unify a b = none ↔ ∀ σ, ¬ Agree a b σ := hsolves.eq_none_iff
  rw [← Option.ne_none_iff_exists', Ne, hnone]
  simp only [Classical.not_forall, Classical.not_not]

theorem exists_agree_iff {τ υ : Type} [Matchable τ] [Matchable υ] {t t' : τ} {u u' : υ} :
    (∃ σ, Agree t t' σ ∧ Agree u u' σ) ↔
      ∃ σ : Assignment, Alike (σ.apply t) (σ.apply t') ∧ Alike (σ.apply u) (σ.apply u') := by
  constructor
  · rintro ⟨σ, ht, hu⟩
    exact ⟨σ, congrArg Term.untyped ht, congrArg Term.untyped hu⟩
  · rintro ⟨σ, ht, hu⟩
    exact ⟨σ.untyped, Assignment.agree_untyped_iff.mpr ht, Assignment.agree_untyped_iff.mpr hu⟩

theorem agree_nil_iff {τ : Type} [Matchable τ] {l : List τ} {σ : Assignment} :
    Agree l [] σ ↔ l = [] := by
  constructor
  · intro h
    have hlength := congrArg List.length (show List.map _ (List.map _ l) = [] from h)
    rw [List.length_map, List.length_map] at hlength
    exact List.eq_nil_of_length_eq_zero hlength
  · rintro rfl
    rfl

/-- The consequence of an assertion is its head, together with the obligations of the types that the
head is written with. It has the unifiers of its head if there are none, and otherwise unifies with
no assertion that is without conditions. -/
theorem unify_consequence_iff (h : Constructed a) :
    (a.consequence.speaker = a.speaker ∧
      a.consequence.claim.consequent = a.claim.consequent ∧
      a.consequence.claim.constraint = .trivial ∧ a.consequence.scope = a.scope) ∧
    (a.consequence.claim.antecedents = [] ↔ ¬ a.Owes) ∧
    (∀ (levels : Nat) (text : String) (scopes scopes' : ScopeSupply),
      parse levels text scopes = .ok (a, scopes') →
        (a.Owes ↔ ∃ m ∈ mentions a.head, m.type?.isSome)) ∧
    ∀ q : Assertion, q.claim.antecedents = [] →
      ((∃ θ, Unifiable.unify a.consequence q = some θ) ↔
        ¬ a.Owes ∧ ∃ σ : Assignment, Alike (σ.apply a.speaker) (σ.apply q.speaker) ∧
          Alike (σ.apply a.claim.consequent) (σ.apply q.claim.consequent)) := by
  have hhead := head_consequence_of_constructed h
  have hspeaker : a.consequence.speaker = a.speaker := (congrArg Assertion.speaker hhead :)
  have hconsequent : a.consequence.claim.consequent = a.claim.consequent :=
    (congrArg (fun c : Assertion => c.claim.consequent) hhead :)
  have hconstraint : a.consequence.claim.constraint = .trivial := constraint_inScope _ _ _
  refine ⟨⟨hspeaker, hconsequent, hconstraint, rfl⟩, antecedents_consequence_eq_nil_iff,
    fun _ _ _ _ h => owes_iff_of_parse h, fun q hq => ?_⟩
  have hagree (σ : Assignment) : Agree a.consequence q σ ↔ ¬ a.Owes ∧
      Agree a.speaker q.speaker σ ∧ Agree a.claim.consequent q.claim.consequent σ := by
    rw [agree_iff, Claim.agree_iff, hq, agree_nil_iff, antecedents_consequence_eq_nil_iff,
      hspeaker, hconsequent, and_comm (b := ¬ a.Owes), and_left_comm]
  simp only [exists_unify_iff, hagree, exists_and_left, exists_agree_iff]

/-- The consequence of `Alice says X:Employee can-act-as Admin` is on the condition that `X is-a
Employee`, unlike that of the assertion about `X`, and only the latter answers whether Bob can. -/
theorem unify_consequence_iff_employee :
    let alice : Entity := .const ⟨"Alice"⟩
    let admin (e : Entity) : Claim := { consequent := ⟨e, .canActAs ⟨"Admin"⟩, none⟩ }
    let a := inScope ⟨1⟩ alice (admin (.var ⟨{ name := "X" }, "Employee"⟩))
    let b := inScope ⟨2⟩ alice (admin (.var ⟨{ name := "X" }, none⟩))
    let q := inScope ⟨3⟩ alice (admin (.const ⟨"Bob"⟩))
    Constructed a ∧ Constructed b ∧ q.claim.antecedents = [] ∧
      parse 64 "Alice says X:Employee can-act-as Admin." {} = .ok (a, ⟨⟨1⟩⟩) ∧
      a.Owes ∧ a.consequence.claim.antecedents ≠ [] ∧
      (¬ ∃ θ, Unifiable.unify a.consequence q = some θ) ∧
      ¬ b.Owes ∧ b.consequence.claim.antecedents = [] ∧
      ∃ θ, Unifiable.unify b.consequence q = some θ := by
  intro alice admin a b q
  have ha := unify_consequence_iff (.inScope ⟨1⟩ alice (admin (.var ⟨{ name := "X" }, "Employee"⟩)))
  have hb := unify_consequence_iff (.inScope ⟨2⟩ alice (admin (.var ⟨{ name := "X" }, none⟩)))
  have hq : q.claim.antecedents = [] := by decide +kernel
  have hparse : parse 64 "Alice says X:Employee can-act-as Admin." {} = .ok (a, ⟨⟨1⟩⟩) :=
    parse_of_toOption (alice, admin (.var ⟨{ name := "X" }, "Employee"⟩)) (by decide +kernel) {}
  have howes : a.Owes := (ha.2.2.1 _ _ _ _ hparse).mpr (by decide +kernel)
  have hnone : b.consequence.claim.antecedents = [] := by decide +kernel
  refine ⟨.inScope _ _ _, .inScope _ _ _, hq, hparse, howes, fun h => ha.2.1.mp h howes,
    fun h => ?_, hb.2.1.mp hnone, hnone, ?_⟩
  · exact ((ha.2.2.2 q hq).mp h).1 howes
  · exact (hb.2.2.2 q hq).mpr ⟨hb.2.1.mp hnone, fun _ => .const ⟨"Bob"⟩, rfl, rfl⟩

/-- A type in the head brings a condition back, and then a consequence does not unify with what its
head unifies with. -/
theorem exists_unify_consequence_eq_none :
    ¬ ∀ a : Assertion, Constructed a →
      a.consequence.claim.antecedents = [] ∧
      a.consequence.claim.constraint = .trivial ∧ a.consequence.speaker = a.speaker ∧
      a.consequence.claim.consequent = a.claim.consequent ∧ a.consequence.scope = a.scope ∧
      ∀ q : Assertion, q.claim.antecedents = [] →
        ((∃ θ, Unifiable.unify a.consequence q = some θ) ↔
          ∃ σ : Assignment, Alike (σ.apply a.speaker) (σ.apply q.speaker) ∧
            Alike (σ.apply a.claim.consequent) (σ.apply q.claim.consequent)) := by
  intro h
  obtain ⟨-, -, -, -, -, h⟩ := h (inScope ⟨1⟩ (.const ⟨"Alice"⟩)
    { consequent := ⟨.var ⟨{ name := "X" }, "Employee"⟩, .canActAs ⟨"Admin"⟩, none⟩ })
    (.inScope _ _ _)
  obtain ⟨θ, hθ⟩ := (h (inScope ⟨2⟩ (.const ⟨"Alice"⟩)
    { consequent := ⟨.const ⟨"Bob"⟩, .canActAs ⟨"Admin"⟩, none⟩ }) (by decide +kernel)).mpr
    ⟨fun _ => .const ⟨"Bob"⟩, rfl, by rw [consequent_inScope, consequent_inScope]; rfl⟩
  have hnone := Option.ne_none_iff_exists'.mpr ⟨θ, hθ⟩
  exact hnone (by decide +kernel)

/-! ## Consequences of instances -/

section Instance

variable {levels levels' : Nat} {text text' : String} {θ : Substitution}
  {scopes₁ scopes₂ scopes₃ scopes₄ : ScopeSupply}

theorem mem_occurrences_of_mem_essence {e : Entity} (h : e ∈ Term.entities (essence a)) :
    e ∈ a.occurrences := by
  rw [mem_occurrences_iff]
  rcases List.mem_cons.mp h with h | h
  · exact .inl h
  · have h : e ∈ Term.entities a.claim.consequent.essence ++
        (a.claim.antecedents.map Fact.essence).flatMap Term.entities ++ [] := h
    rw [List.append_nil, List.mem_append, List.mem_flatMap] at h
    rcases h with h | ⟨_, hg, h⟩
    · rw [Fact.entities_essence] at h
      exact .inr (.inl (Fact.mem_occurrences_iff.mpr (.inl h)))
    · obtain ⟨f, hf, rfl⟩ := List.mem_map.mp hg
      rw [Fact.entities_essence] at h
      exact .inr (.inr (.inl ⟨f, hf, Fact.mem_occurrences_iff.mpr (.inl h)⟩))

theorem scoped_of_parse (h : parse levels text scopes₁ = .ok (a, scopes₂)) {v : Variable}
    (hv : a.Occurs v) : v.scope = a.scope := by
  obtain ⟨speaker, claim, hparse, rfl, -⟩ := parse_eq_ok h
  obtain ⟨ls, hls, hread⟩ := parseAssertion_eq_ok_iff.mp hparse
  obtain ⟨⟨hspeaker, hclaim, -⟩, -⟩ :=
    Parser.yields_assertion levels ls _ _ (Lexeme.lexable_of_ofChars hls) hread
  exact scope_of_occurs hspeaker hclaim hv

theorem scoped_essence_of_parse (h : parse levels text scopes₁ = .ok (a, scopes₂)) :
    Scoped a.scope (Term.entities (essence a)) :=
  fun m hm => scoped_of_parse h ⟨m, mem_occurrences_of_mem_essence hm, rfl⟩

/-- The head is among what is matched. -/
theorem mem_essence_of_mem_head {e : Entity} (h : e ∈ Term.entities a.head) :
    e ∈ Term.entities (essence a) := by
  rw [entities_head] at h
  rcases List.mem_cons.mp h with rfl | h
  · exact List.mem_cons_self
  · refine List.mem_append_right _ (List.mem_append_left _ (List.mem_append_left _ ?_))
    change e ∈ Term.entities a.claim.consequent.essence
    rwa [Fact.entities_essence]

/-- The variables in the head of an instance are those of the lesser scope. -/
theorem scope_of_mentions_head (ha : parse levels text scopes₁ = .ok (a, scopes₂))
    (hb : parse levels' text' scopes₃ = .ok (b, scopes₄))
    (h : Unifiable.unify a b = some θ ∨ Unifiable.unify b a = some θ) {v : Variable}
    (hv : Mentions (θ.apply a).head v) :
    (a.scope.id ≤ b.scope.id → v.scope = a.scope) ∧
      (b.scope.id ≤ a.scope.id → v.scope = b.scope) := by
  obtain ⟨m, hm, rfl⟩ := hv
  have hm := Term.mem_mentions_iff.mp hm
  have hmap : Term.entities (θ.apply a.head) = (Term.entities a.head).map θ.apply := by
    rw [θ.apply_eq_replace, Term.entities_replace]
    exact List.map_congr_left fun e _ => (θ.apply_eq_replace e).symm
  rw [head_apply, hmap] at hm
  obtain ⟨e, he, hm⟩ := List.mem_map.mp hm
  exact scope_of_unify (k := .assertion) (scoped_essence_of_parse ha) (scoped_essence_of_parse hb)
    h (mem_essence_of_mem_head he) hm

/-- An instance by a unifier has the variables of the lesser one of two scopes in its head, and its
consequence places them in the scope of the assertion. The head is that of the consequence as long
as these are the same, while the instance of the consequence always has the head of the instance. -/
theorem head_consequence_apply_iff (ha : parse levels text scopes₁ = .ok (a, scopes₂))
    (hb : parse levels' text' scopes₃ = .ok (b, scopes₄))
    (h : Unifiable.unify a b = some θ ∨ Unifiable.unify b a = some θ) :
    (∀ v, Mentions (θ.apply a).head v →
      (a.scope.id ≤ b.scope.id → v.scope = a.scope) ∧
      (b.scope.id ≤ a.scope.id → v.scope = b.scope)) ∧
    (θ.apply a.consequence).head = (θ.apply a).head ∧
    ((θ.apply a).consequence.head = (θ.apply a).head ↔
      a.scope.id ≤ b.scope.id ∨ isGround (θ.apply a).head = true) := by
  have hscope {v : Variable} := scope_of_mentions_head (v := v) ha hb h
  have hrecorded : (θ.apply a).RecordsNoOther := by
    rw [θ.apply_eq_replace]
    exact (recordsNoOther_of_parse ha).replace _
  refine ⟨fun v => hscope, ?_, ?_⟩
  · rw [head_apply, head_apply, head_consequence_of_constructed (.parse ha)]
  · rw [head_consequence, stamp_head_eq_iff hrecorded.1]
    constructor
    · intro hv
      by_cases hground : isGround (θ.apply a).head = true
      · exact .inr hground
      · obtain ⟨m, hm⟩ := Term.isGround_eq_false_iff.mp (Bool.eq_false_iff.mpr hground)
        have hm : Mentions (θ.apply a).head m.var := ⟨m, hm, rfl⟩
        rcases UInt64.le_total a.scope.id b.scope.id with hle | hle
        · exact .inl hle
        · -- the variable is of both scopes, and so these are the same
          have heq : a.scope = b.scope := (hv _ hm).symm.trans ((hscope hm).2 hle)
          exact .inl (heq ▸ UInt64.le_refl _)
    · rintro (hle | hground) v hv
      · exact (hscope hv).1 hle
      · obtain ⟨m, hm, -⟩ := hv
        exact absurd hm (Term.isGround_iff.mp hground m)

/-- The role of `Y` in one scope, and of `X` in the next one, which is bound to `Y`. Of the two
instances, which are the same but for their scopes, only one has the head of its consequence. -/
theorem head_consequence_apply_iff_role :
    let act (x : String) (s : Scope) : Assertion := inScope s (.const ⟨"Alice"⟩)
      { consequent := ⟨.var ⟨{ name := x }, none⟩, .canActAs ⟨"Admin"⟩, none⟩ }
    let a := act "X" ⟨2⟩
    let b := act "Y" ⟨1⟩
    let θ := Substitution.singleton ⟨⟨"X", ⟨2⟩⟩, none⟩ (.var ⟨⟨"Y", ⟨1⟩⟩, none⟩)
    parse 64 "Alice says Y can-act-as Admin." {} = .ok (b, ⟨⟨1⟩⟩) ∧
      parse 64 "Alice says X can-act-as Admin." ⟨⟨1⟩⟩ = .ok (a, ⟨⟨2⟩⟩) ∧
      Unifiable.unify a b = some θ ∧
      (∀ v, Mentions (θ.apply a).head v → v.scope = ⟨1⟩) ∧
      (θ.apply a.consequence).head = (θ.apply a).head ∧
      (θ.apply a).consequence.head ≠ (θ.apply a).head ∧
      (θ.apply b).consequence.head = (θ.apply b).head := by
  intro act a b θ
  let parts (x : String) : Entity × Claim := (.const ⟨"Alice"⟩,
    { consequent := ⟨.var ⟨{ name := x }, none⟩, .canActAs ⟨"Admin"⟩, none⟩ })
  have hb : parse 64 "Alice says Y can-act-as Admin." {} = .ok (b, ⟨⟨1⟩⟩) :=
    parse_of_toOption (parts "Y") (by decide +kernel) {}
  have ha : parse 64 "Alice says X can-act-as Admin." ⟨⟨1⟩⟩ = .ok (a, ⟨⟨2⟩⟩) :=
    parse_of_toOption (parts "X") (by decide +kernel) ⟨⟨1⟩⟩
  have hab : Unifiable.unify a b = some θ := by decide +kernel
  obtain ⟨hscope, happly, hiff⟩ := head_consequence_apply_iff ha hb (.inl hab)
  obtain ⟨-, -, hiff'⟩ := head_consequence_apply_iff hb ha (.inr hab)
  refine ⟨hb, ha, hab, fun v hv => (hscope v hv).2 (by decide), happly, ?_, ?_⟩
  · exact mt hiff.mp (by decide +kernel)
  · exact hiff'.mpr (.inl (by decide))

/-- A variable that a unifier binds in from the scope of an earlier assertion is taken over into the
scope of the later one. -/
theorem exists_head_consequence_apply_ne :
    ¬ ∀ (levels : Nat) (text text' : String) (scopes₁ scopes₂ scopes₃ scopes₄ : ScopeSupply)
      (a b : Assertion) (θ : Substitution), parse levels text scopes₁ = .ok (a, scopes₂) →
        parse levels text' scopes₃ = .ok (b, scopes₄) → (∀ m ∈ mentions a, m.type? = none) →
        Unifiable.unify a b = some θ → (θ.apply a).consequence.head = (θ.apply a).head := by
  intro h
  let parts (x : String) : Entity × Claim := (.const ⟨"Alice"⟩,
    { consequent := ⟨.var ⟨{ name := x }, none⟩, .canActAs ⟨"Admin"⟩, none⟩ })
  have hb : (parseAssertion 64 "Alice says Y can-act-as Admin.").toOption = some (parts "Y") := by
    decide +kernel
  have ha : (parseAssertion 64 "Alice says X can-act-as Admin.").toOption = some (parts "X") := by
    decide +kernel
  have heq := h 64 _ _ _ _ _ _ _ _ (.singleton ⟨⟨"X", ⟨2⟩⟩, none⟩ (.var ⟨⟨"Y", ⟨1⟩⟩, none⟩))
    (parse_of_toOption _ ha ⟨⟨1⟩⟩) (parse_of_toOption _ hb {}) (by decide +kernel)
    (by decide +kernel)
  exact absurd heq (by decide +kernel)

end Instance

end Assertion

end AuthLogic
