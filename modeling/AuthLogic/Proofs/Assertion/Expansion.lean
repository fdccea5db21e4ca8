import AuthLogic.Proofs.Assertion.Keys
import AuthLogic.Proofs.Fact.Roundtrip
import AuthLogic.Proofs.Safety.Confinement

/-! # Written types

What building an assertion makes of the types that variables are written with.
Each of them is stated by an antecedent about the variable, in the order in which
they are written first, unless an antecedent states it already. Statements are
compared by their texts, which tell legible facts in one scope apart.
-/

namespace AuthLogic

open Term (mentions)

/-- A variable and a type that it is written with. -/
structure Typing where
  var : Variable
  type : String
  deriving DecidableEq, Repr, Inhabited

def Mention.typing? (m : Mention) : Option Typing :=
  m.type?.map (⟨m.var, ·⟩)

/-- The types that the variables of an assertion are written with, in reading order. -/
def Claim.typings (speaker : Entity) (c : Claim) : List Typing :=
  (mentions speaker ++ mentions c).filterMap Mention.typing?

namespace Typing

/-- The variable `is-a` constant of the type. -/
def fact (p : Typing) : Fact where
  subject := .var ⟨p.var, none⟩
  object := .predicate "is-a" [.const ⟨p.type⟩]

def obligation (p : Typing) : Obligation :=
  ⟨p.var, p.fact.render⟩

end Typing

/-- The fact says of a variable that it has a type. -/
def Fact.Declares (f : Fact) (p : Typing) : Prop :=
  Term.untyped f.subject = .var ⟨p.var, none⟩ ∧ f.object = .predicate "is-a" [.const ⟨p.type⟩]

instance (f : Fact) (p : Typing) : Decidable (f.Declares p) :=
  inferInstanceAs (Decidable (_ ∧ _))

/-- Some antecedent declares the type of a variable. -/
def Claim.Declares (c : Claim) (p : Typing) : Prop :=
  ∃ f ∈ c.antecedents, f.Declares p

instance (c : Claim) (p : Typing) : Decidable (c.Declares p) :=
  inferInstanceAs (Decidable (∃ f ∈ c.antecedents, f.Declares p))

/-! ## Texts tell facts apart -/

theorem Entity.bare_eq_of_token_eq {e d : Entity} (he : e.Legible) (hd : d.Legible)
    (h : e.token = d.token) : Term.bare e = Term.bare d := by
  have hconst {c : Constant} {m : Mention} (hm : (var m).Legible) :
      (const c).token ≠ (var m).token := by
    intro h
    rw [token] at h
    split at h
    case isTrue hc =>
      have hname := c.isVariableName_of_isBare hc
      rw [Token.name.inj h, hm.1] at hname
      cases hname
    case isFalse => cases h
  cases e with
  | const c =>
    cases d with
    | const c' =>
      rw [token, token] at h
      have hname : c.name = c'.name := by
        split at h <;> split at h
        · exact Token.name.inj h
        · cases h
        · cases h
        · exact Token.str.inj h
      exact congrArg (fun name => const ⟨name⟩) hname
    | var n => exact absurd h (hconst hd)
  | var m =>
    cases d with
    | const c' => exact absurd h.symm (hconst he)
    | var n => exact congrArg (fun name => var ⟨{ name }, none⟩) (Token.name.inj h)

namespace VerbPhrase

theorem render_essence (v : VerbPhrase) : v.essence.render = v.render := by
  induction v with
  | canSay depth subject object speaker? ih => rw [essence, render, render, ih]
  | _ => rfl

theorem tokens_essence (v : VerbPhrase) : v.essence.tokens = v.tokens := by
  induction v with
  | canSay depth subject object speaker? ih => rw [essence, tokens, tokens, ih]
  | _ => rfl

theorem legible_essence {v : VerbPhrase} (h : ∀ e ∈ Term.entities v, e.Legible)
    (hpredicate : ∀ name ∈ v.predicate?, IsWord name) : v.essence.Legible := by
  induction v with
  | predicate name args => exact ⟨isWord_iff_lexable.mp (hpredicate name rfl), h⟩
  | canActAs role => exact h _ List.mem_cons_self
  | canSay depth subject object speaker? ih =>
    obtain ⟨hs, ho⟩ := List.forall_mem_cons.mp h
    exact ⟨hs, ih ho hpredicate, rfl⟩

end VerbPhrase

instance : (e : Entity) → Decidable e.Legible
  | .const _ => inferInstanceAs (Decidable (_ ∉ _))
  | .var _ => inferInstanceAs (Decidable (_ ∧ _))

/-- Legible and in a scope, whatever speakers are recorded. -/
structure Fact.LegibleIn (s : Scope) (f : Fact) : Prop where
  legible : ∀ e ∈ Term.entities f, e.Legible
  scope : Scoped s (Term.entities f)
  word : ∀ name ∈ f.predicate?, IsWord name

structure Typing.LegibleIn (s : Scope) (p : Typing) : Prop where
  name : isVariableName p.var.name = true
  type : '"' ∉ p.type.toList
  scope : p.var.scope = s

section Declares

variable {s : Scope} {f : Fact} {p q : Typing}

theorem Fact.LegibleIn.spells (h : f.LegibleIn s) : Lexeme.Spells f.render.toList f.tokens := by
  obtain ⟨hs, ho⟩ := List.forall_mem_cons.mp h.legible
  have hessence : f.essence.Legible := ⟨hs, VerbPhrase.legible_essence ho h.word⟩
  have hspells := hessence.spells
  have hrender : f.essence.render = f.render := by
    rw [Fact.render, Fact.render, essence, VerbPhrase.render_essence]
  have htokens : f.essence.tokens = f.tokens := by
    rw [Fact.tokens, Fact.tokens, essence, VerbPhrase.tokens_essence]
  rwa [hrender, htokens] at hspells

theorem Fact.LegibleIn.tokens_eq {g : Fact} (hf : f.LegibleIn s) (hg : g.LegibleIn s)
    (h : f.render = g.render) : f.tokens = g.tokens := by
  obtain ⟨ls, hls, hf⟩ := hf.spells.exists_ofText
  obtain ⟨ls', hls', hg⟩ := hg.spells.exists_ofText
  rw [h, hls'] at hls
  cases hls
  rw [← hf, ← hg]

theorem Typing.LegibleIn.fact (h : p.LegibleIn s) : p.fact.LegibleIn s where
  legible := by
    refine List.forall_mem_cons.mpr ⟨⟨h.name, by simp⟩, ?_⟩
    exact List.forall_mem_singleton.mpr h.type
  scope := by
    intro m hm
    rcases List.mem_cons.mp hm with hm | hm
    · cases hm
      exact h.scope
    · cases List.mem_singleton.mp hm
  word := by
    rintro name ⟨⟩
    exact isWord_iff_lexable.mpr Obligation.lexable_isA

theorem Fact.declares_fact_iff : p.fact.Declares q ↔ p = q := by
  constructor
  · rintro ⟨hs, ho⟩
    obtain ⟨var, type⟩ := p
    cases hs
    cases ho
    rfl
  · rintro rfl
    exact ⟨rfl, rfl⟩

theorem Fact.LegibleIn.render_eq_iff (hf : f.LegibleIn s) (hp : p.LegibleIn s) :
    f.render = p.fact.render ↔ f.Declares p := by
  constructor
  · intro h
    have htokens := hf.tokens_eq hp.fact h
    obtain ⟨subject, object, speaker?⟩ := f
    obtain ⟨hsubject, hobject⟩ := List.cons.inj htokens
    obtain ⟨hs, ho⟩ := List.forall_mem_cons.mp hf.legible
    obtain ⟨hs', ho'⟩ := List.forall_mem_cons.mp hp.fact.legible
    have hsubject := Entity.bare_eq_of_token_eq hs hs' hsubject
    constructor
    · cases subject with
      | const c => cases hsubject
      | var m =>
        have hname : m.var.name = p.var.name := congrArg (fun n => n.var.name)
          (Entity.var.inj hsubject)
        have hscope := (hf.scope m List.mem_cons_self).trans hp.scope.symm
        have hvar : m.var = p.var := congr (congrArg Variable.mk hname) hscope
        exact congrArg (fun v => Entity.var ⟨v, none⟩) hvar
    · cases object with
      | predicate name args =>
        obtain ⟨hname, hargs⟩ := List.cons.inj hobject
        obtain ⟨e, rfl, he⟩ := List.map_eq_singleton_iff.mp hargs
        have he := Entity.bare_eq_of_token_eq (ho e List.mem_cons_self)
          (ho' _ List.mem_cons_self) he
        cases hname
        cases e with
        | const c =>
          cases he
          rfl
        | var n => cases he
      | canActAs role => cases hobject
      | canSay depth subject object speaker? => cases hobject
  · rintro ⟨hsubject, hobject⟩
    obtain ⟨subject, object, speaker?⟩ := f
    cases hobject
    cases subject with
    | const c => cases hsubject
    | var m =>
      have hvar : m.var = p.var := congrArg Mention.var (Entity.var.inj hsubject)
      change m.var.name ++ " " ++ p.fact.object.render = p.var.name ++ " " ++ p.fact.object.render
      rw [hvar]

theorem Claim.states_iff_declares {c : Claim} (hc : ∀ f ∈ c.antecedents, f.LegibleIn s)
    (hp : p.LegibleIn s) : c.states p.fact = true ↔ c.Declares p := by
  rw [states_iff]
  exact exists_congr fun f => and_congr_right fun hf => (hc f hf).render_eq_iff hp

end Declares

/-! ## Obligations -/

theorem nodup_eraseDups {α : Type} [DecidableEq α] (l : List α) : l.eraseDups.Nodup := by
  cases l with
  | nil => exact .nil
  | cons a l =>
    rw [List.eraseDups_cons, List.nodup_cons]
    exact ⟨by simp, nodup_eraseDups _⟩
termination_by l.length
decreasing_by exact Nat.lt_succ_of_le (List.length_filter_le _ _)

namespace Obligation

theorem filter_distinct (P : String → Bool) (os : List Obligation) :
    (distinct os).filter (fun o => P o.text) = distinct (os.filter fun o => P o.text) := by
  induction os with
  | nil => rfl
  | cons o os ih =>
    rw [distinct, List.filter_cons, List.filter_cons]
    cases ho : P o.text with
    | true =>
      rw [if_pos rfl, if_pos rfl, distinct, ← ih, List.filter_filter, List.filter_filter]
      simp only [Bool.and_comm]
    | false =>
      rw [if_neg Bool.false_ne_true, if_neg Bool.false_ne_true, ← ih, List.filter_filter]
      refine List.filter_congr fun q _ => ?_
      cases hq : P q.text with
      | true =>
        have hne : q.text ≠ o.text := fun h => by simp [h, ho] at hq
        simp [hne]
      | false => rfl

/-- Where texts tell items apart, the first of equal ones is the first of equal texts. -/
theorem distinct_map {g : Typing → Obligation} (l : List Typing)
    (hg : ∀ p ∈ l, ∀ q ∈ l, (g p).text = (g q).text → p = q) :
    distinct (l.map g) = l.eraseDups.map g := by
  match l with
  | [] => rfl
  | p :: l =>
    have hother : (l.map g).filter (fun o => o.text ≠ (g p).text) =
        (l.filter fun q => !q == p).map g := by
      rw [List.filter_map]
      refine congrArg _ (List.filter_congr fun q hq => ?_)
      have hiff : (g q).text = (g p).text ↔ q = p :=
        ⟨hg q (List.mem_cons_of_mem p hq) p List.mem_cons_self, fun h => h ▸ rfl⟩
      rw [Function.comp_apply, decide_not, decide_eq_decide.mpr hiff]
      rfl
    have hinj : ∀ q ∈ l.filter (fun q => !q == p), ∀ r ∈ l.filter (fun q => !q == p),
        (g q).text = (g r).text → q = r := fun q hq r hr =>
      hg q (List.mem_cons_of_mem p (List.mem_filter.mp hq).1) r
        (List.mem_cons_of_mem p (List.mem_filter.mp hr).1)
    rw [List.map_cons, distinct, filter_distinct (fun text => text ≠ (g p).text), hother,
      distinct_map _ hinj, List.eraseDups_cons, List.map_cons]
termination_by l.length
decreasing_by exact Nat.lt_succ_of_le (List.length_filter_le _ _)

theorem ofMention?_eq (m : Mention) : ofMention? m = m.typing?.map Typing.obligation := by
  obtain ⟨var, type?⟩ := m
  cases type? with
  | none => rfl
  | some type =>
    obtain ⟨_, htype, htext⟩ := exists_fact (m := ⟨var, some type⟩) rfl
    cases htype
    exact congrArg (fun text => some (Obligation.mk var text)) htext

end Obligation

namespace Claim

variable {s : Scope} {speaker : Entity} {c : Claim} {p q : Typing} {ps : List Typing}

/-- The claim with declarations of types as further antecedents. -/
def declare (c : Claim) (ps : List Typing) : Claim :=
  { c with antecedents := c.antecedents ++ ps.map Typing.fact }

theorem declare_nil (c : Claim) : c.declare [] = c := by
  rw [declare, List.map_nil, List.append_nil]

theorem declare_declare (c : Claim) (ps qs : List Typing) :
    (c.declare ps).declare qs = c.declare (ps ++ qs) := by
  rw [declare, declare, declare, List.map_append, ← List.append_assoc]

theorem declares_declare_iff : (c.declare ps).Declares q ↔ c.Declares q ∨ q ∈ ps := by
  simp only [Declares, declare, List.mem_append, List.mem_map, or_and_right, exists_or]
  refine or_congr_right ⟨?_, fun h => ⟨q.fact, ⟨q, h, rfl⟩, Fact.declares_fact_iff.mpr rfl⟩⟩
  rintro ⟨f, ⟨p, hp, rfl⟩, hq⟩
  exact Fact.declares_fact_iff.mp hq ▸ hp

end Claim

theorem Typing.LegibleIn.fact?_obligation {s : Scope} {p : Typing} (h : p.LegibleIn s) :
    p.obligation.fact? = some p.fact := by
  have hreadable : p.fact.Readable defaultLevels :=
    ⟨⟨⟨h.name, by simp⟩, Obligation.lexable_isA, List.forall_mem_singleton.mpr h.type⟩,
      Nat.succ_pos 63⟩
  exact Obligation.fact?_eq_some_iff.mpr ⟨_, parseFact_render hreadable, rfl⟩

namespace Claim

variable {s : Scope} {speaker : Entity} {c : Claim} {p q : Typing} {ps : List Typing}

theorem oblige_obligation (hc : ∀ f ∈ c.antecedents, f.LegibleIn s) (hp : p.LegibleIn s) :
    c.oblige p.obligation = if c.Declares p then c else c.declare [p] := by
  rw [oblige, hp.fact?_obligation]
  by_cases h : c.Declares p
  · exact (if_pos ((states_iff_declares hc hp).mpr h)).trans (if_pos h).symm
  · exact (if_neg fun hs => h ((states_iff_declares hc hp).mp hs)).trans (if_neg h).symm

theorem legibleIn_of_mem_declare (hc : ∀ f ∈ c.antecedents, f.LegibleIn s)
    (hps : ∀ p ∈ ps, p.LegibleIn s) : ∀ f ∈ (c.declare ps).antecedents, f.LegibleIn s := by
  intro f hf
  rcases List.mem_append.mp hf with hf | hf
  · exact hc f hf
  · obtain ⟨p, hp, rfl⟩ := List.mem_map.mp hf
    exact (hps p hp).fact

theorem foldl_oblige_map (hc : ∀ f ∈ c.antecedents, f.LegibleIn s)
    (hps : ∀ p ∈ ps, p.LegibleIn s) (hd : ps.Nodup) :
    (ps.map Typing.obligation).foldl oblige c =
      c.declare (ps.filter fun p => ¬ c.Declares p) := by
  induction hd generalizing c with
  | nil => exact c.declare_nil.symm
  | @cons p ps hp _ ih =>
    obtain ⟨hlegible, hps⟩ := List.forall_mem_cons.mp hps
    rw [List.map_cons, List.foldl_cons, oblige_obligation hc hlegible]
    by_cases hdeclares : c.Declares p
    · rw [if_pos hdeclares, ih hc hps, List.filter_cons_of_neg (by simpa using hdeclares)]
    · have hc' := legibleIn_of_mem_declare hc (List.forall_mem_singleton.mpr hlegible)
      -- the declaration of one type states no other one
      have hfilter : ps.filter (fun q => ¬ (c.declare [p]).Declares q) =
          ps.filter fun q => ¬ c.Declares q := by
        refine List.filter_congr fun q hq => ?_
        have hne : q ≠ p := fun h => hp q hq h.symm
        simp [declares_declare_iff, hne]
      rw [if_neg hdeclares, ih hc' hps, hfilter, declare_declare,
        List.filter_cons_of_pos (by simpa using hdeclares), List.singleton_append]

/-- Further declarations are written without types. -/
theorem typings_declare (speaker : Entity) (c : Claim) (ps : List Typing) :
    typings speaker (c.declare ps) = typings speaker c := by
  have hnew : (mentions (ps.map Typing.fact)).filterMap Mention.typing? = [] := by
    refine List.filterMap_eq_nil_iff.mpr fun m hm => ?_
    obtain ⟨f, hf, hm⟩ := List.mem_flatMap.mp (Term.mem_mentions_iff.mp hm)
    obtain ⟨p, -, rfl⟩ := List.mem_map.mp hf
    rcases List.mem_cons.mp hm with hm | hm
    · cases hm
      rfl
    · cases List.mem_singleton.mp hm
  have hdeclare : mentions (c.declare ps) = mentions c.consequent ++ mentions c.antecedents ++
      mentions (ps.map Typing.fact) ++ mentions c.constraint := by
    change List.filterMap _ (_ ++ List.flatMap _ (_ ++ _) ++ _) = _
    simp only [List.flatMap_append, List.filterMap_append, ← List.append_assoc]
    rfl
  have hc : mentions c = mentions c.consequent ++ mentions c.antecedents ++
      mentions c.constraint := by
    change List.filterMap _ (_ ++ _ ++ _) = _
    simp only [List.filterMap_append]
    rfl
  simp only [typings, hdeclare, hc, List.filterMap_append, hnew, List.append_nil]

/-- Legible and in a scope in all that expansion looks at. -/
structure LegibleIn (s : Scope) (speaker : Entity) (c : Claim) : Prop where
  typings : ∀ p ∈ typings speaker c, p.LegibleIn s
  antecedents : ∀ f ∈ c.antecedents, f.LegibleIn s

theorem LegibleIn.declare (h : c.LegibleIn s speaker)
    (hps : ∀ p ∈ ps, p.LegibleIn s) : (c.declare ps).LegibleIn s speaker where
  typings := by
    rw [typings_declare]
    exact h.typings
  antecedents := legibleIn_of_mem_declare h.antecedents hps

theorem LegibleIn.ofAssertion_eq (h : c.LegibleIn s speaker) :
    Obligation.ofAssertion speaker c =
      (Claim.typings speaker c).eraseDups.map Typing.obligation := by
  have hos : (mentions speaker ++ mentions c).filterMap Obligation.ofMention? =
      (Claim.typings speaker c).map Typing.obligation := by
    rw [Claim.typings, List.map_filterMap]
    exact congrArg (List.filterMap · _) (funext Obligation.ofMention?_eq)
  rw [Obligation.ofAssertion, hos]
  refine Obligation.distinct_map _ fun p hp q hq heq => ?_
  exact Fact.declares_fact_iff.mp
    (((h.typings p hp).fact.render_eq_iff (h.typings q hq)).mp heq)

/-- The types that are not declared yet, each one once. -/
def undeclared (speaker : Entity) (c : Claim) : List Typing :=
  (typings speaker c).eraseDups.filter fun p => ¬ c.Declares p

theorem LegibleIn.expand_eq (h : c.LegibleIn s speaker) :
    c.expand speaker = c.declare (undeclared speaker c) := by
  have hps : ∀ p ∈ (Claim.typings speaker c).eraseDups, p.LegibleIn s :=
    fun p hp => h.typings p (List.mem_eraseDups.mp hp)
  rw [expand, h.ofAssertion_eq, foldl_oblige_map h.antecedents hps (nodup_eraseDups _)]
  rfl

theorem LegibleIn.declares_expand (h : c.LegibleIn s speaker) (hp : p ∈ Claim.typings speaker c) :
    (c.expand speaker).Declares p := by
  rw [h.expand_eq, declares_declare_iff]
  by_cases hdeclares : c.Declares p
  · exact .inl hdeclares
  · exact .inr (List.mem_filter.mpr ⟨List.mem_eraseDups.mpr hp, decide_eq_true hdeclares⟩)

theorem LegibleIn.expand_expand (h : c.LegibleIn s speaker) :
    (c.expand speaker).expand speaker = c.expand speaker := by
  have hnew : ∀ p ∈ undeclared speaker c, p.LegibleIn s := fun p hp =>
    h.typings p (List.mem_eraseDups.mp (List.mem_filter.mp hp).1)
  have hexpand : (c.expand speaker).LegibleIn s speaker := by
    rw [h.expand_eq]
    exact h.declare hnew
  have hnone : undeclared speaker (c.expand speaker) = [] := by
    refine List.filter_eq_nil_iff.mpr fun p hp => ?_
    have hp := List.mem_eraseDups.mp hp
    rw [h.expand_eq, typings_declare] at hp
    simpa using h.declares_expand hp
  rw [hexpand.expand_eq, hnone, declare_nil]

end Claim

/-! ## Safety -/

theorem Fact.Declares.isFlat {f : Fact} {p : Typing} (h : f.Declares p) : f.isFlat = true := by
  rw [Fact.isFlat, h.2]
  rfl

theorem Fact.Declares.mentions {f : Fact} {p : Typing} (h : f.Declares p) :
    Term.Mentions f p.var := by
  obtain ⟨subject, object, speaker?⟩ := f
  cases subject with
  | const c => cases h.1
  | var m =>
    have hvar : m.var = p.var := congrArg Mention.var (Entity.var.inj h.1)
    exact ⟨m, Term.mem_mentions_iff.mpr List.mem_cons_self, hvar⟩

namespace Claim.Declares

variable {c : Claim} {p : Typing}

theorem isSafeIn (h : c.Declares p) : p.var.isSafeIn c = true := by
  obtain ⟨f, hf, hp⟩ := h
  exact isSafeIn_iff.mpr (Term.mentions_list_iff.mpr
    ⟨f, List.mem_filter.mpr ⟨hf, hp.isFlat⟩, hp.mentions⟩)

theorem contains_antecedentVars (h : c.Declares p) : c.antecedentVars.contains p.var = true := by
  obtain ⟨f, hf, hp⟩ := h
  exact Term.contains_vars_iff.mpr (Term.mentions_list_iff.mpr ⟨f, hf, hp.mentions⟩)

end Claim.Declares

namespace Violation

/-- The variable that is named for being unbound. -/
def var? : Violation → Option Variable
  | looseVariable m => some m.var
  | looseDelegator subject => subject.mention?.map Mention.var
  | strayVariable m => some m.var
  | nestedAntecedent _ => none

end Violation

/-- A variable whose type is declared is bound. -/
theorem Assertion.var?_of_mem_violations {a : Assertion} {p : Typing} (h : a.claim.Declares p)
    {x : Violation} (hx : x ∈ a.violations) : x.var? ≠ some p.var := by
  intro hv
  rcases mem_violations.mp hx with hx | hx | hx
  · rw [Claim.consequentViolations] at hx
    split at hx
    · obtain ⟨m, hm, rfl⟩ := List.mem_map.mp hx
      have hsafe := (List.mem_filter.mp hm).2
      rw [Option.some.inj hv, h.isSafeIn] at hsafe
      cases hsafe
    · split at hx
      case isTrue => cases hx
      case isFalse hsafe =>
        cases List.mem_singleton.mp hx
        obtain ⟨m, hm, hvar⟩ := Option.map_eq_some_iff.mp hv
        cases hsubject : a.claim.consequent.subject with
        | const c =>
          rw [hsubject] at hm
          cases hm
        | var n =>
          rw [hsubject] at hm hsafe
          cases hm
          refine hsafe ?_
          change m.var.isSafeIn a.claim = true
          rw [hvar]
          exact h.isSafeIn
  · obtain ⟨m, hm, rfl⟩ := List.mem_map.mp hx
    have hstray := (List.mem_filter.mp hm).2
    rw [Option.some.inj hv, h.contains_antecedentVars, Bool.or_true] at hstray
    cases hstray
  · obtain ⟨f, -, rfl⟩ := List.mem_map.mp hx
    cases hv

/-! ## Stamped parts -/

section Stamp

variable {s : Scope} {speaker : Entity} {claim : Claim}

theorem Term.legible_stamp {τ : Type} [Term τ] {t : τ} (h : ∀ e ∈ entities t, e.Legible) :
    ∀ e ∈ entities (stamp s t), e.Legible := by
  intro e he
  rw [stamp_eq_replace, entities_replace] at he
  obtain ⟨d, hd, rfl⟩ := List.mem_map.mp he
  exact (h d hd).stamp

theorem Claim.legibleIn_stamp (hspeaker : speaker.Legible)
    (hclaim : ∀ e ∈ Term.entities claim, e.Legible)
    (hword : ∀ f ∈ claim.antecedents, ∀ name ∈ f.predicate?, IsWord name) :
    (Term.stamp s claim).LegibleIn s (Term.stamp s speaker) where
  typings p hp := by
    obtain ⟨m, hm, hp⟩ := List.mem_filterMap.mp hp
    obtain ⟨type, htype, rfl⟩ := Option.map_eq_some_iff.mp hp
    have hm : (Entity.var m).Legible ∧ m.var.scope = s := by
      rcases List.mem_append.mp hm with hm | hm
      · have hm := Term.mem_mentions_iff.mp hm
        exact ⟨Term.legible_stamp (List.forall_mem_singleton.mpr hspeaker) _ hm,
          Term.scoped_stamp s speaker m hm⟩
      · have hm := Term.mem_mentions_iff.mp hm
        exact ⟨Term.legible_stamp hclaim _ hm, Term.scoped_stamp s claim m hm⟩
    exact ⟨hm.1.1, hm.1.2 type htype, hm.2⟩
  antecedents f hf := by
    obtain ⟨g, hg, rfl⟩ := List.mem_map.mp hf
    have hlegible : ∀ e ∈ Term.entities g, e.Legible := fun e he =>
      hclaim e (List.mem_append_left _ (List.mem_append_right _ (List.mem_flatMap.mpr ⟨g, hg, he⟩)))
    have hpredicate : (Term.stamp s g).predicate? = g.predicate? := by
      rw [Term.stamp_eq_replace]
      exact g.object.predicate?_replace _
    exact ⟨Term.legible_stamp hlegible, Term.scoped_stamp s g, hpredicate ▸ hword g hg⟩

end Stamp

namespace Claim

theorem Declares.inScope {s : Scope} {speaker : Entity} {claim : Claim} {p : Typing}
    (h : ((Term.stamp s claim).expand (Term.stamp s speaker)).Declares p) :
    (Assertion.inScope s speaker claim).claim.Declares p := by
  obtain ⟨f, hf, hp⟩ := h
  exact ⟨{ f with speaker? := _ }, List.mem_map_of_mem hf, hp⟩

/-- Expansion declares the types that are written and not declared yet, each of them once, in the
order in which they are written first. All types are declared then: nothing is left for a second
run, and safety never misses a variable that is written with a type. -/
theorem expand_typings (s : Scope) (speaker : Entity) (claim : Claim)
    (hspeaker : speaker.Legible) (hclaim : ∀ e ∈ Term.entities claim, e.Legible)
    (hword : ∀ f ∈ claim.antecedents, ∀ name ∈ f.predicate?, IsWord name) :
    let e := Term.stamp s speaker
    let c := Term.stamp s claim
    let new := undeclared e c
    c.expand e = { c with antecedents := c.antecedents ++ new.map Typing.fact } ∧
      new.Nodup ∧
      (∀ p ∈ typings e c, p.var.scope = s ∧ (c.expand e).Declares p) ∧
      (c.expand e).expand e = c.expand e ∧
      ∀ x ∈ (Assertion.inScope s speaker claim).violations, ∀ p ∈ typings e c,
        x.var? ≠ some p.var := by
  intro e c new
  have h : c.LegibleIn s e := legibleIn_stamp hspeaker hclaim hword
  refine ⟨h.expand_eq, (nodup_eraseDups _).filter _, fun p hp => ?_, h.expand_expand, ?_⟩
  · exact ⟨(h.typings p hp).scope, h.declares_expand hp⟩
  · intro x hx p hp
    exact Assertion.var?_of_mem_violations (h.declares_expand hp).inScope hx

/-- `X:USER enters Y:Room if X is-a "USER", Z:Room waits where X:Guest = X:USER`, of which one type
is declared and one is written twice. -/
theorem expand_typings_guest :
    let v (name : String) (type? : Option String) : Entity := .var ⟨⟨name, .unscoped⟩, type?⟩
    let alice : Entity := .const ⟨"Alice"⟩
    let claim : Claim :=
      { consequent := ⟨v "X" "USER", .predicate "enters" [v "Y" "Room"], none⟩
        antecedents := [⟨v "X" none, .predicate "is-a" [.const ⟨"USER"⟩], none⟩,
          ⟨v "Z" "Room", .predicate "waits" [], none⟩]
        constraint := .binary .eq (.entity (v "X" "Guest")) (.entity (v "X" "USER")) }
    let c := Term.stamp ⟨7⟩ claim
    let new := undeclared alice c
    (alice.Legible ∧ (∀ e ∈ Term.entities claim, e.Legible) ∧
      ∀ f ∈ claim.antecedents, ∀ name ∈ f.predicate?, IsWord name) ∧
    new = [⟨⟨"Y", ⟨7⟩⟩, "Room"⟩, ⟨⟨"Z", ⟨7⟩⟩, "Room"⟩, ⟨⟨"X", ⟨7⟩⟩, "Guest"⟩] ∧
    c.expand alice = { c with antecedents := c.antecedents ++ new.map Typing.fact } ∧
      new.Nodup ∧
      (∀ p ∈ typings alice c, p.var.scope = ⟨7⟩ ∧ (c.expand alice).Declares p) ∧
      (c.expand alice).expand alice = c.expand alice ∧
      ∀ x ∈ (Assertion.inScope ⟨7⟩ alice claim).violations, ∀ p ∈ typings alice c,
        x.var? ≠ some p.var := by
  intro v alice claim c new
  have hspeaker : alice.Legible := by decide
  have hclaim : ∀ e ∈ Term.entities claim, e.Legible := by decide
  have hword : ∀ f ∈ claim.antecedents, ∀ name ∈ f.predicate?, IsWord name := by decide +kernel
  exact ⟨⟨hspeaker, hclaim, hword⟩, by decide +kernel,
    expand_typings ⟨7⟩ alice claim hspeaker hclaim hword⟩

end Claim

end AuthLogic
