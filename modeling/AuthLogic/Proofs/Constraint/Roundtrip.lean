import AuthLogic.Function.Evaluation
import AuthLogic.Proofs.Fact.Roundtrip
import AuthLogic.Proofs.Syntax.Misreading
import AuthLogic.Proofs.Syntax.WhereClause

/-! # Constraints and their texts

The text of a constraint puts those constants in quotation marks that would not
be read as constants without, and what is in quotation marks is read as a string.
So a text gives back a constraint with strings in place of such constants. Nothing
that is evaluated can tell the two apart.
-/

namespace AuthLogic

/-- A constant as it comes back from its text. -/
def Entity.quoted : Entity → Constraint
  | const c => if c.isBare then .entity (.const c) else .str c.name
  | var m => .entity (.var m)

namespace Constraint

mutual

/-- Put a constraint in place of every entity. -/
def mapEntities (f : Entity → Constraint) : Constraint → Constraint
  | str s => str s
  | int n => int n
  | bool b => bool b
  | fail => fail
  | entity e => f e
  | call name args => call name (mapEntitiesList f args)
  | not c => not (c.mapEntities f)
  | binary op l r => binary op (l.mapEntities f) (r.mapEntities f)

def mapEntitiesList (f : Entity → Constraint) : List Constraint → List Constraint
  | [] => []
  | c :: cs => c.mapEntities f :: mapEntitiesList f cs

end

/-- Every constant that is written in quotation marks becomes the string of its name. -/
def quoted (c : Constraint) : Constraint :=
  c.mapEntities Entity.quoted

/-- What a constraint has to meet in order to be told by a text, however it is nested. -/
inductive WellFormed : Constraint → Prop

  | str {text : String} : '"' ∉ text.toList → WellFormed (str text)

  | int (n : Int64) : WellFormed (int n)

  | bool (b : Bool) : WellFormed (bool b)

  | entity {e : Entity} : e.WellFormed → WellFormed (entity e)

  | call {name : String} {args : List Constraint} :
      IsWord name → (∀ arg ∈ args, WellFormed arg) → WellFormed (call name args)

  | not {c : Constraint} : WellFormed c → WellFormed (not c)

  | binary {op : Operator} {l r : Constraint} :
      WellFormed l → WellFormed r → WellFormed (binary op l r)

/-! ## Other entities -/

section MapEntities

variable {f g : Entity → Constraint} {c : Constraint}

@[simp] theorem mapEntitiesList_eq_map (f : Entity → Constraint) (cs : List Constraint) :
    mapEntitiesList f cs = cs.map (mapEntities f) := by
  induction cs with
  | nil => rfl
  | cons c cs ih => rw [mapEntitiesList, ih, List.map_cons]

theorem mapEntities_call (f : Entity → Constraint) (name : String) (args : List Constraint) :
    (call name args).mapEntities f = call name (args.map (mapEntities f)) :=
  congrArg (call name) (mapEntitiesList_eq_map f args)

theorem replace_mapEntities (σ : Mention → Entity) (c : Constraint) :
    (c.mapEntities f).replace σ = c.mapEntities fun e => (f e).replace σ := by
  induction c with
  | entity e => rfl
  | call name args ih =>
    rw [mapEntities_call, mapEntities_call, replace, replaceList_eq_map, List.map_map]
    exact congrArg (call name) (List.map_congr_left ih)
  | not c ih => exact congrArg not ih
  | binary op l r ihl ihr => rw [mapEntities, replace, ihl, ihr, mapEntities]
  | _ => rfl

theorem render_mapEntities (h : ∀ e, (f e).render = e.render) (c : Constraint) :
    (c.mapEntities f).render = c.render := by
  induction c with
  | entity e => exact h e
  | call name args ih =>
    rw [mapEntities_call, render, render, renderList_eq_map, renderList_eq_map, List.map_map]
    exact congrArg (fun texts => name ++ "(" ++ ", ".intercalate texts ++ ")")
      (List.map_congr_left ih)
  | not c ih => exact congrArg ("not " ++ ·) ih
  | binary op l r ihl ihr => rw [mapEntities, render, ihl, ihr, render]
  | _ => rfl

/-- A value is found from the values of the parts. -/
theorem run_mapEntities {r : Registry} (h : ∀ e, r.run (f e) = r.run (.entity e))
    (c : Constraint) : r.run (c.mapEntities f) = r.run c := by
  induction c with
  | entity e => exact h e
  | call name args ih =>
    have hargs : r.runList (args.map (mapEntities f)) = r.runList args := by
      rw [Registry.runList_eq_map, Registry.runList_eq_map, List.map_map]
      exact List.map_congr_left ih
    rw [mapEntities_call, Registry.run, hargs, Registry.run]
  | not c ih => rw [mapEntities, Registry.run, ih, Registry.run]
  | binary op a b iha ihb => rw [mapEntities, Registry.run, iha, ihb, Registry.run]
  | _ => rfl

/-- A constraint that stands for itself in a text, as an entity does. -/
def IsLeaf (c : Constraint) : Prop :=
  c.isPrimary = true ∧ c.isPlain = true ∧ c.nesting = 1

theorem isPrimary_mapEntities (h : ∀ e, (f e).IsLeaf) (c : Constraint) :
    (c.mapEntities f).isPrimary = c.isPrimary := by
  cases c with
  | entity e => exact (h e).1
  | _ => rfl

theorem isPlain_mapEntities (h : ∀ e, (f e).IsLeaf) (c : Constraint) :
    (c.mapEntities f).isPlain = c.isPlain := by
  induction c with
  | entity e => exact (h e).2.1
  | call name args ih =>
    rw [mapEntities_call, isPlain, isPlain, isPlainList_eq_all, isPlainList_eq_all, List.all_map,
      Bool.eq_iff_iff, List.all_eq_true, List.all_eq_true]
    exact forall₂_congr fun arg harg => by rw [Function.comp_apply, ih arg harg]
  | not c ih => exact ih
  | binary op l r ihl ihr =>
    rw [mapEntities, isPlain, ihl, ihr, isPrimary_mapEntities h, isPrimary_mapEntities h, isPlain]
  | _ => rfl

theorem nesting_mapEntities (h : ∀ e, (f e).IsLeaf) (c : Constraint) :
    (c.mapEntities f).nesting = c.nesting := by
  induction c with
  | entity e => exact (h e).2.2
  | call name args ih =>
    have hargs (n : Nat) : nestingList (args.map (mapEntities f)) ≤ n ↔ nestingList args ≤ n := by
      rw [nestingList_le_iff, nestingList_le_iff, List.forall_mem_map]
      exact forall₂_congr fun arg harg => by rw [ih arg harg]
    rw [mapEntities_call, nesting, nesting]
    exact congrArg (· + 1) (Nat.le_antisymm ((hargs _).mpr (Nat.le_refl _))
      ((hargs _).mp (Nat.le_refl _)))
  | not c ih => exact congrArg (· + 1) ih
  | binary op l r ihl ihr => rw [mapEntities, nesting, ihl, ihr, nesting]
  | _ => rfl

theorem fits_mapEntities_iff (h : ∀ e, (f e).IsLeaf) {levels : Nat} :
    (c.mapEntities f).Fits levels ↔ c.Fits levels := by
  rw [Fits, isPlain_mapEntities h, nesting_mapEntities h, Fits]

theorem WellFormed.mapEntities_congr (h : c.WellFormed) (hfg : ∀ e, e.WellFormed → f e = g e) :
    c.mapEntities f = c.mapEntities g := by
  induction h with
  | str | int | bool => rfl
  | entity he => exact hfg _ he
  | call _ _ ih => rw [mapEntities_call, mapEntities_call, List.map_congr_left ih]
  | not _ ih => rw [mapEntities, ih, mapEntities]
  | binary _ _ ihl ihr => rw [mapEntities, ihl, ihr, mapEntities]

theorem WellFormed.legible_mapEntities (h : c.WellFormed)
    (hf : ∀ e, e.WellFormed → (f e).Legible) : (c.mapEntities f).Legible := by
  induction h with
  | str h => exact .str h
  | int n => exact .int n
  | bool b => exact .bool b
  | entity he => exact hf _ he
  | call hname _ ih =>
    rw [mapEntities_call]
    exact .call (isWord_iff_lexable.mp hname) (List.forall_mem_map.mpr ih)
  | not _ ih => exact .not ih
  | binary _ _ ihl ihr => exact .binary ihl ihr

end MapEntities

/-! ## Quotation marks -/

/-- Only what is not bare comes back as a string. -/
theorem quoted_cases (e : Entity) :
    e.quoted = entity e ∧ (∃ name, e.token = .name name) ∨
      ∃ k, e = .const k ∧ k.isBare = false ∧ e.quoted = str k.name := by
  cases e with
  | const k =>
    cases hk : k.isBare with
    | true => exact .inl ⟨if_pos hk, k.name, if_pos hk⟩
    | false => exact .inr ⟨k, rfl, hk, if_neg (Bool.eq_false_iff.mp hk)⟩
  | var m => exact .inl ⟨rfl, m.var.name, rfl⟩

section Quoted

variable {c : Constraint} {levels : Nat}

theorem untyped_quoted (c : Constraint) :
    Term.untyped c.quoted = c.mapEntities fun e => Term.untyped e.quoted :=
  replace_mapEntities _ c

theorem bare_quoted (c : Constraint) :
    Term.bare c.quoted = c.mapEntities fun e => Term.bare e.quoted :=
  replace_mapEntities _ c

theorem render_untyped_quoted (c : Constraint) : (Term.untyped c.quoted).render = c.render := by
  rw [untyped_quoted]
  refine render_mapEntities (fun e => ?_) c
  rcases quoted_cases e with ⟨he, -⟩ | ⟨k, rfl, hk, he⟩
  · rw [he]
    exact e.render_replace fun _ => rfl
  · rw [he, Entity.render, Constant.render, hk]
    rfl

theorem run_untyped_quoted (r : Registry) (c : Constraint) :
    r.run (Term.untyped c.quoted) = r.run c := by
  rw [untyped_quoted]
  refine run_mapEntities (fun e => ?_) c
  rcases quoted_cases e with ⟨he, -⟩ | ⟨k, rfl, hk, he⟩
  · rw [he]
    cases e <;> rfl
  · rw [he]
    rfl

theorem fits_untyped_quoted_iff : (Term.untyped c.quoted).Fits levels ↔ c.Fits levels := by
  rw [untyped_quoted]
  refine fits_mapEntities_iff fun e => ?_
  rcases quoted_cases e with ⟨he, -⟩ | ⟨k, rfl, hk, he⟩ <;> rw [he] <;> exact ⟨rfl, rfl, rfl⟩

/-- There are no scopes that a text would have to tell. -/
theorem WellFormed.untyped_quoted_eq_bare (h : c.WellFormed) :
    Term.untyped c.quoted = Term.bare c.quoted := by
  rw [untyped_quoted, bare_quoted]
  refine h.mapEntities_congr fun e he => ?_
  rcases quoted_cases e with ⟨hq, -⟩ | ⟨k, rfl, -, hq⟩ <;> rw [hq]
  · exact congrArg Constraint.entity he.untyped_eq_bare
  · rfl

theorem WellFormed.legible_untyped_quoted (h : c.WellFormed) :
    (Term.untyped c.quoted).Legible := by
  rw [h.untyped_quoted_eq_bare, bare_quoted]
  refine h.legible_mapEntities fun e he => ?_
  rcases quoted_cases e with ⟨hq, name, htoken⟩ | ⟨k, rfl, -, hq⟩ <;> rw [hq]
  · have htoken : (Term.bare e).token = .name name := by cases e <;> exact htoken
    exact .entity he.legible_bare htoken
  · exact .str he

/-- The text of a well-formed constraint gives it back, without types and with strings in place of
the constants that come in quotation marks, if and only if no operand of a comparison is a comparison
or a negation and there are enough levels. No registry tells what is given back from what was
written. -/
theorem readAs_render_iff (h : c.WellFormed) :
    (∀ levels, ReadAsConstraint levels c.render (Term.untyped c.quoted) ↔
      c.isPlain = true ∧ c.nesting ≤ levels) ∧
    ∀ r : Registry, r.run (Term.untyped c.quoted) = r.run c := by
  refine ⟨fun levels => ?_, fun r => run_untyped_quoted r c⟩
  have hlegible := h.legible_untyped_quoted
  -- what the text gives back has the same text itself, and is read as it stands
  have hspells : Lexeme.Spells c.render.toList (Term.untyped c.quoted).tokens := by
    rw [← render_untyped_quoted]
    exact hlegible.spells
  have hbare : Term.bare (Term.untyped c.quoted) = Term.untyped c.quoted := by
    rw [h.untyped_quoted_eq_bare, Term.bare_bare]
  rw [← Fits, ← fits_untyped_quoted_iff]
  constructor
  · rintro ⟨⟨ls, hls, hread⟩, -⟩
    obtain ⟨ls', hls', htokens⟩ := hspells.exists_ofText
    obtain rfl : ls = ls' := Except.ok.inj (hls.symm.trans hls')
    rw [Parser.constraint_eq, ← List.append_nil ls] at hread
    exact Parser.fits_of_constraint hlegible htokens (Parser.next_nil _) hread
      (Parser.next_nil _) rfl
  · intro hfits
    refine readAsConstraint_of_spells hspells fun ls htokens => ?_
    have hread := Parser.reads_constraint hlegible hfits ls [] htokens (Parser.next_nil _)
    rwa [List.append_nil, hbare] at hread

/-- A constant that has the name of a variable and one that has not, and a variable with a type. -/
theorem readAs_render_iff_barred :
    let alice : Constraint := .binary .lessEq (.int (-1)) (.entity (.const ⟨"Alice"⟩))
    let c : Constraint := .binary .or (.not (.call "barred" [.entity (.const ⟨"NHS"⟩),
      .entity (.var ⟨{ name := "X" }, some "Role"⟩)])) alice
    let d : Constraint := .binary .or (.not (.call "barred" [.str "NHS",
      .entity (.var ⟨{ name := "X" }, none⟩)])) alice
    c.WellFormed ∧ c.render = "(not barred(\"NHS\", X) or -1 <= Alice)" ∧
      Term.untyped c.quoted = d ∧ c.isPlain = true ∧ c.nesting = 4 ∧
      ReadAsConstraint 4 c.render d ∧ ¬ ReadAsConstraint 3 c.render d ∧
      ∀ r : Registry, r.run d = r.run c := by
  intro alice c d
  have hc : c.WellFormed := by
    have hargs : ∀ arg ∈ [entity (.const ⟨"NHS"⟩), entity (.var ⟨{ name := "X" }, some "Role"⟩)],
        arg.WellFormed :=
      List.forall_mem_cons.mpr ⟨.entity (by decide +kernel),
        List.forall_mem_singleton.mpr (.entity (by decide +kernel))⟩
    exact .binary (.not (.call (by decide +kernel) hargs))
      (.binary (.int (-1)) (.entity (by decide +kernel)))
  have hd : Term.untyped c.quoted = d := by decide +kernel
  have hfits : c.isPlain = true ∧ c.nesting = 4 := by decide +kernel
  obtain ⟨hread, hrun⟩ := readAs_render_iff hc
  rw [hd] at hread hrun
  refine ⟨hc, by decide +kernel, hd, hfits.1, hfits.2, ?_, ?_, hrun⟩
  · exact (hread 4).mpr ⟨hfits.1, Nat.le_of_eq hfits.2⟩
  · exact fun h => absurd ((hread 3).mp h).2 (by rw [hfits.2]; decide)

end Quoted

end Constraint

end AuthLogic
