import Mathlib.Data.List.Nodup
import Mathlib.Logic.Relation
import AuthLogic.Proofs.Json.Reading

/-! # Documents that say the same

The JSON form of a term may be reworded anywhere inside: fields change places,
unknown fields are added to a record, an optional part that is absent is written
as `null`. What is a record, a choice between forms or an array is set down for
each kind of value. Main statement: whatever the JSON form of a term is reworded
to is read as that very term.
-/

namespace AuthLogic.Json

/-- What a value stands for. -/
inductive Place
  | text
  | scope
  | hops
  | integer
  | truth
  | mention
  | entity
  | depth
  | predicate
  | delegation
  | verbPhrase
  | fact
  | call
  | constraint
  | claim
  | assertion
  | entities
  | facts
  | constraints

/-- How a value is made up of others. Forms to which nothing belongs are left out. -/
inductive Layout
  | leaf
  | record (required optional : List (String × Place))
  | choice (forms : List (String × Place))
  | array (item : Place)

def Place.layout : Place → Layout
  | text | scope | hops | integer | truth => .leaf
  | mention => .record [("name", text), ("scope", scope)] [("type_annotation", text)]
  | entity => .choice [("Constant", text), ("Variable", mention)]
  | depth => .choice [("Bounded", hops)]
  | predicate => .record [("name", text), ("args", entities)] []
  | delegation => .record [("depth", depth), ("fact", fact)] []
  | verbPhrase => .choice [("Predicate", predicate), ("CanActAs", text), ("CanSay", delegation)]
  | fact => .record [("subject", entity), ("object", verbPhrase)] [("implicit_speaker", entity)]
  | call => .record [("name", text), ("args", constraints)] []
  | constraint =>
    .choice [("Str", text), ("Int", integer), ("Bool", truth), ("Entity", entity), ("Call", call),
      ("Not", constraint), ("And", constraints), ("Or", constraints), ("Eq", constraints),
      ("Less", constraints), ("LessEq", constraints)]
  | claim =>
    .record [("consequent", fact), ("antecedents", facts), ("constraint", constraint)] []
  | assertion => .record [("speaker", entity), ("says", claim), ("scope", scope)] []
  | entities => .array entity
  | facts => .array fact
  | constraints => .array constraint

/-- One change inside a value. What an unknown field holds is not looked at, whatever it is. -/
inductive Edit : Place → Json → Json → Prop

  | reorder {p : Place} {required optional : List (String × Place)}
      {fs gs : List (String × Json)} : p.layout = .record required optional →
      (fs.map Prod.fst).Nodup → fs.Perm gs → Edit p (obj fs) (obj gs)

  | unknown {p : Place} {required optional : List (String × Place)} {name : String} {j : Json}
      {fs gs : List (String × Json)} : p.layout = .record required optional →
      name ∉ (required ++ optional).map Prod.fst →
      Edit p (obj (fs ++ gs)) (obj (fs ++ (name, j) :: gs))

  | absent {p q : Place} {required optional : List (String × Place)} {name : String}
      {fs gs : List (String × Json)} : p.layout = .record required optional →
      (name, q) ∈ optional → name ∉ (fs ++ gs).map Prod.fst →
      Edit p (obj (fs ++ gs)) (obj (fs ++ (name, null) :: gs))

  | field {p q : Place} {required optional : List (String × Place)} {name : String} {j k : Json}
      {fs gs : List (String × Json)} : p.layout = .record required optional →
      (name, q) ∈ required ++ optional → Edit q j k →
      Edit p (obj (fs ++ (name, j) :: gs)) (obj (fs ++ (name, k) :: gs))

  | form {p q : Place} {forms : List (String × Place)} {name : String} {j k : Json} :
      p.layout = .choice forms → (name, q) ∈ forms → Edit q j k →
      Edit p (Json.form name j) (Json.form name k)

  | item {p q : Place} {j k : Json} {js ks : List Json} : p.layout = .array q → Edit q j k →
      Edit p (arr (js ++ j :: ks)) (arr (js ++ k :: ks))

/-- Any number of changes, one after another. -/
def Rewording (p : Place) : Json → Json → Prop :=
  Relation.ReflTransGen (Edit p)

/-! ## What is read of a value -/

namespace Place

abbrev Value : Place → Type
  | text => String
  | scope => Scope
  | hops => UInt32
  | integer => Int64
  | truth => Bool
  | mention => Mention
  | entity => Entity
  | depth => Depth
  | predicate | delegation | verbPhrase => VerbPhrase
  | fact => Fact
  | call | constraint => Constraint
  | claim => Claim
  | assertion => Assertion
  | entities => List Entity
  | facts => List Fact
  | constraints => List Constraint

/-- What belongs to a form by several names is read together with the form. -/
abbrev read : (p : Place) → Json → Option p.Value
  | text => str?
  | scope => Scope.ofJson?
  | hops => fun j => j.int?.bind Text.toUInt32?
  | integer => fun j => j.int?.bind Text.toInt64?
  | truth => bool?
  | mention => Mention.ofJson?
  | entity => Entity.ofJson?
  | depth => Depth.ofJson?
  | predicate => fun j => VerbPhrase.ofJson? (Json.form "Predicate" j)
  | delegation => fun j => VerbPhrase.ofJson? (Json.form "CanSay" j)
  | verbPhrase => VerbPhrase.ofJson?
  | fact => Fact.ofJson?
  | call => fun j => Constraint.ofJson? (Json.form "Call" j)
  | constraint => Constraint.ofJson?
  | claim => Claim.ofJson?
  | assertion => Assertion.ofJson?
  | entities => readItems Entity.ofJson?
  | facts => readItems Fact.ofJson?
  | constraints => readItems Constraint.ofJson?

end Place

/-- Two parts, or their absence, that are read alike wherever they stand. -/
structure Alike (p : Place) (j? k? : Option Json) : Prop where
  required : j?.bind p.read = k?.bind p.read
  optional : ifPresent p.read j? = ifPresent p.read k?

variable {p q : Place} {required optional forms : List (String × Place)}
  {fs gs : List (String × Json)} {name : String} {j k : Json}

theorem Alike.refl (p : Place) (j? : Option Json) : Alike p j? j? :=
  ⟨rfl, rfl⟩

theorem Alike.of_read_eq (hj : j ≠ null) (hk : k ≠ null) (h : p.read j = p.read k) :
    Alike p (some j) (some k) where
  required := h
  optional := by rw [ifPresent_of_ne_null hj, ifPresent_of_ne_null hk, h]

theorem read_null (p : Place) : p.read null = none := by
  cases p with
  | predicate | delegation | verbPhrase =>
    change VerbPhrase.ofJson? _ = none
    rw [VerbPhrase.ofJson?]
    rfl
  | call | constraint =>
    change Constraint.ofJson? _ = none
    rw [Constraint.ofJson?]
    rfl
  | _ => rfl

theorem Alike.absent (p : Place) : Alike p none (some null) where
  required := (read_null p).symm
  optional := rfl

/-- A record is read by its fields. -/
theorem read_obj_congr (hp : p.layout = .record required optional)
    (h : ∀ e ∈ required ++ optional, Alike e.2 (fs.lookup e.1) (gs.lookup e.1)) :
    p.read (obj fs) = p.read (obj gs) := by
  cases p <;> cases hp <;> simp at h
  case mention =>
    obtain ⟨hname, hscope, htype⟩ := h
    simp [Mention.ofJson?_obj, hname.required, hscope.required, htype.optional]
  case predicate =>
    obtain ⟨hname, hargs⟩ := h
    simp [VerbPhrase.ofJson?_predicate, hname.required, hargs.required]
  case delegation =>
    obtain ⟨hdepth, hfact⟩ := h
    simp [VerbPhrase.ofJson?_canSay, hdepth.required, hfact.required]
  case fact =>
    obtain ⟨hsubject, hobject, hspeaker⟩ := h
    simp [Fact.ofJson?_obj, hsubject.required, hobject.required, hspeaker.optional]
  case call =>
    obtain ⟨hname, hargs⟩ := h
    simp [Constraint.ofJson?_call, hname.required, hargs.required]
  case claim =>
    obtain ⟨hconsequent, hantecedents, hconstraint⟩ := h
    simp [Claim.ofJson?_obj, hconsequent.required, hantecedents.required, hconstraint.required]
  case assertion =>
    obtain ⟨hspeaker, hclaim, hscope⟩ := h
    simp [Assertion.ofJson?_obj, hspeaker.required, hclaim.required, hscope.required]

theorem read_operator_congr (op : Operator)
    (h : Place.constraints.read j = Place.constraints.read k) :
    Place.constraint.read (Json.form op.formName j) =
      Place.constraint.read (Json.form op.formName k) := by
  simp only [Constraint.ofJson?_binary, h]

/-- A form is read by what belongs to it. -/
theorem read_form_congr (hp : p.layout = .choice forms) (hq : (name, q) ∈ forms)
    (h : q.read j = q.read k) : p.read (Json.form name j) = p.read (Json.form name k) := by
  cases p <;> cases hp <;> simp at hq
  case entity =>
    obtain ⟨rfl, rfl⟩ | ⟨rfl, rfl⟩ := hq
    · simp [Entity.ofJson?_constant, h]
    · simp [Entity.ofJson?_variable, h]
  case depth =>
    obtain ⟨rfl, rfl⟩ := hq
    simp only [Depth.ofJson?_bounded, h]
  case verbPhrase =>
    obtain ⟨rfl, rfl⟩ | ⟨rfl, rfl⟩ | ⟨rfl, rfl⟩ := hq
    -- A predicate and a delegation are read together with their forms.
    · exact h
    · simp [VerbPhrase.ofJson?_canActAs, h]
    · exact h
  case constraint =>
    rcases hq with ⟨rfl, rfl⟩ | ⟨rfl, rfl⟩ | ⟨rfl, rfl⟩ | ⟨rfl, rfl⟩ | ⟨rfl, rfl⟩ | ⟨rfl, rfl⟩ | hq
    · simp [Constraint.ofJson?_str, h]
    · simp only [Constraint.ofJson?_int, h]
    · simp [Constraint.ofJson?_bool, h]
    · simp [Constraint.ofJson?_entity, h]
    · exact h
    · simp [Constraint.ofJson?_not, h]
    · rcases hq with ⟨rfl, rfl⟩ | ⟨rfl, rfl⟩ | ⟨rfl, rfl⟩ | ⟨rfl, rfl⟩ | ⟨rfl, rfl⟩
      · exact read_operator_congr .and h
      · exact read_operator_congr .or h
      · exact read_operator_congr .eq h
      · exact read_operator_congr .less h
      · exact read_operator_congr .lessEq h

theorem read_arr_congr {js ks : List Json} (hp : p.layout = .array q)
    (h : js.mapM q.read = ks.mapM q.read) : p.read (arr js) = p.read (arr ks) := by
  cases p <;> cases hp <;> exact h

/-! ## What a change leaves as it was -/

theorem lookup_perm (h : fs.Perm gs) (hkeys : (fs.map Prod.fst).Nodup) (name : String) :
    fs.lookup name = gs.lookup name := by
  induction h with
  | nil => rfl
  | cons e _ ih =>
    rw [List.map_cons, List.nodup_cons] at hkeys
    rw [List.lookup_cons, List.lookup_cons, ih hkeys.2]
  | swap e f l =>
    obtain ⟨⟨m, j⟩, n, k⟩ := e, f
    have hne : n ≠ m := by
      rintro rfl
      simp at hkeys
    by_cases hm : name = m
    · rw [hm, lookup_cons_of_ne hne.symm, List.lookup_cons_self, List.lookup_cons_self]
    · simp only [List.lookup_cons, beq_false_of_ne hm]
  | trans h _ ih ih' => exact (ih hkeys).trans (ih' ((h.map Prod.fst).nodup_iff.mp hkeys))

theorem lookup_of_ne {m : String} (h : m ≠ name) :
    (fs ++ (name, j) :: gs).lookup m = (fs ++ gs).lookup m := by
  rw [List.lookup_append, List.lookup_append, lookup_cons_of_ne h]

theorem lookup_eq_none (h : name ∉ fs.map Prod.fst) : fs.lookup name = none := by
  rw [List.lookup_eq_none_iff]
  rintro e he
  simpa using fun hname => h (List.mem_map.mpr ⟨e, he, Eq.symm hname⟩)

theorem nodup_layout (hp : p.layout = .record required optional) :
    ((required ++ optional).map Prod.fst).Nodup := by
  cases p <;> cases hp <;> decide

theorem Edit.ne_null (h : Edit p j k) : j ≠ null ∧ k ≠ null := by
  cases h <;> exact ⟨nofun, nofun⟩

/-- Changing a field changes what is read of the record no more than what is read of the field. -/
theorem alike_field {e : String × Place} (hp : p.layout = .record required optional)
    (hq : (name, q) ∈ required ++ optional) (h : Edit q j k) (ih : q.read j = q.read k)
    (he : e ∈ required ++ optional) :
    Alike e.2 ((fs ++ (name, j) :: gs).lookup e.1) ((fs ++ (name, k) :: gs).lookup e.1) := by
  by_cases hname : e.1 = name
  · obtain rfl : e = (name, q) := List.inj_on_of_nodup_map (nodup_layout hp) he hq hname
    rw [List.lookup_append, List.lookup_append, List.lookup_cons_self, List.lookup_cons_self]
    -- If the name was used before, the changed field is not the one that is read.
    cases fs.lookup name with
    | none => exact .of_read_eq h.ne_null.1 h.ne_null.2 ih
    | some _ => exact .refl ..
  · rw [lookup_of_ne hname, lookup_of_ne hname]
    exact .refl ..

theorem alike_absent (q : Place) (h : name ∉ (fs ++ gs).map Prod.fst) :
    Alike q ((fs ++ gs).lookup name) ((fs ++ (name, null) :: gs).lookup name) := by
  have hfs : fs.lookup name = none := lookup_eq_none fun hmem => h (by simp_all)
  rw [lookup_eq_none h, List.lookup_append, hfs, Option.none_or, List.lookup_cons_self]
  exact .absent q

/-- A change is not noticed in reading. -/
theorem Edit.read_eq (h : Edit p j k) : p.read j = p.read k := by
  induction h with
  | reorder hp hkeys hperm =>
    refine read_obj_congr hp fun e _ => ?_
    rw [lookup_perm hperm hkeys]
    exact .refl ..
  | unknown hp hname =>
    refine read_obj_congr hp fun e he => ?_
    rw [lookup_of_ne fun h => hname (List.mem_map.mpr ⟨e, he, h⟩)]
    exact .refl ..
  | @absent p q required optional name fs gs hp hq hname =>
    refine read_obj_congr hp fun e he => ?_
    by_cases h : e.1 = name
    · rw [h]
      exact alike_absent e.2 hname
    · rw [lookup_of_ne h]
      exact .refl ..
  | field hp hq h ih => exact read_obj_congr hp fun e he => alike_field hp hq h ih he
  | form hp hq _ ih => exact read_form_congr hp hq ih
  | item hp _ ih =>
    refine read_arr_congr hp ?_
    simp [ih]

theorem Rewording.read_eq (h : Rewording p j k) : p.read j = p.read k := by
  induction h with
  | refl => rfl
  | tail _ h ih => exact ih.trans h.read_eq

/-- What is written of a term is read as that term, and so is whatever it is reworded to. -/
def Lossless {α : Type} (p : Place) (write : α → Json) (read : Json → Option α) : Prop :=
  ∀ t : α, read (write t) = some t ∧ ∀ j, Rewording p (write t) j → read j = some t

theorem lossless_of_read {write : p.Value → Json} (h : ∀ t, p.read (write t) = some t) :
    Lossless p write p.read :=
  fun t => ⟨h t, fun _ hj => hj.read_eq.symm.trans (h t)⟩

/-- Terms of every kind pass through JSON unharmed, with the types of their mentions and the
speakers of their facts. -/
theorem lossless_toJson :
    Lossless .entity Entity.toJson Entity.ofJson? ∧
    Lossless .verbPhrase VerbPhrase.toJson VerbPhrase.ofJson? ∧
    Lossless .fact Fact.toJson Fact.ofJson? ∧
    Lossless .claim Claim.toJson Claim.ofJson? ∧
    Lossless .assertion Assertion.toJson Assertion.ofJson? ∧
    Lossless .constraint Constraint.toJson Constraint.ofJson? := by
  refine ⟨?_, ?_, ?_, ?_, ?_, ?_⟩
  · exact lossless_of_read Entity.ofJson?_toJson
  · exact lossless_of_read VerbPhrase.ofJson?_toJson
  · exact lossless_of_read Fact.ofJson?_toJson
  · exact lossless_of_read Claim.ofJson?_toJson
  · exact lossless_of_read Assertion.ofJson?_toJson
  · exact lossless_of_read Constraint.ofJson?_toJson

/-- An unknown field is added to a variable, the type that is missing is written down as such, and
the fields change places. -/
theorem lossless_toJson_badge :
    Entity.ofJson? (Json.form "Variable" (obj [("scope", int 1), ("name", str "X"),
      ("badge", int 7), ("type_annotation", null)])) = some (.var ⟨⟨"X", ⟨1⟩⟩, none⟩) := by
  refine (lossless_toJson.1 (.var ⟨⟨"X", ⟨1⟩⟩, none⟩)).2 _ ?_
  have hunknown : Edit .mention (obj ([("name", str "X"), ("scope", int 1)] ++ []))
      (obj ([("name", str "X"), ("scope", int 1)] ++ [("badge", int 7)])) :=
    .unknown rfl (by decide)
  have habsent : Edit .mention
      (obj ([("name", str "X"), ("scope", int 1), ("badge", int 7)] ++ []))
      (obj ([("name", str "X"), ("scope", int 1), ("badge", int 7)] ++
        [("type_annotation", null)])) :=
    .absent rfl List.mem_cons_self (by decide)
  have hreorder : Edit .mention
      (obj [("name", str "X"), ("scope", int 1), ("badge", int 7), ("type_annotation", null)])
      (obj [("scope", int 1), ("name", str "X"), ("badge", int 7), ("type_annotation", null)]) :=
    .reorder rfl (by decide) (.swap ..)
  have hform {j k : Json} (h : Edit .mention j k) :
      Edit .entity (Json.form "Variable" j) (Json.form "Variable" k) :=
    .form rfl (List.mem_cons_of_mem _ List.mem_cons_self) h
  exact ((Relation.ReflTransGen.single (hform hunknown)).tail (hform habsent)).tail
    (hform hreorder)

end AuthLogic.Json
