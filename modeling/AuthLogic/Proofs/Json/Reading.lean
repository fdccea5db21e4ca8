import AuthLogic.Json.Decode

/-! # Reading terms by their parts

A term is read from the parts of its form or record, each found by its name.
Main statements: for every form and every record, what is read of the whole in
terms of what is read of the parts; and what is written of a term is read back
as that term.
-/

namespace AuthLogic

namespace Json

variable {α β : Type}

/-- A part that may be absent. That it is `null` means the same. -/
def ifPresent (read : Json → Option α) : Option Json → Option (Option α)
  | none | some null => some none
  | some j => (read j).map some

/-- All items of an array. -/
def readItems (read : Json → Option α) : Json → Option (List α)
  | arr items => items.mapM read
  | _ => none

/-- The two items of a list of two, combined. -/
def combine? (f : α → α → β) : List α → Option β
  | [l, r] => some (f l r)
  | _ => none

theorem ifPresent_of_ne_null {j : Json} (h : j ≠ null) (read : Json → Option α) :
    ifPresent read (some j) = (read j).map some := by
  cases j <;> trivial

theorem lookup_cons_of_ne {k name : String} {j : Json} {fields : List (String × Json)}
    (h : name ≠ k) : List.lookup name ((k, j) :: fields) = fields.lookup name := by
  simp only [List.lookup_cons, beq_false_of_ne h]

theorem map_val_lookup? (name : String) (fields : List (String × Json)) :
    (lookup? name fields).map Subtype.val = fields.lookup name := by
  induction fields with
  | nil => rfl
  | cons field fields ih =>
    obtain ⟨k, j⟩ := field
    unfold lookup?
    split
    case isTrue h => rw [h, Option.map_some, List.lookup_cons_self]
    case isFalse h =>
      rw [lookup_cons_of_ne (Ne.symm h), ← ih, Option.map_map]
      rfl

theorem optional?_eq {j : Json} (read : Json → Option α) (p? : Option (Part j)) :
    optional? (fun p => read p.1) p? = ifPresent read (p?.map Subtype.val) := by
  match p? with
  | none => rfl
  | some ⟨p, _⟩ => cases p <;> rfl

theorem items?_bind_mapM (read : Json → Option α) (j : Json) :
    (j.items?.bind fun ps => ps.mapM fun p => read p.1) = readItems read j := by
  cases j with
  | arr items =>
    rw [items?, Option.bind_some, List.mapM_map, readItems]
    change items.attach.mapM (read ∘ Subtype.val) = _
    rw [← List.mapM_map, List.attach_map_subtype_val]
  | _ => rfl

/-- The items of an array of two. -/
theorem pair?_bind (read : Json → Option α) (f : α → α → β) (j : Json) :
    (j.pair?.bind fun ps => (read ps.1.1).bind fun l => (read ps.2.1).bind fun r => some (f l r)) =
      (readItems read j).bind (combine? f) := by
  rw [← items?_bind_mapM, pair?]
  match j.items? with
  | none => rfl
  | some [] => rfl
  | some [p] => cases h : read p.1 <;> simp [h, combine?]
  | some [p, q] => cases hp : read p.1 <;> cases hq : read q.1 <;> simp [hp, hq, combine?]
  | some (_ :: _ :: _ :: _) => simp [Option.bind_assoc, combine?]

end Json

open Json

/-! ## Forms and records -/

theorem Mention.ofJson?_obj (fields : List (String × Json)) :
    Mention.ofJson? (.obj fields) = do
      let name ← (fields.lookup "name").bind Json.str?
      let scope ← (fields.lookup "scope").bind Scope.ofJson?
      let type? ← ifPresent Json.str? (fields.lookup "type_annotation")
      return ⟨⟨name, scope⟩, type?⟩ := by
  simp only [Mention.ofJson?, record?, fields?, List.map_cons, List.map_nil, ← map_val_lookup?,
    optional?_eq]
  cases lookup? "name" fields <;> cases lookup? "scope" fields <;> simp

namespace Entity

theorem ofJson?_constant (j : Json) :
    ofJson? (form "Constant" j) = do return .const ⟨← j.str?⟩ := by
  simp [ofJson?, form, form?]

theorem ofJson?_variable (j : Json) :
    ofJson? (form "Variable" j) = do return .var (← Mention.ofJson? j) := by
  simp [ofJson?, form, form?]

theorem listOfJson?_eq : listOfJson? = readItems ofJson? :=
  funext (items?_bind_mapM ofJson?)

end Entity

theorem Depth.ofJson?_bounded (j : Json) :
    ofJson? (form "Bounded" j) = do return .bounded (← j.int?.bind Text.toUInt32?) := by
  simp [ofJson?, form, form?, Option.bind_assoc]

theorem Fact.ofJson?_obj (fields : List (String × Json)) :
    Fact.ofJson? (.obj fields) = do
      let subject ← (fields.lookup "subject").bind Entity.ofJson?
      let object ← (fields.lookup "object").bind VerbPhrase.ofJson?
      let speaker? ← ifPresent Entity.ofJson? (fields.lookup "implicit_speaker")
      return ⟨subject, object, speaker?⟩ := by
  simp only [Fact.ofJson?, fieldNames, record?, fields?, List.map_cons, List.map_nil,
    ← map_val_lookup?, optional?_eq]
  cases lookup? "subject" fields <;> cases lookup? "object" fields <;> simp

namespace VerbPhrase

theorem ofJson?_predicate (fields : List (String × Json)) :
    ofJson? (form "Predicate" (.obj fields)) = do
      let name ← (fields.lookup "name").bind Json.str?
      let args ← (fields.lookup "args").bind (readItems Entity.ofJson?)
      return .predicate name args := by
  rw [ofJson?]
  simp only [form, form?, fields?, List.map_cons, List.map_nil, Option.bind_eq_bind,
    Option.bind_some, ← map_val_lookup?, Entity.listOfJson?_eq]
  cases lookup? "name" fields <;> cases lookup? "args" fields <;> simp

theorem ofJson?_canActAs (j : Json) :
    ofJson? (form "CanActAs" j) = do return .canActAs ⟨← j.str?⟩ := by
  rw [ofJson?]
  simp [form, form?]

/-- The delegated fact is read as any other fact. -/
theorem ofJson?_canSay (fields : List (String × Json)) :
    ofJson? (form "CanSay" (.obj fields)) = do
      let depth ← (fields.lookup "depth").bind Depth.ofJson?
      let fact ← (fields.lookup "fact").bind Fact.ofJson?
      return .delegate depth fact := by
  rw [ofJson?]
  simp only [form, form?, fields?, List.map_cons, List.map_nil, Option.bind_eq_bind,
    Option.bind_some, ← map_val_lookup?]
  cases lookup? "depth" fields with
  | none => cases lookup? "fact" fields <;> rfl
  | some depth =>
    cases lookup? "fact" fields with
    | none => simp
    | some fact =>
      simp only [Option.map_some, Option.bind_some, Fact.ofJson?]
      cases Depth.ofJson? depth.val <;> cases record? Fact.fieldNames fact.val <;> simp
      all_goals split <;> simp [Option.bind_assoc, delegate]

end VerbPhrase

namespace Constraint

theorem ofJson?_str (j : Json) : ofJson? (form "Str" j) = do return .str (← j.str?) := by
  rw [ofJson?]
  simp [form, form?]

theorem ofJson?_int (j : Json) :
    ofJson? (form "Int" j) = do return .int (← j.int?.bind Text.toInt64?) := by
  rw [ofJson?]
  simp [form, form?, Option.bind_assoc]

theorem ofJson?_bool (j : Json) : ofJson? (form "Bool" j) = do return .bool (← j.bool?) := by
  rw [ofJson?]
  simp [form, form?]

theorem ofJson?_fail : ofJson? (.str "Fail") = some .fail := by
  rw [ofJson?]
  simp [form?, isNothing]

theorem ofJson?_entity (j : Json) :
    ofJson? (form "Entity" j) = do return .entity (← Entity.ofJson? j) := by
  rw [ofJson?]
  simp [form, form?]

theorem ofJson?_call (fields : List (String × Json)) :
    ofJson? (form "Call" (.obj fields)) = do
      let name ← (fields.lookup "name").bind Json.str?
      let args ← (fields.lookup "args").bind (readItems ofJson?)
      return .call name args := by
  rw [ofJson?]
  simp only [form, form?, fields?, List.map_cons, List.map_nil, Option.bind_eq_bind,
    Option.bind_some, ← map_val_lookup?]
  cases lookup? "name" fields with
  | none => cases lookup? "args" fields <;> rfl
  | some name =>
    cases lookup? "args" fields with
    | none => simp
    | some args =>
      simp only [Option.map_some, Option.bind_some, ← items?_bind_mapM]
      cases args.1.items? <;> cases name.1.str? <;> simp

theorem ofJson?_not (j : Json) : ofJson? (form "Not" j) = do return .not (← ofJson? j) := by
  rw [ofJson?]
  simp [form, form?]

theorem ofJson?_binary (op : Operator) (j : Json) :
    ofJson? (form op.formName j) =
      (readItems ofJson? j).bind (combine? (binary op)) := by
  have h := pair?_bind ofJson? (binary op) j
  rw [ofJson?]
  cases op <;> simpa [form, form?, Operator.formName, Operator.ofFormName?] using h

end Constraint

theorem Claim.ofJson?_obj (fields : List (String × Json)) :
    Claim.ofJson? (.obj fields) = do
      let consequent ← (fields.lookup "consequent").bind Fact.ofJson?
      let antecedents ← (fields.lookup "antecedents").bind (readItems Fact.ofJson?)
      let constraint ← (fields.lookup "constraint").bind Constraint.ofJson?
      return ⟨consequent, antecedents, constraint⟩ := by
  simp only [Claim.ofJson?, record?, fields?, List.map_cons, List.map_nil, ← map_val_lookup?]
  cases lookup? "consequent" fields <;> cases lookup? "antecedents" fields <;>
    cases lookup? "constraint" fields <;> simp [← items?_bind_mapM, Option.bind_assoc]

theorem Assertion.ofJson?_obj (fields : List (String × Json)) :
    Assertion.ofJson? (.obj fields) = do
      let speaker ← (fields.lookup "speaker").bind Entity.ofJson?
      let claim ← (fields.lookup "says").bind Claim.ofJson?
      let scope ← (fields.lookup "scope").bind Scope.ofJson?
      return ⟨speaker, claim, scope⟩ := by
  simp only [Assertion.ofJson?, record?, fields?, List.map_cons, List.map_nil, ← map_val_lookup?]
  cases lookup? "speaker" fields <;> cases lookup? "says" fields <;>
    cases lookup? "scope" fields <;> simp

/-! ## What is written of a term -/

theorem mapM_map_eq_some {α β : Type} {f : β → Option α} {g : α → β} {l : List α}
    (h : ∀ a ∈ l, f (g a) = some a) : (l.map g).mapM f = some l := by
  induction l with
  | nil => rfl
  | cons a l ih => simp_all

@[simp] theorem Scope.ofJson?_toNat (s : Scope) : ofJson? (.int s.id.toNat) = some s := by
  simp [ofJson?, int?, Text.toUInt64?_toNat]

@[simp] theorem Mention.ofJson?_toJson (m : Mention) : Mention.ofJson? m.toJson = some m := by
  obtain ⟨⟨name, scope⟩, type?⟩ := m
  cases type? <;>
    simp [toJson, ofJson?_obj, List.lookup_cons, ifPresent, str?]

@[simp] theorem Entity.ofJson?_toJson (e : Entity) : Entity.ofJson? e.toJson = some e := by
  cases e with
  | const c => simp [toJson, ofJson?_constant, str?]
  | var m => simp [toJson, ofJson?_variable]

@[simp] theorem Depth.ofJson?_toJson (d : Depth) : Depth.ofJson? d.toJson = some d := by
  cases d with
  | bounded n => simp [toJson, ofJson?_bounded, int?, Text.toUInt32?_toNat]
  | unbounded => rfl

theorem Entity.toJson_ne_null (e : Entity) : e.toJson ≠ .null := by
  cases e <;> nofun

/-- A fact is read back as soon as its object is. -/
theorem Fact.ofJson?_jsonOfParts {v : VerbPhrase} (h : VerbPhrase.ofJson? v.toJson = some v)
    (subject : Entity) (speaker? : Option Entity) :
    Fact.ofJson? (jsonOfParts subject v.toJson speaker?) = some ⟨subject, v, speaker?⟩ := by
  cases speaker? with
  | none => simp [jsonOfParts, ofJson?_obj, List.lookup_cons, h, ifPresent]
  | some speaker =>
    simp [jsonOfParts, ofJson?_obj, List.lookup_cons, h,
      ifPresent_of_ne_null speaker.toJson_ne_null]

@[simp] theorem VerbPhrase.ofJson?_toJson (v : VerbPhrase) :
    VerbPhrase.ofJson? v.toJson = some v := by
  induction v with
  | predicate name args =>
    simp [toJson, ofJson?_predicate, List.lookup_cons, str?, readItems,
      mapM_map_eq_some fun e _ => Entity.ofJson?_toJson e]
  | canActAs role => simp [toJson, ofJson?_canActAs, str?]
  | canSay depth subject object speaker? ih =>
    simp [toJson, ofJson?_canSay, List.lookup_cons, Fact.ofJson?_jsonOfParts ih, delegate]

@[simp] theorem Fact.ofJson?_toJson (f : Fact) : Fact.ofJson? f.toJson = some f :=
  ofJson?_jsonOfParts f.object.ofJson?_toJson f.subject f.speaker?

@[simp] theorem Constraint.ofJson?_toJson (c : Constraint) :
    Constraint.ofJson? c.toJson = some c := by
  induction c with
  | str s => simp [toJson, ofJson?_str, str?]
  | int n => simp [toJson, ofJson?_int, Json.int?, Text.toInt64?_toInt]
  | bool b => simp [toJson, ofJson?_bool, bool?]
  | fail => exact ofJson?_fail
  | entity e => simp [toJson, ofJson?_entity]
  | call name args ih =>
    simp [toJson, ofJson?_call, List.lookup_cons, str?, readItems, mapM_map_eq_some ih]
  | not c ih => simp [toJson, ofJson?_not, ih]
  | binary op l r hl hr => simp [toJson, ofJson?_binary, readItems, hl, hr, combine?]

@[simp] theorem Claim.ofJson?_toJson (c : Claim) : Claim.ofJson? c.toJson = some c := by
  simp [toJson, ofJson?_obj, List.lookup_cons, readItems,
    mapM_map_eq_some fun f _ => Fact.ofJson?_toJson f]

theorem Assertion.ofJson?_toJson (a : Assertion) : Assertion.ofJson? a.toJson = some a := by
  simp [toJson, ofJson?_obj, List.lookup_cons]

end AuthLogic
