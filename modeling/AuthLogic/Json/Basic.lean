/-! # JSON values

The values that terms are exchanged as, and how their parts are reached. A
record is an object with a field for each part, or an array of its parts in
order. A choice between forms is an object with one key, which names the form,
or just the name if nothing belongs to the form. The parts that belong to a
form have names, or an order, but not both.
-/

namespace AuthLogic

inductive Json
  | null
  | bool (b : Bool)
  | int (n : Int)

  /-- A number written with a fraction or an exponent: `mantissa` divided by ten `places` times. -/
  | decimal (mantissa : Int) (places : Nat)
  | str (s : String)
  | arr (items : List Json)
  | obj (fields : List (String × Json))
  deriving Repr, Inhabited

namespace Json

mutual

/-- The number of values in a value, itself included. -/
def size : Json → Nat
  | arr items => sizeItems items + 1
  | obj fields => sizeFields fields + 1
  | _ => 1

def sizeItems : List Json → Nat
  | [] => 0
  | j :: js => j.size + sizeItems js

def sizeFields : List (String × Json) → Nat
  | [] => 0
  | (_, j) :: fields => j.size + sizeFields fields

end

theorem size_le_sizeItems {j : Json} {items : List Json} (h : j ∈ items) :
    j.size ≤ sizeItems items := by
  induction h with
  | head => exact Nat.le_add_right ..
  | tail _ _ ih => exact Nat.le_add_left_of_le ih

theorem size_le_sizeFields {k : String} {j : Json} {fields : List (String × Json)}
    (h : (k, j) ∈ fields) : j.size ≤ sizeFields fields := by
  induction fields with
  | nil => cases h
  | cons f fields ih =>
    cases h with
    | head => exact Nat.le_add_right ..
    | tail _ h => exact Nat.le_add_left_of_le (ih h)

/-- A value inside another one. -/
abbrev Part (j : Json) := { p : Json // p.size < j.size }

/-- The items of an array. -/
def items? : (j : Json) → Option (List (Part j))
  | arr items => some (items.attach.map fun p =>
      ⟨p.1, Nat.lt_succ_of_le (size_le_sizeItems p.2)⟩)
  | _ => none

/-- The two items of an array of two. -/
def pair? (j : Json) : Option (Part j × Part j) :=
  match j.items? with
  | some [a, b] => some (a, b)
  | _ => none

/-- The value of a field, of the first one if the field is repeated. -/
def lookup? (name : String) : (fields : List (String × Json)) → Option (Part (obj fields))
  | [] => none
  | (k, p) :: rest =>
    if k = name then some ⟨p, Nat.lt_succ_of_le (size_le_sizeFields List.mem_cons_self)⟩
    else (lookup? name rest).map fun q => ⟨q.1, Nat.lt_of_lt_of_le q.2
      (Nat.succ_le_succ (Nat.le_add_left ..))⟩

/-- The parts of an object by the names of its fields; a part that is not given is `none`. Fields
with other names are passed over. -/
def fields? (names : List String) : (j : Json) → Option (List (Option (Part j)))
  | obj fields => some (names.map fun name => lookup? name fields)
  | _ => none

/-- The parts of a record by the names of its fields. An array has no more items than the record
has fields. -/
def record? (names : List String) : (j : Json) → Option (List (Option (Part j)))
  | arr items => do
    let parts ← items? (arr items)
    if parts.length ≤ names.length then
      some (parts.map some ++ List.replicate (names.length - parts.length) none)
    else none
  | j => j.fields? names

/-- The form that is chosen, and what belongs to it. -/
def form? : (j : Json) → Option (String × Option (Part j))
  | str s => some (s, none)
  | obj [(k, p)] =>
    some (k, some ⟨p, Nat.lt_succ_of_le (size_le_sizeFields List.mem_cons_self)⟩)
  | _ => none

/-- Whether nothing belongs to a form: `null` is nothing. -/
def isNothing {j : Json} : Option (Part j) → Bool
  | none => true
  | some ⟨null, _⟩ => true
  | _ => false

def str? : Json → Option String
  | str s => some s
  | _ => none

def bool? : Json → Option Bool
  | bool b => some b
  | _ => none

def int? : Json → Option Int
  | int n => some n
  | _ => none

/-- An optional part: absent and `null` mean the same. -/
def optional? {α : Type} {j : Json} (read : Part j → Option α) :
    Option (Part j) → Option (Option α)
  | none => some none
  | some ⟨null, _⟩ => some none
  | some p => (read p).map some

/-- The object for a form with something that belongs to it. -/
def form (name : String) (p : Json) : Json :=
  obj [(name, p)]

end Json

end AuthLogic
