/-! # TOML tables

The tables of a TOML document and the rules by which headers and dotted keys add
to them: no key is given twice, a table is opened by one header only, and dotted
keys add values only to tables that dotted keys have made.
-/

namespace AuthLogic

/-- How a table came to be, which decides what may be added to it. -/
inductive Toml.Origin

  /-- Opened by a header of its own. -/
  | header

  /-- Passed through by the header of another table. -/
  | passed

  /-- Made by a dotted key. -/
  | dotted

  /-- Written as a value. -/
  | inline
  deriving DecidableEq, Repr, Inhabited

/-- The values of TOML. Of numbers with a fraction and of dates only the kind is kept. -/
inductive Toml
  | str (text : String)
  | int (n : Int64)
  | bool (b : Bool)
  | float
  | dateTime
  | array (items : List Toml)
  | table (origin : Toml.Origin) (entries : List (String × Toml))

  /-- The tables opened by headers in double brackets. -/
  | tables (items : List (List (String × Toml)))
  deriving Repr, Inhabited

namespace Toml

abbrev Entries := List (String × Toml)

namespace Entries

def get? (es : Entries) (key : String) : Option Toml :=
  es.lookup key

def set (es : Entries) (key : String) (t : Toml) : Entries :=
  if (es.get? key).isSome then es.map fun e => if e.1 = key then (key, t) else e
  else es ++ [(key, t)]

/-- Change the last of several tables. -/
def changeLast (change : Entries → Option Entries) (items : List Entries) :
    Option (List Entries) := do
  return items.dropLast ++ [← change (← items.getLast?)]

/-- Add a value under a key that may be dotted. Of tables opened by headers in double brackets the
key leads into the last, but adds nothing to it directly. -/
def insert (es : Entries) : (path : List String) → (key : String) → Toml → Option Entries
  | [], key, t => if (es.get? key).isSome then none else some (es.set key t)
  | p :: path, key, t =>
    match es.get? p with
    | none => do return es.set p (.table .dotted (← insert [] path key t))
    | some (.table .dotted fs) => do return es.set p (.table .dotted (← insert fs path key t))
    | some (.table .passed fs) =>
      if path = [] then none
      else do return es.set p (.table .passed (← insert fs path key t))
    | some (.tables items) =>
      if path = [] then none
      else do return es.set p (.tables (← changeLast (fun fs => insert fs path key t) items))
    | _ => none

/-- Change what stands at the end of a path of headers. Of tables opened by headers in double
brackets the path leads into the last. -/
def update (change : Option Toml → Option Toml) (es : Entries) :
    (path : List String) → Option Entries
  | [] => none
  | [key] => do return es.set key (← change (es.get? key))
  | p :: path =>
    match es.get? p with
    | none => do return es.set p (.table .passed (← update change [] path))
    | some (.table .inline _) => none
    | some (.table origin fs) => do return es.set p (.table origin (← update change fs path))
    | some (.tables items) => do
      return es.set p (.tables (← changeLast (fun fs => update change fs path) items))
    | _ => none

/-- Open a table with a header. -/
def openTable : Entries → (path : List String) → Option Entries :=
  update fun
    | none => some (.table .header [])
    | some (.table .passed fs) => some (.table .header fs)
    | _ => none

/-- Open one more table with a header in double brackets. -/
def appendTable : Entries → (path : List String) → Option Entries :=
  update fun
    | none => some (.tables [[]])
    | some (.tables items) => some (.tables (items ++ [[]]))
    | _ => none

/-- Add a value to a table, or to the last of several. -/
def insertInto (path : List String) (key : String) (t : Toml) : Option Toml → Option Toml
  | some (.table origin fs) => do return .table origin (← insert fs path key t)
  | some (.tables items) => do
    return .tables (← changeLast (fun fs => insert fs path key t) items)
  | _ => none

/-- Add a value to the table that the last header opened; there is none on top of a document. -/
def insertUnder (es : Entries) (header path : List String) (key : String) (t : Toml) :
    Option Entries :=
  if header = [] then es.insert path key t else update (insertInto path key t) es header

end Entries

end Toml

end AuthLogic
