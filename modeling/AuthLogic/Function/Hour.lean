import AuthLogic.Function.Evaluation

/-! # Hours of the day

The functions `beforeHour` and `afterHour`, which compare the hour of a clock
with their argument.
-/

namespace AuthLogic

structure Clock where
  hour : Fin 24
  deriving DecidableEq, Repr, Inhabited

/-- The clock that stands still at an hour, hours being counted round the day. -/
def Clock.atHour (hour : Nat) : Clock :=
  ⟨Fin.ofNat 24 hour⟩

/-- The hour of the day that a number stands for. -/
def Constraint.hourOfInt? (n : Int64) : Option (Fin 24) :=
  if h : 0 ≤ n.toInt ∧ n.toInt < 24 then some ⟨n.toInt.toNat, by omega⟩ else none

/-- The hour of the day that a value stands for. The numerals of texts may come in quotation
marks. -/
def Constraint.hour? : Constraint → Option (Fin 24)
  | int n => hourOfInt? n
  | c => do
    let s ← c.text?
    hourOfInt? (← Text.readInt64? (Text.trimBy (· = '"') (Text.trim s.toList)))

namespace Function

/-- A function of one hour. -/
def ofHourTest (name : String) (test : Fin 24 → Bool) : Function where
  name := name
  arity := 1
  apply args :=
    match args.head?.bind Constraint.hour? with
    | some h => .bool (test h)
    | none => .fail

/-- Holds while the clock shows less than an hour. -/
def beforeHour (clock : Clock) : Function :=
  ofHourTest "beforeHour" fun h => clock.hour < h

/-- Holds from an hour up to midnight. -/
def afterHour (clock : Clock) : Function :=
  ofHourTest "afterHour" fun h => h ≤ clock.hour

def builtins (clock : Clock) : List Function :=
  [beforeHour clock, afterHour clock]

end Function

/-- The registry of the built-in functions. -/
def Registry.withClock (clock : Clock) : Registry :=
  ⟨.ofLast (Function.builtins clock)⟩

end AuthLogic
