import AuthLogic.Proofs.Function.Strictness
import AuthLogic.Proofs.Lookup

/-! # Registration

A registry that is offered functions, one after the other, takes those whose name
is new and well formed. It finds all that it found before, so that constraints
with a value keep it: functions can be added to the language, but not changed.
-/

namespace AuthLogic.Registry

/-- The answers to functions that are offered in order, and the registry after all of them. -/
def offerAll : List Function → Registry → List (Except RegistryError Unit) × Registry
  | [], r => ([], r)
  | f :: fs, r =>
    let (answer, r) := r.offer f
    let (answers, r) := offerAll fs r
    (answer :: answers, r)

/-- Those of the offered functions that are taken, in order. -/
def taken (fs : List Function) (r : Registry) : List Function :=
  ((fs.zip (offerAll fs r).1).filter fun call => call.2.isOk).map Prod.fst

/-- A registry to start from, without functions or with the built-in ones. -/
def initial : Option Clock → Registry
  | none => .empty
  | some clock => .withClock clock

/-- The functions of the registry to start from. -/
def firstFunctions : Option Clock → List Function
  | none => []
  | some clock => Function.builtins clock

/-! ## Single functions -/

variable {r r' : Registry} {f : Function}

theorem lookup?_insert (r : Registry) (f : Function) (name : String) :
    lookup? ⟨r.functions.insert f⟩ name = if f.name = name then some f else r.lookup? name := by
  split
  case isTrue h =>
    rw [← h]
    exact Catalogue.find?_insert_self r.functions f
  case isFalse h =>
    exact Catalogue.find?_insert_of_ne r.functions fun he => h (Std.LawfulEqOrd.eq_of_compare he)

/-- A name that a function has already is refused. -/
theorem offer_of_isSome (hname : isFunctionName f.name = true)
    (h : (r.lookup? f.name).isSome) : r.offer f = (.error (.alreadyRegistered f.name), r) := by
  have hold : r.functions.contains f.name = true := h
  simp [offer, hname, hold]

theorem offer_of_eq_none (hname : isFunctionName f.name = true) (h : r.lookup? f.name = none) :
    r.offer f = (.ok (), ⟨r.functions.insert f⟩) := by
  have hnew : r.functions.contains f.name = false := congrArg Option.isSome h
  simp [offer, hname, hnew]

/-- A function is refused, or it has a new and well-formed name and is added. -/
theorem offer_cases (r : Registry) (f : Function) :
    (∃ e, r.offer f = (.error e, r)) ∨
      isFunctionName f.name = true ∧ r.lookup? f.name = none ∧
        r.offer f = (.ok (), ⟨r.functions.insert f⟩) := by
  cases hname : isFunctionName f.name with
  | false => exact .inl ⟨.invalidName f.name, by simp [offer, hname]⟩
  | true =>
    cases hf : r.lookup? f.name with
    | some g => exact .inl ⟨_, offer_of_isSome hname (by rw [hf]; rfl)⟩
    | none => exact .inr ⟨rfl, rfl, offer_of_eq_none hname hf⟩

/-! ## Runs -/

theorem offerAll_cons (f : Function) (fs : List Function) (r : Registry) :
    offerAll (f :: fs) r =
      ((r.offer f).1 :: (offerAll fs (r.offer f).2).1, (offerAll fs (r.offer f).2).2) := rfl

theorem taken_cons_of_error {e : RegistryError} (h : r.offer f = (.error e, r))
    (fs : List Function) : taken (f :: fs) r = taken fs r := by
  rw [taken, offerAll_cons, h]
  rfl

theorem taken_cons_of_ok (h : r.offer f = (.ok (), r')) (fs : List Function) :
    taken (f :: fs) r = f :: taken fs r' := by
  rw [taken, offerAll_cons, h]
  rfl

/-- What was found before is found again, and else the first function of the name that is taken. -/
theorem lookup?_offerAll (fs : List Function) (r : Registry) (name : String) :
    (offerAll fs r).2.lookup? name =
      (r.lookup? name).or ((taken fs r).find? fun f => f.name = name) := by
  induction fs generalizing r with
  | nil => exact (Option.or_none).symm
  | cons f fs ih =>
    rw [offerAll_cons, ih]
    rcases r.offer_cases f with ⟨e, h⟩ | ⟨-, hnew, h⟩
    · rw [taken_cons_of_error h, h]
    · rw [taken_cons_of_ok h, h, lookup?_insert]
      split
      case isTrue hname =>
        rw [← hname, hnew, List.find?_cons_of_pos (by simp), Option.some_or, Option.none_or]
      case isFalse hname => rw [List.find?_cons_of_neg (by simpa using hname)]

/-- Functions of different names are found, whatever the order in which they are put in. -/
theorem lookup?_foldl_insert {fs : List Function} (h : (fs.map Function.name).Nodup)
    (r : Registry) (name : String) :
    lookup? ⟨fs.foldl Catalogue.insert r.functions⟩ name =
      (fs.find? fun f => f.name = name).or (r.lookup? name) := by
  induction fs generalizing r with
  | nil => rfl
  | cons f fs ih =>
    obtain ⟨hf, hfs⟩ := List.nodup_cons.mp h
    rw [List.foldl_cons, ih hfs ⟨r.functions.insert f⟩, lookup?_insert]
    split
    case isTrue hname =>
      have hnone : fs.find? (fun g => g.name = name) = none := by
        refine List.find?_eq_none.mpr fun g hg hg' => hf ?_
        rw [hname, ← of_decide_eq_true hg']
        exact List.mem_map_of_mem hg
      rw [hnone, List.find?_cons_of_pos (by simpa using hname), Option.none_or, Option.some_or]
    case isFalse hname => rw [List.find?_cons_of_neg (by simpa using hname)]

theorem lookup?_initial (clock? : Option Clock) (name : String) :
    (initial clock?).lookup? name = (firstFunctions clock?).find? fun f => f.name = name := by
  cases clock? with
  | none => rfl
  | some clock =>
    have hnames : ((Function.builtins clock).map Function.name).Nodup := by
      change ["beforeHour", "afterHour"].Nodup
      decide
    exact (lookup?_foldl_insert hnames .empty name).trans Option.or_none

/-! ## Extensions -/

/-- All functions of a registry are found in another one, too. -/
def Extends (r r' : Registry) : Prop :=
  ∀ name f, r.lookup? name = some f → r'.lookup? name = some f

theorem extends_offer (r : Registry) (f : Function) : r.Extends (r.offer f).2 := by
  intro name g hg
  rcases r.offer_cases f with ⟨e, h⟩ | ⟨-, hnew, h⟩
  · rwa [h]
  · rw [h, lookup?_insert, if_neg, hg]
    rintro rfl
    rw [hnew] at hg
    cases hg

theorem Extends.invoke_eq (h : r.Extends r') {name : String} {args : List Constraint}
    (hvalue : (r.invoke name args).value ≠ .fail) : r'.invoke name args = r.invoke name args := by
  unfold invoke at hvalue ⊢
  split at hvalue
  case isTrue => exact absurd rfl hvalue
  case isFalse hargs =>
    rw [if_neg hargs, if_neg hargs]
    cases hf : r.lookup? name with
    | none =>
      rw [hf] at hvalue
      exact absurd rfl hvalue
    | some f => rw [h name f hf]

/-- No part of a constraint that has a value fails, so that all the functions in it are found. -/
theorem Extends.run_eq (h : r.Extends r') {c : Constraint} (hc : r.eval c ≠ .fail) :
    r'.run c = r.run c := by
  have hoperand {c d : Constraint} (hc : r.eval c ≠ .fail) (hd : d ∈ c.operands) :
      r.eval d ≠ .fail := fun hfail => hc (eval_eq_fail_of_operand hd hfail)
  induction c with
  | call name args ih =>
    have hargs : args.map r'.run = args.map r.run :=
      List.map_congr_left fun arg harg => ih arg harg (hoperand hc harg)
    have hvalues : (args.map r.run).map Outcome.value = args.map r.eval := List.map_map
    rw [eval_call, ← hvalues] at hc
    rw [run, run, runList_eq_map, runList_eq_map, hargs, h.invoke_eq hc]
  | not c ih => rw [run, run, ih (hoperand hc List.mem_cons_self)]
  | binary op a b iha ihb =>
    rw [run, run, iha (hoperand hc List.mem_cons_self),
      ihb (hoperand hc (List.mem_cons_of_mem a List.mem_cons_self))]
  | entity e => cases e <;> rfl
  | _ => rfl

/-- A registry finds the functions that it had at first, and else the first one of the name that
was taken. To refuse a function changes no evaluation, and to take one only those that fail: all
others have the same value, through the same calls. -/
theorem offerAll_extends :
    (∀ (clock? : Option Clock) (fs : List Function) (name : String),
      let found := (offerAll fs (initial clock?)).2.lookup? name
      (found.isSome ↔ (∃ f ∈ firstFunctions clock?, f.name = name) ∨
        ∃ f ∈ taken fs (initial clock?), f.name = name) ∧
      found = (firstFunctions clock? ++ taken fs (initial clock?)).find? fun f => f.name = name) ∧
    (∀ (r : Registry) (f : Function) (e : RegistryError), (r.offer f).1 = .error e →
      ∀ c : Constraint, (r.offer f).2.run c = r.run c) ∧
    ∀ (r : Registry) (f : Function), (r.offer f).1 = .ok () →
      ∀ c : Constraint, r.eval c ≠ .fail → (r.offer f).2.run c = r.run c := by
  refine ⟨fun clock? fs name => ?_, fun r f e he c => ?_, fun r f _ c hc => ?_⟩
  · have hfound : (offerAll fs (initial clock?)).2.lookup? name =
        (firstFunctions clock? ++ taken fs (initial clock?)).find? fun f => f.name = name := by
      rw [lookup?_offerAll, lookup?_initial, List.find?_append]
    refine ⟨?_, hfound⟩
    simp [hfound]
  · rcases r.offer_cases f with ⟨e', h⟩ | ⟨-, -, h⟩
    · rw [h]
    · rw [h] at he
      cases he
  · exact (extends_offer r f).run_eq hc

/-- A function of a new name, and one with the name of a built-in function. -/
theorem offerAll_extends_noon :
    let noon := Function.ofHourTest "noon" fun h => h = 12
    let midnight := Function.afterHour (.atHour 0)
    let r := initial (some (.atHour 9))
    let c : Constraint := .not (.call "beforeHour" [.str "17"])
    ((offerAll [midnight, noon, midnight] r).2.lookup? "noon").isSome ∧
      (r.offer midnight).1 = .error (.alreadyRegistered "afterHour") ∧
      (r.offer midnight).2.run c = r.run c ∧
      (r.offer noon).1 = .ok () ∧ r.eval c ≠ .fail ∧ (r.offer noon).2.run c = r.run c := by
  intro noon midnight r c
  have hrefused : r.offer midnight = (.error (.alreadyRegistered "afterHour"), r) :=
    offer_of_isSome (by decide +kernel) (by decide +kernel)
  have htaken : r.offer noon = (.ok (), ⟨r.functions.insert noon⟩) :=
    offer_of_eq_none (by decide +kernel) (Option.isNone_iff_eq_none.mp (by decide +kernel))
  have hnoon : noon ∈ taken [midnight, noon, midnight] r := by
    rw [taken_cons_of_error hrefused, taken_cons_of_ok htaken]
    exact List.mem_cons_self
  have hvalue : r.eval c ≠ .fail := by decide +kernel
  obtain ⟨hlookup, herror, hok⟩ := offerAll_extends
  exact ⟨(hlookup _ _ "noon").1.mpr (.inr ⟨noon, hnoon, rfl⟩), congrArg Prod.fst hrefused,
    herror r midnight _ (congrArg Prod.fst hrefused) c, congrArg Prod.fst htaken, hvalue,
    hok r noon (congrArg Prod.fst htaken) c hvalue⟩

end AuthLogic.Registry
