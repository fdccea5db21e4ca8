import AuthLogic.Config.Basic

/-! # Overriding settings

Environment variables are applied one after the other. Those that set no key are
passed over, and of several that set one key the last one counts, so that only the
order among variables of one key matters. Every value has to be readable, also one
that is overridden later, but the bounds are put on the final value alone.
-/

namespace AuthLogic.Config

variable {c : Config} {key name text : String} {vars vars' : List (String × String)}

/-! ## Variables -/

/-- A variable is named for a key: the prefix, and behind it the key with letters in either case.
Lowering ASCII letters is enough. The one other character with a small form in ASCII is the Kelvin
sign, and no key contains a `k`. -/
def Names (name key : String) : Prop :=
  key ∈ keys ∧ ∃ rest, name = environmentPrefix ++ rest ∧ rest.toLower = key

theorem variableKey?_eq_some_iff : variableKey? name = some key ↔ Names name key := by
  have hlower (rest : List Char) :
      String.ofList (rest.map Char.toLower) = (String.ofList rest).toLower := by
    apply String.toList_injective
    change _ = ((String.ofList rest).map Char.toLower).toList
    simp
  unfold variableKey? Names
  split
  case isTrue h =>
    obtain ⟨rest, hrest⟩ := List.isPrefixOf_iff_prefix.mp h
    have hdrop : name.toList.drop environmentPrefix.length = rest := by
      rw [← hrest, ← String.length_toList, List.drop_left]
    have hname : ∀ text, name = environmentPrefix ++ text ↔ text = String.ofList rest := by
      intro text
      rw [← String.toList_inj, String.toList_append, ← hrest, List.append_cancel_left_eq,
        ← String.toList_inj, String.toList_ofList, eq_comm]
    simp only [hdrop, hlower, hname, exists_eq_left, List.contains_iff_mem]
    split
    case isTrue hmem =>
      constructor
      · rintro ⟨⟩
        exact ⟨hmem, rfl⟩
      · rintro ⟨-, rfl⟩
        rfl
    case isFalse hmem =>
      constructor
      · rintro ⟨⟩
      · rintro ⟨hkey, rfl⟩
        exact absurd hkey hmem
  case isFalse h =>
    constructor
    · rintro ⟨⟩
    · rintro ⟨-, rest, rfl, -⟩
      exact absurd (List.isPrefixOf_iff_prefix.mpr (by simp)) h

/-- The texts that are given for a key, in order. -/
def settings (vars : List (String × String)) (key : String) : List String :=
  (vars.filter fun p => variableKey? p.1 = some key).map Prod.snd

theorem settings_cons (name text : String) (vars : List (String × String)) (key : String) :
    settings ((name, text) :: vars) key =
      if variableKey? name = some key then text :: settings vars key else settings vars key := by
  by_cases h : variableKey? name = some key <;> simp [settings, h]

/-! ## Values -/

def readNesting? (text : String) : Option UInt64 :=
  Text.readUInt64? (Text.trim text.toList)

def readBuiltin? (text : String) : Option Bool :=
  readBool? (Text.trim text.toList)

/-- A text is a value of a key, blank space around it aside. -/
def Reads (key text : String) : Prop :=
  (key = "max_nesting_depth" ∧ (readNesting? text).isSome) ∨
    (key = "builtin_functions" ∧ (readBuiltin? text).isSome)

/-- Of every key, the value that is given last, or else the old one. -/
def overridden (c : Config) (vars : List (String × String)) : Config where
  maxNestingDepth :=
    ((settings vars "max_nesting_depth").getLast?.bind readNesting?).getD c.maxNestingDepth
  builtinFunctions :=
    ((settings vars "builtin_functions").getLast?.bind readBuiltin?).getD c.builtinFunctions

theorem set_maxNestingDepth (c : Config) (text : String) :
    c.set "max_nesting_depth" text = match readNesting? text with
      | some n => .ok { c with maxNestingDepth := n }
      | none => .error (.invalidNesting text) := by
  have hkey : normalizeKey "max_nesting_depth" = "max_nesting_depth" := by decide
  rw [set, if_pos hkey]
  rfl

theorem set_builtinFunctions (c : Config) (text : String) :
    c.set "builtin_functions" text = match readBuiltin? text with
      | some b => .ok { c with builtinFunctions := b }
      | none => .error (.invalidBoolean text) := by
  have hkey : normalizeKey "builtin_functions" = "builtin_functions" := by decide
  rw [set, if_neg (by rw [hkey]; decide), if_pos hkey]
  rfl

/-- A setting that is read is changed, and one that is not is an error. -/
theorem exists_set_iff (hkey : key ∈ keys) : (∃ d, c.set key text = .ok d) ↔ Reads key text := by
  simp only [keys, List.mem_cons, List.not_mem_nil, or_false] at hkey
  rcases hkey with rfl | rfl
  · rw [set_maxNestingDepth, Reads]
    cases readNesting? text <;> simp
  · rw [set_builtinFunctions, Reads]
    cases readBuiltin? text <;> simp

theorem validate_eq_ok_iff :
    c.validate = .ok () ↔ 1 ≤ c.maxNestingDepth ∧ c.maxNestingDepth ≤ nestingLimit := by
  let rule : RangeRule :=
    { field := "max_nesting_depth", value := c.maxNestingDepth.toNat
      min? := some 1, max? := some nestingLimit.toNat }
  have hrule : rule.isBroken = false ↔
      1 ≤ c.maxNestingDepth ∧ c.maxNestingDepth ≤ nestingLimit := by
    rw [UInt64.le_iff_toNat_le, UInt64.le_iff_toNat_le]
    simp only [rule, RangeRule.isBroken, Option.any_some, Bool.or_eq_false_iff,
      decide_eq_false_iff_not, Int.not_lt, Int.ofNat_le]
    exact and_congr_left' Int.ofNat_le
  rw [← hrule]
  change Except.mapError _ (RangeRule.check [rule]) = _ ↔ _
  rw [RangeRule.check, RangeRule.broken, List.filter_cons, List.filter_nil]
  cases rule.isBroken with
  | true => constructor <;> (intro h; cases h)
  | false => constructor <;> (intro; rfl)

/-! ## Runs -/

/-- Every value that is given for a key is one. -/
def Readable (vars : List (String × String)) : Prop :=
  ∀ p ∈ vars, ∀ key, variableKey? p.1 = some key → Reads key p.2

theorem applyVariables_of_none (h : variableKey? name = none) :
    c.applyVariables ((name, text) :: vars) = c.applyVariables vars := by
  rw [applyVariables, h]

theorem applyVariables_of_ok {d : Config} (h : variableKey? name = some key)
    (hset : c.set key text = .ok d) :
    c.applyVariables ((name, text) :: vars) = d.applyVariables vars := by
  rw [applyVariables, h]
  dsimp only
  rw [hset]

theorem applyVariables_of_error {e : ConfigError} (h : variableKey? name = some key)
    (hset : c.set key text = .error e) :
    c.applyVariables ((name, text) :: vars) = (c, .error e) := by
  rw [applyVariables, h]
  dsimp only
  rw [hset]

/-- Variables that set no key leave no trace, also in a run that stops at a bad one. -/
theorem applyVariables_filter (c : Config) (vars : List (String × String)) :
    c.applyVariables (vars.filter fun p => (variableKey? p.1).isSome) = c.applyVariables vars := by
  induction vars generalizing c with
  | nil => rfl
  | cons p vars ih =>
    obtain ⟨name, text⟩ := p
    cases hkey : variableKey? name with
    | none => rw [List.filter_cons_of_neg (by simp [hkey]), ih, applyVariables_of_none hkey]
    | some key =>
      rw [List.filter_cons_of_pos (by simp [hkey])]
      cases hset : c.set key text with
      | ok d => rw [applyVariables_of_ok hkey hset, applyVariables_of_ok hkey hset, ih]
      | error e => rw [applyVariables_of_error hkey hset, applyVariables_of_error hkey hset]

theorem readable_of_applyVariables (h : (c.applyVariables vars).2 = .ok ()) : Readable vars := by
  induction vars generalizing c with
  | nil => exact List.forall_mem_nil _
  | cons p vars ih =>
    obtain ⟨name, text⟩ := p
    refine List.forall_mem_cons.mpr ?_
    cases hkey : variableKey? name with
    | none =>
      rw [applyVariables_of_none hkey] at h
      refine ⟨fun key hkey' => ?_, ih h⟩
      cases hkey'
    | some key =>
      cases hset : c.set key text with
      | ok d =>
        rw [applyVariables_of_ok hkey hset] at h
        refine ⟨fun key' hkey' => ?_, ih h⟩
        cases hkey'
        exact (exists_set_iff (variableKey?_eq_some_iff.mp hkey).1).mp ⟨d, hset⟩
      | error e =>
        rw [applyVariables_of_error hkey hset] at h
        cases h

theorem Readable.reads (h : Readable vars) (hmem : text ∈ settings vars key) : Reads key text := by
  obtain ⟨p, hp, rfl⟩ := List.mem_map.mp hmem
  obtain ⟨hp, hkey⟩ := List.mem_filter.mp hp
  exact h p hp key (of_decide_eq_true hkey)

/-- The value that is given last is one of those that are given behind the first one, if there are
any. -/
theorem getD_bind_getLast?_cons {α β : Type} {f : α → Option β} {a : α} {as : List α}
    (h : ∀ b ∈ as, (f b).isSome) (d : β) :
    ((a :: as).getLast?.bind f).getD d = (as.getLast?.bind f).getD ((f a).getD d) := by
  rw [List.getLast?_cons, Option.bind_some]
  cases hlast : as.getLast? with
  | none => rfl
  | some b =>
    obtain ⟨x, hx⟩ := Option.isSome_iff_exists.mp (h b (List.mem_of_getLast? hlast))
    simp [hx]

/-- What is given first is overridden by what is given later. -/
theorem overridden_cons (h : Readable vars) {d : Config} (hkey : variableKey? name = some key)
    (hset : c.set key text = .ok d) :
    c.overridden ((name, text) :: vars) = d.overridden vars := by
  have hmem := (variableKey?_eq_some_iff.mp hkey).1
  simp only [keys, List.mem_cons, List.not_mem_nil, or_false] at hmem
  simp only [overridden, settings_cons, hkey, Option.some_inj]
  rcases hmem with rfl | rfl
  · have hsome : ∀ t ∈ settings vars "max_nesting_depth", (readNesting? t).isSome := fun t ht => by
      simpa [Reads] using h.reads ht
    rw [set_maxNestingDepth] at hset
    cases hn : readNesting? text with
    | none => simp [hn] at hset
    | some n =>
      rw [hn] at hset
      cases hset
      rw [if_pos rfl, if_neg (by decide), getD_bind_getLast?_cons hsome, hn, Option.getD_some]
  · have hsome : ∀ t ∈ settings vars "builtin_functions", (readBuiltin? t).isSome := fun t ht => by
      simpa [Reads] using h.reads ht
    rw [set_builtinFunctions] at hset
    cases hb : readBuiltin? text with
    | none => simp [hb] at hset
    | some b =>
      rw [hb] at hset
      cases hset
      rw [if_neg (by decide), if_pos rfl, getD_bind_getLast?_cons hsome, hb, Option.getD_some]

/-- As long as all values are read, the outcome is that of validating the final ones. -/
theorem applyVariables_eq (h : Readable vars) :
    c.applyVariables vars = (c.overridden vars, (c.overridden vars).validate) := by
  induction vars generalizing c with
  | nil => rfl
  | cons p vars ih =>
    obtain ⟨name, text⟩ := p
    obtain ⟨hhead, htail⟩ := List.forall_mem_cons.mp h
    cases hkey : variableKey? name with
    | none =>
      have hsettings (key : String) : settings ((name, text) :: vars) key = settings vars key := by
        rw [settings_cons, if_neg (by simp [hkey])]
      rw [applyVariables_of_none hkey, ih htail, overridden, overridden, hsettings, hsettings]
    | some key =>
      have hmem := (variableKey?_eq_some_iff.mp hkey).1
      obtain ⟨d, hset⟩ := (exists_set_iff hmem).mpr (hhead key hkey)
      rw [applyVariables_of_ok hkey hset, ih htail, overridden_cons htail hkey hset]

theorem readable_congr (h : ∀ key ∈ keys, settings vars key = settings vars' key)
    (hvars : Readable vars) : Readable vars' := by
  intro p hp key hkey
  refine hvars.reads ?_
  rw [h key (variableKey?_eq_some_iff.mp hkey).1]
  exact List.mem_map_of_mem (List.mem_filter.mpr ⟨hp, decide_eq_true hkey⟩)

theorem overridden_congr (h : ∀ key ∈ keys, settings vars key = settings vars' key) :
    c.overridden vars = c.overridden vars' := by
  rw [overridden, overridden, h _ List.mem_cons_self,
    h _ (List.mem_cons_of_mem _ List.mem_cons_self)]

/-- Variables override settings, and the last one for a key wins. Variables that set no key may
stand anywhere, and where all goes well the order matters among variables of one key only. All goes
well if every value that is given for a key is one, and the final nesting depth is within its
bounds. -/
theorem applyVariables_overrides (c : Config) (vars : List (String × String)) :
    (∀ name key, variableKey? name = some key ↔ Names name key) ∧
    (∀ vars', vars.filter (fun p => (variableKey? p.1).isSome) =
        vars'.filter (fun p => (variableKey? p.1).isSome) →
      c.applyVariables vars' = c.applyVariables vars) ∧
    (∀ vars', (∀ key ∈ keys, settings vars key = settings vars' key) →
      (c.applyVariables vars).2 = .ok () → c.applyVariables vars' = c.applyVariables vars) ∧
    ((c.applyVariables vars).2 = .ok () ↔
      (∀ p ∈ vars, ∀ key, variableKey? p.1 = some key → Reads key p.2) ∧
        1 ≤ (c.overridden vars).maxNestingDepth ∧
        (c.overridden vars).maxNestingDepth ≤ nestingLimit) ∧
    ((c.applyVariables vars).2 = .ok () → (c.applyVariables vars).1 = c.overridden vars) := by
  refine ⟨fun _ _ => variableKey?_eq_some_iff, fun vars' h => ?_, fun vars' h hok => ?_, ?_, ?_⟩
  · rw [← applyVariables_filter, ← h, applyVariables_filter]
  · have hvars := readable_of_applyVariables hok
    rw [applyVariables_eq hvars, applyVariables_eq (readable_congr h hvars), overridden_congr h]
  · rw [← validate_eq_ok_iff]
    constructor
    · intro hok
      have hvars := readable_of_applyVariables hok
      rw [applyVariables_eq hvars] at hok
      exact ⟨hvars, hok⟩
    · rintro ⟨hvars, hok⟩
      rw [applyVariables_eq hvars]
      exact hok
  · intro hok
    rw [applyVariables_eq (readable_of_applyVariables hok)]

/-- A depth that is out of bounds is overridden, and the other setting may be given anywhere. -/
theorem applyVariables_overrides_depth :
    let vars := [("SECPAL_MAX_NESTING_DEPTH", "900"), ("PATH", "/bin"),
      ("SECPAL_builtin_functions", " false"), ("SECPAL_max_nesting_depth", "16 ")]
    let vars' := [("SECPAL_builtin_functions", " false"), ("SECPAL_MAX_NESTING_DEPTH", "900"),
      ("SECPAL_max_nesting_depth", "16 "), ("SECPAL_COLOUR", "blue")]
    (applyVariables {} vars).2 = .ok () ∧ overridden {} vars = ⟨16, false⟩ ∧
      applyVariables {} vars = (⟨16, false⟩, .ok ()) ∧
      applyVariables {} vars' = (⟨16, false⟩, .ok ()) ∧
      applyVariables {} (vars.eraseIdx 1) = (⟨16, false⟩, .ok ()) := by
  intro vars vars'
  obtain ⟨-, hirrelevant, horder, -, hlast⟩ := applyVariables_overrides {} vars
  have hok : (applyVariables {} vars).2 = .ok () := by rfl
  have hfinal : overridden {} vars = ⟨16, false⟩ := by decide +kernel
  have hvars : applyVariables {} vars = (⟨16, false⟩, .ok ()) :=
    Prod.ext ((hlast hok).trans hfinal) hok
  refine ⟨hok, hfinal, hvars, (horder vars' ?_ hok).trans hvars,
    (hirrelevant (vars.eraseIdx 1) ?_).trans hvars⟩ <;> decide +kernel

end AuthLogic.Config
