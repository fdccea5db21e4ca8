import AuthLogic.Text.Numeral
import AuthLogic.Toml.Basic

/-! # Numbers of TOML

How integers and floats are written. Digits may be grouped by underscores, and a
number is refused if it does not fit: an integer in 64 bits with a sign, a float
below the infinite one.
-/

namespace AuthLogic.Toml

/-! ## Digits -/

def isHexDigit (c : Char) : Bool :=
  c.isDigit || 'a' ≤ c && c ≤ 'f' || 'A' ≤ c && c ≤ 'F'

def hexValue (c : Char) : Nat :=
  if c.isDigit then c.toNat - '0'.toNat
  else if 'a' ≤ c then c.toNat - 'a'.toNat + 10
  else c.toNat - 'A'.toNat + 10

/-- The number written in digits of a base. -/
def ofDigits (base : Nat) (cs : List Char) : Nat :=
  cs.foldl (fun n c => base * n + hexValue c) 0

/-- Whether digits are grouped by single underscores between them. -/
def grouped (p : Char → Bool) : List Char → Bool
  | [] => false
  | [c] => p c
  | c :: '_' :: cs => p c && grouped p cs
  | c :: cs => p c && grouped p cs

def ungroup (cs : List Char) : List Char :=
  cs.filter (· ≠ '_')

def unsigned : List Char → List Char
  | '+' :: cs => cs
  | '-' :: cs => cs
  | cs => cs

/-- Whether digits are those of a whole decimal number, which has no leading zeros. -/
def isWhole (cs : List Char) : Bool :=
  grouped Char.isDigit cs && (cs = ['0'] || cs.head? ≠ some '0')

/-! ## Integers -/

/-- An integer in digits of a base. -/
def integerInBase? (base : Nat) (p : Char → Bool) (cs : List Char) : Option Toml :=
  if grouped p cs then (Text.toInt64? (ofDigits base (ungroup cs))).map int else none

def integer? : List Char → Option Toml
  | '0' :: 'x' :: cs => integerInBase? 16 isHexDigit cs
  | '0' :: 'o' :: cs => integerInBase? 8 (fun c => '0' ≤ c && c ≤ '7') cs
  | '0' :: 'b' :: cs => integerInBase? 2 (fun c => c = '0' || c = '1') cs
  | cs => if isWhole (unsigned cs) then (Text.readInt64? (ungroup cs)).map int else none

/-! ## Floats -/

/-- The least number that rounds to the infinite float: it lies halfway between the largest float
of 64 bits and the power of two above, and a half goes up there. -/
def infinityBound : Nat :=
  Nat.pow 2 1024 - Nat.pow 2 970

/-- The least power of ten that is above all floats. -/
def infinityExponent : Nat := 309

/-- Whether a number with some digits, times a power of ten, rounds to the infinite float. A power
above all floats makes no difference, nor one that takes all digits behind the point. -/
def roundsToInfinity (digits : List Char) : (exponent : Int) → Bool
  | .ofNat e => infinityBound ≤ ofDigits 10 digits * Nat.pow 10 (min e infinityExponent)
  | .negSucc e => infinityBound ≤ ofDigits 10 digits / Nat.pow 10 (min (e + 1) digits.length)

theorem infinityBound_le_pow {e : Nat} (h : infinityExponent ≤ e) :
    infinityBound ≤ Nat.pow 10 e := by
  have least : infinityBound ≤ Nat.pow 10 infinityExponent := by decide +kernel
  have mono (k : Nat) (hk : k ≤ e) : Nat.pow 10 k ≤ Nat.pow 10 e :=
    Nat.pow_le_pow_right (by decide) hk
  exact Nat.le_trans least (mono _ h)

theorem roundsToInfinity_ofNat (digits : List Char) (e : Nat) :
    roundsToInfinity digits (.ofNat e) = true ↔
      infinityBound ≤ ofDigits 10 digits * Nat.pow 10 e := by
  simp only [roundsToInfinity, decide_eq_true_eq]
  by_cases he : e ≤ infinityExponent
  · rw [Nat.min_eq_left he]
  · have he : infinityExponent ≤ e := Nat.le_of_not_le he
    rw [Nat.min_eq_right he]
    cases ofDigits 10 digits with
    | zero => simp only [Nat.zero_mul]
    | succ n =>
      have large {e : Nat} (h : infinityExponent ≤ e) : infinityBound ≤ (n + 1) * Nat.pow 10 e :=
        Nat.le_trans (infinityBound_le_pow h) (Nat.le_mul_of_pos_left _ n.succ_pos)
      exact iff_of_true (large (Nat.le_refl _)) (large he)

theorem hexValue_lt_ten {c : Char} (h : c.isDigit = true) : hexValue c < 10 := by
  have := Char.isDigit_iff_toNat.mp h
  simp only [hexValue, h, if_true]
  have h₀ : '0'.toNat = 48 := rfl
  have h₉ : '9'.toNat = 57 := rfl
  omega

theorem ofDigits_lt {digits : List Char} (h : ∀ c ∈ digits, c.isDigit = true) :
    ofDigits 10 digits < Nat.pow 10 digits.length := by
  suffices ∀ n, digits.foldl (fun n c => 10 * n + hexValue c) n <
      (n + 1) * Nat.pow 10 digits.length from by simpa [ofDigits] using this 0
  induction digits with
  | nil => exact fun n => by simp
  | cons c cs ih =>
    intro n
    have hc := hexValue_lt_ten (h c List.mem_cons_self)
    refine Nat.lt_of_lt_of_le (ih (fun c hc => h c (List.mem_cons_of_mem _ hc)) _) ?_
    have step : (n + 1) * Nat.pow 10 (cs.length + 1) = (n + 1) * 10 * Nat.pow 10 cs.length := by
      rw [Nat.mul_assoc, Nat.mul_comm 10]; rfl
    rw [List.length_cons, step]
    exact Nat.mul_le_mul_right _ (by dsimp only; omega)

theorem roundsToInfinity_negSucc {digits : List Char} (h : ∀ c ∈ digits, c.isDigit = true)
    (e : Nat) : roundsToInfinity digits (.negSucc e) = true ↔
      infinityBound * Nat.pow 10 (e + 1) ≤ ofDigits 10 digits := by
  simp only [roundsToInfinity, decide_eq_true_eq]
  have pos (k : Nat) : 0 < Nat.pow 10 k := Nat.pow_pos (by decide)
  rw [Nat.le_div_iff_mul_le (pos _)]
  by_cases he : e + 1 ≤ digits.length
  · rw [Nat.min_eq_left he]
  · have he : digits.length ≤ e + 1 := Nat.le_of_not_le he
    rw [Nat.min_eq_right he]
    have small {k : Nat} (hk : digits.length ≤ k) :
        ofDigits 10 digits < infinityBound * Nat.pow 10 k :=
      Nat.lt_of_lt_of_le (ofDigits_lt h) (Nat.le_trans (Nat.pow_le_pow_right (by decide) hk)
        (Nat.le_mul_of_pos_left _ (by decide +kernel)))
    exact iff_of_false (Nat.not_le.mpr (small (Nat.le_refl _))) (Nat.not_le.mpr (small he))

/-- The exponent that may stand at the end of a number. -/
def exponent? : List Char → Option Int
  | [] => some 0
  | c :: cs =>
    if (c = 'e' || c = 'E') && grouped Char.isDigit (unsigned cs) then Text.readInt? (ungroup cs)
    else none

/-- The digits of a number with a point or an exponent, and the power of ten that they count. -/
def fractional? (cs : List Char) : Option (List Char × Int) :=
  let inNumber := fun c : Char => c.isDigit || c = '_'
  let whole := cs.takeWhile inNumber
  if isWhole whole then
    match cs.dropWhile inNumber with
    | [] => none
    | '.' :: rest =>
      let fraction := rest.takeWhile inNumber
      if grouped Char.isDigit fraction then
        (exponent? (rest.dropWhile inNumber)).map fun e =>
          (ungroup (whole ++ fraction), e - (ungroup fraction).length)
      else none
    | rest => (exponent? rest).map fun e => (ungroup whole, e)
  else none

/-- A float. One that is too large is refused, but there is no limit below zero: the negative
infinite float is taken for what lies beyond. -/
def float? (cs : List Char) : Option Toml :=
  let body := unsigned cs
  if body = "inf".toList || body = "nan".toList then some float
  else
    match fractional? body with
    | some (digits, e) =>
      if cs.head? ≠ some '-' && roundsToInfinity digits e then none else some float
    | none => none

end AuthLogic.Toml
