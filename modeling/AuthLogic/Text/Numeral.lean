/-! # Numerals

Decimal numerals, as they are written and as they are read: digits of ASCII
only, any number of leading zeros, and at most one sign in front. Main statement:
what is written is read back.
-/

namespace AuthLogic.Text

def writeInt : Int → String
  | .ofNat n => n.repr
  | .negSucc n => "-" ++ (n + 1).repr

/-- The number written by a nonempty list of digits. -/
def readDigits? (cs : List Char) : Option Nat :=
  if cs ≠ [] ∧ cs.all Char.isDigit then some (Nat.ofDigitChars 10 cs 0) else none

/-- A number that may carry a plus sign. -/
def readNat? : List Char → Option Nat
  | '+' :: cs => readDigits? cs
  | cs => readDigits? cs

/-- A number that may carry a sign. -/
def readInt? : List Char → Option Int
  | '-' :: cs => (readDigits? cs).map fun n => -(n : Int)
  | cs => (readNat? cs).map Int.ofNat

theorem readDigits?_repr (n : Nat) : readDigits? n.repr.toList = some n := by
  have h : n.repr.toList = Nat.toDigits 10 n := by simp [Nat.repr_eq_ofList_toDigits]
  rw [h, readDigits?, if_pos, Nat.ofDigitChars_ten_toDigits]
  exact ⟨Nat.toDigits_ne_nil, List.all_eq_true.mpr fun c hc =>
    Nat.isDigit_of_mem_toDigits (by decide) (by decide) hc⟩

theorem readNat?_repr (n : Nat) : readNat? n.repr.toList = some n := by
  have h := readDigits?_repr n
  rw [readNat?]
  · exact h
  · rintro cs hcs
    rw [hcs] at h
    simp [readDigits?, show Char.isDigit '+' = false from rfl] at h

theorem readInt?_writeInt (n : Int) : readInt? (writeInt n).toList = some n := by
  cases n with
  | ofNat n =>
    have h := readDigits?_repr n
    rw [writeInt, readInt?]
    · rw [readNat?_repr]; rfl
    · rintro cs hcs
      rw [hcs] at h
      simp [readDigits?, show Char.isDigit '-' = false from rfl] at h
  | negSucc n =>
    rw [writeInt, String.toList_append, show "-".toList = ['-'] from rfl, List.singleton_append,
      readInt?, readDigits?_repr]
    rfl

/-- The integer, if it fits in 64 bits with a sign. -/
def toInt64? (n : Int) : Option Int64 :=
  if Int64.minValue.toInt ≤ n ∧ n ≤ Int64.maxValue.toInt then some (Int64.ofInt n) else none

theorem toInt64?_toInt (n : Int64) : toInt64? n.toInt = some n := by
  rw [toInt64?, if_pos ⟨n.minValue_le_toInt, n.toInt_le⟩, Int64.ofInt_toInt]

/-- The integer, if it fits in 64 bits without a sign. -/
def toUInt64? (n : Int) : Option UInt64 :=
  if 0 ≤ n ∧ n.toNat < UInt64.size then some (UInt64.ofNat n.toNat) else none

theorem toUInt64?_toNat (n : UInt64) : toUInt64? n.toNat = some n := by
  simp [toUInt64?, n.toNat_lt]

/-- The integer, if it fits in 32 bits without a sign. -/
def toUInt32? (n : Int) : Option UInt32 :=
  if 0 ≤ n ∧ n.toNat < UInt32.size then some (UInt32.ofNat n.toNat) else none

theorem toUInt32?_toNat (n : UInt32) : toUInt32? n.toNat = some n := by
  simp [toUInt32?, n.toNat_lt]

def readInt64? (cs : List Char) : Option Int64 :=
  (readInt? cs).bind toInt64?

def readUInt64? (cs : List Char) : Option UInt64 :=
  ((readNat? cs).map Int.ofNat).bind toUInt64?

end AuthLogic.Text
