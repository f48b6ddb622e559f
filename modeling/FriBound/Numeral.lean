import FriBound.Power

/-!
# Reading a whole number

A numeral is an optional sign and one or more decimal digits; a minus sign is allowed only where
the range has negative numbers. The value has to lie in the range. Of two faults the leftmost is
reported: a character that is no digit, or the first digit with which the value leaves the range.
-/

namespace FriBound

/-- Why a text is no whole number of the range. -/
inductive NumeralError where
  | empty
  | invalidDigit
  | tooLarge
  | tooSmall
  deriving DecidableEq, Repr

/-- A range of whole numbers. -/
structure WordRange where
  least : Int
  greatest : Int

namespace WordRange

/-- Signed words of 32 bits. -/
def int32 : WordRange := ⟨-2 ^ 31, 2 ^ 31 - 1⟩

/-- Unsigned words of 64 bits. -/
def uint64 : WordRange := ⟨0, 2 ^ 64 - 1⟩

/-- Appends the digits to the value `n`, away from zero. -/
def readDigits (r : WordRange) (neg : Bool) (n : Int) : List Char → Except NumeralError Int
  | [] => .ok n
  | c :: cs =>
    if c.isDigit then
      let d : Int := c.toNat - '0'.toNat
      let n := 10 * n + if neg then -d else d
      if n < r.least then .error .tooSmall
      else if r.greatest < n then .error .tooLarge
      else r.readDigits neg n cs
    else .error .invalidDigit

/-- Reads a numeral. -/
def read (r : WordRange) : List Char → Except NumeralError Int
  | [] => .error .empty
  | ['+'] => .error .invalidDigit
  | ['-'] => .error .invalidDigit
  | '+' :: cs => r.readDigits false 0 cs
  | '-' :: cs => if r.least < 0 then r.readDigits true 0 cs else .error .invalidDigit
  | cs => r.readDigits false 0 cs

end WordRange

end FriBound
