import FriBound.Decimal.Basic

/-!
# A given number of digits

Two ways of writing a binary number with a fixed precision. Both round the exact value once, a half
going to the even digit, and both write the sign of a zero.
-/

namespace FriBound.Decimal

/-- The text of a number whose finite magnitudes are written by `write`. -/
def signedText (write : Magnitude → String) : Binary64 → String
  | .nan => "NaN"
  | .inf neg => if neg then "-inf" else "inf"
  | .fin neg x => (if neg then "-" else "") ++ write x

/-- Positional notation with `k` places, for at most 1074 of them. -/
def fixed (k : Nat) : Binary64 → String :=
  signedText fun x => withPlaces (divNearest (ofMagnitude x).digits (10 ^ (places - k))) k

/-- A magnitude to `k + 1` digits, with the power of ten of the first digit. Rounding up from nines
only makes one more digit, a zero. -/
def leadingDigits (k : Nat) (x : Magnitude) : Decimal :=
  if x.units = 0 then ⟨0, 0⟩
  else
    let exact := ofMagnitude x
    let drop := length exact.digits - (k + 1)
    let n := divNearest exact.digits (10 ^ drop)
    if n = 10 ^ (k + 1) then ⟨10 ^ k, exact.exponent + drop + k + 1⟩
    else ⟨n, exact.exponent + drop + k⟩

/-- Scientific notation: a digit, `k` places, and the power of ten. -/
def scientific (k : Nat) : Binary64 → String :=
  signedText fun x =>
    let d := leadingDigits k x
    withPlaces d.digits k ++ "e" ++ toString d.exponent

end FriBound.Decimal
