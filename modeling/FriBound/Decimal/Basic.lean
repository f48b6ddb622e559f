import FriBound.Binary64.Basic

/-!
# Decimal numbers

A decimal is a whole number of digits times a power of ten. `Decimal.nearest` is the binary number
that it stands for, and every finite binary number is a decimal itself: a unit `2 ^ (-1074)` is
`5 ^ 1074` times `10 ^ (-1074)`.
-/

namespace FriBound

/-- `digits * 10 ^ exponent`. -/
structure Decimal where
  digits : Nat
  exponent : Int
  deriving DecidableEq, Repr

namespace Decimal

/-- The nearest binary number, with a given sign. -/
def nearest (neg : Bool) (d : Decimal) : Binary64 :=
  match d.exponent with
  | .ofNat e => .round neg (d.digits * 10 ^ e * unitsPerOne) 1
  | .negSucc e => .round neg (d.digits * unitsPerOne) (10 ^ (e + 1))

/-- How many decimal digits a number is written with. -/
def length (n : Nat) : Nat := (Nat.toDigits 10 n).length

/-- The exact value of a magnitude, with all its 1074 decimal places. -/
def ofMagnitude (x : Magnitude) : Decimal := ⟨x.units * 5 ^ places, -places⟩

/-! ### Positional notation -/

/-- A digit string, filled up on the left with zeros to a width. -/
def padded (width n : Nat) : String :=
  String.ofList (List.replicate (width - length n) '0') ++ toString n

/-- The number `n * 10 ^ (-k)` with all its `k` places. -/
def withPlaces (n k : Nat) : String :=
  toString (n / 10 ^ k) ++ if k = 0 then "" else "." ++ padded k (n % 10 ^ k)

/-- The number `n * 10 ^ (-k)` without zeros at the end of its places. -/
def withoutEndZeros (n : Nat) : Nat → String
  | 0 => toString n
  | k + 1 => if n % 10 = 0 then withoutEndZeros (n / 10) k else withPlaces n (k + 1)

/-- Positional notation with no more places than needed. -/
def positional (d : Decimal) : String :=
  match d.exponent with
  | .ofNat e => toString (d.digits * 10 ^ e)
  | .negSucc e => withoutEndZeros d.digits (e + 1)

end Decimal

end FriBound
