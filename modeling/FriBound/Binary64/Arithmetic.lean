import FriBound.Binary64.Basic

/-!
# Arithmetic on binary floating-point numbers

Sum, product, quotient and square root are each the exact value rounded once. An operation without
a value (`∞ - ∞`, `0 * ∞`, `0 / 0`, `∞ / ∞`, the root of a negative number) is NaN, and a NaN
operand gives a NaN.

`scale` and the two ways of keeping only the leading digits of a number (`leading`,
`leadingNearest`) are exact or nearly so; the elementary functions are built from them.
-/

namespace FriBound

/-! ### The whole square root -/

/-- Newton's steps towards the square root of `n` from the guess `r`, until one does not go down. -/
def floorSqrtFrom (n r : Nat) : Nat :=
  if (r + n / r) / 2 < r then floorSqrtFrom n ((r + n / r) / 2) else r
termination_by r

/-- The whole part of the square root of `n`, reached downwards from a power of two above it. -/
def floorSqrt (n : Nat) : Nat := floorSqrtFrom n (2 ^ (n.log2 / 2 + 1))

namespace Binary64

/-! ### The four operations -/

/-- The opposite sign. -/
def neg : Binary64 → Binary64
  | .nan => .nan
  | .inf s => .inf (!s)
  | .fin s x => .fin (!s) x

/-- The absolute value. -/
def abs : Binary64 → Binary64
  | .nan => .nan
  | .inf _ => .inf false
  | .fin _ x => .fin false x

/-- An exact sum of units. A sum of zero is negative only if both sides are. -/
def ofSum (bothNegative : Bool) (z : Int) : Binary64 :=
  if z = 0 then zero bothNegative else round (decide (z < 0)) z.natAbs 1

/-- The rounded sum. -/
def add : Binary64 → Binary64 → Binary64
  | .nan, _ => .nan
  | _, .nan => .nan
  | .inf s, .inf t => if s = t then .inf s else .nan
  | .inf s, .fin _ _ => .inf s
  | .fin _ _, .inf t => .inf t
  | .fin s x, .fin t y => ofSum (s && t) (signed s x + signed t y)

/-- The rounded product. -/
def mul : Binary64 → Binary64 → Binary64
  | .nan, _ => .nan
  | _, .nan => .nan
  | .inf s, .inf t => .inf (s != t)
  | .inf s, .fin t y => if y.units = 0 then .nan else .inf (s != t)
  | .fin s x, .inf t => if x.units = 0 then .nan else .inf (s != t)
  | .fin s x, .fin t y => round (s != t) (x.units * y.units) unitsPerOne

/-- The rounded quotient. A finite number over zero is infinite, unless it is zero itself. -/
def div : Binary64 → Binary64 → Binary64
  | .nan, _ => .nan
  | _, .nan => .nan
  | .inf _, .inf _ => .nan
  | .inf s, .fin t _ => .inf (s != t)
  | .fin s _, .inf t => zero (s != t)
  | .fin s x, .fin t y =>
    if y.units = 0 then if x.units = 0 then .nan else .inf (s != t)
    else round (s != t) (x.units * unitsPerOne) y.units

instance : Neg Binary64 := ⟨neg⟩
instance : Add Binary64 := ⟨add⟩
instance : Sub Binary64 := ⟨fun x y => add x (neg y)⟩
instance : Mul Binary64 := ⟨mul⟩
instance : Div Binary64 := ⟨div⟩

/-! ### Square root -/

/-- The rounded square root of a magnitude. The whole root of its units has far more than 53 digits,
so one further digit that is set when the root is not whole is enough to round by. -/
def sqrtMagnitude (x : Magnitude) : Binary64 :=
  let n := x.units * unitsPerOne
  let r := floorSqrt n
  round false (2 * r + if r * r = n then 0 else 1) 2

/-- The rounded square root; a zero is its own root, with its sign. -/
def sqrt : Binary64 → Binary64
  | .nan => .nan
  | .inf s => if s then .nan else .inf false
  | .fin s x => if x.units = 0 then zero s else if s then .nan else sqrtMagnitude x

/-! ### Powers of two and leading digits -/

/-- The number times `2 ^ e`, rounded where the format has no room for its last digits. -/
def scale : Binary64 → Int → Binary64
  | .nan, _ => .nan
  | .inf s, _ => .inf s
  | .fin s x, .ofNat e => round s (x.units * 2 ^ e) 1
  | .fin s x, .negSucc e => round s x.units (2 ^ (e + 1))

/-- Two to the whole power `n`. -/
def twoPow (n : Int) : Binary64 := scale (ofInt 1) n

/-- The number without the lowest `k` of its 53 digits. -/
def leading (k : Nat) : Binary64 → Binary64
  | .nan => .nan
  | .inf s => .inf s
  | .fin s x =>
    let d := 2 ^ (Magnitude.spare x.units + k)
    round s (x.units / d * d) 1

/-- The number rounded to its leading `53 - k` digits, a half going away from zero. -/
def leadingNearest (k : Nat) : Binary64 → Binary64
  | .nan => .nan
  | .inf s => .inf s
  | .fin s x =>
    let d := 2 ^ (Magnitude.spare x.units + k)
    round s ((x.units + d / 2) / d * d) 1

/-- The whole number nearest to `x * 2 ^ k`, a half going to the even one. -/
def nearestInt (k : Nat) : Binary64 → Int
  | .fin s x =>
    let n := divNearest (x.units * 2 ^ k) unitsPerOne
    if s then -n else n
  | _ => 0

/-- The value as a whole number, if it is one. -/
def toInt? : Binary64 → Option Int
  | .fin s x =>
    if x.units % unitsPerOne = 0 then
      let n : Nat := x.units / unitsPerOne
      some (if s then -n else n)
    else none
  | _ => none

end Binary64

end FriBound
