import FriBound.Power

/-!
# Kinds of number

The bound is a formula, and it is written once, over any type that has the operations it uses. Read
over `Binary64` it is the evaluation that the command line runs; read over the reals it is the
mathematical bound.

The derived operations below (`powNat`, `sum`, `log2SumExp2`) fix an order of evaluation. That order
does not matter to the exact reading and decides the last digits of the rounded one.
-/

namespace FriBound

/-- The operations that the bound is built from. -/
class Scalar (α : Type) extends Add α, Sub α, Mul α, Div α, Neg α where
  /-- A whole number. -/
  ofInt : Int → α
  /-- A whole number of halves. -/
  ofHalves : Int → α
  /-- Minus infinity, the logarithm of zero. -/
  negInf : α
  /-- The square root. -/
  sqrt : α → α
  /-- The power of two with a given exponent. -/
  exp2 : α → α
  /-- The logarithm to the base two. -/
  log2 : α → α
  /-- The general power. -/
  pow : α → α → α
  /-- The larger of two numbers; what is not a number gives way. -/
  larger : α → α → α
  /-- Numerical order. -/
  lt : α → α → Bool
  /-- Numerical equality. -/
  same : α → α → Bool
  /-- Whether a value is a number of finite size. -/
  isFinite : α → Bool
  /-- Whether a value is not a number. -/
  isNaN : α → Bool

namespace Scalar

variable {α : Type} [Scalar α]

/-- The result of squaring `x` over and over while going through the binary digits of `n` from the
lowest, and multiplying `r` by the square at each digit one. -/
def powNatFrom (r x : α) (n : Nat) : α :=
  let r' := if n % 2 = 1 then r * x else r
  if n / 2 = 0 then r' else powNatFrom r' (x * x) (n / 2)
termination_by n

/-- The power with a natural exponent, by repeated squaring. -/
def powNat (x : α) (n : Nat) : α := powNatFrom (ofInt 1) x n

/-- The sum from left to right, starting from minus zero. -/
def sum (xs : List α) : α := xs.foldl (· + ·) (-ofInt 0)

/-- The largest number of a list, minus infinity if there is none. -/
def largest (xs : List α) : α := xs.foldl larger negInf

/-- The logarithm of the sum of the powers `2 ^ x`, without forming a power that could be out of
range: the largest exponent is taken out first. -/
def log2SumExp2 (xs : List α) : α :=
  let top := largest xs
  if isFinite top then top + log2 (sum (xs.map fun x => exp2 (x - top))) else top

end Scalar

end FriBound
