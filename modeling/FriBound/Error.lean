/-!
# What can go wrong

An evaluation fails for one of three kinds of reason: a division by zero, a quantity that has no
finite value, or a parameter that is refused. `Quantity` names what can leave the range, `Refusal`
says what is wrong with a parameter.
-/

namespace FriBound

/-- A quantity of the bound that has to be finite. -/
inductive Quantity where
  | codewordSize
  | codewordSizeSquared
  | fieldSize
  | aritySum
  | proximity
  | folding
  | query
  | total
  | logTotal
  deriving DecidableEq, Repr

/-- A size that is given as the exponent of two. -/
inductive Exponent where
  | codewordSizeBits
  | rateBits
  | fieldSizeBits
  deriving DecidableEq, Repr

/-- Why a parameter is refused, with the offending values. -/
inductive Refusal (α : Type) where
  /-- There is no function. -/
  | noFunctions
  /-- The rate is not below one. -/
  | rateBits (bits : Int32)
  /-- The domain is a single point or less. -/
  | codewordSizeBits (bits : Int32)
  /-- The proximity parameter of an instance has to be positive and finite. -/
  | proximity (m : α)
  /-- A round folds nothing; this is the first such round. -/
  | noFolding (round : Nat)
  /-- The count of rounds is not that of the schedule. -/
  | numRounds (count length : Nat)
  /-- The field is a single element or less. -/
  | fieldSizeBits (bits : Int32)
  /-- There is no query. -/
  | noQueries
  /-- The formula needs a finite proximity parameter. -/
  | notFinite (m : α)
  /-- Logarithms need a positive and finite one. -/
  | noLogarithm (m : α)
  /-- The logarithm of the domain size is beyond the word size. -/
  | domainOverflow (degreeBits rateBits : UInt64)
  /-- An exponent is beyond the range of exponents. -/
  | tooLarge (exponent : Exponent) (bits : Nat)
  deriving DecidableEq, Repr

/-- Why an evaluation has no result. -/
inductive BoundError (α : Type) where
  /-- The proximity parameter is zero. -/
  | divisionByZero
  /-- The first quantity without a finite value. -/
  | overflow (what : Quantity)
  /-- A parameter is refused. -/
  | invalid (why : Refusal α)
  deriving DecidableEq, Repr

end FriBound
