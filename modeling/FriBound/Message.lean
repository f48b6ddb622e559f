import FriBound.Decimal.Shortest
import FriBound.Error

/-!
# Messages

How errors are told to the reader. Numbers stand in messages with the fewest digits that identify
them.
-/

namespace FriBound

/-- What a quantity is called. -/
def Quantity.name : Quantity → String
  | codewordSize => "2^codeword_size_bits"
  | codewordSizeSquared => "2^(2 * codeword_size_bits)"
  | fieldSize => "2^field_size_bits"
  | aritySum => "sum of 2^arity_bits"
  | proximity => "term_1"
  | folding => "term_2"
  | query => "term_3"
  | total => "soundness error"
  | logTotal => "log2 of soundness error"

/-- What an exponent is called. -/
def Exponent.name : Exponent → String
  | codewordSizeBits => "codeword_size_bits"
  | rateBits => "rate_bits"
  | fieldSizeBits => "field_size_bits"

/-- What is wrong with the parameter. -/
def Refusal.message : Refusal Binary64 → String
  | noFunctions => "num_functions should be positive"
  | rateBits bits => "rate_bits should be positive, got " ++ toString bits.toInt
  | codewordSizeBits bits => "codeword_size_bits should be positive, got " ++ toString bits.toInt
  | proximity m => "m should be positive and finite, got " ++ Decimal.display m
  | noFolding round => "arity_bits[" ++ toString round ++ "] should be at least 1"
  | numRounds count length =>
    "num_rounds (" ++ toString count ++ ") mismatch arity_bits length (" ++ toString length ++ ")"
  | fieldSizeBits bits => "field_size_bits should be positive, got " ++ toString bits.toInt
  | noQueries => "num_queries should be positive"
  | notFinite m => "m should be finite, got " ++ Decimal.display m
  | noLogarithm m =>
    "log-scale evaluation requires a positive finite m, got " ++ Decimal.display m
  | domainOverflow degree rate =>
    "degree_bits (" ++ toString degree.toNat ++ ") + rate_bits (" ++ toString rate.toNat
      ++ ") overflows"
  | tooLarge exponent bits => exponent.name ++ " too large: " ++ toString bits

/-- The whole message, which opens with the kind of error. -/
def BoundError.message : BoundError Binary64 → String
  | divisionByZero => "Division by zero: 1 / (2 * m)"
  | overflow what => "Numeric overflow while computing " ++ what.name
  | invalid why => "Invalid parameter: " ++ why.message

end FriBound
