import FriBound.CurveField
import FriBound.Params
import FriBound.Error

/-!
# Reduction schedules

A reduction schedule lists how a committed polynomial is folded, round by round. Together with the
degree of the polynomial, the rate and a field it determines the parameters of an instance: the
evaluation domain has `2 ^ (degreeBits + rateBits)` elements.
-/

namespace FriBound

/-- A schedule and what goes with it. -/
structure Schedule (α : Type) where
  field : FieldShape
  degreeBits : UInt64
  rateBits : UInt64
  m : α
  arityBits : List UInt64
  numQueries : UInt64
  deriving DecidableEq

/-- A number of bits as an exponent, which has to be a signed word of 32 bits. -/
def exponent {α : Type} (name : Exponent) (bits : Nat) : Except (BoundError α) Int32 :=
  if bits < 2 ^ 31 then .ok (.ofNat bits) else .error (.invalid (.tooLarge name bits))

/-- The parameters of the instance. The domain size is checked twice: its logarithm has to be a
word, and it has to be an exponent. -/
def Schedule.params {α : Type} (s : Schedule α) : Except (BoundError α) (Params α) := do
  let sizeBits := s.degreeBits.toNat + s.rateBits.toNat
  if 2 ^ 64 ≤ sizeBits then throw (.invalid (.domainOverflow s.degreeBits s.rateBits))
  let codewordSizeBits ← exponent .codewordSizeBits sizeBits
  let rateBits ← exponent .rateBits s.rateBits.toNat
  let fieldSizeBits ← exponent .fieldSizeBits s.field.sizeBits
  return {
    numFunctions := 1
    rateBits
    codewordSizeBits
    m := s.m
    arityBits := s.arityBits
    numRounds := s.arityBits.length
    fieldSizeBits
    numQueries := s.numQueries }

end FriBound
