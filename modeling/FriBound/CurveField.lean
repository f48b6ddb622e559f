/-!
# Fields

What the size of a finite field comes from: the modulus of the prime field below it and the degree
over that prime field. The fields that the curve BN254 comes with are its scalar field, its base
field, and the extensions of the base field in which pairings are computed.
-/

namespace FriBound

/-- The shape of a finite field: an extension of the integers modulo a prime. -/
structure FieldShape where
  /-- The order of the prime field below. -/
  modulus : Nat
  /-- The degree over the prime field. -/
  degree : Nat
  one_lt_modulus : 1 < modulus
  degree_pos : 0 < degree
  deriving DecidableEq

/-- The size of an element in bits: that of the modulus, once for each coordinate. -/
def FieldShape.sizeBits (f : FieldShape) : Nat := (f.modulus.log2 + 1) * f.degree

/-- A field that the curve comes with. -/
inductive CurveField where
  /-- The scalar field. -/
  | fr
  /-- The base field. -/
  | fq
  /-- The quadratic extension of the base field. -/
  | fq2
  /-- The extension of degree six. -/
  | fq6
  /-- The extension of degree twelve. -/
  | fq12
  deriving DecidableEq, Repr

namespace CurveField

/-- The order of the prime field below. -/
def modulus : CurveField → Nat
  | fr => 21888242871839275222246405745257275088548364400416034343698204186575808495617
  | _ => 21888242871839275222246405745257275088696311157297823662689037894645226208583

/-- The degree over the prime field. -/
def degree : CurveField → Nat
  | fr => 1
  | fq => 1
  | fq2 => 2
  | fq6 => 6
  | fq12 => 12

/-- The shape of the field. -/
def shape (f : CurveField) : FieldShape where
  modulus := f.modulus
  degree := f.degree
  one_lt_modulus := by cases f <;> decide
  degree_pos := by cases f <;> decide

instance : Coe CurveField FieldShape := ⟨shape⟩

/-- The size of an element in bits. -/
def sizeBits (f : CurveField) : Nat := f.shape.sizeBits

end CurveField

end FriBound
