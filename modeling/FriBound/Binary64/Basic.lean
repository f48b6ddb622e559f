import FriBound.Power

/-!
# Binary floating-point numbers of 64 bits

A finite number is held as a sign and a whole number of *units*, a unit being `2 ^ (-1074)`, the
smallest positive number of the format. Which whole numbers occur is part of the type: they have
at most 53 significant binary digits (`Short`) and stay below `2 ^ 2098` units, which is `2 ^ 1024`.
So two finite numbers are equal exactly when their sign and their units are, the two zeros differ,
and there is one NaN.

Every operation computes its exact result as a fraction of units and rounds it once with `round`.

## Main definitions

* `Binary64` — the numbers
* `divNearest`, `roundShort`, `Binary64.round` — rounding a quotient to a whole number, to 53
  digits, and to the format
* `Binary64.place`, `Binary64.lt`, `Binary64.same` — the number line, and order and equality on it
* `Binary64.ofBits`, `Binary64.toBits` — bit patterns

## Implementation notes

All of this is arithmetic on `Nat` and `Int`, so closed instances evaluate in the kernel. Bit
patterns are an exchange format only: `ofBits` reads one, `toBits` writes one, and no operation
looks at them.
-/

namespace FriBound

/-- The natural number is written with at most 53 significant binary digits. -/
def Short (u : Nat) : Prop := ∃ q s : Nat, q ≤ 2 ^ 53 ∧ u = q * 2 ^ s

theorem short_of_le {u : Nat} (h : u ≤ 2 ^ 53) : Short u := ⟨u, 0, h, by simp⟩

/-- A unit is `2 ^ (-places)`. -/
def places : Nat := 1074

/-- How many units make one. -/
def unitsPerOne : Nat := 2 ^ places

/-- Every finite number has at most this many binary digits of units. -/
def topDigits : Nat := 2098

/-- What no finite number reaches, `2 ^ 1024`, in units. -/
def unitLimit : Nat := 2 ^ topDigits

theorem two_pow_le_unitLimit {n : Nat} (h : n ≤ topDigits) : 2 ^ n ≤ unitLimit :=
  Nat.pow_le_pow_right Nat.two_pos h

theorem unitLimit_pos : 0 < unitLimit := Nat.two_pow_pos _

theorem unitsPerOne_pos : 0 < unitsPerOne := Nat.two_pow_pos places

theorem two_le_unitsPerOne : 2 ≤ unitsPerOne :=
  Nat.pow_le_pow_right Nat.two_pos (by decide : 1 ≤ places)

theorem two_pow_add_places (e : Nat) : 2 ^ (e + places) = 2 ^ e * unitsPerOne := Nat.pow_add ..

theorem unitsPerOne_eq : unitsPerOne = 2 ^ places := rfl

theorem unitLimit_eq : unitLimit = 2 ^ topDigits := rfl

-- No step of a proof should try to evaluate these two powers of two.
attribute [irreducible] unitsPerOne unitLimit

/-- The size of a finite number, in units of `2 ^ (-1074)`. -/
structure Magnitude where
  units : Nat
  short : Short units
  small : units < unitLimit
  deriving DecidableEq

namespace Magnitude

@[ext] theorem ext {x y : Magnitude} (h : x.units = y.units) : x = y := by
  cases x; cases y; cases h; rfl

/-- The magnitude of zero. -/
def zero : Magnitude := ⟨0, short_of_le (Nat.zero_le _), unitLimit_pos⟩

/-- How many binary digits of `u` lie below its 53 leading ones. -/
def spare (u : Nat) : Nat := u.log2 - 52

theorem lt_two_pow_spare (u : Nat) : u < 2 ^ (53 + spare u) :=
  Nat.lt_of_lt_of_le Nat.lt_log2_self (Nat.pow_le_pow_right (by decide) (by unfold spare; omega))

/-- The bit pattern of the magnitude. Its 53 leading digits, added to the exponent field, carry the
leading one into that field. -/
def bits (x : Magnitude) : Nat := x.units / 2 ^ spare x.units + spare x.units * 2 ^ 52

end Magnitude

/-- A number of the 64-bit binary format: not a number, an infinity, or a finite number. The flag
is the sign, `true` for negative. -/
inductive Binary64 where
  | nan
  | inf (neg : Bool)
  | fin (neg : Bool) (mag : Magnitude)
  deriving DecidableEq

/-! ### Rounding -/

/-- The quotient `a / b` to the nearest whole number, a half going to the even neighbour. -/
def divNearest (a b : Nat) : Nat :=
  if 2 * (a % b) < b then a / b
  else if b < 2 * (a % b) then a / b + 1
  else a / b + a / b % 2

theorem divNearest_le (a b : Nat) : divNearest a b ≤ a / b + 1 := by
  unfold divNearest
  split
  · omega
  · split <;> omega

/-- The quotient `a / b` to the nearest number of at most 53 binary digits, a half going to the one
whose last digit is even. -/
def roundShort (a b : Nat) : Nat :=
  divNearest a (b * 2 ^ Magnitude.spare (a / b)) * 2 ^ Magnitude.spare (a / b)

theorem short_roundShort (a b : Nat) : Short (roundShort a b) := by
  refine ⟨_, _, Nat.le_trans (divNearest_le _ _) ?_, rfl⟩
  rw [← Nat.div_div_eq_div_mul, Nat.succ_le_iff]
  refine Nat.div_lt_of_lt_mul ?_
  rw [← Nat.pow_add, Nat.add_comm]
  exact Magnitude.lt_two_pow_spare _

namespace Binary64

/-- The number nearest to `a / b` units with the given sign; from `2 ^ 1024` on it is infinite. -/
def round (neg : Bool) (a b : Nat) : Binary64 :=
  if h : roundShort a b < unitLimit then .fin neg ⟨roundShort a b, short_roundShort a b, h⟩
  else .inf neg

/-- The zero of the given sign. -/
def zero (neg : Bool) : Binary64 := .fin neg .zero

instance : Inhabited Binary64 := ⟨zero false⟩

/-- The whole number `n`, rounded. -/
def ofInt (n : Int) : Binary64 := round (decide (n < 0)) (n.natAbs * unitsPerOne) 1

/-- The number `n / 2`, rounded. -/
def ofHalves (n : Int) : Binary64 := round (decide (n < 0)) (n.natAbs * unitsPerOne) 2

/-! ### Kinds and order -/

/-- Neither infinite nor NaN. -/
def isFinite : Binary64 → Bool
  | .fin _ _ => true
  | _ => false

def isNaN : Binary64 → Bool
  | .nan => true
  | _ => false

/-- The sign, which a NaN does not have. -/
def isNegative : Binary64 → Bool
  | .nan => false
  | .inf neg => neg
  | .fin neg _ => neg

/-- A magnitude with its sign, in units. -/
def signed (neg : Bool) (mag : Magnitude) : Int :=
  if neg then -mag.units else mag.units

/-- The place on the number line, in units. The infinities stand at `±2 ^ 1024`, beyond every
finite number, both zeros at `0`, and a NaN has no place. -/
def place : Binary64 → Option Int
  | .nan => none
  | .inf neg => some (if neg then -unitLimit else unitLimit)
  | .fin neg mag => some (signed neg mag)

/-- Numerical order. It does not hold when a side is NaN. -/
def lt (x y : Binary64) : Bool :=
  match x.place, y.place with
  | some a, some b => decide (a < b)
  | _, _ => false

/-- Numerical equality: the two zeros are equal, a NaN equals nothing. -/
def same (x y : Binary64) : Bool :=
  match x.place, y.place with
  | some a, some b => decide (a = b)
  | _, _ => false

/-- The larger of two numbers, a NaN giving way to the other. -/
def larger (x y : Binary64) : Binary64 :=
  if x.isNaN || x.lt y then y else x

/-! ### Bit patterns -/

private theorem normal_le (w : Nat) : 2 ^ 52 + w % 2 ^ 52 ≤ 2 ^ 53 := by
  have := Nat.mod_lt w (Nat.two_pow_pos 52)
  omega

private theorem normal_small {w e : Nat} (h : e < 2047) :
    (2 ^ 52 + w % 2 ^ 52) * 2 ^ (e - 1) < unitLimit := by
  have hd : 53 + (e - 1) ≤ topDigits := by unfold topDigits; omega
  refine Nat.lt_of_lt_of_le ?_ (two_pow_le_unitLimit hd)
  rw [Nat.pow_add]
  refine Nat.mul_lt_mul_of_pos_right ?_ (Nat.two_pow_pos _)
  have := Nat.mod_lt w (Nat.two_pow_pos 52)
  omega

private theorem subnormal_short (w : Nat) : Short (w % 2 ^ 52) :=
  short_of_le (by have := Nat.mod_lt w (Nat.two_pow_pos 52); omega)

private theorem subnormal_small (w : Nat) : w % 2 ^ 52 < unitLimit :=
  Nat.lt_of_lt_of_le (Nat.mod_lt w (Nat.two_pow_pos 52)) (two_pow_le_unitLimit (by decide))

/-- The number with a given pattern: one bit of sign, eleven of exponent, 52 of fraction. The top
exponent marks the infinities and NaN, the exponent 0 the numbers without a leading one. -/
def ofBits (w : Nat) : Binary64 :=
  let neg := w / 2 ^ 63 % 2 == 1
  let e := w / 2 ^ 52 % 2 ^ 11
  if h : e < 2047 then
    if e = 0 then .fin neg ⟨w % 2 ^ 52, subnormal_short w, subnormal_small w⟩
    else .fin neg
      ⟨(2 ^ 52 + w % 2 ^ 52) * 2 ^ (e - 1), ⟨_, _, normal_le w, rfl⟩, normal_small h⟩
  else if w % 2 ^ 52 = 0 then .inf neg
  else .nan

/-- The pattern of a number. -/
def toBits : Binary64 → Nat
  | .nan => 0x7ff8000000000000
  | .inf neg => neg.toNat * 2 ^ 63 + 0x7ff0000000000000
  | .fin neg mag => neg.toNat * 2 ^ 63 + mag.bits

end Binary64

end FriBound
