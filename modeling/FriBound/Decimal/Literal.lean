import FriBound.Decimal.Basic

/-!
# Reading a number

A literal is an optional sign followed by `inf`, `infinity` or `nan` in any case, or by digits with
at most one point among or beside them and an optional power of ten: `5`, `.5`, `5.`, `1E2`,
`+3e-4`. It stands for the nearest binary number. There is no white space and no digit grouping.
-/

namespace FriBound.Decimal

/-- Why a text is no number. -/
inductive LiteralError where
  | empty
  | invalid
  deriving DecidableEq, Repr

/-- The value of a digit string. -/
def digitValue (cs : List Char) : Nat :=
  cs.foldl (fun n c => 10 * n + (c.toNat - '0'.toNat)) 0

/-- The value of the digits of a power of ten. Once it has reached `2 ^ 16`, which is far out of
range, further digits do not count. -/
def powerValue (cs : List Char) : Nat :=
  cs.foldl (fun n c => if n < 2 ^ 16 then 10 * n + (c.toNat - '0'.toNat) else n) 0

/-- The sign of a text, negative for a minus, and what follows it. -/
def splitSign : List Char → Bool × List Char
  | '-' :: cs => (true, cs)
  | '+' :: cs => (false, cs)
  | cs => (false, cs)

/-- The power of ten that ends a literal; nothing at all stands for the power zero. -/
def readPower : List Char → Option Int
  | [] => some 0
  | c :: cs =>
    if c = 'e' ∨ c = 'E' then
      let (neg, ds) := splitSign cs
      if ds.isEmpty || !ds.all Char.isDigit then none
      else some (if neg then -powerValue ds else powerValue ds)
    else none

/-- An unsigned literal of digits. -/
def readDigits (cs : List Char) : Option Decimal :=
  let whole := cs.takeWhile Char.isDigit
  let rest := cs.dropWhile Char.isDigit
  let (part, rest) := match rest with
    | '.' :: rest => (rest.takeWhile Char.isDigit, rest.dropWhile Char.isDigit)
    | rest => ([], rest)
  if whole.isEmpty && part.isEmpty then none
  else (readPower rest).map fun e => ⟨digitValue (whole ++ part), e - part.length⟩

/-- An unsigned literal, with the sign that goes before it. -/
def readUnsigned (neg : Bool) (cs : List Char) : Option Binary64 :=
  match cs.map Char.toLower with
  | ['i', 'n', 'f'] => some (.inf neg)
  | ['i', 'n', 'f', 'i', 'n', 'i', 't', 'y'] => some (.inf neg)
  | ['n', 'a', 'n'] => some .nan
  | _ => (readDigits cs).map (nearest neg)

/-- Reads a number. -/
def read (s : String) : Except LiteralError Binary64 :=
  if s.isEmpty then .error .empty
  else
    let (neg, cs) := splitSign s.toList
    match readUnsigned neg cs with
    | some x => .ok x
    | none => .error .invalid

end FriBound.Decimal
