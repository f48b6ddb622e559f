import FriBound.Binary64.Elementary
import FriBound.Decimal.Literal
import FriBound.Decimal.Rounded
import FriBound.LogBound
import FriBound.Message
import FriBound.Numeral
import FriBound.Schedule
import FriBound.Text.Blank
import FriBound.Text.Pieces
import FriBound.Text.Table

/-!
# The command line

`soundness` shows the parts of the bound for a small reference instance (`reference`), how the
bound depends on the rate and the number of queries (`sweep`), both of these (no argument), or the
parts of the bound for parameters of the caller's choice (`custom`).

`Request.ofArgs` reads the arguments and `Request.report` answers; `run` puts the two together.
What the parameters of a caller are worth is not checked while reading: parameters that describe no
instance are answered all the same, with a warning.
-/

namespace FriBound.Command

/-! ### Arguments -/

/-- The arguments of `custom`. -/
inductive Argument where
  | rateBits
  | codewordSizeBits
  | m
  | fieldSizeBits
  | numQueries
  | arityBits
  deriving DecidableEq, Repr

/-- What is wrong with the arguments. -/
inductive UsageError where
  /-- The first argument is no option. -/
  | unknownOption (option : String)
  /-- The option `custom` has six arguments. -/
  | argumentCount (count : Nat)
  /-- The argument is no whole number of its range. -/
  | numeral (argument : Argument) (why : NumeralError)
  /-- The argument is no number. -/
  | literal (argument : Argument) (why : Decimal.LiteralError)
  deriving DecidableEq, Repr

/-- What is asked for. -/
inductive Request where
  | overview
  | reference
  | sweep
  | custom (p : Params Binary64)
  deriving DecidableEq

/-- A whole number of a range. -/
def readNumeral (argument : Argument) (range : WordRange) (cs : List Char) :
    Except UsageError Int :=
  (range.read cs).mapError (.numeral argument)

/-- The numbers of a list with commas. Empty entries are left out, and white space around a number
does not count. -/
def readArities (cs : List Char) : Except UsageError (List UInt64) :=
  (Text.pieces ',' cs).mapM fun piece =>
    (readNumeral .arityBits .uint64 (Text.trim piece)).map fun n => .ofNat n.toNat

/-- The parameters of `custom`. The first argument that cannot be read is reported. -/
def readParams : List String → Except UsageError (Params Binary64)
  | [rateBits, codewordSizeBits, m, fieldSizeBits, numQueries, arityBits] => do
    let rateBits ← readNumeral .rateBits .int32 rateBits.toList
    let codewordSizeBits ← readNumeral .codewordSizeBits .int32 codewordSizeBits.toList
    let m ← (Decimal.read m).mapError (.literal .m)
    let fieldSizeBits ← readNumeral .fieldSizeBits .int32 fieldSizeBits.toList
    let numQueries ← readNumeral .numQueries .uint64 numQueries.toList
    let arityBits ← readArities arityBits.toList
    return {
      numFunctions := 1
      rateBits := .ofInt rateBits
      codewordSizeBits := .ofInt codewordSizeBits
      m
      arityBits
      numRounds := arityBits.length
      fieldSizeBits := .ofInt fieldSizeBits
      numQueries := .ofNat numQueries.toNat }
  | args => .error (.argumentCount args.length)

/-- The request of a list of arguments. Only `custom` looks beyond the first one. -/
def Request.ofArgs : List String → Except UsageError Request
  | [] => .ok .overview
  | option :: args =>
    if option = "reference" then .ok .reference
    else if option = "sweep" then .ok .sweep
    else if option = "custom" then (readParams args).map .custom
    else .error (.unknownOption option)

/-! ### Cells -/

/-- A bound with four digits, or why there is none. -/
def boundCell (bound : Except (BoundError Binary64) Binary64) : String :=
  match bound with
  | .ok x => Decimal.scientific 3 x
  | .error e => e.message

/-- Bits of security with two places, or why there are none. -/
def bitsCell (bits : Except (BoundError Binary64) Binary64) : String :=
  match bits with
  | .ok x => Decimal.fixed 2 x
  | .error e => e.message

/-- A part of the bound with seven digits. -/
def termCell (x : Binary64) : String := Decimal.scientific 6 x

/-! ### The reference instance -/

/-- A small instance that can be checked by hand. -/
def referenceParams : Params Binary64 where
  numFunctions := 1
  rateBits := 1
  codewordSizeBits := 20
  m := .ofInt 4
  arityBits := [2, 2, 2]
  numRounds := 3
  fieldSizeBits := 128
  numQueries := 80

/-- A finite number with at least one place. -/
def placedText (x : Binary64) : String :=
  let text := Decimal.display x
  if text.toList.contains '.' then text else text ++ ".0"

/-- All parameters in a line. -/
def paramsText (p : Params Binary64) : String :=
  "FriSoundnessParams \x7b num_functions: " ++ toString p.numFunctions
    ++ ", rate_bits: " ++ toString p.rateBits.toInt
    ++ ", codeword_size_bits: " ++ toString p.codewordSizeBits.toInt
    ++ ", m: " ++ placedText p.m
    ++ ", arity_bits: [" ++ ", ".intercalate (p.arityBits.map fun a => toString a.toNat)
    ++ "], num_rounds: " ++ toString p.numRounds
    ++ ", field_size_bits: " ++ toString p.fieldSizeBits.toInt
    ++ ", num_queries: " ++ toString p.numQueries.toNat ++ " \x7d"

/-- The parts of the bound for the reference instance. -/
def referenceTable (p : Params Binary64) : Text.Table :=
  [["rho", "alpha", "term_1", "term_2", "term_3", "total", "bits"],
    match p.terms with
    | .ok t => [Decimal.display t.rate, Decimal.fixed 6 t.alpha, termCell t.proximity,
        termCell t.folding, termCell t.query, termCell t.total, bitsCell p.securityBits]
    | .error e => [e.message]]

/-- The reference instance and its bound. -/
def referenceText : String :=
  "\n🔔 Reference: " ++ paramsText referenceParams ++ "\n"
    ++ (referenceTable referenceParams).draw

/-! ### The sweep -/

/-- The logarithm of the degree of the swept instances. -/
def sweepDegreeBits : Nat := 20

/-- The proximity parameter of the swept instances. -/
def sweepM : Binary64 := .ofInt 3

/-- A swept instance: it folds by eight until the polynomial has a degree below eight. -/
def sweepParams (field : CurveField) (rateBits : Nat) (numQueries : UInt64) : Params Binary64 where
  numFunctions := 1
  rateBits := .ofNat rateBits
  codewordSizeBits := .ofNat (sweepDegreeBits + rateBits)
  m := sweepM
  arityBits := List.replicate (sweepDegreeBits / 3) 3
  numRounds := sweepDegreeBits / 3
  fieldSizeBits := .ofNat field.sizeBits
  numQueries

/-- The swept instances over a field. -/
def sweepBatch (field : CurveField) : List (Params Binary64) :=
  [1, 2, 3, 4].flatMap fun rateBits => [20, 40, 80, 120].map (sweepParams field rateBits)

/-- The bounds of the swept instances over a field. -/
def sweepTable (field : CurveField) : Text.Table :=
  let batch := sweepBatch field
  ["|F| bits", "rate_bits", "queries", "bound", "bits"]
    :: (batch.zip (bounds batch)).map fun (p, bound) =>
      [toString field.sizeBits, toString p.rateBits.toInt, toString p.numQueries.toNat,
        boundCell bound, bitsCell p.securityBits]

/-- The sweep over a field that is called by a name. -/
def sweepFieldText (name : String) (field : CurveField) : String :=
  "\n🔔 " ++ name ++ " (degree 2^" ++ toString sweepDegreeBits
    ++ ", m = " ++ Decimal.display sweepM ++ ")\n" ++ (sweepTable field).draw

/-- The sweep over the scalar field and over the quadratic extension. -/
def sweepText : String := sweepFieldText "Fr" .fr ++ sweepFieldText "Fq2" .fq2

/-! ### Parameters of the caller's choice -/

/-- The parts of the bound. Where they cannot all be computed, the reason stands in place of the
bound. -/
def customTable (p : Params Binary64) : Text.Table :=
  [["term_1", "term_2", "term_3", "bound", "bits"],
    match p.terms with
    | .ok t => [termCell t.proximity, termCell t.folding, termCell t.query, boundCell p.bound,
        bitsCell p.securityBits]
    | .error e => ["-", "-", "-", e.message, bitsCell p.securityBits]]

/-- The warning that the parameters describe no instance. -/
def warningText (p : Params Binary64) : String :=
  match p.validate with
  | .ok () => ""
  | .error e => "Warning: " ++ e.message ++ "\n"

/-! ### Answers -/

/-- What a run leaves behind: its exit status and the text on both streams. -/
structure Outcome where
  exit : Nat
  out : String
  err : String
  deriving DecidableEq, Repr

/-- The answer to a request. -/
def Request.report : Request → Outcome
  | overview => ⟨0, referenceText ++ sweepText, ""⟩
  | reference => ⟨0, referenceText, ""⟩
  | sweep => ⟨0, sweepText, ""⟩
  | custom p => ⟨0, (customTable p).draw, warningText p⟩

/-- What an argument is called. -/
def Argument.name : Argument → String
  | rateBits => "rate_bits"
  | codewordSizeBits => "codeword_size_bits"
  | m => "m"
  | fieldSizeBits => "field_size_bits"
  | numQueries => "num_queries"
  | arityBits => "arity_bits"

/-- Why a text is no whole number. -/
def numeralMessage : NumeralError → String
  | .empty => "cannot parse integer from empty string"
  | .invalidDigit => "invalid digit found in string"
  | .tooLarge => "number too large to fit in target type"
  | .tooSmall => "number too small to fit in target type"

/-- Why a text is no number. -/
def literalMessage : Decimal.LiteralError → String
  | .empty => "cannot parse float from empty string"
  | .invalid => "invalid float literal"

/-- What is printed about wrong arguments. The usage line of the program gives the name that the
program was called by; `run` is not told this name, which is `soundness` here. -/
def UsageError.message : UsageError → String
  | unknownOption option =>
    "Unknown option: " ++ option ++ "\nUsage: soundness [reference|sweep|custom <rate_bits> "
      ++ "<codeword_size_bits> <m> <field_size_bits> <num_queries> <arity_bits,...>]\n"
  | argumentCount count => "Error: custom expects 6 arguments, got " ++ toString count ++ "\n"
  | numeral argument why => "Error: parsing " ++ argument.name ++ ": " ++ numeralMessage why ++ "\n"
  | literal argument why => "Error: parsing " ++ argument.name ++ ": " ++ literalMessage why ++ "\n"

/-- Runs the command on its arguments. -/
def run (args : List String) : Outcome :=
  match Request.ofArgs args with
  | .ok request => request.report
  | .error e => ⟨1, "", e.message⟩

end FriBound.Command
