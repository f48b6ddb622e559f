import FriBound.Command

/-!
# The program

Runs the command on the arguments of the process and hands over what it leaves behind.
-/

/-- The entry point. -/
def main (args : List String) : IO UInt32 := do
  let outcome := FriBound.Command.run args
  IO.print outcome.out
  IO.eprint outcome.err
  return outcome.exit.toUInt32
