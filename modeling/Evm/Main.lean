import Evm.Cli

/-!
# Program

The command line with its channels.
-/

def main (args : List String) : IO UInt32 := do
  let fork ← IO.getEnv "FORK"
  let gas ← IO.getEnv "GAS"
  let report := Evm.Cli.run args fork gas
  IO.print report.stdout
  IO.eprint report.stderr
  return UInt32.ofNat report.exitCode
