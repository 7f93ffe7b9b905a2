import RegularLanguages.CommandLine

/-- Tests words against a regular expression. -/
def main (args : List String) : IO UInt32 := do
  let outcome := RegularLanguages.CommandLine.run args
  IO.print outcome.stdout
  IO.eprint outcome.stderr
  return outcome.code.toUInt32
