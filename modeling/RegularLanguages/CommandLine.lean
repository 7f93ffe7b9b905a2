import RegularLanguages.CommandLine.Serve
/-!
# Arguments of the command line

The outer layer: arguments are read by the conventions that options usually follow, and what they ask
for is served. Nothing is proved about the reading. A flag or a count that is given again is refused,
but for `-v`, which may be repeated and only asks for log lines; these are not written here. Requests
for help are not read.
-/

namespace RegularLanguages.CommandLine

inductive Flag
  | table | minimize | graph | verbose
deriving DecidableEq

def Flag.ofShort? : Char → Option Flag
  | 't' => some .table
  | 'm' => some .minimize
  | 'v' => some .verbose
  | _ => none

def Flag.ofLong? (arg : String) : Option Flag :=
  if arg = "--table" then some .table
  else if arg = "--minimize" then some .minimize
  else if arg = "--dot" then some .graph
  else if arg = "--verbose" then some .verbose
  else none

/-- What has been read of the arguments. -/
structure Arguments where
  flags : List Flag
  generate : Option Nat
  operands : List String

/-- The number that is written, if it fits a machine word. -/
def count? (cs : List Char) : Option Nat :=
  let digits := if cs.head? = some '+' then cs.tail else cs
  let n := digits.foldl (fun n c => 10 * n + (c.toNat - '0'.toNat)) 0
  if digits.isEmpty ∨ digits.any (!·.isDigit) ∨ UInt64.size ≤ n then none else some n

namespace Arguments

def give (a : Arguments) (f : Flag) : Option Arguments :=
  if f ≠ .verbose ∧ f ∈ a.flags then none else some { a with flags := f :: a.flags }

def giveCount (a : Arguments) (cs : List Char) : Option Arguments :=
  if a.generate.isSome then none else (count? cs).map fun n => { a with generate := some n }

/-- Reads short options that share a dash, and says whether the last one takes its value from the
next argument. -/
def readShort (a : Arguments) : List Char → Option (Arguments × Bool)
  | [] => some (a, false)
  | ['g'] => some (a, true)
  | 'g' :: '=' :: cs => (a.giveCount cs).map (·, false)
  | 'g' :: cs => (a.giveCount cs).map (·, false)
  | c :: cs =>
    match (Flag.ofShort? c).bind a.give with
    | some a => readShort a cs
    | none => none

def longGenerate : List Char := "--generate=".toList

/-- Reads one argument, and says whether it takes its value from the next one. -/
def readOne (a : Arguments) (arg : String) : Option (Arguments × Bool) :=
  if arg = "--generate" then some (a, true)
  else if longGenerate.isPrefixOf arg.toList then
    (a.giveCount (arg.toList.drop longGenerate.length)).map (·, false)
  else
    match Flag.ofLong? arg, arg.toList with
    | some f, _ => (a.give f).map (·, false)
    | none, '-' :: c :: cs => a.readShort (c :: cs)
    | none, _ => some ({ a with operands := a.operands ++ [arg] }, false)

def read (a : Arguments) : List String → Option Arguments
  | [] => some a
  | "--" :: args => some { a with operands := a.operands ++ args }
  | arg :: args =>
    match a.readOne arg, args with
    | some (a, false), args => a.read args
    | some (a, true), value :: args =>
      match a.giveCount value.toList with
      | some a => a.read args
      | none => none
    | _, _ => none

/-- The first operand is the expression, the others are words. -/
def request? (a : Arguments) : Option Request :=
  match a.operands with
  | [] => none
  | expr :: words =>
    some
      { expr
        words
        table := .table ∈ a.flags
        minimize := .minimize ∈ a.flags
        generate := a.generate
        graph := .graph ∈ a.flags }

end Arguments

def usage : String :=
  "usage: [-t|--table] [-m|--minimize] [-g|--generate N] [--dot] [-v|--verbose] EXPR [WORD]..."

def run (args : List String) : Outcome :=
  match (Arguments.read ⟨[], none, []⟩ args).bind Arguments.request? with
  | some r => serve r
  | none => failure usage

end RegularLanguages.CommandLine
