import Lexicon.Packed.Layout

namespace Lexicon.CommandLine

/-! The arguments of the command: two paths, and options before, between and behind
them. -/

structure Options where
  infile : String
  outfile : String
  binary : Bool
  rounds : Nat
deriving DecidableEq, Repr

inductive Request where
  | run (options : Options)
  | help
  | version
  | misuse
deriving DecidableEq, Repr

inductive Flag where
  | binary
  | verbose
  | debug
deriving DecidableEq, Repr

structure Arguments where
  paths : List String
  flags : List Flag
  rounds : Option Nat
deriving DecidableEq, Repr

namespace Arguments

def none : Arguments where
  paths := []
  flags := []
  rounds := .none

/-- A number below `2^64`, in decimal digits; a plus sign may come first. -/
def number? (text : List Char) : Option Nat :=
  let digits := match text with
    | '+' :: rest => rest
    | _ => text
  if digits.isEmpty || !digits.all (fun char => '0' ≤ char && char ≤ '9') then
    .none
  else
    let value := digits.foldl (fun value char => 10 * value + (char.toNat - '0'.toNat)) 0
    if value < UInt64.size then some value else .none

/-- No flag may be given twice. -/
def addFlag (arguments : Arguments) (flag : Flag) : Option Arguments :=
  if arguments.flags.contains flag then
    .none
  else
    some { arguments with flags := flag :: arguments.flags }

def addRounds (arguments : Arguments) (text : List Char) : Option Arguments :=
  match arguments.rounds with
  | some _ => .none
  | .none => (number? text).map fun value => { arguments with rounds := some value }

/-- A path has a name, and there are two of them. -/
def addPath (arguments : Arguments) (path : String) : Option Arguments :=
  if path.isEmpty || arguments.paths.length = 2 then
    .none
  else
    some { arguments with paths := arguments.paths ++ [path] }

def addPaths (arguments : Arguments) (paths : List String) : Option Arguments :=
  paths.foldlM addPath arguments

def finish (arguments : Arguments) : Request :=
  match arguments.paths with
  | [infile, outfile] =>
      .run ⟨infile, outfile, arguments.flags.contains .binary,
        arguments.rounds.getD Packed.defaultRounds⟩
  | _ => .misuse

/-- Either the arguments go on, or nothing behind this one matters. -/
abbrev Step := Except Request Arguments

def orMisuse : Option Arguments → Step
  | some arguments => .ok arguments
  | .none => .error .misuse

/-- Options of one letter, several of which can follow one dash. -/
def readShort (arguments : Arguments) : List Char → Step
  | [] => .ok arguments
  | 'h' :: _ => .error .help
  | 'V' :: _ => .error .version
  | 'v' :: rest =>
      match arguments.addFlag .verbose with
      | some arguments => readShort arguments rest
      | .none => .error .misuse
  | _ => .error .misuse

def isOption (text : List Char) : Bool :=
  match text with
  | '-' :: _ :: _ => true
  | _ => false

def roundsName : String := "max-sizing-rounds"

/-- An option without a value behind an equals sign, and not the one that takes its
value from the next argument. -/
def readLong (arguments : Arguments) (name : String) : Step :=
  if name = "bin" then
    orMisuse (arguments.addFlag .binary)
  else if name = "verbose" then
    orMisuse (arguments.addFlag .verbose)
  else if name = "debug" then
    orMisuse (arguments.addFlag .debug)
  else if name = "help" then
    .error .help
  else if name = "version" then
    .error .version
  else
    .error .misuse

/-- One argument that does not need the next one. -/
def readOne (arguments : Arguments) (text : String) : Step :=
  match text.toList with
  | '-' :: '-' :: long =>
      match long.dropWhile (· != '=') with
      | [] => arguments.readLong (String.ofList long)
      | _ :: value =>
          if String.ofList (long.takeWhile (· != '=')) = roundsName then
            orMisuse (arguments.addRounds value)
          else
            .error .misuse
  | '-' :: letter :: rest => arguments.readShort (letter :: rest)
  | _ => orMisuse (arguments.addPath text)

/-- Reads the arguments from the first to the last. Behind two dashes there are only
paths. -/
def readAll (arguments : Arguments) : List String → Request
  | [] => arguments.finish
  | text :: rest =>
      if text = "--" then
        match arguments.addPaths rest with
        | some arguments => arguments.finish
        | .none => .misuse
      else if text = "--" ++ roundsName then
        match rest with
        | [] => .misuse
        | value :: rest =>
            if isOption value.toList then
              .misuse
            else
              match arguments.addRounds value.toList with
              | some arguments => readAll arguments rest
              | .none => .misuse
      else
        match arguments.readOne text with
        | .ok arguments => readAll arguments rest
        | .error request => request

end Arguments

def Request.ofArguments (arguments : List String) : Request :=
  Arguments.none.readAll arguments

end Lexicon.CommandLine
