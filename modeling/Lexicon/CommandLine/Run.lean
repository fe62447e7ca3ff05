import Lexicon.CommandLine.Arguments
import Lexicon.Files

namespace Lexicon.CommandLine

/-! A run of the command: the exit code, what it reports, and the files it leaves. -/

structure Outcome where
  code : Nat
  messages : List String
deriving DecidableEq, Repr

namespace Outcome

def success : Outcome := ⟨0, []⟩

def misuse : Outcome := ⟨2, []⟩

def failure (error : CompileError) : Outcome where
  code := 1
  messages :=
    ("make-dafsa: " ++ error.message) ::
      error.cause?.toList.map fun cause => "  caused by: " ++ cause

end Outcome

namespace Options

/-- What the output file is to hold, from what the input file holds. -/
def output (options : Options) (content : Except FileError (List UInt8)) :
    Except CompileError (List UInt8) := do
  let list ← WordList.ofFile WordList.defaultAllowed content
  let bytes ← packEntries options.rounds list.entries
  pure <|
    if options.binary then
      bytes.toList
    else
      Text.bytes (CArray.text bytes (some list.preamble))

/-- The output file is only touched when all that it is to hold is known. -/
def run (options : Options) (files : Files) : Outcome × Files :=
  match options.output (files.read options.infile) with
  | .error error => (.failure error, files)
  | .ok content =>
      match files.write options.outfile content with
      | .error error => (.failure (.file error), files)
      | .ok written => (.success, written)

end Options

def run (arguments : List String) (files : Files) : Outcome × Files :=
  match Request.ofArguments arguments with
  | .run options => options.run files
  | .help => (.success, files)
  | .version => (.success, files)
  | .misuse => (.misuse, files)

end Lexicon.CommandLine
