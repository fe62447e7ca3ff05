import Lexicon.CommandLine.Run

namespace Lexicon.CommandLine

/-! The command on the files of the system. -/

def usage : String :=
  "Usage: make-dafsa [OPTIONS] <INFILE> <OUTFILE>\n\n" ++
    "Compile a word list into a DAFSA byte array\n\n" ++
    "Options:\n" ++
    "      --bin                    Write the raw bytes instead of C++ source\n" ++
    "      --max-sizing-rounds <N>  How many times a link run may be re-sized\n" ++
    "  -v, --verbose                Log progress\n" ++
    "      --debug                  Log every resizing round\n" ++
    "  -h, --help                   Print help\n" ++
    "  -V, --version                Print version\n"

def version : String :=
  "make-dafsa 0.1.0\n"

def fileError : IO.Error → FileError
  | .noFileOrDirectory .. => .notFound
  | .inappropriateType _ code _ => if code = 20 then .notDirectory else .isDirectory
  | error => .other (toString error)

def readFile (path : String) : IO (Except FileError (List UInt8)) := do
  try
    return .ok (← IO.FS.readBinFile path).toList
  catch error =>
    return .error (fileError error)

def writeFile (path : String) (content : List UInt8) : IO (Except FileError Unit) := do
  try
    IO.FS.writeBinFile path ⟨content.toArray⟩
    return .ok ()
  catch error =>
    return .error (fileError error)

def report (outcome : Outcome) : IO UInt32 := do
  for message in outcome.messages do
    IO.eprintln message
  return UInt32.ofNat outcome.code

def runSystem (options : Options) : IO UInt32 := do
  match options.output (← readFile options.infile) with
  | .error error => report (.failure error)
  | .ok content =>
      match ← writeFile options.outfile content with
      | .error error => report (.failure (.file error))
      | .ok () => report .success

def runCommand (arguments : List String) : IO UInt32 := do
  match Request.ofArguments arguments with
  | .run options => runSystem options
  | .help =>
      IO.print usage
      report .success
  | .version =>
      IO.print version
      report .success
  | .misuse =>
      IO.eprint usage
      report .misuse

end Lexicon.CommandLine

def main (arguments : List String) : IO UInt32 :=
  Lexicon.CommandLine.runCommand arguments
