import Lexicon.CArray
import Lexicon.Dictionary
import Lexicon.Packed.Layout
import Lexicon.WordList

namespace Lexicon

/-! From a word list to packed bytes. -/

/-- What a system answers instead of reading or writing a file. -/
inductive FileError where
  | notFound
  | isDirectory
  | notDirectory
  | invalidText
  | other (text : String)
deriving DecidableEq, Repr

namespace FileError

def message : FileError → String
  | .notFound => "No such file or directory (os error 2)"
  | .isDirectory => "Is a directory (os error 21)"
  | .notDirectory => "Not a directory (os error 20)"
  | .invalidText => "stream did not contain valid UTF-8"
  | .other text => text

end FileError

inductive CompileError where
  | file (error : FileError)
  | format (error : FormatError)
  | entry (error : EntryError)
  | encode (error : Packed.EncodeError)
deriving DecidableEq, Repr

namespace CompileError

def message : CompileError → String
  | .file _ => "I/O operation failed"
  | .format error => error.message
  | .entry error => error.message
  | .encode error => error.message

/-- What lies behind the message, where it does not say so itself. -/
def cause? : CompileError → Option String
  | .file error => some error.message
  | _ => none

end CompileError

def packEntries (rounds : Nat) (entries : List Entry) : Except CompileError Packed.Buffer := do
  let dictionary ← (Dictionary.ofEntries entries).mapError .entry
  (Packed.encode dictionary.graph rounds).mapError .encode

def packAsText (rounds : Nat) (preamble : Option String) (entries : List Entry) :
    Except CompileError String := do
  let bytes ← packEntries rounds entries
  pure (CArray.text bytes preamble)

/-- Packs the words of a list, with what goes for both when nothing else is said. -/
def compile (text : String) : Except CompileError Packed.Buffer := do
  let list ← (WordList.parse WordList.defaultAllowed text).mapError .format
  packEntries Packed.defaultRounds list.entries

/-- The word list that a file holds, if it can be read and holds text. -/
def WordList.ofFile (allowed : List UInt8) (content : Except FileError (List UInt8)) :
    Except CompileError WordList := do
  let bytes ← content.mapError .file
  match String.fromUTF8? ⟨bytes.toArray⟩ with
  | none => throw (.file .invalidText)
  | some text => (WordList.parse allowed text).mapError .format

end Lexicon
