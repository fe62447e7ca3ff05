import Lexicon.Text.Blank
import Lexicon.Text.Quoted
import Lexicon.Text.Utf8
import Lexicon.Word

namespace Lexicon

/-! A word list in text form. The lines between the first two lines `%%` hold a word
each, a comma, a blank and a digit; the lines before them are the preamble, and what
comes after them is left alone. -/

inductive FormatError where
  | missingDelimiter
  | malformedLine (line : Nat) (text : String)
  | disallowedValue (line : Nat) (value : Char)
deriving DecidableEq, Repr

namespace FormatError

def message : FormatError → String
  | .missingDelimiter => "expected the word list to be enclosed in a pair of %% lines"
  | .malformedLine line text =>
      "line " ++ toString line ++ ": expected \"word, <digit>\", found " ++ Text.quote text
  | .disallowedValue line v =>
      "line " ++ toString line ++ ": value " ++ Text.quoteChar v ++ " is not allowed"

end FormatError

structure WordList where
  preamble : String
  words : List (String × UInt8)
deriving DecidableEq, Repr, Inhabited

namespace WordList

def delimiter : List Char := ['%', '%']

/-- The values that a list can give a word when nothing else is said. -/
def defaultAllowed : List UInt8 := [0, 1, 2, 4]

def digit? (char : Char) : Option UInt8 :=
  if '0' ≤ char && char ≤ '9' then some (UInt8.ofNat (char.toNat - '0'.toNat)) else none

/-- A trimmed line: a word that is not empty, a comma, a blank and one character more,
which has to be the digit of an allowed value. -/
def parseLine (allowed : List UInt8) (number : Nat) (line : List Char) :
    Except FormatError (String × UInt8) :=
  match line.reverse with
  | char :: ' ' :: ',' :: last :: word =>
      match (digit? char).filter allowed.contains with
      | some v => .ok (String.ofList (last :: word).reverse, v)
      | none => .error (.disallowedValue number char)
  | _ => .error (.malformedLine number (String.ofList line))

def splitDelimiter (lines : List (List Char)) :
    Except FormatError (List (List Char) × List (List Char)) :=
  match lines.dropWhile (· != delimiter) with
  | [] => .error .missingDelimiter
  | _ :: rest => .ok (lines.takeWhile (· != delimiter), rest)

/-- Lines count from 1, over the whole text. -/
def parse (allowed : List UInt8) (text : String) : Except FormatError WordList := do
  let lines := (Text.lines text.toList).map Text.trim
  let (preamble, rest) ← splitDelimiter lines
  let (listed, _) ← splitDelimiter rest
  let words ← (listed.zipIdx (preamble.length + 2)).mapM fun (line, number) =>
    parseLine allowed number line
  pure ⟨String.intercalate "\n" (preamble.map String.ofList), words⟩

def entries (list : WordList) : List Entry :=
  list.words.map fun (word, v) => ⟨Text.bytes word, v⟩

end WordList

end Lexicon
