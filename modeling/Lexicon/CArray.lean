import Lexicon.Packed.Buffer

namespace Lexicon.CArray

/-! Packed words as a C++ array of bytes. -/

def header : String :=
  "/* This file is generated. DO NOT EDIT!\n\n" ++
    "The byte array encodes a dictionary of strings and values. " ++
    "See make-dafsa for documentation.*/\n\n"

def bytesPerLine : Nat := 12

/-- Rows of as many bytes as a line has; the last one can be shorter. -/
def rows : List UInt8 → List (List UInt8)
  | [] => []
  | byte :: rest =>
      (byte :: rest).take bytesPerLine :: rows ((byte :: rest).drop bytesPerLine)
termination_by bytes => bytes.length
decreasing_by
  simp only [List.length_drop, List.length_cons, bytesPerLine]
  omega

def line (row : List UInt8) : String :=
  "  " ++ String.intercalate ", " (row.map Text.hexByte) ++ ",\n"

def declaration (size : Nat) : String :=
  "const unsigned char kDafsa[" ++ toString size ++
    ("] = " ++ String.singleton Text.openBrace ++ "\n")

/-- A preamble stands between the header and the array, if there is one to show. -/
def preambleText : Option String → String
  | none => ""
  | some preamble => if preamble.isEmpty then "" else preamble ++ "\n\n"

def text (bytes : Packed.Buffer) (preamble : Option String) : String :=
  header ++ preambleText preamble ++ declaration bytes.size ++
    String.join ((rows bytes.toList).map line) ++
    (String.singleton Text.closeBrace ++ ";\n")

end Lexicon.CArray
