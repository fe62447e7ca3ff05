import Lexicon.Text.Digits
import Lexicon.Text.Hidden

namespace Lexicon.Text

/-! Quoted text. A character that would not be seen is written as its number. -/

/-- `\u` and the number of the character in braces, with no leading zeros. -/
def numbered (char : Char) : List Char :=
  '\\' :: 'u' :: openBrace :: Nat.toDigits 16 char.toNat ++ [closeBrace]

/-- One character between quotes of the given kind. -/
def escape (quote char : Char) : List Char :=
  if char = '\t' then
    ['\\', 't']
  else if char = '\r' then
    ['\\', 'r']
  else if char = '\n' then
    ['\\', 'n']
  else if char = '\x00' then
    ['\\', '0']
  else if char = '\\' || char = quote then
    ['\\', char]
  else if isHidden char then
    numbered char
  else
    [char]

def quote (text : String) : String :=
  String.ofList ('"' :: text.toList.flatMap (escape '"') ++ ['"'])

def quoteChar (char : Char) : String :=
  String.ofList ('\'' :: escape '\'' char ++ ['\''])

end Lexicon.Text
