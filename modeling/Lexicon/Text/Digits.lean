namespace Lexicon.Text

/-! Bytes in two hexadecimal digits, columns of a fixed width, and the braces by their codes. -/

def lowerDigits : List Char :=
  ['0', '1', '2', '3', '4', '5', '6', '7', '8', '9', 'a', 'b', 'c', 'd', 'e', 'f']

def upperDigits : List Char :=
  ['0', '1', '2', '3', '4', '5', '6', '7', '8', '9', 'A', 'B', 'C', 'D', 'E', 'F']

def hexPair (digits : List Char) (byte : UInt8) : List Char :=
  [digits.getD (byte.toNat / 16) '0', digits.getD (byte.toNat % 16) '0']

def hexByte (byte : UInt8) : String :=
  String.ofList ('0' :: 'x' :: hexPair lowerDigits byte)

def hexByteUpper (byte : UInt8) : String :=
  String.ofList ('0' :: 'x' :: hexPair upperDigits byte)

def padLeft (width : Nat) (text : String) : String :=
  String.ofList (List.replicate (width - text.length) ' ') ++ text

def padRight (width : Nat) (text : String) : String :=
  text ++ String.ofList (List.replicate (width - text.length) ' ')

def openBrace : Char := '\x7b'

def closeBrace : Char := '\x7d'

end Lexicon.Text
