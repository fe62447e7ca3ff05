import Lexicon.Word

namespace Lexicon.Packed

/-! A label is a run of plain bytes that a byte with the high bit closes. The
closing byte is the last character of the label, which the links of its node
follow, or it is the value of the word that ends there. -/

inductive LabelByte where
  | char (byte : UInt8)
  | endChar (byte : UInt8)
  | value (value : UInt8)
deriving DecidableEq, Repr

namespace LabelByte

/-- `0x80` to `0x9F` is a value of four bits; every other byte with the high bit
is a closing character. -/
def ofByte (byte : UInt8) : LabelByte :=
  if byte < 0x80 then
    .char byte
  else if byte < 0xA0 then
    .value (byte &&& 0x0F)
  else
    .endChar (byte &&& 0x7F)

def toByte : LabelByte → UInt8
  | .char byte => byte
  | .endChar byte => 0x80 ||| byte
  | .value v => 0x80 ||| v

def production : LabelByte → String
  | .char _ => "<char>"
  | .endChar _ => "<end_char>"
  | .value _ => "<return_value>"

theorem ofByte_toByte_char {byte : UInt8} (h : byte < 0x80) :
    ofByte (toByte (.char byte)) = .char byte :=
  if_pos h

end LabelByte

end Lexicon.Packed
