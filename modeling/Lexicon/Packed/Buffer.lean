import Lexicon.Text.Digits

namespace Lexicon.Packed

/-! The packed form of a word graph: a link run for the root, then the nodes,
each a label and, unless the label ends a word, a link run of its own. -/

abbrev Buffer := Array UInt8

inductive DecodeError where
  | empty
  | truncated (position : Nat)
  | backwardLink (position target : Nat)
  | outOfBounds (position target : Nat)
  | unexpectedByte (position : Nat) (byte : UInt8)
deriving DecidableEq, Repr

namespace DecodeError

def message : DecodeError → String
  | .empty => "the buffer is empty"
  | .truncated position =>
      "data starting at " ++ toString position ++ " runs past the end of the buffer"
  | .backwardLink position target =>
      "link at " ++ toString position ++ " points back to " ++ toString target
  | .outOfBounds position target =>
      "link at " ++ toString position ++ " points to " ++ toString target ++
        ", past the end of the buffer"
  | .unexpectedByte position byte =>
      "unexpected byte " ++ Text.hexByte byte ++ " at " ++ toString position

end DecodeError

end Lexicon.Packed
