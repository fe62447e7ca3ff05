namespace Lexicon

/-! A word is its bytes. An entry gives a word a value of four bits. -/

abbrev Word := List UInt8

def isPrintable (byte : UInt8) : Bool :=
  0x20 ≤ byte && byte < 0x7F

/-- Largest value that an entry can carry. -/
def maxValue : UInt8 := 15

structure Entry where
  word : Word
  value : UInt8
deriving DecidableEq, Repr, Inhabited

namespace Entry

/-- Entries are listed by the bytes of their words, a word before its
extensions, and entries of one word by their values. -/
def order (left right : Entry) : Ordering :=
  (compare left.word right.word).then (compare left.value right.value)

def le (left right : Entry) : Bool :=
  (order left right).isLE

def sort (entries : List Entry) : List Entry :=
  entries.mergeSort le

theorem sort_perm (entries : List Entry) : (sort entries).Perm entries :=
  List.mergeSort_perm entries le

end Entry

/-! A word with its value is spelled as its characters followed by the value. -/

inductive Symbol where
  | char (byte : UInt8)
  | value (value : UInt8)
deriving DecidableEq, Hashable, Repr

def Entry.spelling (entry : Entry) : List Symbol :=
  entry.word.map .char ++ [.value entry.value]

end Lexicon
