import Lexicon.Text.Digits
import Lexicon.Text.Quoted
import Lexicon.Text.Utf8
import Lexicon.Trie.Merge

namespace Lexicon

/-! A dictionary takes words one by one, each with its value, and refuses those
that it cannot hold. -/

inductive EntryError where
  | emptyWord
  | invalidChar (word : Word) (byte : UInt8)
  | invalidValue (word : Word) (value : UInt8)
  | duplicate (word : Word)
deriving DecidableEq, Repr

namespace EntryError

def message : EntryError → String
  | .emptyWord => "empty word"
  | .invalidChar word byte =>
      Text.quote (Text.shown word) ++ " contains byte " ++ Text.hexByte byte ++
        ", which is not printable 7-bit ASCII"
  | .invalidValue word v =>
      "value " ++ toString v ++ " of " ++ Text.quote (Text.shown word) ++
        " is out of range 0..=15"
  | .duplicate word => Text.quote (Text.shown word) ++ " was added twice"

end EntryError

structure Dictionary where
  trie : Trie
  count : Nat
deriving Repr

namespace Dictionary

def empty : Dictionary where
  trie := .empty
  count := 0

instance : Inhabited Dictionary := ⟨empty⟩

def fault? (dictionary : Dictionary) (entry : Entry) : Option EntryError :=
  if entry.word.isEmpty then
    some .emptyWord
  else
    match entry.word.find? fun byte => !isPrintable byte with
    | some byte => some (.invalidChar entry.word byte)
    | none =>
        if maxValue < entry.value then
          some (.invalidValue entry.word entry.value)
        else if dictionary.trie.contains entry.word then
          some (.duplicate entry.word)
        else
          none

def insert (dictionary : Dictionary) (entry : Entry) : Dictionary where
  trie := dictionary.trie.insert entry.spelling
  count := dictionary.count + 1

/-- Adds an entry, unless it is refused; then the dictionary stays as it is. -/
def add (dictionary : Dictionary) (entry : Entry) : Option EntryError × Dictionary :=
  match dictionary.fault? entry with
  | some error => (some error, dictionary)
  | none => (none, dictionary.insert entry)

def add? (dictionary : Dictionary) (entry : Entry) : Except EntryError Dictionary :=
  match dictionary.add entry with
  | (some error, _) => .error error
  | (none, grown) => .ok grown

def ofEntries (entries : List Entry) : Except EntryError Dictionary :=
  entries.foldlM add? empty

/-- The smallest graph with the words of the dictionary. -/
def graph (dictionary : Dictionary) : Graph :=
  dictionary.trie.toGraph

end Dictionary

end Lexicon
