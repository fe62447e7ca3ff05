import Lexicon.Main
import Lexicon.Packed.Entries
import Lexicon.Packed.Links
import Lexicon.Packed.Listing
import Lexicon.Packed.Lookup
import Lexicon.Proofs.Graph.Minimal
import Lexicon.Proofs.DictionaryGraph
import Lexicon.Proofs.Graph.Census
import Lexicon.Proofs.Graph.Release
import Lexicon.Proofs.Packed.Layout
import Lexicon.Proofs.Packed.Label
import Lexicon.Proofs.Packed.Paths
import Lexicon.Proofs.Packed.Lookup
import Lexicon.Proofs.Packed.Sizing
import Lexicon.Proofs.Packed.Listing
import Lexicon.Proofs.Packed.Forward
import Lexicon.Proofs.Word
import Lexicon.Proofs.Packed.Faithful
import Lexicon.Proofs.RoundTrip
import Lexicon.Proofs.Packed.Rounds
import Lexicon.Proofs.Packed.Truncated
import Lexicon.Graph.Sort
import Lexicon.Proofs.Graph.Sort
import Lexicon.Proofs.CArray
import Lexicon.Proofs.Files
import Lexicon.Proofs.CommandLine
import Lexicon.Proofs.Packed.ReadBack
import Lexicon.Proofs.Packed.Enumeration
import Lexicon.Proofs.Packed.Checked
import Lexicon.Proofs.Packed.Capacity
import Lexicon.Proofs.Packed.Guarded.Decoders
import Lexicon.Proofs.Packed.Renaming
import Lexicon.Proofs.DictionaryOrder
import Lexicon.Proofs.WordList
import Lexicon.Proofs.Packed.Cursor
import Lexicon.Proofs.Packed.Places
import Lexicon.Proofs.DictionaryTrie
