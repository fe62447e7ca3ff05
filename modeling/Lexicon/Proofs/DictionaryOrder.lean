import Lexicon.Proofs.DictionaryGraph
import Lexicon.Proofs.Trie.Numbering

namespace Lexicon.Dictionary

open Spelling (continuations firsts number walk)

/-! The order of the nodes and of their children is that of the entries. -/

variable {dictionary : Dictionary} {entries : List Entry}

theorem closed_spellings (entries : List Entry) : Spelling.Closed (entries.map Entry.spelling) := by
  intro start symbol rest hmem
  obtain ⟨entry, _, hentry⟩ := List.mem_map.mp hmem
  constructor
  · rintro rfl
    obtain ⟨_, hlast⟩ := List.append_inj' hentry rfl
    exact ⟨entry.value, (List.cons.inj hlast).1.symm⟩
  · rintro ⟨v, rfl⟩
    have hprefix : start ++ [.value v] <+: entry.spelling :=
      ⟨rest, by rw [hentry, List.append_assoc, List.singleton_append]⟩
    rw [← Entry.concat_value_prefix_iff.mp hprefix] at hentry
    exact (List.cons.inj (List.append_cancel_left hentry)).2.symm

theorem trie_of_add? {entry : Entry} {grown : Dictionary} (h : dictionary.add? entry = .ok grown) :
    grown.trie = dictionary.trie.insert entry.spelling := by
  obtain ⟨hnone, hgrown⟩ := add_of_add? h
  rw [← hgrown, Dictionary.add, add_eq_none_iff.mp hnone]
  rfl

theorem Holds.ordered_foldlM_add? (holds : dictionary.Holds entries)
    (ordered : dictionary.trie.Ordered (entries.map Entry.spelling)) {calls : List Entry}
    {grown : Dictionary} (h : calls.foldlM add? dictionary = .ok grown) :
    grown.trie.Ordered ((entries ++ calls).map Entry.spelling) := by
  induction calls generalizing dictionary entries with
  | nil =>
      cases h
      rwa [List.append_nil]
  | cons call rest ih =>
      rw [List.foldlM_cons] at h
      cases hcall : dictionary.add? call with
      | error error =>
          rw [hcall] at h
          cases h
      | ok next =>
          rw [hcall] at h
          have hone : [call].foldlM add? dictionary = .ok next := by
            rw [List.foldlM_cons, hcall]
            rfl
          have hordered : next.trie.Ordered ((entries ++ [call]).map Entry.spelling) := by
            rw [trie_of_add? hcall, List.map_append]
            exact ordered.insert holds.tree call.spelling
          have hrest := ih (holds.foldlM_add? hone) hordered h
          rwa [List.append_assoc] at hrest

theorem ordered_ofEntries (h : ofEntries entries = .ok dictionary) :
    dictionary.trie.Ordered (entries.map Entry.spelling) :=
  holds_empty.ordered_foldlM_add? Trie.ordered_empty h

/-- A walk over all beginnings of the spellings, deepest first and in the order in which the
entries show them, meets the classes of the beginnings one after the other. They are the nodes of
the graph in this order. The children of a node are the classes that the first beginning of its
own class goes on to, in the order in which it does. -/
theorem graph_numbered (h : ofEntries entries = .ok dictionary) :
    dictionary.graph.size = (firsts (entries.map Entry.spelling)).length ∧
    (∀ id path, (firsts (entries.map Entry.spelling))[id]? = some path →
      ∃ symbol, path.getLast? = some symbol ∧ dictionary.graph.node? id =
        some (symbol.node ((continuations (entries.map Entry.spelling) path).map fun next =>
          number (entries.map Entry.spelling) (path ++ [next])))) ∧
    dictionary.graph.root = ((continuations (entries.map Entry.spelling) []).map fun next =>
      number (entries.map Entry.spelling) [next]) ∧
    ∀ path, path ∈ walk (entries.map Entry.spelling) ↔
      path ≠ [] ∧ ∃ entry ∈ entries, path <+: entry.spelling := by
  have holds := holds_ofEntries h
  obtain ⟨hsize, hnode, hroot⟩ :=
    (ordered_ofEntries h).toGraph_eq holds.tree (closed_spellings entries)
  refine ⟨hsize, fun id path hpath => ?_, hroot, fun path => ?_⟩
  · have hmem := Spelling.mem_of_mem_leaders (List.mem_of_getElem? hpath)
    obtain ⟨symbol, walked⟩ := Spelling.exists_walked hmem
    refine ⟨symbol, walked.last, (hnode id path hpath).trans ?_⟩
    rw [Spelling.node?, walked.last]
    rfl
  · rw [Spelling.mem_walk_iff]
    refine and_congr_right fun _ => ⟨?_, ?_⟩
    · rintro ⟨rest, hrest⟩
      obtain ⟨entry, hentry, hspelling⟩ := List.mem_map.mp hrest
      exact ⟨entry, hentry, rest, hspelling.symm⟩
    · rintro ⟨entry, hentry, rest, hrest⟩
      exact ⟨rest, hrest ▸ List.mem_map_of_mem hentry⟩

/-- Two prefixes of one class, of which the second goes on in another order. -/
def crossedEntries : List Entry :=
  [⟨[0x6B, 0x61], 1⟩, ⟨[0x6B, 0x62], 1⟩, ⟨[0x78, 0x6B, 0x62], 1⟩, ⟨[0x78, 0x6B, 0x61], 1⟩]

theorem graph_numbered_crossed : ∃ dictionary, ofEntries crossedEntries = .ok dictionary ∧
    firsts (crossedEntries.map Entry.spelling) =
      [[.char 0x6B, .char 0x61, .value 1], [.char 0x6B, .char 0x61], [.char 0x6B, .char 0x62],
        [.char 0x6B], [.char 0x78]] ∧
    continuations (crossedEntries.map Entry.spelling) [.char 0x78, .char 0x6B] =
      [.char 0x62, .char 0x61] ∧
    dictionary.graph.size = 5 ∧ dictionary.graph.node? 3 = some (.char 0x6B [1, 2]) ∧
    dictionary.graph.node? 4 = some (.char 0x78 [3]) ∧ dictionary.graph.root = [3, 4] := by
  have haccepted : ofEntries crossedEntries = .ok (crossedEntries.foldl insert empty) := rfl
  have hfirsts : firsts (crossedEntries.map Entry.spelling) =
      [[.char 0x6B, .char 0x61, .value 1], [.char 0x6B, .char 0x61], [.char 0x6B, .char 0x62],
        [.char 0x6B], [.char 0x78]] := by cbv
  obtain ⟨hsize, hnode, hroot, _⟩ := graph_numbered haccepted
  rw [hfirsts] at hsize hnode
  obtain ⟨_, hlastThree, hthree⟩ := hnode 3 _ rfl
  obtain ⟨_, hlastFour, hfour⟩ := hnode 4 _ rfl
  cases hlastThree
  cases hlastFour
  refine ⟨_, haccepted, hfirsts, ?_, hsize, hthree.trans ?_, hfour.trans ?_, hroot.trans ?_⟩
  · cbv
  · cbv
  · cbv
  · cbv

end Lexicon.Dictionary
