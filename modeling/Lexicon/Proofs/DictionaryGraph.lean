import Lexicon.Proofs.Dictionary
import Lexicon.Proofs.Trie.Search
import Mathlib

namespace Lexicon.Dictionary

/-! The graph of a dictionary has its words, and as few nodes as a graph of these
words can have. -/

variable {dictionary : Dictionary} {entries : List Entry}

theorem symbol?_of_find? {trie : Trie} {start : List Symbol} {symbol : Symbol} {index : Nat}
    (h : trie.find? (start ++ [symbol]) = some index) : trie.symbol? index = some symbol := by
  rw [Trie.find?_concat, Option.bind_eq_some_iff] at h
  obtain ⟨_, _, hchild⟩ := h
  exact (Trie.child?_eq_some hchild).2

namespace Holds

/-- The path to a node with a symbol is the beginning of some spelling. -/
theorem exists_path (holds : dictionary.Holds entries) {index : Nat} {symbol : Symbol}
    (hsymbol : dictionary.trie.symbol? index = some symbol) :
    ∃ start, dictionary.trie.find? (start ++ [symbol]) = some index ∧
      ∃ entry ∈ entries, start ++ [symbol] <+: entry.spelling := by
  obtain ⟨path, hpath⟩ := holds.tree.exists_path (Trie.lt_of_symbol? hsymbol)
  rcases List.eq_nil_or_concat path with rfl | ⟨start, last, rfl⟩
  · cases hpath
    rw [holds.tree.root] at hsymbol
    cases hsymbol
  · rw [List.concat_eq_append] at hpath
    cases Option.some.inj (hsymbol.symm.trans (symbol?_of_find? hpath))
    refine ⟨start, hpath, ?_⟩
    rcases (holds.has _).mp (Option.isSome_iff_exists.mpr ⟨index, hpath⟩) with hnil | hentry
    · simp at hnil
    · exact hentry

theorem path_to_child (holds : dictionary.Holds entries) {index child : Nat} {path : List Symbol}
    {symbol : Symbol} (hpath : dictionary.trie.find? path = some index)
    (hchild : child ∈ dictionary.trie.children index)
    (hsymbol : dictionary.trie.symbol? child = some symbol) :
    ∃ entry ∈ entries, path ++ [symbol] <+: entry.spelling := by
  have hfind : dictionary.trie.find? (path ++ [symbol]) = some child := by
    rw [Trie.find?_concat, hpath]
    exact holds.tree.child?_of_mem hchild hsymbol
  rcases (holds.has _).mp (Option.isSome_iff_exists.mpr ⟨child, hfind⟩) with hnil | hentry
  · simp at hnil
  · exact hentry

/-- No two values stand behind one word. -/
theorem symbol_of_letter? (holds : dictionary.Holds entries) {index first second : Nat}
    (hfirst : first ∈ dictionary.trie.children index)
    (hsecond : second ∈ dictionary.trie.children index)
    (h : dictionary.trie.letter? first = dictionary.trie.letter? second) :
    dictionary.trie.symbol? first = dictionary.trie.symbol? second := by
  obtain ⟨symbol, hsymbol⟩ := holds.tree.symbol_of_child hfirst
  obtain ⟨other, hother⟩ := holds.tree.symbol_of_child hsecond
  rw [Trie.letter?, Trie.letter?, hsymbol, hother] at h
  cases symbol with
  | char byte =>
      cases other with
      | char found =>
          cases h
          rw [hsymbol, hother]
      | value v => cases h
  | value v =>
      cases other with
      | char found => cases h
      | value found =>
          have hlt := Nat.lt_trans (Trie.lt_of_mem_children hfirst).1
            (Trie.lt_of_mem_children hfirst).2
          obtain ⟨path, hpath⟩ := holds.tree.exists_path hlt
          obtain ⟨entry, hentry, hprefix⟩ := holds.path_to_child hpath hfirst hsymbol
          obtain ⟨twin, htwin, htwinPrefix⟩ := holds.path_to_child hpath hsecond hother
          have hspelling := Entry.concat_value_prefix_iff.mp hprefix
          have htwinSpelling := Entry.concat_value_prefix_iff.mp htwinPrefix
          have hword : entry.word.map Symbol.char = twin.word.map Symbol.char :=
            (List.append_inj' hspelling rfl).1.symm.trans (List.append_inj' htwinSpelling rfl).1
          have hchar : Function.Injective Symbol.char := fun _ _ heq => Symbol.char.inj heq
          cases holds.eq_of_word hentry htwin (List.map_injective_iff.mpr hchar hword)
          have hlast := hspelling.trans htwinSpelling.symm
          rw [hsymbol, hother]
          exact congrArg some (List.cons.inj (List.append_inj' hlast rfl).2).1

theorem lawful (holds : dictionary.Holds entries) : dictionary.trie.Lawful where
  toIsTree := holds.tree
  printable := by
    intro index byte hsymbol
    obtain ⟨start, _, entry, hentry, hprefix⟩ := holds.exists_path hsymbol
    have hmem := hprefix.subset (List.mem_append_right _ List.mem_cons_self)
    exact (holds.fits entry hentry).printable byte (Entry.mem_spelling_char.mp hmem)
  small := by
    intro index v hsymbol
    obtain ⟨start, _, entry, hentry, hprefix⟩ := holds.exists_path hsymbol
    have hmem := hprefix.subset (List.mem_append_right _ List.mem_cons_self)
    rw [Entry.mem_spelling_value.mp hmem]
    exact (holds.fits entry hentry).small
  single := by
    intro index
    refine List.Nodup.map_on (fun first hfirst second hsecond h => ?_)
      (List.Nodup.of_map _ (holds.tree.distinct index))
    exact List.inj_on_of_nodup_map (holds.tree.distinct index) hfirst hsecond
      (holds.symbol_of_letter? hfirst hsecond h)
  inner := by
    intro index byte hsymbol
    obtain ⟨start, hfind, entry, hentry, hprefix⟩ := holds.exists_path hsymbol
    obtain ⟨symbol, hlonger⟩ := Entry.exists_concat_prefix hprefix
    obtain ⟨child, hchild⟩ := Option.isSome_iff_exists.mp
      ((holds.has _).mpr (.inr ⟨entry, hentry, hlonger⟩))
    rw [Trie.find?_concat, hfind, Option.bind_some] at hchild
    exact List.ne_nil_of_mem (Trie.child?_eq_some hchild).1
  leaf := by
    intro index v hsymbol
    obtain ⟨start, hfind, entry, hentry, hprefix⟩ := holds.exists_path hsymbol
    apply List.eq_nil_iff_forall_not_mem.mpr
    intro child hchild
    obtain ⟨symbol, hchildSymbol⟩ := holds.tree.symbol_of_child hchild
    obtain ⟨other, _, hlonger⟩ := holds.path_to_child hfind hchild hchildSymbol
    have hshorter : start ++ [Symbol.value v] <+: other.spelling :=
      (List.prefix_append _ _).trans hlonger
    rw [← Entry.concat_value_prefix_iff.mp hshorter] at hlonger
    have := hlonger.length_le
    simp at this

theorem reduced_graph (holds : dictionary.Holds entries) : dictionary.graph.Reduced :=
  holds.lawful.reduced_toGraph

theorem get_graph_iff (holds : dictionary.Holds entries) (word : Word) (v : UInt8) :
    dictionary.graph.get word = some v ↔ ⟨word, v⟩ ∈ entries := by
  rw [holds.reduced_graph.get_eq_some_iff, ← holds.has_spelling_iff]
  exact Trie.reads_toGraph_iff holds.tree ⟨word, v⟩

end Holds

/-- What a run of calls comes to: the next call is taken if and only if its entry fits
and its word is not held yet; the count is right; the merge goes through; the graph has
the entries that were taken, and the refused ones have no part in it. -/
theorem addAll_exact (calls : List Entry) :
    (∀ call, ((empty.addAll calls).add call).1 = none ↔
      call.word ≠ [] ∧ (∀ byte ∈ call.word, 0x20 ≤ byte ∧ byte ≤ 0x7E) ∧ call.value ≤ 15 ∧
        ∀ earlier ∈ empty.accepted calls, earlier.word ≠ call.word) ∧
    (empty.addAll calls).count = (empty.accepted calls).length ∧
    (empty.addAll calls).trie.toGraph? = .ok (empty.addAll calls).graph ∧
    (∀ word v, (empty.addAll calls).graph.get word = some v ↔
      ⟨word, v⟩ ∈ empty.accepted calls) ∧
    (empty.addAll calls).graph = (empty.addAll (empty.accepted calls)).graph := by
  have holds := holds_addAll calls
  refine ⟨fun call => ?_, holds.count, holds.tree.toGraph?_eq_ok, holds.get_graph_iff, ?_⟩
  · rw [add_eq_none_iff, holds.fault?_eq_none_iff]
    constructor
    · intro h
      obtain ⟨⟨hnonempty, hprintable, hsmall⟩, hnew⟩ := h
      exact ⟨hnonempty, hprintable, hsmall, hnew⟩
    · intro h
      obtain ⟨hnonempty, hprintable, hsmall, hnew⟩ := h
      exact ⟨⟨hnonempty, hprintable, hsmall⟩, hnew⟩
  · rw [addAll_accepted]

theorem Holds.same_get {other : Dictionary} {order : List Entry} (holds : dictionary.Holds entries)
    (hother : other.Holds order) (perm : order.Perm entries) (word : Word) :
    other.graph.get word = dictionary.graph.get word := by
  ext v
  rw [hother.get_graph_iff, holds.get_graph_iff, perm.mem_iff]

/-- The order of the entries does not matter to the number of nodes. -/
theorem Holds.size_of_perm {other : Dictionary} {order : List Entry}
    (holds : dictionary.Holds entries) (hother : other.Holds order) (perm : order.Perm entries) :
    other.graph.size = dictionary.graph.size :=
  Nat.le_antisymm (hother.reduced_graph.size_le fun word => (holds.same_get hother perm word).symm)
    (holds.reduced_graph.size_le (holds.same_get hother perm))

/-- No graph with the same words has fewer nodes. All nodes are reached, no two of them
have one symbol and the same words behind them, and their number does not depend on the
order of the entries. -/
theorem graph_minimal (h : ofEntries entries = .ok dictionary) :
    (∀ other : Graph, (∀ word, other.get word = dictionary.graph.get word) →
      dictionary.graph.size ≤ other.size) ∧
    (∀ id < dictionary.graph.size, dictionary.graph.Reached id) ∧
    (∀ first second node other, dictionary.graph.node? first = some node →
      dictionary.graph.node? second = some other → node.symbol = other.symbol →
      (∀ word v, dictionary.graph.Reads node.children word v ↔
        dictionary.graph.Reads other.children word v) → first = second) ∧
    (∀ order, order.Perm entries → ∃ permuted, ofEntries order = .ok permuted ∧
      permuted.graph.size = dictionary.graph.size) := by
  have holds := holds_ofEntries h
  have reduced := holds.reduced_graph
  refine ⟨fun other same => reduced.size_le same, reduced.reached, ?_, fun order perm => ?_⟩
  · intro first second node other hfirst hsecond hsymbol same
    exact reduced.eq_of_reads hfirst hsecond hsymbol same
  · obtain ⟨permuted, hpermuted⟩ := exists_ofEntries
      (fun entry hentry => holds.fits entry (perm.mem_iff.mp hentry))
      ((perm.map Entry.word).nodup_iff.mpr holds.distinct)
    exact ⟨permuted, hpermuted, holds.size_of_perm (holds_ofEntries hpermuted) perm⟩

/-- Two words with one end, and a third that the first of them goes on from. -/
def sampleEntries : List Entry :=
  [⟨[0x61, 0x62], 1⟩, ⟨[0x63, 0x62], 1⟩, ⟨[0x61], 2⟩]

def sample : Dictionary :=
  sampleEntries.foldl insert empty

def sampleGraph : Graph where
  nodes := #[.value 1, .char 0x62 [0], .value 2, .char 0x61 [1, 2], .char 0x63 [1]]
  root := [3, 4]
  child_lt := by decide
  root_lt := by decide

theorem ofEntries_sampleEntries : ofEntries sampleEntries = .ok sample :=
  rfl

theorem graph_sample : sample.graph = sampleGraph := by
  apply Graph.ext
  · rw [graph, Trie.nodes_toGraph]
    cbv
  · rw [graph, Trie.root_toGraph]
    cbv

theorem graph_minimal_sample : ∃ dictionary, ofEntries sampleEntries = .ok dictionary ∧
    dictionary.graph.size = 5 ∧
    ∀ other : Graph, (∀ word, other.get word = dictionary.graph.get word) → 5 ≤ other.size := by
  have hsize : sample.graph.size = 5 := by
    rw [graph_sample]
    rfl
  refine ⟨sample, ofEntries_sampleEntries, hsize, fun other same => ?_⟩
  rw [← hsize]
  exact (graph_minimal ofEntries_sampleEntries).1 other same

end Lexicon.Dictionary
