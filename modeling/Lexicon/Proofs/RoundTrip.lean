import Lexicon.Proofs.DictionaryGraph
import Lexicon.Proofs.Packed.Faithful
import Mathlib

namespace Lexicon

/-! From entries to packed bytes and back. -/

namespace Packed

variable {buffer : Buffer} {graph : Graph} {rounds : Nat}

theorem paths_of_encode (labelled : graph.WellLabelled) (h : encode graph rounds = .ok buffer) :
    Throughout buffer DistinctFirst 0 ∧
      ∀ key v, ⟨key, v⟩ ∈ paths buffer 0 ↔ graph.get key = some v := by
  obtain ⟨start, holds⟩ := exists_holds labelled.namedOnce h
  have frontier := labelled.frontier_root
  refine ⟨holds.throughout labelled frontier holds.root, fun key v => ?_⟩
  rw [holds.mem_paths_iff labelled frontier holds.root, labelled.get_eq_some_iff]

theorem lookup_of_encode (labelled : graph.WellLabelled) (h : encode graph rounds = .ok buffer)
    (key : Word) : lookup buffer key = graph.get key := by
  obtain ⟨throughout, hpaths⟩ := paths_of_encode labelled h
  ext v
  rw [lookup]
  split
  · rw [throughout.lookupFrom_eq_some_iff, hpaths]
  · rename_i hkey
    -- A graph has no word with other characters.
    constructor
    · intro hnone
      cases hnone
    · intro hget
      have hreads := (labelled.get_eq_some_iff key v).mp hget
      exact absurd (labelled.all_isPrintable labelled.frontier_root hreads) hkey

theorem entries_of_encode (labelled : graph.WellLabelled) (h : encode graph rounds = .ok buffer) :
    ∃ found, entries buffer = .ok found ∧
      (found.Pairwise fun left right => left.word < right.word) ∧
      ∀ entry, entry ∈ found ↔ graph.get entry.word = some entry.value := by
  obtain ⟨throughout, hpaths⟩ := paths_of_encode labelled h
  obtain ⟨found, hentries, hperm⟩ := exists_entries throughout
  have hmem : ∀ entry, entry ∈ found ↔ graph.get entry.word = some entry.value := fun entry =>
    hperm.mem_iff.trans (hpaths entry.word entry.value)
  have hdistinct : found.Pairwise fun left right => left.word ≠ right.word := by
    have hnodup : found.Nodup := hperm.nodup_iff.mpr throughout.nodup_paths
    apply hnodup.imp_of_mem
    intro left right hleft hright hne hword
    have hvalue := (hmem left).mp hleft
    rw [hword, (hmem right).mp hright] at hvalue
    apply hne
    cases left
    cases right
    cases hword
    cases hvalue
    rfl
  refine ⟨Entry.sort found, hentries, Entry.pairwise_sort_lt hdistinct, fun entry => ?_⟩
  rw [(Entry.sort_perm found).mem_iff, hmem]

/-- Packing keeps the words of a graph, in whatever way the graph has them. -/
theorem encode_faithful (labelled : graph.WellLabelled) (h : encode graph rounds = .ok buffer) :
    (∀ key, lookup buffer key = graph.get key) ∧
    ∃ found, entries buffer = .ok found ∧
      (found.Pairwise fun left right => left.word < right.word) ∧
      ∀ entry, entry ∈ found ↔ graph.get entry.word = some entry.value :=
  ⟨lookup_of_encode labelled h, entries_of_encode labelled h⟩

/-- A graph that is not minimal: a value and the node above it are there twice, one node
is not reached and could not be packed, and the empty word has a value. -/
def tangled : Graph where
  nodes := #[.value 1, .value 1, .char 0x62 [0], .char 0x62 [1], .char 0xC8 [], .char 0x61 [3, 0]]
  root := [2, 5, 1]
  child_lt := by decide
  root_lt := by decide

theorem mem_of_reached_tangled {id : Nat} (h : tangled.Reached id) : id ∈ [0, 1, 2, 3, 5] := by
  apply h.mem_of_closed
  · decide
  · decide

theorem wellLabelled_tangled : tangled.WellLabelled where
  printable := by
    intro id byte children hid hnode
    have hmem := mem_of_reached_tangled hid
    simp only [List.mem_cons, List.not_mem_nil, or_false] at hmem
    rcases hmem with rfl | rfl | rfl | rfl | rfl <;> cases hnode <;> decide
  small := by
    intro id v hid hnode
    have hmem := mem_of_reached_tangled hid
    simp only [List.mem_cons, List.not_mem_nil, or_false] at hmem
    rcases hmem with rfl | rfl | rfl | rfl | rfl <;> cases hnode <;> decide
  root_distinct := by
    unfold Graph.Distinct
    decide
  distinct := by
    intro id hid
    have hall : ∀ id ∈ [0, 1, 2, 3, 5], ((tangled.children id).map tangled.letter?).Nodup := by
      decide
    exact hall id (mem_of_reached_tangled hid)

theorem encode_faithful_tangled : ∃ buffer, encode tangled 8 = .ok buffer ∧
    (∀ key, lookup buffer key = tangled.get key) ∧
    ∃ found, entries buffer = .ok found ∧
      (found.Pairwise fun left right => left.word < right.word) ∧
      ∀ entry, entry ∈ found ↔ tangled.get entry.word = some entry.value := by
  have h : encode tangled 8 = .ok #[3, 4, 129, 225, 2, 131, 98, 129, 98, 129] := by cbv
  exact ⟨_, h, encode_faithful wellLabelled_tangled h⟩

end Packed

namespace Dictionary

/-- The entries of a dictionary come back from its bytes, and nothing else does. -/
theorem round_trip {entries : List Entry} {dictionary : Dictionary} {rounds : Nat}
    {buffer : Packed.Buffer} (h : ofEntries entries = .ok dictionary)
    (packed : Packed.encode dictionary.graph rounds = .ok buffer) :
    (∃ found, Packed.entries buffer = .ok found ∧ found.Perm entries ∧
      found.Pairwise fun left right => left.word < right.word) ∧
    ∀ key v, Packed.lookup buffer key = some v ↔ ⟨key, v⟩ ∈ entries := by
  have holds := holds_ofEntries h
  have labelled := holds.reduced_graph.toWellLabelled
  constructor
  · obtain ⟨found, hfound, hsorted, hmem⟩ := Packed.entries_of_encode labelled packed
    refine ⟨found, hfound, ?_, hsorted⟩
    have hnodup : found.Nodup := hsorted.imp fun hlt heq => by
      rw [heq] at hlt
      exact List.lt_irrefl _ hlt
    apply (List.perm_ext_iff_of_nodup hnodup (List.Nodup.of_map _ holds.distinct)).mpr
    intro entry
    rw [hmem, holds.get_graph_iff]
  · intro key v
    rw [Packed.lookup_of_encode labelled packed, holds.get_graph_iff]

theorem round_trip_sample : ∃ dictionary buffer, ofEntries sampleEntries = .ok dictionary ∧
    Packed.encode dictionary.graph 8 = .ok buffer ∧
    (∃ found, Packed.entries buffer = .ok found ∧ found.Perm sampleEntries ∧
      found.Pairwise fun left right => left.word < right.word) ∧
    ∀ key v, Packed.lookup buffer key = some v ↔ ⟨key, v⟩ ∈ sampleEntries := by
  have packed : Packed.encode sample.graph 8 =
      .ok #[2, 130, 227, 133, 225, 2, 129, 130, 98, 129] := by
    rw [graph_sample]
    cbv
  exact ⟨sample, _, ofEntries_sampleEntries, packed, round_trip ofEntries_sampleEntries packed⟩

/-- The entries come back in the order of their words. -/
theorem entries_eq_sort {entries : List Entry} {dictionary : Dictionary} {rounds : Nat}
    {buffer : Packed.Buffer} (h : ofEntries entries = .ok dictionary)
    (packed : Packed.encode dictionary.graph rounds = .ok buffer) :
    Packed.entries buffer = .ok (Entry.sort entries) := by
  have holds := holds_ofEntries h
  obtain ⟨found, hfound, hsorted, hmem⟩ :=
    Packed.entries_of_encode holds.reduced_graph.toWellLabelled packed
  have hdistinct := Entry.pairwise_sort_lt (List.pairwise_map.mp holds.distinct)
  have : Std.Irrefl fun left right : Entry => left.word < right.word :=
    ⟨fun entry => List.lt_irrefl entry.word⟩
  have : Std.Antisymm fun left right : Entry => left.word < right.word :=
    ⟨fun left right hlt hgt => absurd hgt (List.lt_asymm hlt)⟩
  rw [hfound, hsorted.eq_of_mem_iff hdistinct fun entry => ?_]
  rw [hmem, holds.get_graph_iff, (Entry.sort_perm entries).mem_iff]

end Dictionary

end Lexicon
