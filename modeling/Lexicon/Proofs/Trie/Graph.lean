import Lexicon.Proofs.Graph.Minimal
import Lexicon.Proofs.Trie.Merge
import Mathlib.Data.List.Sort

namespace Lexicon

/-! The graph of a trie reads what the trie spells, and nothing in it is superfluous. -/

theorem Signature.ofNode_eq_iff {node other : Node} :
    ofNode node = ofNode other ↔
      node.symbol = other.symbol ∧ node.children.Perm other.children := by
  simp only [ofNode, Signature.mk.injEq, and_congr_right_iff]
  intro _
  constructor
  · intro h
    have hnode := List.mergeSort_perm node.children fun left right => decide (left ≤ right)
    rw [h] at hnode
    exact hnode.symm.trans (List.mergeSort_perm _ _)
  · intro h
    apply List.Perm.eq_of_sortedLE List.sortedLE_mergeSort List.sortedLE_mergeSort
    exact (List.mergeSort_perm _ _).trans (h.trans (List.mergeSort_perm _ _).symm)

def Symbol.letter? : Symbol → Option UInt8
  | .char byte => some byte
  | .value _ => none

namespace Trie

def letter? (trie : Trie) (index : Nat) : Option UInt8 :=
  (trie.symbol? index).bind Symbol.letter?

/-- A trie of words that a dictionary takes. -/
structure Lawful (trie : Trie) : Prop extends trie.IsTree where
  printable : ∀ index byte, trie.symbol? index = some (.char byte) → 0x20 ≤ byte ∧ byte ≤ 0x7E
  small : ∀ index v, trie.symbol? index = some (.value v) → v ≤ 15
  single : ∀ index, ((trie.children index).map trie.letter?).Nodup
  inner : ∀ index byte, trie.symbol? index = some (.char byte) → trie.children index ≠ []
  leaf : ∀ index v, trie.symbol? index = some (.value v) → trie.children index = []

variable {trie : Trie}

theorem IsTree.symbol_of_child (tree : trie.IsTree) {index child : Nat}
    (h : child ∈ trie.children index) : ∃ symbol, trie.symbol? child = some symbol := by
  obtain ⟨hlt, hsize⟩ := lt_of_mem_children h
  exact tree.labelled child (by omega) hsize

theorem lt_of_symbol? {index : Nat} {symbol : Symbol} (h : trie.symbol? index = some symbol) :
    index < trie.size := by
  obtain ⟨node, hnode, _⟩ := Option.bind_eq_some_iff.mp h
  exact (Array.getElem?_eq_some_iff.mp hnode).1

theorem IsTree.mem_postorder (tree : trie.IsTree) {index : Nat} (h : index < trie.size) :
    index ∈ trie.postorder := by
  induction index using Nat.strongRecOn with
  | ind index ih =>
      rcases Nat.eq_zero_or_pos index with rfl | hpos
      · exact trie.zero_mem_postorder
      · obtain ⟨parent, hmem⟩ := tree.exists_parent index hpos h
        have hparent := (lt_of_mem_children hmem).1
        exact trie.childrenFirst_postorder.closed (ih parent hparent (Nat.lt_trans hparent h)) hmem

end Trie

namespace Merge.Represents

variable {trie : Trie} {merge : Merge} {done : List Nat}

theorem node_of_symbol (h : Represents trie done merge) {index : Nat} (hindex : index ∈ done)
    {symbol : Symbol} (hsymbol : trie.symbol? index = some symbol) :
    ∃ id node, merge.id? index = some id ∧ merge.graph.node? id = some node ∧
      node.symbol = symbol ∧
      node.children.Perm (symbol.node (merge.ids (trie.children index))).children := by
  obtain ⟨id, node, hid, hnode, hsignature⟩ := h.taken index hindex symbol hsymbol
  obtain ⟨hsame, hperm⟩ := Signature.ofNode_eq_iff.mp hsignature
  exact ⟨id, node, hid, hnode, hsame.trans (symbol.symbol_node _), hperm⟩

theorem char_node (h : Represents trie done merge) {index : Nat} (hindex : index ∈ done)
    {byte : UInt8} (hsymbol : trie.symbol? index = some (.char byte)) :
    ∃ id children, merge.id? index = some id ∧
      merge.graph.node? id = some (.char byte children) ∧
      children.Perm (merge.ids (trie.children index)) := by
  obtain ⟨id, node, hid, hnode, hsame, hperm⟩ := h.node_of_symbol hindex hsymbol
  cases node with
  | char found children =>
      cases hsame
      exact ⟨id, children, hid, hnode, hperm⟩
  | value v => cases hsame

theorem value_node (h : Represents trie done merge) {index : Nat} (hindex : index ∈ done)
    {v : UInt8} (hsymbol : trie.symbol? index = some (.value v)) :
    ∃ id, merge.id? index = some id ∧ merge.graph.node? id = some (.value v) := by
  obtain ⟨id, node, hid, hnode, hsame, _⟩ := h.node_of_symbol hindex hsymbol
  cases node with
  | char byte children => cases hsame
  | value found =>
      cases hsame
      exact ⟨id, hid, hnode⟩

/-- The node of the graph has the symbol of the node of the trie. -/
theorem symbol_of_id? (h : Represents trie done merge) (tree : trie.IsTree) {index id child : Nat}
    (hindex : index ∈ done) (hchild : child ∈ trie.children index)
    (hid : merge.id? child = some id) : ∃ node, merge.graph.node? id = some node ∧
      trie.symbol? child = some node.symbol := by
  obtain ⟨symbol, hsymbol⟩ := tree.symbol_of_child hchild
  obtain ⟨found, node, hfound, hnode, hsame, _⟩ :=
    h.node_of_symbol (h.closed index hindex child hchild) hsymbol
  cases Option.some.inj (hid.symm.trans hfound)
  exact ⟨node, hnode, hsame ▸ hsymbol⟩

theorem map_letter?_ids (h : Represents trie done merge) (tree : trie.IsTree) {index : Nat}
    (hindex : index ∈ done) : (merge.ids (trie.children index)).map merge.graph.letter? =
      (trie.children index).map trie.letter? := by
  have key : ∀ children : List Nat, (∀ child ∈ children, child ∈ trie.children index) →
      (merge.ids children).map merge.graph.letter? = children.map trie.letter? := by
    intro children hchildren
    induction children with
    | nil => rfl
    | cons child rest ih =>
        have hchild := hchildren child List.mem_cons_self
        obtain ⟨symbol, hsymbol⟩ := tree.symbol_of_child hchild
        obtain ⟨id, node, hid, hnode, hsame, _⟩ :=
          h.node_of_symbol (h.closed index hindex child hchild) hsymbol
        have hletter : merge.graph.letter? id = trie.letter? child := by
          rw [Graph.letter?, hnode, Trie.letter?, hsymbol, ← hsame]
          cases node <;> rfl
        have hrest := ih fun other hother => hchildren other (List.mem_cons_of_mem child hother)
        rw [ids] at hrest ⊢
        rw [List.filterMap_cons_some hid, List.map_cons, List.map_cons, hletter, hrest]
  exact key _ fun _ => id

theorem exists_value_iff (h : Represents trie done merge) (tree : trie.IsTree) {index : Nat}
    (hindex : index ∈ done) (v : UInt8) :
    (∃ id ∈ merge.ids (trie.children index), merge.graph.node? id = some (.value v)) ↔
      ∃ child ∈ trie.children index, trie.symbol? child = some (.value v) := by
  constructor
  · intro hexists
    obtain ⟨id, hid, hnode⟩ := hexists
    obtain ⟨child, hchild, hchildId⟩ := List.mem_filterMap.mp hid
    obtain ⟨node, hfound, hsymbol⟩ := h.symbol_of_id? tree hindex hchild hchildId
    cases Option.some.inj (hnode.symm.trans hfound)
    exact ⟨child, hchild, hsymbol⟩
  · intro hexists
    obtain ⟨child, hchild, hsymbol⟩ := hexists
    obtain ⟨id, hid, hnode⟩ := h.value_node (h.closed index hindex child hchild) hsymbol
    exact ⟨id, List.mem_filterMap.mpr ⟨child, hchild, hid⟩, hnode⟩

theorem exists_child_of_char (h : Represents trie done merge) (tree : trie.IsTree)
    {index id : Nat} (hindex : index ∈ done) (hid : id ∈ merge.ids (trie.children index))
    {byte : UInt8} {below : List Nat} (hnode : merge.graph.node? id = some (.char byte below)) :
    ∃ child ∈ trie.children index, trie.symbol? child = some (.char byte) ∧
      below.Perm (merge.ids (trie.children child)) := by
  obtain ⟨child, hchild, hchildId⟩ := List.mem_filterMap.mp hid
  obtain ⟨node, hfound, hsymbol⟩ := h.symbol_of_id? tree hindex hchild hchildId
  cases Option.some.inj (hnode.symm.trans hfound)
  change trie.symbol? child = some (.char byte) at hsymbol
  obtain ⟨same, children, hsame, hsameNode, hperm⟩ :=
    h.char_node (h.closed index hindex child hchild) hsymbol
  cases Option.some.inj (hchildId.symm.trans hsame)
  rw [hnode] at hsameNode
  cases hsameNode
  exact ⟨child, hchild, hsymbol, hperm⟩

/-- Behind a node of the trie stands what its node of the graph reads. -/
theorem reads_ids_iff (h : Represents trie done merge) (tree : trie.IsTree) {index : Nat}
    (hindex : index ∈ done) (word : Word) (v : UInt8) :
    merge.graph.Reads (merge.ids (trie.children index)) word v ↔
      ((Entry.mk word v).spelling.foldlM trie.child? index).isSome := by
  induction word generalizing index with
  | nil =>
      have hchild : ((Entry.mk [] v).spelling.foldlM trie.child? index).isSome ↔
          ∃ child ∈ trie.children index, trie.symbol? child = some (.value v) := by
        rw [← Trie.child?_isSome_iff]
        simp [Entry.spelling]
      rw [hchild]
      exact h.exists_value_iff tree hindex v
  | cons byte rest ih =>
      have hstep : (Entry.mk (byte :: rest) v).spelling.foldlM trie.child? index =
          (trie.child? index (.char byte)).bind fun child =>
            (Entry.mk rest v).spelling.foldlM trie.child? child := rfl
      rw [hstep]
      constructor
      · intro hexists
        obtain ⟨id, hid, below, hnode, hread⟩ := hexists
        obtain ⟨child, hchild, hsymbol, hperm⟩ := h.exists_child_of_char tree hindex hid hnode
        rw [tree.child?_of_mem hchild hsymbol, Option.bind_some,
          ← ih (h.closed index hindex child hchild), ← Graph.reads_perm hperm]
        exact hread
      · intro hsome
        obtain ⟨last, hlast⟩ := Option.isSome_iff_exists.mp hsome
        obtain ⟨child, hchild, hrest⟩ := Option.bind_eq_some_iff.mp hlast
        obtain ⟨hmem, hsymbol⟩ := Trie.child?_eq_some hchild
        have hdone := h.closed index hindex child hmem
        obtain ⟨id, children, hid, hnode, hperm⟩ := h.char_node hdone hsymbol
        refine ⟨id, List.mem_filterMap.mpr ⟨child, hmem, hid⟩, children, hnode, ?_⟩
        rw [Graph.reads_perm hperm, ih hdone]
        exact Option.isSome_iff_exists.mpr ⟨last, hrest⟩

/-- Each node of the graph has a node of the trie with its symbol. -/
theorem exists_source (h : Represents trie done merge) {id : Nat} {node : Node}
    (hnode : merge.graph.node? id = some node) :
    ∃ index ∈ done, merge.id? index = some id ∧ trie.symbol? index = some node.symbol ∧
      node.children.Perm (node.symbol.node (merge.ids (trie.children index))).children := by
  obtain ⟨index, hindex, hid, symbol, hsymbol⟩ := h.covered id (Graph.lt_size_of_node? hnode)
  obtain ⟨found, same, hfound, hsame, rfl, hperm⟩ := h.node_of_symbol hindex hsymbol
  cases Option.some.inj (hid.symm.trans hfound)
  cases Option.some.inj (hnode.symm.trans hsame)
  exact ⟨index, hindex, hid, hsymbol, hperm⟩

theorem ids_ne_nil (h : Represents trie done merge) (tree : trie.IsTree) {index : Nat}
    (hindex : index ∈ done) (hne : trie.children index ≠ []) :
    merge.ids (trie.children index) ≠ [] := by
  intro hnil
  have hletters := h.map_letter?_ids tree hindex
  rw [hnil, List.map_nil, eq_comm, List.map_eq_nil_iff] at hletters
  exact hne hletters

end Merge.Represents

namespace Trie

variable {trie : Trie}

theorem reads_toGraph_iff (tree : trie.IsTree) (entry : Entry) :
    trie.toGraph.Reads trie.toGraph.root entry.word entry.value ↔ trie.Has entry.spelling :=
  (Graph.reads_setRoot _ _ _ _).trans
    ((Merge.Represents.ofTrie trie).reads_ids_iff tree trie.zero_mem_postorder _ _)

theorem Lawful.distinct_children (lawful : trie.Lawful) {id : Nat} {node : Node}
    (hnode : trie.toGraph.node? id = some node) : trie.toGraph.Distinct node.children := by
  have rep := Merge.Represents.ofTrie trie
  obtain ⟨index, hindex, _, _, hperm⟩ := rep.exists_source hnode
  cases node with
  | value v => exact List.nodup_nil
  | char byte children =>
      have hletters := rep.map_letter?_ids lawful.toIsTree hindex
      apply (hperm.map _).nodup_iff.mpr
      change ((Merge.ofTrie trie).ids (trie.children index) |>.map
        (Merge.ofTrie trie).graph.letter?).Nodup
      rw [hletters]
      exact lawful.single index

/-- The root of the graph leads wherever the root of the trie does. -/
theorem Lawful.reached (lawful : trie.Lawful) {index id : Nat} (hpos : 0 < index)
    (hindex : index < trie.size) (hid : (Merge.ofTrie trie).id? index = some id) :
    trie.toGraph.Reached id := by
  have rep := Merge.Represents.ofTrie trie
  induction index using Nat.strongRecOn generalizing id with
  | ind index ih =>
      obtain ⟨parent, hmem⟩ := lawful.exists_parent index hpos hindex
      have hids : id ∈ (Merge.ofTrie trie).ids (trie.children parent) :=
        List.mem_filterMap.mpr ⟨index, hmem, hid⟩
      have hlt := (lt_of_mem_children hmem).1
      have hparent := Nat.lt_trans hlt hindex
      rcases Nat.eq_zero_or_pos parent with rfl | hparentPos
      · exact .root hids
      · obtain ⟨symbol, hsymbol⟩ := lawful.labelled parent hparentPos hparent
        cases symbol with
        | value v =>
            rw [lawful.leaf parent v hsymbol] at hmem
            cases hmem
        | char byte =>
            obtain ⟨above, children, habove, hnode, hperm⟩ :=
              rep.char_node (lawful.mem_postorder hparent) hsymbol
            have hchildren : trie.toGraph.children above = children :=
              Graph.children_of_char hnode
            exact .child (ih parent hlt hparentPos hparent habove)
              (hchildren ▸ hperm.mem_iff.mpr hids)

theorem Lawful.reduced_toGraph (lawful : trie.Lawful) : trie.toGraph.Reduced where
  printable := by
    intro id byte children _ hnode
    obtain ⟨index, _, _, hsymbol, _⟩ := (Merge.Represents.ofTrie trie).exists_source hnode
    exact lawful.printable index byte hsymbol
  small := by
    intro id v _ hnode
    obtain ⟨index, _, _, hsymbol, _⟩ := (Merge.Represents.ofTrie trie).exists_source hnode
    exact lawful.small index v hsymbol
  root_distinct := by
    have hletters := (Merge.Represents.ofTrie trie).map_letter?_ids lawful.toIsTree
      trie.zero_mem_postorder
    change ((Merge.ofTrie trie).ids (trie.children 0) |>.map
      (Merge.ofTrie trie).graph.letter?).Nodup
    rw [hletters]
    exact lawful.single 0
  distinct := by
    intro id hid
    obtain ⟨node, hnode⟩ := Graph.node?_of_lt hid.lt_size
    rw [Graph.children_of_node hnode]
    exact lawful.distinct_children hnode
  reached := by
    intro id hid
    obtain ⟨index, _, hindex, symbol, hsymbol⟩ := (Merge.Represents.ofTrie trie).covered id hid
    refine lawful.reached (Nat.pos_of_ne_zero ?_) (lt_of_symbol? hsymbol) hindex
    rintro rfl
    rw [lawful.root] at hsymbol
    cases hsymbol
  inner := by
    intro id byte hnode
    have rep := Merge.Represents.ofTrie trie
    obtain ⟨index, hindex, _, hsymbol, hperm⟩ := rep.exists_source hnode
    exact rep.ids_ne_nil lawful.toIsTree hindex (lawful.inner index byte hsymbol)
      hperm.symm.eq_nil
  unique := by
    intro first second node other hfirst hsecond hsymbol hperm
    have rep := Merge.Represents.ofTrie trie
    have hsame := Signature.ofNode_eq_iff.mpr ⟨hsymbol, hperm⟩
    have hregister := (rep.register (.ofNode node) first).mpr ⟨node, hfirst, rfl⟩
    exact Option.some.inj (hregister.symm.trans
      ((rep.register (.ofNode node) second).mpr ⟨other, hsecond, hsame.symm⟩))

end Trie

end Lexicon
