import Lexicon.Proofs.Graph.Reads
import Mathlib.Data.Fintype.Card

namespace Lexicon.Graph

/-! A graph that no other graph with the same words undercuts. -/

variable {graph : Graph}

/-- Nothing in the graph is superfluous: the root leads to every node, every node
leads to a value, and no two nodes have one character and the same children. -/
structure Reduced (graph : Graph) : Prop extends graph.WellLabelled where
  reached : ∀ id < graph.size, graph.Reached id
  inner : ∀ id byte, graph.node? id ≠ some (.char byte [])
  unique : ∀ first second node other, graph.node? first = some node →
    graph.node? second = some other → node.symbol = other.symbol →
    node.children.Perm other.children → first = second

theorem mem_children_lt {id child : Nat} {node : Node} (hnode : graph.node? id = some node)
    (h : child ∈ node.children) : child < id := by
  have hchildren : graph.children id = node.children := by simp [children, hnode]
  exact lt_of_mem_children (hchildren ▸ h)

theorem exists_node_of_mem {id child : Nat} {node : Node} (hnode : graph.node? id = some node)
    (h : child ∈ node.children) : ∃ found, graph.node? child = some found :=
  node?_of_lt (Nat.lt_trans (mem_children_lt hnode h) (lt_size_of_node? hnode))

/-- Behind the child with a character, the words are read that begin with it. -/
theorem Frontier.reads_cons_iff {children : List Nat} (frontier : graph.Frontier children)
    {id : Nat} (hid : id ∈ children) {byte : UInt8} {below : List Nat}
    (hnode : graph.node? id = some (.char byte below)) (word : Word) (v : UInt8) :
    graph.Reads children (byte :: word) v ↔ graph.Reads below word v := by
  constructor
  · intro h
    obtain ⟨other, hother, found, hfound, hread⟩ := h
    cases frontier.eq_of_letter? hother hid
      ((letter?_of_char hfound).trans (letter?_of_char hnode).symm)
    rw [hnode] at hfound
    cases hfound
    exact hread
  · exact fun hread => ⟨id, hid, below, hnode, hread⟩

namespace Reduced

theorem frontier_node (reduced : graph.Reduced) {id : Nat} {node : Node}
    (hnode : graph.node? id = some node) : graph.Frontier node.children := by
  have := reduced.frontier_children (reduced.reached id (lt_size_of_node? hnode))
  simpa [children, hnode] using this

theorem exists_reads (reduced : graph.Reduced) {id : Nat} (h : id < graph.size) :
    ∃ word v, graph.Reads [id] word v := by
  induction id using Nat.strongRecOn with
  | ind id ih =>
      obtain ⟨node, hnode⟩ := node?_of_lt h
      cases node with
      | value v => exact ⟨[], v, (reads_value hnode [] v).mpr ⟨rfl, rfl⟩⟩
      | char byte below =>
          cases hbelow : below with
          | nil => exact absurd (hbelow ▸ hnode) (reduced.inner id byte)
          | cons child rest =>
              have hmem : child ∈ below := hbelow ▸ List.mem_cons_self
              have hlt : child < id := mem_children_lt hnode hmem
              obtain ⟨word, v, hread⟩ := ih child hlt (Nat.lt_trans hlt h)
              exact ⟨byte :: word, v, (reads_char hnode _ v).mpr
                ⟨word, rfl, reads_iff_exists.mpr ⟨child, hmem, hread⟩⟩⟩

theorem exists_reads_below (reduced : graph.Reduced) {id : Nat} {byte : UInt8} {below : List Nat}
    (hnode : graph.node? id = some (.char byte below)) : ∃ word v, graph.Reads below word v := by
  obtain ⟨word, v, hread⟩ := reduced.exists_reads (lt_size_of_node? hnode)
  obtain ⟨rest, _, hrest⟩ := (reads_char hnode word v).mp hread
  exact ⟨rest, v, hrest⟩

/-- Where the same is read, each child has its equal. -/
theorem exists_match (reduced : graph.Reduced) {first second : List Nat}
    (hfirst : graph.Frontier first) (hsecond : graph.Frontier second)
    (same : ∀ word v, graph.Reads first word v ↔ graph.Reads second word v)
    {child : Nat} {node : Node} (hchild : child ∈ first) (hnode : graph.node? child = some node) :
    ∃ found ∈ second, ∃ other, graph.node? found = some other ∧ node.symbol = other.symbol ∧
      ∀ word v, graph.Reads node.children word v ↔ graph.Reads other.children word v := by
  cases node with
  | value v =>
      obtain ⟨found, hfound, hother⟩ := (same [] v).mp ⟨child, hchild, hnode⟩
      exact ⟨found, hfound, .value v, hother, rfl, fun _ _ => Iff.rfl⟩
  | char byte below =>
      obtain ⟨word, v, hread⟩ := reduced.exists_reads_below hnode
      obtain ⟨found, hfound, others, hother, _⟩ :=
        (same (byte :: word) v).mp ⟨child, hchild, below, hnode, hread⟩
      refine ⟨found, hfound, .char byte others, hother, rfl, fun word v => ?_⟩
      change graph.Reads below word v ↔ graph.Reads others word v
      rw [← hfirst.reads_cons_iff hchild hnode, same, hsecond.reads_cons_iff hfound hother]

/-- Nodes with one symbol, behind which the same is read, are one node. -/
theorem eq_of_reads (reduced : graph.Reduced) {first second : Nat} {node other : Node}
    (hfirst : graph.node? first = some node) (hsecond : graph.node? second = some other)
    (hsymbol : node.symbol = other.symbol)
    (same : ∀ word v, graph.Reads node.children word v ↔ graph.Reads other.children word v) :
    first = second := by
  induction first using Nat.strongRecOn generalizing second node other with
  | ind first ih =>
      have hnode := reduced.frontier_node hfirst
      have hother := reduced.frontier_node hsecond
      apply reduced.unique first second node other hfirst hsecond hsymbol
      refine (List.perm_ext_iff_of_nodup (List.Nodup.of_map _ hnode.distinct)
        (List.Nodup.of_map _ hother.distinct)).mpr fun child => ⟨fun hchild => ?_, fun hchild => ?_⟩
      · obtain ⟨found, hfound⟩ := exists_node_of_mem hfirst hchild
        obtain ⟨equal, hequal, partner, hpartner, hpartnerSymbol, hreads⟩ :=
          reduced.exists_match hnode hother same hchild hfound
        rwa [ih child (mem_children_lt hfirst hchild) hfound hpartner hpartnerSymbol hreads]
      · obtain ⟨found, hfound⟩ := exists_node_of_mem hsecond hchild
        obtain ⟨equal, hequal, partner, hpartner, hpartnerSymbol, hreads⟩ :=
          reduced.exists_match hother hnode (fun word v => (same word v).symm) hchild hfound
        have := ih equal (mem_children_lt hfirst hequal) hpartner hfound hpartnerSymbol.symm
          fun word v => (hreads word v).symm
        rwa [← this]

/-- Some word leads to a place where the node comes next. -/
theorem exists_walk (reduced : graph.Reduced) {id : Nat} (h : graph.Reached id) :
    ∃ (word : Word) (children : List Nat), word.foldlM graph.step graph.root = some children ∧
      graph.Frontier children ∧ id ∈ children := by
  induction h with
  | root h => exact ⟨[], graph.root, rfl, reduced.frontier_root, h⟩
  | @child parent id hparent h ih =>
      obtain ⟨word, children, hwalk, frontier, hmem⟩ := ih
      obtain ⟨node, hnode⟩ := node?_of_lt hparent.lt_size
      cases node with
      | value v =>
          rw [children_of_value hnode] at h
          cases h
      | char byte below =>
          have hstep := reduced.step_of_mem frontier hmem hnode
          have hbelow := children_of_char hnode
          refine ⟨word ++ [byte], below, ?_, hbelow ▸ reduced.frontier_children hparent, hbelow ▸ h⟩
          rw [List.foldlM_append, hwalk]
          simp [hstep]

end Reduced

/-- A node of another graph has the symbol of a node and reads the same behind it. -/
def Matches (graph other : Graph) (id found : Nat) : Prop :=
  ∃ node partner, graph.node? id = some node ∧ other.node? found = some partner ∧
    node.symbol = partner.symbol ∧
    ∀ word, graph.getFrom node.children word = other.getFrom partner.children word

theorem Matches.eq (reduced : graph.Reduced) {other : Graph} {first second found : Nat}
    (hfirst : graph.Matches other first found) (hsecond : graph.Matches other second found) :
    first = second := by
  obtain ⟨node, partner, hnode, hpartner, hsymbol, hsame⟩ := hfirst
  obtain ⟨twin, again, htwin, hagain, htwinSymbol, htwinSame⟩ := hsecond
  cases Option.some.inj (hpartner.symm.trans hagain)
  apply reduced.eq_of_reads hnode htwin (hsymbol.trans htwinSymbol.symm)
  intro word v
  rw [← reduced.getFrom_eq_some_iff (reduced.frontier_node hnode),
    ← reduced.getFrom_eq_some_iff (reduced.frontier_node htwin), hsame, htwinSame]

/-- A graph with the same words has a match for each node. -/
theorem Reduced.exists_matches (reduced : graph.Reduced) {other : Graph}
    (same : ∀ word, other.get word = graph.get word) {id : Nat} (h : id < graph.size) :
    ∃ found < other.size, graph.Matches other id found := by
  obtain ⟨word, children, hwalk, frontier, hmem⟩ := reduced.exists_walk (reduced.reached id h)
  obtain ⟨node, hnode⟩ := node?_of_lt h
  cases node with
  | value v =>
      have hread : graph.Reads children [] v := ⟨id, hmem, hnode⟩
      have hget : graph.get word = some v := by
        change (word.foldlM graph.step graph.root).bind _ = some v
        rw [hwalk]
        exact reduced.getFrom_of_reads frontier hread
      rw [← same, get, Option.bind_eq_some_iff] at hget
      obtain ⟨others, _, hvalue⟩ := hget
      obtain ⟨found, _, hfound⟩ := List.exists_of_findSome?_eq_some hvalue
      have hpartner := value?_eq_some_iff.mp hfound
      exact ⟨found, lt_size_of_node? hpartner, .value v, .value v, hnode, hpartner, rfl,
        fun word => by simp [Node.children]⟩
  | char byte below =>
      have hstep := reduced.step_of_mem frontier hmem hnode
      have hbelow : ∀ rest, graph.getFrom below rest = graph.get (word ++ byte :: rest) := by
        intro rest
        rw [← getFrom_root, getFrom_append, hwalk, Option.bind_some, getFrom_cons, hstep]
        rfl
      obtain ⟨rest, v, hread⟩ := reduced.exists_reads_below hnode
      have hsome := reduced.getFrom_of_reads (reduced.frontier_node hnode) hread
      change graph.getFrom below rest = some v at hsome
      rw [hbelow, ← same, ← getFrom_root, getFrom_append, Option.bind_eq_some_iff] at hsome
      obtain ⟨others, hothers, hsome⟩ := hsome
      rw [getFrom_cons, step, Option.bind_map, Option.bind_eq_some_iff] at hsome
      obtain ⟨found, hfound, hsome⟩ := hsome
      have hkey : other.key? found = some byte := by simpa using List.find?_some hfound
      rcases node?_of_key? hkey with ⟨theirs, hpartner⟩ | hpartner
      · refine ⟨found, lt_size_of_node? hpartner, _, _, hnode, hpartner, rfl, fun rest => ?_⟩
        change graph.getFrom below rest = other.getFrom theirs rest
        rw [hbelow, ← same, ← getFrom_root, getFrom_append, hothers, Option.bind_some, getFrom_cons,
          step, hfound, Option.map_some, Option.bind_some, children_of_char hpartner]
      · rw [Function.comp_apply, children_of_value hpartner, getFrom_of_no_children] at hsome
        cases hsome

theorem Reduced.size_le (reduced : graph.Reduced) {other : Graph}
    (same : ∀ word, other.get word = graph.get word) : graph.size ≤ other.size := by
  choose found hlt hmatch using fun id : Fin graph.size => reduced.exists_matches same id.isLt
  have hinjective : Function.Injective fun id => (⟨found id, hlt id⟩ : Fin other.size) := by
    intro first second heq
    have hfound : found first = found second := congrArg Fin.val heq
    exact Fin.ext ((hmatch first).eq reduced (hfound ▸ hmatch second))
  simpa using Fintype.card_le_of_injective _ hinjective

end Lexicon.Graph
