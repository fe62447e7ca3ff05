import Lexicon.Graph.Basic
import Lexicon.Proofs.Word
import Mathlib.Data.List.Nodup

namespace Lexicon.Graph

/-! What the paths of a graph spell. -/

variable {graph : Graph}

/-- The nodes that the root leads to. -/
inductive Reached (graph : Graph) : Nat → Prop
  | root {id : Nat} (h : id ∈ graph.root) : Reached graph id
  | child {parent id : Nat} (hparent : Reached graph parent)
      (h : id ∈ graph.children parent) : Reached graph id

theorem Reached.lt_size {id : Nat} (h : graph.Reached id) : id < graph.size := by
  induction h with
  | root h => exact graph.root_lt _ h
  | child _ h ih => exact Nat.lt_trans (lt_of_mem_children h) ih

theorem Reached.mem_of_closed {id : Nat} {nodes : List Nat} (h : graph.Reached id)
    (root : ∀ child ∈ graph.root, child ∈ nodes)
    (closed : ∀ parent ∈ nodes, ∀ child ∈ graph.children parent, child ∈ nodes) : id ∈ nodes := by
  induction h with
  | root h => exact root _ h
  | child _ h ih => exact closed _ ih _ h

/-- The character of a node; a value has none. -/
def letter? (graph : Graph) (id : Nat) : Option UInt8 :=
  match graph.node? id with
  | some (.char byte _) => some byte
  | _ => none

/-- No two of these nodes have the same character, and at most one is a value. -/
def Distinct (graph : Graph) (children : List Nat) : Prop :=
  (children.map graph.letter?).Nodup

structure WellLabelled (graph : Graph) : Prop where
  printable : ∀ id byte children, graph.Reached id →
    graph.node? id = some (.char byte children) → 0x20 ≤ byte ∧ byte ≤ 0x7E
  small : ∀ id v, graph.Reached id → graph.node? id = some (.value v) → v ≤ 15
  root_distinct : graph.Distinct graph.root
  distinct : ∀ id, graph.Reached id → graph.Distinct (graph.children id)

/-- Each label and each value can be packed into a byte. -/
structure Writable (graph : Graph) : Prop where
  printable : ∀ id byte children, graph.Reached id →
    graph.node? id = some (.char byte children) → 0x20 ≤ byte ∧ byte ≤ 0x7E
  small : ∀ id v, graph.Reached id → graph.node? id = some (.value v) → v ≤ 15

theorem WellLabelled.writable {graph : Graph} (labelled : graph.WellLabelled) : graph.Writable :=
  ⟨labelled.printable, labelled.small⟩

/-- Nodes that come next on some way from the root. -/
structure Frontier (graph : Graph) (children : List Nat) : Prop where
  reached : ∀ id ∈ children, graph.Reached id
  distinct : graph.Distinct children

/-- A path from one of these nodes has the characters of the word and ends in the value. -/
def Reads (graph : Graph) : List Nat → Word → UInt8 → Prop
  | children, [], v => ∃ id ∈ children, graph.node? id = some (.value v)
  | children, byte :: word, v =>
      ∃ id ∈ children, ∃ below, graph.node? id = some (.char byte below) ∧ Reads graph below word v

/-- Reading on from a node on the way: `getFrom` of the root is `get`. -/
def getFrom (graph : Graph) (children : List Nat) (word : Word) : Option UInt8 :=
  (word.foldlM graph.step children).bind fun found => found.findSome? graph.value?

@[simp] theorem getFrom_root (graph : Graph) : graph.getFrom graph.root = graph.get :=
  rfl

theorem getFrom_append (graph : Graph) (children : List Nat) (first second : Word) :
    graph.getFrom children (first ++ second) =
      (first.foldlM graph.step children).bind fun found => graph.getFrom found second := by
  simp [getFrom, List.foldlM_append, Option.bind_assoc]

theorem getFrom_cons (graph : Graph) (children : List Nat) (byte : UInt8) (word : Word) :
    graph.getFrom children (byte :: word) =
      (graph.step children byte).bind fun found => graph.getFrom found word := by
  simp [getFrom, Option.bind_assoc]

@[simp] theorem getFrom_of_no_children (graph : Graph) (word : Word) :
    graph.getFrom [] word = none := by
  cases word <;> simp [getFrom, step]

theorem node?_of_lt {id : Nat} (h : id < graph.size) : ∃ node, graph.node? id = some node :=
  ⟨graph.nodes[id], Array.getElem?_eq_getElem h⟩

theorem children_of_node {id : Nat} {node : Node} (h : graph.node? id = some node) :
    graph.children id = node.children := by
  rw [children, h]
  rfl

theorem children_of_char {id : Nat} {byte : UInt8} {below : List Nat}
    (h : graph.node? id = some (.char byte below)) : graph.children id = below :=
  children_of_node h

theorem children_of_value {id : Nat} {v : UInt8} (h : graph.node? id = some (.value v)) :
    graph.children id = [] :=
  children_of_node h

theorem letter?_of_char {id : Nat} {byte : UInt8} {below : List Nat}
    (h : graph.node? id = some (.char byte below)) : graph.letter? id = some byte := by
  simp [letter?, h]

theorem letter?_of_value {id : Nat} {v : UInt8} (h : graph.node? id = some (.value v)) :
    graph.letter? id = none := by
  simp [letter?, h]

theorem value?_eq_some_iff {id : Nat} {v : UInt8} :
    graph.value? id = some v ↔ graph.node? id = some (.value v) := by
  unfold value?
  cases graph.node? id with
  | none => simp
  | some node => cases node <;> simp [Node.value?]

theorem node?_of_key? {id : Nat} {byte : UInt8} (h : graph.key? id = some byte) :
    (∃ below, graph.node? id = some (.char byte below)) ∨ graph.node? id = some (.value byte) := by
  unfold key? at h
  obtain ⟨node, hnode, rfl⟩ := Option.map_eq_some_iff.mp h
  cases node with
  | char byte below => exact .inl ⟨below, hnode⟩
  | value v => exact .inr hnode

theorem reads_perm {first second : List Nat} (h : first.Perm second) (word : Word) (v : UInt8) :
    graph.Reads first word v ↔ graph.Reads second word v := by
  cases word <;> simp only [Reads, h.mem_iff]

/-- Where reading starts is up to the reader; the root does not matter. -/
theorem reads_setRoot {root : List Nat} (h : graph.Admits root) (children : List Nat)
    (word : Word) (v : UInt8) :
    (graph.setRoot root h).Reads children word v ↔ graph.Reads children word v := by
  induction word generalizing children with
  | nil => rfl
  | cons byte rest ih =>
      simp only [Reads, ih]
      rfl

theorem reads_iff_exists {children : List Nat} {word : Word} {v : UInt8} :
    graph.Reads children word v ↔ ∃ id ∈ children, graph.Reads [id] word v := by
  cases word <;> simp [Reads]

theorem reads_char {id : Nat} {byte : UInt8} {below : List Nat}
    (h : graph.node? id = some (.char byte below)) (word : Word) (v : UInt8) :
    graph.Reads [id] word v ↔ ∃ rest, word = byte :: rest ∧ graph.Reads below rest v := by
  cases word with
  | nil => simp [Reads, h]
  | cons first rest =>
      simp only [Reads, List.mem_singleton, exists_eq_left, h, Option.some.injEq, Node.char.injEq]
      constructor
      · intro hexists
        obtain ⟨found, ⟨rfl, rfl⟩, hread⟩ := hexists
        exact ⟨rest, rfl, hread⟩
      · intro hexists
        obtain ⟨_, heq, hread⟩ := hexists
        cases heq
        exact ⟨below, ⟨rfl, rfl⟩, hread⟩

theorem reads_value {id : Nat} {v : UInt8} (h : graph.node? id = some (.value v)) (word : Word)
    (other : UInt8) : graph.Reads [id] word other ↔ word = [] ∧ other = v := by
  cases word <;> simp [Reads, h, eq_comm]

theorem reads_of_getFrom {children : List Nat} {word : Word} {v : UInt8}
    (h : graph.getFrom children word = some v) : graph.Reads children word v := by
  induction word generalizing children with
  | nil =>
      obtain ⟨id, hid, hvalue⟩ := List.exists_of_findSome?_eq_some (show _ = some v from h)
      exact ⟨id, hid, value?_eq_some_iff.mp hvalue⟩
  | cons byte rest ih =>
      rw [getFrom_cons, step, Option.bind_map, Option.bind_eq_some_iff] at h
      obtain ⟨id, hfound, hrest⟩ := h
      have hmem := List.mem_of_find?_eq_some hfound
      have hkey : graph.key? id = some byte := by simpa using List.find?_some hfound
      rcases node?_of_key? hkey with ⟨below, hnode⟩ | hnode
      · rw [Function.comp_apply, children_of_char hnode] at hrest
        exact ⟨id, hmem, below, hnode, ih hrest⟩
      · -- A value has no children, so that nothing is read behind it.
        rw [Function.comp_apply, children_of_value hnode, getFrom_of_no_children] at hrest
        cases hrest

theorem Frontier.eq_of_letter? {children : List Nat} (h : graph.Frontier children)
    {first second : Nat} (hfirst : first ∈ children) (hsecond : second ∈ children)
    (hletter : graph.letter? first = graph.letter? second) : first = second :=
  List.inj_on_of_nodup_map h.distinct hfirst hsecond hletter

namespace WellLabelled

theorem frontier_root (labelled : graph.WellLabelled) : graph.Frontier graph.root :=
  ⟨fun _ h => .root h, labelled.root_distinct⟩

theorem frontier_children (labelled : graph.WellLabelled) {id : Nat} (h : graph.Reached id) :
    graph.Frontier (graph.children id) :=
  ⟨fun _ hchild => .child h hchild, labelled.distinct id h⟩

theorem step_of_mem (labelled : graph.WellLabelled) {children : List Nat}
    (frontier : graph.Frontier children) {id : Nat} (hid : id ∈ children) {byte : UInt8}
    {below : List Nat} (hnode : graph.node? id = some (.char byte below)) :
    graph.step children byte = some below := by
  have hkey : graph.key? id = some byte := by simp [key?, hnode, Node.key]
  have hsome : (children.find? fun id => graph.key? id == some byte).isSome :=
    List.find?_isSome.mpr ⟨id, hid, by simp [hkey]⟩
  obtain ⟨found, hfound⟩ := Option.isSome_iff_exists.mp hsome
  have hmem := List.mem_of_find?_eq_some hfound
  have hfoundKey : graph.key? found = some byte := by simpa using List.find?_some hfound
  have heq : found = id := by
    rcases node?_of_key? hfoundKey with ⟨other, hother⟩ | hvalue
    · exact frontier.eq_of_letter? hmem hid
        ((letter?_of_char hother).trans (letter?_of_char hnode).symm)
    · -- Values are smaller than characters.
      have hlow := (labelled.printable id byte below (frontier.reached id hid) hnode).1
      have hhigh := labelled.small found byte (frontier.reached found hmem) hvalue
      rw [UInt8.le_iff_toNat_le] at hlow hhigh
      exact absurd (Nat.le_trans hlow hhigh) (by decide)
  rw [step, hfound, heq, Option.map_some, children_of_char hnode]

theorem getFrom_of_reads (labelled : graph.WellLabelled) {children : List Nat} {word : Word}
    {v : UInt8} (frontier : graph.Frontier children) (h : graph.Reads children word v) :
    graph.getFrom children word = some v := by
  induction word generalizing children with
  | nil =>
      obtain ⟨id, hid, hnode⟩ := h
      have hsome : (children.findSome? graph.value?).isSome :=
        List.findSome?_isSome_iff.mpr ⟨id, hid, by simp [value?_eq_some_iff.mpr hnode]⟩
      obtain ⟨found, hfound⟩ := Option.isSome_iff_exists.mp hsome
      obtain ⟨other, hother, hvalue⟩ := List.exists_of_findSome?_eq_some hfound
      have hletter := letter?_of_value (value?_eq_some_iff.mp hvalue)
      cases frontier.eq_of_letter? hother hid (hletter.trans (letter?_of_value hnode).symm)
      rw [value?_eq_some_iff.mpr hnode] at hvalue
      cases hvalue
      exact hfound
  | cons byte rest ih =>
      obtain ⟨id, hid, below, hnode, hread⟩ := h
      have hbelow : graph.Frontier below :=
        children_of_char hnode ▸ labelled.frontier_children (frontier.reached id hid)
      rw [getFrom_cons, labelled.step_of_mem frontier hid hnode]
      exact ih hbelow hread

theorem getFrom_eq_some_iff (labelled : graph.WellLabelled) {children : List Nat}
    (frontier : graph.Frontier children) (word : Word) (v : UInt8) :
    graph.getFrom children word = some v ↔ graph.Reads children word v :=
  ⟨reads_of_getFrom, labelled.getFrom_of_reads frontier⟩

theorem all_isPrintable (labelled : graph.WellLabelled) {children : List Nat} {word : Word}
    {v : UInt8} (frontier : graph.Frontier children) (h : graph.Reads children word v) :
    word.all isPrintable := by
  induction word generalizing children with
  | nil => rfl
  | cons byte rest ih =>
      obtain ⟨id, hid, below, hnode, hread⟩ := h
      have hreached := frontier.reached id hid
      have hbelow : graph.Frontier below :=
        children_of_char hnode ▸ labelled.frontier_children hreached
      have hbyte := isPrintable_iff.mpr (labelled.printable id byte below hreached hnode)
      rw [List.all_cons, hbyte, ih hbelow hread]
      rfl

theorem get_eq_some_iff (labelled : graph.WellLabelled) (word : Word) (v : UInt8) :
    graph.get word = some v ↔ graph.Reads graph.root word v :=
  labelled.getFrom_eq_some_iff labelled.frontier_root word v

end WellLabelled

end Lexicon.Graph
