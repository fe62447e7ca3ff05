import Lexicon.Word

namespace Lexicon

/-! A word graph is an arena of nodes and the children of a root, which is no
node itself. A node is known by its place in the arena, its id, and only refers
to nodes placed before it, so that no path visits a node twice. -/

inductive Node where
  | char (byte : UInt8) (children : List Nat)
  | value (value : UInt8)
deriving DecidableEq, Repr, Inhabited

namespace Node

def idText (id : Nat) : String :=
  "#" ++ toString id

/-- The byte by which a parent chooses this child: its character, or the value
itself at the end of a word. -/
def key : Node → UInt8
  | .char byte _ => byte
  | .value v => v

def children : Node → List Nat
  | .char _ children => children
  | .value _ => []

def symbol : Node → Symbol
  | .char byte _ => .char byte
  | .value v => .value v

def isValue : Node → Bool
  | .char _ _ => false
  | .value _ => true

def value? : Node → Option UInt8
  | .char _ _ => none
  | .value v => some v

end Node

inductive GraphError where
  | missingChild (parent : Nat)
  | missingRootChild
  | missingNode (size : Nat) (id : Nat)
deriving DecidableEq, Repr

namespace GraphError

def message : GraphError → String
  | .missingChild parent => "child of " ++ Node.idText parent ++ " is not in the graph"
  | .missingRootChild => "root child is not in the graph"
  | .missingNode size id =>
      "index out of bounds: the len is " ++ toString size ++ " but the index is " ++ toString id

end GraphError

structure Graph where
  nodes : Array Node
  root : List Nat
  child_lt : ∀ id (h : id < nodes.size), ∀ child ∈ nodes[id].children, child < id
  root_lt : ∀ child ∈ root, child < nodes.size
deriving Repr

namespace Graph

@[ext] theorem ext {left right : Graph} (nodes : left.nodes = right.nodes)
    (root : left.root = right.root) : left = right := by
  cases left
  cases right
  cases nodes
  cases root
  rfl

instance : DecidableEq Graph := fun left right =>
  if h : left.nodes = right.nodes ∧ left.root = right.root then
    isTrue (ext h.1 h.2)
  else
    isFalse fun same => h (by rw [same]; exact ⟨rfl, rfl⟩)

def empty : Graph where
  nodes := #[]
  root := []
  child_lt := by simp
  root_lt := by simp

instance : Inhabited Graph := ⟨empty⟩

def size (graph : Graph) : Nat :=
  graph.nodes.size

def isEmpty (graph : Graph) : Bool :=
  graph.nodes.isEmpty

def node? (graph : Graph) (id : Nat) : Option Node :=
  graph.nodes[id]?

def key? (graph : Graph) (id : Nat) : Option UInt8 :=
  (graph.node? id).map Node.key

def value? (graph : Graph) (id : Nat) : Option UInt8 :=
  (graph.node? id).bind Node.value?

def children (graph : Graph) (id : Nat) : List Nat :=
  ((graph.node? id).map Node.children).getD []

theorem lt_size_of_node? {graph : Graph} {id : Nat} {node : Node}
    (h : graph.node? id = some node) : id < graph.size := by
  obtain ⟨hlt, _⟩ := Array.getElem?_eq_some_iff.mp h
  exact hlt

theorem lt_of_mem_children {graph : Graph} {id child : Nat}
    (h : child ∈ graph.children id) : child < id := by
  simp only [children, node?] at h
  by_cases hid : id < graph.nodes.size
  · simp only [Array.getElem?_eq_getElem hid, Option.map_some, Option.getD_some] at h
    exact graph.child_lt id hid child h
  · simp [Array.getElem?_eq_none (Nat.le_of_not_lt hid)] at h

theorem parent_lt_size {graph : Graph} {id child : Nat}
    (h : child ∈ graph.children id) : id < graph.size := by
  cases hnode : graph.node? id with
  | none =>
      rw [children, hnode] at h
      cases h
  | some node => exact lt_size_of_node? hnode

/-! Growing a graph. -/

/-- Every child of a node that is to be added stands in the graph already. -/
abbrev Admits (graph : Graph) (children : List Nat) : Prop :=
  ∀ child ∈ children, child < graph.nodes.size

instance (graph : Graph) (children : List Nat) : Decidable (graph.Admits children) :=
  decidable_of_iff (children.all (· < graph.nodes.size) = true) (by simp)

def push (graph : Graph) (node : Node) (h : graph.Admits node.children) : Graph where
  nodes := graph.nodes.push node
  root := graph.root
  child_lt := by
    intro id hid child hchild
    rw [Array.getElem_push] at hchild
    split at hchild
    · exact graph.child_lt id _ child hchild
    · have := h child hchild
      simp only [Array.size_push] at hid
      omega
  root_lt := by
    intro child hchild
    have := graph.root_lt child hchild
    simp only [Array.size_push]
    omega

@[simp] theorem size_push (graph : Graph) (node : Node) (h : graph.Admits node.children) :
    (graph.push node h).size = graph.size + 1 := by
  simp [push, size]

def setRoot (graph : Graph) (children : List Nat) (h : graph.Admits children) : Graph :=
  { graph with root := children, root_lt := h }

/-- The graph with a node more; the node's id is the size that the graph had. -/
def push? (graph : Graph) (node : Node) : Except GraphError Graph :=
  if h : graph.Admits node.children then
    .ok (graph.push node h)
  else
    .error (.missingChild graph.size)

def setRoot? (graph : Graph) (children : List Nat) : Except GraphError Graph :=
  if h : graph.Admits children then
    .ok (graph.setRoot children h)
  else
    .error .missingRootChild

theorem setRoot?_eq_ok {graph : Graph} {children : List Nat} (h : graph.Admits children) :
    graph.setRoot? children = .ok (graph.setRoot children h) :=
  dif_pos h

/-! Walking a graph. -/

def nodeAt (graph : Graph) (id : Nat) : Except GraphError Node :=
  match graph.node? id with
  | some node => .ok node
  | none => .error (.missingNode graph.size id)

/-- The first child with this key. The search fails at an id without a node. -/
def child (graph : Graph) (key : UInt8) : List Nat → Except GraphError (Option Nat)
  | [] => .ok none
  | id :: rest =>
      match graph.node? id with
      | none => .error (.missingNode graph.size id)
      | some node => if node.key = key then .ok (some id) else child graph key rest

def step (graph : Graph) (children : List Nat) (key : UInt8) : Option (List Nat) :=
  (children.find? fun id => graph.key? id == some key).map graph.children

/-- The value of a word: the first value among the children that its characters
lead to. -/
def get (graph : Graph) (word : Word) : Option UInt8 :=
  (word.foldlM graph.step graph.root).bind fun children => children.findSome? graph.value?

theorem child_eq_find? (graph : Graph) (key : UInt8) (children : List Nat)
    (h : graph.Admits children) :
    graph.child key children =
      .ok (children.find? fun id => graph.key? id == some key) := by
  induction children with
  | nil => rfl
  | cons id rest ih =>
      have hid : id < graph.nodes.size := h id List.mem_cons_self
      have hrest : graph.Admits rest := fun other hother => h other (List.mem_cons_of_mem id hother)
      have hnode : graph.node? id = some graph.nodes[id] := Array.getElem?_eq_getElem hid
      simp only [child, hnode]
      by_cases hkey : graph.nodes[id].key = key
      · simp [key?, hnode, hkey]
      · simp [key?, hnode, hkey, ih hrest]

end Graph

end Lexicon
