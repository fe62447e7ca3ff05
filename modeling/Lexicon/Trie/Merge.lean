import Lexicon.Graph.Basic
import Lexicon.Trie.Basic
import Std.Data.HashMap

namespace Lexicon

/-! The smallest graph with the words of a trie. The trie is taken in postorder.
Nodes with one symbol and one set of children become one node of the graph, which
keeps the child order of the first of them. -/

/-- What makes two nodes one: the symbol, and the children regardless of their order. -/
structure Signature where
  symbol : Symbol
  children : List Nat
deriving DecidableEq, Hashable, Repr

namespace Signature

def ofNode (node : Node) : Signature :=
  ⟨node.symbol, node.children.mergeSort⟩

end Signature

def Symbol.node : Symbol → List Nat → Node
  | .char byte, children => .char byte children
  | .value v, _ => .value v

theorem Symbol.mem_children_node {symbol : Symbol} {children : List Nat} {child : Nat}
    (h : child ∈ (symbol.node children).children) : child ∈ children := by
  cases symbol with
  | char byte => exact h
  | value v => cases h

/-- The graph so far, the node of the graph for each node of the trie that has been
taken, and the node for each signature that has been met. -/
structure Merge where
  graph : Graph
  merged : Array (Option Nat)
  register : Std.HashMap Signature Nat
  merged_lt : ∀ index id : Nat, merged[index]? = some (some id) → id < graph.size
  register_lt : ∀ (signature : Signature) (id : Nat),
    register[signature]? = some id → id < graph.size

namespace Merge

def start (size : Nat) : Merge where
  graph := .empty
  merged := Array.replicate size none
  register := ∅
  merged_lt := by
    intro index id h
    rw [Array.getElem?_replicate] at h
    split at h <;> cases h
  register_lt := by simp

def id? (merge : Merge) (index : Nat) : Option Nat :=
  merge.merged[index]?.join

theorem id?_lt {merge : Merge} {index id : Nat} (h : merge.id? index = some id) :
    id < merge.graph.size :=
  merge.merged_lt index id (Option.join_eq_some_iff.mp h)

def ids (merge : Merge) (indices : List Nat) : List Nat :=
  indices.filterMap merge.id?

theorem admits_ids (merge : Merge) (indices : List Nat) :
    merge.graph.Admits (merge.ids indices) := by
  intro id hid
  obtain ⟨index, _, hindex⟩ := List.mem_filterMap.mp hid
  exact id?_lt hindex

def assign (merge : Merge) (index id : Nat) (h : id < merge.graph.size) : Merge :=
  { merge with
    merged := merge.merged.setIfInBounds index (some id)
    merged_lt := by
      intro other found hfound
      rw [Array.getElem?_setIfInBounds] at hfound
      split at hfound
      · split at hfound
        · cases hfound
          exact h
        · cases hfound
      · exact merge.merged_lt other found hfound }

def grow (merge : Merge) (node : Node) (h : merge.graph.Admits node.children) : Merge :=
  let size := merge.graph.size
  { graph := merge.graph.push node h
    merged := merge.merged
    register := merge.register.insert (.ofNode node) size
    merged_lt := by
      intro index id hid
      have := merge.merged_lt index id hid
      simp only [Graph.size_push]
      omega
    register_lt := by
      intro signature id hid
      rw [Std.HashMap.getElem?_insert] at hid
      simp only [Graph.size_push]
      split at hid
      · cases hid
        omega
      · have := merge.register_lt signature id hid
        omega }

theorem lt_size_grow (merge : Merge) (node : Node) (h : merge.graph.Admits node.children) :
    merge.graph.size < (merge.grow node h).graph.size := by
  simp [grow]

/-- Takes a node of the trie whose children have been taken. The root has no symbol
and becomes no node. -/
def take (trie : Trie) (merge : Merge) (index : Nat) : Merge :=
  match trie.symbol? index with
  | none => merge
  | some symbol =>
      let node := symbol.node (merge.ids (trie.children index))
      match h : merge.register[Signature.ofNode node]? with
      | some id => merge.assign index id (merge.register_lt _ id h)
      | none =>
          have hadmits : merge.graph.Admits node.children := fun child hchild =>
            merge.admits_ids _ child (Symbol.mem_children_node hchild)
          -- Read before the graph grows, which can then grow in place.
          let id := merge.graph.size
          (merge.grow node hadmits).assign index id (merge.lt_size_grow node hadmits)

def ofTrie (trie : Trie) : Merge :=
  trie.postorder.foldl (take trie) (start trie.size)

end Merge

def Trie.toGraph (trie : Trie) : Graph :=
  let merge := Merge.ofTrie trie
  merge.graph.setRoot (merge.ids (trie.children 0)) (merge.admits_ids _)

end Lexicon
