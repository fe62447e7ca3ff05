import Lexicon.Word

namespace Lexicon

/-! A trie of words. Its nodes stand in the order in which they were made, so that
children come after their parents; the first one is the root. The children of a
node keep the order in which they were first seen. -/

structure TrieNode where
  symbol : Option Symbol
  children : List Nat
deriving DecidableEq, Repr, Inhabited

def TrieNode.addChild (node : TrieNode) (child : Nat) : TrieNode :=
  { node with children := node.children ++ [child] }

structure Trie where
  nodes : Array TrieNode
  nonempty : 0 < nodes.size
  lt_child : ∀ index (h : index < nodes.size), ∀ child ∈ nodes[index].children,
    index < child ∧ child < nodes.size
deriving Repr

namespace Trie

def empty : Trie where
  nodes := #[⟨none, []⟩]
  nonempty := by simp
  lt_child := by
    intro index h child hchild
    simp at h
    subst h
    cases hchild

instance : Inhabited Trie := ⟨empty⟩

def size (trie : Trie) : Nat :=
  trie.nodes.size

def symbol? (trie : Trie) (index : Nat) : Option Symbol :=
  trie.nodes[index]?.bind TrieNode.symbol

def children (trie : Trie) (index : Nat) : List Nat :=
  (trie.nodes[index]?.map TrieNode.children).getD []

theorem lt_of_mem_children {trie : Trie} {index child : Nat} (h : child ∈ trie.children index) :
    index < child ∧ child < trie.size := by
  unfold children at h
  by_cases hindex : index < trie.nodes.size
  · rw [Array.getElem?_eq_getElem hindex, Option.map_some, Option.getD_some] at h
    exact trie.lt_child index hindex child h
  · rw [Array.getElem?_eq_none (Nat.le_of_not_lt hindex), Option.map_none, Option.getD_none] at h
    cases h

/-! Words in a trie. -/

def child? (trie : Trie) (index : Nat) (symbol : Symbol) : Option Nat :=
  (trie.children index).find? fun child => trie.symbol? child == some symbol

def find? (trie : Trie) (path : List Symbol) : Option Nat :=
  path.foldlM trie.child? 0

/-- A word has a value, whichever it is. -/
def contains (trie : Trie) (word : Word) : Bool :=
  match trie.find? (word.map .char) with
  | none => false
  | some index =>
      (trie.children index).any fun child =>
        match trie.symbol? child with
        | some (.value _) => true
        | _ => false

/-- A new last child. It gets the size that the trie had as its index. -/
def append (trie : Trie) (parent : Nat) (symbol : Symbol) : Trie where
  nodes :=
    let child := trie.nodes.size
    (trie.nodes.modify parent (·.addChild child)).push ⟨some symbol, []⟩
  nonempty := by simp
  lt_child := by
    intro index hindex child hchild
    rw [Array.getElem_push] at hchild
    simp only [Array.size_push, Array.size_modify]
    split at hchild
    · rename_i hlt
      simp only [Array.size_modify] at hlt
      rw [Array.getElem_modify] at hchild
      split at hchild
      · simp only [TrieNode.addChild, List.mem_append, List.mem_singleton] at hchild
        rcases hchild with hchild | rfl
        · have := trie.lt_child index hlt child hchild
          omega
        · omega
      · have := trie.lt_child index hlt child hchild
        omega
    · cases hchild

/-- One step along a path, which is lengthened where the trie has none. -/
def extend (state : Trie × Nat) (symbol : Symbol) : Trie × Nat :=
  let (trie, index) := state
  match trie.child? index symbol with
  | some child => (trie, child)
  | none =>
      let child := trie.size
      (trie.append index symbol, child)

def insert (trie : Trie) (path : List Symbol) : Trie :=
  (path.foldl extend (trie, 0)).1

/-! Children before parents. -/

/-- How many visits a node takes: one, and those of its children. -/
def visits (trie : Trie) (index : Nat) : Nat :=
  1 + ((trie.children index).attach.map fun child => trie.visits child.1).foldr (· + ·) 0
termination_by trie.size - index
decreasing_by
  have := lt_of_mem_children child.2
  omega

def visitsOf (trie : Trie) (waiting : List Nat) : Nat :=
  (waiting.map trie.visits).foldr (· + ·) 0

theorem visits_eq (trie : Trie) (index : Nat) :
    trie.visits index = 1 + trie.visitsOf (trie.children index) := by
  rw [visits, visitsOf, List.attach_map_val (f := trie.visits)]

theorem visitsOf_children_lt (trie : Trie) (index : Nat) (rest : List Nat) :
    trie.visitsOf ((trie.children index).reverse ++ rest) < trie.visitsOf (index :: rest) := by
  have hindex := visits_eq trie index
  simp only [visitsOf, ← List.sum_eq_foldr, List.map_append, List.map_reverse, List.sum_append,
    List.sum_reverse, List.map_cons, List.sum_cons] at hindex ⊢
  omega

/-- Puts each node in front of those visited before it. Its last child is visited
next, so that the children come to stand in their order before it. -/
def visit (trie : Trie) (waiting visited : List Nat) : List Nat :=
  match waiting with
  | [] => visited
  | index :: rest =>
      have := visitsOf_children_lt trie index rest
      visit trie ((trie.children index).reverse ++ rest) (index :: visited)
termination_by trie.visitsOf waiting

/-- All nodes, each after its children, which keep their order; the root is last. -/
def postorder (trie : Trie) : List Nat :=
  trie.visit [0] []

end Trie

end Lexicon
