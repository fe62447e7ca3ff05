import Lexicon.Proofs.Trie.Merge

namespace Lexicon

/-! The register of a merge saves a search, no more: the node for a signature is the
first one in the graph that has it. -/

/-- A merge that searches all nodes instead. -/
structure Search where
  nodes : Array Node
  merged : Array (Option Nat)
deriving DecidableEq, Repr

namespace Search

def start (size : Nat) : Search where
  nodes := #[]
  merged := Array.replicate size none

def ids (search : Search) (indices : List Nat) : List Nat :=
  indices.filterMap fun index => search.merged[index]?.join

def first? (search : Search) (signature : Signature) : Option Nat :=
  search.nodes.findIdx? fun node => Signature.ofNode node == signature

def take (trie : Trie) (search : Search) (index : Nat) : Search :=
  match trie.symbol? index with
  | none => search
  | some symbol =>
      let node := symbol.node (search.ids (trie.children index))
      match search.first? (.ofNode node) with
      | some id => { search with merged := search.merged.setIfInBounds index (some id) }
      | none =>
          { nodes := search.nodes.push node
            merged := search.merged.setIfInBounds index (some search.nodes.size) }

def ofTrie (trie : Trie) : Search :=
  trie.postorder.foldl (take trie) (start trie.size)

end Search

namespace Merge

variable {trie : Trie} {merge : Merge} {done : List Nat}

/-- What is left of a merge without its register. -/
def search (merge : Merge) : Search :=
  ⟨merge.graph.nodes, merge.merged⟩

theorem Represents.first? (h : Represents trie done merge) (signature : Signature) :
    merge.search.first? signature = merge.register[signature]? := by
  cases hregister : merge.register[signature]? with
  | none =>
      rw [Search.first?, Array.findIdx?_eq_none_iff]
      intro node hnode
      obtain ⟨id, hid⟩ := Array.mem_iff_getElem?.mp hnode
      apply beq_eq_false_iff_ne.mpr
      intro hsame
      rw [(h.register signature id).mpr ⟨node, hid, hsame⟩] at hregister
      cases hregister
  | some id =>
      obtain ⟨node, hid, hsame⟩ := (h.register signature id).mp hregister
      obtain ⟨hlt, hnode⟩ := Array.getElem?_eq_some_iff.mp hid
      rw [Search.first?, Array.findIdx?_eq_some_iff_getElem]
      refine ⟨hlt, by rw [← hsame, ← hnode]; exact beq_self_eq_true _, fun other hless hother => ?_⟩
      -- No two nodes have one signature.
      have hearlier : merge.register[signature]? = some other :=
        (h.register signature other).mpr ⟨_, Array.getElem?_eq_getElem (Nat.lt_trans hless hlt),
          eq_of_beq hother⟩
      rw [hregister] at hearlier
      cases hearlier
      exact Nat.lt_irrefl _ hless

theorem Represents.search_take (h : Represents trie done merge) (index : Nat) :
    (Merge.take trie merge index).search = merge.search.take trie index := by
  rw [Search.take]
  rcases take_cases trie merge index with ⟨hsymbol, htake⟩ | ⟨symbol, node, hsymbol, rfl, hcases⟩
  · rw [htake, hsymbol]
  · have hids : merge.search.ids (trie.children index) = merge.ids (trie.children index) := rfl
    rw [hsymbol]
    simp only [hids, h.first?]
    rcases hcases with ⟨id, hlt, hid, htake⟩ | ⟨hnone, hadmits, hlt, htake⟩
    · rw [hid, htake]
      rfl
    · rw [hnone, htake]
      rfl

theorem search_foldl {order : List Nat} (hlt : ∀ index ∈ order, index < trie.size)
    (hfirst : trie.ChildrenFirst order) :
    (order.foldl (take trie) (start trie.size)).search =
      order.foldl (Search.take trie) (Search.start trie.size) := by
  induction hfirst with
  | nil => rfl
  | @concat order index settled children ih =>
      have hbefore : ∀ other ∈ order, other < trie.size := fun other hother =>
        hlt other (List.mem_append_left _ hother)
      rw [List.foldl_append, List.foldl_append, ← ih hbefore]
      exact (Represents.foldl hbefore settled).search_take index

theorem search_ofTrie (trie : Trie) : (ofTrie trie).search = Search.ofTrie trie :=
  search_foldl (fun _ => Trie.lt_of_mem_postorder) trie.childrenFirst_postorder

end Merge

theorem Trie.nodes_toGraph (trie : Trie) : trie.toGraph.nodes = (Search.ofTrie trie).nodes := by
  rw [← Merge.search_ofTrie]
  rfl

theorem Trie.root_toGraph (trie : Trie) :
    trie.toGraph.root = (Search.ofTrie trie).ids (trie.children 0) := by
  rw [← Merge.search_ofTrie]
  rfl

end Lexicon
