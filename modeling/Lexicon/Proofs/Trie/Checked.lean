import Lexicon.Proofs.Trie.Graph

namespace Lexicon

/-! A merge that stops where it would have to name a node that is not there. It never
does: on a tree it goes through and gives the same graph. -/

inductive MergeError where
  | untaken (index : Nat)
  | graph (error : GraphError)
deriving DecidableEq, Repr

namespace Merge

/-- The node of the graph for a node of the trie that has to have been taken. -/
def idOf (merge : Merge) (index : Nat) : Except MergeError Nat :=
  match merge.id? index with
  | some id => .ok id
  | none => .error (.untaken index)

def idsOf (merge : Merge) (indices : List Nat) : Except MergeError (List Nat) :=
  indices.mapM merge.idOf

/-- A new node for a node of the trie. Its children have to stand in the graph. -/
def addNode (merge : Merge) (index : Nat) (node : Node) : Except MergeError Merge :=
  if h : merge.graph.Admits node.children then
    .ok ((merge.grow node h).assign index merge.graph.size (merge.lt_size_grow node h))
  else
    .error (.graph (.missingChild merge.graph.size))

def take? (trie : Trie) (merge : Merge) (index : Nat) : Except MergeError Merge := do
  let children ← merge.idsOf (trie.children index)
  match trie.symbol? index with
  | none => .ok merge
  | some symbol =>
      let node := symbol.node children
      match h : merge.register[Signature.ofNode node]? with
      | some id => .ok (merge.assign index id (merge.register_lt _ id h))
      | none => merge.addNode index node

end Merge

def Trie.toGraph? (trie : Trie) : Except MergeError Graph := do
  let merge ← trie.postorder.foldlM (Merge.take? trie) (.start trie.size)
  let children ← merge.idsOf (trie.children 0)
  (merge.graph.setRoot? children).mapError .graph

namespace Merge

variable {trie : Trie} {merge : Merge} {done : List Nat}

theorem idsOf_eq_ok {indices : List Nat} (h : ∀ index ∈ indices, ∃ id, merge.id? index = some id) :
    merge.idsOf indices = .ok (merge.ids indices) := by
  induction indices with
  | nil => rfl
  | cons index rest ih =>
      obtain ⟨id, hid⟩ := h index List.mem_cons_self
      have hrest := ih fun other hother => h other (List.mem_cons_of_mem index hother)
      have hindex : merge.idOf index = .ok id := by rw [idOf, hid]
      rw [idsOf] at hrest
      rw [idsOf, List.mapM_cons, hindex, hrest, ids, ids, List.filterMap_cons_some hid]
      rfl

theorem addNode_eq_ok {index : Nat} {node : Node} (h : merge.graph.Admits node.children) :
    merge.addNode index node =
      .ok ((merge.grow node h).assign index merge.graph.size (merge.lt_size_grow node h)) :=
  dif_pos h

theorem Represents.idsOf_children (h : Represents trie done merge) (tree : trie.IsTree)
    {index : Nat} (hchildren : ∀ child ∈ trie.children index, child ∈ done) :
    merge.idsOf (trie.children index) = .ok (merge.ids (trie.children index)) := by
  apply idsOf_eq_ok
  intro child hchild
  obtain ⟨symbol, hsymbol⟩ := tree.symbol_of_child hchild
  obtain ⟨id, _, hid, _⟩ := h.taken child (hchildren child hchild) symbol hsymbol
  exact ⟨id, hid⟩

theorem Represents.take?_eq_ok (h : Represents trie done merge) (tree : trie.IsTree) {index : Nat}
    (hchildren : ∀ child ∈ trie.children index, child ∈ done) :
    take? trie merge index = .ok (Merge.take trie merge index) := by
  unfold take?
  rw [h.idsOf_children tree hchildren]
  change (match trie.symbol? index with
    | none => _
    | some symbol => _) = _
  rcases take_cases trie merge index with ⟨hsymbol, htake⟩ | ⟨symbol, node, hsymbol, rfl, hcases⟩
  · rw [hsymbol, htake]
  · rw [hsymbol]
    rcases hcases with ⟨id, hlt, hid, htake⟩ | ⟨hnone, hadmits, hlt, htake⟩
    · simp only [htake]
      split
      · rename_i found hfound
        cases Option.some.inj (hid.symm.trans hfound)
        rfl
      · rename_i hnone
        cases hid.symm.trans hnone
    · simp only [htake]
      split
      · rename_i found hfound
        cases hfound.symm.trans hnone
      · exact addNode_eq_ok hadmits

theorem foldlM_take? (tree : trie.IsTree) {order : List Nat}
    (hlt : ∀ index ∈ order, index < trie.size) (hfirst : trie.ChildrenFirst order) :
    order.foldlM (take? trie) (start trie.size) =
      .ok (order.foldl (take trie) (start trie.size)) := by
  induction hfirst with
  | nil => rfl
  | @concat order index settled children ih =>
      have hbefore : ∀ other ∈ order, other < trie.size := fun other hother =>
        hlt other (List.mem_append_left _ hother)
      have hstep := (Represents.foldl hbefore settled).take?_eq_ok tree children
      rw [List.foldlM_append, ih hbefore, List.foldl_append]
      change List.foldlM (take? trie) _ [index] = _
      rw [List.foldlM_cons, hstep]
      rfl

end Merge

theorem Trie.IsTree.toGraph?_eq_ok {trie : Trie} (tree : trie.IsTree) :
    trie.toGraph? = .ok trie.toGraph := by
  have rep := Merge.Represents.ofTrie trie
  have hmerge : trie.postorder.foldlM (Merge.take? trie) (.start trie.size) =
      .ok (Merge.ofTrie trie) :=
    Merge.foldlM_take? tree (fun _ => lt_of_mem_postorder) trie.childrenFirst_postorder
  have hroot := rep.idsOf_children tree (rep.closed 0 trie.zero_mem_postorder)
  unfold toGraph?
  rw [hmerge]
  change (do
    let children ← (Merge.ofTrie trie).idsOf (trie.children 0)
    ((Merge.ofTrie trie).graph.setRoot? children).mapError .graph) = _
  rw [hroot]
  change ((Merge.ofTrie trie).graph.setRoot? _).mapError _ = _
  rw [Graph.setRoot?_eq_ok ((Merge.ofTrie trie).admits_ids _)]
  rfl

end Lexicon
