import Lexicon.Proofs.Graph.Reads
import Lexicon.Proofs.Trie.Paths
import Lexicon.Proofs.Trie.Visit
import Lexicon.Trie.Merge

namespace Lexicon

theorem Symbol.symbol_node (symbol : Symbol) (children : List Nat) :
    (symbol.node children).symbol = symbol := by
  cases symbol <;> rfl

namespace Merge

variable {trie : Trie} {merge : Merge} {done : List Nat}

theorem id?_assign (merge : Merge) {index id : Nat} (h : id < merge.graph.size) (other : Nat) :
    (merge.assign index id h).id? other =
      if index = other ∧ other < merge.merged.size then some id else merge.id? other := by
  unfold id? assign
  simp only [Array.getElem?_setIfInBounds]
  by_cases hsame : index = other
  · subst hsame
    by_cases hlt : index < merge.merged.size <;> simp [hlt]
  · simp [hsame]

theorem id?_grow (merge : Merge) (node : Node) (h : merge.graph.Admits node.children)
    (index : Nat) : (merge.grow node h).id? index = merge.id? index :=
  rfl

theorem register_grow (merge : Merge) (node : Node) (h : merge.graph.Admits node.children)
    (signature : Signature) :
    (merge.grow node h).register[signature]? =
      if Signature.ofNode node == signature then some merge.graph.size
      else merge.register[signature]? := by
  simp [grow, Std.HashMap.getElem?_insert]

/-- A node that is taken gets the node of the graph with its signature, if there is
one, and otherwise a new one. -/
theorem take_cases (trie : Trie) (merge : Merge) (index : Nat) :
    (trie.symbol? index = none ∧ take trie merge index = merge) ∨
      ∃ symbol node, trie.symbol? index = some symbol ∧
        node = symbol.node (merge.ids (trie.children index)) ∧
        ((∃ id h, merge.register[Signature.ofNode node]? = some id ∧
            take trie merge index = merge.assign index id h) ∨
          (merge.register[Signature.ofNode node]? = none ∧
            ∃ h h', take trie merge index =
              (merge.grow node h).assign index merge.graph.size h')) := by
  unfold take
  cases hsymbol : trie.symbol? index with
  | none => exact .inl ⟨rfl, rfl⟩
  | some symbol =>
      refine .inr ⟨symbol, _, rfl, rfl, ?_⟩
      simp only
      split
      · rename_i id hid
        exact .inl ⟨id, merge.register_lt _ id hid, hid, rfl⟩
      · rename_i hnone
        exact .inr ⟨hnone, fun child hchild => merge.admits_ids _ child
          (Symbol.mem_children_node hchild), lt_size_grow _ _ _, rfl⟩

end Merge

theorem Graph.node?_push (graph : Graph) (node : Node) (h : graph.Admits node.children) (id : Nat) :
    (graph.push node h).node? id = if id = graph.size then some node else graph.node? id := by
  have hsize : graph.size = graph.nodes.size := rfl
  rw [hsize]
  exact Array.getElem?_push

/-- What a merge holds once the nodes in `done` have been taken: each of them has its
node of the graph, with its signature, and the graph has no other nodes. -/
structure Merge.Represents (trie : Trie) (done : List Nat) (merge : Merge) : Prop where
  size : merge.merged.size = trie.size
  closed : ∀ index ∈ done, ∀ child ∈ trie.children index, child ∈ done
  taken : ∀ index ∈ done, ∀ symbol, trie.symbol? index = some symbol →
    ∃ id node, merge.id? index = some id ∧ merge.graph.node? id = some node ∧
      Signature.ofNode node = .ofNode (symbol.node (merge.ids (trie.children index)))
  register : ∀ signature id, merge.register[signature]? = some id ↔
    ∃ node, merge.graph.node? id = some node ∧ Signature.ofNode node = signature
  covered : ∀ id < merge.graph.size, ∃ index ∈ done, merge.id? index = some id ∧
    ∃ symbol, trie.symbol? index = some symbol

namespace Merge.Represents

variable {trie : Trie} {merge : Merge} {done : List Nat}

theorem start (trie : Trie) : Represents trie [] (start trie.size) where
  size := by simp [Merge.start]
  closed := by simp
  taken := by simp
  register := by simp [Merge.start, Graph.node?, Graph.empty]
  covered := by simp [Merge.start, Graph.size, Graph.empty]

/-- A node that is taken a second time gets what it has. -/
theorem id?_take (h : Represents trie done merge) (index : Nat) {other : Nat}
    (hother : other ∈ done) : (take trie merge index).id? other = merge.id? other := by
  rcases take_cases trie merge index with ⟨_, htake⟩ | ⟨symbol, node, hsymbol, rfl, hcases⟩
  · rw [htake]
  · have hkeep : ∀ id, index = other → merge.register[Signature.ofNode
        (symbol.node (merge.ids (trie.children index)))]? = id → id = merge.id? other := by
      rintro id rfl hid
      obtain ⟨old, node, hold, hnode, hsignature⟩ := h.taken index hother symbol hsymbol
      rw [hold, ← hid]
      exact (h.register _ old).mpr ⟨node, hnode, hsignature⟩
    rcases hcases with ⟨id, hlt, hid, htake⟩ | ⟨hnone, hadmits, hlt, htake⟩
    · rw [htake, id?_assign]
      split
      · exact hkeep _ (And.left ‹_›) hid
      · rfl
    · rw [htake, id?_assign]
      split
      · rename_i hsame
        obtain ⟨old, _, hold, _⟩ := h.taken other hother symbol (hsame.1 ▸ hsymbol)
        have := hkeep none hsame.1 hnone
        rw [hold] at this
        cases this
      · exact id?_grow merge _ hadmits other

theorem ids_take (h : Represents trie done merge) (index : Nat) {indices : List Nat}
    (hindices : ∀ other ∈ indices, other ∈ done) :
    (take trie merge index).ids indices = merge.ids indices :=
  List.filterMap_congr fun other hother => h.id?_take index (hindices other hother)

theorem id?_self_take (h : Represents trie done merge) {index : Nat} (hindex : index < trie.size)
    {symbol : Symbol} (hsymbol : trie.symbol? index = some symbol) :
    ∃ id node, (take trie merge index).id? index = some id ∧
      (take trie merge index).graph.node? id = some node ∧
      Signature.ofNode node = .ofNode (symbol.node (merge.ids (trie.children index))) := by
  have hlt := h.size.symm ▸ hindex
  rcases take_cases trie merge index with ⟨hnone, _⟩ | ⟨found, node, hfound, rfl, hcases⟩
  · rw [hsymbol] at hnone
    cases hnone
  · cases Option.some.inj (hsymbol.symm.trans hfound)
    rcases hcases with ⟨id, hid, hregister, htake⟩ | ⟨_, hadmits, hnew, htake⟩
    · obtain ⟨node, hnode, hsignature⟩ := (h.register _ id).mp hregister
      refine ⟨id, node, ?_, by rw [htake]; exact hnode, hsignature⟩
      rw [htake, id?_assign, if_pos ⟨rfl, hlt⟩]
    · refine ⟨merge.graph.size, _, ?_, ?_, rfl⟩
      · rw [htake, id?_assign]
        exact if_pos ⟨rfl, hlt⟩
      · rw [htake]
        exact (merge.graph.node?_push _ hadmits _).trans (if_pos rfl)

theorem node?_take (trie : Trie) (merge : Merge) (index : Nat) {id : Nat} {node : Node}
    (h : merge.graph.node? id = some node) :
    (take trie merge index).graph.node? id = some node := by
  rcases take_cases trie merge index with ⟨_, htake⟩ | ⟨symbol, new, _, _, hcases⟩
  · rw [htake, h]
  · rcases hcases with ⟨found, _, _, htake⟩ | ⟨_, hadmits, _, htake⟩
    · rw [htake]
      exact h
    · have hne := Nat.ne_of_lt (Graph.lt_size_of_node? h)
      rw [htake]
      exact (merge.graph.node?_push new hadmits id).trans ((if_neg hne).trans h)

theorem register_take (h : Represents trie done merge) (index : Nat) (signature : Signature)
    (id : Nat) : (take trie merge index).register[signature]? = some id ↔
      ∃ node, (take trie merge index).graph.node? id = some node ∧
        Signature.ofNode node = signature := by
  rcases take_cases trie merge index with ⟨_, htake⟩ | ⟨symbol, new, _, _, hcases⟩
  · rw [htake]
    exact h.register signature id
  · rcases hcases with ⟨found, _, _, htake⟩ | ⟨hnone, hadmits, _, htake⟩
    · rw [htake]
      exact h.register signature id
    · rw [htake]
      change (merge.grow new hadmits).register[signature]? = some id ↔
        ∃ node, (merge.graph.push new hadmits).node? id = some node ∧
          Signature.ofNode node = signature
      rw [register_grow, Graph.node?_push]
      by_cases hid : id = merge.graph.size
      · subst hid
        simp only [if_pos]
        have hold : merge.register[signature]? ≠ some merge.graph.size := fun hsome =>
          Nat.lt_irrefl _ (merge.register_lt signature _ hsome)
        by_cases hsame : Signature.ofNode new = signature <;> simp [hsame, hold]
      · rw [if_neg hid, ← h.register]
        by_cases hsame : Signature.ofNode new = signature
        · subst hsame
          simp [hnone, Ne.symm hid]
        · simp [hsame]

theorem covered_take (h : Represents trie done merge) {index : Nat} (hindex : index < trie.size)
    {id : Nat} (hid : id < (take trie merge index).graph.size) :
    ∃ source ∈ done ++ [index], (take trie merge index).id? source = some id ∧
      ∃ symbol, trie.symbol? source = some symbol := by
  have hlt := h.size.symm ▸ hindex
  have hold : id < merge.graph.size → ∃ source ∈ done ++ [index],
      (take trie merge index).id? source = some id ∧
        ∃ symbol, trie.symbol? source = some symbol := by
    intro hid
    obtain ⟨source, hsource, hsourceId, hsymbol⟩ := h.covered id hid
    exact ⟨source, List.mem_append_left _ hsource,
      (h.id?_take index hsource).trans hsourceId, hsymbol⟩
  rcases take_cases trie merge index with ⟨_, htake⟩ | ⟨symbol, new, hsymbol, _, hcases⟩
  · rw [htake] at hid
    exact hold hid
  · rcases hcases with ⟨found, _, _, htake⟩ | ⟨_, hadmits, _, htake⟩
    · rw [htake] at hid
      exact hold hid
    · rw [htake] at hid
      have hsize : id < merge.graph.size + 1 := by
        rw [← merge.graph.size_push new hadmits]
        exact hid
      by_cases hnew : id = merge.graph.size
      · refine ⟨index, by simp, ?_, symbol, hsymbol⟩
        rw [htake, id?_assign, hnew]
        exact if_pos ⟨rfl, hlt⟩
      · exact hold (by omega)

theorem take (h : Represents trie done merge) {index : Nat} (hindex : index < trie.size)
    (hchildren : ∀ child ∈ trie.children index, child ∈ done) :
    Represents trie (done ++ [index]) (take trie merge index) where
  size := by
    rw [← h.size]
    rcases take_cases trie merge index with ⟨_, htake⟩ | ⟨_, _, _, _, hcases⟩
    · rw [htake]
    · rcases hcases with ⟨_, _, _, htake⟩ | ⟨_, _, _, htake⟩ <;>
        simp [htake, assign, grow]
  closed := by
    intro source hsource child hchild
    rcases List.mem_append.mp hsource with hsource | hsource
    · exact List.mem_append_left _ (h.closed source hsource child hchild)
    · cases List.mem_singleton.mp hsource
      exact List.mem_append_left _ (hchildren child hchild)
  taken := by
    intro source hsource symbol hsymbol
    rcases List.mem_append.mp hsource with hsource | hsource
    · obtain ⟨id, node, hid, hnode, hsignature⟩ := h.taken source hsource symbol hsymbol
      refine ⟨id, node, (h.id?_take index hsource).trans hid, node?_take trie merge index hnode, ?_⟩
      rw [h.ids_take index (h.closed source hsource)]
      exact hsignature
    · cases List.mem_singleton.mp hsource
      rw [h.ids_take index hchildren]
      exact h.id?_self_take hindex hsymbol
  register := h.register_take index
  covered := fun _ hid => h.covered_take hindex hid

theorem foldl {order : List Nat} (hlt : ∀ index ∈ order, index < trie.size)
    (hfirst : trie.ChildrenFirst order) :
    Represents trie order (order.foldl (Merge.take trie) (Merge.start trie.size)) := by
  induction hfirst with
  | nil => exact start trie
  | concat _ children ih =>
      rw [List.foldl_append]
      exact (ih fun index hindex => hlt index (List.mem_append_left _ hindex)).take
        (hlt _ (List.mem_append_right _ List.mem_cons_self)) children

theorem ofTrie (trie : Trie) : Represents trie trie.postorder (Merge.ofTrie trie) :=
  foldl (fun _ => Trie.lt_of_mem_postorder) trie.childrenFirst_postorder

end Merge.Represents

end Lexicon
