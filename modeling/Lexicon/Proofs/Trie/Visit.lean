import Lexicon.Trie.Basic

namespace Lexicon.Trie

/-! The nodes of a trie from the leaves to the root. -/

variable {trie : Trie}

/-- A node behind all that lies below it. -/
def below (trie : Trie) (index : Nat) : List Nat :=
  (trie.children index).attach.flatMap (fun child => trie.below child.1) ++ [index]
termination_by trie.size - index
decreasing_by
  have := lt_of_mem_children child.2
  omega

theorem below_eq (trie : Trie) (index : Nat) :
    trie.below index = (trie.children index).flatMap trie.below ++ [index] := by
  rw [below, List.flatMap_subtype (g := trie.below) fun _ _ => rfl, List.unattach_attach]

theorem visit_eq (trie : Trie) (waiting visited : List Nat) :
    trie.visit waiting visited = waiting.reverse.flatMap trie.below ++ visited := by
  fun_induction visit trie waiting visited with
  | case1 => rfl
  | case2 visited index rest _ ih =>
      rw [ih, List.reverse_append, List.reverse_reverse, List.flatMap_append,
        List.reverse_cons, List.flatMap_append, List.flatMap_singleton, below_eq trie index]
      simp

theorem postorder_eq (trie : Trie) : trie.postorder = trie.below 0 := by
  rw [postorder, visit_eq]
  simp

theorem self_mem_below (trie : Trie) (index : Nat) : index ∈ trie.below index := by
  rw [below_eq]
  simp

/-- Each node stands behind its children. -/
inductive ChildrenFirst (trie : Trie) : List Nat → Prop
  | nil : ChildrenFirst trie []
  | concat {order : List Nat} {index : Nat} (settled : ChildrenFirst trie order)
      (children : ∀ child ∈ trie.children index, child ∈ order) :
      ChildrenFirst trie (order ++ [index])

namespace ChildrenFirst

theorem append {first second : List Nat} (hfirst : trie.ChildrenFirst first)
    (hsecond : trie.ChildrenFirst second) : trie.ChildrenFirst (first ++ second) := by
  induction hsecond with
  | nil => rwa [List.append_nil]
  | concat _ children ih =>
      rw [← List.append_assoc]
      exact ih.concat fun child hchild => List.mem_append_right _ (children child hchild)

theorem flatMap {roots : List Nat} {order : Nat → List Nat}
    (h : ∀ root ∈ roots, trie.ChildrenFirst (order root)) :
    trie.ChildrenFirst (roots.flatMap order) := by
  induction roots with
  | nil => exact .nil
  | cons root rest ih =>
      rw [List.flatMap_cons]
      exact (h root List.mem_cons_self).append
        (ih fun other hother => h other (List.mem_cons_of_mem root hother))

theorem closed {order : List Nat} (h : trie.ChildrenFirst order) {index child : Nat}
    (hindex : index ∈ order) (hchild : child ∈ trie.children index) : child ∈ order := by
  induction h with
  | nil => cases hindex
  | concat _ children ih =>
      rcases List.mem_append.mp hindex with hindex | hindex
      · exact List.mem_append_left _ (ih hindex)
      · cases List.mem_singleton.mp hindex
        exact List.mem_append_left _ (children child hchild)

end ChildrenFirst

theorem childrenFirst_below (trie : Trie) (index : Nat) : trie.ChildrenFirst (trie.below index) := by
  fun_induction below trie index with
  | case1 index ih =>
      rw [List.flatMap_subtype (g := trie.below) fun _ _ => rfl, List.unattach_attach]
      refine .concat (.flatMap fun child hchild => ih ⟨child, hchild⟩) fun child hchild => ?_
      exact List.mem_flatMap.mpr ⟨child, hchild, self_mem_below trie child⟩

theorem childrenFirst_postorder (trie : Trie) : trie.ChildrenFirst trie.postorder := by
  rw [postorder_eq]
  exact childrenFirst_below trie 0

theorem lt_of_mem_below {index found : Nat} (hindex : index < trie.size)
    (h : found ∈ trie.below index) : found < trie.size := by
  fun_induction below trie index with
  | case1 index ih =>
      rcases List.mem_append.mp h with h | h
      · obtain ⟨child, _, hfound⟩ := List.mem_flatMap.mp h
        exact ih child (lt_of_mem_children child.2).2 hfound
      · rwa [List.mem_singleton.mp h]

theorem lt_of_mem_postorder {index : Nat} (h : index ∈ trie.postorder) : index < trie.size := by
  rw [postorder_eq] at h
  exact lt_of_mem_below trie.nonempty h

theorem zero_mem_postorder (trie : Trie) : 0 ∈ trie.postorder := by
  rw [postorder_eq]
  exact self_mem_below trie 0

end Lexicon.Trie
