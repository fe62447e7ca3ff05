import Lexicon.Graph.Basic

namespace Lexicon

/-! Parents before children. A census finds the nodes that the root reaches and
counts the references to each from reached nodes. The nodes are then listed one
by one, each as soon as no reference to it is left; of the nodes that wait, the
one released last is listed next. The root's own references hold nothing back. -/

structure Census where
  reached : Array Bool
  references : Array Nat
deriving Repr

namespace Census

def start (graph : Graph) : Census where
  reached := graph.root.foldl (fun reached id => reached.setIfInBounds id true)
    (Array.replicate graph.size false)
  references := Array.replicate graph.size 0

def refer (census : Census) (child : Nat) : Census where
  reached := census.reached.setIfInBounds child true
  references := census.references.modify child (· + 1)

def isReached (census : Census) (id : Nat) : Bool :=
  census.reached.getD id false

def visit (graph : Graph) (census : Census) (id : Nat) : Census :=
  if census.isReached id then
    (graph.children id).foldl refer census
  else
    census

/-- Visits the nodes below `bound`, from the last to the first. All parents of a
node come later in the arena, so that they are visited before it. -/
def sweep (graph : Graph) : Nat → Census → Census
  | 0, census => census
  | id + 1, census => sweep graph id (census.visit graph id)

end Census

def Graph.census (graph : Graph) : Census :=
  Census.sweep graph graph.size (Census.start graph)

/-! The nodes that wait, the next one first, and the references that are left. -/

structure Release where
  waiting : List Nat
  references : Array Nat
deriving Repr

namespace Release

/-- The root's last child without a reference to it is the first to be listed. -/
def start (graph : Graph) : Release :=
  let references := graph.census.references
  ⟨(graph.root.filter fun id => references[id]? == some 0).reverse, references⟩

/-- One reference to a child less. Its last one sets the child free. -/
def dropReference (release : Release) (child : Nat) : Release :=
  match release.references[child]? with
  | none => release
  | some count =>
      { waiting := if count = 1 then child :: release.waiting else release.waiting
        references := release.references.setIfInBounds child (count - 1) }

def weight (release : Release) : Nat :=
  release.waiting.length + release.references.toList.foldr (· + ·) 0

theorem sum_set_add (counts : List Nat) (index value : Nat) (h : index < counts.length) :
    (counts.set index value).foldr (· + ·) 0 + counts[index] =
      counts.foldr (· + ·) 0 + value := by
  induction counts generalizing index with
  | nil => simp at h
  | cons count rest ih =>
      cases index with
      | zero =>
          simp only [List.set_cons_zero, List.foldr_cons, List.getElem_cons_zero]
          omega
      | succ index =>
          have := ih index (by simpa using h)
          simp only [List.set_cons_succ, List.foldr_cons, List.getElem_cons_succ]
          omega

theorem weight_dropReference (release : Release) (child : Nat) :
    (release.dropReference child).weight ≤ release.weight := by
  unfold dropReference
  split
  · exact Nat.le_refl _
  · rename_i count hcount
    obtain ⟨hlt, rfl⟩ := Array.getElem?_eq_some_iff.mp hcount
    have hsum := sum_set_add release.references.toList child (release.references[child] - 1)
      (by simpa using hlt)
    simp only [Array.getElem_toList] at hsum
    simp only [weight, Array.toList_setIfInBounds]
    split
    · simp only [List.length_cons]
      omega
    · omega

theorem weight_foldl_dropReference (children : List Nat) (release : Release) :
    (children.foldl dropReference release).weight ≤ release.weight := by
  induction children generalizing release with
  | nil => exact Nat.le_refl _
  | cons child rest ih =>
      exact Nat.le_trans (ih _) (weight_dropReference release child)

/-- Lists the nodes that wait and all that they set free, the first one last. -/
def list (graph : Graph) : Release → List Nat → List Nat
  | ⟨[], _⟩, listed => listed
  | ⟨id :: waiting, references⟩, listed =>
      list graph ((graph.children id).foldl dropReference ⟨waiting, references⟩) (id :: listed)
termination_by release => release.weight
decreasing_by
  have := weight_foldl_dropReference (graph.children id) ⟨waiting, references⟩
  simp only [weight, List.length_cons] at this ⊢
  omega

end Release

/-- The nodes that the root reaches, parents before their children. -/
def Graph.order (graph : Graph) : List Nat :=
  ((Release.start graph).list graph []).reverse

end Lexicon
