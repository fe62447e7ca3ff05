import Lexicon.Graph.Order

namespace Lexicon

/-! The order of a graph by a walk that checks what it does. The walk from the root counts the
references to each node, those of the root among them; these are taken back before the first
node is released. A reference that is not there cannot be taken back, and in the end all
nodes that were seen have to be listed. -/

inductive SortError where
  | noReference (id : Nat)
  | cycle (remaining : Nat)
deriving DecidableEq, Repr

structure Tally where
  incoming : Array Nat
  seen : Array Bool
  reachable : Nat
deriving Repr

namespace Tally

def start (graph : Graph) : Tally where
  incoming := Array.replicate graph.size 0
  seen := Array.replicate graph.size false
  reachable := 0

/-- Nothing is to be seen outside of the graph. -/
def isSeen (tally : Tally) (id : Nat) : Bool :=
  tally.seen.getD id true

def refer (tally : Tally) (id : Nat) : Tally :=
  { tally with incoming := tally.incoming.modify id (· + 1) }

def see (tally : Tally) (id : Nat) : Tally :=
  { tally with
    seen := tally.seen.setIfInBounds id true
    reachable := tally.reachable + 1 }

def unseen (tally : Tally) : Nat :=
  tally.seen.toList.count false

theorem unseen_see_lt {tally : Tally} {id : Nat} (h : ¬ tally.isSeen id) :
    (tally.see id).unseen < tally.unseen := by
  have hget : tally.seen.toList[id]? = some false := by
    rw [Array.getElem?_toList]
    cases hseen : tally.seen[id]? with
    | none => simp [isSeen, Array.getD_eq_getD_getElem?, hseen] at h
    | some seen => simpa [isSeen, Array.getD_eq_getD_getElem?, hseen] using h
  obtain ⟨hlt, hfalse⟩ := List.getElem?_eq_some_iff.mp hget
  have hpositive : 0 < tally.seen.toList.count false :=
    List.count_pos_iff.mpr (hfalse ▸ List.getElem_mem hlt)
  rw [unseen, unseen, see, Array.toList_setIfInBounds, List.count_set hlt, hfalse]
  simp only [beq_self_eq_true, if_true]
  exact Nat.sub_lt hpositive Nat.one_pos

/-- Counts the references that wait, and those of a node when it is seen first. -/
def walk (graph : Graph) (waiting : List Nat) (tally : Tally) : Tally :=
  match waiting with
  | [] => tally
  | id :: rest =>
      if h : tally.isSeen id then
        walk graph rest (tally.refer id)
      else
        have : ((tally.refer id).see id).unseen < tally.unseen := unseen_see_lt h
        walk graph (graph.children id ++ rest) ((tally.refer id).see id)
termination_by (tally.unseen, waiting.length)
decreasing_by
  · exact Prod.Lex.right _ (Nat.lt_succ_self _)
  · exact Prod.Lex.left _ _ this

end Tally

/-- The references with one to this node less. -/
def takeReference (references : Array Nat) (id : Nat) : Except SortError (Array Nat) :=
  match references[id]? with
  | some (count + 1) => .ok (references.setIfInBounds id count)
  | _ => .error (.noReference id)

namespace Release

/-- A reference to a child is taken back; its last one sets the child free. -/
def dropReference? (release : Release) (child : Nat) : Except SortError Release := do
  let references ← takeReference release.references child
  let free := references[child]? == some 0
  pure ⟨if free then child :: release.waiting else release.waiting, references⟩

theorem dropReference_of_ok {release dropped : Release} {child : Nat}
    (h : release.dropReference? child = .ok dropped) : dropped = release.dropReference child := by
  unfold dropReference? takeReference at h
  split at h
  · rename_i count hcount
    cases h
    obtain ⟨hlt, hget⟩ := Array.getElem?_eq_some_iff.mp hcount
    simp [dropReference, hlt, hget]
  · cases h

theorem foldl_dropReference_of_ok {children : List Nat} {release dropped : Release}
    (h : children.foldlM dropReference? release = .ok dropped) :
    dropped = children.foldl dropReference release := by
  induction children generalizing release with
  | nil =>
      cases h
      rfl
  | cons child rest ih =>
      rw [List.foldlM_cons] at h
      cases hdrop : release.dropReference? child with
      | error error =>
          rw [hdrop] at h
          cases h
      | ok next =>
          rw [hdrop] at h
          rw [List.foldl_cons, ← dropReference_of_ok hdrop]
          exact ih h

/-- Lists the nodes that wait and all that they set free, the first one last. -/
def list? (graph : Graph) (release : Release) (listed : List Nat) :
    Except SortError (List Nat) :=
  match release with
  | ⟨[], _⟩ => .ok listed
  | ⟨id :: waiting, references⟩ =>
      match h : (graph.children id).foldlM dropReference? ⟨waiting, references⟩ with
      | .error error => .error error
      | .ok dropped =>
          have : dropped.weight < waiting.length + 1 + references.toList.foldr (· + ·) 0 := by
            have := weight_foldl_dropReference (graph.children id) ⟨waiting, references⟩
            rw [← foldl_dropReference_of_ok h] at this
            simp only [weight] at this ⊢
            omega
          list? graph dropped (id :: listed)
termination_by release.weight

end Release

/-- The nodes that the root reaches, parents before their children. -/
def Graph.sort (graph : Graph) : Except SortError (List Nat) := do
  let tally := Tally.walk graph graph.root (Tally.start graph)
  let references ← graph.root.foldlM takeReference tally.incoming
  let free := graph.root.filter fun id => references[id]? == some 0
  let listed ← Release.list? graph ⟨free.reverse, references⟩ []
  if listed.length = tally.reachable then
    pure listed.reverse
  else
    throw (.cycle (tally.reachable - listed.length))

end Lexicon
