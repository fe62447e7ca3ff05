import Lexicon.Proofs.Packed.Checked
import Lexicon.Proofs.RoundTrip

namespace Lexicon

/-! Graphs that can be packed. -/

namespace Graph

variable {graph : Graph}

/-- The root has children, and so has each character that is reached; none of them has a child
twice. -/
structure Spread (graph : Graph) : Prop where
  root_ne_nil : graph.root ≠ []
  root_nodup : graph.root.Nodup
  inner : ∀ id byte children, graph.Reached id → graph.node? id = some (.char byte children) →
    children ≠ [] ∧ children.Nodup

theorem Spread.namedOnce (spread : graph.Spread) : graph.NamedOnce := fun id _ =>
  List.nodup_iff_count_le_one.mp spread.root_nodup id

theorem Reduced.spread (reduced : graph.Reduced) (hroot : graph.root ≠ []) : graph.Spread where
  root_ne_nil := hroot
  root_nodup := List.Nodup.of_map _ reduced.root_distinct
  inner := by
    intro id byte children hid hnode
    constructor
    · rintro rfl
      exact reduced.inner id byte hnode
    · rw [← children_of_char hnode]
      exact List.Nodup.of_map _ (reduced.distinct id hid)

/-- As many bytes as these nodes can take with their links. -/
def room (graph : Graph) (ids : List Nat) : Nat :=
  (ids.map fun id => 1 + 3 * (graph.children id).length).sum

end Graph

namespace Packed

/-- What comes out has no more bytes than there is room for, or a distance was out of range. The
latter takes room for as many bytes as such a distance spans. -/
def Bounded {α : Type} (size : α → Nat) (room : Nat) (result : Except EncodeError α) : Prop :=
  (∃ found, result = .ok found ∧ size found ≤ room) ∨
    distanceBound ≤ room ∧ ∃ owner distance, result = .error (.distanceOutOfRange owner distance)

theorem Bounded.bind {α β : Type} {size : α → Nat} {sizeOfNext : β → Nat} {room more : Nat}
    {result : Except EncodeError α} (h : Bounded size room result) (hroom : room ≤ more)
    {next : α → Except EncodeError β}
    (hnext : ∀ found, result = .ok found → size found ≤ room →
      Bounded sizeOfNext more (next found)) :
    Bounded sizeOfNext more (result >>= next) := by
  rcases h with ⟨found, rfl, hsize⟩ | ⟨hfar, owner, distance, rfl⟩
  · exact hnext found rfl hsize
  · exact .inr ⟨Nat.le_trans hfar hroom, owner, distance, rfl⟩

/-! Distances between different places are positive, and are in range if all bytes are. -/

namespace Layout

variable {graph : Graph} {layout : Layout} {children : List Nat} {rounds : Nat}

namespace Stage

variable {done todo : List Nat}

end Stage

end Layout

end Packed

end Lexicon
