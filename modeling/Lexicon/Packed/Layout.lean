import Lexicon.Graph.Order
import Lexicon.Packed.Label
import Lexicon.Packed.Sizing

namespace Lexicon.Packed

/-! The packed form of a graph. It is laid out from its end: children come before
their parents, and the bytes placed so far are the end of the buffer. The place of
a node is the number of bytes from its first one to that end. -/

inductive Owner where
  | root
  | node (id : Nat)
deriving DecidableEq, Repr

def Owner.text : Owner → String
  | .root => "root"
  | .node id => "node " ++ Node.idText id

inductive EncodeError where
  | emptyGraph
  | noChildren (id : Nat)
  | distanceOutOfRange (owner : Owner) (distance : Nat)
  | sizingDidNotConverge (owner : Owner) (rounds : Nat)
deriving DecidableEq, Repr

namespace EncodeError

def message : EncodeError → String
  | .emptyGraph => "the dictionary is empty"
  | .noChildren id => "node " ++ Node.idText id ++ " has no children"
  | .distanceOutOfRange owner distance =>
      owner.text ++ " needs a link distance of " ++ toString distance ++ ", outside of 1..2^21"
  | .sizingDidNotConverge owner rounds =>
      "link run of " ++ owner.text ++ " did not settle after " ++ toString rounds ++
        " sizing rounds"

def ofSizing (owner : Owner) (rounds : Nat) : SizingError → EncodeError
  | .distance distance => .distanceOutOfRange owner distance
  | .unsettled => .sizingDidNotConverge owner rounds

end EncodeError

structure Layout where
  bytes : List UInt8
  size : Nat
  places : Array (Option Nat)
  size_eq : size = bytes.length

namespace Layout

def blank (nodes : Nat) : Layout where
  bytes := []
  size := 0
  places := Array.replicate nodes none
  size_eq := rfl

def place? (layout : Layout) (id : Nat) : Option Nat :=
  layout.places.getD id none

/-- Puts the bytes of a node in front of all others. -/
def put (layout : Layout) (id : Nat) (bytes : List UInt8) : Layout where
  bytes := bytes ++ layout.bytes
  size := bytes.length + layout.size
  places := layout.places.setIfInBounds id (some (bytes.length + layout.size))
  size_eq := by simp [layout.size_eq]

def run (layout : Layout) (owner : Owner) (children : List Nat) (rounds : Nat) :
    Except EncodeError (List UInt8) :=
  (sizeRun layout.size (children.filterMap layout.place?) rounds).mapError
    (EncodeError.ofSizing owner rounds)

/-- The label of an only child that comes next goes on with its label; all other
nodes close theirs and link to their children. -/
def isNext (layout : Layout) : List Nat → Bool
  | [only] => layout.place? only == some layout.size
  | _ => false

def placeNode (layout : Layout) (rounds id : Nat) : Node → Except EncodeError Layout
  | .value v => .ok (layout.put id [(LabelByte.value v).toByte])
  | .char byte children =>
      if children.isEmpty then
        .error (.noChildren id)
      else if layout.isNext children then
        .ok (layout.put id [(LabelByte.char byte).toByte])
      else do
        let run ← layout.run (.node id) children rounds
        pure (layout.put id ((LabelByte.endChar byte).toByte :: run))

def place (graph : Graph) (rounds : Nat) (layout : Layout) (id : Nat) :
    Except EncodeError Layout :=
  match graph.node? id with
  | none => .ok layout
  | some node => layout.placeNode rounds id node

def ofGraph (graph : Graph) (rounds : Nat) : Except EncodeError Layout :=
  graph.order.reverse.foldlM (place graph rounds) (blank graph.size)

end Layout

/-- As many trials as a run may take to settle when nothing else is said. -/
def defaultRounds : Nat := 8

/-- Packs a graph: the links of the root, then all nodes that it reaches. -/
def encode (graph : Graph) (rounds : Nat) : Except EncodeError Buffer :=
  if graph.root.isEmpty then
    .error .emptyGraph
  else do
    let layout ← Layout.ofGraph graph rounds
    let run ← layout.run .root graph.root rounds
    pure (run ++ layout.bytes).toArray

end Lexicon.Packed
