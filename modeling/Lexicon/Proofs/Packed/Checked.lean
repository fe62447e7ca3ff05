import Lexicon.Proofs.Graph.Sort
import Lexicon.Proofs.Packed.Layout
import Lexicon.Proofs.Packed.Sizing

namespace Lexicon

/-! Packing that stops where it would have to name a place that is not there, or to mark the last
link of an empty run. It never does: it ends in the same bytes, or refuses the graph for the same
reason. Where contracts are checked as well, it also stops at a label that does not fit into a
byte, and nowhere else. -/

/-- The character leaves the high bit free, or the value has four bits. -/
def Node.isWritable : Node → Bool
  | .char byte _ => byte < 0x80
  | .value v => v ≤ maxValue

def Graph.IsWritable (graph : Graph) : Prop :=
  ∀ id node, graph.Reached id → graph.node? id = some node → node.isWritable

theorem Graph.WellLabelled.isWritable {graph : Graph} (labelled : graph.WellLabelled) :
    graph.IsWritable := by
  intro id node hid hnode
  cases node with
  | value v => exact decide_eq_true (labelled.small id v hid hnode)
  | char byte children =>
      have hprintable := (labelled.printable id byte children hid hnode).2
      exact decide_eq_true (UInt8.lt_of_le_of_lt hprintable (by decide))

namespace Packed

inductive PackFault where
  | refused (error : EncodeError)
  | unsorted (error : SortError)
  | missingNode (id : Nat)
  | unplaced (id : Nat)
  | noLink (owner : Owner)
  | unwritable (id : Nat)
deriving DecidableEq, Repr

namespace Checked

open Layout

/-- The place of a child that has to have been placed. -/
def placed (layout : Layout) (id : Nat) : Except PackFault Nat :=
  match layout.place? id with
  | some place => .ok place
  | none => .error (.unplaced id)

/-- A run of links. It has to have a last link, which is then marked. -/
def run (layout : Layout) (owner : Owner) (children : List Nat) (rounds : Nat) :
    Except PackFault (List UInt8) := do
  let places ← children.mapM (placed layout)
  let run ← (sizeRun layout.size places rounds).mapError fun error =>
    .refused (.ofSizing owner rounds error)
  if run.isEmpty then
    throw (.noLink owner)
  else
    pure run

/-- Puts a node in front of all others. Where contracts are checked as well, its label has to
fit into a byte. -/
def write (contracts : Bool) (layout : Layout) (id : Nat) (node : Node) (bytes : List UInt8) :
    Except PackFault Layout :=
  if contracts && !node.isWritable then
    .error (.unwritable id)
  else
    .ok (layout.put id bytes)

def placeNode (contracts : Bool) (layout : Layout) (rounds id : Nat) (node : Node) :
    Except PackFault Layout :=
  match node with
  | .value v => write contracts layout id node [(LabelByte.value v).toByte]
  | .char byte children =>
      if children.isEmpty then
        .error (.refused (.noChildren id))
      else if layout.isNext children then
        write contracts layout id node [(LabelByte.char byte).toByte]
      else do
        let links ← run layout (.node id) children rounds
        write contracts layout id node ((LabelByte.endChar byte).toByte :: links)

def place (contracts : Bool) (graph : Graph) (rounds : Nat) (layout : Layout) (id : Nat) :
    Except PackFault Layout :=
  match graph.node? id with
  | none => .error (.missingNode id)
  | some node => placeNode contracts layout rounds id node

def encode (contracts : Bool) (graph : Graph) (rounds : Nat) : Except PackFault Buffer :=
  if graph.root.isEmpty then
    .error (.refused .emptyGraph)
  else do
    let order ← graph.sort.mapError .unsorted
    let layout ← order.reverse.foldlM (place contracts graph rounds) (blank graph.size)
    let links ← run layout .root graph.root rounds
    pure (links ++ layout.bytes).toArray

variable {contracts : Bool} {graph : Graph} {layout : Layout} {children : List Nat} {rounds : Nat}

theorem mapM_placed (settled : ∀ child ∈ children, layout.Settled child) :
    children.mapM (placed layout) = .ok (children.map layout.placeOf) := by
  induction children with
  | nil => rfl
  | cons child rest ih =>
      obtain ⟨hchild, hrest⟩ := List.forall_mem_cons.mp settled
      have hplaced : placed layout child = .ok (layout.placeOf child) := by
        rw [placed, hchild.placeOf.1]
      rw [List.mapM_cons, hplaced, ih hrest]
      rfl

theorem run_eq (settled : ∀ child ∈ children, layout.Settled child) (hne : children ≠ [])
    (owner : Owner) :
    run layout owner children rounds = (layout.run owner children rounds).mapError .refused := by
  rw [run, Layout.run, mapM_placed settled, filterMap_place? settled]
  change ((sizeRun layout.size (children.map layout.placeOf) rounds).mapError _ >>= _) = _
  cases hsize : sizeRun layout.size (children.map layout.placeOf) rounds with
  | error error => rfl
  | ok links =>
      have hlinks : links ≠ [] :=
        (connects_of_sizeRun hsize).ne_nil (mt List.map_eq_nil_iff.mp hne)
      have hempty : links.isEmpty = false := List.isEmpty_eq_false_iff.mpr hlinks
      change (if links.isEmpty then _ else _) = Except.ok links
      rw [hempty]
      rfl

/-- Checked packing comes to what packing comes to, or stops at a node that is reached and cannot
be written, the latter only where contracts are checked. -/
def Abides {α : Type} (contracts : Bool) (graph : Graph) (checked : Except PackFault α)
    (packed : Except EncodeError α) : Prop :=
  checked = packed.mapError .refused ∨
    contracts = true ∧ ∃ id node, graph.Reached id ∧ graph.node? id = some node ∧
      node.isWritable = false ∧ checked = .error (.unwritable id)

theorem Abides.bind {α β : Type} {checked : Except PackFault α} {packed : Except EncodeError α}
    {next : α → Except PackFault β} {plain : α → Except EncodeError β}
    (h : Abides contracts graph checked packed)
    (hnext : ∀ found, packed = .ok found → Abides contracts graph (next found) (plain found)) :
    Abides contracts graph (checked >>= next) (packed >>= plain) := by
  rcases h with rfl | ⟨hcontracts, id, node, hid, hnode, hlabel, rfl⟩
  · cases packed with
    | error error => exact .inl rfl
    | ok found => exact hnext found rfl
  · exact .inr ⟨hcontracts, id, node, hid, hnode, hlabel, rfl⟩

/-- Nothing stops where contracts are not checked, or hold. -/
theorem Abides.eq {α : Type} {checked : Except PackFault α} {packed : Except EncodeError α}
    (h : Abides contracts graph checked packed) (held : contracts = false ∨ graph.IsWritable) :
    checked = packed.mapError .refused := by
  rcases h with h | ⟨hcontracts, id, node, hid, hnode, hlabel, _⟩
  · exact h
  · rcases held with hnone | writable
    · cases hcontracts.symm.trans hnone
    · cases hlabel.symm.trans (writable id node hid hnode)

theorem abides_write {id : Nat} {node : Node} (reached : graph.Reached id)
    (hnode : graph.node? id = some node) (bytes : List UInt8) :
    Abides contracts graph (write contracts layout id node bytes) (.ok (layout.put id bytes)) := by
  cases contracts with
  | false => exact .inl rfl
  | true =>
      cases hlabel : node.isWritable with
      | true =>
          rw [write, hlabel]
          exact .inl rfl
      | false =>
          rw [write, hlabel]
          exact .inr ⟨rfl, id, node, reached, hnode, hlabel, rfl⟩

theorem abides_placeNode {id : Nat} {node : Node} (reached : graph.Reached id)
    (hnode : graph.node? id = some node)
    (settled : ∀ child ∈ node.children, layout.Settled child) :
    Abides contracts graph (placeNode contracts layout rounds id node)
      (layout.placeNode rounds id node) := by
  cases node with
  | value v => exact abides_write reached hnode _
  | char byte children =>
      simp only [placeNode, Layout.placeNode]
      split
      · exact .inl rfl
      · rename_i hne
        split
        · exact abides_write reached hnode _
        · have hrun : run layout (.node id) children rounds = _ :=
            run_eq settled (mt List.isEmpty_iff.mpr hne) (.node id)
          exact Abides.bind (.inl hrun) fun links _ => abides_write reached hnode _

theorem abides_place {done todo : List Nat} {id : Nat}
    (stage : Stage graph layout done (id :: todo)) :
    Abides contracts graph (place contracts graph rounds layout id)
      (Layout.place graph rounds layout id) := by
  have hid := stage.schedule.reached
  obtain ⟨node, hnode⟩ := Graph.node?_of_lt hid.lt_size
  have settled := stage.settled stage.schedule.children
  rw [Graph.children_of_node hnode] at settled
  rw [place, Layout.place, hnode]
  exact abides_placeNode hid hnode settled

/-- Children are placed before their parents. -/
theorem abides_foldlM {done todo : List Nat} (stage : Stage graph layout done todo) :
    Abides contracts graph (todo.foldlM (place contracts graph rounds) layout)
      (todo.foldlM (Layout.place graph rounds) layout) := by
  induction todo generalizing done layout with
  | nil => exact .inl rfl
  | cons id rest ih =>
      rw [List.foldlM_cons, List.foldlM_cons]
      exact (abides_place stage).bind fun placed hplace => ih (stage.next hplace)

/-- Of a graph that can be sorted, each place is there when it is named, and each run has a last
link. -/
theorem abides_encode {order : List Nat} (sorted : graph.sort = .ok order) (contracts : Bool)
    (rounds : Nat) :
    Abides contracts graph (encode contracts graph rounds) (Packed.encode graph rounds) := by
  obtain ⟨named, rfl⟩ := Graph.sort_eq_ok_iff.mp sorted
  rw [encode, Packed.encode]
  split
  · exact .inl rfl
  · rename_i hroot
    rw [sorted]
    apply (abides_foldlM (.start named)).bind
    intro layout hlayout
    have stage := Stage.finish named hlayout
    rw [run_eq (stage.settled stage.schedule.root) (mt List.isEmpty_iff.mpr hroot)]
    exact .inl (mapError_bind fun links _ => rfl)

/-- Without contracts, a graph that can be sorted is packed, or refused, as it is unchecked. -/
theorem encode_of_sort {order : List Nat} (sorted : graph.sort = .ok order) (rounds : Nat) :
    encode false graph rounds = (Packed.encode graph rounds).mapError .refused :=
  (abides_encode sorted false rounds).eq (.inl rfl)

end Checked

end Packed

end Lexicon
