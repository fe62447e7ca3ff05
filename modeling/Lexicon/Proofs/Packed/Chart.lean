import Lexicon.Proofs.Packed.Layout

namespace Lexicon.Packed

/-! What a graph is packed into. -/

/-- A node is packed at this position, and its children where `start` says. -/
inductive Laid (buffer : Buffer) (start : Nat → Nat) (position : Nat) : Node → Prop
  | value {v : UInt8} (byte : buffer[position]? = some (LabelByte.value v).toByte) :
      Laid buffer start position (.value v)
  | next {letter : UInt8} {only : Nat}
      (byte : buffer[position]? = some (LabelByte.char letter).toByte)
      (after : start only = position + 1) : Laid buffer start position (.char letter [only])
  | links {letter : UInt8} {children : List Nat}
      (byte : buffer[position]? = some (LabelByte.endChar letter).toByte)
      (leads : Run.LeadsTo buffer (position + 1) (children.map start)) :
      Laid buffer start position (.char letter children)

/-- A buffer holds a graph, each of its nodes where `start` says. -/
structure Holds (buffer : Buffer) (graph : Graph) (start : Nat → Nat) : Prop where
  root : Run.LeadsTo buffer 0 (graph.root.map start)
  node : ∀ id node, graph.Reached id → graph.node? id = some node →
    Laid buffer start (start id) node

/-! The bytes of a packed graph fall to the links of the root and to its nodes, and each byte
to one of them only. -/

/-- All bytes up to `stop` belong to this run, and it leads to none of them. -/
structure Run.Fills (buffer : Buffer) (start stop : Nat) (places : List Nat) : Prop
    extends Run.LeadsTo buffer start places where
  tiles : Tiles start (Run.read buffer start).links stop
  behind : ∀ place ∈ places, stop ≤ place

/-- What the bytes of a node are. -/
inductive Occupies (buffer : Buffer) (start stop : Nat → Nat) (id : Nat) : Node → Prop
  | value {v : UInt8} (byte : buffer[start id]? = some (LabelByte.value v).toByte)
      (stop_eq : stop id = start id + 1) : Occupies buffer start stop id (.value v)
  | next {letter : UInt8} {only : Nat}
      (byte : buffer[start id]? = some (LabelByte.char letter).toByte)
      (stop_eq : stop id = start id + 1) (after : start only = start id + 1) :
      Occupies buffer start stop id (.char letter [only])
  | links {letter : UInt8} {children : List Nat}
      (byte : buffer[start id]? = some (LabelByte.endChar letter).toByte)
      (fills : Run.Fills buffer (start id + 1) (stop id) (children.map start)) :
      Occupies buffer start stop id (.char letter children)

theorem Occupies.laid {buffer : Buffer} {start stop : Nat → Nat} {id : Nat} {node : Node}
    (h : Occupies buffer start stop id node) : Laid buffer start (start id) node := by
  cases h with
  | value byte => exact .value byte
  | next byte _ after => exact .next byte after
  | links byte fills => exact .links byte fills.toLeadsTo

/-- Where the bytes of each node are; those of the root are in front of all others. -/
structure Chart (buffer : Buffer) (graph : Graph) where
  start : Nat → Nat
  stop : Nat → Nat
  front : Nat
  root : Run.Fills buffer 0 front (graph.root.map start)
  node : ∀ id node, graph.Reached id → graph.node? id = some node →
    Occupies buffer start stop id node
  bounds : ∀ id, graph.Reached id → front ≤ start id ∧ start id < stop id ∧ stop id ≤ buffer.size
  apart : ∀ id other, graph.Reached id → graph.Reached other → id ≠ other →
    stop id ≤ start other ∨ stop other ≤ start id
  covers : ∀ position, front ≤ position → position < buffer.size →
    ∃ id, graph.Reached id ∧ start id ≤ position ∧ position < stop id

theorem Chart.holds {buffer : Buffer} {graph : Graph} (chart : Chart buffer graph) :
    Holds buffer graph chart.start where
  root := chart.root.toLeadsTo
  node := fun id node hid hnode => (chart.node id node hid hnode).laid

theorem Connects.fills {buffer : Buffer} {behind start : Nat} {places : List Nat}
    {run : List UInt8} (h : Connects behind places run) (hplaces : places ≠ [])
    (hbehind : ∀ place ∈ places, 0 < place ∧ place ≤ behind)
    (hstart : start + run.length + behind = buffer.size) (hshows : Shows buffer start run) :
    Run.Fills buffer start (start + run.length) (places.map (buffer.size - ·)) := by
  obtain ⟨links, hread, htargets, htiles⟩ := h.exists_read hplaces hbehind hstart hshows
  refine ⟨⟨by rw [hread], by rw [hread]; exact htargets⟩, by rw [hread]; exact htiles, ?_⟩
  intro target htarget
  obtain ⟨place, hplace, rfl⟩ := List.mem_map.mp htarget
  have := (hbehind place hplace).2
  omega

/-- A text that stands in a buffer is read as the node that it is written for. -/
theorem Layout.Text.occupies {buffer : Buffer} {placeOf stop : Nat → Nat} {id : Nat} {node : Node}
    {text : List UInt8} (htext : Text placeOf (placeOf id) node text)
    (hplace : placeOf id ≤ buffer.size) (hstop : stop id = buffer.size - placeOf id + text.length)
    (hshows : Shows buffer (buffer.size - placeOf id) text) :
    Occupies buffer (fun id => buffer.size - placeOf id) stop id node := by
  cases htext with
  | value => exact .value hshows.1 hstop
  | next after => exact .next hshows.1 hstop (by omega)
  | @links letter children behind run children_ne place_eq behind_le connects =>
      refine .links hshows.1 ?_
      have hplaces : ∀ place ∈ children.map placeOf, 0 < place ∧ place ≤ behind := by
        intro place hplace
        obtain ⟨child, hchild, rfl⟩ := List.mem_map.mp hplace
        exact behind_le child hchild
      have hfills := connects.fills (mt List.map_eq_nil_iff.mp children_ne) hplaces (by omega)
        hshows.2
      rw [List.map_map] at hfills
      have hend : stop id = buffer.size - placeOf id + 1 + run.length := by
        rw [hstop, List.length_cons]
        omega
      rw [hend]
      exact hfills

theorem exists_chart {graph : Graph} {rounds : Nat} {buffer : Buffer}
    (named : graph.NamedOnce) (h : encode graph rounds = .ok buffer) :
    Nonempty (Chart buffer graph) := by
  rw [encode] at h
  split at h
  · cases h
  · rename_i hroot
    obtain ⟨layout, hlayout, h⟩ := bind_eq_ok.mp h
    obtain ⟨run, hrun, h⟩ := bind_eq_ok.mp h
    have hbuffer : (run ++ layout.bytes).toArray = buffer := Except.ok.inj h
    obtain ⟨texts, keeps⟩ := Layout.exists_keeps named hlayout
    have hmem : ∀ id, id ∈ graph.order.reverse ↔ graph.Reached id := named.order_reverse.2.2
    have stacked : ∀ id, graph.Reached id → id ∈ graph.order.reverse.reverse := fun id hid =>
      List.mem_reverse.mpr ((hmem id).mpr hid)
    have settled : ∀ id, graph.Reached id → 0 < layout.placeOf id ∧ layout.placeOf id ≤ layout.size :=
      fun id hid => (keeps.settled id ((hmem id).mpr hid)).placeOf.2
    have hsize : buffer.size = run.length + layout.size := by
      rw [← hbuffer, List.size_toArray, List.length_append, layout.size_eq]
    have occupies : ∀ id node, graph.Reached id → graph.node? id = some node →
        Occupies buffer (fun id => buffer.size - layout.placeOf id)
          (fun id => buffer.size - layout.placeOf id + (texts id).length) id node := by
      intro id node hid hnode
      have hshows := ((keeps.stacked.standsAt id (stacked id hid)).append run).shows
      rw [hbuffer] at hshows
      have hle := (settled id hid).2
      exact (keeps.written id ((hmem id).mpr hid) node hnode).occupies (by omega) rfl hshows
    have root : Run.Fills buffer 0 run.length
        (graph.root.map fun id => buffer.size - layout.placeOf id) := by
      have connects := Layout.connects_of_run
        (fun child hchild => keeps.settled child ((hmem child).mpr (.root hchild))) hrun
      have hplaces : ∀ place ∈ graph.root.map layout.placeOf, 0 < place ∧ place ≤ layout.size := by
        intro place hplace
        obtain ⟨child, hchild, rfl⟩ := List.mem_map.mp hplace
        exact settled child (.root hchild)
      have hne : graph.root.map layout.placeOf ≠ [] := by
        intro hnil
        exact hroot (List.isEmpty_iff.mpr (List.map_eq_nil_iff.mp hnil))
      have hshows : Shows buffer 0 run := hbuffer ▸ shows_toArray [] run layout.bytes
      have hfills := connects.fills hne hplaces (by omega) hshows
      rwa [List.map_map, Nat.zero_add] at hfills
    refine ⟨⟨_, _, _, root, occupies, ?_, ?_, ?_⟩⟩
    · intro id hid
      have hfits := (keeps.stacked.bounds id (stacked id hid)).1
      have hplace := settled id hid
      obtain ⟨node, hnode⟩ := Graph.node?_of_lt hid.lt_size
      have hpositive := (keeps.written id ((hmem id).mpr hid) node hnode).length_pos
      omega
    · intro id other hid hother hne
      have hplace := settled id hid
      have hotherPlace := settled other hother
      have hfits := (keeps.stacked.bounds id (stacked id hid)).1
      have hotherFits := (keeps.stacked.bounds other (stacked other hother)).1
      have := keeps.stacked.apart (stacked id hid) (stacked other hother) hne
      omega
    · intro position hfront hposition
      have hplace : 0 < buffer.size - position := by omega
      have hle : buffer.size - position ≤ layout.bytes.length := by
        rw [← layout.size_eq]
        omega
      obtain ⟨id, hid, hcovers⟩ := keeps.stacked.exists_covers hplace hle
      have hreached := (hmem id).mp (List.mem_reverse.mp hid)
      have hplace := settled id hreached
      exact ⟨id, hreached, by omega, by omega⟩

theorem exists_holds {graph : Graph} {rounds : Nat} {buffer : Buffer}
    (named : graph.NamedOnce) (h : encode graph rounds = .ok buffer) :
    ∃ start, Holds buffer graph start :=
  (exists_chart named h).elim fun chart => ⟨chart.start, chart.holds⟩

end Lexicon.Packed
