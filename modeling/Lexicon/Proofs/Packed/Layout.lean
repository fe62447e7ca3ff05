import Lexicon.Packed.Layout
import Lexicon.Proofs.Graph.Release
import Lexicon.Proofs.Packed.Run

namespace Lexicon.Packed

namespace Layout

/-! While a graph is laid out, places are counted from the end of the buffer. -/

/-- Text stands at a place if it begins there. -/
def StandsAt (bytes : List UInt8) (place : Nat) (text : List UInt8) : Prop :=
  ∃ before after, bytes = before ++ text ++ after ∧ place = text.length + after.length

theorem StandsAt.append {bytes text : List UInt8} {place : Nat} (h : StandsAt bytes place text)
    (front : List UInt8) : StandsAt (front ++ bytes) place text := by
  obtain ⟨before, after, rfl, hplace⟩ := h
  exact ⟨front ++ before, after, by simp only [List.append_assoc], hplace⟩

theorem StandsAt.shows {bytes text : List UInt8} {place : Nat} (h : StandsAt bytes place text) :
    Shows bytes.toArray (bytes.toArray.size - place) text := by
  obtain ⟨before, after, rfl, rfl⟩ := h
  have hstart : (before ++ text ++ after).toArray.size - (text.length + after.length) =
      before.length := by
    simp only [List.size_toArray, List.length_append]
    omega
  rw [hstart]
  exact shows_toArray before text after

/-- The texts of these nodes, the last one placed first, are all of the bytes. -/
def Stacked (placeOf : Nat → Nat) (text : Nat → List UInt8) : List Nat → List UInt8 → Prop
  | [], bytes => bytes = []
  | id :: rest, bytes =>
      placeOf id = bytes.length ∧ ∃ below, bytes = text id ++ below ∧ Stacked placeOf text rest below

namespace Stacked

variable {placeOf : Nat → Nat} {text : Nat → List UInt8} {ids : List Nat} {bytes : List UInt8}

theorem congr (h : Stacked placeOf text ids bytes) {places : Nat → Nat}
    {texts : Nat → List UInt8} (same : ∀ id ∈ ids, placeOf id = places id ∧ text id = texts id) :
    Stacked places texts ids bytes := by
  induction ids generalizing bytes with
  | nil => exact h
  | cons id rest ih =>
      obtain ⟨hplace, below, hbytes, hbelow⟩ := h
      obtain ⟨⟨hsamePlace, hsameText⟩, hsame⟩ := List.forall_mem_cons.mp same
      exact ⟨hsamePlace ▸ hplace, below, hsameText ▸ hbytes, ih hbelow hsame⟩

theorem standsAt (h : Stacked placeOf text ids bytes) :
    ∀ id ∈ ids, StandsAt bytes (placeOf id) (text id) := by
  induction ids generalizing bytes with
  | nil => exact nofun
  | cons id rest ih =>
      obtain ⟨hplace, below, rfl, hbelow⟩ := h
      refine List.forall_mem_cons.mpr ⟨⟨[], below, rfl, ?_⟩, fun other hother => ?_⟩
      · rw [hplace, List.length_append]
      · exact (ih hbelow other hother).append (text id)

theorem bounds (h : Stacked placeOf text ids bytes) :
    ∀ id ∈ ids, (text id).length ≤ placeOf id ∧ placeOf id ≤ bytes.length := by
  intro id hid
  obtain ⟨before, after, rfl, hplace⟩ := h.standsAt id hid
  simp only [List.length_append]
  omega

theorem apart (h : Stacked placeOf text ids bytes) {id other : Nat} (hid : id ∈ ids)
    (hother : other ∈ ids) (hne : id ≠ other) :
    placeOf id + (text other).length ≤ placeOf other ∨
      placeOf other + (text id).length ≤ placeOf id := by
  induction ids generalizing bytes with
  | nil => cases hid
  | cons first rest ih =>
      obtain ⟨hplace, below, rfl, hbelow⟩ := h
      rw [List.length_append] at hplace
      rcases List.mem_cons.mp hid with rfl | hidRest
      · have := (hbelow.bounds other ((List.mem_cons.mp hother).resolve_left (Ne.symm hne))).2
        omega
      · rcases List.mem_cons.mp hother with rfl | hotherRest
        · have := (hbelow.bounds id hidRest).2
          omega
        · exact ih hbelow hidRest hotherRest

theorem exists_covers (h : Stacked placeOf text ids bytes) {place : Nat} (hpositive : 0 < place)
    (hle : place ≤ bytes.length) :
    ∃ id ∈ ids, place ≤ placeOf id ∧ placeOf id < place + (text id).length := by
  induction ids generalizing bytes with
  | nil =>
      cases h
      rw [List.length_nil] at hle
      omega
  | cons first rest ih =>
      obtain ⟨hplace, below, rfl, hbelow⟩ := h
      rw [List.length_append] at hplace hle
      by_cases hlow : place ≤ below.length
      · obtain ⟨id, hid, hcovers⟩ := ih hbelow hlow
        exact ⟨id, List.mem_cons_of_mem first hid, hcovers⟩
      · exact ⟨first, List.mem_cons_self, by omega, by omega⟩

end Stacked

def placeOf (layout : Layout) (id : Nat) : Nat :=
  (layout.place? id).getD 0

/-- The bytes of a node that is packed at this place. -/
inductive Text (placeOf : Nat → Nat) (place : Nat) : Node → List UInt8 → Prop
  | value {v : UInt8} : Text placeOf place (.value v) [(LabelByte.value v).toByte]
  | next {letter : UInt8} {only : Nat} (after : place = placeOf only + 1) :
      Text placeOf place (.char letter [only]) [(LabelByte.char letter).toByte]
  | links {letter : UInt8} {children : List Nat} {behind : Nat} {run : List UInt8}
      (children_ne : children ≠ []) (place_eq : place = behind + run.length + 1)
      (behind_le : ∀ child ∈ children, 0 < placeOf child ∧ placeOf child ≤ behind)
      (connects : Connects behind (children.map placeOf) run) :
      Text placeOf place (.char letter children) ((LabelByte.endChar letter).toByte :: run)

theorem Text.congr {first second : Nat → Nat} {place : Nat} {node : Node} {text : List UInt8}
    (h : Text first place node text) (hsame : ∀ child ∈ node.children, first child = second child) :
    Text second place node text := by
  cases h with
  | value => exact .value
  | next after => exact .next (hsame _ List.mem_cons_self ▸ after)
  | @links letter children behind run children_ne place_eq behind_le connects =>
      have hplaces : children.map first = children.map second := List.map_congr_left hsame
      exact .links children_ne place_eq
        (fun child hchild => hsame child hchild ▸ behind_le child hchild) (hplaces ▸ connects)

theorem Text.length_pos {placeOf : Nat → Nat} {place : Nat} {node : Node} {text : List UInt8}
    (h : Text placeOf place node text) : 0 < text.length := by
  cases h <;> exact Nat.succ_pos _

/-- A child that has its place already. -/
def Settled (layout : Layout) (id : Nat) : Prop :=
  ∃ place, layout.place? id = some place ∧ 0 < place ∧ place ≤ layout.size

theorem Settled.placeOf {layout : Layout} {id : Nat} (h : layout.Settled id) :
    layout.place? id = some (layout.placeOf id) ∧ 0 < layout.placeOf id ∧
      layout.placeOf id ≤ layout.size := by
  obtain ⟨place, hplace, hbounds⟩ := h
  rw [Layout.placeOf, hplace]
  exact ⟨rfl, hbounds⟩

theorem filterMap_place? {layout : Layout} {children : List Nat}
    (settled : ∀ child ∈ children, layout.Settled child) :
    children.filterMap layout.place? = children.map layout.placeOf := by
  rw [← List.filterMap_eq_map]
  exact List.filterMap_congr fun child hchild => (settled child hchild).placeOf.1

theorem run_eq_ok_iff {layout : Layout} {owner : Owner} {children : List Nat} {rounds : Nat}
    {run : List UInt8} : layout.run owner children rounds = .ok run ↔
      sizeRun layout.size (children.filterMap layout.place?) rounds = .ok run :=
  mapError_eq_ok_iff

theorem connects_of_run {layout : Layout} {owner : Owner} {children : List Nat} {rounds : Nat}
    {run : List UInt8} (settled : ∀ child ∈ children, layout.Settled child)
    (h : layout.run owner children rounds = .ok run) :
    Connects layout.size (children.map layout.placeOf) run := by
  rw [run_eq_ok_iff, filterMap_place? settled] at h
  exact connects_of_sizeRun h

theorem isNext_iff {layout : Layout} {children : List Nat} :
    layout.isNext children ↔ ∃ only, children = [only] ∧ layout.place? only = some layout.size := by
  unfold isNext
  split <;> simp_all

/-- All that placing a node can do. -/
theorem placeNode_eq_ok {layout after : Layout} {rounds id : Nat} {node : Node}
    (settled : ∀ child ∈ node.children, layout.Settled child)
    (h : layout.placeNode rounds id node = .ok after) :
    ∃ text, after = layout.put id text ∧ text ≠ [] ∧
      Text layout.placeOf (text.length + layout.size) node text := by
  cases node with
  | value v =>
      cases h
      exact ⟨_, rfl, List.cons_ne_nil _ _, .value⟩
  | char letter children =>
      rw [placeNode] at h
      split at h
      · cases h
      · rename_i hempty
        split at h
        · rename_i hnext
          obtain ⟨only, rfl, honly⟩ := isNext_iff.mp hnext
          cases h
          refine ⟨_, rfl, List.cons_ne_nil _ _, .next ?_⟩
          rw [placeOf, honly]
          exact Nat.add_comm _ _
        · cases hrun : layout.run (.node id) children rounds with
          | error error =>
              rw [hrun] at h
              cases h
          | ok run =>
              rw [hrun] at h
              cases h
              refine ⟨_, rfl, List.cons_ne_nil _ _, .links ?_ ?_ ?_ (connects_of_run settled hrun)⟩
              · rintro rfl
                exact hempty rfl
              · rw [List.length_cons]
                omega
              · exact fun child hchild => (settled child hchild).placeOf.2

/-- The nodes that are laid out, each of them where the layout says and with its own text. -/
structure Keeps (graph : Graph) (layout : Layout) (done : List Nat) (text : Nat → List UInt8) :
    Prop where
  places_size : layout.places.size = graph.size
  closed : ∀ id ∈ done, ∀ child ∈ graph.children id, child ∈ done
  settled : ∀ id ∈ done, layout.Settled id
  stacked : Stacked layout.placeOf text done.reverse layout.bytes
  written : ∀ id ∈ done, ∀ node, graph.node? id = some node →
    Text layout.placeOf (layout.placeOf id) node (text id)

theorem keeps_blank (graph : Graph) : Keeps graph (blank graph.size) [] fun _ => [] where
  places_size := by simp [blank]
  closed := by simp
  settled := by simp
  stacked := rfl
  written := by simp

theorem place?_put_of_ne {layout : Layout} {id other : Nat} (h : other ≠ id) (text : List UInt8) :
    (layout.put id text).place? other = layout.place? other := by
  simp [place?, put, Array.getD_eq_getD_getElem?, Ne.symm h]

theorem place?_put_self {layout : Layout} {id : Nat} (h : id < layout.places.size)
    (text : List UInt8) :
    (layout.put id text).place? id = some (text.length + layout.size) := by
  simp [place?, put, Array.getD_eq_getD_getElem?, h]

theorem Settled.put {layout : Layout} {id other : Nat} (h : layout.Settled other)
    (hne : other ≠ id) (text : List UInt8) : (layout.put id text).Settled other := by
  obtain ⟨place, hplace, hpositive, hle⟩ := h
  refine ⟨place, (place?_put_of_ne hne text).trans hplace, hpositive, ?_⟩
  exact Nat.le_trans hle (Nat.le_add_left _ _)

theorem Keeps.put {graph : Graph} {layout : Layout} {done : List Nat} {id : Nat} {node : Node}
    {texts : Nat → List UInt8} {text : List UInt8} (keeps : Keeps graph layout done texts)
    (hnode : graph.node? id = some node) (hnew : id ∉ done)
    (hchildren : ∀ child ∈ node.children, child ∈ done) (hne : text ≠ [])
    (htext : Text layout.placeOf (text.length + layout.size) node text) :
    Keeps graph (layout.put id text) (done ++ [id]) (Function.update texts id text) := by
  have hplaced := place?_put_self (keeps.places_size.symm ▸ Graph.lt_size_of_node? hnode) text
  have hplace : (layout.put id text).placeOf id = text.length + layout.size := by
    rw [placeOf, hplaced]
    rfl
  have hpositive : 0 < text.length := List.length_pos_iff.mpr hne
  -- The children of all nodes that are done are done as well and keep their places.
  have hsame : ∀ other ∈ done, layout.placeOf other = (layout.put id text).placeOf other ∧
      texts other = Function.update texts id text other := by
    intro other hother
    have hother := ne_of_mem_of_not_mem hother hnew
    rw [placeOf, placeOf, place?_put_of_ne hother, Function.update_of_ne hother]
    exact ⟨rfl, rfl⟩
  refine ⟨?_, fun other hother child hchild => ?_, fun other hother => ?_, ?_,
    fun other hother => ?_⟩
  · simp [Layout.put, keeps.places_size]
  · apply List.mem_append_left
    rcases List.mem_append.mp hother with hdone | hself
    · exact keeps.closed other hdone child hchild
    · cases List.mem_singleton.mp hself
      exact hchildren child (Graph.children_of_node hnode ▸ hchild)
  · rcases List.mem_append.mp hother with hdone | hself
    · exact (keeps.settled other hdone).put (ne_of_mem_of_not_mem hdone hnew) text
    · cases List.mem_singleton.mp hself
      exact ⟨_, hplaced, by omega, Nat.le_refl _⟩
  · rw [List.reverse_concat]
    refine ⟨(layout.put id text).size_eq ▸ hplace, layout.bytes, ?_, ?_⟩
    · rw [Function.update_self]
      rfl
    · exact keeps.stacked.congr fun other hother => hsame other (List.mem_reverse.mp hother)
  · intro found hfound
    rcases List.mem_append.mp hother with hdone | hself
    · rw [← (hsame other hdone).1, ← (hsame other hdone).2]
      apply (keeps.written other hdone found hfound).congr
      intro child hchild
      rw [← Graph.children_of_node hfound] at hchild
      exact (hsame child (keeps.closed other hdone child hchild)).1
    · cases List.mem_singleton.mp hself
      cases hnode.symm.trans hfound
      rw [hplace, Function.update_self]
      exact htext.congr fun child hchild => (hsame child (hchildren child hchild)).1

theorem Keeps.place {graph : Graph} {layout after : Layout} {done : List Nat}
    {texts : Nat → List UInt8} {rounds id : Nat} (keeps : Keeps graph layout done texts)
    (hid : id < graph.size) (hnew : id ∉ done) (hchildren : ∀ child ∈ graph.children id, child ∈ done)
    (h : Layout.place graph rounds layout id = .ok after) :
    ∃ texts, Keeps graph after (done ++ [id]) texts := by
  obtain ⟨node, hnode⟩ := Graph.node?_of_lt hid
  rw [Layout.place, hnode] at h
  rw [Graph.children_of_node hnode] at hchildren
  obtain ⟨text, rfl, hne, htext⟩ :=
    placeNode_eq_ok (fun child hchild => keeps.settled child (hchildren child hchild)) h
  exact ⟨_, keeps.put hnode hnew hchildren hne htext⟩

/-- The nodes that are done and those still to do are all that are reached, each of them once,
and children stand before their parents. -/
structure Schedule (graph : Graph) (done todo : List Nat) : Prop where
  nodup : (done ++ todo).Nodup
  parentsFirst : graph.ParentsFirst (done ++ todo)
  mem_iff : ∀ id, id ∈ done ++ todo ↔ graph.Reached id

namespace Schedule

variable {graph : Graph} {done rest : List Nat} {id : Nat}

theorem start (named : graph.NamedOnce) : Schedule graph [] graph.order.reverse :=
  ⟨named.order_reverse.1, named.order_reverse.2.1, named.order_reverse.2.2⟩

theorem reached (schedule : Schedule graph done (id :: rest)) : graph.Reached id :=
  (schedule.mem_iff id).mp (List.mem_append_right _ List.mem_cons_self)

theorem reached_of_done {todo : List Nat} (schedule : Schedule graph done todo) :
    ∀ id ∈ done, graph.Reached id := fun id hid =>
  (schedule.mem_iff id).mp (List.mem_append_left _ hid)

theorem not_mem (schedule : Schedule graph done (id :: rest)) : id ∉ done := fun hid =>
  (List.nodup_append.mp schedule.nodup).2.2 id hid id List.mem_cons_self rfl

theorem children (schedule : Schedule graph done (id :: rest)) :
    ∀ child ∈ graph.children id, child ∈ done := fun child hchild =>
  schedule.parentsFirst.child_mem schedule.nodup schedule.reached hchild
    ((schedule.mem_iff child).mpr (.child schedule.reached hchild))

theorem root (schedule : Schedule graph done []) : ∀ child ∈ graph.root, child ∈ done :=
  fun child hchild => by
    have hmem := (schedule.mem_iff child).mpr (.root hchild)
    rwa [List.append_nil] at hmem

theorem next (schedule : Schedule graph done (id :: rest)) :
    Schedule graph (done ++ [id]) rest := by
  obtain ⟨hnodup, hparents, hmem⟩ := schedule
  rw [List.append_cons] at hnodup hparents hmem
  exact ⟨hnodup, hparents, hmem⟩

end Schedule

/-- How far a graph is laid out: what is done stands in the layout, and nothing else does. -/
structure Stage (graph : Graph) (layout : Layout) (done todo : List Nat) : Prop where
  schedule : Schedule graph done todo
  keeps : ∃ texts, Keeps graph layout done texts
  elsewhere : ∀ id, id ∉ done → layout.place? id = none

namespace Stage

variable {graph : Graph} {layout after : Layout} {done todo children : List Nat} {rounds id : Nat}

theorem start (named : graph.NamedOnce) :
    Stage graph (blank graph.size) [] graph.order.reverse where
  schedule := .start named
  keeps := ⟨_, keeps_blank graph⟩
  elsewhere id _ := by
    rw [place?, blank, Array.getD_eq_getD_getElem?, Array.getElem?_replicate]
    split <;> rfl

theorem settled (stage : Stage graph layout done todo) (h : ∀ child ∈ children, child ∈ done) :
    ∀ child ∈ children, layout.Settled child := by
  obtain ⟨_, keeps⟩ := stage.keeps
  exact fun child hchild => keeps.settled child (h child hchild)

theorem next (stage : Stage graph layout done (id :: todo))
    (h : place graph rounds layout id = .ok after) : Stage graph after (done ++ [id]) todo := by
  obtain ⟨_, keeps⟩ := stage.keeps
  have hchildren := stage.schedule.children
  refine ⟨stage.schedule.next, keeps.place stage.schedule.reached.lt_size stage.schedule.not_mem
    hchildren h, fun other hother => ?_⟩
  obtain ⟨node, hnode⟩ := Graph.node?_of_lt stage.schedule.reached.lt_size
  rw [Graph.children_of_node hnode] at hchildren
  rw [Layout.place, hnode] at h
  obtain ⟨text, rfl, _⟩ := placeNode_eq_ok (stage.settled hchildren) h
  rw [List.mem_append, List.mem_singleton, not_or] at hother
  rw [place?_put_of_ne hother.2, stage.elsewhere other hother.1]

theorem run {later : List Nat} (stage : Stage graph layout done (todo ++ later))
    (h : todo.foldlM (place graph rounds) layout = .ok after) :
    Stage graph after (done ++ todo) later := by
  induction todo generalizing done layout with
  | nil =>
      cases h
      rw [List.append_nil]
      exact stage
  | cons id rest ih =>
      rw [List.foldlM_cons] at h
      obtain ⟨placed, hplace, h⟩ := bind_eq_ok.mp h
      rw [List.append_cons]
      exact ih (stage.next hplace) h

theorem finish (named : graph.NamedOnce) (h : ofGraph graph rounds = .ok layout) :
    Stage graph layout graph.order.reverse [] := by
  have start := Stage.start named
  rw [← graph.order.reverse.append_nil] at start
  exact start.run h

end Stage

theorem exists_keeps {graph : Graph} {layout : Layout} {rounds : Nat}
    (named : graph.NamedOnce) (h : ofGraph graph rounds = .ok layout) :
    ∃ texts, Keeps graph layout graph.order.reverse texts :=
  (Stage.finish named h).keeps

/-- No two nodes have one place. -/
theorem Keeps.placeOf_inj {graph : Graph} {layout : Layout} {done : List Nat}
    {texts : Nat → List UInt8} (keeps : Keeps graph layout done texts) {id other : Nat}
    (reached : ∀ id ∈ done, graph.Reached id) (hid : id ∈ done) (hother : other ∈ done)
    (hsame : layout.placeOf id = layout.placeOf other) : id = other := by
  have hpositive (id : Nat) (hid : id ∈ done) : 0 < (texts id).length := by
    obtain ⟨node, hnode⟩ := Graph.node?_of_lt (reached id hid).lt_size
    exact (keeps.written id hid node hnode).length_pos
  by_contra hne
  have := hpositive id hid
  have := hpositive other hother
  have := keeps.stacked.apart (List.mem_reverse.mpr hid) (List.mem_reverse.mpr hother) hne
  omega

end Layout

end Lexicon.Packed
