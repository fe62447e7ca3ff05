import Lexicon.Proofs.Packed.Checked

namespace Lexicon

/-! Which places are known while a graph is laid out. -/

/-- The bytes that can stand for a node itself: its value, or its character, which is marked
unless the label goes on. -/
def Node.heads : Node → List UInt8
  | .value v => [(Packed.LabelByte.value v).toByte]
  | .char byte _ => [(Packed.LabelByte.char byte).toByte, (Packed.LabelByte.endChar byte).toByte]

namespace Packed

/-- The distances from an origin to the first place and from each place to the next one, each of
them taken off from what is left. There are none if a place lies beyond that. -/
def exactDistances? : Nat → List Nat → Option (List Nat)
  | _, [] => some []
  | left, place :: rest =>
      if place ≤ left then
        (exactDistances? (left - (left - place)) rest).map ((left - place) :: ·)
      else
        none

theorem exactDistances?_eq {origin : Nat} {places : List Nat} (falling : places.Pairwise (· ≥ ·))
    (within : ∀ place ∈ places, place ≤ origin) :
    exactDistances? origin places = some (distances origin places) := by
  induction places generalizing origin with
  | nil => rfl
  | cons place rest ih =>
      obtain ⟨hrest, hfalling⟩ := List.pairwise_cons.mp falling
      have hplace := within place List.mem_cons_self
      rw [exactDistances?, if_pos hplace, Nat.sub_sub_self hplace, ih hfalling hrest]
      rfl

namespace Layout

variable {graph : Graph} {layout : Layout} {done todo children : List Nat} {rounds id : Nat}

theorem Text.exists_head {placeOf : Nat → Nat} {place : Nat} {node : Node} {text : List UInt8}
    (h : Text placeOf place node text) : ∃ byte ∈ node.heads, ∃ rest, text = byte :: rest := by
  cases h with
  | value => exact ⟨_, List.mem_cons_self, _, rfl⟩
  | next => exact ⟨_, List.mem_cons_self, _, rfl⟩
  | links => exact ⟨_, List.mem_cons_of_mem _ List.mem_cons_self, _, rfl⟩

/-- The first byte of a text is the one just below its place, when bytes are counted from the
end. -/
theorem StandsAt.getElem?_reverse {bytes rest : List UInt8} {byte : UInt8} {place : Nat}
    (h : StandsAt bytes place (byte :: rest)) : bytes.reverse[place - 1]? = some byte := by
  obtain ⟨before, behind, rfl, rfl⟩ := h
  have hlength : (before ++ byte :: rest ++ behind).length =
      before.length + (rest.length + 1) + behind.length := by
    simp only [List.length_append, List.length_cons]
  have hindex : before.length + (rest.length + 1) + behind.length - 1 -
      (rest.length + 1 + behind.length - 1) = before.length := by
    omega
  rw [List.length_cons, List.getElem?_reverse (by omega), hlength, hindex, List.append_assoc,
    List.getElem?_append_right (Nat.le_refl _), Nat.sub_self]
  rfl

theorem Stacked.pairwise {placeOf : Nat → Nat} {text : Nat → List UInt8} {ids : List Nat}
    {bytes : List UInt8} (h : Stacked placeOf text ids bytes) (filled : ∀ id ∈ ids, text id ≠ []) :
    ids.Pairwise fun id other => placeOf other < placeOf id := by
  induction ids generalizing bytes with
  | nil => exact .nil
  | cons id rest ih =>
      obtain ⟨hplace, below, rfl, hbelow⟩ := h
      obtain ⟨hid, hrest⟩ := List.forall_mem_cons.mp filled
      refine .cons (fun other hother => ?_) (ih hbelow hrest)
      have hpositive := List.length_pos_iff.mpr hid
      have hle := (hbelow.bounds other hother).2
      rw [List.length_append] at hplace
      omega

/-- Recorded are the places of the nodes that are done, each of them further from the end than
the one before. The byte just below a place, counted from the end, is that of its node. -/
structure Records (graph : Graph) (layout : Layout) (done : List Nat) : Prop where
  recorded : ∀ id, (∃ place, layout.place? id = some place) ↔ id ∈ done
  within : ∀ id place, layout.place? id = some place → 1 ≤ place ∧ place ≤ layout.bytes.length
  rising : ∃ places : List Nat, done.map layout.place? = places.map some ∧
    places.Pairwise (· < ·)
  distinct : ∀ id other place, layout.place? id = some place →
    layout.place? other = some place → id = other
  head : ∀ id place, layout.place? id = some place → ∃ node, graph.node? id = some node ∧
    ∃ byte ∈ node.heads, layout.bytes.reverse[place - 1]? = some byte

/-- A run to these children can be written: each of them has its place, and whatever the size
of the run is taken to be, no place lies beyond the one that its distance is counted from. -/
structure Linkable (layout : Layout) (children : List Nat) : Prop where
  placed : children.mapM (Checked.placed layout) = .ok (children.filterMap layout.place?)
  exact : ∀ guess,
    let sorted := (children.filterMap layout.place?).mergeSort fun left right => right ≤ left
    exactDistances? (layout.size + guess) sorted = some (distances (layout.size + guess) sorted)

namespace Stage

theorem records (stage : Stage graph layout done todo) : Records graph layout done := by
  obtain ⟨texts, keeps⟩ := stage.keeps
  have hreached := stage.schedule.reached_of_done
  have hrecorded (id : Nat) : (∃ place, layout.place? id = some place) ↔ id ∈ done := by
    constructor
    · rintro ⟨place, hplace⟩
      by_contra hid
      rw [stage.elsewhere id hid] at hplace
      cases hplace
    · exact fun hid => ⟨_, (keeps.settled id hid).placeOf.1⟩
  have hplaceOf (id place : Nat) (h : layout.place? id = some place) :
      id ∈ done ∧ layout.placeOf id = place :=
    ⟨(hrecorded id).mp ⟨place, h⟩, by rw [placeOf, h, Option.getD_some]⟩
  have hfilled : ∀ id ∈ done.reverse, texts id ≠ [] := fun id hid => by
    have hdone := List.mem_reverse.mp hid
    obtain ⟨node, hnode⟩ := Graph.node?_of_lt (hreached id hdone).lt_size
    exact List.length_pos_iff.mp (keeps.written id hdone node hnode).length_pos
  refine ⟨hrecorded, fun id place h => ?_, ⟨done.map layout.placeOf, ?_, ?_⟩,
    fun id other place h hother => ?_, fun id place h => ?_⟩
  · obtain ⟨hid, rfl⟩ := hplaceOf id place h
    rw [← layout.size_eq]
    exact (keeps.settled id hid).placeOf.2
  · rw [List.map_map]
    exact List.map_congr_left fun id hid => (keeps.settled id hid).placeOf.1
  · exact List.pairwise_map.mpr (List.pairwise_reverse.mp (keeps.stacked.pairwise hfilled))
  · obtain ⟨hid, rfl⟩ := hplaceOf id place h
    obtain ⟨hdone, hsame⟩ := hplaceOf other _ hother
    exact keeps.placeOf_inj hreached hid hdone hsame.symm
  · obtain ⟨hid, rfl⟩ := hplaceOf id place h
    obtain ⟨node, hnode⟩ := Graph.node?_of_lt (hreached id hid).lt_size
    obtain ⟨byte, hbyte, rest, htext⟩ := (keeps.written id hid node hnode).exists_head
    have hstands := keeps.stacked.standsAt id (List.mem_reverse.mpr hid)
    rw [htext] at hstands
    exact ⟨node, hnode, byte, hbyte, hstands.getElem?_reverse⟩

theorem linkable (stage : Stage graph layout done todo) (h : ∀ child ∈ children, child ∈ done) :
    Linkable layout children := by
  have settled := stage.settled h
  refine ⟨(Checked.mapM_placed settled).trans (by rw [filterMap_place? settled]), fun guess => ?_⟩
  refine exactDistances?_eq (List.pairwise_mergeSort' (· ≥ ·) _) fun place hplace => ?_
  obtain ⟨child, hchild, hrecorded⟩ := List.mem_filterMap.mp (List.mem_mergeSort.mp hplace)
  have hwithin := (stage.records.within child place hrecorded).2
  rw [← layout.size_eq] at hwithin
  exact Nat.le_add_right_of_le hwithin

/-- The node that was placed last is the one whose place is the size of the layout. -/
theorem getLast?_eq_some_iff (stage : Stage graph layout done todo) :
    done.getLast? = some id ↔ layout.place? id = some layout.size := by
  obtain ⟨texts, keeps⟩ := stage.keeps
  rcases List.eq_nil_or_concat done with rfl | ⟨front, last, rfl⟩
  · rw [stage.elsewhere id List.not_mem_nil]
    exact ⟨nofun, nofun⟩
  · have hlast : layout.place? last = some layout.size := by
      have hstacked := keeps.stacked
      rw [List.concat_eq_append, List.reverse_concat] at hstacked
      rw [(keeps.settled last (by simp)).placeOf.1, hstacked.1, layout.size_eq]
    rw [List.concat_eq_append, List.getLast?_concat, Option.some.injEq]
    constructor
    · rintro rfl
      exact hlast
    · exact fun h => stage.records.distinct last id layout.size hlast h

/-- The label of a node goes on in front of the node that was placed just before it, if that is
its only child; in no other case does the node take a byte alone. -/
theorem place_eq_next_iff (stage : Stage graph layout done (id :: todo)) {letter : UInt8}
    (hnode : graph.node? id = some (.char letter children)) :
    place graph rounds layout id = .ok (layout.put id [(LabelByte.char letter).toByte]) ↔
      ∃ only, children = [only] ∧ done.getLast? = some only := by
  have hchildren := stage.schedule.children
  rw [Graph.children_of_node hnode] at hchildren
  have hnext : layout.isNext children ↔ ∃ only, children = [only] ∧ done.getLast? = some only := by
    simp only [isNext_iff, stage.getLast?_eq_some_iff]
  rw [← hnext, Layout.place, hnode]
  simp only [placeNode]
  constructor
  · intro h
    split at h
    · cases h
    · split at h
      · assumption
      · rename_i hempty _
        obtain ⟨run, hrun, h⟩ := bind_eq_ok.mp h
        have hne := (connects_of_run (stage.settled hchildren) hrun).ne_nil
          (mt List.map_eq_nil_iff.mp (mt List.isEmpty_iff.mpr hempty))
        have hlength := congrArg Layout.size (Except.ok.inj h)
        simp only [Layout.put, List.length_cons, List.length_nil] at hlength
        have := List.length_pos_iff.mpr hne
        omega
  · intro h
    obtain ⟨only, rfl, _⟩ := isNext_iff.mp h
    rw [if_neg (by simp), if_pos h]

end Stage

/-- Wherever laying out a graph has got to: the children of the node that comes next have their
places, and so have those of the root when it comes; places rise in the order of the nodes, from
one up to the number of bytes, and the byte just below each is that of its node; no distance is
cut off, whatever the size of a run is taken to be; and a label goes on if and only if its node
has one child and this was placed just before. -/
theorem places_invariant {order : List Nat} (named : graph.NamedOnce)
    (sorted : graph.sort = .ok order) (split : order.reverse = done ++ todo)
    (reached : done.foldlM (place graph rounds) (blank graph.size) = .ok layout) :
    Records graph layout done ∧
    (∀ id rest, todo = id :: rest → Linkable layout (graph.children id) ∧
      ∀ letter children, graph.node? id = some (.char letter children) →
        (place graph rounds layout id = .ok (layout.put id [(LabelByte.char letter).toByte]) ↔
          ∃ only, children = [only] ∧ done.getLast? = some only)) ∧
    (todo = [] → Linkable layout graph.root) := by
  rw [named.sort_eq] at sorted
  have start := Stage.start named
  rw [Except.ok.inj sorted, split] at start
  have stage : Stage graph layout done todo := start.run reached
  refine ⟨stage.records, ?_, ?_⟩
  · rintro id rest rfl
    exact ⟨stage.linkable stage.schedule.children, fun _ _ => stage.place_eq_next_iff⟩
  · rintro rfl
    exact stage.linkable stage.schedule.root

/-- Two letters in a row and a value that both lead to: one label goes on, and one is followed
by a run. -/
def stepped : Graph where
  nodes := #[.value 1, .char 0x62 [0], .char 0x61 [1, 0]]
  root := [2]
  child_lt := by decide
  root_lt := by decide

theorem places_invariant_stepped :
    ∃ layout, stepped.NamedOnce ∧ stepped.sort = .ok [2, 1, 0] ∧
    [2, 1, 0].reverse = [0, 1] ++ [2] ∧
    [0, 1].foldlM (place stepped 8) (blank stepped.size) = .ok layout ∧
    Records stepped layout [0, 1] ∧
    (∀ id rest, [2] = id :: rest → Linkable layout (stepped.children id) ∧
      ∀ letter children, stepped.node? id = some (.char letter children) →
        (place stepped 8 layout id = .ok (layout.put id [(LabelByte.char letter).toByte]) ↔
          ∃ only, children = [only] ∧ [0, 1].getLast? = some only)) ∧
    ([2] = [] → Linkable layout stepped.root) := by
  have named : stepped.NamedOnce := fun id _ => List.nodup_iff_count_le_one.mp (by decide) id
  have horder : stepped.order = [2, 1, 0] := by cbv
  have sorted : stepped.sort = .ok [2, 1, 0] := horder ▸ named.sort_eq
  exact ⟨_, named, sorted, rfl, rfl, places_invariant named sorted rfl rfl⟩

end Layout

end Packed

end Lexicon
