import Mathlib.Data.Set.Function
import Lexicon.Proofs.Packed.Faithful
import Lexicon.Proofs.Packed.Marks

namespace Lexicon.Packed

/-! Every byte of a packed graph is read in one way only: as the head of a node, which is the
byte of its label, or as part of a run. -/

variable {buffer : Buffer} {graph : Graph}

/-- A label goes on behind a plain character and ends with any other byte. -/
theorem Spells.goes_on {position : Nat} {letters : Word} {ending : Ending}
    (h : Spells buffer position letters ending) {middle : Nat} (hlow : position ≤ middle)
    (hhigh : middle < position + Label.width ⟨letters, ending⟩) {byte : UInt8}
    (found : buffer[middle]? = some byte) :
    (∀ letter, LabelByte.ofByte byte = .char letter →
      middle + 1 < position + Label.width ⟨letters, ending⟩) ∧
    ∀ letter, LabelByte.ofByte byte = .endChar letter → ending = .links (middle + 1) := by
  induction h with
  | @value position first v here byte_eq =>
      obtain rfl : middle = position := by
        change middle < position + 1 at hhigh
        omega
      cases here.symm.trans found
      rw [byte_eq]
      exact ⟨nofun, nofun⟩
  | @endChar position first letter here byte_eq =>
      obtain rfl : middle = position := by
        change middle < position + 1 at hhigh
        omega
      cases here.symm.trans found
      rw [byte_eq]
      exact ⟨nofun, fun _ _ => rfl⟩
  | @char position first letter letters ending here byte_eq _ rest ih =>
      rw [Label.width_cons] at hhigh ⊢
      rcases Nat.eq_or_lt_of_le hlow with rfl | hlater
      · cases here.symm.trans found
        rw [byte_eq]
        have := rest.width_bounds.1
        exact ⟨fun _ _ => by omega, nofun⟩
      · obtain ⟨hchar, hend⟩ := ih hlater (by omega)
        refine ⟨fun letter hletter => ?_, hend⟩
        have := hchar letter hletter
        omega

/-- The byte is read as part of a label. -/
def ReadAsLabel (buffer : Buffer) (position : Nat) : Prop :=
  ∃ start found branch, Reachable buffer start ∧ branches buffer start = .ok found ∧
    branch ∈ found ∧ branch.link.target ≤ position ∧
    position < branch.link.target + branch.label.width

namespace Chart

variable (chart : Chart buffer graph)

/-- What the head of a node is read as, with what stands behind it. -/
inductive Role (id : Nat) : LabelByte → Prop
  | value {v : UInt8} (leaf : graph.children id = []) (stop_eq : chart.stop id = chart.start id + 1) :
      Role id (.value v)
  | next {letter : UInt8} {only : Nat} (children_eq : graph.children id = [only])
      (stop_eq : chart.stop id = chart.start id + 1)
      (after : chart.start only = chart.start id + 1) : Role id (.char letter)
  | links {letter : UInt8} (fills : Run.Fills buffer (chart.start id + 1) (chart.stop id)
      ((graph.children id).map chart.start)) : Role id (.endChar letter)

/-- The runs of the root and of the nodes that have one. -/
inductive IsRun : Nat → Nat → List Nat → Prop
  | root : IsRun 0 chart.front graph.root
  | node {id : Nat} (reached : graph.Reached id) (fills : Run.Fills buffer (chart.start id + 1)
      (chart.stop id) ((graph.children id).map chart.start)) :
      IsRun (chart.start id + 1) (chart.stop id) (graph.children id)

variable {chart}

theorem exists_role (writable : graph.Writable) {id : Nat} (hid : graph.Reached id) :
    ∃ byte, buffer[chart.start id]? = some byte ∧ chart.Role id (LabelByte.ofByte byte) := by
  obtain ⟨node, hnode⟩ := Graph.node?_of_lt hid.lt_size
  have hchildren := Graph.children_of_node hnode
  cases chart.node id node hid hnode with
  | @value v byte stop_eq =>
      refine ⟨_, byte, ?_⟩
      rw [LabelByte.ofByte_toByte_value (writable.small id v hid hnode)]
      exact .value hchildren stop_eq
  | @next letter only byte stop_eq after =>
      have hbounds := writable.printable id letter _ hid hnode
      refine ⟨_, byte, ?_⟩
      rw [LabelByte.ofByte_toByte_char (UInt8.lt_of_le_of_lt hbounds.2 (by decide))]
      exact .next hchildren stop_eq after
  | @links letter children byte fills =>
      have hbounds := writable.printable id letter _ hid hnode
      refine ⟨_, byte, ?_⟩
      rw [LabelByte.ofByte_toByte_endChar hbounds.1 (UInt8.lt_of_le_of_lt hbounds.2 (by decide))]
      exact .links (hchildren.symm ▸ fills)

/-! Runs and heads never meet. -/

namespace IsRun

variable {start stop other position : Nat} {children : List Nat}

theorem fills (h : chart.IsRun start stop children) :
    Run.Fills buffer start stop (children.map chart.start) := by
  cases h with
  | root => exact chart.root
  | node _ fills => exact fills

theorem reached (h : chart.IsRun start stop children) : ∀ child ∈ children, graph.Reached child := by
  cases h with
  | root => exact fun child hchild => .root hchild
  | node reached => exact fun child hchild => .child reached hchild

theorem lt (h : chart.IsRun start stop children) : start < stop := by
  obtain ⟨link, hlink, htakes⟩ := Run.exists_first h.fills.error
  have := h.fills.tiles.bounds link hlink
  unfold Link.Takes at htakes
  omega

theorem ne_head (h : chart.IsRun start stop children) (hstart : start ≤ position)
    (hstop : position < stop) {id : Nat} (hid : graph.Reached id) : position ≠ chart.start id := by
  have hbounds := chart.bounds id hid
  cases h with
  | root => omega
  | @node owner reached =>
      by_cases hsame : owner = id
      · subst hsame
        omega
      · have := chart.apart owner id reached hid hsame
        omega

theorem eq_of_common (h : chart.IsRun start stop children) {stop' : Nat} {children' : List Nat}
    (k : chart.IsRun other stop' children') (hstart : start ≤ position) (hstop : position < stop)
    (hother : other ≤ position) (hother' : position < stop') : other = start := by
  cases h with
  | root =>
      cases k with
      | root => rfl
      | @node id reached =>
          have := chart.bounds id reached
          omega
  | @node owner reached =>
      have hbounds := chart.bounds owner reached
      cases k with
      | root => omega
      | @node id hid =>
          by_cases hsame : owner = id
          · rw [hsame]
          · have := chart.apart owner id reached hid hsame
            have := chart.bounds id hid
            omega

theorem exists_child (h : chart.IsRun start stop children) {link : Link}
    (hlink : link ∈ (Run.read buffer start).links) :
    ∃ child ∈ children, link.target = chart.start child := by
  have htarget := h.fills.targets.mem_iff.mp (List.mem_map_of_mem hlink)
  obtain ⟨child, hchild, heq⟩ := List.mem_map.mp htarget
  exact ⟨child, hchild, heq.symm⟩

theorem exists_link (h : chart.IsRun start stop children) {child : Nat} (hchild : child ∈ children) :
    ∃ link ∈ (Run.read buffer start).links, link.target = chart.start child := by
  have htarget := h.fills.targets.mem_iff.mpr (List.mem_map_of_mem hchild)
  exact List.mem_map.mp htarget

theorem exists_branches (h : chart.IsRun start stop children) (writable : graph.Writable) :
    ∃ found, branches buffer start = .ok found := by
  refine Packed.exists_branches h.fills.error fun link hlink => ?_
  obtain ⟨child, hchild, heq⟩ := h.exists_child hlink
  obtain ⟨letters, ending, hspells, _⟩ :=
    chart.holds.exists_spells writable (h.reached child hchild)
  exact ⟨letters, ending, heq ▸ hspells⟩

theorem takes_iff (h : chart.IsRun start stop children) :
    (∃ link ∈ (Run.read buffer start).links, link.Takes position) ↔
      start ≤ position ∧ position < stop := by
  constructor
  · intro hexists
    obtain ⟨link, hlink, htakes⟩ := hexists
    have := h.fills.tiles.bounds link hlink
    unfold Link.Takes at htakes
    omega
  · intro hboth
    exact h.fills.tiles.exists_takes hboth.1 hboth.2

end IsRun

/-- A label that begins at the head of a node is made of heads, and the run behind it is the
run of the last of them. -/
theorem heads_of_spells (writable : graph.Writable) {position : Nat} {letters : Word}
    {ending : Ending} (h : Spells buffer position letters ending) {id : Nat}
    (hid : graph.Reached id) (hstart : chart.start id = position) :
    (∀ middle, position ≤ middle → middle < position + Label.width ⟨letters, ending⟩ →
      ∃ other, graph.Reached other ∧ middle = chart.start other) ∧
    ∀ next, ending = .links next → ∃ stop children, chart.IsRun next stop children := by
  induction h generalizing id with
  | @value position =>
      refine ⟨fun middle hlow hhigh => ⟨id, hid, ?_⟩, nofun⟩
      change middle < position + 1 at hhigh
      omega
  | @endChar position byte letter found byte_eq =>
      refine ⟨fun middle hlow hhigh => ⟨id, hid, ?_⟩, fun next hnext => ?_⟩
      · change middle < position + 1 at hhigh
        omega
      · cases hnext
        obtain ⟨head, hhead, hrole⟩ := chart.exists_role writable hid
        rw [hstart] at hhead
        cases hhead.symm.trans found
        rw [byte_eq] at hrole
        cases hrole with
        | links fills =>
            rw [← hstart]
            exact ⟨_, _, .node hid fills⟩
  | @char position byte letter letters ending found byte_eq _ _ ih =>
      obtain ⟨head, hhead, hrole⟩ := chart.exists_role writable hid
      rw [hstart] at hhead
      cases hhead.symm.trans found
      rw [byte_eq] at hrole
      cases hrole with
      | @next _ only children_eq stop_eq after =>
          have hchild : only ∈ graph.children id := by
            rw [children_eq]
            exact List.mem_cons_self
          obtain ⟨hheads, hlast⟩ := ih (.child hid hchild) (by rw [after, hstart])
          refine ⟨fun middle hlow hhigh => ?_, hlast⟩
          rw [Label.width_cons] at hhigh
          rcases Nat.eq_or_lt_of_le hlow with rfl | hlater
          · exact ⟨id, hid, hstart.symm⟩
          · exact hheads middle hlater (by omega)

/-! The runs that are reached are those of the root and of the nodes. -/

theorem exists_isRun (writable : graph.Writable) {start : Nat} (h : Reachable buffer start) :
    ∃ stop children, chart.IsRun start stop children := by
  induction h with
  | root => exact ⟨_, _, .root⟩
  | @behind start next found branch _ read mem leads ih =>
      obtain ⟨stop, children, hrun⟩ := ih
      obtain ⟨child, hchild, htarget⟩ := hrun.exists_child ((mem_links_iff read).mpr ⟨_, mem, rfl⟩)
      exact (heads_of_spells writable (isRead_of_mem read mem) (hrun.reached child hchild)
        htarget.symm).2 next (Branch.start?_eq_some_iff.mp leads)

theorem readAsLabel (writable : graph.Writable) {id : Nat} (hid : graph.Reached id) :
    ReadAsLabel buffer (chart.start id) := by
  -- A label begins with the node if a run links to it.
  have linked {start stop : Nat} {children : List Nat} (reachable : Reachable buffer start)
      (hrun : chart.IsRun start stop children) {child : Nat} (hchild : child ∈ children) :
      ReadAsLabel buffer (chart.start child) := by
    obtain ⟨found, read⟩ := hrun.exists_branches writable
    obtain ⟨link, hlink, htarget⟩ := hrun.exists_link hchild
    obtain ⟨branch, hbranch, rfl⟩ := (mem_links_iff read).mp hlink
    have hwidth : 0 < branch.label.width := (isRead_of_mem read hbranch).width_bounds.1
    exact ⟨start, found, branch, reachable, read, hbranch, by omega, by omega⟩
  induction hid with
  | root hchild => exact linked .root .root hchild
  | @child parent child hparent hchild ih =>
      obtain ⟨start, found, branch, reachable, read, hbranch, hlow, hhigh⟩ := ih
      obtain ⟨byte, hbyte, hrole⟩ := chart.exists_role writable hparent
      have hgoes := (isRead_of_mem read hbranch).goes_on hlow hhigh hbyte
      generalize hkind : LabelByte.ofByte byte = kind at hrole
      cases hrole with
      | value leaf =>
          rw [leaf] at hchild
          cases hchild
      | @next letter only children_eq stop_eq after =>
          rw [children_eq] at hchild
          cases List.mem_singleton.mp hchild
          have hlater : chart.start parent + 1 < branch.link.target + branch.label.width :=
            hgoes.1 letter hkind
          exact ⟨start, found, branch, reachable, read, hbranch, by omega, by omega⟩
      | @links letter fills =>
          have hnext := Branch.start?_eq_some_iff.mpr (hgoes.2 _ hkind)
          exact linked (reachable.behind read hbranch hnext) (.node hparent fills) hchild

theorem IsRun.reachable (writable : graph.Writable) {start stop : Nat} {children : List Nat}
    (h : chart.IsRun start stop children) : Reachable buffer start := by
  cases h with
  | root => exact .root
  | @node id hid fills =>
      obtain ⟨start, found, branch, reachable, read, hbranch, hlow, hhigh⟩ :=
        chart.readAsLabel writable hid
      obtain ⟨byte, hbyte, hrole⟩ := chart.exists_role writable hid
      have hgoes := (isRead_of_mem read hbranch).goes_on hlow hhigh hbyte
      have hlong : chart.start id + 1 < chart.stop id := (IsRun.node hid fills).lt
      generalize hkind : LabelByte.ofByte byte = kind at hrole
      cases hrole with
      | value _ stop_eq => omega
      | next _ stop_eq => omega
      | links => exact reachable.behind read hbranch (Branch.start?_eq_some_iff.mpr (hgoes.2 _ hkind))

theorem head_or_run (writable : graph.Writable) {position : Nat} (h : position < buffer.size) :
    (∃ id, graph.Reached id ∧ position = chart.start id) ∨
      ∃ start stop children, chart.IsRun start stop children ∧ start ≤ position ∧ position < stop := by
  by_cases hfront : position < chart.front
  · exact .inr ⟨0, _, _, .root, Nat.zero_le _, hfront⟩
  · obtain ⟨id, hid, hlow, hhigh⟩ := chart.covers position (Nat.le_of_not_lt hfront) h
    rcases Nat.eq_or_lt_of_le hlow with heq | hlater
    · exact .inl ⟨id, hid, heq.symm⟩
    · obtain ⟨byte, hbyte, hrole⟩ := chart.exists_role writable hid
      generalize LabelByte.ofByte byte = kind at hrole
      cases hrole with
      | value _ stop_eq => omega
      | next _ stop_eq => omega
      | links fills => exact .inr ⟨_, _, _, .node hid fills, hlater, hhigh⟩

theorem startsApart (chart : Chart buffer graph) (writable : graph.Writable) :
    StartsApart buffer := by
  intro start other hstart hother htouches
  obtain ⟨stop, children, hrun⟩ := chart.exists_isRun writable hstart
  obtain ⟨otherStop, others, hotherRun⟩ := chart.exists_isRun writable hother
  obtain ⟨found, read, branch, hbranch, hcovers⟩ := htouches
  have hlink := (mem_links_iff read).mpr ⟨branch, hbranch, rfl⟩
  rcases hcovers with htakes | ⟨hlow, hhigh⟩
  · obtain ⟨hle, hlt⟩ := hotherRun.takes_iff.mp ⟨branch.link, hlink, htakes⟩
    exact hrun.eq_of_common hotherRun (Nat.le_refl start) hrun.lt hle hlt
  · obtain ⟨child, hchild, htarget⟩ := hotherRun.exists_child hlink
    obtain ⟨id, hid, heq⟩ := (heads_of_spells writable (isRead_of_mem read hbranch)
      (hotherRun.reached child hchild) htarget.symm).1 start hlow hhigh
    exact absurd heq (hrun.ne_head (Nat.le_refl start) hrun.lt hid)

theorem readFromRoot (chart : Chart buffer graph) (writable : graph.Writable) {position : Nat}
    (h : position < buffer.size) : ReadFromRoot buffer position := by
  rcases chart.head_or_run writable h with ⟨id, hid, rfl⟩ | ⟨start, stop, children, hrun, hlow, hhigh⟩
  · obtain ⟨start, found, branch, reachable, read, hbranch, hcovers⟩ :=
      chart.readAsLabel writable hid
    exact ⟨start, reachable, found, read, branch, hbranch, .inr hcovers⟩
  · obtain ⟨found, read⟩ := hrun.exists_branches writable
    obtain ⟨link, hlink, htakes⟩ := hrun.takes_iff.mpr ⟨hlow, hhigh⟩
    obtain ⟨branch, hbranch, rfl⟩ := (mem_links_iff read).mp hlink
    exact ⟨start, hrun.reachable writable, found, read, branch, hbranch, .inl htakes⟩

theorem readAsLabel_iff (chart : Chart buffer graph) (writable : graph.Writable) {position : Nat} :
    ReadAsLabel buffer position ↔ ∃ id, graph.Reached id ∧ position = chart.start id := by
  constructor
  · intro h
    obtain ⟨start, found, branch, reachable, read, hbranch, hlow, hhigh⟩ := h
    obtain ⟨stop, children, hrun⟩ := chart.exists_isRun writable reachable
    obtain ⟨child, hchild, htarget⟩ := hrun.exists_child
      ((mem_links_iff read).mpr ⟨branch, hbranch, rfl⟩)
    exact (heads_of_spells writable (isRead_of_mem read hbranch) (hrun.reached child hchild)
      htarget.symm).1 position hlow hhigh
  · intro h
    obtain ⟨id, hid, rfl⟩ := h
    exact readAsLabel writable hid

theorem start_injOn (chart : Chart buffer graph) :
    Set.InjOn chart.start {id | graph.Reached id} := by
  intro id hid other hother hsame
  by_contra hne
  have := chart.apart id other hid hother hne
  have := chart.bounds id hid
  have := chart.bounds other hother
  omega

end Chart

end Lexicon.Packed
