import Lexicon.Proofs.Packed.Chart
import Lexicon.Proofs.Packed.Lookup
import Lexicon.Proofs.Word

namespace Lexicon.Packed

/-! A buffer that holds a well labelled graph has the words of the graph. -/

variable {buffer : Buffer} {graph : Graph} {start : Nat → Nat}

/-- A label that starts at a node has its letters from this node and those that only
lead on, and ends as the last of them does. -/
inductive Carries (buffer : Buffer) (graph : Graph) (start : Nat → Nat) (id : Nat)
    (letters : Word) : Ending → Prop
  | value {v : UInt8} (reads : ∀ key w, graph.Reads [id] key w ↔ key = letters ∧ w = v) :
      Carries buffer graph start id letters (.value v)
  | links {next last : Nat} (reached : graph.Reached last)
      (leads : Run.LeadsTo buffer next ((graph.children last).map start))
      (reads : ∀ key w, graph.Reads [id] key w ↔
        ∃ rest, key = letters ++ rest ∧ graph.Reads (graph.children last) rest w) :
      Carries buffer graph start id letters (.links next)

theorem Carries.cons {id only : Nat} {letter : UInt8} {letters : Word} {ending : Ending}
    (h : Carries buffer graph start only letters ending)
    (hnode : graph.node? id = some (.char letter [only])) :
    Carries buffer graph start id (letter :: letters) ending := by
  cases h with
  | value reads =>
      apply Carries.value
      intro key w
      rw [Graph.reads_char hnode]
      simp [reads]
  | links reached leads reads =>
      apply Carries.links reached leads
      intro key w
      rw [Graph.reads_char hnode]
      simp only [reads]
      constructor
      · intro hexists
        obtain ⟨_, rfl, rest, rfl, hrest⟩ := hexists
        exact ⟨rest, rfl, hrest⟩
      · intro hexists
        obtain ⟨rest, rfl, hrest⟩ := hexists
        exact ⟨letters ++ rest, rfl, rest, rfl, hrest⟩

theorem Holds.exists_spells (holds : Holds buffer graph start) (writable : graph.Writable)
    {id : Nat} (hid : graph.Reached id) :
    ∃ letters ending, Spells buffer (start id) letters ending ∧
      letters.head? = graph.letter? id ∧ Carries buffer graph start id letters ending := by
  induction id using Nat.strongRecOn with
  | ind id ih =>
      obtain ⟨node, hnode⟩ := Graph.node?_of_lt hid.lt_size
      have hprintable : ∀ letter children, graph.node? id = some (.char letter children) →
          isPrintable letter ∧ 0x20 ≤ letter ∧ letter < 0x80 := by
        intro letter children hchar
        have hbounds := writable.printable id letter children hid hchar
        exact ⟨isPrintable_iff.mpr hbounds, hbounds.1, UInt8.lt_of_le_of_lt hbounds.2 (by decide)⟩
      cases holds.node id node hid hnode with
      | @value v byte =>
          have hsmall := writable.small id v hid hnode
          refine ⟨[], .value v, ?_, ?_, ?_⟩
          · exact .value byte (LabelByte.ofByte_toByte_value hsmall)
          · exact (Graph.letter?_of_value hnode).symm
          · exact .value (Graph.reads_value hnode)
      | @next letter only byte after =>
          obtain ⟨printable, _, hhigh⟩ := hprintable letter _ hnode
          have hchild : only ∈ graph.children id := by
            rw [Graph.children_of_char hnode]
            exact List.mem_cons_self
          obtain ⟨letters, ending, hspells, _, hcarries⟩ :=
            ih only (Graph.lt_of_mem_children hchild) (.child hid hchild)
          rw [after] at hspells
          refine ⟨letter :: letters, ending, ?_, ?_, ?_⟩
          · exact .char byte (LabelByte.ofByte_toByte_char hhigh) printable hspells
          · exact (Graph.letter?_of_char hnode).symm
          · exact hcarries.cons hnode
      | @links letter children byte leads =>
          obtain ⟨printable, hlow, hhigh⟩ := hprintable letter _ hnode
          refine ⟨[letter], .links (start id + 1), ?_, ?_, ?_⟩
          · exact .endChar byte (LabelByte.ofByte_toByte_endChar hlow hhigh) printable
          · exact (Graph.letter?_of_char hnode).symm
          · rw [← Graph.children_of_char hnode] at leads
            apply Carries.links hid leads
            intro key w
            rw [Graph.reads_char hnode, Graph.children_of_char hnode]
            rfl

theorem Holds.carries (holds : Holds buffer graph start) (labelled : graph.WellLabelled)
    {branch : Branch} (hread : branch.IsRead buffer) {id : Nat} (hid : graph.Reached id)
    (htarget : branch.link.target = start id) :
    Carries buffer graph start id branch.label.letters branch.label.ending := by
  obtain ⟨letters, ending, hspells, _, hcarries⟩ := holds.exists_spells labelled.writable hid
  rw [Branch.IsRead, htarget] at hread
  obtain ⟨rfl, rfl⟩ := hread.unique hspells
  exact hcarries

theorem Holds.firstAt_start (holds : Holds buffer graph start) (labelled : graph.WellLabelled)
    {id : Nat} (hid : graph.Reached id) : firstAt buffer (start id) = graph.letter? id := by
  obtain ⟨letters, ending, hspells, hhead, _⟩ := holds.exists_spells labelled.writable hid
  rw [← hspells.head?_eq, hhead]

/-- The branches of a run are the children that it was written for. -/
structure Fans (buffer : Buffer) (graph : Graph) (start : Nat → Nat) (children : List Nat)
    (found : List Branch) : Prop where
  distinct : DistinctFirst found
  carries : ∀ branch ∈ found, ∃ id ∈ children,
    Carries buffer graph start id branch.label.letters branch.label.ending
  covers : ∀ id ∈ children, ∃ branch ∈ found,
    Carries buffer graph start id branch.label.letters branch.label.ending

theorem Holds.distinctFirst (holds : Holds buffer graph start) (labelled : graph.WellLabelled)
    {children : List Nat} (frontier : graph.Frontier children) {found : List Branch}
    (read : ∀ branch ∈ found, branch.IsRead buffer)
    (targets : ((found.map Branch.link).map Link.target).Perm (children.map start)) :
    DistinctFirst found := by
  have hfirst : found.map Branch.first? =
      ((found.map Branch.link).map Link.target).map (firstAt buffer) := by
    rw [List.map_map, List.map_map]
    apply List.map_congr_left
    intro branch hbranch
    exact (read branch hbranch).head?_eq
  have hletters : (children.map start).map (firstAt buffer) = children.map graph.letter? := by
    rw [List.map_map]
    apply List.map_congr_left
    intro id hid
    exact holds.firstAt_start labelled (frontier.reached id hid)
  have hperm := targets.map (firstAt buffer)
  rw [← hfirst, hletters] at hperm
  exact hperm.nodup_iff.mpr frontier.distinct

theorem Holds.exists_fans (holds : Holds buffer graph start) (labelled : graph.WellLabelled)
    {position : Nat} {children : List Nat} (frontier : graph.Frontier children)
    (leads : Run.LeadsTo buffer position (children.map start)) :
    ∃ found, branches buffer position = .ok found ∧ Fans buffer graph start children found := by
  have htarget : ∀ link ∈ (Run.read buffer position).links, ∃ id ∈ children,
      link.target = start id := by
    intro link hlink
    have hmem := leads.targets.mem_iff.mp (List.mem_map_of_mem hlink)
    obtain ⟨id, hid, heq⟩ := List.mem_map.mp hmem
    exact ⟨id, hid, heq.symm⟩
  obtain ⟨found, hfound⟩ := exists_branches leads.error fun link hlink => by
    obtain ⟨id, hid, heq⟩ := htarget link hlink
    obtain ⟨letters, ending, hspells, _⟩ := holds.exists_spells labelled.writable (frontier.reached id hid)
    exact ⟨letters, ending, heq ▸ hspells⟩
  obtain ⟨_, hlinks, hread⟩ := branches_eq_ok_iff.mp hfound
  have htargets := leads.targets
  rw [← hlinks] at htargets
  refine ⟨found, hfound, holds.distinctFirst labelled frontier hread htargets, ?_, ?_⟩
  · intro branch hbranch
    obtain ⟨id, hid, heq⟩ := htarget branch.link (hlinks ▸ List.mem_map_of_mem hbranch)
    exact ⟨id, hid, holds.carries labelled (hread branch hbranch) (frontier.reached id hid) heq⟩
  · intro id hid
    have hmem := htargets.mem_iff.mpr (List.mem_map_of_mem hid)
    rw [List.map_map] at hmem
    obtain ⟨branch, hbranch, heq⟩ := List.mem_map.mp hmem
    exact ⟨branch, hbranch,
      holds.carries labelled (hread branch hbranch) (frontier.reached id hid) heq⟩

theorem Carries.mem_paths_iff {id : Nat} {branch : Branch}
    (h : Carries buffer graph start id branch.label.letters branch.label.ending)
    (behind : ∀ next last, branch.start? = some next → graph.Reached last →
      Run.LeadsTo buffer next ((graph.children last).map start) → ∀ key v,
        ⟨key, v⟩ ∈ paths buffer next ↔ graph.Reads (graph.children last) key v)
    (key : Word) (v : UInt8) : ⟨key, v⟩ ∈ branch.paths buffer ↔ graph.Reads [id] key v := by
  rw [Branch.mem_paths_iff]
  generalize hletters : branch.label.letters = letters at h
  generalize hending : branch.label.ending = ending at h
  cases h with
  | value reads =>
      rw [reads]
      simp [and_comm, eq_comm]
  | @links next last reached leads reads =>
      rw [reads]
      have hbehind := behind next last (Branch.start?_eq_some_iff.mpr hending) reached leads
      simp [hbehind]

theorem Holds.throughout (holds : Holds buffer graph start) (labelled : graph.WellLabelled)
    {position : Nat} {children : List Nat} (frontier : graph.Frontier children)
    (leads : Run.LeadsTo buffer position (children.map start)) :
    Throughout buffer DistinctFirst position := by
  induction hroom : buffer.size - position using Nat.strongRecOn generalizing position children with
  | ind room ih =>
      obtain ⟨found, hfound, fans⟩ := holds.exists_fans labelled frontier leads
      apply Throughout.run hfound fans.distinct
      intro branch hbranch next hnext
      have hbounds := branches_start hfound hbranch hnext
      obtain ⟨id, _, hcarries⟩ := fans.carries branch hbranch
      rw [Branch.start?_eq_some_iff.mp hnext] at hcarries
      cases hcarries with
      | @links _ last reached leads reads =>
          exact ih (buffer.size - next) (by omega) (labelled.frontier_children reached) leads rfl

theorem Holds.mem_paths_iff (holds : Holds buffer graph start) (labelled : graph.WellLabelled)
    {position : Nat} {children : List Nat} (frontier : graph.Frontier children)
    (leads : Run.LeadsTo buffer position (children.map start)) (key : Word) (v : UInt8) :
    ⟨key, v⟩ ∈ paths buffer position ↔ graph.Reads children key v := by
  have throughout := holds.throughout labelled frontier leads
  induction throughout generalizing children key v with
  | @run position found read _ _ ih =>
      obtain ⟨others, hothers, fans⟩ := holds.exists_fans labelled frontier leads
      cases hothers.symm.trans read
      have hbranch : ∀ branch ∈ found, ∀ id,
          Carries buffer graph start id branch.label.letters branch.label.ending →
          (⟨key, v⟩ ∈ branch.paths buffer ↔ graph.Reads [id] key v) := by
        intro branch hbranch id hcarries
        apply hcarries.mem_paths_iff
        intro next last hnext reached leads key v
        exact ih branch hbranch next hnext (labelled.frontier_children reached) leads key v
      rw [paths_eq read, List.mem_flatMap, Graph.reads_iff_exists]
      constructor
      · intro h
        obtain ⟨branch, hmem, hpath⟩ := h
        obtain ⟨id, hid, hcarries⟩ := fans.carries branch hmem
        exact ⟨id, hid, (hbranch branch hmem id hcarries).mp hpath⟩
      · intro h
        obtain ⟨id, hid, hreads⟩ := h
        obtain ⟨branch, hmem, hcarries⟩ := fans.covers id hid
        exact ⟨branch, hmem, (hbranch branch hmem id hcarries).mpr hreads⟩

end Lexicon.Packed
