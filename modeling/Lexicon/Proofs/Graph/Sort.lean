import Lexicon.Graph.Sort
import Lexicon.Proofs.Graph.Release
import Mathlib.Data.List.Perm.Subperm

namespace Lexicon

/-! Where the root names no child twice that has no parent, a checked walk never fails, and comes to
the same order. For all other graphs it fails. -/

namespace Tally

variable {graph : Graph}

def count (tally : Tally) (id : Nat) : Nat :=
  tally.incoming.getD id 0

/-- What is known while the walk goes on: `expanded` are the nodes that were seen. Each
reference from them and from the root has been counted or waits. -/
structure Tallies (graph : Graph) (expanded waiting : List Nat) (tally : Tally) : Prop where
  incoming_size : tally.incoming.size = graph.size
  seen_size : tally.seen.size = graph.size
  isSeen : ∀ id < graph.size, tally.isSeen id ↔ id ∈ expanded
  nodup : expanded.Nodup
  reachable : tally.reachable = expanded.length
  reached : ∀ id ∈ expanded ++ waiting, graph.Reached id
  counted : ∀ id < graph.size,
    tally.count id + waiting.count id = graph.root.count id + graph.owed expanded id
  expanded : ∀ id, 0 < tally.count id → id ∈ expanded

theorem tallies_start (graph : Graph) : Tallies graph [] graph.root (start graph) where
  incoming_size := Array.size_replicate
  seen_size := Array.size_replicate
  isSeen := by
    intro id hid
    simp [Tally.isSeen, start, Array.getD_eq_getD_getElem?, hid]
  nodup := .nil
  reachable := rfl
  reached := fun id hid => .root hid
  counted := by
    intro id _
    rw [count, start, Census.getD_replicate, Nat.zero_add]
    rfl
  expanded := by
    intro id hpositive
    rw [count, start, Census.getD_replicate] at hpositive
    exact absurd hpositive (Nat.lt_irrefl 0)

theorem count_refer {tally : Tally} {id : Nat} (h : id < tally.incoming.size) (other : Nat) :
    (tally.refer id).count other = tally.count other + [id].count other := by
  simp only [count, refer, Array.getD_eq_getD_getElem?, Array.getElem?_modify]
  by_cases hsame : id = other
  · subst hsame
    simp [h]
  · simp [hsame]

theorem count_see (tally : Tally) (id other : Nat) : (tally.see id).count other = tally.count other :=
  rfl

theorem isSeen_see {tally : Tally} {id other : Nat} (h : other < tally.seen.size) :
    (tally.see id).isSeen other ↔ id = other ∨ tally.isSeen other := by
  simp only [isSeen, see, Array.getD_eq_getD_getElem?, Array.getElem?_setIfInBounds]
  by_cases hsame : id = other
  · subst hsame
    simp [h]
  · simp [hsame]

theorem Tallies.refer {expanded rest : List Nat} {tally : Tally} {id : Nat}
    (tallies : Tallies graph expanded (id :: rest) tally) (seen : tally.isSeen id) :
    Tallies graph expanded rest (tally.refer id) := by
  have hid : id < graph.size :=
    (tallies.reached id (List.mem_append_right _ List.mem_cons_self)).lt_size
  have hcount := count_refer (tallies.incoming_size.symm ▸ hid)
  refine { tallies with incoming_size := ?_, reached := ?_, counted := ?_, expanded := ?_ }
  · simp [Tally.refer, tallies.incoming_size]
  · intro other hother
    apply tallies.reached other
    rcases List.mem_append.mp hother with hexpanded | hrest
    · exact List.mem_append_left _ hexpanded
    · exact List.mem_append_right _ (List.mem_cons_of_mem id hrest)
  · intro other hother
    have hcounted := tallies.counted other hother
    rw [Release.count_cons_eq] at hcounted
    rw [hcount]
    omega
  · intro other hpositive
    by_cases hsame : id = other
    · exact hsame ▸ (tallies.isSeen id hid).mp seen
    · apply tallies.expanded
      rw [hcount, List.count_eq_zero.mpr (by simpa using Ne.symm hsame)] at hpositive
      exact hpositive

theorem Tallies.see {expanded rest : List Nat} {tally : Tally} {id : Nat}
    (tallies : Tallies graph expanded (id :: rest) tally) (unseen : ¬ tally.isSeen id) :
    Tallies graph (id :: expanded) (graph.children id ++ rest) ((tally.refer id).see id) := by
  have hreached := tallies.reached id (List.mem_append_right _ List.mem_cons_self)
  have hid := hreached.lt_size
  have hnew : id ∉ expanded := fun hmem => unseen ((tallies.isSeen id hid).mpr hmem)
  have hcount := count_refer (tallies.incoming_size.symm ▸ hid)
  refine ⟨?_, ?_, fun other hother => ?_, List.nodup_cons.mpr ⟨hnew, tallies.nodup⟩, ?_,
    fun other hother => ?_, fun other hother => ?_, fun other hpositive => ?_⟩
  · simp [Tally.see, Tally.refer, tallies.incoming_size]
  · simp [Tally.see, Tally.refer, tallies.seen_size]
  · have hlt : other < (tally.refer id).seen.size := tallies.seen_size.symm ▸ hother
    rw [isSeen_see hlt, List.mem_cons, eq_comm]
    exact or_congr_right (tallies.isSeen other hother)
  · exact congrArg (· + 1) tallies.reachable
  · rcases List.mem_append.mp hother with hexpanded | hwaiting
    · rcases List.mem_cons.mp hexpanded with rfl | hexpanded
      · exact hreached
      · exact tallies.reached other (List.mem_append_left _ hexpanded)
    · rcases List.mem_append.mp hwaiting with hchild | hrest
      · exact .child hreached hchild
      · exact tallies.reached other (List.mem_append_right _ (List.mem_cons_of_mem id hrest))
  · have hcounted := tallies.counted other hother
    rw [Release.count_cons_eq] at hcounted
    rw [count_see, hcount, List.count_append, Graph.owed_cons]
    omega
  · rw [count_see, hcount] at hpositive
    by_cases hsame : other = id
    · exact hsame ▸ List.mem_cons_self
    · rw [List.count_eq_zero.mpr (by simpa using hsame)] at hpositive
      exact List.mem_cons_of_mem id (tallies.expanded other hpositive)

theorem Tallies.walk {expanded waiting : List Nat} {tally : Tally}
    (tallies : Tallies graph expanded waiting tally) :
    ∃ all, Tallies graph all [] (walk graph waiting tally) := by
  fun_induction Tally.walk graph waiting tally generalizing expanded with
  | case1 tally => exact ⟨expanded, tallies⟩
  | case2 tally id rest seen ih => exact ih (tallies.refer seen)
  | case3 tally id rest unseen _ ih => exact ih (tallies.see unseen)

/-- In the end all nodes that are reached have been seen. -/
theorem Tallies.mem_iff {all : List Nat} {tally : Tally} (tallies : Tallies graph all [] tally)
    (id : Nat) : id ∈ all ↔ graph.Reached id := by
  have closed : ∀ id, id < graph.size → 0 < graph.root.count id + graph.owed all id → id ∈ all := by
    intro id hid hpositive
    have hcounted := tallies.counted id hid
    rw [List.count_nil, Nat.add_zero] at hcounted
    exact tallies.expanded id (hcounted ▸ hpositive)
  constructor
  · intro hid
    exact tallies.reached id (List.mem_append_left [] hid)
  · intro hreached
    apply hreached.mem_of_closed
    · intro child hchild
      apply closed child (graph.root_lt child hchild)
      exact Nat.add_pos_left (List.count_pos_iff.mpr hchild) _
    · intro parent hparent child hchild
      have hlt := (tallies.reached parent (List.mem_append_left [] hparent)).lt_size
      apply closed child (Nat.lt_trans (Graph.lt_of_mem_children hchild) hlt)
      apply Nat.add_pos_right
      rw [Nat.pos_iff_ne_zero, Ne, Graph.owed_eq_zero_iff]
      exact fun hnone => hnone parent hparent hchild

end Tally

namespace Release

variable {graph : Graph} {size : Nat} {left : Nat → Nat} {release : Release}

/-- A reference that is left can be taken back. -/
theorem Counts.takeReference (counts : release.Counts size left) {child : Nat} (h : child < size)
    (hleft : 0 < left child) :
    Lexicon.takeReference release.references child = .ok (release.dropReference child).references := by
  have hget := counts.get child h
  obtain ⟨count, hcount⟩ := Nat.exists_eq_add_of_lt hleft
  rw [Nat.zero_add] at hcount
  rw [hcount] at hget
  rw [Lexicon.takeReference, Release.dropReference, hget]
  rfl

theorem Counts.dropReference? (counts : release.Counts size left) {child : Nat} (h : child < size)
    (hleft : 0 < left child) :
    release.dropReference? child = .ok (release.dropReference child) := by
  have htake := counts.takeReference h hleft
  cases hdrop : release.dropReference? child with
  | error error =>
      rw [Release.dropReference?, htake] at hdrop
      cases hdrop
  | ok dropped => rw [dropReference_of_ok hdrop]

/-- The references to the root's children that come from the root itself. -/
theorem Counts.foldlM_takeReference (counts : release.Counts size left) {ids : List Nat}
    (small : ∀ id ∈ ids, id < size) (enough : ∀ id, ids.count id ≤ left id) :
    ∃ references, ids.foldlM Lexicon.takeReference release.references = .ok references ∧
      Counts size (fun id => left id - ids.count id) ⟨[], references⟩ := by
  induction ids generalizing release left with
  | nil => exact ⟨release.references, rfl, counts.size_eq, counts.get⟩
  | cons id rest ih =>
      have hid := small id List.mem_cons_self
      have henough (other : Nat) : rest.count other + [id].count other ≤ left other :=
        count_cons_eq id rest other ▸ enough other
      have hleft : 0 < left id := by
        have := henough id
        rw [List.count_singleton_self] at this
        omega
      obtain ⟨references, hreferences, hcounts⟩ := ih (counts.dropReference hid)
        (fun other hother => small other (List.mem_cons_of_mem id hother)) fun other => by
          have := henough other
          omega
      refine ⟨references, ?_, ?_⟩
      · rw [List.foldlM_cons, counts.takeReference hid hleft]
        exact hreferences
      · rw [sub_count_cons]
        exact hcounts

theorem Ready.foldlM {children : List Nat} (ready : release.Ready size left children) :
    children.foldlM Release.dropReference? release =
      .ok (children.foldl Release.dropReference release) := by
  induction children generalizing release left with
  | nil => rfl
  | cons child rest ih =>
      have hleft : 0 < left child := Nat.lt_of_lt_of_le (Nat.succ_pos _) ready.enough_head
      rw [List.foldlM_cons, List.foldl_cons,
        ready.counts.dropReference? (ready.small child List.mem_cons_self) hleft]
      exact ih ready.dropReference

/-- No reference is missing while the nodes are listed. -/
theorem Keeps.list? {pending listed : List Nat} (keeps : Keeps graph pending listed release) :
    release.list? graph listed = .ok (release.list graph listed) := by
  fun_induction Release.list graph release listed generalizing pending with
  | case1 references listed => rw [Release.list?]
  | case2 id waiting references listed ih =>
      rw [Release.list?]
      split
      · rename_i error herror
        cases keeps.ready.foldlM.symm.trans herror
      · rename_i dropped hdropped
        cases keeps.ready.foldlM.symm.trans hdropped
        exact ih keeps.step

/-! What a walk has come to that did not fail. -/

theorem Counts.dropReference_of_ok (counts : release.Counts size left) {child : Nat}
    {dropped : Release} (h : child < size) (hdrop : release.dropReference? child = .ok dropped) :
    0 < left child ∧ dropped = release.dropReference child := by
  refine ⟨?_, Release.dropReference_of_ok hdrop⟩
  have hget := counts.get child h
  rw [Release.dropReference?, Lexicon.takeReference, hget] at hdrop
  cases hleft : left child with
  | zero =>
      rw [hleft] at hdrop
      cases hdrop
  | succ count => exact Nat.succ_pos count

/-- The references to these children were there, and a child that has lost its last one waits. -/
structure Dropped (size : Nat) (left : Nat → Nat) (children : List Nat) (release dropped : Release) :
    Prop where
  counts : dropped.Counts size fun id => left id - children.count id
  enough : ∀ id, children.count id ≤ left id
  waiting : release.waiting <:+ dropped.waiting
  free : ∀ id ∈ children, left id = children.count id → id ∈ dropped.waiting

theorem Dropped.cons {child : Nat} {rest : List Nat} {dropped : Release}
    (behind : Dropped size (fun id => left id - [child].count id) rest
      (release.dropReference child) dropped)
    (counts : release.Counts size left) (hsmall : child < size) (hleft : 0 < left child) :
    Dropped size left (child :: rest) release dropped := by
  obtain ⟨hcounts, henough, hsuffix, hfree⟩ := behind
  have hwaiting := waiting_dropReference counts hsmall
  refine ⟨sub_count_cons left child rest ▸ hcounts, fun id => ?_, ?_, fun id hid hlast => ?_⟩
  · have hrest := henough id
    rw [count_cons_eq]
    have hsingle : [child].count id ≤ left id := by
      by_cases hsame : id = child
      · rw [hsame, List.count_singleton_self]
        exact hleft
      · rw [List.count_eq_zero.mpr (mt List.mem_singleton.mp hsame)]
        exact Nat.zero_le _
    omega
  · refine List.IsSuffix.trans ?_ hsuffix
    rw [hwaiting]
    split
    · exact List.suffix_cons child release.waiting
    · exact List.suffix_refl _
  · rw [count_cons_eq] at hlast
    by_cases hrest : id ∈ rest
    · exact hfree id hrest (by omega)
    · -- It is the first child, and loses its last reference here.
      obtain rfl := (List.mem_cons.mp hid).resolve_right hrest
      rw [List.count_eq_zero.mpr hrest, List.count_singleton_self, Nat.zero_add] at hlast
      apply hsuffix.subset
      rw [hwaiting, if_pos hlast]
      exact List.mem_cons_self

theorem Counts.dropped (counts : release.Counts size left) {children : List Nat}
    {dropped : Release} (small : ∀ id ∈ children, id < size)
    (h : children.foldlM Release.dropReference? release = .ok dropped) :
    Dropped size left children release dropped := by
  induction children generalizing release left with
  | nil =>
      cases h
      exact ⟨counts, fun _ => Nat.zero_le _, List.suffix_refl _, nofun⟩
  | cons child rest ih =>
      rw [List.foldlM_cons] at h
      cases hnext : release.dropReference? child with
      | error error =>
          rw [hnext] at h
          cases h
      | ok next =>
          rw [hnext] at h
          obtain ⟨hsmall, hsmallRest⟩ := List.forall_mem_cons.mp small
          obtain ⟨hleft, rfl⟩ := counts.dropReference_of_ok hsmall hnext
          exact (ih (counts.dropReference hsmall) hsmallRest h).cons counts hsmall hleft

/-- What is known while a list of nodes with these references grows without failing, whether
nodes come up once or more often: `all` are the nodes that are reached. -/
structure Grows (graph : Graph) (all listed : List Nat) (release : Release) : Prop where
  counts : release.Counts graph.size fun id => graph.owed all id - graph.owed listed id
  enough : ∀ id, graph.owed listed id ≤ graph.owed all id
  free : ∀ id ∈ all, graph.owed listed id = graph.owed all id → id ∈ listed ++ release.waiting

theorem Counts.isFree {references : Array Nat} (counts : Counts size left ⟨[], references⟩) {id : Nat}
    (h : id < size) (none : left id = 0) : (references[id]? == some 0) = true := by
  have hget : references[id]? = some (left id) := counts.get id h
  rw [hget, none]
  rfl

theorem grows_start {all : List Nat} {references : Array Nat}
    (counts : Counts graph.size (graph.owed all) ⟨[], references⟩)
    (mem_iff : ∀ id, id ∈ all ↔ graph.Reached id) :
    Grows graph all []
      ⟨(graph.root.filter fun id => references[id]? == some 0).reverse, references⟩ := by
  refine ⟨⟨counts.size_eq, counts.get⟩, fun _ => Nat.zero_le _, fun id hid hnone => ?_⟩
  have hreached := (mem_iff id).mp hid
  rcases Graph.reached_iff.mp hreached with hroot | ⟨parent, hparent, hchild⟩
  · have hfree := counts.isFree hreached.lt_size hnone.symm
    exact List.mem_reverse.mpr (List.mem_filter.mpr ⟨hroot, hfree⟩)
  · exact absurd hchild
      (Graph.owed_eq_zero_iff.mp hnone.symm parent ((mem_iff parent).mpr hparent))

theorem Grows.step {all listed waiting : List Nat} {references : Array Nat} {id : Nat}
    {dropped : Release} (grows : Grows graph all listed ⟨id :: waiting, references⟩)
    (h : (graph.children id).foldlM Release.dropReference? ⟨waiting, references⟩ = .ok dropped) :
    Grows graph all (id :: listed) dropped ∧ waiting <:+ dropped.waiting := by
  have counts : Counts graph.size (fun id => graph.owed all id - graph.owed listed id)
      ⟨waiting, references⟩ := ⟨grows.counts.size_eq, grows.counts.get⟩
  obtain ⟨hcounts, henough, hsuffix, hfree⟩ :=
    counts.dropped (fun child hchild =>
      Nat.lt_trans (Graph.lt_of_mem_children hchild) (Graph.parent_lt_size hchild)) h
  refine ⟨⟨⟨hcounts.size_eq, fun child hchild => ?_⟩, fun child => ?_, fun child hchild hlast => ?_⟩,
    hsuffix⟩
  · rw [hcounts.get child hchild, Graph.owed_cons, Nat.sub_sub, Nat.add_comm]
  · have := henough child
    have := grows.enough child
    rw [Graph.owed_cons]
    omega
  · rw [Graph.owed_cons] at hlast
    by_cases hcount : child ∈ graph.children id
    · apply List.mem_append_right
      apply hfree child hcount
      omega
    · rw [List.count_eq_zero.mpr hcount, Nat.zero_add] at hlast
      rcases List.mem_append.mp (grows.free child hchild hlast) with hlisted | hwaiting
      · exact List.mem_append_left _ (List.mem_cons_of_mem id hlisted)
      · rcases List.mem_cons.mp hwaiting with rfl | hwaiting
        · exact List.mem_append_left _ List.mem_cons_self
        · exact List.mem_append_right _ (hsuffix.subset hwaiting)

/-- No node that waits is lost. -/
theorem Grows.list {all listed found : List Nat} (grows : Grows graph all listed release)
    (h : release.list? graph listed = .ok found) :
    (∃ references, Grows graph all found ⟨[], references⟩) ∧
      ∀ id, (listed ++ release.waiting).count id ≤ found.count id := by
  fun_induction Release.list? graph release listed with
  | case1 listed references =>
      cases h
      exact ⟨⟨references, grows⟩, fun id => Nat.le_of_eq (by rw [List.append_nil])⟩
  | case2 listed id waiting references error herror => cases h
  | case3 listed id waiting references dropped hdropped _ ih =>
      obtain ⟨hgrows, hsuffix⟩ := grows.step hdropped
      obtain ⟨hfound, hcount⟩ := ih hgrows h
      refine ⟨hfound, fun other => Nat.le_trans ?_ (hcount other)⟩
      have := hsuffix.sublist.count_le other
      rw [List.count_append, count_cons_eq id waiting, List.count_append, count_cons_eq id listed]
      omega

/-- With all of its parents a node is listed itself. -/
theorem Grows.subset {all listed : List Nat} {references : Array Nat}
    (grows : Grows graph all listed ⟨[], references⟩) (nodup : all.Nodup) : all ⊆ listed := by
  intro id
  induction id using graph.parents_induct with
  | step id ih =>
      intro hid
      have hle : graph.owed all id ≤ graph.owed listed id :=
        Graph.owed_le nodup fun parent hparent hchild => ih parent hchild hparent
      have hlisted := grows.free id hid (Nat.le_antisymm (grows.enough id) hle)
      rwa [List.append_nil] at hlisted

/-- Arrays that count the same are the same. -/
theorem Counts.references_eq {other : Release} (counts : release.Counts size left)
    (others : other.Counts size left) : release.references = other.references := by
  apply Array.ext_getElem?
  intro id
  rcases Nat.lt_or_ge id size with hlt | hge
  · rw [counts.get id hlt, others.get id hlt]
  · rw [Array.getElem?_eq_none (counts.size_eq ▸ hge), Array.getElem?_eq_none (others.size_eq ▸ hge)]

end Release

namespace Graph

variable {graph : Graph}

/-- Once the root's own references are taken back, those from the nodes that are reached are left. -/
theorem exists_references (graph : Graph) : ∃ all references,
    Tally.Tallies graph all [] (Tally.walk graph graph.root (Tally.start graph)) ∧
    graph.root.foldlM takeReference (Tally.walk graph graph.root (Tally.start graph)).incoming =
      .ok references ∧
    Release.Counts graph.size (graph.owed all) ⟨[], references⟩ := by
  obtain ⟨all, tallies⟩ := (Tally.tallies_start graph).walk
  have counts : Release.Counts graph.size (fun id => graph.root.count id + graph.owed all id)
      ⟨[], (Tally.walk graph graph.root (Tally.start graph)).incoming⟩ := by
    refine ⟨tallies.incoming_size, fun id hid => ?_⟩
    have hcounted := tallies.counted id hid
    rw [List.count_nil, Nat.add_zero, Tally.count] at hcounted
    have hlt := tallies.incoming_size.symm ▸ hid
    rw [← hcounted, Array.getD_eq_getD_getElem?, Array.getElem?_eq_getElem hlt]
    rfl
  obtain ⟨references, htaken, left⟩ :=
    counts.foldlM_takeReference graph.root_lt fun id => Nat.le_add_right _ _
  have howed : (fun id => graph.root.count id + graph.owed all id - graph.root.count id) =
      graph.owed all := by
    funext id
    exact Nat.add_sub_cancel_left _ _
  exact ⟨all, references, tallies, htaken, howed ▸ left⟩

theorem NamedOnce.sort_eq (named : graph.NamedOnce) : graph.sort = .ok graph.order := by
  obtain ⟨all, references, tallies, htaken, counts⟩ := graph.exists_references
  obtain ⟨pending, keeps⟩ := Release.keeps_start named
  have hmem (id : Nat) : id ∈ pending ↔ graph.Reached id := by
    simpa using keeps.mem_iff id
  have hperm : all.Perm pending :=
    (List.perm_ext_iff_of_nodup tallies.nodup (List.nodup_append.mp keeps.nodup).1).mpr fun id =>
      (tallies.mem_iff id).trans (hmem id).symm
  rw [funext (owed_perm hperm)] at counts
  obtain rfl : references = graph.census.references := counts.references_eq keeps.counts
  have hlength : ((Release.start graph).list graph []).length =
      (Tally.walk graph graph.root (Tally.start graph)).reachable := by
    obtain ⟨hnodup, _, hlisted⟩ := keeps.list
    rw [tallies.reachable]
    exact ((List.perm_ext_iff_of_nodup hnodup tallies.nodup).mpr fun id =>
      (hlisted id).trans (tallies.mem_iff id).symm).length_eq
  have hlist := keeps.list?
  rw [Release.start] at hlist hlength
  rw [sort]
  simp only [htaken, hlist, hlength, bind, Except.bind, if_true]
  rfl

theorem list?_of_sort {order : List Nat} {references : Array Nat}
    (taken : graph.root.foldlM takeReference
      (Tally.walk graph graph.root (Tally.start graph)).incoming = .ok references)
    (h : graph.sort = .ok order) : ∃ listed,
    Release.list? graph
        ⟨(graph.root.filter fun id => references[id]? == some 0).reverse, references⟩ [] =
      .ok listed ∧
    listed.length = (Tally.walk graph graph.root (Tally.start graph)).reachable := by
  rw [sort, taken] at h
  change (Release.list? graph _ [] >>= _) = _ at h
  cases hlisted : Release.list? graph
      ⟨(graph.root.filter fun id => references[id]? == some 0).reverse, references⟩ [] with
  | error error =>
      rw [hlisted] at h
      cases h
  | ok listed =>
      rw [hlisted] at h
      change (if listed.length = _ then _ else _) = _ at h
      split at h
      · exact ⟨listed, rfl, ‹_›⟩
      · cases h

/-- A child that the root names twice is released twice, unless a parent holds it back. Then either
a reference to one of its own children is missing, or the list has a node too many. -/
theorem namedOnce_of_sort {order : List Nat} (h : graph.sort = .ok order) : graph.NamedOnce := by
  obtain ⟨all, references, tallies, htaken, counts⟩ := graph.exists_references
  obtain ⟨listed, hlisted, hlength⟩ := list?_of_sort htaken h
  obtain ⟨⟨_, grows⟩, hcount⟩ := (Release.grows_start counts tallies.mem_iff).list hlisted
  have hperm : all.Perm listed :=
    (tallies.nodup.subperm (grows.subset tallies.nodup)).perm_of_length_le
      (Nat.le_of_eq (hlength.trans tallies.reachable))
  intro id alone
  by_cases hroot : id ∈ graph.root
  · have hnone : graph.owed all id = 0 := owed_eq_zero_iff.mpr fun parent hparent =>
      alone parent ((tallies.mem_iff parent).mp hparent)
    have hfree := counts.isFree (graph.root_lt id hroot) hnone
    calc
      graph.root.count id
      _ = (graph.root.filter fun id => references[id]? == some 0).count id :=
        (List.count_filter (by exact hfree)).symm
      _ ≤ listed.count id := by
        have := hcount id
        rwa [List.nil_append, List.count_reverse] at this
      _ ≤ 1 := List.nodup_iff_count_le_one.mp (hperm.nodup_iff.mp tallies.nodup) id
  · rw [List.count_eq_zero.mpr hroot]
    exact Nat.zero_le 1

/-- A graph is sorted if and only if the root names no child twice that has no parent. -/
theorem sort_eq_ok_iff {order : List Nat} :
    graph.sort = .ok order ↔ graph.NamedOnce ∧ order = graph.order := by
  constructor
  · intro h
    have named := namedOnce_of_sort h
    exact ⟨named, Except.ok.inj (h.symm.trans named.sort_eq)⟩
  · rintro ⟨named, rfl⟩
    exact named.sort_eq

/-- The nodes that are reached are sorted, without a reference missing and without a node left
over: each of them is listed once, nothing else is, and each stands before all of its
children. -/
theorem sort_exact (named : graph.NamedOnce) :
    graph.sort = .ok graph.order ∧ graph.order.Nodup ∧
    (∀ id, id ∈ graph.order ↔ graph.Reached id) ∧
    ∀ before id after, graph.order = before ++ id :: after →
      ∀ child ∈ graph.children id, child ∈ after := by
  obtain ⟨hnodup, hparents, hmem⟩ := named.order_reverse
  refine ⟨named.sort_eq, List.nodup_reverse.mp hnodup, fun id => ?_,
    fun before id after horder child hchild => ?_⟩
  · rw [← hmem, List.mem_reverse]
  · rw [horder, List.reverse_append, List.reverse_cons, List.append_assoc,
      List.singleton_append] at hnodup hparents hmem
    have hid : graph.Reached id :=
      (hmem id).mp (List.mem_append_right _ List.mem_cons_self)
    have hlisted := (hmem child).mpr (.child hid hchild)
    exact List.mem_reverse.mp (hparents.child_mem hnodup hid hchild hlisted)

/-- The root names a child of its other child twice, a node refers twice to its value, and
one node is not reached. -/
def knotted : Graph where
  nodes := #[.value 1, .char 0x62 [0, 0], .char 0x63 [1], .char 0x61 [1, 0]]
  root := [3, 1, 1]
  child_lt := by decide
  root_lt := by decide

theorem sort_exact_knotted : knotted.NamedOnce ∧ knotted.sort = .ok [3, 1, 0] ∧
    [3, 1, 0].Nodup ∧ (∀ id, id ∈ [3, 1, 0] ↔ knotted.Reached id) ∧
    ∀ before id after, [3, 1, 0] = before ++ id :: after →
      ∀ child ∈ knotted.children id, child ∈ after := by
  have named : knotted.NamedOnce := by
    intro id alone
    have hparent := alone 3 (.root List.mem_cons_self)
    have hchildren : knotted.children 3 = [1, 0] := rfl
    rw [hchildren, List.mem_cons, not_or] at hparent
    rw [knotted, List.count_cons, List.count_eq_zero.mpr (by simpa using hparent.1)]
    split <;> decide
  have horder : knotted.order = [3, 1, 0] := by cbv
  exact ⟨named, horder ▸ sort_exact named⟩

end Graph

end Lexicon
