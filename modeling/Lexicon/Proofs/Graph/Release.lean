import Lexicon.Proofs.Graph.Census

namespace Lexicon

/-! The order of a graph lists the nodes that are reached, each of them once, and
parents before their children. -/

namespace Graph

/-- No child of the root that has no parent is named twice by the root. -/
def NamedOnce (graph : Graph) : Prop :=
  ∀ id, (∀ parent, graph.Reached parent → id ∉ graph.children parent) → graph.root.count id ≤ 1

/-- All parents of a node that is listed were listed before it. -/
inductive ParentsFirst (graph : Graph) : List Nat → Prop
  | nil : ParentsFirst graph []
  | cons {id : Nat} {rest : List Nat} (settled : ParentsFirst graph rest)
      (parents : ∀ parent, graph.Reached parent → id ∈ graph.children parent → parent ∈ rest) :
      ParentsFirst graph (id :: rest)

variable {graph : Graph}

theorem ParentsFirst.closed {listed : List Nat} (h : graph.ParentsFirst listed) {id parent : Nat}
    (hid : id ∈ listed) (hparent : graph.Reached parent) (hchild : id ∈ graph.children parent) :
    parent ∈ listed := by
  induction h with
  | nil => cases hid
  | cons _ parents ih =>
      rcases List.mem_cons.mp hid with rfl | hid
      · exact List.mem_cons_of_mem _ (parents parent hparent hchild)
      · exact List.mem_cons_of_mem _ (ih hid)

/-- Read from its end, such a list has children before their parents. -/
theorem ParentsFirst.child_mem {before after : List Nat} {id child : Nat}
    (h : graph.ParentsFirst (before ++ id :: after)) (hnodup : (before ++ id :: after).Nodup)
    (hid : graph.Reached id) (hchild : child ∈ graph.children id)
    (hlisted : child ∈ before ++ id :: after) : child ∈ before := by
  induction before with
  | nil =>
      -- The node is its child's parent, so that it would have to be listed twice.
      cases h with
      | cons settled parents =>
          rcases List.mem_cons.mp hlisted with rfl | hafter
          · exact absurd (lt_of_mem_children hchild) (Nat.lt_irrefl _)
          · exact absurd (settled.closed hafter hid hchild) (List.nodup_cons.mp hnodup).1
  | cons first before ih =>
      cases h with
      | cons settled parents =>
          rcases List.mem_cons.mp hlisted with rfl | hrest
          · exact List.mem_cons_self
          · exact List.mem_cons_of_mem _ (ih settled (List.nodup_cons.mp hnodup).2 hrest)

end Graph

namespace Release

variable {graph : Graph}

/-- The references that are left to each node. -/
structure Counts (size : Nat) (left : Nat → Nat) (release : Release) : Prop where
  size_eq : release.references.size = size
  get : ∀ id < size, release.references[id]? = some (left id)

theorem waiting_dropReference {size : Nat} {left : Nat → Nat} {release : Release}
    (counts : release.Counts size left) {child : Nat} (h : child < size) :
    (release.dropReference child).waiting =
      if left child = 1 then child :: release.waiting else release.waiting := by
  rw [dropReference, counts.get child h]

theorem Counts.dropReference {size : Nat} {left : Nat → Nat} {release : Release}
    (counts : release.Counts size left) {child : Nat} (h : child < size) :
    (release.dropReference child).Counts size fun id => left id - [child].count id := by
  rw [Release.dropReference, counts.get child h]
  refine ⟨by simpa using counts.size_eq, fun id hid => ?_⟩
  have hlt : child < release.references.size := counts.size_eq.symm ▸ h
  simp only [Array.getElem?_setIfInBounds]
  by_cases hsame : child = id
  · subst hsame
    simp [hlt]
  · rw [if_neg hsame, counts.get id hid]
    simp [hsame]

/-- References to these children can be dropped: as many are left, and none of the
children waits already. -/
structure Ready (size : Nat) (left : Nat → Nat) (children : List Nat) (release : Release) :
    Prop where
  counts : release.Counts size left
  small : ∀ id ∈ children, id < size
  enough : ∀ id, children.count id ≤ left id
  apart : ∀ id ∈ release.waiting, id ∉ children
  nodup : release.waiting.Nodup

theorem count_cons_eq (child : Nat) (rest : List Nat) (id : Nat) :
    (child :: rest).count id = rest.count id + [child].count id := by
  rw [← List.singleton_append, List.count_append, Nat.add_comm]

/-- The references that are left when one more has been dropped. -/
theorem sub_count_cons (left : Nat → Nat) (child : Nat) (rest : List Nat) :
    (fun id => left id - (child :: rest).count id) =
      fun id => left id - [child].count id - rest.count id := by
  funext id
  rw [count_cons_eq, Nat.sub_sub, Nat.add_comm]

theorem Ready.enough_head {size child : Nat} {left : Nat → Nat} {rest : List Nat}
    {release : Release} (ready : release.Ready size left (child :: rest)) :
    rest.count child + 1 ≤ left child := by
  have hchild := ready.enough child
  rwa [count_cons_eq, List.count_singleton_self] at hchild

theorem Ready.dropReference {size child : Nat} {left : Nat → Nat} {rest : List Nat}
    {release : Release} (ready : release.Ready size left (child :: rest)) :
    (release.dropReference child).Ready size (fun id => left id - [child].count id) rest := by
  have hlt := ready.small child List.mem_cons_self
  have hhead : child ∉ release.waiting := fun hmem => ready.apart child hmem List.mem_cons_self
  have hwaiting := waiting_dropReference ready.counts hlt
  refine ⟨ready.counts.dropReference hlt,
    fun id hid => ready.small id (List.mem_cons_of_mem child hid), fun id => ?_,
    fun id hid hrest => ?_, ?_⟩
  · have hid := ready.enough id
    rw [count_cons_eq] at hid
    omega
  · have hold : id ∉ release.waiting := fun hmem =>
      ready.apart id hmem (List.mem_cons_of_mem child hrest)
    rw [hwaiting] at hid
    split at hid
    · rcases List.mem_cons.mp hid with rfl | hid
      · -- Its last reference is dropped, so that no other can be left for the rest.
        have := ready.enough_head
        have := List.count_pos_iff.mpr hrest
        omega
      · exact hold hid
    · exact hold hid
  · rw [hwaiting]
    split
    · exact List.nodup_cons.mpr ⟨hhead, ready.nodup⟩
    · exact ready.nodup

theorem Ready.foldl {size : Nat} {left : Nat → Nat} {children : List Nat} {release : Release}
    (ready : release.Ready size left children) :
    (children.foldl Release.dropReference release).Ready size
      (fun id => left id - children.count id) [] := by
  induction children generalizing release left with
  | nil => exact ready
  | cons child rest ih =>
      rw [List.foldl_cons, sub_count_cons]
      exact ih ready.dropReference

theorem Ready.mem_waiting_dropReference {size child : Nat} {left : Nat → Nat} {rest : List Nat}
    {release : Release} (ready : release.Ready size left (child :: rest)) (id : Nat) :
    id ∈ (release.dropReference child).waiting ↔
      id ∈ release.waiting ∨ (id = child ∧ left child = 1) := by
  rw [waiting_dropReference ready.counts (ready.small child List.mem_cons_self)]
  split <;> simp [*, or_comm]

/-- The children that lose their last reference are set free. -/
theorem Ready.mem_waiting_foldl {size : Nat} {left : Nat → Nat} {children : List Nat}
    {release : Release} (ready : release.Ready size left children) (id : Nat) :
    id ∈ (children.foldl Release.dropReference release).waiting ↔
      id ∈ release.waiting ∨ (id ∈ children ∧ left id = children.count id) := by
  induction children generalizing release left with
  | nil => simp
  | cons child rest ih =>
      rw [List.foldl_cons, ih ready.dropReference, ready.mem_waiting_dropReference,
        count_cons_eq child rest]
      by_cases hsame : id = child
      · subst hsame
        have henough := ready.enough_head
        have hhead : id ∉ release.waiting := fun hmem => ready.apart id hmem List.mem_cons_self
        have hrest : id ∈ rest ↔ 0 < rest.count id := List.count_pos_iff.symm
        rw [List.count_singleton_self, hrest]
        simp only [hhead, List.mem_cons_self, false_or, true_and]
        omega
      · have hnone : [child].count id = 0 := by simp [Ne.symm hsame]
        rw [hnone, List.mem_cons]
        simp [hsame]

/-- What is known while nodes are listed: `pending` are the nodes that are left, and
those of them without a parent that is left are waiting. -/
structure Keeps (graph : Graph) (pending listed : List Nat) (release : Release) : Prop where
  counts : release.Counts graph.size (graph.owed pending)
  nodup : (pending ++ listed).Nodup
  mem_iff : ∀ id, id ∈ pending ++ listed ↔ graph.Reached id
  waiting_nodup : release.waiting.Nodup
  mem_waiting : ∀ id, id ∈ release.waiting ↔ id ∈ pending ∧ graph.owed pending id = 0
  parentsFirst : graph.ParentsFirst listed

theorem Keeps.reached {pending listed : List Nat} {release : Release}
    (keeps : Keeps graph pending listed release) {id : Nat} (hid : id ∈ pending) :
    graph.Reached id :=
  (keeps.mem_iff id).mp (List.mem_append_left _ hid)

/-- A child that is listed would have its parent listed too. -/
theorem Keeps.child_pending {pending listed : List Nat} {release : Release}
    (keeps : Keeps graph pending listed release) {id child : Nat} (hid : id ∈ pending)
    (hchild : child ∈ graph.children id) : child ∈ pending := by
  have hreached := keeps.reached hid
  rcases List.mem_append.mp ((keeps.mem_iff child).mpr (.child hreached hchild)) with h | h
  · exact h
  · have hlisted := keeps.parentsFirst.closed h hreached hchild
    exact absurd rfl ((List.nodup_append.mp keeps.nodup).2.2 id hid id hlisted)

theorem Keeps.parent_listed {pending listed : List Nat} {release : Release}
    (keeps : Keeps graph pending listed release) {id parent : Nat}
    (howed : graph.owed pending id = 0) (hparent : graph.Reached parent)
    (hchild : id ∈ graph.children parent) : parent ∈ listed := by
  rcases List.mem_append.mp ((keeps.mem_iff parent).mpr hparent) with h | h
  · exact absurd hchild (Graph.owed_eq_zero_iff.mp howed parent h)
  · exact h

theorem owed_erase {pending : List Nat} {id : Nat} (hid : id ∈ pending) (child : Nat) :
    graph.owed pending child =
      (graph.children id).count child + graph.owed (pending.erase id) child :=
  Graph.owed_perm (List.perm_cons_erase hid) child

/-- The references from the node that is listed next are all left. -/
theorem Keeps.ready {pending listed waiting : List Nat} {references : Array Nat} {id : Nat}
    (keeps : Keeps graph pending listed ⟨id :: waiting, references⟩) :
    Ready graph.size (graph.owed pending) (graph.children id) ⟨waiting, references⟩ := by
  obtain ⟨hpending, _⟩ := (keeps.mem_waiting id).mp List.mem_cons_self
  refine ⟨⟨keeps.counts.size_eq, keeps.counts.get⟩, fun child hchild => ?_, fun child => ?_,
    fun child hwaiting => ?_, (List.nodup_cons.mp keeps.waiting_nodup).2⟩
  · exact Nat.lt_trans (Graph.lt_of_mem_children hchild) (keeps.reached hpending).lt_size
  · rw [owed_erase hpending]
    exact Nat.le_add_right _ _
  · have hzero := ((keeps.mem_waiting child).mp (List.mem_cons_of_mem id hwaiting)).2
    rw [owed_erase hpending] at hzero
    exact List.count_eq_zero.mp (Nat.add_eq_zero_iff.mp hzero).1

theorem Keeps.mem_waiting_foldl {pending listed waiting : List Nat} {references : Array Nat}
    {id : Nat} (keeps : Keeps graph pending listed ⟨id :: waiting, references⟩) (child : Nat) :
    child ∈ ((graph.children id).foldl dropReference ⟨waiting, references⟩).waiting ↔
      child ∈ pending.erase id ∧ graph.owed (pending.erase id) child = 0 := by
  obtain ⟨hpending, _⟩ := (keeps.mem_waiting id).mp List.mem_cons_self
  have hwaiting := keeps.mem_waiting child
  rw [List.mem_cons, owed_erase hpending] at hwaiting
  rw [keeps.ready.mem_waiting_foldl, owed_erase hpending,
    (List.nodup_append.mp keeps.nodup).1.mem_erase_iff]
  constructor
  · intro hcases
    rcases hcases with hold | ⟨hchild, hlast⟩
    · obtain ⟨hleft, hzero⟩ := hwaiting.mp (.inr hold)
      have hne : child ≠ id := by
        rintro rfl
        exact (List.nodup_cons.mp keeps.waiting_nodup).1 hold
      exact ⟨⟨hne, hleft⟩, (Nat.add_eq_zero_iff.mp hzero).2⟩
    · have hne := Nat.ne_of_lt (Graph.lt_of_mem_children hchild)
      exact ⟨⟨hne, keeps.child_pending hpending hchild⟩, by omega⟩
  · intro hboth
    obtain ⟨⟨hne, hleft⟩, hzero⟩ := hboth
    by_cases hchild : child ∈ graph.children id
    · exact .inr ⟨hchild, by omega⟩
    · have hnone := List.count_eq_zero.mpr hchild
      exact .inl ((hwaiting.mpr ⟨hleft, by omega⟩).resolve_left hne)

theorem Keeps.step {pending listed waiting : List Nat} {references : Array Nat} {id : Nat}
    (keeps : Keeps graph pending listed ⟨id :: waiting, references⟩) :
    Keeps graph (pending.erase id) (id :: listed)
      ((graph.children id).foldl dropReference ⟨waiting, references⟩) := by
  obtain ⟨hpending, howed⟩ := (keeps.mem_waiting id).mp List.mem_cons_self
  have hlisted : (pending.erase id ++ id :: listed).Perm (pending ++ listed) :=
    List.perm_middle.trans ((List.perm_cons_erase hpending).symm.append_right listed)
  have ready := keeps.ready.foldl
  refine ⟨⟨ready.counts.size_eq, fun child hchild => ?_⟩, hlisted.nodup_iff.mpr keeps.nodup,
    fun child => hlisted.mem_iff.trans (keeps.mem_iff child), ready.nodup,
    keeps.mem_waiting_foldl, ?_⟩
  · rw [ready.counts.get child hchild, owed_erase hpending, Nat.add_sub_cancel_left]
  · apply keeps.parentsFirst.cons
    intro parent hparent hchild
    exact keeps.parent_listed howed hparent hchild

/-- Some node that is left has no parent that is left. -/
theorem Keeps.pending_eq_nil {pending listed : List Nat} {references : Array Nat}
    (keeps : Keeps graph pending listed ⟨[], references⟩) : pending = [] := by
  refine List.eq_nil_iff_forall_not_mem.mpr fun id => ?_
  induction id using graph.parents_induct with
  | step id ih =>
      intro hid
      have howed : graph.owed pending id ≠ 0 := fun hzero => by
        cases (keeps.mem_waiting id).mpr ⟨hid, hzero⟩
      rw [Ne, Graph.owed_eq_zero_iff] at howed
      push Not at howed
      obtain ⟨parent, hparent, hchild⟩ := howed
      exact ih parent hchild hparent

theorem Keeps.list {pending listed : List Nat} {release : Release}
    (keeps : Keeps graph pending listed release) :
    (release.list graph listed).Nodup ∧ graph.ParentsFirst (release.list graph listed) ∧
      ∀ id, id ∈ release.list graph listed ↔ graph.Reached id := by
  fun_induction Release.list graph release listed generalizing pending with
  | case1 references listed =>
      have hnil := keeps.pending_eq_nil
      have hnodup := keeps.nodup
      have hmem := keeps.mem_iff
      rw [hnil, List.nil_append] at hnodup hmem
      exact ⟨hnodup, keeps.parentsFirst, hmem⟩
  | case2 id waiting references listed ih => exact ih keeps.step

theorem keeps_start (named : graph.NamedOnce) :
    ∃ pending, Keeps graph pending [] (start graph) := by
  obtain ⟨all, swept⟩ := graph.exists_swept_census
  have hmem : ∀ id, id ∈ all ↔ graph.Reached id := by simpa using swept.mem_visited
  have hget : ∀ id < graph.size, graph.census.references[id]? = some (graph.owed all id) := by
    intro id hid
    rw [swept.getElem?_references hid, swept.count]
  have hfree : ∀ id ∈ graph.root,
      (graph.census.references[id]? == some 0) = true ↔ graph.owed all id = 0 := by
    intro id hid
    rw [hget id (graph.root_lt id hid)]
    simp
  refine ⟨all, ⟨swept.references, hget⟩, by simpa using swept.nodup, by simpa using hmem, ?_,
    fun id => ?_, .nil⟩
  · refine List.nodup_reverse.mpr (List.nodup_iff_count_le_one.mpr fun id => ?_)
    by_cases hid : id ∈ graph.root ∧ graph.owed all id = 0
    · apply Nat.le_trans (List.filter_sublist.count_le id)
      exact named id fun parent hparent =>
        Graph.owed_eq_zero_iff.mp hid.2 parent ((hmem parent).mpr hparent)
    · refine Nat.le_trans (Nat.le_of_eq (List.count_eq_zero.mpr fun hfilter => hid ?_)) (Nat.zero_le 1)
      obtain ⟨hroot, hzero⟩ := List.mem_filter.mp hfilter
      exact ⟨hroot, (hfree id hroot).mp hzero⟩
  · change id ∈ (graph.root.filter _).reverse ↔ _
    rw [List.mem_reverse, List.mem_filter, hmem]
    constructor
    · intro h
      obtain ⟨hroot, hzero⟩ := h
      exact ⟨.root hroot, (hfree id hroot).mp hzero⟩
    · intro h
      obtain ⟨hreached, hzero⟩ := h
      rcases Graph.reached_iff.mp hreached with hroot | ⟨parent, hparent, hchild⟩
      · exact ⟨hroot, (hfree id hroot).mpr hzero⟩
      · exact absurd hchild (Graph.owed_eq_zero_iff.mp hzero parent ((hmem parent).mpr hparent))

end Release

namespace Graph

variable {graph : Graph}

/-- The order, read from its end. -/
theorem NamedOnce.order_reverse (named : graph.NamedOnce) :
    graph.order.reverse.Nodup ∧ graph.ParentsFirst graph.order.reverse ∧
      ∀ id, id ∈ graph.order.reverse ↔ graph.Reached id := by
  obtain ⟨pending, keeps⟩ := Release.keeps_start named
  rw [order, List.reverse_reverse]
  exact keeps.list

theorem WellLabelled.namedOnce (labelled : graph.WellLabelled) : graph.NamedOnce := fun id _ =>
  List.nodup_iff_count_le_one.mp (List.Nodup.of_map _ labelled.root_distinct) id

end Graph

end Lexicon
