import Lexicon.Proofs.Graph.Sort
import Mathlib.Data.Set.Function

namespace Lexicon

/-! The order of a graph does not depend on the ids of its nodes, nor on nodes that are not
reached. -/

def Node.rename (rename : Nat → Nat) : Node → Node
  | .char byte children => .char byte (children.map rename)
  | .value v => .value v

@[simp] theorem Node.children_rename (rename : Nat → Nat) (node : Node) :
    (node.rename rename).children = node.children.map rename := by
  cases node <;> rfl

namespace Graph

/-- The nodes that are reached have other ids in the second graph, and nothing else about them
is different. -/
structure Renames (first second : Graph) (rename : Nat → Nat) : Prop where
  bijective : Set.BijOn rename {id | first.Reached id} {id | second.Reached id}
  node : ∀ id node, first.Reached id → first.node? id = some node →
    second.node? (rename id) = some (node.rename rename)
  root : second.root = first.root.map rename

namespace Renames

variable {first second : Graph} {rename : Nat → Nat}

theorem reached (h : first.Renames second rename) {id : Nat} (hid : first.Reached id) :
    second.Reached (rename id) :=
  h.bijective.mapsTo hid

theorem eq_iff (h : first.Renames second rename) {id other : Nat} (hid : first.Reached id)
    (hother : first.Reached other) : rename id = rename other ↔ id = other :=
  h.bijective.injOn.eq_iff hid hother

theorem children (h : first.Renames second rename) {id : Nat} (hid : first.Reached id) :
    second.children (rename id) = (first.children id).map rename := by
  obtain ⟨node, hnode⟩ := node?_of_lt hid.lt_size
  rw [children_of_node (h.node id node hid hnode), children_of_node hnode, Node.children_rename]

theorem count_map (h : first.Renames second rename) {ids : List Nat} {id : Nat}
    (hids : ∀ other ∈ ids, first.Reached other) (hid : first.Reached id) :
    (ids.map rename).count (rename id) = ids.count id := by
  rw [List.count, List.count, List.countP_map]
  apply List.countP_congr
  intro other hother
  simp [h.eq_iff (hids other hother) hid]

/-- A child has as many references under its other id. -/
theorem owed_map (h : first.Renames second rename) {parents : List Nat} {id : Nat}
    (hparents : ∀ parent ∈ parents, first.Reached parent) (hid : first.Reached id) :
    second.owed (parents.map rename) (rename id) = first.owed parents id := by
  induction parents with
  | nil => rfl
  | cons parent rest ih =>
      obtain ⟨hparent, hrest⟩ := List.forall_mem_cons.mp hparents
      rw [List.map_cons, owed_cons, owed_cons, ih hrest, h.children hparent,
        h.count_map (fun child hchild => .child hparent hchild) hid]

theorem references (h : first.Renames second rename) {id : Nat} (hid : first.Reached id) :
    second.census.references[rename id]? = first.census.references[id]? := by
  obtain ⟨all, swept⟩ := first.exists_swept_census
  obtain ⟨others, sweptOthers⟩ := second.exists_swept_census
  have hall : ∀ parent, parent ∈ all ↔ first.Reached parent := by simpa using swept.mem_visited
  have hothers : ∀ parent, parent ∈ others ↔ second.Reached parent := by
    simpa using sweptOthers.mem_visited
  have hnodup : (all.map rename).Nodup := by
    apply swept.nodup.map_on
    intro parent hparent other hother hsame
    exact (h.eq_iff ((hall parent).mp hparent) ((hall other).mp hother)).mp hsame
  have hperm : others.Perm (all.map rename) := by
    refine (List.perm_ext_iff_of_nodup sweptOthers.nodup hnodup).mpr fun parent => ?_
    have himage : parent ∈ rename '' {id | first.Reached id} ↔ second.Reached parent := by
      rw [h.bijective.image_eq]
      rfl
    simp only [hothers, List.mem_map, hall, ← himage, Set.mem_image, Set.mem_ofPred_eq]
  rw [sweptOthers.getElem?_references (h.reached hid).lt_size,
    swept.getElem?_references hid.lt_size, sweptOthers.count, swept.count, owed_perm hperm,
    h.owed_map (fun parent hparent => (hall parent).mp hparent) hid]

end Renames

end Graph

namespace Release

variable {first second : Graph} {rename : Nat → Nat} {release other : Release}

/-- The same nodes wait under their other ids, and each node that is reached has as many
references left. -/
structure Renamed (first : Graph) (rename : Nat → Nat) (release other : Release) : Prop where
  waiting : other.waiting = release.waiting.map rename
  references : ∀ id, first.Reached id → other.references[rename id]? = release.references[id]?
  reached : ∀ id ∈ release.waiting, first.Reached id

theorem Renamed.dropReference (renamed : Renamed first rename release other)
    (h : first.Renames second rename) {child : Nat} (hchild : first.Reached child) :
    Renamed first rename (release.dropReference child) (other.dropReference (rename child)) := by
  unfold Release.dropReference
  rw [renamed.references child hchild]
  cases hcount : release.references[child]? with
  | none => exact renamed
  | some count =>
      obtain ⟨hlt, _⟩ := Array.getElem?_eq_some_iff.mp hcount
      obtain ⟨hltOther, _⟩ :=
        Array.getElem?_eq_some_iff.mp ((renamed.references child hchild).trans hcount)
      refine ⟨?_, fun id hid => ?_, fun id hid => ?_⟩
      · simp only [renamed.waiting]
        split <;> rfl
      · simp only [Array.getElem?_setIfInBounds, h.eq_iff hchild hid, hlt, hltOther, if_true,
          renamed.references id hid]
      · simp only at hid
        split at hid
        · rcases List.mem_cons.mp hid with rfl | hid
          · exact hchild
          · exact renamed.reached id hid
        · exact renamed.reached id hid

theorem Renamed.foldl (renamed : Renamed first rename release other)
    (h : first.Renames second rename) {children : List Nat}
    (hchildren : ∀ child ∈ children, first.Reached child) :
    Renamed first rename (children.foldl Release.dropReference release)
      ((children.map rename).foldl Release.dropReference other) := by
  induction children generalizing release other with
  | nil => exact renamed
  | cons child rest ih =>
      obtain ⟨hchild, hrest⟩ := List.forall_mem_cons.mp hchildren
      exact ih (renamed.dropReference h hchild) hrest

theorem renamed_start (h : first.Renames second rename) :
    Renamed first rename (start first) (start second) := by
  refine ⟨?_, fun id => h.references, fun id hid => ?_⟩
  · simp only [start, h.root, List.filter_map, List.map_reverse]
    congr 2
    apply List.filter_congr
    intro id hid
    rw [Function.comp_apply, h.references (.root hid)]
  · exact .root (List.mem_filter.mp (List.mem_reverse.mp hid)).1

theorem Renamed.list (renamed : Renamed first rename release other)
    (h : first.Renames second rename) (listed : List Nat) :
    other.list second (listed.map rename) = (release.list first listed).map rename := by
  fun_induction Release.list first release listed generalizing other with
  | case1 references listed =>
      obtain ⟨waiting, _⟩ := other
      cases renamed.waiting
      rw [Release.list]
  | case2 id waiting references listed ih =>
      obtain ⟨_, others⟩ := other
      cases renamed.waiting
      obtain ⟨hid, hwaiting⟩ := List.forall_mem_cons.mp renamed.reached
      rw [Release.list, h.children hid]
      have rest : Renamed first rename ⟨waiting, references⟩ ⟨waiting.map rename, others⟩ :=
        ⟨rfl, renamed.references, hwaiting⟩
      exact ih (rest.foldl h fun child hchild => .child hid hchild)

end Release

namespace Graph

variable {first second : Graph} {rename : Nat → Nat}

namespace Renames

theorem order_eq (h : first.Renames second rename) : second.order = first.order.map rename := by
  rw [order, order, List.map_reverse]
  exact congrArg List.reverse ((Release.renamed_start h).list h [])

theorem namedOnce (h : first.Renames second rename) (named : first.NamedOnce) :
    second.NamedOnce := by
  intro other alone
  by_cases hother : other ∈ second.root
  · rw [h.root] at hother ⊢
    obtain ⟨id, hid, rfl⟩ := List.mem_map.mp hother
    rw [h.count_map (fun _ => .root) (.root hid)]
    apply named id
    intro parent hparent hchild
    apply alone (rename parent) (h.reached hparent)
    rw [h.children hparent]
    exact List.mem_map_of_mem hchild
  · rw [List.count_eq_zero.mpr hother]
    exact Nat.zero_le 1

/-- Sorting goes through for both graphs or for none, and lists the same nodes. -/
theorem sort_eq (h : first.Renames second rename) (named : first.NamedOnce) :
    second.sort = first.sort.map (List.map rename) := by
  rw [(h.namedOnce named).sort_eq, named.sort_eq, h.order_eq]
  rfl

end Renames

end Graph

end Lexicon
