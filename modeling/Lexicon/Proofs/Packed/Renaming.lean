import Lexicon.Proofs.Graph.Renaming
import Lexicon.Proofs.Packed.Layout
import Mathlib.Data.List.Permutation

namespace Lexicon

/-! A graph is packed by the shape of what its root reaches. The ids of its nodes only come back
in the errors. -/

namespace Packed

def Owner.rename (rename : Nat → Nat) : Owner → Owner
  | .root => .root
  | .node id => .node (rename id)

def EncodeError.rename (rename : Nat → Nat) : EncodeError → EncodeError
  | .emptyGraph => .emptyGraph
  | .noChildren id => .noChildren (rename id)
  | .distanceOutOfRange owner distance => .distanceOutOfRange (owner.rename rename) distance
  | .sizingDidNotConverge owner rounds => .sizingDidNotConverge (owner.rename rename) rounds

/-- Both attempts fail in the same way, or they lead to results that are related. -/
inductive Mirrors {α β : Type} (rename : Nat → Nat) (Related : α → β → Prop) :
    Except EncodeError α → Except EncodeError β → Prop
  | ok {found : α} {other : β} (related : Related found other) :
      Mirrors rename Related (.ok found) (.ok other)
  | error (error : EncodeError) :
      Mirrors rename Related (.error error) (.error (error.rename rename))

namespace Mirrors

variable {α β γ δ : Type} {rename : Nat → Nat}

theorem bind {Related : α → β → Prop} {Next : γ → δ → Prop} {result : Except EncodeError α}
    {other : Except EncodeError β} (h : Mirrors rename Related result other)
    {next : α → Except EncodeError γ} {nextOther : β → Except EncodeError δ}
    (hnext : ∀ found twin, Related found twin → Mirrors rename Next (next found) (nextOther twin)) :
    Mirrors rename Next (result >>= next) (other >>= nextOther) := by
  cases h with
  | ok related => exact hnext _ _ related
  | error error => exact .error error

end Mirrors

namespace Layout

variable {first second : Graph} {rename : Nat → Nat} {layout other : Layout}

/-- The same bytes, and each node that is reached has the same place under its other id. -/
structure Renamed (first second : Graph) (rename : Nat → Nat) (layout other : Layout) : Prop where
  bytes : other.bytes = layout.bytes
  place : ∀ id, first.Reached id → other.place? (rename id) = layout.place? id
  places_size : layout.places.size = first.size
  places_size_other : other.places.size = second.size

namespace Renamed

theorem size (renamed : Renamed first second rename layout other) : other.size = layout.size := by
  rw [other.size_eq, layout.size_eq, renamed.bytes]

theorem blank (first second : Graph) (rename : Nat → Nat) :
    Renamed first second rename (.blank first.size) (.blank second.size) where
  bytes := rfl
  place id _ := by
    rw [place?, place?, Layout.blank, Layout.blank, Census.getD_replicate, Census.getD_replicate]
  places_size := Array.size_replicate
  places_size_other := Array.size_replicate

theorem filterMap_place? (renamed : Renamed first second rename layout other) {children : List Nat}
    (hchildren : ∀ child ∈ children, first.Reached child) :
    (children.map rename).filterMap other.place? = children.filterMap layout.place? := by
  rw [List.filterMap_map]
  exact List.filterMap_congr fun child hchild => renamed.place child (hchildren child hchild)

theorem run (renamed : Renamed first second rename layout other) (owner : Owner)
    {children : List Nat} (hchildren : ∀ child ∈ children, first.Reached child) (rounds : Nat) :
    Mirrors rename Eq (layout.run owner children rounds)
      (other.run (owner.rename rename) (children.map rename) rounds) := by
  rw [Layout.run, Layout.run, renamed.size, renamed.filterMap_place? hchildren]
  cases sizeRun layout.size (children.filterMap layout.place?) rounds with
  | ok run => exact .ok rfl
  | error error =>
      cases error with
      | distance distance => exact .error (.distanceOutOfRange owner distance)
      | unsettled => exact .error (.sizingDidNotConverge owner rounds)

theorem isNext (renamed : Renamed first second rename layout other) {children : List Nat}
    (hchildren : ∀ child ∈ children, first.Reached child) :
    other.isNext (children.map rename) = layout.isNext children := by
  match children with
  | [] => rfl
  | [only] =>
      rw [List.map_cons, List.map_nil, Layout.isNext, Layout.isNext, renamed.size,
        renamed.place only (hchildren only List.mem_cons_self)]
  | _ :: _ :: _ => rfl

theorem put (renamed : Renamed first second rename layout other)
    (h : first.Renames second rename) {id : Nat} (hid : first.Reached id) (text : List UInt8) :
    Renamed first second rename (layout.put id text) (other.put (rename id) text) where
  bytes := congrArg (text ++ ·) renamed.bytes
  place found hfound := by
    by_cases hsame : found = id
    · subst hsame
      have hlt : found < layout.places.size := renamed.places_size ▸ hfound.lt_size
      have hltOther : rename found < other.places.size :=
        renamed.places_size_other ▸ (h.reached hfound).lt_size
      rw [place?_put_self hlt, place?_put_self hltOther, renamed.size]
    · have hother : rename found ≠ rename id := fun same => hsame ((h.eq_iff hfound hid).mp same)
      rw [place?_put_of_ne hsame, place?_put_of_ne hother, renamed.place found hfound]
  places_size := by rw [Layout.put, Array.size_setIfInBounds, renamed.places_size]
  places_size_other := by rw [Layout.put, Array.size_setIfInBounds, renamed.places_size_other]

theorem placeNode (renamed : Renamed first second rename layout other)
    (h : first.Renames second rename) {id : Nat} (hid : first.Reached id) {node : Node}
    (hnode : first.node? id = some node) (rounds : Nat) :
    Mirrors rename (Renamed first second rename) (layout.placeNode rounds id node)
      (other.placeNode rounds (rename id) (node.rename rename)) := by
  cases node with
  | value v => exact .ok (renamed.put h hid _)
  | char letter children =>
      have hchildren : ∀ child ∈ children, first.Reached child := by
        intro child hchild
        apply Graph.Reached.child hid
        rwa [Graph.children_of_char hnode]
      rw [Node.rename, Layout.placeNode, Layout.placeNode, List.isEmpty_map,
        renamed.isNext hchildren]
      split
      · exact .error (.noChildren id)
      · split
        · exact .ok (renamed.put h hid _)
        · refine (renamed.run (.node id) hchildren rounds).bind fun run twin same => ?_
          cases same
          exact .ok (renamed.put h hid _)

theorem foldlM (renamed : Renamed first second rename layout other)
    (h : first.Renames second rename) {ids : List Nat} (hids : ∀ id ∈ ids, first.Reached id)
    (rounds : Nat) :
    Mirrors rename (Renamed first second rename) (ids.foldlM (Layout.place first rounds) layout)
      ((ids.map rename).foldlM (Layout.place second rounds) other) := by
  induction ids generalizing layout other with
  | nil => exact .ok renamed
  | cons id rest ih =>
      obtain ⟨hid, hrest⟩ := List.forall_mem_cons.mp hids
      obtain ⟨node, hnode⟩ := Graph.node?_of_lt hid.lt_size
      rw [List.map_cons, List.foldlM_cons, List.foldlM_cons, Layout.place, Layout.place,
        h.node id node hid hnode, hnode]
      exact (renamed.placeNode h hid hnode rounds).bind fun placed twin hplaced =>
        ih hplaced hrest

end Renamed

end Layout

end Packed

end Lexicon
