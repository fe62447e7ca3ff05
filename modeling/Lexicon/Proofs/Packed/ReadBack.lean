import Lexicon.Proofs.Packed.Layout
import Lexicon.Proofs.Packed.Sizing
import Mathlib.Order.Bounds.Basic

namespace Lexicon.Packed

/-! What is written as a run of links is read back link by link. -/

namespace Offset

/-- The bound of the distances that a link of this width has room for: it has six bits for
them, thirteen or twenty-one. -/
def capacity : Nat → Nat
  | 0 => 0
  | 1 => 0x40
  | 2 => 0x2000
  | _ => 0x200000

theorem isLeast_widthOf {distance : Nat} (h : distance < distanceBound) :
    IsLeast {width | distance < capacity width} (widthOf distance) := by
  have hbound : distance < 0x200000 := h
  constructor
  · change distance < capacity (widthOf distance)
    unfold widthOf
    split_ifs <;> assumption
  · intro width hwidth
    change distance < capacity width at hwidth
    match width with
    | 0 => exact absurd hwidth (Nat.not_lt_zero distance)
    | 1 =>
        have hsmall : distance < 0x40 := hwidth
        rw [widthOf, if_pos hsmall]
    | 2 =>
        have hmedium : distance < 0x2000 := hwidth
        unfold widthOf
        split_ifs <;> omega
    | width + 3 => exact Nat.le_trans (widthOf_le distance) (Nat.le_add_left 3 width)

end Offset

/-- The distances from the base to the first target and from each target to the next one are
positive, and stand in the narrowest links that have room for them. -/
def Narrow : Nat → List Link → Prop
  | _, [] => True
  | base, link :: rest =>
      (base < link.target ∧
        IsLeast {width | link.target - base < Offset.capacity width} link.width) ∧
      Narrow link.target rest

namespace Run

theorem length_linksTo (size position origin : Nat) (places : List Nat) :
    (linksTo size position origin places).length = places.length := by
  rw [← List.length_map Link.target, map_target_linksTo, List.length_map]

theorem narrow_linksTo (size position : Nat) {origin : Nat} {places : List Nat}
    (hrange : ∀ distance ∈ distances origin places, inRange distance) (horigin : origin ≤ size) :
    Narrow (size - origin) (linksTo size position origin places) := by
  induction places generalizing position origin with
  | nil => trivial
  | cons place rest ih =>
      rw [distances_cons, List.forall_mem_cons, inRange_iff] at hrange
      obtain ⟨⟨hpositive, hbound⟩, hrest⟩ := hrange
      refine ⟨⟨?_, ?_⟩, ih _ hrest (by omega)⟩
      · simp only
        omega
      · have hdistance : size - place - (size - origin) = origin - place := by omega
        simp only [hdistance]
        exact Offset.isLeast_widthOf hbound

/-- The last link of a run is marked, and no other link is. -/
def EndsOnce (links : List Link) : Prop :=
  ∃ others final, links = others ++ [final] ∧ final.last = true ∧ ∀ link ∈ others, link.last = false

theorem Reads.endsOnce {buffer : Buffer} {position base : Nat} {run : Run}
    (h : Reads buffer position base run) (complete : run.error = none) : EndsOnce run.links := by
  induction h with
  | fault => cases complete
  | @last position base link read last => exact ⟨[], link, rfl, last, nofun⟩
  | @more position base link links error read last behind ih =>
      obtain ⟨others, final, hlinks, hfinal, hothers⟩ := ih complete
      refine ⟨link :: others, final, ?_, hfinal, List.forall_mem_cons.mpr ⟨last, hothers⟩⟩
      exact congrArg (link :: ·) hlinks

end Run

namespace Layout

variable {layout : Layout} {owner : Owner} {children places : List Nat} {rounds : Nat}
variable {run : List UInt8}

/-- What a run comes to when its children have their places, each its own one. -/
theorem exists_sorted_of_run (recorded : children.map layout.place? = places.map some)
    (distinct : places.Nodup) (h : layout.run owner children rounds = .ok run) :
    ∃ sorted : List Nat, sorted.Perm places ∧ sorted.Pairwise (· > ·) ∧
      (∀ distance ∈ distances (layout.size + run.length) sorted, inRange distance) ∧
      run = runBytes (distances (layout.size + run.length) sorted) := by
  obtain ⟨sorted, hperm, hfalling⟩ := exists_falling distinct
  have hsize := run_eq_ok_iff.mp h
  have hrecorded := filterMap_place?_perm (.of_eq recorded)
  rw [sizeRun_eq (hrecorded.trans hperm.symm) (hfalling.imp Nat.le_of_lt)] at hsize
  exact ⟨sorted, hperm, hfalling, settle_eq_ok hsize⟩

/-- A run is read back in whatever buffer it stands, if as many bytes follow it as it was
written for: one link for each child, the children in the order of the buffer; the links
stand side by side and take all of the run; the last one, and no other, ends the run; and each
of them is the narrowest for its distance. -/
theorem run_read_back (nonempty : children ≠ [])
    (recorded : children.map layout.place? = places.map some) (distinct : places.Nodup)
    (within : ∀ place ∈ places, 1 ≤ place ∧ place ≤ layout.size)
    (h : layout.run owner children rounds = .ok run) (front : List UInt8) {behind : List UInt8}
    (length_behind : behind.length = layout.size) :
    let buffer : Buffer := (front ++ run ++ behind).toArray
    ∃ (links : List Link) (sorted : List Nat), Run.read buffer front.length = ⟨links, none⟩ ∧
      links.length = children.length ∧
      sorted.Perm places ∧ sorted.Pairwise (· > ·) ∧
      links.map Link.target = sorted.map (buffer.size - ·) ∧
      Tiles front.length links (front.length + run.length) ∧
      Run.EndsOnce links ∧ Narrow front.length links := by
  intro buffer
  obtain ⟨sorted, hperm, hfalling, hrange, hrun⟩ := exists_sorted_of_run recorded distinct h
  have hlength : sorted.length = children.length := by
    rw [hperm.length_eq, ← List.length_map some, ← recorded, List.length_map]
  have hsorted : sorted ≠ [] := by
    rintro rfl
    exact nonempty (List.length_eq_zero_iff.mp hlength.symm)
  have hsize : front.length + run.length + layout.size = buffer.size := by
    simp [buffer, length_behind, Nat.add_assoc]
  obtain ⟨hread, htiles⟩ := read_of_shows hsorted hrange hrun
    (fun place hplace => within place (hperm.mem_iff.mp hplace)) hsize
    (shows_toArray front run behind)
  have hnarrow := Run.narrow_linksTo buffer.size front.length hrange (by omega)
  have hbase : buffer.size - (layout.size + run.length) = front.length := by omega
  rw [hbase] at hnarrow
  have hends := (Run.reads_read buffer front.length).endsOnce (by rw [hread])
  rw [hread] at hends
  exact ⟨_, sorted, hread, (Run.length_linksTo _ _ _ _).trans hlength, hperm, hfalling,
    Run.map_target_linksTo _ _ _ _, htiles, hends, hnarrow⟩

/-- Three nodes, two of them side by side and one at the very end, with a hundred bytes. -/
def scattered : Layout where
  bytes := List.replicate 100 0
  size := 100
  places := #[some 1, some 90, some 89]
  size_eq := by simp

/-- The links of this run take one byte, one, and two. -/
theorem run_read_back_scattered :
    scattered.run .root [0, 1, 2] 8 = .ok [14, 1, 192, 88] ∧
    let buffer : Buffer := ([7, 7] ++ [14, 1, 192, 88] ++ List.replicate 100 0 : List UInt8).toArray
    ∃ (links : List Link) (sorted : List Nat), Run.read buffer 2 = ⟨links, none⟩ ∧
      links.length = 3 ∧
      sorted.Perm [1, 90, 89] ∧ sorted.Pairwise (· > ·) ∧
      links.map Link.target = sorted.map (buffer.size - ·) ∧
      Tiles 2 links 6 ∧ Run.EndsOnce links ∧ Narrow 2 links := by
  have placed : ([0, 1, 2].map scattered.place?).Perm ([90, 89, 1].map some) := by decide
  have h : scattered.run .root [0, 1, 2] 8 = .ok [14, 1, 192, 88] :=
    run_of_settle placed (by decide) rfl
  have recorded : [0, 1, 2].map scattered.place? = [1, 90, 89].map some := rfl
  have length_behind : (List.replicate 100 (0 : UInt8)).length = scattered.size := rfl
  exact ⟨h, run_read_back (by decide) recorded (by decide) (by decide) h [7, 7] length_behind⟩

end Layout

end Lexicon.Packed
