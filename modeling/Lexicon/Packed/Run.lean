import Lexicon.Packed.Offset

namespace Lexicon.Packed

/-! A link run leads from the root or from a node to its children. The first
distance counts from the start of the run, every other one from the target of the
link before. -/

structure Link where
  position : Nat
  target : Nat
  width : Nat
  last : Bool
deriving DecidableEq, Repr

namespace Link

def production (link : Link) : String :=
  Offset.production link.width link.last

/-- The link at a position, whose distance counts from `base`. It has to lead
forward and to stay inside the buffer. -/
def read (buffer : Buffer) (position base : Nat) : Except DecodeError Link :=
  match Offset.read? buffer position with
  | none => .error (.truncated position)
  | some offset =>
      let target := base + offset.distance
      if target ≤ position then
        .error (.backwardLink position target)
      else if buffer.size ≤ target then
        .error (.outOfBounds position target)
      else
        .ok ⟨position, target, offset.width, offset.last⟩

theorem read_bounds {buffer : Buffer} {position base : Nat} {link : Link}
    (h : read buffer position base = .ok link) :
    link.position = position ∧ 0 < link.width ∧ position + link.width ≤ buffer.size ∧
      position < link.target ∧ link.target < buffer.size := by
  unfold read at h
  split at h
  · cases h
  · rename_i offset hoffset
    obtain ⟨hpositive, _, hfits⟩ := Offset.read?_bounds hoffset
    simp only at h
    split at h
    · cases h
    · split at h
      · cases h
      · cases h
        exact ⟨rfl, hpositive, hfits, Nat.lt_of_not_le ‹_›, Nat.lt_of_not_le ‹_›⟩

end Link

/-! Reading a run link by link. Nothing follows its last link or an error. -/

structure Cursor where
  position : Option Nat
  base : Nat
deriving DecidableEq, Repr

namespace Cursor

def start (position : Nat) : Cursor :=
  ⟨some position, position⟩

def next (buffer : Buffer) (cursor : Cursor) : Option (Except DecodeError Link) × Cursor :=
  match cursor.position with
  | none => (none, cursor)
  | some position =>
      match Link.read buffer position cursor.base with
      | .error error => (some (.error error), { cursor with position := none })
      | .ok link =>
          (some (.ok link),
            ⟨if link.last then none else some (position + link.width), link.target⟩)

def room (buffer : Buffer) (cursor : Cursor) : Nat :=
  match cursor.position with
  | none => 0
  | some position => buffer.size + 1 - position

theorem room_next_lt {buffer : Buffer} {cursor after : Cursor} {link : Link}
    (h : cursor.next buffer = (some (.ok link), after)) :
    after.room buffer < cursor.room buffer := by
  unfold next at h
  split at h
  · cases h
  · rename_i position hposition
    split at h
    · cases h
    · rename_i read hread
      cases h
      obtain ⟨_, hpositive, hfits, _, _⟩ := Link.read_bounds hread
      simp only [room, hposition]
      split
      · omega
      · rename_i hlast
        split at hlast
        · cases hlast
        · cases hlast
          omega

end Cursor

/-- The links of a run, and what keeps it from being complete. -/
structure Run where
  links : List Link
  error : Option DecodeError
deriving Repr

namespace Run

def collect (buffer : Buffer) (cursor : Cursor) (links : List Link) : Run :=
  match h : cursor.next buffer with
  | (none, _) => ⟨links.reverse, none⟩
  | (some (.error error), _) => ⟨links.reverse, some error⟩
  | (some (.ok link), after) =>
      have := Cursor.room_next_lt h
      collect buffer after (link :: links)
termination_by cursor.room buffer

def read (buffer : Buffer) (start : Nat) : Run :=
  collect buffer (.start start) []

theorem mem_collect {buffer : Buffer} {cursor : Cursor} {links : List Link} {link : Link}
    (h : link ∈ (collect buffer cursor links).links) :
    link ∈ links ∨ ∃ position, cursor.position = some position ∧ position ≤ link.position ∧
      link.position < link.target ∧ link.target < buffer.size := by
  fun_induction collect buffer cursor links with
  | case1 => simp_all
  | case2 => simp_all
  | case3 cursor links found after hnext _ ih =>
      unfold Cursor.next at hnext
      split at hnext
      · cases hnext
      · rename_i position hposition
        split at hnext
        · cases hnext
        · rename_i read hread
          cases hnext
          obtain ⟨hat, _, _, hforward, hinside⟩ := Link.read_bounds hread
          rcases ih h with hmem | ⟨next, hnext, hle, hrest⟩
          · rcases List.mem_cons.mp hmem with rfl | hmem
            · exact .inr ⟨position, hposition, by omega, by omega, hinside⟩
            · exact .inl hmem
          · refine .inr ⟨position, hposition, ?_, hrest⟩
            simp only at hnext
            split at hnext
            · cases hnext
            · cases hnext
              omega

theorem length_collect_le (buffer : Buffer) (cursor : Cursor) (links : List Link) :
    (collect buffer cursor links).links.length ≤ links.length + (cursor.room buffer - 1) := by
  fun_induction collect buffer cursor links with
  | case1 => simp
  | case2 => simp
  | case3 cursor links found after hnext hroom ih =>
      simp only [List.length_cons] at ih
      have hinside : 1 < cursor.room buffer := by
        unfold Cursor.next at hnext
        split at hnext
        · cases hnext
        · rename_i position hposition
          split at hnext
          · cases hnext
          · rename_i read hread
            obtain ⟨_, _, hfits, _, _⟩ := Link.read_bounds hread
            simp only [Cursor.room, hposition]
            omega
      omega

theorem mem_read {buffer : Buffer} {start : Nat} {link : Link}
    (h : link ∈ (read buffer start).links) :
    start ≤ link.position ∧ link.position < link.target ∧ link.target < buffer.size := by
  rcases mem_collect h with hmem | ⟨position, hposition, hle, hforward, hinside⟩
  · cases hmem
  · cases hposition
    exact ⟨hle, hforward, hinside⟩

theorem length_read_le (buffer : Buffer) (start : Nat) :
    (read buffer start).links.length ≤ buffer.size - start := by
  have hroom : (Cursor.start start).room buffer = buffer.size + 1 - start := rfl
  have := length_collect_le buffer (.start start) []
  rw [hroom, List.length_nil] at this
  unfold read
  omega

end Run

end Lexicon.Packed
