import Lexicon.Packed.Buffer

namespace Lexicon.Packed

/-! A link states how far on its target lies, in six, thirteen or twenty-one
bits. The lead byte holds the width in its second and third bit, and its high bit
is set on the last link of a run. -/

/-- All distances lie below this one. -/
def distanceBound : Nat := 0x200000

structure Offset where
  distance : Nat
  width : Nat
  last : Bool
deriving DecidableEq, Repr

namespace Offset

def widthOf (distance : Nat) : Nat :=
  if distance < 0x40 then 1 else if distance < 0x2000 then 2 else 3

/-- The bytes of the narrowest link for a distance. -/
def bytes (last : Bool) (distance : Nat) : List UInt8 :=
  let mark := if last then 0x80 else 0
  if distance < 0x40 then
    [UInt8.ofNat (mark + distance)]
  else if distance < 0x2000 then
    [UInt8.ofNat (mark + 0x40 + distance / 0x100), UInt8.ofNat distance]
  else
    [UInt8.ofNat (mark + 0x60 + distance / 0x10000), UInt8.ofNat (distance / 0x100),
      UInt8.ofNat distance]

@[simp] theorem length_bytes (last : Bool) (distance : Nat) :
    (bytes last distance).length = widthOf distance := by
  simp only [bytes, widthOf]
  split
  · rfl
  · split <;> rfl

/-- Reads the link at a position; none if the buffer ends before it does. -/
def read? (buffer : Buffer) (position : Nat) : Option Offset := do
  let lead ← buffer[position]?
  let last := 0x80 ≤ lead.toNat
  let body := lead.toNat % 0x80
  if body < 0x40 then
    some ⟨body, 1, last⟩
  else if body < 0x60 then
    let low ← buffer[position + 1]?
    some ⟨(body - 0x40) * 0x100 + low.toNat, 2, last⟩
  else
    let middle ← buffer[position + 1]?
    let low ← buffer[position + 2]?
    some ⟨(body - 0x60) * 0x10000 + middle.toNat * 0x100 + low.toNat, 3, last⟩

/-- The grammar's name for a link of this width. -/
def production (width : Nat) (last : Bool) : String :=
  match last, width with
  | false, 1 => "<offset1>"
  | false, 2 => "<offset2>"
  | false, _ => "<offset3>"
  | true, 1 => "<end_offset1>"
  | true, 2 => "<end_offset2>"
  | true, _ => "<end_offset3>"

theorem read?_bounds {buffer : Buffer} {position : Nat} {offset : Offset}
    (h : read? buffer position = some offset) :
    0 < offset.width ∧ offset.width ≤ 3 ∧ position + offset.width ≤ buffer.size := by
  have bound {index : Nat} {byte : UInt8} (hbyte : buffer[index]? = some byte) :
      index < buffer.size :=
    (Array.getElem?_eq_some_iff.mp hbyte).1
  simp only [read?, Option.bind_eq_bind, Option.bind_eq_some_iff] at h
  obtain ⟨lead, hlead, h⟩ := h
  have := bound hlead
  split at h
  · cases h
    simp only
    omega
  · split at h <;> simp only [Option.bind_eq_some_iff] at h
    · obtain ⟨low, hlow, h⟩ := h
      have := bound hlow
      cases h
      simp only
      omega
    · obtain ⟨middle, hmiddle, low, hlow, h⟩ := h
      have := bound hlow
      cases h
      simp only
      omega

end Offset

end Lexicon.Packed
