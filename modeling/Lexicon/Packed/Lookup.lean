import Lexicon.Packed.Branch

namespace Lexicon.Packed

/-! The value of one key. Only the first child whose label begins as the rest of
the key does is followed, so that a lookup never goes back. -/

inductive Reached where
  | value (value : UInt8)
  | links (start : Nat) (rest : Word)
deriving DecidableEq, Repr

/-- A label begins with the first letter of the key, or is a bare value at its end. -/
def begins (buffer : Buffer) (position : Nat) (key : Word) : Bool :=
  match buffer[position]?.map LabelByte.ofByte, key with
  | some (.char letter), first :: _ => letter == first
  | some (.endChar letter), first :: _ => letter == first
  | some (.value _), [] => true
  | _, _ => false

def follow (buffer : Buffer) (position : Nat) : Word → Option Reached
  | [] =>
      match buffer[position]?.map LabelByte.ofByte with
      | some (.value v) => some (.value v)
      | _ => none
  | first :: rest =>
      match buffer[position]?.map LabelByte.ofByte with
      | some (.char letter) =>
          if letter = first then follow buffer (position + 1) rest else none
      | some (.endChar letter) =>
          if letter = first then some (.links (position + 1) rest) else none
      | _ => none

theorem length_of_follow {buffer : Buffer} {position start : Nat} {key rest : Word}
    (h : follow buffer position key = some (.links start rest)) : rest.length < key.length := by
  induction key generalizing position with
  | nil =>
      unfold follow at h
      split at h <;> cases h
  | cons first others ih =>
      unfold follow at h
      split at h
      · split at h
        · have := ih h
          simp only [List.length_cons]
          omega
        · cases h
      · split at h
        · cases h
          simp
        · cases h
      · cases h

def lookupFrom (buffer : Buffer) (start : Nat) (key : Word) : Option UInt8 :=
  match (Run.read buffer start).links.find? fun link => begins buffer link.target key with
  | none => none
  | some link =>
      match h : follow buffer link.target key with
      | none => none
      | some (.value v) => some v
      | some (.links next rest) =>
          have := length_of_follow h
          lookupFrom buffer next rest
termination_by key.length

def lookup (buffer : Buffer) (key : Word) : Option UInt8 :=
  if key.all isPrintable then lookupFrom buffer 0 key else none

def contains (buffer : Buffer) (key : Word) : Bool :=
  (lookup buffer key).isSome

end Lexicon.Packed
