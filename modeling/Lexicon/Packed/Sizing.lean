import Lexicon.Packed.Offset

namespace Lexicon.Packed

/-! The size of a link run. The first distance of a run spans the run itself, so
that the bytes it takes hang on the size of the run, which is found by trial. All
places are counted from the end of the buffer. -/

inductive SizingError where
  | distance (distance : Nat)
  | unsettled
deriving DecidableEq, Repr

/-- The distances from an origin to the first place, and from each place to the next. -/
def distances (origin : Nat) (places : List Nat) : List Nat :=
  List.zipWith (· - ·) (origin :: places) places

@[simp] theorem distances_nil (origin : Nat) : distances origin [] = [] :=
  rfl

@[simp] theorem distances_cons (origin place : Nat) (places : List Nat) :
    distances origin (place :: places) = (origin - place) :: distances place places :=
  rfl

def inRange (distance : Nat) : Bool :=
  0 < distance && distance < distanceBound

/-- The bytes of the narrowest links for these distances; the last one ends the run. -/
def runBytes (distances : List Nat) : List UInt8 :=
  distances.dropLast.flatMap (Offset.bytes false) ++
    distances.getLast?.toList.flatMap (Offset.bytes true)

def runSize (distances : List Nat) : Nat :=
  (distances.map Offset.widthOf).foldr (· + ·) 0

@[simp] theorem length_runBytes (distances : List Nat) :
    (runBytes distances).length = runSize distances := by
  cases h : distances.getLast? with
  | none =>
      rw [List.getLast?_eq_none_iff] at h
      subst h
      rfl
  | some last =>
      obtain ⟨others, rfl⟩ := List.getLast?_eq_some_iff.mp h
      rw [runSize, ← List.sum_eq_foldr]
      simp [runBytes, List.length_flatMap]

/-- Places a run in front of `behind` bytes. A trial takes the run to have `guess`
bytes; if it comes out with another size, that size is the next guess. -/
def settle (behind : Nat) (places : List Nat) (rounds guess : Nat) :
    Except SizingError (List UInt8) :=
  match rounds with
  | 0 => .error .unsettled
  | rounds + 1 =>
      let found := distances (behind + guess) places
      match found.find? fun distance => !inRange distance with
      | some distance => .error (.distance distance)
      | none =>
          if runSize found = guess then
            .ok (runBytes found)
          else
            settle behind places rounds (runSize found)

/-- The links to children at these places, the child nearest to the run first. The
first guess gives every link its widest form. -/
def sizeRun (behind : Nat) (places : List Nat) (rounds : Nat) :
    Except SizingError (List UInt8) :=
  let sorted := places.mergeSort fun left right => right ≤ left
  settle behind sorted rounds (3 * sorted.length)

end Lexicon.Packed
