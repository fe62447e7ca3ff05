import Lexicon.Packed.Weight

namespace Lexicon.Packed

/-! All entries of a buffer, one for each path from the root to a value. A run
waits with the letters that lead to it, the last one first. -/

namespace Branch

def letters (branch : Branch) (trail : Word) : Word :=
  branch.label.letters.reverseAux trail

def next? (trail : Word) (branch : Branch) : Option (Nat × Word) :=
  branch.start?.map fun start => (start, branch.letters trail)

def entry? (trail : Word) (branch : Branch) : Option Entry :=
  branch.label.ending.value?.map fun v => ⟨(branch.letters trail).reverse, v⟩

end Branch

/-- The runs behind the branches of a run, the last one first. -/
def nextTrails (trail : Word) (found : List Branch) : List (Nat × Word) :=
  (found.filterMap (Branch.next? trail)).reverse

theorem map_fst_nextTrails (trail : Word) (found : List Branch) :
    (nextTrails trail found).map Prod.fst = nextStarts found := by
  have h : (found.filterMap (Branch.next? trail)).map Prod.fst =
      found.filterMap Branch.start? := by
    induction found with
    | nil => rfl
    | cons branch rest ih =>
        cases h : branch.start? <;> simp [Branch.next?, h, ih]
  rw [nextTrails, List.map_reverse, h, nextStarts]

theorem weight_nextTrails_lt {buffer : Buffer} {start : Nat} {found : List Branch}
    (h : branches buffer start = .ok found) (trail : Word) (rest : List (Nat × Word)) :
    weight buffer ((nextTrails trail found).map Prod.fst ++ rest.map Prod.fst) <
      weight buffer (start :: rest.map Prod.fst) := by
  rw [map_fst_nextTrails]
  exact weight_nextStarts_lt h _

/-- Visits the runs that wait and all behind them, the last one found first. -/
def collectEntries (buffer : Buffer) (waiting : List (Nat × Word)) (entries : List Entry) :
    Except DecodeError (List Entry) :=
  match waiting with
  | [] => .ok entries
  | (start, trail) :: rest =>
      match h : branches buffer start with
      | .error error => .error error
      | .ok found =>
          have := weight_nextTrails_lt h trail rest
          collectEntries buffer (nextTrails trail found ++ rest)
            ((found.filterMap (Branch.entry? trail)).reverse ++ entries)
termination_by weight buffer (waiting.map Prod.fst)

def entries (buffer : Buffer) : Except DecodeError (List Entry) :=
  if buffer.isEmpty then
    .error .empty
  else
    (collectEntries buffer [(0, [])] []).map Entry.sort

end Lexicon.Packed
