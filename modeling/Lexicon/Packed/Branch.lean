import Lexicon.Packed.Label
import Lexicon.Packed.Run

namespace Lexicon.Packed

/-! What a link leads to: the letters of a label, and behind them either the run
of links of a node or the value of a word. -/

inductive Ending where
  | links (start : Nat)
  | value (value : UInt8)
deriving DecidableEq, Repr

namespace Ending

def start? : Ending → Option Nat
  | .links start => some start
  | .value _ => none

def value? : Ending → Option UInt8
  | .links _ => none
  | .value v => some v

end Ending

structure Label where
  letters : Word
  ending : Ending
deriving DecidableEq, Repr

namespace Label

/-- Reads the rest of a label; `letters` are those before it, the last one first. -/
def readFrom (buffer : Buffer) (position : Nat) (letters : Word) : Except DecodeError Label :=
  match h : buffer[position]? with
  | none => .error (.truncated position)
  | some byte =>
      have : position < buffer.size := (Array.getElem?_eq_some_iff.mp h).1
      match LabelByte.ofByte byte with
      | .char letter =>
          if isPrintable letter then
            readFrom buffer (position + 1) (letter :: letters)
          else
            .error (.unexpectedByte position byte)
      | .endChar letter =>
          if isPrintable letter then
            .ok ⟨(letter :: letters).reverse, .links (position + 1)⟩
          else
            .error (.unexpectedByte position byte)
      | .value v => .ok ⟨letters.reverse, .value v⟩
termination_by buffer.size - position

def read (buffer : Buffer) (position : Nat) : Except DecodeError Label :=
  readFrom buffer position []

def width (label : Label) : Nat :=
  match label.ending with
  | .links _ => label.letters.length
  | .value _ => label.letters.length + 1

theorem readFrom_start {buffer : Buffer} {position : Nat} {letters : Word} {label : Label}
    {start : Nat} (h : readFrom buffer position letters = .ok label)
    (hstart : label.ending = .links start) : position < start ∧ start ≤ buffer.size := by
  fun_induction readFrom buffer position letters with
  | case1 => cases h
  | case2 position letters byte hbyte hlt letter hletter hprintable ih =>
      have := ih h
      omega
  | case3 => cases h
  | case4 position letters byte hbyte hlt letter hletter hprintable =>
      cases h
      cases hstart
      omega
  | case5 => cases h
  | case6 =>
      cases h
      cases hstart

end Label

structure Branch where
  link : Link
  label : Label
deriving DecidableEq, Repr

namespace Branch

def read (buffer : Buffer) (link : Link) : Except DecodeError Branch := do
  let label ← Label.read buffer link.target
  pure ⟨link, label⟩

def start? (branch : Branch) : Option Nat :=
  branch.label.ending.start?

end Branch

/-- The branches of the run that starts here, in the order of its links. Links
and labels are read by turns, so that the first fault among them is the one that
is reported. -/
def branches (buffer : Buffer) (start : Nat) : Except DecodeError (List Branch) := do
  let run := Run.read buffer start
  let found ← run.links.mapM (Branch.read buffer)
  match run.error with
  | none => pure found
  | some error => throw error

theorem mapM_except_ok {ε α β : Type} {f : α → Except ε β} {inputs : List α} {outputs : List β}
    (h : inputs.mapM f = .ok outputs) :
    outputs.length = inputs.length ∧
      ∀ output ∈ outputs, ∃ input ∈ inputs, f input = .ok output := by
  induction inputs generalizing outputs with
  | nil =>
      cases h
      simp
  | cons input rest ih =>
      rw [List.mapM_cons] at h
      cases hinput : f input with
      | error error =>
          rw [hinput] at h
          cases h
      | ok output =>
          cases hrest : rest.mapM f with
          | error error =>
              rw [hinput, hrest] at h
              cases h
          | ok others =>
              rw [hinput, hrest] at h
              cases h
              obtain ⟨hlength, hmem⟩ := ih hrest
              refine ⟨by simp [hlength], ?_⟩
              intro found hfound
              rcases List.mem_cons.mp hfound with rfl | hfound
              · exact ⟨input, List.mem_cons_self, hinput⟩
              · obtain ⟨source, hsource, hread⟩ := hmem found hfound
                exact ⟨source, List.mem_cons_of_mem _ hsource, hread⟩

theorem branches_ok {buffer : Buffer} {start : Nat} {found : List Branch}
    (h : branches buffer start = .ok found) :
    (Run.read buffer start).error = none ∧
      (Run.read buffer start).links.mapM (Branch.read buffer) = .ok found := by
  unfold branches at h
  cases hmap : (Run.read buffer start).links.mapM (Branch.read buffer) with
  | error error =>
      simp only [hmap] at h
      cases h
  | ok others =>
      simp only [hmap] at h
      cases herror : (Run.read buffer start).error with
      | some error =>
          simp only [herror] at h
          cases h
      | none =>
          simp only [herror] at h
          cases h
          exact ⟨rfl, rfl⟩

theorem length_branches_le {buffer : Buffer} {start : Nat} {found : List Branch}
    (h : branches buffer start = .ok found) : found.length ≤ buffer.size - start := by
  rw [(mapM_except_ok (branches_ok h).2).1]
  exact Run.length_read_le buffer start

/-- A branch leads to a run behind the one that it belongs to. -/
theorem branches_start {buffer : Buffer} {start next : Nat} {found : List Branch}
    (h : branches buffer start = .ok found) {branch : Branch} (hmem : branch ∈ found)
    (hnext : branch.start? = some next) : start < next ∧ next ≤ buffer.size := by
  obtain ⟨link, hlink, hread⟩ := (mapM_except_ok (branches_ok h).2).2 branch hmem
  have hbounds := Run.mem_read hlink
  unfold Branch.read at hread
  cases hlabel : Label.read buffer link.target with
  | error error =>
      rw [hlabel] at hread
      cases hread
  | ok label =>
      rw [hlabel] at hread
      cases hread
      unfold Branch.start? Ending.start? at hnext
      split at hnext
      · rename_i begin hbegin
        cases hnext
        have := Label.readFrom_start hlabel hbegin
        omega
      · cases hnext

end Lexicon.Packed
