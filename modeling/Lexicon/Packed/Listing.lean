import Lexicon.Packed.Weight
import Lexicon.Text.Quoted

namespace Lexicon.Packed

/-! A listing shows what each byte of a buffer is for. -/

inductive Mark where
  | link (link : Link)
  | payload
  | label (byte : LabelByte)
deriving DecidableEq, Repr

namespace Mark

def production : Mark → String
  | .link l => l.production
  | .payload => "<byte>"
  | .label byte => byte.production

def comment : Mark → String
  | .link l => "jump to " ++ toString l.target
  | .payload => ""
  | .label (.char byte) => "match " ++ Text.quote (Char.ofNat byte.toNat).toString
  | .label (.endChar byte) => "match " ++ Text.quote (Char.ofNat byte.toNat).toString
  | .label (.value v) => "return " ++ toString v

end Mark

/-- What is known of each byte, and the bytes where a node begins. -/
structure Listing where
  marks : Array (Option Mark)
  starts : Array Bool
deriving Repr

namespace Listing

def blank (size : Nat) : Listing where
  marks := Array.replicate size none
  starts := Array.replicate size false

def mark? (listing : Listing) (position : Nat) : Option Mark :=
  listing.marks.getD position none

def isStart (listing : Listing) (position : Nat) : Bool :=
  listing.starts.getD position false

def mark (listing : Listing) (position : Nat) (mark : Mark) : Listing :=
  { listing with marks := listing.marks.setIfInBounds position (some mark) }

def markStart (listing : Listing) (position : Nat) : Listing :=
  { listing with starts := listing.starts.setIfInBounds position true }

def markLink (listing : Listing) (link : Link) : Listing :=
  (List.range' (link.position + 1) (link.width - 1)).foldl
    (fun listing position => listing.mark position .payload)
    (listing.mark link.position (.link link))

def markLabel (buffer : Buffer) (listing : Listing) (position : Nat) (label : Label) : Listing :=
  (List.range' position label.width).foldl
    (fun listing position =>
      listing.mark position (.label (.ofByte (buffer.getD position 0))))
    listing

/-- Marks a link, and its label unless an earlier link leads to it. The run behind
a label is met with it. -/
def note (buffer : Buffer) (state : Listing × List Nat) (branch : Branch) : Listing × List Nat :=
  let listing := state.1.markLink branch.link
  if listing.isStart branch.link.target then
    (listing, state.2)
  else
    ((listing.markStart branch.link.target).markLabel buffer branch.link.target branch.label,
      branch.start?.toList ++ state.2)

theorem foldl_note_starts (buffer : Buffer) (found : List Branch) (state : Listing × List Nat) :
    ∃ starts, (found.foldl (note buffer) state).2 = starts ++ state.2 ∧
      starts.length ≤ found.length ∧
      ∀ next ∈ starts, ∃ branch ∈ found, branch.start? = some next := by
  induction found generalizing state with
  | nil => exact ⟨[], rfl, by simp, by simp⟩
  | cons branch rest ih =>
      obtain ⟨starts, hstarts, hlength, hmem⟩ := ih (note buffer state branch)
      have hrest : ∀ next ∈ starts, ∃ other ∈ branch :: rest, other.start? = some next :=
        fun next hnext => by
          obtain ⟨other, hother, hnext⟩ := hmem next hnext
          exact ⟨other, List.mem_cons_of_mem _ hother, hnext⟩
      rw [List.foldl_cons, hstarts]
      unfold note
      simp only
      split
      · exact ⟨starts, rfl, by simp only [List.length_cons]; omega, hrest⟩
      · refine ⟨starts ++ branch.start?.toList, by simp, ?_, ?_⟩
        · cases branch.start? <;>
            simp only [Option.toList, List.length_append, List.length_cons, List.length_nil] <;>
            omega
        · intro next hnext
          rcases List.mem_append.mp hnext with hnext | hnext
          · exact hrest next hnext
          · exact ⟨branch, List.mem_cons_self, by simpa using hnext⟩

theorem weight_note_lt {buffer : Buffer} {start : Nat} {found : List Branch}
    (h : branches buffer start = .ok found) {listing noted : Listing} {starts : List Nat}
    (hnote : found.foldl (note buffer) (listing, []) = (noted, starts)) (rest : List Nat) :
    weight buffer (starts ++ rest) < weight buffer (start :: rest) := by
  obtain ⟨met, hmet, hlength, hmem⟩ := foldl_note_starts buffer found (listing, [])
  rw [hnote, List.append_nil] at hmet
  have hmet : starts = met := hmet
  have := weight_branches_lt h hlength hmem
  rw [hmet, weight_append, weight_cons buffer start]
  omega

/-- Visits the runs that wait and all behind them, except those whose first byte
has a mark already. -/
def fill (buffer : Buffer) (waiting : List Nat) (listing : Listing) :
    Except DecodeError Listing :=
  match waiting with
  | [] => .ok listing
  | start :: rest =>
      if (listing.mark? start).isSome then
        have := weight_rest_lt buffer start rest
        fill buffer rest listing
      else
        match h : branches buffer start with
        | .error error => .error error
        | .ok found =>
            match hnote : found.foldl (note buffer) (listing, []) with
            | (noted, starts) =>
                have := weight_note_lt h hnote rest
                fill buffer (starts ++ rest) noted
termination_by weight buffer waiting

def ofBuffer (buffer : Buffer) : Except DecodeError Listing :=
  if buffer.isEmpty then
    .error .empty
  else
    fill buffer [0] (blank buffer.size)

/-- The line of a byte: its position in a column, the byte, what it is and what it
does. A line that says no more ends without blanks. -/
def line (column position : Nat) (byte : UInt8) (mark : Option Mark) : String :=
  let head := Text.padLeft column (toString position) ++ ": " ++ Text.hexByteUpper byte ++ " "
  match mark with
  | none => head ++ "<unreached>\n"
  | some .payload => head ++ Mark.payload.production ++ "\n"
  | some mark => head ++ Text.padRight 14 mark.production ++ " " ++ mark.comment ++ "\n"

/-- The lines of all bytes. A blank line stands before each byte where a node begins. -/
def text (buffer : Buffer) (listing : Listing) : String :=
  let column := (toString (buffer.size - 1)).length
  String.join (buffer.toList.zipIdx.map fun (byte, position) =>
    (if listing.isStart position then "\n" else "") ++
      line column position byte (listing.mark? position))

end Listing

def listing (buffer : Buffer) : Except DecodeError String :=
  (Listing.ofBuffer buffer).map (Listing.text buffer)

end Lexicon.Packed
