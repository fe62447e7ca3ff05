import Mathlib.Data.List.Induction
import Lexicon.Packed.Listing
import Lexicon.Proofs.Packed.Reachable
import Lexicon.Proofs.Packed.Tiles

namespace Lexicon.Packed

/-! The bytes that a run and its labels are read from. -/

variable {buffer : Buffer}

/-- The branch is read from this byte, as its link or as its label. -/
def Branch.Covers (branch : Branch) (position : Nat) : Prop :=
  branch.link.Takes position ∨
    branch.link.target ≤ position ∧ position < branch.link.target + branch.label.width

instance (branch : Branch) (position : Nat) : Decidable (branch.Covers position) :=
  inferInstanceAs (Decidable ((_ ∧ _) ∨ (_ ∧ _)))

def Touches (buffer : Buffer) (start position : Nat) : Prop :=
  ∃ found, branches buffer start = .ok found ∧ ∃ branch ∈ found, branch.Covers position

theorem touches_iff {start position : Nat} {found : List Branch}
    (read : branches buffer start = .ok found) :
    Touches buffer start position ↔ ∃ branch ∈ found, branch.Covers position := by
  refine ⟨?_, fun hcovers => ⟨found, read, hcovers⟩⟩
  rintro ⟨others, hothers, hcovers⟩
  cases hothers.symm.trans read
  exact hcovers

/-- The bytes that are read on the ways from the root. -/
def ReadFromRoot (buffer : Buffer) (position : Nat) : Prop :=
  ∃ start, Reachable buffer start ∧ Touches buffer start position

/-- No run is read from a byte with which another run starts. -/
def StartsApart (buffer : Buffer) : Prop :=
  ∀ start other, Reachable buffer start → Reachable buffer other →
    Touches buffer other start → other = start

theorem Label.width_cons (letter : UInt8) (letters : Word) (ending : Ending) :
    width ⟨letter :: letters, ending⟩ = width ⟨letters, ending⟩ + 1 := by
  cases ending <;> rfl

theorem Spells.width_bounds {position : Nat} {letters : Word} {ending : Ending}
    (h : Spells buffer position letters ending) :
    0 < Label.width ⟨letters, ending⟩ ∧
      position + Label.width ⟨letters, ending⟩ ≤ buffer.size := by
  induction h with
  | value found =>
      obtain ⟨hlt, _⟩ := Array.getElem?_eq_some_iff.mp found
      exact ⟨Nat.one_pos, hlt⟩
  | endChar found =>
      obtain ⟨hlt, _⟩ := Array.getElem?_eq_some_iff.mp found
      exact ⟨Nat.one_pos, hlt⟩
  | char _ _ _ _ ih =>
      rw [Label.width_cons]
      omega

/-- A run follows its label without a gap. -/
theorem Spells.links_eq {position start : Nat} {letters : Word}
    (h : Spells buffer position letters (.links start)) :
    start = position + Label.width ⟨letters, .links start⟩ := by
  generalize hending : Ending.links start = ending at h ⊢
  induction h with
  | value => cases hending
  | endChar =>
      cases hending
      rfl
  | char _ _ _ _ ih =>
      have := ih hending
      rw [Label.width_cons]
      omega

theorem Branch.IsRead.start?_eq {branch : Branch} {next : Nat} (h : branch.IsRead buffer)
    (hnext : branch.start? = some next) :
    next = branch.link.target + branch.label.width ∧ branch.link.target < next := by
  have hending := Branch.start?_eq_some_iff.mp hnext
  unfold Branch.IsRead at h
  have hwidth : 0 < branch.label.width := h.width_bounds.1
  rw [hending] at h
  have hnext := h.links_eq
  rw [← hending] at hnext
  exact ⟨hnext, by rw [hnext]; exact Nat.lt_add_of_pos_right hwidth⟩

theorem branch_bounds {start : Nat} {found : List Branch} (read : branches buffer start = .ok found)
    {branch : Branch} (hbranch : branch ∈ found) :
    start ≤ branch.link.position ∧ 0 < branch.link.width ∧
      branch.link.position + branch.link.width ≤ buffer.size ∧
      branch.link.position < branch.link.target ∧
      branch.link.target + branch.label.width ≤ buffer.size := by
  have hlink := (mem_links_iff read).mpr ⟨branch, hbranch, rfl⟩
  obtain ⟨stop, htiles, hstop⟩ := (Run.reads_read buffer start).exists_tiles
  obtain ⟨hstart, hwidth, hle⟩ := htiles.bounds _ hlink
  have hstop := hstop (List.ne_nil_of_mem hlink)
  have hforward := (Run.mem_read hlink).2.1
  have hlabel := (isRead_of_mem read hbranch).width_bounds.2
  exact ⟨hstart, hwidth, by omega, hforward, hlabel⟩

theorem Branch.IsRead.label_eq {first second : Branch} (hfirst : first.IsRead buffer)
    (hsecond : second.IsRead buffer) (h : first.link.target = second.link.target) :
    first.label = second.label := by
  unfold Branch.IsRead at hfirst hsecond
  rw [h] at hfirst
  obtain ⟨hletters, hending⟩ := hfirst.unique hsecond
  cases hlabel : first.label
  cases hother : second.label
  rw [hlabel, hother] at hletters hending
  cases hletters
  cases hending
  rfl

/-- What the marks of a branch need: its label is in the buffer, and all of its link. -/
structure Branch.Sound (buffer : Buffer) (branch : Branch) : Prop where
  isRead : branch.IsRead buffer
  width : 0 < branch.link.width
  fits : branch.link.position + branch.link.width ≤ buffer.size

theorem Branch.Sound.start?_eq_of_target {first second : Branch} (hfirst : first.Sound buffer)
    (hsecond : second.Sound buffer) (h : first.link.target = second.link.target) :
    first.start? = second.start? := by
  rw [Branch.start?, hfirst.isRead.label_eq hsecond.isRead h, ← Branch.start?]

theorem sound_of_mem {start : Nat} {found : List Branch} (read : branches buffer start = .ok found)
    {branch : Branch} (hbranch : branch ∈ found) : branch.Sound buffer :=
  have ⟨_, width, fits, _⟩ := branch_bounds read hbranch
  ⟨isRead_of_mem read hbranch, width, fits⟩

/-! Marks are set one by one and never taken away. -/

namespace Listing

def Marked (listing : Listing) (position : Nat) : Prop :=
  (listing.mark? position).isSome

instance (listing : Listing) (position : Nat) : Decidable (listing.Marked position) :=
  inferInstanceAs (Decidable (_ = true))

structure Sized (buffer : Buffer) (listing : Listing) : Prop where
  marks : listing.marks.size = buffer.size
  starts : listing.starts.size = buffer.size

variable {listing : Listing}

theorem Sized.mark (sized : listing.Sized buffer) (position : Nat) (mark : Mark) :
    (listing.mark position mark).Sized buffer :=
  ⟨by simpa [Listing.mark] using sized.marks, sized.starts⟩

theorem Sized.markStart (sized : listing.Sized buffer) (position : Nat) :
    (listing.markStart position).Sized buffer :=
  ⟨sized.marks, by simpa [Listing.markStart] using sized.starts⟩

theorem Sized.marked_mark (sized : listing.Sized buffer) {position : Nat}
    (h : position < buffer.size) (mark : Mark) (other : Nat) :
    (listing.mark position mark).Marked other ↔ listing.Marked other ∨ other = position := by
  have hlt : position < listing.marks.size := sized.marks.symm ▸ h
  simp only [Marked, mark?, Listing.mark, Array.getD_eq_getD_getElem?, Array.getElem?_setIfInBounds]
  by_cases hsame : position = other
  · subst hsame
    simp [hlt]
  · simp [hsame, Ne.symm hsame]

theorem Sized.isStart_markStart (sized : listing.Sized buffer) {position : Nat}
    (h : position < buffer.size) (other : Nat) :
    (listing.markStart position).isStart other ↔ listing.isStart other ∨ other = position := by
  have hlt : position < listing.starts.size := sized.starts.symm ▸ h
  simp only [isStart, Listing.markStart, Array.getD_eq_getD_getElem?, Array.getElem?_setIfInBounds]
  by_cases hsame : position = other
  · subst hsame
    simp [hlt]
  · simp [hsame, Ne.symm hsame]

theorem starts_foldl_mark (listing : Listing) (positions : List Nat) (mark : Nat → Mark) :
    (positions.foldl (fun listing position => listing.mark position (mark position)) listing).starts =
      listing.starts := by
  induction positions generalizing listing with
  | nil => rfl
  | cons first rest ih => exact ih (listing.mark first (mark first))

theorem isStart_markLink (listing : Listing) (link : Link) (position : Nat) :
    (listing.markLink link).isStart position = listing.isStart position := by
  rw [isStart, Listing.markLink, starts_foldl_mark _ _ fun _ => .payload]
  rfl

theorem isStart_markLabel (listing : Listing) (target : Nat) (label : Label) (position : Nat) :
    (listing.markLabel buffer target label).isStart position = listing.isStart position := by
  rw [isStart, Listing.markLabel,
    starts_foldl_mark _ _ fun position => .label (.ofByte (buffer.getD position 0))]
  rfl

theorem Sized.foldl_mark (sized : listing.Sized buffer) {positions : List Nat}
    (h : ∀ position ∈ positions, position < buffer.size) (mark : Nat → Mark) :
    let marked := positions.foldl (fun listing position => listing.mark position (mark position)) listing
    marked.Sized buffer ∧
      ∀ position, marked.Marked position ↔ listing.Marked position ∨ position ∈ positions := by
  induction positions generalizing listing with
  | nil => exact ⟨sized, by simp⟩
  | cons first rest ih =>
      obtain ⟨hfirst, hrest⟩ := List.forall_mem_cons.mp h
      obtain ⟨hsized, hmarked⟩ := ih (sized.mark first (mark first)) hrest
      refine ⟨hsized, fun position => (hmarked position).trans ?_⟩
      rw [sized.marked_mark hfirst, List.mem_cons, or_assoc]

theorem Sized.markLink (sized : listing.Sized buffer) {link : Link} (hwidth : 0 < link.width)
    (hfits : link.position + link.width ≤ buffer.size) :
    (listing.markLink link).Sized buffer ∧
      ∀ position, (listing.markLink link).Marked position ↔
        listing.Marked position ∨ link.Takes position := by
  have hlt : ∀ position ∈ List.range' (link.position + 1) (link.width - 1),
      position < buffer.size := by
    intro position hposition
    rw [List.mem_range'_1] at hposition
    omega
  obtain ⟨hsized, hmarked⟩ :=
    (sized.mark link.position (.link link)).foldl_mark hlt fun _ => .payload
  refine ⟨hsized, fun position => (hmarked position).trans ?_⟩
  rw [sized.marked_mark (by omega), or_assoc, List.mem_range'_1, Link.Takes]
  exact or_congr_right (by omega)

theorem Sized.markLabel (sized : listing.Sized buffer) {target : Nat} {label : Label}
    (hfits : target + label.width ≤ buffer.size) :
    (listing.markLabel buffer target label).Sized buffer ∧
      ∀ position, (listing.markLabel buffer target label).Marked position ↔
        listing.Marked position ∨ target ≤ position ∧ position < target + label.width := by
  have hlt : ∀ position ∈ List.range' target label.width, position < buffer.size := by
    intro position hposition
    rw [List.mem_range'_1] at hposition
    omega
  obtain ⟨hsized, hmarked⟩ :=
    sized.foldl_mark hlt fun position => .label (.ofByte (buffer.getD position 0))
  refine ⟨hsized, fun position => (hmarked position).trans ?_⟩
  rw [List.mem_range'_1]

/-- A label that was read has all of its marks. -/
structure Kept (buffer : Buffer) (listing : Listing) : Prop extends listing.Sized buffer where
  label : ∀ branch : Branch, branch.IsRead buffer → listing.isStart branch.link.target →
    ∀ position, branch.link.target ≤ position →
      position < branch.link.target + branch.label.width → listing.Marked position

theorem isStart_blank (size position : Nat) : ¬ (blank size).isStart position := by
  rw [isStart, blank, Array.getD_eq_getD_getElem?, Array.getElem?_replicate]
  split <;> exact Bool.false_ne_true

theorem not_marked_blank (size position : Nat) : ¬ (blank size).Marked position := by
  rw [Marked, mark?, blank, Array.getD_eq_getD_getElem?, Array.getElem?_replicate]
  split <;> exact Bool.false_ne_true

theorem kept_blank (buffer : Buffer) : Kept buffer (blank buffer.size) where
  marks := by simp [blank]
  starts := by simp [blank]
  label := fun branch _ hstart => absurd hstart (isStart_blank _ _)

/-- A branch whose label is met for the first time gets all of its marks. -/
theorem Sized.markBranch (sized : listing.Sized buffer) {branch : Branch}
    (sound : branch.Sound buffer) :
    let marked := ((listing.markLink branch.link).markStart branch.link.target).markLabel buffer
      branch.link.target branch.label
    marked.Sized buffer ∧
      (∀ position, marked.Marked position ↔ listing.Marked position ∨ branch.Covers position) ∧
      ∀ position, marked.isStart position ↔
        listing.isStart position ∨ position = branch.link.target := by
  obtain ⟨hwidth, hfits⟩ := sound.isRead.width_bounds
  obtain ⟨hsized, hlink⟩ := sized.markLink sound.width sound.fits
  obtain ⟨hfinal, hlabel⟩ := (hsized.markStart branch.link.target).markLabel hfits
  refine ⟨hfinal, fun position => ?_, fun position => ?_⟩
  · rw [hlabel, Branch.Covers, ← or_assoc]
    exact or_congr_left (hlink position)
  · rw [isStart_markLabel, hsized.isStart_markStart (by omega), isStart_markLink]

/-- What noting a branch does, whether or not its label was read before. -/
theorem Kept.note (kept : listing.Kept buffer) {branch : Branch} (sound : branch.Sound buffer)
    (starts : List Nat) :
    (note buffer (listing, starts) branch).1.Kept buffer ∧
      (∀ position, (note buffer (listing, starts) branch).1.Marked position ↔
        listing.Marked position ∨ branch.Covers position) ∧
      ∀ position, (note buffer (listing, starts) branch).1.isStart position ↔
        listing.isStart position ∨ position = branch.link.target := by
  unfold Listing.note
  simp only [isStart_markLink]
  split
  · rename_i hseen
    obtain ⟨hsized, hmarked⟩ := kept.toSized.markLink sound.width sound.fits
    refine ⟨⟨hsized, ?_⟩, fun position => ?_, fun position => ?_⟩
    · intro other hother hstart position hlow hhigh
      rw [isStart_markLink] at hstart
      rw [hmarked]
      exact .inl (kept.label other hother hstart position hlow hhigh)
    · rw [hmarked, Branch.Covers, ← or_assoc]
      refine ⟨.inl, fun h => h.elim id fun hlabel => ?_⟩
      exact .inl (kept.label branch sound.isRead hseen position hlabel.1 hlabel.2)
    · rw [isStart_markLink]
      refine ⟨.inl, fun h => h.elim id ?_⟩
      rintro rfl
      exact hseen
  · obtain ⟨hsized, hmarked, hisStart⟩ := kept.toSized.markBranch sound
    refine ⟨⟨hsized, ?_⟩, hmarked, hisStart⟩
    intro other hother hstart position hlow hhigh
    rw [hmarked]
    rcases (hisStart _).mp hstart with hold | htarget
    · exact .inl (kept.label other hother hold position hlow hhigh)
    · rw [hother.label_eq sound.isRead htarget, htarget] at hhigh
      rw [htarget] at hlow
      exact .inr (.inr ⟨hlow, hhigh⟩)

theorem Kept.foldl_note (kept : listing.Kept buffer) {found : List Branch}
    (sound : ∀ branch ∈ found, branch.Sound buffer) :
    (found.foldl (Listing.note buffer) (listing, [])).1.Kept buffer ∧
      (∀ position, (found.foldl (Listing.note buffer) (listing, [])).1.Marked position ↔
        listing.Marked position ∨ ∃ branch ∈ found, branch.Covers position) ∧
      ∀ position, (found.foldl (Listing.note buffer) (listing, [])).1.isStart position ↔
        listing.isStart position ∨ ∃ branch ∈ found, branch.link.target = position := by
  induction found using List.reverseRecOn with
  | nil => exact ⟨kept, by simp, by simp⟩
  | append_singleton before last ih =>
      obtain ⟨hsound, hlast⟩ := List.forall_mem_append.mp sound
      obtain ⟨hkept, hmarked, hisStart⟩ := ih hsound
      obtain ⟨hnoted, hnotedMarked, hnotedStart⟩ := hkept.note (hlast last List.mem_cons_self)
        (before.foldl (Listing.note buffer) (listing, [])).2
      rw [List.foldl_concat]
      refine ⟨hnoted, fun position => ?_, fun position => ?_⟩
      · rw [hnotedMarked, hmarked, or_assoc]
        simp [or_and_right, exists_or]
      · rw [hnotedStart, hisStart, or_assoc, @eq_comm _ position]
        simp [or_and_right, exists_or]

end Listing

end Lexicon.Packed
