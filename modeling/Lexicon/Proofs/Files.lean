import Lexicon.Files
import Lexicon.Proofs.Packed.Run

namespace Lexicon

/-! What is written to a file is read from it. -/

theorem lookup_filter_ne {α β : Type} [BEq α] [LawfulBEq α] (entries : List (α × β)) {key other : α}
    (h : other ≠ key) :
    (entries.filter fun entry => entry.1 != key).lookup other = entries.lookup other := by
  induction entries with
  | nil => rfl
  | cons entry rest ih =>
      obtain ⟨name, value⟩ := entry
      by_cases hname : name = key
      · subst hname
        have hother : (other == name) = false := beq_false_of_ne h
        rw [List.filter_cons_of_neg (by simp), ih, List.lookup_cons, hother]
      · rw [List.filter_cons_of_pos (by simpa using hname), List.lookup_cons, List.lookup_cons, ih]

namespace Files

variable {files : Files} {place : Place} {content : List UInt8}

theorem entry?_set_of_ne {other : Place} (h : other ≠ place) :
    Files.entry? (files.set place content) other = files.entry? other := by
  cases other with
  | nil => rfl
  | cons name above =>
      have hname : ((name :: above) == place) = false := beq_false_of_ne h
      rw [ entry?, entry?, set, List.lookup_cons, hname]
      exact lookup_filter_ne files.entries h

theorem entry?_set_self (h : place ≠ []) :
    Files.entry? (files.set place content) place = some (.file content) := by
  cases place with
  | nil => exact absurd rfl h
  | cons name above => rw [ entry?, set, List.lookup_cons_self]

/-- A way through directories does not pass the place of a file. -/
theorem walk_set (hfile : files.entry? place ≠ some .directory) {start target : Place}
    {steps : List PathStep} (h : files.walk start steps = .ok target) :
    (files.set place content).walk start steps = .ok target := by
  induction steps generalizing start with
  | nil => exact h
  | cons step rest ih =>
      rw [walk] at h ⊢
      split at h
      · rename_i hdirectory
        have hne : start ≠ place := by
          rintro rfl
          exact hfile hdirectory
        rw [entry?_set_of_ne hne, hdirectory]
        exact ih h
      · cases h
      · cases h

theorem locate_set (hfile : files.entry? place ≠ some .directory) {path : Path} {target : Place}
    (h : files.locate path = .ok target) :
    (files.set place content).locate path = .ok target := by
  unfold locate at h ⊢
  split at h
  · rw [if_pos ‹_›]
    exact walk_set hfile h
  · rw [if_neg ‹_›]
    split at h
    · cases h
    · rw [if_neg ‹_›]
      exact walk_set hfile h

/-- A path under which a file can be made or replaced. -/
structure Writes (files : Files) (path : String) (place : Place) : Prop where
  located : files.locate (Path.ofString path) = .ok place
  named : ¬ (Path.ofString path).slashed
  free : files.entry? place ≠ some .directory

theorem Writes.place_ne_nil {path : String} (writes : files.Writes path place) : place ≠ [] := by
  rintro rfl
  exact writes.free rfl

theorem write_eq_ok_iff {path : String} {after : Files} :
    files.write path content = .ok after ↔
      ∃ place, files.Writes path place ∧ after = files.set place content := by
  have hrefused (place : Place) :
      ((Path.ofString path).slashed || files.entry? place == some .directory) = true ↔
        (Path.ofString path).slashed ∨ files.entry? place = some .directory := by simp
  rw [write, Packed.bind_eq_ok]
  constructor
  · intro hexists
    obtain ⟨place, hplace, h⟩ := hexists
    split at h
    · cases h
    · rename_i hfree
      rw [hrefused, not_or] at hfree
      cases h
      exact ⟨place, ⟨hplace, hfree.1, hfree.2⟩, rfl⟩
  · intro hexists
    obtain ⟨place, writes, rfl⟩ := hexists
    refine ⟨place, writes.located, ?_⟩
    exact if_neg fun h => ((hrefused place).mp h).elim writes.named writes.free

theorem read_of_write {path : String} {after : Files} (h : files.write path content = .ok after) :
    after.read path = .ok content := by
  obtain ⟨place, writes, rfl⟩ := write_eq_ok_iff.mp h
  rw [read, Packed.bind_eq_ok]
  refine ⟨place, locate_set writes.free writes.located, ?_⟩
  rw [entry?_set_self writes.place_ne_nil]
  exact if_neg writes.named

end Files

end Lexicon
