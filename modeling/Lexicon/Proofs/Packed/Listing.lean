import Lexicon.Proofs.Packed.Lines
import Lexicon.Proofs.Packed.Walk
import Mathlib.Data.List.Permutation

namespace Lexicon.Packed

/-! The listing of a buffer against the list of its entries. -/

variable {buffer : Buffer}

namespace Listing

/-- If all runs can be read, there is a listing, and all its marks are true. -/
theorem exists_ofBuffer (nonempty : ¬ buffer.isEmpty)
    (readable : ∀ start, Reachable buffer start → ∃ found, branches buffer start = .ok found) :
    ∃ shown, ofBuffer buffer = .ok shown ∧
      ∀ position, shown.Marked position → ReadFromRoot buffer position := by
  obtain ⟨shown, all, hfill, records⟩ := (Records.blank buffer).exists_fill readable
  refine ⟨shown, (ofBuffer_eq nonempty).trans hfill, fun position hmarked => ?_⟩
  obtain ⟨start, hstart, htouches⟩ := (records.marked position).mp hmarked
  exact ⟨start, records.reachable start (.inl hstart), htouches⟩

theorem ofBuffer_eq_error_iff (apart : StartsApart buffer) (error : DecodeError) :
    ofBuffer buffer = .error error ↔ entries buffer = .error error := by
  rw [entries_eq_error_iff]
  split
  · rename_i hempty
    rw [ofBuffer, if_pos hempty, Except.error.injEq, eq_comm]
  · rename_i hnonempty
    rw [ofBuffer_eq hnonempty, ((Follows.blank buffer).fill apart).1, List.findSome?_singleton]

theorem marks_of_ofBuffer (apart : StartsApart buffer) {shown : Listing}
    (h : ofBuffer buffer = .ok shown) (position : Nat) :
    (shown.Marked position ↔ ReadFromRoot buffer position) ∧
      (shown.isStart position ↔ ∃ start, Reachable buffer start ∧ Leads buffer start position) := by
  have hnonempty : ¬ buffer.isEmpty := by
    intro hempty
    rw [ofBuffer, if_pos hempty] at h
    cases h
  rw [ofBuffer_eq hnonempty] at h
  obtain ⟨all, follows⟩ := ((Follows.blank buffer).fill apart).2 shown h
  refine ⟨(follows.marked position).trans ?_, (follows.isStart position).trans ?_⟩
  · simp only [follows.mem_iff, ReadFromRoot]
  · simp only [follows.mem_iff]

end Listing

theorem listing_eq_ok_iff {text : String} :
    listing buffer = .ok text ↔
      ∃ shown, Listing.ofBuffer buffer = .ok shown ∧ text = String.join (shown.lines buffer) := by
  rw [listing]
  cases h : Listing.ofBuffer buffer with
  | error error => simp [Except.map]
  | ok shown => simp [Except.map, Listing.text_eq_join, eq_comm]

theorem listing_eq_error_iff {error : DecodeError} :
    listing buffer = .error error ↔ Listing.ofBuffer buffer = .error error := by
  rw [listing]
  cases Listing.ofBuffer buffer <;> simp [Except.map]

/-- A buffer whose entries can be listed has a listing, and no byte counts as reached in it that
no run or label is read from. If no run is read from the first byte of another one, the two
fail alike, and exactly the bytes that nothing is read from are listed as not reached. -/
theorem listing_against_entries (buffer : Buffer) :
    (∀ found, entries buffer = .ok found →
      ∃ shown : Listing, listing buffer = .ok (String.join (shown.lines buffer)) ∧
        (shown.lines buffer).length = buffer.size ∧
        ∀ position line, (shown.lines buffer)[position]? = some line →
          Listing.ListsUnreached line ∨ ReadFromRoot buffer position) ∧
    (StartsApart buffer →
      (∀ error, listing buffer = .error error ↔ entries buffer = .error error) ∧
      ∀ text, listing buffer = .ok text →
        ∃ shown : Listing, text = String.join (shown.lines buffer) ∧
          (shown.lines buffer).length = buffer.size ∧
          ∀ position line, (shown.lines buffer)[position]? = some line →
            (Listing.ListsUnreached line ↔ ¬ ReadFromRoot buffer position)) := by
  refine ⟨fun found hentries => ?_, fun apart => ⟨fun error => ?_, fun text htext => ?_⟩⟩
  · have throughout := throughout_of_entries hentries
    have readable (start : Nat) (reachable : Reachable buffer start) :
        ∃ found, branches buffer start = .ok found :=
      (throughout.of_reachable reachable).exists_branches.imp fun _ h => h.1
    obtain ⟨found, hroot⟩ := readable 0 .root
    obtain ⟨shown, hshown, hmarks⟩ :=
      Listing.exists_ofBuffer (ne_empty_of_branches hroot) readable
    refine ⟨shown, listing_eq_ok_iff.mpr ⟨shown, hshown, rfl⟩, Listing.length_lines _ _, ?_⟩
    intro position line hline
    rw [(Listing.getElem?_lines_eq_some hline).2.1]
    exact (em (shown.Marked position)).symm.imp_right (hmarks position)
  · rw [listing_eq_error_iff, Listing.ofBuffer_eq_error_iff apart]
  · obtain ⟨shown, hshown, rfl⟩ := listing_eq_ok_iff.mp htext
    refine ⟨shown, rfl, Listing.length_lines _ _, fun position line hline => ?_⟩
    rw [(Listing.getElem?_lines_eq_some hline).2.1,
      (Listing.marks_of_ofBuffer apart hshown position).1]

/-- Two labels lead on to values, and one byte stands between the runs. -/
def gapped : Buffer :=
  #[0x03, 0x82, 0x7A, 0xE1, 0x81, 0x81]

theorem listing_against_entries_gapped :
    StartsApart gapped ∧
    ∃ shown : Listing, listing gapped = .ok (String.join (shown.lines gapped)) ∧
      ∀ position line, (shown.lines gapped)[position]? = some line →
        (Listing.ListsUnreached line ↔ position = 2) := by
  have first : branches gapped 0 =
      .ok [⟨⟨0, 3, 1, false⟩, ⟨[0x61], .links 4⟩⟩, ⟨⟨1, 5, 1, true⟩, ⟨[], .value 1⟩⟩] := by cbv
  have second : branches gapped 4 = .ok [⟨⟨4, 5, 1, true⟩, ⟨[], .value 1⟩⟩] := by cbv
  have listed : entries gapped = .ok [⟨[], 1⟩, ⟨[0x61], 1⟩] := by
    rw [entries, if_neg (by decide), collectEntries_cons first]
    change (collectEntries gapped [(4, [0x61])] [⟨[], 1⟩]).map Entry.sort = _
    rw [collectEntries_cons second]
    cbv
  have hruns (start : Nat) : Reachable gapped start ↔ start = 0 ∨ start = 4 := by
    constructor
    · intro reachable
      apply List.mem_pair.mp
      apply reachable.mem_of_closed (by decide)
      intro run hrun
      rcases List.mem_pair.mp hrun with rfl | rfl
      · exact ⟨_, first, by decide⟩
      · exact ⟨_, second, by decide⟩
    · rintro (rfl | rfl)
      · exact .root
      · exact .behind .root first List.mem_cons_self rfl
  have apart : StartsApart gapped := by
    intro start other hstart hother
    rcases (hruns start).mp hstart with rfl | rfl <;> rcases (hruns other).mp hother with rfl | rfl
    · exact fun _ => rfl
    · rw [touches_iff second]
      decide
    · rw [touches_iff first]
      decide
    · exact fun _ => rfl
  obtain ⟨succeeds, agrees⟩ := listing_against_entries gapped
  obtain ⟨_, htext, _⟩ := succeeds _ listed
  obtain ⟨shown, hshown, _, hlines⟩ := (agrees apart).2 _ htext
  refine ⟨apart, shown, htext.trans (congrArg _ hshown), fun position line hline => ?_⟩
  have hlt := (Listing.getElem?_lines_eq_some hline).1
  have hread : ReadFromRoot gapped position ↔ Touches gapped 0 position ∨ Touches gapped 4 position := by
    simp only [ReadFromRoot, hruns, or_and_right, exists_or, exists_eq_left]
  rw [hlines position line hline, hread, touches_iff first, touches_iff second]
  clear * - hlt
  revert position
  decide

/-- The run behind the first label of this buffer leads out of it, and begins with a byte that is
a label as well. -/
def spilled : Buffer :=
  #[0x02, 0x81, 0xE1, 0x81]

theorem listing_misses_fault :
    entries spilled = .error (.outOfBounds 3 4) ∧ ∃ text, listing spilled = .ok text := by
  have first : branches spilled 0 =
      .ok [⟨⟨0, 2, 1, false⟩, ⟨[0x61], .links 3⟩⟩, ⟨⟨1, 3, 1, true⟩, ⟨[], .value 1⟩⟩] := by cbv
  have second : branches spilled 3 = .error (.outOfBounds 3 4) := by cbv
  constructor
  · rw [entries_eq_error_iff, if_neg (by decide), fault_eq first]
    change [3].findSome? (fault spilled) = _
    rw [List.findSome?_singleton, fault_of_error second]
  · have hfill : Listing.ofBuffer spilled = .ok (([⟨⟨0, 2, 1, false⟩, ⟨[0x61], .links 3⟩⟩,
        ⟨⟨1, 3, 1, true⟩, ⟨[], .value 1⟩⟩] : List Branch).foldl (Listing.note spilled)
          (Listing.blank spilled.size, [])).1 := by
      rw [Listing.ofBuffer_eq (by decide), Listing.fill_visit (by decide) first]
      change Listing.fill spilled [3] _ = _
      rw [Listing.fill_skip (by decide), Listing.fill]
    exact ⟨_, listing_eq_ok_iff.mpr ⟨_, hfill, rfl⟩⟩

end Lexicon.Packed
