import Lexicon.Proofs.Packed.Guarded.Listing
import Lexicon.Proofs.Packed.Guarded.Lookup

namespace Lexicon.Packed

/-! Reading ends on all bytes. -/

/-- Rounds that are enough for each loop, however often the runs are met. -/
def limit (buffer : Buffer) : Nat :=
  (buffer.size + 2).pow (buffer.size + 2)

theorem square_le_limit (buffer : Buffer) :
    (buffer.size + 2) * (buffer.size + 2) ≤ limit buffer := by
  rw [← Nat.pow_two]
  exact Nat.pow_le_pow_right (by omega) (Nat.le_add_left 2 _)

theorem weight_root_lt_limit (buffer : Buffer) : weight buffer [0] < limit buffer := by
  have hweight : weight buffer [0] = (buffer.size + 1) ^ buffer.size := rfl
  have hbase : (buffer.size + 1) ^ buffer.size ≤ (buffer.size + 2) ^ buffer.size :=
    Nat.pow_le_pow_left (by omega) _
  have hexponent : (buffer.size + 2) ^ buffer.size < limit buffer :=
    Nat.pow_lt_pow_right (by omega) (by omega)
  omega

/-- On all bytes, each decoder comes to its value or to a fault of the buffer. Each index lies in
its array, each run that is gone on with lies behind the one that leads to it and not beyond the
end, and no loop needs more than these rounds. -/
theorem decoders_end (buffer : Buffer) (key : Word) {rounds : Nat} (enough : limit buffer ≤ rounds) :
    Guarded.lookup rounds buffer key = .ok (lookup buffer key) ∧
      Guarded.entries rounds buffer = (entries buffer).mapError .fault ∧
      Guarded.links rounds buffer = (links buffer).mapError .fault ∧
      Guarded.listing rounds buffer = (listing buffer).mapError .fault := by
  have hsquare := square_le_limit buffer
  have hheavy := weight_root_lt_limit buffer
  have hroot : (buffer.size + 2) * 1 ≤ (buffer.size + 2) * (buffer.size + 2) :=
    Nat.mul_le_mul_left _ (by omega)
  have hrun : buffer.size + 1 < rounds := by omega
  have hweight : weight buffer [0] < rounds := by omega
  exact ⟨Guarded.lookup_eq (by omega) key, Guarded.entries_eq hrun hweight,
    Guarded.links_eq hrun hweight, Guarded.listing_eq hrun hweight⟩

/-- Two links of the root lead to one label, and the run behind it leads out of the buffer. -/
def outbound : Buffer :=
  #[0x03, 0x00, 0x82, 0xE1, 0x85, 0x82]

theorem decoders_end_outbound :
    limit outbound ≤ 16777216 ∧
      Guarded.lookup 16777216 outbound [] = .ok (some 2) ∧
      Guarded.entries 16777216 outbound = .error (.fault (.outOfBounds 4 9)) ∧
      Guarded.links 16777216 outbound = .error (.fault (.outOfBounds 4 9)) ∧
      Guarded.listing 16777216 outbound = .error (.fault (.outOfBounds 4 9)) := by
  have enough : limit outbound ≤ 16777216 := by decide
  obtain ⟨hlookup, hentries, hlinks, hlisting⟩ := decoders_end outbound [] enough
  have first : branches outbound 0 =
      .ok [⟨⟨0, 3, 1, false⟩, ⟨[0x61], .links 4⟩⟩, ⟨⟨1, 3, 1, false⟩, ⟨[0x61], .links 4⟩⟩,
        ⟨⟨2, 5, 1, true⟩, ⟨[], .value 2⟩⟩] := by cbv
  have second : branches outbound 4 = .error (.outOfBounds 4 9) := by cbv
  refine ⟨enough, hlookup.trans ?_, hentries.trans ?_, hlinks.trans ?_, hlisting.trans ?_⟩
  · cbv
  · rw [entries, if_neg (by decide), collectEntries_cons first]
    change ((collectEntries outbound [(4, [0x61]), (4, [0x61])] _).map _).mapError _ = _
    rw [collectEntries_of_error second]
    rfl
  · rw [links, if_neg (by decide), collectLinks_of_new (by decide), first]
    change ((collectLinks outbound [4, 4] _ _).map _).mapError _ = _
    rw [collectLinks_of_new (by decide), second]
    rfl
  · rw [listing, Listing.ofBuffer, if_neg (by decide), Listing.fill_visit (by decide) first]
    change ((Listing.fill outbound [4] _).map _).mapError _ = _
    rw [Listing.fill_of_error (by decide) second]
    rfl

end Lexicon.Packed
