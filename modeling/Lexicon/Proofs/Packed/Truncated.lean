import Lexicon.Proofs.Packed.Forward
import Lexicon.Proofs.Packed.Lookup

namespace Lexicon.Packed

/-! What is read from the beginning of a buffer is read from the whole of it too. -/

/-- The first bytes of a buffer, or all of them. -/
def Truncates (cut whole : Buffer) : Prop :=
  cut.toList <+: whole.toList

namespace Truncates

variable {cut whole : Buffer}

theorem getElem?_of_lt (h : Truncates cut whole) {position : Nat} (hlt : position < cut.size) :
    whole[position]? = cut[position]? := by
  obtain ⟨rest, hrest⟩ := h
  rw [← Array.getElem?_toList, ← Array.getElem?_toList, ← hrest]
  exact List.getElem?_append_left hlt

theorem getElem? (h : Truncates cut whole) (position : Nat) (byte : UInt8)
    (found : cut[position]? = some byte) : whole[position]? = some byte :=
  (h.getElem?_of_lt (Array.getElem?_eq_some_iff.mp found).1).trans found

theorem size_le (h : Truncates cut whole) : cut.size ≤ whole.size :=
  h.length_le

theorem read_offset (h : Truncates cut whole) {position : Nat} {offset : Offset}
    (read : Offset.read? cut position = some offset) :
    Offset.read? whole position = some offset := by
  have byte {place : Nat} {byte : UInt8} (found : cut[place]? = some byte) :
      whole[place]? = some byte := h.getElem? place byte found
  unfold Offset.read? at read ⊢
  obtain ⟨lead, hlead, read⟩ := Option.bind_eq_some_iff.mp read
  refine Option.bind_eq_some_iff.mpr ⟨lead, byte hlead, ?_⟩
  simp only at read ⊢
  split at read
  · rw [if_pos ‹_›]
    exact read
  · rw [if_neg ‹_›]
    split at read
    · rw [if_pos ‹_›]
      obtain ⟨low, hlow, read⟩ := Option.bind_eq_some_iff.mp read
      exact Option.bind_eq_some_iff.mpr ⟨low, byte hlow, read⟩
    · rw [if_neg ‹_›]
      obtain ⟨middle, hmiddle, read⟩ := Option.bind_eq_some_iff.mp read
      obtain ⟨low, hlow, read⟩ := Option.bind_eq_some_iff.mp read
      exact Option.bind_eq_some_iff.mpr ⟨middle, byte hmiddle,
        Option.bind_eq_some_iff.mpr ⟨low, byte hlow, read⟩⟩

theorem read_link (h : Truncates cut whole) {position base : Nat} {link : Link}
    (read : Link.read cut position base = .ok link) :
    Link.read whole position base = .ok link := by
  have hle := h.size_le
  unfold Link.read at read ⊢
  split at read
  · cases read
  · rename_i offset hoffset
    rw [h.read_offset hoffset]
    simp only at read ⊢
    split at read
    · cases read
    · split at read
      · cases read
      · rw [if_neg ‹_›, if_neg (by omega)]
        exact read

/-- A run is read as far as it is there, and then it is the same one. -/
theorem reads (h : Truncates cut whole) {position base : Nat} {short long : Run}
    (hshort : Run.Reads cut position base short) (hlong : Run.Reads whole position base long) :
    short.links <+: long.links ∧ (short.error = none → long = short) := by
  induction hshort generalizing long with
  | fault => exact ⟨List.nil_prefix, nofun⟩
  | last read last =>
      have hread := h.read_link read
      cases hlong with
      | fault other => cases hread.symm.trans other
      | last other _ =>
          cases hread.symm.trans other
          exact ⟨List.prefix_rfl, fun _ => rfl⟩
      | more other hmore _ =>
          cases hread.symm.trans other
          cases last.symm.trans hmore
  | more read last behind ih =>
      have hread := h.read_link read
      cases hlong with
      | fault other => cases hread.symm.trans other
      | last other hlast =>
          cases hread.symm.trans other
          cases last.symm.trans hlast
      | more other _ hbehind =>
          cases hread.symm.trans other
          obtain ⟨hlinks, hsame⟩ := ih hbehind
          refine ⟨(List.prefix_cons_inj _).mpr hlinks, fun herror => ?_⟩
          cases hsame herror
          rfl

theorem read_run (h : Truncates cut whole) (start : Nat) :
    (Run.read cut start).links <+: (Run.read whole start).links ∧
      ((Run.read cut start).error = none → Run.read whole start = Run.read cut start) :=
  h.reads (Run.reads_read cut start) (Run.reads_read whole start)

theorem spells (h : Truncates cut whole) {position : Nat} {letters : Word} {ending : Ending}
    (spells : Spells cut position letters ending) : Spells whole position letters ending := by
  induction spells with
  | value found byte_eq => exact .value (h.getElem? _ _ found) byte_eq
  | endChar found byte_eq printable => exact .endChar (h.getElem? _ _ found) byte_eq printable
  | char found byte_eq printable _ ih => exact .char (h.getElem? _ _ found) byte_eq printable ih

theorem branches (h : Truncates cut whole) {start : Nat} {found : List Branch}
    (read : branches cut start = .ok found) : branches whole start = .ok found := by
  obtain ⟨herror, hlinks, hread⟩ := branches_eq_ok_iff.mp read
  have hrun := (h.read_run start).2 herror
  exact branches_eq_ok_iff.mpr
    ⟨hrun ▸ herror, hrun ▸ hlinks, fun branch hbranch => h.spells (hread branch hbranch)⟩

theorem collectEntries (h : Truncates cut whole) {waiting : List (Nat × Word)}
    {before found : List Entry} (collected : collectEntries cut waiting before = .ok found) :
    collectEntries whole waiting before = .ok found := by
  fun_induction Packed.collectEntries cut waiting before with
  | case1 before =>
      cases collected
      rw [Packed.collectEntries]
  | case2 => cases collected
  | case3 before start trail rest branches read _ ih =>
      rw [collectEntries_cons (h.branches read)]
      exact ih collected

theorem entries (h : Truncates cut whole) {found : List Entry}
    (listed : entries cut = .ok found) : entries whole = .ok found := by
  rw [Packed.entries] at listed ⊢
  split at listed
  · cases listed
  · rename_i hcut
    have hwhole : ¬ whole.isEmpty := by
      have := h.size_le
      simp only [Array.isEmpty_iff_size_eq_zero] at hcut ⊢
      omega
    rw [if_neg hwhole]
    cases hcollect : Packed.collectEntries cut [(0, [])] [] with
    | error error =>
        rw [hcollect] at listed
        cases listed
    | ok gathered =>
        rw [hcollect] at listed
        rw [h.collectEntries hcollect]
        exact listed

/-! A lookup that finds a value has read nothing that is not there. -/

theorem begins_eq (h : Truncates cut whole) {position : Nat} (hlt : position < cut.size)
    (key : Word) : begins whole position key = begins cut position key := by
  unfold begins
  rw [h.getElem?_of_lt hlt]

theorem follow (h : Truncates cut whole) {position : Nat} {key : Word} {reached : Reached}
    (followed : follow cut position key = some reached) :
    follow whole position key = some reached := by
  induction key generalizing position with
  | nil =>
      unfold Packed.follow at followed ⊢
      cases hbyte : cut[position]? with
      | none =>
          rw [hbyte] at followed
          cases followed
      | some byte =>
          rw [hbyte] at followed
          rw [h.getElem? position byte hbyte]
          exact followed
  | cons first rest ih =>
      unfold Packed.follow at followed ⊢
      cases hbyte : cut[position]? with
      | none =>
          rw [hbyte] at followed
          cases followed
      | some byte =>
          rw [hbyte] at followed
          rw [h.getElem? position byte hbyte]
          simp only [Option.map_some] at followed ⊢
          split at followed
          · split at followed
            · rw [if_pos ‹_›]
              exact ih followed
            · cases followed
          · exact followed
          · cases followed

/-- The first link whose label begins as the key does is the same one, since the labels of
all links that are read begin inside the buffer. -/
theorem find?_links (h : Truncates cut whole) {start : Nat} {key : Word} {link : Link}
    (found : (Run.read cut start).links.find? (fun link => begins cut link.target key) = some link) :
    (Run.read whole start).links.find? (fun link => begins whole link.target key) = some link := by
  have hsame : (Run.read cut start).links.find? (fun link => begins whole link.target key) =
      (Run.read cut start).links.find? fun link => begins cut link.target key :=
    List.find?_congr fun link hlink => h.begins_eq (Run.mem_read hlink).2.2 key
  exact (h.read_run start).1.find?_eq_some (hsame.trans found)

theorem lookupFrom (h : Truncates cut whole) {start : Nat} {key : Word} {v : UInt8}
    (found : lookupFrom cut start key = some v) : lookupFrom whole start key = some v := by
  induction hlength : key.length using Nat.strong_induction_on generalizing start key with
  | _ length ih =>
      rw [lookupFrom_step] at found ⊢
      obtain ⟨link, hlink, found⟩ := Option.bind_eq_some_iff.mp found
      obtain ⟨reached, hreached, found⟩ := Option.bind_eq_some_iff.mp found
      refine Option.bind_eq_some_iff.mpr ⟨link, h.find?_links hlink,
        Option.bind_eq_some_iff.mpr ⟨reached, h.follow hreached, ?_⟩⟩
      cases reached with
      | value v => exact found
      | links next rest => exact ih rest.length (hlength ▸ length_of_follow hreached) found rfl

theorem lookup (h : Truncates cut whole) {key : Word} {v : UInt8}
    (found : lookup cut key = some v) : lookup whole key = some v := by
  rw [Packed.lookup] at found ⊢
  split at found
  · rw [if_pos ‹_›]
    exact h.lookupFrom found
  · cases found

/-! A buffer all of which is read from the root is longer than all that can be read of it. -/

theorem reachable (h : Truncates cut whole)
    (readable : ∀ start, Reachable cut start → ∃ found, Packed.branches cut start = .ok found)
    {start : Nat} (reachable : Reachable whole start) : Reachable cut start := by
  induction reachable with
  | root => exact .root
  | @behind start next found branch _ read mem leads ih =>
      obtain ⟨others, hothers⟩ := readable start ih
      cases (h.branches hothers).symm.trans read
      exact ih.behind hothers mem leads

theorem eq_of_readable (h : Truncates cut whole)
    (readable : ∀ start, Reachable cut start → ∃ found, Packed.branches cut start = .ok found)
    (used : ∀ position < whole.size, ReadFromRoot whole position) : cut = whole := by
  have hsize : whole.size ≤ cut.size := by
    by_contra hlt
    obtain ⟨start, hreached, htouches⟩ := used cut.size (Nat.lt_of_not_le hlt)
    obtain ⟨found, read⟩ := readable start (h.reachable readable hreached)
    obtain ⟨branch, hbranch, hcovers⟩ := (touches_iff (h.branches read)).mp htouches
    have := branch_bounds read hbranch
    unfold Branch.Covers Link.Takes at hcovers
    omega
  exact Array.toList_inj.mp (h.eq_of_length_le hsize)

end Truncates

/-- Of a packed graph no byte can be cut off without notice, and what can be read of a buffer
that was cut off is read from the whole buffer too. -/
theorem truncation_detected {graph : Graph} {rounds : Nat} {buffer : Buffer}
    (named : graph.NamedOnce) (writable : graph.Writable) (h : encode graph rounds = .ok buffer) :
    (∀ cut, Truncates cut buffer → cut ≠ buffer →
      (∃ error, entries cut = .error error) ∧ ∃ error, links cut = .error error) ∧
    ∀ cut whole, Truncates cut whole →
      (∀ key v, lookup cut key = some v → lookup whole key = some v) ∧
      ∀ found, entries cut = .ok found → entries whole = .ok found := by
  constructor
  · intro cut hcut hne
    obtain ⟨chart⟩ := exists_chart named h
    have hnot : ¬ ∀ start, Reachable cut start → ∃ found, branches cut start = .ok found :=
      fun readable => hne (hcut.eq_of_readable readable fun _ => chart.readFromRoot writable)
    constructor
    · cases hentries : entries cut with
      | error error => exact ⟨error, rfl⟩
      | ok found =>
          refine absurd (fun start reachable => ?_) hnot
          obtain ⟨found, read, _⟩ :=
            ((throughout_of_entries hentries).of_reachable reachable).exists_branches
          exact ⟨found, read⟩
    · cases hlinks : links cut with
      | error error => exact ⟨error, rfl⟩
      | ok found => exact absurd (fun start => readable_of_links hlinks) hnot
  · intro cut whole hcut
    exact ⟨fun _ _ => hcut.lookup, fun _ => hcut.entries⟩

/-- The last byte of a packed graph is a value; without it nothing can be listed. A byte that
nothing leads to may be missing. -/
theorem truncation_detected_twofold :
    encode twofold 8 = .ok #[2, 131, 225, 3, 129, 97, 98, 129] ∧
    (∃ error, entries #[2, 131, 225, 3, 129, 97, 98] = .error error) ∧
    (∃ error, links #[2, 131, 225, 3, 129, 97, 98] = .error error) ∧
    lookup #[129, 129, 0] [] = some 1 ∧ entries #[129, 129, 0] = .ok [⟨[], 1⟩] := by
  obtain ⟨detected, kept⟩ :=
    truncation_detected namedOnce_twofold writable_twofold encode_twofold
  obtain ⟨hentries, hlinks⟩ := detected #[2, 131, 225, 3, 129, 97, 98] ⟨[129], rfl⟩ (by decide)
  obtain ⟨hfound, hlisted⟩ := kept #[129, 129] #[129, 129, 0] ⟨[0], rfl⟩
  have first : branches #[129, 129] 0 = .ok [⟨⟨0, 1, 1, true⟩, ⟨[], .value 1⟩⟩] := by cbv
  refine ⟨encode_twofold, hentries, hlinks, hfound [] 1 ?_, hlisted _ ?_⟩
  · cbv
  · rw [entries, if_neg (by decide), collectEntries_cons first]
    cbv

end Lexicon.Packed
