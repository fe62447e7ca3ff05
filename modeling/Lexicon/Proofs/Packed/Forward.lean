import Mathlib.Data.Set.Card
import Lexicon.Proofs.Packed.Links
import Lexicon.Proofs.Packed.Listing
import Lexicon.Proofs.Packed.Roles

namespace Lexicon.Packed

/-! A packed graph is read forward, and all of it is read. -/

variable {buffer : Buffer} {graph : Graph}

/-- The links of a buffer that is read in one way only. -/
structure Forward (buffer : Buffer) (links : List Link) : Prop where
  mem_iff : ∀ link, link ∈ links ↔
    ∃ start, Reachable buffer start ∧ link ∈ (Run.read buffer start).links
  ordered : links.Pairwise fun left right =>
    left.position < right.position ∧ left.position + left.width ≤ right.position
  behind : ∀ start, Reachable buffer start → ∀ link ∈ (Run.read buffer start).links,
    link.target < buffer.size ∧
      ∀ other ∈ (Run.read buffer start).links, other.position + other.width ≤ link.target
  labels : ∀ position, position < buffer.size →
    ((∀ link ∈ links, ¬ link.Takes position) ↔ ReadAsLabel buffer position)

namespace Chart

/-- Links of one run stand one behind the other, and links of two runs apart. -/
theorem pairwise_apart (chart : Chart buffer graph) (writable : graph.Writable) {starts : List Nat}
    (nodup : starts.Nodup) (reachable : ∀ start ∈ starts, Reachable buffer start) :
    (starts.flatMap fun start => (Run.read buffer start).links).Pairwise fun left right =>
      left.position + left.width ≤ right.position ∨ right.position + right.width ≤ left.position := by
  rw [List.pairwise_flatMap]
  constructor
  · intro start hstart
    obtain ⟨stop, children, hrun⟩ := chart.exists_isRun writable (reachable start hstart)
    exact hrun.fills.tiles.pairwise.imp .inl
  · refine nodup.imp_of_mem fun {start other} hstart hother hne left hleft right hright => ?_
    obtain ⟨stop, children, hrun⟩ := chart.exists_isRun writable (reachable start hstart)
    obtain ⟨otherStop, others, hotherRun⟩ := chart.exists_isRun writable (reachable other hother)
    have hleftBounds := hrun.fills.tiles.bounds left hleft
    have hrightBounds := hotherRun.fills.tiles.bounds right hright
    by_contra hoverlap
    rw [not_or] at hoverlap
    -- The later one of the two first bytes would belong to both links.
    have hmax : start ≤ max left.position right.position ∧
        max left.position right.position < stop ∧ other ≤ max left.position right.position ∧
        max left.position right.position < otherStop := by omega
    exact hne (hrun.eq_of_common hotherRun hmax.1 hmax.2.1 hmax.2.2.1 hmax.2.2.2).symm

theorem forward (chart : Chart buffer graph) (writable : graph.Writable) {found : List Link}
    {starts : List Nat} (nodup : starts.Nodup)
    (mem_starts : ∀ start, start ∈ starts ↔ Reachable buffer start)
    (perm : found.Perm (starts.flatMap fun start => (Run.read buffer start).links))
    (sorted : found.Pairwise fun left right => left.position ≤ right.position) :
    Forward buffer found := by
  have hmem (link : Link) : link ∈ found ↔
      ∃ start, Reachable buffer start ∧ link ∈ (Run.read buffer start).links := by
    rw [perm.mem_iff, List.mem_flatMap]
    simp only [mem_starts]
  have hwidth : ∀ link ∈ found, 0 < link.width := by
    intro link hfound
    obtain ⟨start, reachable, hlink⟩ := (hmem link).mp hfound
    obtain ⟨stop, children, hrun⟩ := chart.exists_isRun writable reachable
    exact (hrun.fills.tiles.bounds link hlink).2.1
  refine ⟨hmem, ?_, ?_, ?_⟩
  · have hapart := (perm.pairwise_iff (by omega)).mpr
      (chart.pairwise_apart writable nodup fun start => (mem_starts start).mp)
    refine (sorted.and hapart).imp_of_mem fun {left right} hleft hright hboth => ?_
    have := hwidth left hleft
    have := hwidth right hright
    omega
  · intro start reachable link hlink
    obtain ⟨stop, children, hrun⟩ := chart.exists_isRun writable reachable
    obtain ⟨child, hchild, htarget⟩ := hrun.exists_child hlink
    refine ⟨(Run.mem_read hlink).2.2, fun other hother => ?_⟩
    have hstop := hrun.fills.behind _ (List.mem_map_of_mem hchild)
    have hbounds := hrun.fills.tiles.bounds other hother
    omega
  · intro position hposition
    rw [chart.readAsLabel_iff writable]
    constructor
    · intro hnone
      refine (chart.head_or_run writable hposition).resolve_right ?_
      rintro ⟨start, stop, children, hrun, hlow, hhigh⟩
      obtain ⟨link, hlink, htakes⟩ := hrun.takes_iff.mpr ⟨hlow, hhigh⟩
      exact hnone link ((hmem link).mpr ⟨start, hrun.reachable writable, hlink⟩) htakes
    · rintro ⟨id, hid, rfl⟩ link hlink htakes
      obtain ⟨start, reachable, hlink⟩ := (hmem link).mp hlink
      obtain ⟨stop, children, hrun⟩ := chart.exists_isRun writable reachable
      obtain ⟨hlow, hhigh⟩ := hrun.takes_iff.mp ⟨link, hlink, htakes⟩
      exact hrun.ne_head hlow hhigh hid rfl

theorem image_start (chart : Chart buffer graph) (writable : graph.Writable) {links : List Link}
    (forward : Forward buffer links) :
    chart.start '' {id | graph.Reached id} =
      {position | position < buffer.size ∧ ∀ link ∈ links, ¬ link.Takes position} := by
  ext position
  constructor
  · rintro ⟨id, hid, rfl⟩
    have hlt : chart.start id < buffer.size := by
      have := chart.bounds id hid
      omega
    exact ⟨hlt, (forward.labels _ hlt).mpr ((chart.readAsLabel_iff writable).mpr ⟨id, hid, rfl⟩)⟩
  · rintro ⟨hlt, hnone⟩
    obtain ⟨id, hid, heq⟩ :=
      (chart.readAsLabel_iff writable).mp ((forward.labels position hlt).mp hnone)
    exact ⟨id, hid, heq.symm⟩

end Chart

theorem Forward.exists_leads_iff {links : List Link} (forward : Forward buffer links)
    (readable : ∀ start, Reachable buffer start → ∃ found, branches buffer start = .ok found)
    (position : Nat) :
    (∃ start, Reachable buffer start ∧ Listing.Leads buffer start position) ↔
      ∃ link ∈ links, link.target = position := by
  constructor
  · intro hexists
    obtain ⟨start, reachable, hleads⟩ := hexists
    obtain ⟨found, read⟩ := readable start reachable
    obtain ⟨link, hlink, htarget⟩ := (Listing.leads_iff_exists_link read).mp hleads
    exact ⟨link, (forward.mem_iff link).mpr ⟨start, reachable, hlink⟩, htarget⟩
  · intro hexists
    obtain ⟨link, hmem, htarget⟩ := hexists
    obtain ⟨start, reachable, hlink⟩ := (forward.mem_iff link).mp hmem
    obtain ⟨found, read⟩ := readable start reachable
    exact ⟨start, reachable, (Listing.leads_iff_exists_link read).mpr ⟨link, hlink, htarget⟩⟩

/-- What a graph is packed into is read in one way only: links are apart from each other, lead
on behind their run, and take all bytes but one for each node. No byte is listed as not
reached, and blank lines stand where links lead. -/
theorem encode_forward {rounds : Nat} (named : graph.NamedOnce) (writable : graph.Writable)
    (h : encode graph rounds = .ok buffer) :
    ∃ (found : List Link) (shown : Listing),
      links buffer = .ok found ∧ listing buffer = .ok (String.join (shown.lines buffer)) ∧
      Forward buffer found ∧
      {position | position < buffer.size ∧ ∀ link ∈ found, ¬ link.Takes position}.ncard =
        {id | graph.Reached id}.ncard ∧
      (shown.lines buffer).length = buffer.size ∧
      ∀ position line, (shown.lines buffer)[position]? = some line →
        ¬ Listing.ListsUnreached line ∧
        (Listing.SetApart line ↔ ∃ link ∈ found, link.target = position) := by
  obtain ⟨chart⟩ := exists_chart named h
  have readable (start : Nat) (reachable : Reachable buffer start) :
      ∃ found, branches buffer start = .ok found := by
    obtain ⟨stop, children, hrun⟩ := chart.exists_isRun writable reachable
    exact hrun.exists_branches writable
  obtain ⟨first, hfirst⟩ := readable 0 .root
  have hnonempty := ne_empty_of_branches hfirst
  obtain ⟨found, starts, hlinks, hnodup, hstarts, hperm, hsorted⟩ := exists_links hnonempty readable
  have forward := chart.forward writable hnodup hstarts hperm hsorted
  obtain ⟨shown, hshown, _⟩ := Listing.exists_ofBuffer hnonempty readable
  have marks := Listing.marks_of_ofBuffer (chart.startsApart writable) hshown
  refine ⟨found, shown, hlinks, listing_eq_ok_iff.mpr ⟨shown, hshown, rfl⟩, forward, ?_,
    Listing.length_lines _ _, fun position line hline => ?_⟩
  · rw [← chart.image_start writable forward, chart.start_injOn.ncard_image]
  · obtain ⟨hlt, hunreached, hapart⟩ := Listing.getElem?_lines_eq_some hline
    rw [hunreached, hapart, (marks position).1, (marks position).2]
    exact ⟨not_not.mpr (chart.readFromRoot writable hlt), forward.exists_leads_iff readable position⟩

/-- A graph with two ways to read one word, and with a node that is not reached and could not
be packed. -/
def twofold : Graph where
  nodes := #[.value 1, .char 0x62 [0], .char 0x61 [1], .char 0xC8 [], .char 0x61 [0, 1]]
  root := [2, 4]
  child_lt := by decide
  root_lt := by decide

theorem mem_of_reached_twofold {id : Nat} (h : twofold.Reached id) : id ∈ [0, 1, 2, 4] := by
  apply h.mem_of_closed
  · decide
  · decide

theorem namedOnce_twofold : twofold.NamedOnce := fun id _ =>
  List.nodup_iff_count_le_one.mp (by decide) id

theorem writable_twofold : twofold.Writable where
  printable := by
    intro id byte children hid hnode
    have hmem := mem_of_reached_twofold hid
    simp only [List.mem_cons, List.not_mem_nil, or_false] at hmem
    rcases hmem with rfl | rfl | rfl | rfl <;> cases hnode <;> decide
  small := by
    intro id v hid hnode
    have hmem := mem_of_reached_twofold hid
    simp only [List.mem_cons, List.not_mem_nil, or_false] at hmem
    rcases hmem with rfl | rfl | rfl | rfl <;> cases hnode
    decide

theorem encode_twofold : encode twofold 8 = .ok #[2, 131, 225, 3, 129, 97, 98, 129] := by cbv

theorem encode_forward_twofold :
    ∃ buffer, encode twofold 8 = .ok buffer ∧ twofold.NamedOnce ∧ twofold.Writable ∧
    ∃ (found : List Link) (shown : Listing),
      links buffer = .ok found ∧ listing buffer = .ok (String.join (shown.lines buffer)) ∧
      Forward buffer found ∧
      {position | position < buffer.size ∧ ∀ link ∈ found, ¬ link.Takes position}.ncard =
        {id | twofold.Reached id}.ncard ∧
      (shown.lines buffer).length = buffer.size ∧
      ∀ position line, (shown.lines buffer)[position]? = some line →
        ¬ Listing.ListsUnreached line ∧
        (Listing.SetApart line ↔ ∃ link ∈ found, link.target = position) := by
  exact ⟨_, encode_twofold, namedOnce_twofold, writable_twofold,
    encode_forward namedOnce_twofold writable_twofold encode_twofold⟩

end Lexicon.Packed
