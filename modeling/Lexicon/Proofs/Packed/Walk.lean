import Lexicon.Proofs.Packed.Fault
import Lexicon.Proofs.Packed.Marks

namespace Lexicon.Packed

/-! The walk that fills a listing. It visits a run only once, and takes a run for visited if
its first byte has a mark. -/

variable {buffer : Buffer}

theorem nextStarts_concat (before : List Branch) (last : Branch) :
    nextStarts (before ++ [last]) = last.start?.toList ++ nextStarts before := by
  cases h : last.start? <;> simp [nextStarts, h]

theorem branches_targets {start : Nat} {found : List Branch}
    (read : branches buffer start = .ok found) :
    found.Pairwise fun left right => left.link.target ≤ right.link.target := by
  have h := (Run.reads_read buffer start).targets.2
  rw [← (branches_eq_ok_iff.mp read).2.1, List.pairwise_map] at h
  exact h

namespace Listing

variable {listing : Listing}

/-! The runs that are met with the branches of a run. Where a label is met again within the
run, it is the last one that was met. -/

theorem note_snd (state : Listing × List Nat) (branch : Branch) :
    (note buffer state branch).2 =
      if state.1.isStart branch.link.target then state.2 else branch.start?.toList ++ state.2 := by
  unfold note
  simp only [isStart_markLink]
  split <;> rfl

theorem exists_branch_of_met (found : List Branch) :
    ∀ next ∈ (found.foldl (note buffer) (listing, [])).2,
      ∃ branch ∈ found, branch.start? = some next := by
  obtain ⟨met, hmet, _, hmem⟩ := foldl_note_starts buffer found (listing, [])
  rw [hmet, List.append_nil]
  exact hmem

/-- Targets never fall within a run, so that branches to one label stand side by side. -/
theorem nextStarts_of_same_target {before : List Branch} {last branch : Branch} {next : Nat}
    (sound : ∀ branch ∈ before ++ [last], branch.Sound buffer)
    (targets : (before ++ [last]).Pairwise fun left right => left.link.target ≤ right.link.target)
    (hbranch : branch ∈ before) (same : branch.link.target = last.link.target)
    (hnext : last.start? = some next) : ∃ others, nextStarts before = next :: others := by
  obtain ⟨earlier, beside, rfl⟩ := (List.eq_nil_or_concat' before).resolve_left
    (List.ne_nil_of_mem hbranch)
  have hlast : beside.link.target = last.link.target := by
    obtain ⟨hbefore, _, hle⟩ := List.pairwise_append.mp targets
    have hupper := hle beside (by simp) last (by simp)
    have hlower : branch.link.target ≤ beside.link.target := by
      rcases List.mem_append.mp hbranch with hearlier | hbeside
      · exact (List.pairwise_append.mp hbefore).2.2 branch hearlier beside (by simp)
      · cases List.mem_singleton.mp hbeside
        exact Nat.le_refl _
    omega
  refine ⟨nextStarts earlier, ?_⟩
  rw [nextStarts_concat, (sound beside (by simp)).start?_eq_of_target (sound last (by simp)) hlast,
    hnext]
  rfl

/-- The runs that are met fail first with what all branches together fail with first. -/
theorem findSome?_foldl_note (kept : listing.Kept buffer) {found : List Branch}
    (sound : ∀ branch ∈ found, branch.Sound buffer)
    (targets : found.Pairwise fun left right => left.link.target ≤ right.link.target)
    (seen : ∀ branch ∈ found, listing.isStart branch.link.target →
      ∀ next ∈ branch.start?, fault buffer next = none) :
    (found.foldl (note buffer) (listing, [])).2.findSome? (fault buffer) =
      (nextStarts found).findSome? (fault buffer) := by
  induction found using List.reverseRecOn with
  | nil => rfl
  | append_singleton before last ih =>
      have hbefore := (List.forall_mem_append.mp sound).1
      have hfault := ih hbefore (List.pairwise_append.mp targets).1 fun branch hbranch =>
        seen branch (List.mem_append_left _ hbranch)
      obtain ⟨_, _, hisStart⟩ := kept.foldl_note hbefore
      rw [List.foldl_concat, note_snd, nextStarts_concat, List.findSome?_append]
      split
      · rename_i hmet
        -- The label was met before the run, or by the branch that stands beside this one.
        rw [hfault]
        cases hnext : last.start? with
        | none => rfl
        | some next =>
            rcases (hisStart _).mp hmet with hseen | ⟨branch, hbranch, hsame⟩
            · rw [Option.toList_some, List.findSome?_singleton, seen last (by simp) hseen next hnext,
                Option.none_or]
            · obtain ⟨others, hothers⟩ := nextStarts_of_same_target sound targets hbranch hsame hnext
              rw [hothers, Option.toList_some, List.findSome?_singleton, List.findSome?_cons]
              cases fault buffer next <;> rfl
      · rw [List.findSome?_append, hfault]

/-- A run that is met is visited before all that begin in front of its label. -/
theorem awaited_foldl_note (kept : listing.Kept buffer) {found : List Branch}
    (sound : ∀ branch ∈ found, branch.Sound buffer)
    (targets : found.Pairwise fun left right => left.link.target ≤ right.link.target) :
    ∀ branch ∈ found, ∀ next ∈ branch.start?, listing.isStart branch.link.target ∨
      Awaited (found.foldl (note buffer) (listing, [])).2 branch.link.target next := by
  induction found using List.reverseRecOn with
  | nil => exact nofun
  | append_singleton before last ih =>
      have hbefore := (List.forall_mem_append.mp sound).1
      obtain ⟨hbeforeTargets, _, hle⟩ := List.pairwise_append.mp targets
      have hawaited := ih hbefore hbeforeTargets
      obtain ⟨_, _, hisStart⟩ := kept.foldl_note hbefore
      have hlast := sound last (by simp)
      intro branch hbranch next hnext
      rw [List.foldl_concat, note_snd]
      split
      · rename_i hmet
        rcases List.mem_append.mp hbranch with hearlier | hthis
        · exact hawaited branch hearlier next hnext
        · cases List.mem_singleton.mp hthis
          rcases (hisStart _).mp hmet with hseen | ⟨beside, hbeside, hsame⟩
          · exact .inl hseen
          · rw [← hsame]
            rw [← (hbefore beside hbeside).start?_eq_of_target hlast hsame] at hnext
            exact hawaited beside hbeside next hnext
      · have hnew : ∀ new ∈ last.start?.toList, branch.link.target < new := by
          intro new hnew
          have hlt := (hlast.isRead.start?_eq (Option.mem_toList.mp hnew)).2
          rcases List.mem_append.mp hbranch with hearlier | hthis
          · exact Nat.lt_of_le_of_lt (hle branch hearlier last (by simp)) hlt
          · rwa [List.mem_singleton.mp hthis]
        rcases List.mem_append.mp hbranch with hearlier | hthis
        · exact (hawaited branch hearlier next hnext).imp_right fun h => h.push hnew
        · cases List.mem_singleton.mp hthis
          refine .inr ⟨last.start?.toList, ⟨List.prefix_append _ _, hnew⟩, ?_⟩
          exact Option.mem_toList.mpr hnext

/-! The walk, with the runs that it has visited. -/

/-- A label that a branch of the run leads to begins here. -/
def Leads (buffer : Buffer) (start target : Nat) : Prop :=
  ∃ found, branches buffer start = .ok found ∧ ∃ branch ∈ found, branch.link.target = target

theorem leads_iff {start target : Nat} {found : List Branch}
    (read : branches buffer start = .ok found) :
    Leads buffer start target ↔ ∃ branch ∈ found, branch.link.target = target := by
  refine ⟨?_, fun hleads => ⟨found, read, hleads⟩⟩
  rintro ⟨others, hothers, hleads⟩
  cases hothers.symm.trans read
  exact hleads

theorem leads_iff_exists_link {start target : Nat} {found : List Branch}
    (read : branches buffer start = .ok found) :
    Leads buffer start target ↔ ∃ link ∈ (Run.read buffer start).links, link.target = target := by
  rw [leads_iff read]
  simp only [mem_links_iff read]
  constructor
  · intro hexists
    obtain ⟨branch, hbranch, htarget⟩ := hexists
    exact ⟨branch.link, ⟨branch, hbranch, rfl⟩, htarget⟩
  · intro hexists
    obtain ⟨_, ⟨branch, hbranch, rfl⟩, htarget⟩ := hexists
    exact ⟨branch, hbranch, htarget⟩

/-- The marks are those of the runs that were visited. -/
structure Records (buffer : Buffer) (visited waiting : List Nat) (listing : Listing) : Prop where
  kept : listing.Kept buffer
  reachable : ∀ run, Known visited waiting run → Reachable buffer run
  marked : ∀ position, listing.Marked position ↔ ∃ start ∈ visited, Touches buffer start position
  isStart : ∀ position, listing.isStart position ↔ ∃ start ∈ visited, Leads buffer start position

namespace Records

variable {visited rest starts : List Nat} {start : Nat}

theorem blank (buffer : Buffer) : Records buffer [] [0] (blank buffer.size) where
  kept := kept_blank buffer
  reachable := fun _ => reachable_of_known_root
  marked := fun position => iff_of_false (not_marked_blank _ _) (by simp)
  isStart := fun position => iff_of_false (isStart_blank _ _) (by simp)

theorem skip (h : Records buffer visited (start :: rest) listing) :
    Records buffer visited rest listing :=
  { h with reachable := fun other hother =>
      h.reachable other (hother.imp_right (List.mem_cons_of_mem start)) }

theorem visit (h : Records buffer visited (start :: rest) listing) {found : List Branch}
    (read : branches buffer start = .ok found) :
    Records buffer (start :: visited) ((found.foldl (note buffer) (listing, [])).2 ++ rest)
      (found.foldl (note buffer) (listing, [])).1 := by
  obtain ⟨hkept, hmarked, hisStart⟩ := h.kept.foldl_note fun branch => sound_of_mem read
  refine ⟨hkept, fun run => ?_, fun position => ?_, fun position => ?_⟩
  · exact reachable_of_known_visit h.reachable read (exists_branch_of_met found)
  · rw [hmarked, h.marked, List.exists_mem_cons_iff, touches_iff read, or_comm]
  · rw [hisStart, h.isStart, List.exists_mem_cons_iff, leads_iff read, or_comm]

theorem exists_fill {waiting : List Nat} (h : Records buffer visited waiting listing)
    (readable : ∀ start, Reachable buffer start → ∃ found, branches buffer start = .ok found) :
    ∃ shown all, fill buffer waiting listing = .ok shown ∧ Records buffer all [] shown := by
  fun_induction fill buffer waiting listing generalizing visited with
  | case1 listing => exact ⟨listing, visited, rfl, h⟩
  | case2 listing start rest hmarked _ ih => exact ih h.skip
  | case3 listing start rest hmarked error herror =>
      obtain ⟨found, hfound⟩ := readable start (h.reachable start (.inr List.mem_cons_self))
      cases hfound.symm.trans herror
  | case4 listing start rest hmarked found read noted starts hnote _ ih =>
      have hvisit := h.visit read
      rw [hnote] at hvisit
      exact ih hvisit

end Records

/-- The walk has met all that the visited runs lead to, and no fault behind them is lost. -/
structure Follows (buffer : Buffer) (visited waiting : List Nat) (listing : Listing) : Prop
    extends Records buffer visited waiting listing where
  root : Known visited waiting 0
  next : ∀ start ∈ visited, ∀ found, branches buffer start = .ok found → ∀ branch ∈ found,
    ∀ next ∈ branch.start?, next ∈ visited ∨ Awaited waiting branch.link.target next
  tracked : ∀ start ∈ visited, Tracked buffer waiting start

namespace Follows

variable {visited rest : List Nat} {start : Nat}

theorem blank (buffer : Buffer) : Follows buffer [] [0] (blank buffer.size) :=
  { Records.blank buffer with
    root := known_root
    next := nofun
    tracked := nofun }

/-- A run that has a mark already was visited, if no other run is read from its first byte. -/
theorem mem_visited (h : Follows buffer visited (start :: rest) listing)
    (apart : StartsApart buffer) (marked : listing.Marked start) : start ∈ visited := by
  obtain ⟨other, hother, htouches⟩ := (h.marked start).mp marked
  cases apart start other (h.reachable start (.inr List.mem_cons_self))
    (h.reachable other (.inl hother)) htouches
  exact hother

theorem skip (h : Follows buffer visited (start :: rest) listing) (mem : start ∈ visited) :
    fault buffer start = none ∧ Follows buffer visited rest listing := by
  have hnone := (h.tracked start mem).fault_eq_none (Nat.le_refl start)
  refine ⟨hnone, { h.toRecords.skip with root := h.root.skip mem, next := ?_, tracked := ?_ }⟩
  · intro run hrun found read branch hbranch next hnext
    rcases h.next run hrun found read branch hbranch next hnext with hvisited | hawaited
    · exact .inl hvisited
    · rcases hawaited.step (List.forall_mem_nil _) with rfl | hrest
      · exact .inl mem
      · exact .inr hrest
  · intro run hrun
    exact (h.tracked run hrun).step (List.forall_mem_nil _) hnone.symm

/-- What a label leads to has been visited if the label has been met: it would be the next one to
be visited otherwise. -/
theorem seen (h : Follows buffer visited (start :: rest) listing) {found : List Branch}
    (read : branches buffer start = .ok found) :
    ∀ branch ∈ found, listing.isStart branch.link.target →
      ∀ next ∈ branch.start?, next ∈ visited ∧ fault buffer next = none := by
  intro branch hbranch hseen next hnext
  have hsound := sound_of_mem read hbranch
  obtain ⟨hposition, _, _, hforward, _⟩ := branch_bounds read hbranch
  obtain ⟨run, hrun, others, hothers, other, hother, hsame⟩ := (h.isStart _).mp hseen
  have hstart := (sound_of_mem hothers hother).start?_eq_of_target hsound hsame
  rcases h.next run hrun others hothers other hother next (hstart ▸ hnext) with hvisited | hawaited
  · have hbehind := (hsound.isRead.start?_eq hnext).2
    exact ⟨hvisited, (h.tracked next hvisited).fault_eq_none (by omega)⟩
  · have := hawaited.lt
    omega

theorem visit (h : Follows buffer visited (start :: rest) listing) {found : List Branch}
    (read : branches buffer start = .ok found) :
    (found.foldl (note buffer) (listing, [])).2.findSome? (fault buffer) = fault buffer start ∧
      Follows buffer (start :: visited) ((found.foldl (note buffer) (listing, [])).2 ++ rest)
        (found.foldl (note buffer) (listing, [])).1 := by
  have hsound : ∀ branch ∈ found, branch.Sound buffer := fun branch => sound_of_mem read
  have htargets := branches_targets read
  have hbehind : ∀ next ∈ (found.foldl (note buffer) (listing, [])).2, start < next := by
    intro next hnext
    obtain ⟨branch, hbranch, hstart⟩ := exists_branch_of_met found next hnext
    exact (branches_start read hbranch hstart).1
  have hfault : (found.foldl (note buffer) (listing, [])).2.findSome? (fault buffer) =
      fault buffer start := by
    rw [fault_eq read]
    exact findSome?_foldl_note h.kept hsound htargets fun branch hbranch hseen next hnext =>
      (h.seen read branch hbranch hseen next hnext).2
  refine ⟨hfault, { h.toRecords.visit read with root := h.root.visit _, next := ?_, tracked := ?_ }⟩
  · intro run hrun others hothers branch hbranch next hnext
    rcases List.mem_cons.mp hrun with rfl | hrun
    · cases hothers.symm.trans read
      rcases awaited_foldl_note h.kept hsound htargets branch hbranch next hnext with hseen | hawaited
      · exact .inl (List.mem_cons_of_mem _ (h.seen read branch hbranch hseen next hnext).1)
      · exact .inr hawaited.append
    · rcases h.next run hrun others hothers branch hbranch next hnext with hvisited | hawaited
      · exact .inl (List.mem_cons_of_mem start hvisited)
      · rcases hawaited.step hbehind with rfl | hawaited
        · exact .inl List.mem_cons_self
        · exact .inr hawaited
  · intro run hrun
    rcases List.mem_cons.mp hrun with rfl | hrun
    · exact .self hbehind hfault
    · exact (h.tracked run hrun).step hbehind hfault

/-- The walk fails with the first fault behind the runs that wait, or follows them all. -/
theorem fill {waiting : List Nat} (h : Follows buffer visited waiting listing)
    (apart : StartsApart buffer) :
    (∀ error, fill buffer waiting listing = .error error ↔
      waiting.findSome? (fault buffer) = some error) ∧
    ∀ shown, Listing.fill buffer waiting listing = .ok shown →
      ∃ all, Follows buffer all [] shown := by
  fun_induction Listing.fill buffer waiting listing generalizing visited with
  | case1 listing =>
      refine ⟨by simp, fun shown hshown => ?_⟩
      cases hshown
      exact ⟨visited, h⟩
  | case2 listing start rest hmarked _ ih =>
      obtain ⟨hnone, hskip⟩ := h.skip (h.mem_visited apart hmarked)
      rw [List.findSome?_cons, hnone]
      exact ih hskip
  | case3 listing start rest hmarked error herror =>
      rw [List.findSome?_cons, fault_of_error herror]
      exact ⟨by simp, nofun⟩
  | case4 listing start rest hmarked found read noted starts hnote _ ih =>
      obtain ⟨hfault, hvisit⟩ := h.visit read
      rw [hnote] at hfault hvisit
      -- The fault of the run is the first one behind the runs that take its place.
      have hsplit : (start :: rest).findSome? (fault buffer) =
          (starts ++ rest).findSome? (fault buffer) := by
        rw [List.findSome?_append, hfault, List.findSome?_cons]
        cases fault buffer start <;> rfl
      rw [hsplit]
      exact ih hvisit

theorem mem_iff {all : List Nat} (h : Follows buffer all [] listing) (start : Nat) :
    start ∈ all ↔ Reachable buffer start := by
  refine ⟨fun hmem => h.reachable start (.inl hmem), fun hreachable => ?_⟩
  refine hreachable.mem_of_closed (h.root.resolve_right List.not_mem_nil) fun run hrun => ?_
  obtain ⟨above, ⟨hinitial, _⟩, hfault⟩ := h.tracked run hrun
  cases List.prefix_nil.mp hinitial
  cases read : branches buffer run with
  | error error => cases (fault_of_error read).symm.trans hfault
  | ok found =>
      refine ⟨found, rfl, fun branch hbranch next hnext => ?_⟩
      refine (h.next run hrun found read branch hbranch next hnext).resolve_right ?_
      rintro ⟨above, ⟨hinitial, _⟩, hnext⟩
      cases List.prefix_nil.mp hinitial
      cases hnext

end Follows

theorem fill_skip {start : Nat} (marked : listing.Marked start) (rest : List Nat) :
    fill buffer (start :: rest) listing = fill buffer rest listing := by
  rw [Marked] at marked
  rw [fill, if_pos marked]

theorem fill_visit {start : Nat} (unmarked : ¬ listing.Marked start) {found : List Branch}
    (read : branches buffer start = .ok found) (rest : List Nat) :
    fill buffer (start :: rest) listing =
      fill buffer ((found.foldl (note buffer) (listing, [])).2 ++ rest)
        (found.foldl (note buffer) (listing, [])).1 := by
  rw [Marked] at unmarked
  rw [fill, if_neg unmarked]
  split
  · rename_i error herror
    cases herror.symm.trans read
  · rename_i others hothers
    cases hothers.symm.trans read
    rfl

theorem ofBuffer_eq (nonempty : ¬ buffer.isEmpty) :
    ofBuffer buffer = fill buffer [0] (blank buffer.size) :=
  if_neg nonempty

end Listing

end Lexicon.Packed
