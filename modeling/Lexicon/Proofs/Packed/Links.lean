import Lexicon.Packed.Links
import Lexicon.Proofs.Packed.Fault

namespace Lexicon.Packed

/-! The links of a buffer are those of its runs, each run taken once. -/

variable {buffer : Buffer}

theorem Reachable.le_size {start : Nat} (h : Reachable buffer start) : start ≤ buffer.size := by
  cases h with
  | root => exact Nat.zero_le _
  | behind _ read mem leads => exact (branches_start read mem leads).2

/-- The links that are gathered belong to the runs that were visited, whose branches lead to
runs that were visited or wait. -/
structure Gathers (buffer : Buffer) (seen waiting : List Nat) (visited : Array Bool)
    (links : List Link) : Prop where
  size : visited.size = buffer.size + 1
  visited : ∀ start, visited.getD start false ↔ start ∈ seen
  nodup : seen.Nodup
  reachable : ∀ run, Known seen waiting run → Reachable buffer run
  links : links.Perm (seen.flatMap fun start => (Run.read buffer start).links)
  root : Known seen waiting 0
  closed : ∀ start ∈ seen, ∃ found, branches buffer start = .ok found ∧
    ∀ branch ∈ found, ∀ next ∈ branch.start?, Known seen waiting next

namespace Gathers

variable {seen rest : List Nat} {visited : Array Bool} {links : List Link} {start : Nat}

theorem blank (buffer : Buffer) :
    Gathers buffer [] [0] (Array.replicate (buffer.size + 1) false) [] where
  size := Array.size_replicate
  visited := by
    intro start
    rw [Array.getD_eq_getD_getElem?, Array.getElem?_replicate]
    split <;> simp
  nodup := .nil
  reachable := fun _ => reachable_of_known_root
  links := .nil
  root := known_root
  closed := nofun

theorem skip (h : Gathers buffer seen (start :: rest) visited links) (mem : start ∈ seen) :
    Gathers buffer seen rest visited links := by
  refine { h with reachable := ?_, root := h.root.skip mem, closed := ?_ }
  · exact fun run hrun => h.reachable run (hrun.imp_right (List.mem_cons_of_mem start))
  · intro run hrun
    obtain ⟨found, read, hnext⟩ := h.closed run hrun
    exact ⟨found, read, fun branch hbranch next hstart =>
      (hnext branch hbranch next hstart).skip mem⟩

theorem visit (h : Gathers buffer seen (start :: rest) visited links) (new : start ∉ seen)
    {found : List Branch} (read : branches buffer start = .ok found) :
    Gathers buffer (start :: seen) (nextStarts found ++ rest) (visited.setIfInBounds start true)
      ((found.map Branch.link).reverse ++ links) := by
  refine ⟨?_, fun run => ?_, List.nodup_cons.mpr ⟨new, h.nodup⟩, fun run => ?_, ?_,
    h.root.visit _, ?_⟩
  · rw [Array.size_setIfInBounds, h.size]
  · have hlt : start < visited.size := by
      rw [h.size]
      exact Nat.lt_succ_of_le (h.reachable start (.inr List.mem_cons_self)).le_size
    have hvisited := h.visited run
    rw [Array.getD_eq_getD_getElem?] at hvisited ⊢
    rw [Array.getElem?_setIfInBounds, List.mem_cons]
    by_cases hsame : start = run
    · simp [hsame, hsame ▸ hlt]
    · simp [hsame, Ne.symm hsame, hvisited]
  · exact reachable_of_known_visit h.reachable read fun next => mem_nextStarts.mp
  · rw [List.flatMap_cons, ← (branches_eq_ok_iff.mp read).2.1]
    exact (List.reverse_perm _).append h.links
  · intro run hrun
    rcases List.mem_cons.mp hrun with rfl | hrun
    · exact ⟨found, read, fun branch hbranch next hnext =>
        .inr (List.mem_append_left rest (mem_nextStarts.mpr ⟨branch, hbranch, hnext⟩))⟩
    · obtain ⟨others, hothers, hnext⟩ := h.closed run hrun
      exact ⟨others, hothers, fun branch hbranch next hstart =>
        (hnext branch hbranch next hstart).visit _⟩

theorem exists_collectLinks {waiting : List Nat} (h : Gathers buffer seen waiting visited links)
    (readable : ∀ start, Reachable buffer start → ∃ found, branches buffer start = .ok found) :
    ∃ found all marks, collectLinks buffer waiting visited links = .ok found ∧
      Gathers buffer all [] marks found := by
  fun_induction collectLinks buffer waiting visited links generalizing seen with
  | case1 visited links => exact ⟨links, seen, visited, rfl, h⟩
  | case2 visited links start rest hvisited _ ih => exact ih (h.skip ((h.visited start).mp hvisited))
  | case3 visited links start rest hvisited error herror =>
      obtain ⟨found, hfound⟩ := readable start (h.reachable start (.inr List.mem_cons_self))
      cases hfound.symm.trans herror
  | case4 visited links start rest hvisited found read _ ih =>
      exact ih (h.visit (fun hseen => hvisited ((h.visited start).mpr hseen)) read)

theorem of_collectLinks {waiting : List Nat} {found : List Link}
    (h : Gathers buffer seen waiting visited links)
    (collected : collectLinks buffer waiting visited links = .ok found) :
    ∃ all marks, Gathers buffer all [] marks found := by
  fun_induction collectLinks buffer waiting visited links generalizing seen with
  | case1 visited links =>
      cases collected
      exact ⟨seen, visited, h⟩
  | case2 visited links start rest hvisited _ ih =>
      exact ih (h.skip ((h.visited start).mp hvisited)) collected
  | case3 => cases collected
  | case4 visited links start rest hvisited branches read _ ih =>
      exact ih (h.visit (fun hseen => hvisited ((h.visited start).mpr hseen)) read) collected

theorem mem_iff {all : List Nat} (h : Gathers buffer all [] visited links) (start : Nat) :
    start ∈ all ↔ Reachable buffer start := by
  refine ⟨fun hmem => h.reachable start (.inl hmem), fun hreachable => ?_⟩
  refine hreachable.mem_of_closed (h.root.resolve_right List.not_mem_nil) fun run hrun => ?_
  obtain ⟨found, read, hnext⟩ := h.closed run hrun
  exact ⟨found, read, fun branch hbranch next hstart =>
    (hnext branch hbranch next hstart).resolve_right List.not_mem_nil⟩

end Gathers

/-- Where the links can be listed, all runs have been read. -/
theorem readable_of_links {found : List Link} (h : links buffer = .ok found) {start : Nat}
    (reachable : Reachable buffer start) : ∃ found, branches buffer start = .ok found := by
  rw [links] at h
  split at h
  · cases h
  · cases hcollect : collectLinks buffer [0] (Array.replicate (buffer.size + 1) false) [] with
    | error error =>
        rw [hcollect] at h
        cases h
    | ok gathered =>
        obtain ⟨all, marks, gathers⟩ := (Gathers.blank buffer).of_collectLinks hcollect
        obtain ⟨found, read, _⟩ := gathers.closed start ((gathers.mem_iff start).mpr reachable)
        exact ⟨found, read⟩

/-- All links of all runs, sorted by where they are. -/
theorem exists_links (nonempty : ¬ buffer.isEmpty)
    (readable : ∀ start, Reachable buffer start → ∃ found, branches buffer start = .ok found) :
    ∃ (found : List Link) (starts : List Nat), links buffer = .ok found ∧ starts.Nodup ∧
      (∀ start, start ∈ starts ↔ Reachable buffer start) ∧
      found.Perm (starts.flatMap fun start => (Run.read buffer start).links) ∧
      found.Pairwise fun left right => left.position ≤ right.position := by
  obtain ⟨gathered, starts, marks, hcollect, gathers⟩ :=
    (Gathers.blank buffer).exists_collectLinks readable
  refine ⟨gathered.reverse.mergeSort fun left right => left.position ≤ right.position, starts, ?_,
    gathers.nodup, gathers.mem_iff, ?_, ?_⟩
  · rw [links, if_neg nonempty, hcollect]
    rfl
  · exact ((List.mergeSort_perm _ _).trans (List.reverse_perm _)).trans gathers.links
  · have hsorted : (gathered.reverse.mergeSort fun left right => left.position ≤ right.position).Pairwise
        fun left right => decide (left.position ≤ right.position) := by
      apply List.pairwise_mergeSort
      · simp only [decide_eq_true_eq]
        omega
      · simp only [Bool.or_eq_true, decide_eq_true_eq]
        omega
    simpa using hsorted

/-! Listing the links fails as listing the entries does. -/

theorem getD_visit {visited : Array Bool} {start run : Nat}
    (h : (visited.setIfInBounds start true).getD run false) :
    run = start ∨ visited.getD run false := by
  by_cases hsame : start = run
  · exact .inl hsame.symm
  · right
    rwa [Array.getD_eq_getD_getElem?, Array.getElem?_setIfInBounds_ne hsame,
      ← Array.getD_eq_getD_getElem?] at h

/-- A run that was visited is passed over without a loss, since all that is left to visit
behind it waits on top. -/
theorem collectLinks_eq_error_iff {waiting : List Nat} {visited : Array Bool} {before : List Link}
    {error : DecodeError}
    (tracked : ∀ run, visited.getD run false → Tracked buffer waiting run) :
    collectLinks buffer waiting visited before = .error error ↔
      waiting.findSome? (fault buffer) = some error := by
  fun_induction collectLinks buffer waiting visited before with
  | case1 => simp
  | case2 visited before start rest hvisited _ ih =>
      have hnone := (tracked start hvisited).fault_eq_none (Nat.le_refl start)
      rw [ih fun run hrun => (tracked run hrun).step (List.forall_mem_nil _) hnone.symm,
        List.findSome?_cons, hnone]
  | case3 visited before start rest hvisited other hother =>
      rw [List.findSome?_cons, fault_of_error hother]
      simp
  | case4 visited before start rest hvisited found read _ ih =>
      have hbehind : ∀ next ∈ nextStarts found, start < next :=
        fun next hnext => (nextStarts_bounds read hnext).1
      have hsame := (fault_eq read).symm
      rw [ih, List.findSome?_append, hsame, List.findSome?_cons]
      · cases fault buffer start <;> rfl
      · intro run hrun
        rcases getD_visit hrun with rfl | hrun
        · exact .self hbehind hsame
        · exact (tracked run hrun).step hbehind hsame

/-- The links of a buffer cannot be listed if and only if its entries cannot, and then for the
same fault. -/
theorem links_fail_as_entries (buffer : Buffer) (error : DecodeError) :
    links buffer = .error error ↔ entries buffer = .error error := by
  have hcollect : collectLinks buffer [0] (Array.replicate (buffer.size + 1) false) [] =
      .error error ↔ fault buffer 0 = some error := by
    rw [← List.findSome?_singleton (f := fault buffer)]
    apply collectLinks_eq_error_iff
    intro run hrun
    cases ((Gathers.blank buffer).visited run).mp hrun
  rw [entries_eq_error_iff, ← hcollect, links]
  split
  · simp [eq_comm]
  · cases collectLinks buffer [0] (Array.replicate (buffer.size + 1) false) [] <;>
      simp [Except.map]

end Lexicon.Packed
