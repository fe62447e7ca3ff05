import Lexicon.Proofs.Packed.Paths

namespace Lexicon.Packed

/-! The runs that are met on the ways from the root. -/

variable {buffer : Buffer}

/-- A run leads on to those behind its labels, once all of it can be read. -/
inductive Reachable (buffer : Buffer) : Nat → Prop
  | root : Reachable buffer 0
  | behind {start next : Nat} {found : List Branch} {branch : Branch}
      (reachable : Reachable buffer start) (read : branches buffer start = .ok found)
      (mem : branch ∈ found) (leads : branch.start? = some next) : Reachable buffer next

theorem mem_nextStarts {found : List Branch} {next : Nat} :
    next ∈ nextStarts found ↔ ∃ branch ∈ found, branch.start? = some next := by
  simp [nextStarts]

theorem Reachable.mem_of_closed {start : Nat} {starts : List Nat} (h : Reachable buffer start)
    (root : 0 ∈ starts)
    (closed : ∀ run ∈ starts, ∃ found, branches buffer run = .ok found ∧
      ∀ branch ∈ found, ∀ next ∈ branch.start?, next ∈ starts) : start ∈ starts := by
  induction h with
  | root => exact root
  | @behind run next found branch _ read mem leads ih =>
      obtain ⟨others, hothers, hclosed⟩ := closed run ih
      cases hothers.symm.trans read
      exact hclosed branch mem next leads

/-- A walk over the runs has visited this one or will do so. -/
def Known (visited waiting : List Nat) (run : Nat) : Prop :=
  run ∈ visited ∨ run ∈ waiting

theorem known_root : Known [] [0] 0 :=
  .inr List.mem_cons_self

namespace Known

variable {visited rest : List Nat} {start run : Nat}

theorem skip (h : Known visited (start :: rest) run) (mem : start ∈ visited) :
    Known visited rest run := by
  rcases h with hvisited | hwaiting
  · exact .inl hvisited
  · rcases List.mem_cons.mp hwaiting with rfl | hrest
    · exact .inl mem
    · exact .inr hrest

theorem visit (h : Known visited (start :: rest) run) (nexts : List Nat) :
    Known (start :: visited) (nexts ++ rest) run := by
  rcases h with hvisited | hwaiting
  · exact .inl (List.mem_cons_of_mem start hvisited)
  · rcases List.mem_cons.mp hwaiting with rfl | hrest
    · exact .inl List.mem_cons_self
    · exact .inr (List.mem_append_right nexts hrest)

end Known

theorem reachable_of_known_root {run : Nat} (h : Known [] [0] run) : Reachable buffer run := by
  rcases h with hvisited | hwaiting
  · cases hvisited
  · cases List.mem_singleton.mp hwaiting
    exact .root

/-- All runs that a walk knows are reachable, after a visit as well. -/
theorem reachable_of_known_visit {visited rest nexts : List Nat} {start : Nat}
    {found : List Branch} (reachable : ∀ run, Known visited (start :: rest) run → Reachable buffer run)
    (read : branches buffer start = .ok found)
    (met : ∀ next ∈ nexts, ∃ branch ∈ found, branch.start? = some next) {run : Nat}
    (h : Known (start :: visited) (nexts ++ rest) run) : Reachable buffer run := by
  have hstart := reachable start (.inr List.mem_cons_self)
  rcases h with hvisited | hwaiting
  · rcases List.mem_cons.mp hvisited with rfl | hvisited
    · exact hstart
    · exact reachable run (.inl hvisited)
  · rcases List.mem_append.mp hwaiting with hnext | hrest
    · obtain ⟨branch, hbranch, hleads⟩ := met run hnext
      exact hstart.behind read hbranch hleads
    · exact reachable run (.inr (List.mem_cons_of_mem start hrest))

theorem Throughout.of_reachable {P : List Branch → Prop} {start : Nat}
    (h : Throughout buffer P 0) (reachable : Reachable buffer start) :
    Throughout buffer P start := by
  induction reachable with
  | root => exact h
  | behind _ read mem leads ih =>
      cases ih with
      | run others _ behind =>
          cases others.symm.trans read
          exact behind _ mem _ leads

theorem Throughout.exists_branches {P : List Branch → Prop} {start : Nat}
    (h : Throughout buffer P start) : ∃ found, branches buffer start = .ok found ∧ P found := by
  cases h with
  | run read holds _ => exact ⟨_, read, holds⟩

/-- What holds of every run that is reachable holds throughout. -/
theorem Throughout.imp {P Q : List Branch → Prop} {start : Nat} (h : Throughout buffer P start)
    (reachable : Reachable buffer start)
    (holds : ∀ run found, Reachable buffer run → branches buffer run = .ok found → Q found) :
    Throughout buffer Q start := by
  induction h with
  | @run start found read _ _ ih =>
      apply Throughout.run read (holds start found reachable read)
      intro branch hbranch next hnext
      exact ih branch hbranch next hnext (reachable.behind read hbranch hnext)

/-! Where the entries can be listed, all runs have been read. -/

theorem collectEntries_cons {start : Nat} {found : List Branch}
    (read : branches buffer start = .ok found) (trail : Word) (rest : List (Nat × Word))
    (before : List Entry) :
    collectEntries buffer ((start, trail) :: rest) before =
      collectEntries buffer (nextTrails trail found ++ rest)
        ((found.filterMap (Branch.entry? trail)).reverse ++ before) := by
  rw [collectEntries]
  split
  · rename_i error herror
    cases herror.symm.trans read
  · rename_i others hothers
    cases hothers.symm.trans read
    rfl

theorem throughout_of_collectEntries {waiting : List (Nat × Word)} {before found : List Entry}
    (h : collectEntries buffer waiting before = .ok found) :
    ∀ item ∈ waiting, Throughout buffer (fun _ => True) item.1 := by
  fun_induction collectEntries buffer waiting before with
  | case1 => exact List.forall_mem_nil _
  | case2 => cases h
  | case3 before start trail rest branches hbranches _ ih =>
      have hnext := ih h
      intro item hitem
      rcases List.mem_cons.mp hitem with rfl | hrest
      · apply Throughout.run hbranches trivial
        intro branch hbranch next hstart
        apply hnext (next, branch.letters trail)
        apply List.mem_append_left
        apply List.mem_reverse.mpr
        exact List.mem_filterMap.mpr ⟨branch, hbranch, by rw [Branch.next?, hstart]; rfl⟩
      · exact hnext item (List.mem_append_right _ hrest)

theorem throughout_of_entries {found : List Entry} (h : entries buffer = .ok found) :
    Throughout buffer (fun _ => True) 0 := by
  rw [entries] at h
  split at h
  · cases h
  · cases hcollect : collectEntries buffer [(0, [])] [] with
    | error error =>
        rw [hcollect] at h
        cases h
    | ok listed => exact throughout_of_collectEntries hcollect (0, []) List.mem_cons_self

theorem mem_entries_iff {found : List Entry} (h : entries buffer = .ok found) (entry : Entry) :
    entry ∈ found ↔ entry ∈ paths buffer 0 := by
  obtain ⟨listed, hlisted, hperm⟩ := exists_entries (throughout_of_entries h)
  cases hlisted.symm.trans h
  rw [(Entry.sort_perm listed).mem_iff, hperm.mem_iff]

/-! The words of entries are printable, whatever the buffer. -/

theorem Spells.all_isPrintable {position : Nat} {letters : Word} {ending : Ending}
    (h : Spells buffer position letters ending) : letters.all isPrintable := by
  induction h with
  | value => rfl
  | endChar _ _ printable => simp [printable]
  | char _ _ printable _ ih => simp [printable, ih]

theorem Throughout.all_isPrintable {P : List Branch → Prop} {start : Nat}
    (h : Throughout buffer P start) {entry : Entry} (hentry : entry ∈ paths buffer start) :
    entry.word.all isPrintable := by
  induction h generalizing entry with
  | @run start found read _ _ ih =>
      rw [paths_eq read] at hentry
      obtain ⟨branch, hbranch, hmem⟩ := List.mem_flatMap.mp hentry
      have hletters := (isRead_of_mem read hbranch).all_isPrintable
      cases hending : branch.label.ending with
      | value v =>
          rw [Branch.paths_of_value hending] at hmem
          cases List.mem_singleton.mp hmem
          exact hletters
      | links next =>
          rw [Branch.paths_of_links hending] at hmem
          obtain ⟨rest, hrest, rfl⟩ := List.mem_map.mp hmem
          have hwords := ih branch hbranch next (Branch.start?_eq_some_iff.mpr hending) hrest
          rw [Entry.behind, List.all_append, hletters, hwords]
          rfl

end Lexicon.Packed
