import Lexicon.Packed.Entries
import Lexicon.Proofs.Packed.Label
import Lexicon.Proofs.Packed.Run
import Mathlib.Data.List.Nodup
import Mathlib.Data.List.Perm.Basic

namespace Lexicon

/-- The entry that is read when these letters were read before it. -/
def Entry.behind (letters : Word) (entry : Entry) : Entry :=
  ⟨letters ++ entry.word, entry.value⟩

theorem Entry.behind_nil : Entry.behind [] = id :=
  rfl

theorem Entry.behind_injective (letters : Word) : Function.Injective (Entry.behind letters) := by
  intro left right h
  cases left
  cases right
  simpa [Entry.behind] using h

namespace Packed

variable {buffer : Buffer}

/-! The branches of a run are its links, each with the label that it leads to. -/

def Branch.IsRead (buffer : Buffer) (branch : Branch) : Prop :=
  Spells buffer branch.link.target branch.label.letters branch.label.ending

theorem Branch.read_eq_ok_iff {link : Link} {branch : Branch} :
    Branch.read buffer link = .ok branch ↔ branch.link = link ∧ branch.IsRead buffer := by
  rw [Branch.read, bind_eq_ok, Branch.IsRead, ← Label.read_eq_ok_iff]
  constructor
  · intro hexists
    obtain ⟨label, hlabel, h⟩ := hexists
    cases h
    exact ⟨rfl, hlabel⟩
  · intro hboth
    obtain ⟨rfl, hlabel⟩ := hboth
    exact ⟨branch.label, hlabel, rfl⟩

theorem mapM_read_eq_ok_iff {links : List Link} {found : List Branch} :
    links.mapM (Branch.read buffer) = .ok found ↔
      found.map Branch.link = links ∧ ∀ branch ∈ found, branch.IsRead buffer := by
  induction links generalizing found with
  | nil =>
      constructor
      · rintro ⟨⟩
        exact ⟨rfl, nofun⟩
      · intro hboth
        obtain ⟨h, _⟩ := hboth
        cases List.map_eq_nil_iff.mp h
        rfl
  | cons link rest ih =>
      simp only [List.mapM_cons, bind_eq_ok, Branch.read_eq_ok_iff, ih]
      constructor
      · intro hexists
        obtain ⟨branch, ⟨rfl, hbranch⟩, others, ⟨rfl, hothers⟩, h⟩ := hexists
        cases h
        exact ⟨rfl, List.forall_mem_cons.mpr ⟨hbranch, hothers⟩⟩
      · intro hboth
        obtain ⟨h, hread⟩ := hboth
        obtain ⟨branch, others, rfl, rfl, rfl⟩ := List.map_eq_cons_iff.mp h
        obtain ⟨hbranch, hothers⟩ := List.forall_mem_cons.mp hread
        exact ⟨branch, ⟨rfl, hbranch⟩, others, ⟨rfl, hothers⟩, rfl⟩

theorem branches_eq_ok_iff {start : Nat} {found : List Branch} :
    branches buffer start = .ok found ↔
      (Run.read buffer start).error = none ∧
        found.map Branch.link = (Run.read buffer start).links ∧
        ∀ branch ∈ found, branch.IsRead buffer := by
  constructor
  · intro h
    obtain ⟨herror, hfound⟩ := branches_ok h
    exact ⟨herror, mapM_read_eq_ok_iff.mp hfound⟩
  · intro hboth
    obtain ⟨herror, hfound⟩ := hboth
    rw [branches, mapM_read_eq_ok_iff.mpr hfound, herror]
    rfl

theorem isRead_of_mem {start : Nat} {found : List Branch} (h : branches buffer start = .ok found)
    {branch : Branch} (hbranch : branch ∈ found) : branch.IsRead buffer :=
  (branches_eq_ok_iff.mp h).2.2 branch hbranch

theorem mem_links_iff {start : Nat} {found : List Branch} (h : branches buffer start = .ok found)
    {link : Link} : link ∈ (Run.read buffer start).links ↔ ∃ branch ∈ found, branch.link = link := by
  rw [← (branches_eq_ok_iff.mp h).2.1, List.mem_map]

theorem exists_isRead {links : List Link}
    (h : ∀ link ∈ links, ∃ letters ending, Spells buffer link.target letters ending) :
    ∃ found : List Branch, found.map Branch.link = links ∧ ∀ branch ∈ found, branch.IsRead buffer := by
  induction links with
  | nil => exact ⟨[], rfl, nofun⟩
  | cons link rest ih =>
      obtain ⟨⟨letters, ending, hspells⟩, hrest⟩ := List.forall_mem_cons.mp h
      obtain ⟨found, hlinks, hread⟩ := ih hrest
      refine ⟨⟨link, ⟨letters, ending⟩⟩ :: found, ?_, List.forall_mem_cons.mpr ⟨hspells, hread⟩⟩
      rw [List.map_cons, hlinks]

theorem exists_branches {start : Nat} (error : (Run.read buffer start).error = none)
    (h : ∀ link ∈ (Run.read buffer start).links, ∃ letters ending,
      Spells buffer link.target letters ending) :
    ∃ found, branches buffer start = .ok found := by
  obtain ⟨found, hfound⟩ := exists_isRead h
  exact ⟨found, branches_eq_ok_iff.mpr ⟨error, hfound⟩⟩

theorem Branch.start?_eq_some_iff {branch : Branch} {next : Nat} :
    branch.start? = some next ↔ branch.label.ending = .links next := by
  unfold Branch.start? Ending.start?
  split <;> simp_all

/-! The entries of a buffer, one for each path. -/

/-- What the paths from a run to the values behind it spell. -/
def paths (buffer : Buffer) (start : Nat) : List Entry :=
  match h : branches buffer start with
  | .error _ => []
  | .ok found =>
      found.attach.flatMap fun ⟨branch, hbranch⟩ =>
        match hending : branch.label.ending with
        | .value v => [⟨branch.label.letters, v⟩]
        | .links next =>
            have := branches_start h hbranch (Branch.start?_eq_some_iff.mpr hending)
            (paths buffer next).map (Entry.behind branch.label.letters)
termination_by buffer.size - start

def Branch.paths (buffer : Buffer) (branch : Branch) : List Entry :=
  match branch.label.ending with
  | .value v => [⟨branch.label.letters, v⟩]
  | .links next => (Packed.paths buffer next).map (Entry.behind branch.label.letters)

theorem paths_eq {start : Nat} {found : List Branch} (h : branches buffer start = .ok found) :
    paths buffer start = found.flatMap (Branch.paths buffer) := by
  rw [paths]
  split
  · simp_all
  · rename_i others hothers
    cases hothers.symm.trans h
    have hattach : found.attach.flatMap (fun branch => branch.1.paths buffer) =
        found.flatMap (Branch.paths buffer) := by
      rw [← List.flatMap_map, List.attach_map_subtype_val]
    rw [← hattach]
    apply congrArg (List.flatMap · found.attach)
    funext ⟨branch, hbranch⟩
    simp only [Branch.paths]
    split
    · rename_i hending
      rw [hending]
    · rename_i hending
      rw [hending]

theorem Branch.paths_of_value {branch : Branch} {v : UInt8} (h : branch.label.ending = .value v) :
    branch.paths buffer = [⟨branch.label.letters, v⟩] := by
  rw [Branch.paths, h]

theorem Branch.paths_of_links {branch : Branch} {next : Nat}
    (h : branch.label.ending = .links next) :
    branch.paths buffer = (Packed.paths buffer next).map (Entry.behind branch.label.letters) := by
  rw [Branch.paths, h]

/-- The branches of a run and of all runs behind it can be read and are like this. -/
inductive Throughout (buffer : Buffer) (P : List Branch → Prop) : Nat → Prop
  | run {start : Nat} {found : List Branch} (read : branches buffer start = .ok found)
      (holds : P found)
      (behind : ∀ branch ∈ found, ∀ next, branch.start? = some next → Throughout buffer P next) :
      Throughout buffer P start

/-! While the runs that wait are visited, no path to a value is lost or met twice. -/

/-- What the paths behind the runs that wait spell. -/
def waitingPaths (buffer : Buffer) (waiting : List (Nat × Word)) : List Entry :=
  waiting.flatMap fun (start, trail) => (paths buffer start).map (Entry.behind trail.reverse)

theorem waitingPaths_append (first second : List (Nat × Word)) :
    waitingPaths buffer (first ++ second) =
      waitingPaths buffer first ++ waitingPaths buffer second :=
  List.flatMap_append

theorem reverse_letters (branch : Branch) (trail : Word) :
    (branch.letters trail).reverse = trail.reverse ++ branch.label.letters := by
  simp [Branch.letters]

/-- A branch ends in an entry or goes on to a run. -/
theorem map_behind_branch_paths (trail : Word) (branch : Branch) :
    (branch.paths buffer).map (Entry.behind trail.reverse) =
      (branch.entry? trail).toList ++ waitingPaths buffer (branch.next? trail).toList := by
  cases h : branch.label.ending with
  | value v =>
      rw [Branch.paths_of_value h]
      simp [Branch.entry?, Branch.next?, Branch.start?, h, Ending.value?, Ending.start?,
        reverse_letters, waitingPaths, Entry.behind]
  | links next =>
      rw [Branch.paths_of_links h]
      simp [Branch.entry?, Branch.next?, Branch.start?, h, Ending.value?, Ending.start?,
        reverse_letters, waitingPaths, Entry.behind]

theorem map_behind_paths_perm {start : Nat} {found : List Branch}
    (h : branches buffer start = .ok found) (trail : Word) :
    ((paths buffer start).map (Entry.behind trail.reverse)).Perm
      (found.filterMap (Branch.entry? trail) ++
        waitingPaths buffer (found.filterMap (Branch.next? trail))) := by
  rw [paths_eq h, List.map_flatMap, funext (map_behind_branch_paths trail), waitingPaths,
    List.filterMap_eq_flatMap_toList, List.filterMap_eq_flatMap_toList, List.flatMap_assoc]
  exact (List.flatMap_append_perm found _ _).symm

theorem waitingPaths_cons_perm {start : Nat} {found : List Branch}
    (h : branches buffer start = .ok found) (trail : Word) (rest : List (Nat × Word)) :
    (waitingPaths buffer ((start, trail) :: rest)).Perm
      ((found.filterMap (Branch.entry? trail)).reverse ++
        waitingPaths buffer (nextTrails trail found ++ rest)) := by
  have hnext : (waitingPaths buffer (found.filterMap (Branch.next? trail))).Perm
      (waitingPaths buffer (nextTrails trail found)) :=
    (List.reverse_perm _).symm.flatMap_right _
  rw [waitingPaths_append, ← List.append_assoc]
  exact ((map_behind_paths_perm h trail).trans
    ((List.reverse_perm _).symm.append hnext)).append_right _

theorem collectEntries_perm {waiting : List (Nat × Word)} {before found : List Entry}
    (h : collectEntries buffer waiting before = .ok found) :
    found.Perm (waitingPaths buffer waiting ++ before) := by
  fun_induction collectEntries buffer waiting before with
  | case1 before =>
      cases h
      rfl
  | case2 => cases h
  | case3 before start trail rest branches hbranches _ ih =>
      apply (ih h).trans
      rw [← List.append_assoc]
      apply List.Perm.append_right
      exact List.perm_append_comm.trans (waitingPaths_cons_perm hbranches trail rest).symm

theorem exists_collectEntries {P : List Branch → Prop} {waiting : List (Nat × Word)}
    (h : ∀ item ∈ waiting, Throughout buffer P item.1) (before : List Entry) :
    ∃ found, collectEntries buffer waiting before = .ok found := by
  fun_induction collectEntries buffer waiting before with
  | case1 before => exact ⟨before, rfl⟩
  | case2 before start trail rest error herror =>
      cases h _ List.mem_cons_self with
      | run read => simp_all
  | case3 before start trail rest branches hbranches _ ih =>
      apply ih
      intro item hitem
      rcases List.mem_append.mp hitem with hnext | hrest
      · obtain ⟨branch, hbranch, hitem⟩ := List.mem_filterMap.mp (List.mem_reverse.mp hnext)
        obtain ⟨next, hstart, rfl⟩ := Option.map_eq_some_iff.mp hitem
        cases h _ List.mem_cons_self with
        | run read _ behind =>
            cases hbranches.symm.trans read
            exact behind branch hbranch next hstart
      · exact h item (List.mem_cons_of_mem _ hrest)

theorem waitingPaths_root : waitingPaths buffer [(0, [])] = paths buffer 0 := by
  simp [waitingPaths, Entry.behind_nil]

theorem ne_empty_of_branches {start : Nat} {found : List Branch}
    (h : branches buffer start = .ok found) : ¬ buffer.isEmpty := by
  intro hempty
  obtain ⟨herror, _⟩ := branches_ok h
  cases Array.isEmpty_iff.mp hempty
  have hnext : (Cursor.start start).next #[] =
      (some (.error (.truncated start)), ⟨none, start⟩) := by
    simp [Cursor.start, Cursor.next, Link.read, Offset.read?]
  rw [Run.read, Run.collect] at herror
  split at herror <;> simp_all

/-- The entries that are listed are all those that paths lead to, each as often as
there are paths to it. -/
theorem exists_entries {P : List Branch → Prop} (h : Throughout buffer P 0) :
    ∃ found, entries buffer = .ok (Entry.sort found) ∧ found.Perm (paths buffer 0) := by
  have hwaiting : ∀ item ∈ [(0, ([] : Word))], Throughout buffer P item.1 := by
    intro item hitem
    cases List.mem_singleton.mp hitem
    exact h
  obtain ⟨found, hfound⟩ := exists_collectEntries hwaiting []
  have hperm := collectEntries_perm hfound
  rw [List.append_nil, waitingPaths_root] at hperm
  refine ⟨found, ?_, hperm⟩
  cases h with
  | run read => rw [entries, if_neg (ne_empty_of_branches read), hfound]; rfl

/-! Where no two labels of a run begin in the same way, each path has its own word. -/

def Branch.first? (branch : Branch) : Option UInt8 :=
  branch.label.letters.head?

def DistinctFirst (found : List Branch) : Prop :=
  (found.map Branch.first?).Nodup

theorem Branch.IsRead.head?_of_mem_paths {branch : Branch} (h : branch.IsRead buffer)
    {entry : Entry} (hentry : entry ∈ branch.paths buffer) : entry.word.head? = branch.first? := by
  cases hending : branch.label.ending with
  | value v =>
      rw [Branch.paths_of_value hending] at hentry
      cases List.mem_singleton.mp hentry
      rfl
  | links next =>
      rw [Branch.paths_of_links hending] at hentry
      obtain ⟨rest, _, rfl⟩ := List.mem_map.mp hentry
      rw [Branch.IsRead, hending] at h
      exact List.head?_append_of_ne_nil _ h.letters_ne_nil

theorem nodup_flatMap_paths {found : List Branch} (read : ∀ branch ∈ found, branch.IsRead buffer)
    (distinct : DistinctFirst found) (nodup : ∀ branch ∈ found, (branch.paths buffer).Nodup) :
    (found.flatMap (Branch.paths buffer)).Nodup := by
  refine List.nodup_flatMap.mpr ⟨nodup, ?_⟩
  apply (List.pairwise_map.mp distinct).imp_of_mem
  intro left right hleft hright hne entry hmemLeft hmemRight
  apply hne
  rw [← (read left hleft).head?_of_mem_paths hmemLeft,
    (read right hright).head?_of_mem_paths hmemRight]

theorem Throughout.nodup_paths {start : Nat} (h : Throughout buffer DistinctFirst start) :
    (paths buffer start).Nodup := by
  induction h with
  | @run start found read distinct _ ih =>
      rw [paths_eq read]
      apply nodup_flatMap_paths (fun branch => isRead_of_mem read) distinct
      intro branch hbranch
      cases hending : branch.label.ending with
      | value v =>
          rw [Branch.paths_of_value hending]
          exact List.nodup_singleton _
      | links next =>
          rw [Branch.paths_of_links hending]
          exact (ih branch hbranch next (Branch.start?_eq_some_iff.mpr hending)).map
            (Entry.behind_injective _)

end Packed

end Lexicon
