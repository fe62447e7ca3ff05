import Lexicon.Proofs.Packed.Grammar
import Mathlib.Data.List.Perm.Basic

namespace Lexicon.Packed.Grammar

/-! The entries of a buffer that is as it has to be. -/

variable {buffer : Buffer} {start : Nat} {found : List Branch}

/-- The branches of a run are its links with their labels. -/
theorem exists_branch_iff (read : branches buffer start = .ok found) {position : Nat}
    {letters : Word} {ending : Ending} :
    (∃ target, LinkFrom buffer start start position target ∧ LabelAt buffer target letters ending) ↔
      ∃ branch ∈ found, branch.link.position = position ∧ branch.label = ⟨letters, ending⟩ := by
  constructor
  · intro h
    obtain ⟨target, hlink, hlabel⟩ := h
    obtain ⟨branch, hbranch, hposition, rfl⟩ := (linkFrom_iff_exists_branch read).mp hlink
    obtain ⟨hletters, hending⟩ := (isRead_of_mem read hbranch).unique hlabel.spells
    exact ⟨branch, hbranch, hposition, by rw [← hletters, ← hending]⟩
  · intro h
    obtain ⟨branch, hbranch, hposition, hlabel⟩ := h
    have hread := isRead_of_mem read hbranch
    rw [Branch.IsRead, hlabel] at hread
    have hlink := (linkFrom_iff_exists_branch read).mpr ⟨branch, hbranch, hposition, rfl⟩
    exact ⟨branch.link.target, hlink, labelAt_of_spells hread⟩

theorem met_behind (read : branches buffer start = .ok found) (met : Met buffer start)
    {branch : Branch} (hbranch : branch ∈ found) {next : Nat} (hnext : branch.start? = some next) :
    Met buffer next := by
  have hending := Branch.start?_eq_some_iff.mp hnext
  obtain ⟨target, hlink, hlabel⟩ := (exists_branch_iff read).mpr ⟨branch, hbranch, rfl, rfl⟩
  rw [hending] at hlabel
  exact met.behind hlink hlabel

theorem Met.throughout (h : Met buffer start) {P : List Branch → Prop}
    (throughout : Throughout buffer P 0) : Throughout buffer P start := by
  induction h with
  | root => exact throughout
  | @behind start position target next letters _ link label ih =>
      cases ih with
      | run read _ behind =>
          obtain ⟨branch, hbranch, _, hlabel⟩ := (exists_branch_iff read).mp ⟨target, link, label⟩
          exact behind branch hbranch next (Branch.start?_eq_some_iff.mpr (by rw [hlabel]))

theorem Accepts.throughout (accepts : Accepts buffer) (met : Met buffer start) :
    Throughout buffer (fun _ => True) start := by
  induction hroom : buffer.size - start using Nat.strongRecOn generalizing start with
  | ind room ih =>
      obtain ⟨found, read⟩ := exists_branches_iff.mpr (accepts.sound start met)
      apply Throughout.run read trivial
      intro branch hbranch next hnext
      -- A run behind another one begins later in the buffer.
      have hbounds := branches_start read hbranch hnext
      exact ih (buffer.size - next) (by omega) (met_behind read met hbranch hnext) rfl

theorem accepts_iff_throughout : Accepts buffer ↔ Throughout buffer (fun _ => True) 0 := by
  constructor
  · exact fun accepts => accepts.throughout .root
  · intro throughout
    constructor
    · obtain ⟨found, read, _⟩ := throughout.exists_branches
      apply Array.size_pos_iff.mpr
      exact fun hnil => ne_empty_of_branches read (Array.isEmpty_iff.mpr hnil)
    · intro start met
      obtain ⟨found, read, _⟩ := (met.throughout throughout).exists_branches
      exact exists_branches_iff.mp ⟨found, read⟩

/-! The ways from a run to the values behind it. -/

/-- These links, each known by its position, lead from a run to a value, and this is what the
labels on the way spell. -/
inductive Path (buffer : Buffer) : Nat → List Nat → Entry → Prop
  | value {start position target : Nat} {letters : Word} {v : UInt8}
      (link : LinkFrom buffer start start position target)
      (label : LabelAt buffer target letters (.value v)) : Path buffer start [position] ⟨letters, v⟩
  | links {start position target next : Nat} {letters : Word} {route : List Nat} {entry : Entry}
      (link : LinkFrom buffer start start position target)
      (label : LabelAt buffer target letters (.links next)) (rest : Path buffer next route entry) :
      Path buffer start (position :: route) (entry.behind letters)

/-- With each entry stands a route that spells it, and these are all routes, each of them once. -/
structure Lists (spells : List Nat → Entry → Prop) (listed : List (List Nat × Entry))
    (entries : List Entry) : Prop where
  nodup : (listed.map Prod.fst).Nodup
  mem_iff : ∀ route entry, (route, entry) ∈ listed ↔ spells route entry
  spelled : listed.map Prod.snd = entries

/-- The paths that begin with the link of this branch. -/
inductive Way (buffer : Buffer) (branch : Branch) : List Nat → Entry → Prop
  | value {letters : Word} {v : UInt8} (label : branch.label = ⟨letters, .value v⟩) :
      Way buffer branch [branch.link.position] ⟨letters, v⟩
  | links {letters : Word} {next : Nat} {route : List Nat} {entry : Entry}
      (label : branch.label = ⟨letters, .links next⟩) (rest : Path buffer next route entry) :
      Way buffer branch (branch.link.position :: route) (entry.behind letters)

theorem path_iff (read : branches buffer start = .ok found) {route : List Nat} {entry : Entry} :
    Path buffer start route entry ↔ ∃ branch ∈ found, Way buffer branch route entry := by
  constructor
  · intro h
    cases h with
    | value link label =>
        obtain ⟨branch, hbranch, rfl, hlabel⟩ := (exists_branch_iff read).mp ⟨_, link, label⟩
        exact ⟨branch, hbranch, .value hlabel⟩
    | links link label rest =>
        obtain ⟨branch, hbranch, rfl, hlabel⟩ := (exists_branch_iff read).mp ⟨_, link, label⟩
        exact ⟨branch, hbranch, .links hlabel rest⟩
  · intro h
    obtain ⟨branch, hbranch, way⟩ := h
    cases way with
    | value hlabel =>
        obtain ⟨target, link, label⟩ := (exists_branch_iff read).mpr ⟨branch, hbranch, rfl, hlabel⟩
        exact .value link label
    | links hlabel rest =>
        obtain ⟨target, link, label⟩ := (exists_branch_iff read).mpr ⟨branch, hbranch, rfl, hlabel⟩
        exact .links link label rest

theorem Way.head?_eq {branch : Branch} {route : List Nat} {entry : Entry}
    (h : Way buffer branch route entry) : route.head? = some branch.link.position := by
  cases h <;> rfl

theorem lists_value {branch : Branch} {letters : Word} {v : UInt8}
    (label : branch.label = ⟨letters, .value v⟩) :
    Lists (Way buffer branch) [([branch.link.position], ⟨letters, v⟩)] (branch.paths buffer) := by
  refine ⟨List.nodup_singleton _, fun route entry => ?_, ?_⟩
  · rw [List.mem_singleton, Prod.mk.injEq]
    constructor
    · rintro ⟨rfl, rfl⟩
      exact .value label
    · intro way
      cases way with
      | value other =>
          cases label.symm.trans other
          exact ⟨rfl, rfl⟩
      | links other => cases label.symm.trans other
  · rw [Branch.paths_of_value (by rw [label]), label]
    rfl

/-- A route behind a branch and what it spells, with the branch in front of both. -/
def onward (branch : Branch) : List Nat × Entry → List Nat × Entry :=
  Prod.map (branch.link.position :: ·) (Entry.behind branch.label.letters)

theorem lists_links {branch : Branch} {letters : Word} {next : Nat}
    (label : branch.label = ⟨letters, .links next⟩) {listed : List (List Nat × Entry)}
    (behind : Lists (Path buffer next) listed (paths buffer next)) :
    Lists (Way buffer branch) (listed.map (onward branch)) (branch.paths buffer) := by
  refine ⟨?_, fun route entry => ?_, ?_⟩
  · have hroutes : (listed.map (onward branch)).map Prod.fst =
        (listed.map Prod.fst).map (branch.link.position :: ·) := by
      simp only [List.map_map]
      rfl
    rw [hroutes]
    exact behind.nodup.map List.cons_injective
  · rw [List.mem_map]
    constructor
    · rintro ⟨⟨rest, other⟩, hrest, hsame⟩
      cases hsame
      rw [label]
      exact .links label ((behind.mem_iff rest other).mp hrest)
    · intro way
      cases way with
      | value other => cases label.symm.trans other
      | @links _ _ rest entry other path =>
          cases label.symm.trans other
          refine ⟨(rest, entry), (behind.mem_iff rest entry).mpr path, ?_⟩
          rw [onward, Prod.map_apply, label]
  · rw [Branch.paths_of_links (by rw [label]), ← behind.spelled, List.map_map, List.map_map]
    rfl

theorem lists_flatMap (read : branches buffer start = .ok found)
    {listedOf : Branch → List (List Nat × Entry)}
    (lists : ∀ branch ∈ found, Lists (Way buffer branch) (listedOf branch) (branch.paths buffer)) :
    Lists (Path buffer start) (found.flatMap listedOf) (paths buffer start) := by
  refine ⟨?_, fun route entry => ?_, ?_⟩
  · rw [List.map_flatMap]
    refine List.nodup_flatMap.mpr ⟨fun branch hbranch => (lists branch hbranch).nodup, ?_⟩
    -- Routes of different branches begin at different positions.
    obtain ⟨_, hlinks, _⟩ := branches_eq_ok_iff.mp read
    obtain ⟨stop, htiles, _⟩ := (Run.reads_read buffer start).exists_tiles
    rw [← hlinks] at htiles
    have hhead {branch : Branch} (hbranch : branch ∈ found) {route : List Nat}
        (hroute : route ∈ (listedOf branch).map Prod.fst) :
        route.head? = some branch.link.position := by
      obtain ⟨⟨_, entry⟩, hlisted, rfl⟩ := List.mem_map.mp hroute
      exact (((lists branch hbranch).mem_iff _ entry).mp hlisted).head?_eq
    have hwidth (branch : Branch) (hbranch : branch ∈ found) : 0 < branch.link.width :=
      (htiles.bounds branch.link (List.mem_map_of_mem hbranch)).2.1
    apply (List.pairwise_map.mp htiles.pairwise).imp_of_mem
    intro left right hleft hright hbehind route hrouteLeft hrouteRight
    have hsame : left.link.position = right.link.position :=
      Option.some.inj ((hhead hleft hrouteLeft).symm.trans (hhead hright hrouteRight))
    have := hwidth left hleft
    omega
  · rw [path_iff read, List.mem_flatMap]
    exact exists_congr fun branch => and_congr_right fun hbranch =>
      (lists branch hbranch).mem_iff route entry
  · rw [List.map_flatMap, paths_eq read]
    exact List.flatMap_congr fun branch hbranch => (lists branch hbranch).spelled

theorem exists_lists {P : List Branch → Prop} (h : Throughout buffer P start) :
    ∃ listed, Lists (Path buffer start) listed (paths buffer start) := by
  induction h with
  | @run start found read _ _ ih =>
      have hbranch (branch : Branch) : ∃ listed, branch ∈ found →
          Lists (Way buffer branch) listed (branch.paths buffer) := by
        by_cases hmem : branch ∈ found
        · obtain ⟨link, letters, ending⟩ := branch
          cases ending with
          | value v => exact ⟨_, fun _ => lists_value rfl⟩
          | links next =>
              obtain ⟨listed, behind⟩ := ih _ hmem next (Branch.start?_eq_some_iff.mpr rfl)
              exact ⟨_, fun _ => lists_links rfl behind⟩
        · exact ⟨[], fun h => absurd h hmem⟩
      choose listedOf hlists using hbranch
      exact ⟨_, lists_flatMap read hlists⟩

/-- All that paths from the root to a value spell, in order, with one element for each path. -/
structure Enumerates (buffer : Buffer) (found : List Entry) : Prop where
  sorted : found.Pairwise fun left right =>
    left.word < right.word ∨ left.word = right.word ∧ left.value ≤ right.value
  lists : ∃ listed, Lists (Path buffer 0) listed found

theorem Lists.exists_of_perm {spells : List Nat → Entry → Prop} {listed : List (List Nat × Entry)}
    {entries others : List Entry} (h : Lists spells listed entries) (perm : others.Perm entries) :
    ∃ relisted, Lists spells relisted others := by
  rw [← h.spelled] at perm
  obtain ⟨relisted, rfl, hperm⟩ :=
    (congrFun₂ (List.eq_map_comp_perm Prod.snd) others listed).mpr perm
  refine ⟨relisted, (hperm.map Prod.fst).nodup_iff.mpr h.nodup, fun route entry => ?_, rfl⟩
  rw [hperm.mem_iff, h.mem_iff]

/-- A buffer has entries if and only if it is as the grammar demands, and these are then what
its paths spell. -/
theorem entries_exact (buffer : Buffer) :
    ((∃ found, entries buffer = .ok found) ↔ Accepts buffer) ∧
      ∀ found, entries buffer = .ok found → Enumerates buffer found := by
  constructor
  · rw [accepts_iff_throughout]
    constructor
    · intro h
      obtain ⟨found, hfound⟩ := h
      exact throughout_of_entries hfound
    · intro throughout
      obtain ⟨found, hfound, _⟩ := exists_entries throughout
      exact ⟨_, hfound⟩
  · intro found hfound
    have throughout := throughout_of_entries hfound
    obtain ⟨collected, hcollected, hperm⟩ := exists_entries throughout
    cases hcollected.symm.trans hfound
    obtain ⟨listed, hlists⟩ := exists_lists throughout
    constructor
    · exact (Entry.pairwise_sort collected).imp Entry.le_iff.mp
    · exact hlists.exists_of_perm ((Entry.sort_perm collected).trans hperm)

/-- Both links of the root lead to the same label. -/
def doubled : Buffer :=
  #[0x02, 0x80, 0xE1, 0x81, 0x82]

theorem entries_exact_doubled :
    entries doubled = .ok [⟨[0x61], 2⟩, ⟨[0x61], 2⟩] ∧ Accepts doubled ∧
      Enumerates doubled [⟨[0x61], 2⟩, ⟨[0x61], 2⟩] := by
  have first : branches doubled 0 =
      .ok [⟨⟨0, 2, 1, false⟩, ⟨[0x61], .links 3⟩⟩, ⟨⟨1, 2, 1, true⟩, ⟨[0x61], .links 3⟩⟩] := by cbv
  have second : branches doubled 3 = .ok [⟨⟨3, 4, 1, true⟩, ⟨[], .value 2⟩⟩] := by cbv
  have listed : entries doubled = .ok [⟨[0x61], 2⟩, ⟨[0x61], 2⟩] := by
    rw [entries, if_neg (by decide), collectEntries_cons first]
    change (collectEntries doubled [(3, [0x61]), (3, [0x61])] []).map Entry.sort = _
    rw [collectEntries_cons second]
    change (collectEntries doubled [(3, [0x61])] [⟨[0x61], 2⟩]).map Entry.sort = _
    rw [collectEntries_cons second]
    change (collectEntries doubled [] [⟨[0x61], 2⟩, ⟨[0x61], 2⟩]).map Entry.sort = _
    rw [collectEntries]
    exact congrArg Except.ok (List.mergeSort_of_pairwise (by decide))
  obtain ⟨accepts, enumerates⟩ := entries_exact doubled
  exact ⟨listed, accepts.mp ⟨_, listed⟩, enumerates _ listed⟩

end Lexicon.Packed.Grammar
