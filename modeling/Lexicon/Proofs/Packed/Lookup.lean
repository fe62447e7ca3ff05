import Lexicon.Proofs.Packed.Reachable
import Mathlib.Data.List.Find
import Mathlib.Data.List.Permutation

namespace Lexicon.Packed

/-! Lookup follows one path, the others need not be read. -/

variable {buffer : Buffer}

/-- What a lookup comes to behind a label. -/
def Reached.value? (buffer : Buffer) : Reached → Option UInt8
  | .value v => some v
  | .links next rest => lookupFrom buffer next rest

theorem lookupFrom_step (buffer : Buffer) (start : Nat) (key : Word) :
    lookupFrom buffer start key =
      ((Run.read buffer start).links.find? fun link => begins buffer link.target key).bind
        fun link => (follow buffer link.target key).bind (Reached.value? buffer) := by
  rw [lookupFrom]
  cases (Run.read buffer start).links.find? fun link => begins buffer link.target key with
  | none => rfl
  | some link =>
      simp only [Option.bind_some]
      split <;> simp_all [Reached.value?]

theorem lookupFrom_eq {start : Nat} {found : List Branch} (read : branches buffer start = .ok found)
    (key : Word) :
    lookupFrom buffer start key =
      (found.find? fun branch => branch.first? == key.head?).bind fun branch =>
        (follow buffer branch.link.target key).bind (Reached.value? buffer) := by
  have hlinks := (branches_eq_ok_iff.mp read).2.1
  have hbegins : ∀ branch ∈ found, begins buffer branch.link.target key =
      (branch.first? == key.head?) := by
    intro branch hbranch
    rw [Bool.eq_iff_iff, (isRead_of_mem read hbranch).begins_iff, beq_iff_eq]
    rfl
  have hfind : (Run.read buffer start).links.find? (fun link => begins buffer link.target key) =
      (found.find? fun branch => branch.first? == key.head?).map Branch.link := by
    rw [← hlinks, List.find?_map]
    apply congrArg
    exact List.find?_congr hbegins
  rw [lookupFrom_step, hfind, Option.bind_map]
  rfl

theorem Branch.IsRead.follow_bind_eq_some_iff {branch : Branch} (h : branch.IsRead buffer)
    (key : Word) (v : UInt8) :
    (follow buffer branch.link.target key).bind (Reached.value? buffer) = some v ↔
      (branch.label.ending = .value v ∧ key = branch.label.letters) ∨
        ∃ next rest, branch.label.ending = .links next ∧ key = branch.label.letters ++ rest ∧
          lookupFrom buffer next rest = some v := by
  simp only [Option.bind_eq_some_iff, Spells.follow_eq_some_iff h]
  cases hending : branch.label.ending with
  | value other =>
      constructor
      · intro hexists
        obtain ⟨reached, ⟨rest, rfl, hreached⟩, hvalue⟩ := hexists
        cases rest with
        | nil =>
            cases hreached
            cases hvalue
            exact .inl ⟨rfl, List.append_nil _⟩
        | cons => cases hreached
      · intro hcases
        rcases hcases with ⟨h, rfl⟩ | ⟨next, rest, h, _⟩
        · cases h
          exact ⟨.value v, ⟨[], (List.append_nil _).symm, rfl⟩, rfl⟩
        · cases h
  | links next =>
      constructor
      · intro hexists
        obtain ⟨reached, ⟨rest, rfl, hreached⟩, hvalue⟩ := hexists
        cases hreached
        exact .inr ⟨next, rest, rfl, rfl, hvalue⟩
      · intro hcases
        rcases hcases with ⟨h, _⟩ | ⟨next, rest, h, rfl, hvalue⟩
        · cases h
        · cases h
          exact ⟨.links next rest, ⟨rest, rfl, rfl⟩, hvalue⟩

theorem Branch.mem_paths_iff {branch : Branch} {key : Word} {v : UInt8} :
    ⟨key, v⟩ ∈ branch.paths buffer ↔
      (branch.label.ending = .value v ∧ key = branch.label.letters) ∨
        ∃ next rest, branch.label.ending = .links next ∧ key = branch.label.letters ++ rest ∧
          ⟨rest, v⟩ ∈ Packed.paths buffer next := by
  cases hending : branch.label.ending with
  | value other =>
      rw [Branch.paths_of_value hending, List.mem_singleton]
      constructor
      · intro h
        cases h
        exact .inl ⟨rfl, rfl⟩
      · intro hcases
        rcases hcases with ⟨h, rfl⟩ | ⟨next, rest, h, _⟩
        · cases h
          rfl
        · cases h
  | links next =>
      rw [Branch.paths_of_links hending, List.mem_map]
      constructor
      · intro hexists
        obtain ⟨entry, hentry, h⟩ := hexists
        cases h
        exact .inr ⟨next, entry.word, rfl, rfl, hentry⟩
      · intro hcases
        rcases hcases with ⟨h, _⟩ | ⟨next, rest, h, rfl, hrest⟩
        · cases h
        · cases h
          exact ⟨⟨rest, v⟩, hrest, rfl⟩

theorem DistinctFirst.find?_eq {found : List Branch} (distinct : DistinctFirst found)
    {branch : Branch} (hbranch : branch ∈ found) :
    found.find? (fun other => other.first? == branch.first?) = some branch := by
  cases hfind : found.find? fun other => other.first? == branch.first? with
  | none =>
      have hnone := List.find?_eq_none.mp hfind branch hbranch
      exact absurd (beq_self_eq_true _) hnone
  | some other =>
      have hfirst : other.first? = branch.first? := by simpa using List.find?_some hfind
      have hother := List.mem_of_find?_eq_some hfind
      rw [List.inj_on_of_nodup_map distinct hother hbranch hfirst]

/-- What a lookup finds is one of the entries. -/
theorem Throughout.mem_paths_of_lookupFrom {P : List Branch → Prop} {start : Nat}
    (h : Throughout buffer P start) {key : Word} {v : UInt8}
    (hlookup : lookupFrom buffer start key = some v) : ⟨key, v⟩ ∈ paths buffer start := by
  induction h generalizing key with
  | @run start found read _ _ ih =>
      rw [lookupFrom_eq read, Option.bind_eq_some_iff] at hlookup
      obtain ⟨branch, hfind, hfollow⟩ := hlookup
      have hbranch := List.mem_of_find?_eq_some hfind
      rw [paths_eq read]
      apply List.mem_flatMap.mpr ⟨branch, hbranch, Branch.mem_paths_iff.mpr ?_⟩
      rcases ((isRead_of_mem read hbranch).follow_bind_eq_some_iff key v).mp hfollow with
        hvalue | ⟨next, rest, hending, hkey, hrest⟩
      · exact .inl hvalue
      · exact .inr ⟨next, rest, hending, hkey,
          ih branch hbranch next (Branch.start?_eq_some_iff.mpr hending) hrest⟩

/-- Where labels differ in how they begin, a lookup finds every entry. -/
theorem Throughout.lookupFrom_of_mem_paths {start : Nat}
    (h : Throughout buffer DistinctFirst start) {key : Word} {v : UInt8}
    (hmem : ⟨key, v⟩ ∈ paths buffer start) : lookupFrom buffer start key = some v := by
  induction h generalizing key with
  | @run start found read distinct _ ih =>
      rw [paths_eq read] at hmem
      obtain ⟨branch, hbranch, hmem⟩ := List.mem_flatMap.mp hmem
      have hread := isRead_of_mem read hbranch
      have hfirst : branch.first? = key.head? := (hread.head?_of_mem_paths hmem).symm
      have hfind : found.find? (fun other => other.first? == key.head?) = some branch := by
        rw [← hfirst]
        exact distinct.find?_eq hbranch
      rw [lookupFrom_eq read, hfind, Option.bind_some, hread.follow_bind_eq_some_iff]
      rcases Branch.mem_paths_iff.mp hmem with hvalue | ⟨next, rest, hending, hkey, hrest⟩
      · exact .inl hvalue
      · exact .inr ⟨next, rest, hending, hkey,
          ih branch hbranch next (Branch.start?_eq_some_iff.mpr hending) hrest⟩

theorem Throughout.lookupFrom_eq_some_iff {start : Nat} (h : Throughout buffer DistinctFirst start)
    (key : Word) (v : UInt8) :
    lookupFrom buffer start key = some v ↔ ⟨key, v⟩ ∈ paths buffer start :=
  ⟨h.mem_paths_of_lookupFrom, h.lookupFrom_of_mem_paths⟩

/-! Lookup against the list of all entries, for any buffer whose entries can be listed. -/

/-- No two of these links lead to labels with the same first character, and no two lead to
a value. -/
def BeginApart (buffer : Buffer) (links : List Link) : Prop :=
  (links.map fun link => firstAt buffer link.target).Nodup

theorem BeginApart.distinctFirst {start : Nat} {found : List Branch}
    (h : BeginApart buffer (Run.read buffer start).links)
    (read : branches buffer start = .ok found) : DistinctFirst found := by
  have hfirst : found.map Branch.first? =
      (Run.read buffer start).links.map fun link => firstAt buffer link.target := by
    rw [← (branches_eq_ok_iff.mp read).2.1, List.map_map]
    apply List.map_congr_left
    intro branch hbranch
    exact (isRead_of_mem read hbranch).head?_eq
  rw [DistinctFirst, hfirst]
  exact h

/-- What a lookup finds is listed. Where the links of each run differ in how the labels
behind them begin, what is listed is found as well. -/
theorem lookup_against_entries {found : List Entry} (h : entries buffer = .ok found) :
    (∀ key v, lookup buffer key = some v → ⟨key, v⟩ ∈ found) ∧
    ((∀ start, Reachable buffer start → BeginApart buffer (Run.read buffer start).links) →
      ∀ key v, ⟨key, v⟩ ∈ found → lookup buffer key = some v) := by
  have throughout := throughout_of_entries h
  constructor
  · intro key v hlookup
    rw [lookup] at hlookup
    split at hlookup
    · exact (mem_entries_iff h _).mpr (throughout.mem_paths_of_lookupFrom hlookup)
    · cases hlookup
  · intro apart key v hmem
    have hpath := (mem_entries_iff h _).mp hmem
    have distinct : Throughout buffer DistinctFirst 0 :=
      throughout.imp .root fun start _ reachable read =>
        (apart start reachable).distinctFirst read
    have printable : key.all isPrintable := throughout.all_isPrintable hpath
    rw [lookup, if_pos printable]
    exact distinct.lookupFrom_of_mem_paths hpath

/-- The last run of this buffer begins with a byte that is a value as well. -/
def interlocked : Buffer :=
  #[0x02, 0x81, 0xE1, 0x82, 0x7A, 0x81]

theorem lookup_against_entries_interlocked :
    entries interlocked = .ok [⟨[], 2⟩, ⟨[0x61], 1⟩] ∧
    (∀ start, Reachable interlocked start →
      BeginApart interlocked (Run.read interlocked start).links) ∧
    (∀ key v, lookup interlocked key = some v ↔
      ⟨key, v⟩ ∈ ([⟨[], 2⟩, ⟨[0x61], 1⟩] : List Entry)) := by
  have first : branches interlocked 0 =
      .ok [⟨⟨0, 2, 1, false⟩, ⟨[0x61], .links 3⟩⟩, ⟨⟨1, 3, 1, true⟩, ⟨[], .value 2⟩⟩] := by cbv
  have second : branches interlocked 3 = .ok [⟨⟨3, 5, 1, true⟩, ⟨[], .value 1⟩⟩] := by cbv
  have listed : entries interlocked = .ok [⟨[], 2⟩, ⟨[0x61], 1⟩] := by
    rw [entries, if_neg (by decide), collectEntries_cons first]
    change (collectEntries interlocked [(3, [0x61])] [⟨[], 2⟩]).map Entry.sort = _
    rw [collectEntries_cons second]
    cbv
  have apart : ∀ start, Reachable interlocked start →
      BeginApart interlocked (Run.read interlocked start).links := by
    intro start reachable
    have hstart : start ∈ [0, 3] := by
      apply reachable.mem_of_closed (by decide)
      intro run hrun
      rcases List.mem_pair.mp hrun with rfl | rfl
      · exact ⟨_, first, by decide⟩
      · exact ⟨_, second, by decide⟩
    rcases List.mem_pair.mp hstart with rfl | rfl
    · rw [BeginApart, ← (branches_eq_ok_iff.mp first).2.1]
      decide
    · rw [BeginApart, ← (branches_eq_ok_iff.mp second).2.1]
      decide
  obtain ⟨sound, complete⟩ := lookup_against_entries listed
  exact ⟨listed, apart, fun key v => ⟨sound key v, complete apart key v⟩⟩

end Lexicon.Packed
