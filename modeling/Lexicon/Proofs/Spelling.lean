import Lexicon.Word
import Mathlib.Data.Finset.Dedup
import Mathlib.Data.List.Induction
import Mathlib.Data.List.Nodup

namespace Lexicon.Spelling

/-! Of several that have one key, the first. -/

section Leaders

variable {α β : Type} [DecidableEq β] {key : α → β} {list : List α}

def leaders (key : α → β) (list : List α) : List α :=
  list.foldl (fun found x => if key x ∈ found.map key then found else found ++ [x]) []

theorem leaders_concat (key : α → β) (list : List α) (x : α) :
    leaders key (list ++ [x]) =
      if key x ∈ (leaders key list).map key then leaders key list else leaders key list ++ [x] := by
  rw [leaders, List.foldl_append]
  rfl

theorem mem_map_leaders {k : β} : k ∈ (leaders key list).map key ↔ k ∈ list.map key := by
  induction list using List.reverseRecOn with
  | nil => rfl
  | append_singleton list x ih =>
      rw [leaders_concat, List.map_append, List.mem_append, ← ih]
      split
      · rename_i hmem
        exact ⟨.inl, fun h => h.elim id fun hx => List.mem_singleton.mp hx ▸ hmem⟩
      · rw [List.map_append, List.mem_append]

theorem mem_of_mem_leaders {x : α} (h : x ∈ leaders key list) : x ∈ list := by
  induction list using List.reverseRecOn with
  | nil => exact h
  | append_singleton list last ih =>
      rw [leaders_concat] at h
      split at h
      · exact List.mem_append_left _ (ih h)
      · exact (List.mem_append.mp h).elim (fun h => List.mem_append_left _ (ih h))
          (List.mem_append_right _)

theorem nodup_map_leaders (key : α → β) (list : List α) : ((leaders key list).map key).Nodup := by
  induction list using List.reverseRecOn with
  | nil => exact List.nodup_nil
  | append_singleton list x ih =>
      rw [leaders_concat]
      split
      · exact ih
      · rename_i hnew
        rw [List.map_append]
        exact ih.append (List.nodup_singleton _) (List.disjoint_singleton.mpr hnew)

theorem leaders_prefix (key : α → β) (list more : List α) :
    leaders key list <+: leaders key (list ++ more) := by
  induction more using List.reverseRecOn with
  | nil => simp
  | append_singleton more x ih =>
      rw [← List.append_assoc, leaders_concat]
      split
      · exact ih
      · exact ih.trans (List.prefix_append _ _)

end Leaders

/-! What a list of spellings shows, in the order in which it shows it first. A path is the
beginning of a spelling. -/

variable {spellings : List (List Symbol)} {path : List Symbol}

/-- The symbol of a spelling that follows a path. -/
def next? (path spelling : List Symbol) : Option Symbol :=
  (spelling.dropPrefix? path).bind List.head?

theorem next?_eq_some_iff {spelling : List Symbol} {symbol : Symbol} :
    next? path spelling = some symbol ↔ ∃ rest, spelling = path ++ symbol :: rest := by
  simp only [next?, Option.bind_eq_some_iff, List.dropPrefix?_eq_some_iff, beq_iff_eq,
    List.head?_eq_some_iff]
  constructor
  · rintro ⟨_, ⟨_, rfl, rfl⟩, rest, rfl⟩
    exact ⟨rest, rfl⟩
  · rintro ⟨rest, rfl⟩
    exact ⟨_, ⟨path, rfl, rfl⟩, rest, rfl⟩

theorem next?_self (path : List Symbol) : next? path path = none := by
  rw [Option.eq_none_iff_forall_ne_some]
  intro symbol h
  obtain ⟨rest, hpath⟩ := next?_eq_some_iff.mp h
  simp at hpath

theorem next?_concat (sought path : List Symbol) (symbol : Symbol) :
    next? sought (path ++ [symbol]) = if sought = path then some symbol else next? sought path := by
  split
  · rename_i hsame
    exact next?_eq_some_iff.mpr ⟨[], by rw [hsame]⟩
  · rename_i hother
    ext found
    rw [next?_eq_some_iff, next?_eq_some_iff]
    constructor
    · rintro ⟨rest, h⟩
      rcases List.eq_nil_or_concat rest with rfl | ⟨front, last, rfl⟩
      · exact absurd (List.append_inj' h rfl).1.symm hother
      · rw [List.concat_eq_append, ← List.cons_append, ← List.append_assoc] at h
        exact ⟨front, (List.append_inj' h rfl).1⟩
    · rintro ⟨rest, rfl⟩
      exact ⟨rest ++ [symbol], by rw [List.append_assoc, List.cons_append]⟩

/-- The symbols that go on from a path. -/
def continuations (spellings : List (List Symbol)) (path : List Symbol) : List Symbol :=
  leaders id (spellings.filterMap (next? path))

theorem mem_continuations {symbol : Symbol} :
    symbol ∈ continuations spellings path ↔ ∃ rest, path ++ symbol :: rest ∈ spellings := by
  have hleaders : symbol ∈ (leaders id (spellings.filterMap (next? path))).map id ↔ _ :=
    mem_map_leaders
  rw [List.map_id, List.map_id] at hleaders
  rw [continuations, hleaders, List.mem_filterMap]
  simp only [next?_eq_some_iff]
  constructor
  · rintro ⟨_, hspelling, rest, rfl⟩
    exact ⟨rest, hspelling⟩
  · exact fun ⟨rest, h⟩ => ⟨_, h, rest, rfl⟩

theorem continuations_concat (spellings : List (List Symbol)) (spelling path : List Symbol) :
    continuations (spellings ++ [spelling]) path =
      match next? path spelling with
      | none => continuations spellings path
      | some symbol =>
          if symbol ∈ continuations spellings path then continuations spellings path
          else continuations spellings path ++ [symbol] := by
  rw [continuations, List.filterMap_append]
  cases h : next? path spelling with
  | none => rw [List.filterMap_cons_none h, List.filterMap_nil, List.append_nil, continuations]
  | some symbol =>
      rw [List.filterMap_cons_some h, List.filterMap_nil, leaders_concat, List.map_id, continuations]
      rfl

theorem nodup_continuations (spellings : List (List Symbol)) (path : List Symbol) :
    (continuations spellings path).Nodup := by
  have h := nodup_map_leaders id (spellings.filterMap (next? path))
  rwa [List.map_id] at h

def size (spellings : List (List Symbol)) : Nat :=
  spellings.flatten.length

theorem length_lt_size {symbol : Symbol} (h : symbol ∈ continuations spellings path) :
    path.length < size spellings := by
  obtain ⟨rest, hmem⟩ := mem_continuations.mp h
  have hle : (path ++ symbol :: rest).length ≤ size spellings :=
    (List.sublist_flatten_of_mem hmem).length_le
  rw [List.length_append, List.length_cons] at hle
  omega

/-- The paths that go on from a path, each behind those that go on from it, and at last the
path itself. -/
def walkFrom (spellings : List (List Symbol)) (path : List Symbol) : List (List Symbol) :=
  (continuations spellings path).attach.flatMap
    (fun symbol => walkFrom spellings (path ++ [symbol.1])) ++ [path]
termination_by size spellings - path.length
decreasing_by
  have := length_lt_size symbol.2
  rw [List.length_append, List.length_singleton]
  omega

theorem walkFrom_eq (spellings : List (List Symbol)) (path : List Symbol) :
    walkFrom spellings path = (continuations spellings path).flatMap
      (fun symbol => walkFrom spellings (path ++ [symbol])) ++ [path] := by
  rw [walkFrom, List.flatMap_subtype (g := fun symbol => walkFrom spellings (path ++ [symbol]))
    fun _ _ => rfl, List.unattach_attach]

/-- The path goes on to another one, and that one to a spelling. -/
def Deeper (spellings : List (List Symbol)) (path found : List Symbol) : Prop :=
  ∃ symbol more rest, found = path ++ symbol :: more ∧ found ++ rest ∈ spellings

theorem deeper_iff {found : List Symbol} : Deeper spellings path found ↔
    ∃ symbol ∈ continuations spellings path,
      found = path ++ [symbol] ∨ Deeper spellings (path ++ [symbol]) found := by
  constructor
  · rintro ⟨symbol, more, rest, rfl, hshown⟩
    have hsymbol : symbol ∈ continuations spellings path := by
      rw [List.append_assoc] at hshown
      exact mem_continuations.mpr ⟨_, hshown⟩
    refine ⟨symbol, hsymbol, ?_⟩
    rcases more with _ | ⟨next, more⟩
    · exact .inl rfl
    · exact .inr ⟨next, more, rest, by rw [List.append_assoc]; rfl, hshown⟩
  · rintro ⟨symbol, hsymbol, rfl | ⟨next, more, rest, rfl, hshown⟩⟩
    · obtain ⟨rest, hshown⟩ := mem_continuations.mp hsymbol
      exact ⟨symbol, [], rest, rfl, by rwa [List.append_assoc]⟩
    · exact ⟨symbol, next :: more, rest, by rw [List.append_assoc]; rfl, hshown⟩

theorem mem_walkFrom_iff {found : List Symbol} :
    found ∈ walkFrom spellings path ↔ found = path ∨ Deeper spellings path found := by
  induction hroom : size spellings - path.length using Nat.strongRecOn generalizing path with
  | ind room ih =>
      rw [walkFrom_eq, List.mem_append, List.mem_singleton, List.mem_flatMap, or_comm, deeper_iff]
      refine or_congr_right (exists_congr fun symbol => and_congr_right fun hsymbol => ?_)
      have hlt := length_lt_size hsymbol
      refine ih _ ?_ rfl
      rw [List.length_append, List.length_singleton]
      omega

/-- All paths but the empty one. -/
def walk (spellings : List (List Symbol)) : List (List Symbol) :=
  (continuations spellings []).flatMap fun symbol => walkFrom spellings [symbol]

theorem mem_walk_iff : path ∈ walk spellings ↔ path ≠ [] ∧ ∃ rest, path ++ rest ∈ spellings := by
  have hdeeper : path ∈ walk spellings ↔ Deeper spellings [] path := by
    rw [walk, List.mem_flatMap, deeper_iff]
    exact exists_congr fun symbol => and_congr_right fun _ => mem_walkFrom_iff
  rw [hdeeper]
  constructor
  · rintro ⟨symbol, more, rest, rfl, hshown⟩
    exact ⟨List.cons_ne_nil symbol more, rest, hshown⟩
  · rintro ⟨hne, rest, hshown⟩
    obtain ⟨symbol, more, rfl⟩ := List.exists_cons_of_ne_nil hne
    exact ⟨symbol, more, rest, rfl, hshown⟩

/-- What is left of the spellings that begin with a path. -/
def behind (spellings : List (List Symbol)) (path : List Symbol) : List (List Symbol) :=
  spellings.filterMap fun spelling => spelling.dropPrefix? path

theorem mem_behind {rest : List Symbol} :
    rest ∈ behind spellings path ↔ path ++ rest ∈ spellings := by
  simp only [behind, List.mem_filterMap, List.dropPrefix?_eq_some_iff, beq_iff_eq]
  constructor
  · rintro ⟨spelling, hspelling, found, rfl, rfl⟩
    exact hspelling
  · exact fun h => ⟨_, h, path, rfl, rfl⟩

/-- The last symbol of a path, and all that can stand behind it. -/
structure Class where
  last : Option Symbol
  behind : Finset (List Symbol)

theorem Class.eq_iff {first second : Class} : first.last = second.last ∧
    first.behind ⊆ second.behind ∧ second.behind ⊆ first.behind ↔ first = second := by
  rw [← Finset.Subset.antisymm_iff]
  cases first
  cases second
  rw [Class.mk.injEq]

-- Both inclusions are evaluated more easily than the equality of the sets.
instance : DecidableEq Class := fun _ _ =>
  decidable_of_iff _ Class.eq_iff

def classOf (spellings : List (List Symbol)) (path : List Symbol) : Class :=
  ⟨path.getLast?, (behind spellings path).toFinset⟩

theorem classOf_eq_iff {other : List Symbol} :
    classOf spellings path = classOf spellings other ↔ path.getLast? = other.getLast? ∧
      ∀ rest, path ++ rest ∈ spellings ↔ other ++ rest ∈ spellings := by
  simp only [classOf, Class.mk.injEq, Finset.ext_iff, List.mem_toFinset, mem_behind]

/-- The paths at which the walk meets a class for the first time. -/
def firsts (spellings : List (List Symbol)) : List (List Symbol) :=
  leaders (classOf spellings) (walk spellings)

/-- Classes are numbered in the order in which the walk meets them. -/
def number (spellings : List (List Symbol)) (path : List Symbol) : Nat :=
  ((firsts spellings).map (classOf spellings)).idxOf (classOf spellings path)

theorem number_eq_iff {other : List Symbol} (h : path ∈ walk spellings) :
    number spellings path = number spellings other ↔
      classOf spellings path = classOf spellings other :=
  List.idxOf_inj (mem_map_leaders.mpr (List.mem_map_of_mem h))

theorem number_of_getElem? {done after : List (List Symbol)} (hwalk : walk spellings = done ++ after)
    {id : Nat} (h : (leaders (classOf spellings) done)[id]? = some path) :
    number spellings path = id := by
  obtain ⟨more, hmore⟩ := leaders_prefix (classOf spellings) done after
  obtain ⟨hlt, hget⟩ := List.getElem?_eq_some_iff.mp h
  have hfirst : (firsts spellings)[id]? = some path := by
    rw [firsts, hwalk, ← hmore, List.getElem?_append_left hlt, h]
  have hclass : ((firsts spellings).map (classOf spellings))[id]? = some (classOf spellings path) := by
    rw [List.getElem?_map, hfirst, Option.map_some]
  obtain ⟨hbound, hfound⟩ := List.getElem?_eq_some_iff.mp hclass
  rw [number, ← hfound]
  exact List.Nodup.idxOf_getElem (nodup_map_leaders _ _) id hbound

/-- The numbers of the paths that are one symbol longer. -/
def children (spellings : List (List Symbol)) (path : List Symbol) : List Nat :=
  (continuations spellings path).map fun symbol => number spellings (path ++ [symbol])

end Lexicon.Spelling
