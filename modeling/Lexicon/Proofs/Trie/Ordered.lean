import Lexicon.Proofs.Spelling
import Lexicon.Proofs.Trie.Paths
import Lexicon.Proofs.Trie.Visit
import Mathlib.Data.List.Forall2

namespace Lexicon.Trie

open Spelling (continuations walkFrom walk)

/-! The children of a node stand in the order in which the spellings go on from its path. -/

variable {trie : Trie} {spellings : List (List Symbol)} {path : List Symbol}

structure Ordered (trie : Trie) (spellings : List (List Symbol)) : Prop where
  has : ∀ spelling ∈ spellings, ∀ start, start <+: spelling → trie.Has start
  children : ∀ path index, trie.find? path = some index →
    (trie.children index).map trie.symbol? = (continuations spellings path).map some

theorem Ordered.mem_continuations_iff (ordered : trie.Ordered spellings) {index : Nat}
    (hpath : trie.find? path = some index) {symbol : Symbol} :
    symbol ∈ continuations spellings path ↔ (trie.child? index symbol).isSome := by
  rw [child?_isSome_iff, ← List.mem_map_of_injective (Option.some_injective _),
    ← ordered.children path index hpath, List.mem_map]

theorem Ordered.continuations_of_not_has (ordered : trie.Ordered spellings)
    (h : ¬ trie.Has path) : continuations spellings path = [] := by
  apply List.eq_nil_iff_forall_not_mem.mpr
  intro symbol hsymbol
  obtain ⟨rest, hspelling⟩ := Spelling.mem_continuations.mp hsymbol
  exact h (ordered.has _ hspelling path (List.prefix_append _ _))

theorem ordered_empty : empty.Ordered [] where
  has := nofun
  children path index _ := by
    have hchildren : empty.children index = [] := by
      cases index <;> rfl
    rw [hchildren]
    rfl

theorem continuations_extend (spellings : List (List Symbol)) (path sought : List Symbol)
    (symbol : Symbol) :
    continuations (spellings ++ [path ++ [symbol]]) sought =
      if sought = path ∧ symbol ∉ continuations spellings path then
        continuations spellings path ++ [symbol]
      else continuations (spellings ++ [path]) sought := by
  rw [Spelling.continuations_concat, Spelling.continuations_concat, Spelling.next?_concat]
  by_cases hsame : sought = path
  · subst hsame
    rw [if_pos rfl, Spelling.next?_self]
    by_cases hmem : symbol ∈ continuations spellings sought <;> simp [hmem]
  · rw [if_neg hsame, if_neg fun h => hsame h.1]

theorem map_symbol?_append (trie : Trie) (parent index : Nat) (symbol : Symbol) :
    (trie.children index).map (trie.append parent symbol).symbol? =
      (trie.children index).map trie.symbol? :=
  List.map_congr_left fun _ hchild => symbol?_append_of_mem hchild parent symbol

/-- A node that is new comes behind all its siblings. -/
theorem Ordered.children_append (ordered : trie.Ordered (spellings ++ [path])) (tree : trie.IsTree)
    {index : Nat} (hfind : trie.find? path = some index) {symbol : Symbol}
    (hfresh : trie.child? index symbol = none) {sought : List Symbol} {found : Nat}
    (hfound : (trie.append index symbol).find? sought = some found) :
    ((trie.append index symbol).children found).map (trie.append index symbol).symbol? =
      (continuations (spellings ++ [path ++ [symbol]]) sought).map some := by
  have hlt := find?_lt hfind
  have hself : continuations (spellings ++ [path]) path = continuations spellings path := by
    rw [Spelling.continuations_concat, Spelling.next?_self]
  have hnew : symbol ∉ continuations spellings path := by
    rw [← hself, ordered.mem_continuations_iff hfind, hfresh]
    exact nofun
  rw [find?_append tree hfind hfresh] at hfound
  rw [Trie.children_append hlt, continuations_extend]
  by_cases hlonger : sought = path ++ [symbol]
  · have hother : sought ≠ path := by
      rw [hlonger]
      exact fun h => List.cons_ne_nil symbol [] (List.append_right_eq_self.mp h)
    have hmissing : ¬ trie.Has sought := by
      rw [Has, hlonger, find?_concat, hfind, Option.bind_some, hfresh]
      exact nofun
    have hleaf : trie.children trie.size = [] := by simp [Trie.children, size]
    rw [if_pos hlonger] at hfound
    cases hfound
    rw [if_neg (Nat.ne_of_gt hlt), if_neg fun h => hother h.1, hleaf,
      ordered.continuations_of_not_has hmissing]
    rfl
  · rw [if_neg hlonger] at hfound
    by_cases hsame : sought = path
    · subst hsame
      cases Option.some.inj (hfound.symm.trans hfind)
      rw [if_pos rfl, if_pos ⟨rfl, hnew⟩, List.map_append, map_symbol?_append,
        ordered.children sought index hfound, hself, List.map_append, List.map_singleton,
        symbol?_append, if_pos rfl, List.map_singleton]
    · have hother : found ≠ index := by
        rintro rfl
        exact hsame (tree.find?_injective hfound hfind)
      rw [if_neg hother, if_neg fun h => hsame h.1, map_symbol?_append]
      exact ordered.children sought found hfound

theorem Followed.ordered_extend {state : Trie × Nat} (followed : trie.Followed path state)
    (ordered : state.1.Ordered (spellings ++ [path])) (symbol : Symbol) :
    (Trie.extend state symbol).1.Ordered (spellings ++ [path ++ [symbol]]) where
  has spelling hspelling start hstart := by
    rw [(followed.extend symbol).has]
    rcases List.mem_append.mp hspelling with hspelling | hspelling
    · have hold := ordered.has spelling (List.mem_append_left _ hspelling) start hstart
      exact ((followed.has start).mp hold).imp_right fun h => h.trans (List.prefix_append _ _)
    · exact .inr (List.mem_singleton.mp hspelling ▸ hstart)
  children sought found hfound := by
    obtain ⟨now, index⟩ := state
    have hfind := followed.find
    unfold Trie.extend at hfound ⊢
    simp only at hfind ordered hfound ⊢
    cases hchild : now.child? index symbol with
    | none =>
        simp only [hchild] at hfound ⊢
        exact ordered.children_append followed.tree hfind hchild hfound
    | some child =>
        have hshown : symbol ∈ continuations spellings path := by
          have hmem : symbol ∈ continuations (spellings ++ [path]) path ↔ _ :=
            ordered.mem_continuations_iff hfind
          rw [Spelling.continuations_concat, Spelling.next?_self, hchild] at hmem
          exact hmem.mpr rfl
        simp only [hchild] at hfound ⊢
        rw [continuations_extend, if_neg fun h => h.2 hshown]
        exact ordered.children sought found hfound

theorem Ordered.insert (ordered : trie.Ordered spellings) (tree : trie.IsTree)
    (path : List Symbol) : (trie.insert path).Ordered (spellings ++ [path]) := by
  rw [Trie.insert]
  induction path using List.reverseRecOn with
  | nil =>
      refine ⟨fun spelling hspelling start hstart => ?_, fun sought found hfound => ?_⟩
      · rcases List.mem_append.mp hspelling with hspelling | hspelling
        · exact ordered.has spelling hspelling start hstart
        · cases List.mem_singleton.mp hspelling
          rw [List.prefix_nil.mp hstart]
          rfl
      · have hnil : Spelling.next? sought [] = none := by
          rw [Option.eq_none_iff_forall_ne_some]
          intro symbol h
          obtain ⟨rest, hrest⟩ := Spelling.next?_eq_some_iff.mp h
          simp at hrest
        rw [Spelling.continuations_concat, hnil]
        exact ordered.children sought found hfound
  | append_singleton start symbol ih =>
      rw [List.foldl_append]
      exact (followed_foldl tree start).ordered_extend ih symbol

/-! The walk along the spellings visits the nodes in postorder. -/

/-- Each child stands in the place of the continuation that leads to it. -/
theorem Ordered.forall₂_children (ordered : trie.Ordered spellings) (tree : trie.IsTree)
    {index : Nat} (hpath : trie.find? path = some index) :
    List.Forall₂ (fun child symbol => trie.find? (path ++ [symbol]) = some child)
      (trie.children index) (continuations spellings path) := by
  have hsymbols : List.Forall₂ (fun child symbol => trie.symbol? child = some symbol)
      (trie.children index) (continuations spellings path) := by
    rw [← List.forall₂_map_left_iff (R := fun found symbol => found = some symbol),
      ordered.children path index hpath, List.forall₂_map_left_iff, List.forall₂_same]
    exact fun _ _ => rfl
  have hboth := (List.forall₂_and_left _ _).mpr ⟨fun _ => id, hsymbols⟩
  refine hboth.imp fun child symbol h => ?_
  rw [find?_concat, hpath]
  exact tree.child?_of_mem h.1 h.2

theorem Ordered.map_find?_flatMap (ordered : trie.Ordered spellings) (tree : trie.IsTree)
    {index : Nat} (hpath : trie.find? path = some index)
    (hbelow : ∀ symbol child, trie.find? (path ++ [symbol]) = some child →
      (walkFrom spellings (path ++ [symbol])).map trie.find? = (trie.below child).map some) :
    ((continuations spellings path).flatMap fun symbol =>
      walkFrom spellings (path ++ [symbol])).map trie.find? =
        ((trie.children index).flatMap trie.below).map some := by
  have hchildren := ordered.forall₂_children tree hpath
  generalize continuations spellings path = symbols, trie.children index = children at hchildren ⊢
  induction hchildren with
  | nil => rfl
  | @cons child symbol _ _ hchild _ ih =>
      rw [List.flatMap_cons, List.flatMap_cons, List.map_append, List.map_append,
        hbelow symbol child hchild, ih]

theorem Ordered.map_find?_walkFrom (ordered : trie.Ordered spellings) (tree : trie.IsTree)
    {index : Nat} (hpath : trie.find? path = some index) :
    (walkFrom spellings path).map trie.find? = (trie.below index).map some := by
  induction hroom : trie.size - index using Nat.strongRecOn generalizing index path with
  | ind room ih =>
      rw [Spelling.walkFrom_eq, below_eq, List.map_append, List.map_append, List.map_singleton,
        List.map_singleton, hpath]
      congr 1
      refine ordered.map_find?_flatMap tree hpath fun symbol child hchild => ?_
      have hstep := hchild
      rw [find?_concat, hpath, Option.bind_some] at hstep
      obtain ⟨hlt, hsize⟩ := lt_of_child? hstep
      exact ih _ (by omega) hchild rfl

theorem Ordered.map_find?_walk (ordered : trie.Ordered spellings) (tree : trie.IsTree) :
    (walk spellings).map trie.find? = ((trie.children 0).flatMap trie.below).map some :=
  ordered.map_find?_flatMap tree trie.find?_nil fun _ _ => ordered.map_find?_walkFrom tree

end Lexicon.Trie
