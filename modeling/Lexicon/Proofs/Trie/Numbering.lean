import Lexicon.Proofs.Trie.Graph
import Lexicon.Proofs.Trie.Ordered

namespace Lexicon

/-! The graph of a trie has a node for each class of its paths, in the order in which the walk
meets them. -/

namespace Spelling

variable {spellings : List (List Symbol)} {path other : List Symbol} {symbol : Symbol}

/-- A value ends a spelling, and nothing else does. -/
def Closed (spellings : List (List Symbol)) : Prop :=
  ∀ start symbol rest, start ++ symbol :: rest ∈ spellings → (rest = [] ↔ ∃ v, symbol = .value v)

/-- A path with a last symbol, whose continuations the walk visits. -/
structure Walked (spellings : List (List Symbol)) (path : List Symbol) (symbol : Symbol) :
    Prop where
  last : path.getLast? = some symbol
  shown : ∃ rest, path ++ rest ∈ spellings
  below : ∀ next ∈ continuations spellings path, path ++ [next] ∈ walk spellings

/-- The node for the class of a path, with the children in the order that is the path's own. -/
def node? (spellings : List (List Symbol)) (path : List Symbol) : Option Node :=
  path.getLast?.map fun symbol => symbol.node (children spellings path)

theorem Closed.rest_eq_nil_iff (closed : Closed spellings) (hlast : path.getLast? = some symbol)
    {rest : List Symbol} (h : path ++ rest ∈ spellings) :
    rest = [] ↔ ∃ v, symbol = .value v := by
  obtain ⟨start, rfl⟩ := List.getLast?_eq_some_iff.mp hlast
  rw [List.append_assoc] at h
  exact closed start symbol rest h

theorem classOf_eq_of_concat {next : Symbol}
    (h : classOf spellings (path ++ [next]) = classOf spellings (other ++ [next])) (rest : List Symbol) :
    path ++ next :: rest ∈ spellings ↔ other ++ next :: rest ∈ spellings := by
  have hrest := (classOf_eq_iff.mp h).2 rest
  rwa [List.append_assoc, List.append_assoc] at hrest

theorem Walked.mem_of_children_subset (walked : Walked spellings path symbol)
    (hsubset : children spellings path ⊆ children spellings other) {next : Symbol}
    {rest : List Symbol} (h : path ++ next :: rest ∈ spellings) :
    other ++ next :: rest ∈ spellings := by
  have hnext := mem_continuations.mpr ⟨rest, h⟩
  obtain ⟨found, hfound, hnumber⟩ := List.mem_map.mp (hsubset (List.mem_map_of_mem hnext))
  have hclass := (number_eq_iff (walked.below next hnext)).mp hnumber.symm
  obtain ⟨hlast, _⟩ := classOf_eq_iff.mp hclass
  rw [List.getLast?_concat, List.getLast?_concat] at hlast
  cases hlast
  exact (classOf_eq_of_concat hclass rest).mp h

theorem children_perm (h : ∀ rest, path ++ rest ∈ spellings ↔ other ++ rest ∈ spellings) :
    (children spellings path).Perm (children spellings other) := by
  have hcontinuations : (continuations spellings path).Perm (continuations spellings other) := by
    refine (List.perm_ext_iff_of_nodup (nodup_continuations _ _) (nodup_continuations _ _)).mpr
      fun next => ?_
    rw [mem_continuations, mem_continuations]
    exact exists_congr fun rest => h (next :: rest)
  refine (hcontinuations.map _).trans (.of_eq (List.map_congr_left fun next _ => ?_))
  have hclass : classOf spellings (path ++ [next]) = classOf spellings (other ++ [next]) := by
    rw [classOf_eq_iff, List.getLast?_concat, List.getLast?_concat]
    refine ⟨rfl, fun rest => ?_⟩
    rw [List.append_assoc, List.append_assoc]
    exact h ([next] ++ rest)
  rw [number, number, hclass]

/-- Two paths have one class exactly if their nodes have one signature. -/
theorem Closed.ofNode_eq_iff (closed : Closed spellings) {last : Symbol}
    (hpath : Walked spellings path symbol) (hother : Walked spellings other last) :
    Signature.ofNode (symbol.node (children spellings path)) =
        Signature.ofNode (last.node (children spellings other)) ↔
      classOf spellings path = classOf spellings other := by
  rw [Signature.ofNode_eq_iff, symbol.symbol_node, last.symbol_node, classOf_eq_iff, hpath.last,
    hother.last, Option.some_inj]
  refine and_congr_right fun hsame => ?_
  subst hsame
  cases symbol with
  | value v =>
      refine iff_of_true .nil fun rest => ?_
      obtain ⟨first, hfirst⟩ := hpath.shown
      obtain ⟨second, hsecond⟩ := hother.shown
      cases (closed.rest_eq_nil_iff hpath.last hfirst).mpr ⟨v, rfl⟩
      cases (closed.rest_eq_nil_iff hother.last hsecond).mpr ⟨v, rfl⟩
      constructor
      · intro h
        rwa [(closed.rest_eq_nil_iff hpath.last h).mpr ⟨v, rfl⟩]
      · intro h
        rwa [(closed.rest_eq_nil_iff hother.last h).mpr ⟨v, rfl⟩]
  | char byte =>
      refine ⟨fun hperm rest => ?_, children_perm⟩
      rcases rest with _ | ⟨next, rest⟩
      · have hopen : ∀ {found : List Symbol}, found.getLast? = some (.char byte) →
            found ++ [] ∉ spellings := by
          intro found hlast hmem
          obtain ⟨v, hv⟩ := (closed.rest_eq_nil_iff hlast hmem).mp rfl
          cases hv
        exact iff_of_false (hopen hpath.last) (hopen hother.last)
      · exact ⟨hpath.mem_of_children_subset hperm.subset,
          hother.mem_of_children_subset hperm.symm.subset⟩

theorem exists_walked (h : path ∈ walk spellings) : ∃ symbol, Walked spellings path symbol := by
  obtain ⟨hne, hshown⟩ := mem_walk_iff.mp h
  refine ⟨path.getLast hne, List.getLast?_eq_some_getLast hne, hshown, fun next hnext => ?_⟩
  obtain ⟨rest, hrest⟩ := mem_continuations.mp hnext
  exact mem_walk_iff.mpr ⟨by simp, rest, by rwa [List.append_assoc]⟩

end Spelling

namespace Merge

open Spelling (Closed Walked classOf continuations leaders number walk)

variable {trie : Trie} {spellings done : List (List Symbol)} {merge : Merge} {order : List Nat}

/-- The paths in `done` have been taken: each has the number of its class, and the graph has the
node of each path that came first in its class. -/
structure Numbered (trie : Trie) (spellings done : List (List Symbol)) (merge : Merge) : Prop where
  id : ∀ path ∈ done, ∀ index, trie.find? path = some index →
    merge.id? index = some (number spellings path)
  size : merge.graph.size = (leaders (classOf spellings) done).length
  node : ∀ id path, (leaders (classOf spellings) done)[id]? = some path →
    merge.graph.node? id = Spelling.node? spellings path

theorem numbered_start (trie : Trie) (spellings : List (List Symbol)) :
    Numbered trie spellings [] (start trie.size) :=
  ⟨nofun, rfl, nofun⟩

namespace Numbered

theorem ids_children (numbered : Numbered trie spellings done merge) (tree : trie.IsTree)
    (ordered : trie.Ordered spellings) (hdone : done.map trie.find? = order.map some)
    {path : List Symbol} {index : Nat} (hfind : trie.find? path = some index)
    (hchildren : ∀ child ∈ trie.children index, child ∈ order) :
    merge.ids (trie.children index) = Spelling.children spellings path := by
  have hpaths := ordered.forall₂_children tree hfind
  rw [Spelling.children, ids]
  generalize continuations spellings path = symbols, trie.children index = children
    at hpaths hchildren ⊢
  induction hpaths with
  | nil => rfl
  | @cons child symbol children symbols hchild _ ih =>
      obtain ⟨hmem, hrest⟩ := List.forall_mem_cons.mp hchildren
      have hsome : some child ∈ done.map trie.find? := hdone ▸ List.mem_map_of_mem hmem
      obtain ⟨found, hfound, hfoundFind⟩ := List.mem_map.mp hsome
      cases tree.find?_injective hfoundFind hchild
      rw [List.filterMap_cons_some (numbered.id _ hfound child hchild), ih hrest, List.map_cons]

/-- The node for a signature is that of the first path of the class. -/
theorem register_iff (numbered : Numbered trie spellings done merge)
    (represents : Represents trie order merge) (closed : Closed spellings)
    {after : List (List Symbol)} (hwalk : walk spellings = done ++ after) {path : List Symbol}
    {symbol : Symbol} (walked : Walked spellings path symbol) (id : Nat) :
    merge.register[Signature.ofNode (symbol.node (Spelling.children spellings path))]? = some id ↔
      ∃ first, (leaders (classOf spellings) done)[id]? = some first ∧
        classOf spellings first = classOf spellings path := by
  have hfirst : ∀ first, (leaders (classOf spellings) done)[id]? = some first →
      ∃ last, Walked spellings first last ∧ merge.graph.node? id =
        some (last.node (Spelling.children spellings first)) := by
    intro first hget
    have hdone := Spelling.mem_of_mem_leaders (List.mem_of_getElem? hget)
    obtain ⟨last, hwalked⟩ := Spelling.exists_walked (hwalk ▸ List.mem_append_left after hdone)
    refine ⟨last, hwalked, ?_⟩
    rw [numbered.node id first hget, Spelling.node?, hwalked.last, Option.map_some]
  rw [represents.register]
  constructor
  · rintro ⟨node, hnode, hsignature⟩
    have hlt := numbered.size ▸ Graph.lt_size_of_node? hnode
    obtain ⟨last, hwalked, hget⟩ := hfirst _ (List.getElem?_eq_getElem hlt)
    cases Option.some.inj (hnode.symm.trans hget)
    exact ⟨_, List.getElem?_eq_getElem hlt, (closed.ofNode_eq_iff hwalked walked).mp hsignature⟩
  · rintro ⟨first, hget, hclass⟩
    obtain ⟨last, hwalked, hnode⟩ := hfirst first hget
    exact ⟨_, hnode, (closed.ofNode_eq_iff hwalked walked).mpr hclass⟩

section Step

variable {path : List Symbol} {symbol : Symbol} {index : Nat} {after : List (List Symbol)}

theorem of_hit (numbered : Numbered trie spellings done merge)
    (represents : Represents trie order merge) (closed : Closed spellings)
    (hwalk : walk spellings = done ++ path :: after) (walked : Walked spellings path symbol) {id : Nat}
    (h : merge.register[Signature.ofNode (symbol.node (Spelling.children spellings path))]? = some id) :
    leaders (classOf spellings) (done ++ [path]) = leaders (classOf spellings) done ∧
      number spellings path = id := by
  obtain ⟨first, hfirst, hclass⟩ := (numbered.register_iff represents closed hwalk walked id).mp h
  have hmem : classOf spellings path ∈
      (leaders (classOf spellings) done).map (classOf spellings) :=
    hclass ▸ List.mem_map_of_mem (List.mem_of_getElem? hfirst)
  refine ⟨by rw [Spelling.leaders_concat, if_pos hmem], ?_⟩
  rw [number, ← hclass, ← number, Spelling.number_of_getElem? hwalk hfirst]

theorem of_miss (numbered : Numbered trie spellings done merge)
    (represents : Represents trie order merge) (closed : Closed spellings)
    (hwalk : walk spellings = done ++ path :: after) (walked : Walked spellings path symbol)
    (h : merge.register[Signature.ofNode (symbol.node (Spelling.children spellings path))]? = none) :
    leaders (classOf spellings) (done ++ [path]) = leaders (classOf spellings) done ++ [path] ∧
      number spellings path = merge.graph.size := by
  have hnew : classOf spellings path ∉
      (leaders (classOf spellings) done).map (classOf spellings) := by
    intro hmem
    obtain ⟨first, hfirst, hclass⟩ := List.mem_map.mp hmem
    obtain ⟨id, hid⟩ := List.mem_iff_getElem?.mp hfirst
    rw [(numbered.register_iff represents closed hwalk walked id).mpr ⟨first, hid, hclass⟩] at h
    cases h
  have hleaders : leaders (classOf spellings) (done ++ [path]) =
      leaders (classOf spellings) done ++ [path] := by
    rw [Spelling.leaders_concat, if_neg hnew]
  have hthrough : walk spellings = (done ++ [path]) ++ after := by
    rw [hwalk, List.append_assoc, List.singleton_append]
  refine ⟨hleaders, Spelling.number_of_getElem? hthrough ?_⟩
  rw [hleaders, numbered.size, List.getElem?_concat_length]

/-- Only the path that is taken gets a number. -/
theorem id_concat (numbered : Numbered trie spellings done merge)
    (represents : Represents trie order merge) (hdone : done.map trie.find? = order.map some)
    (hfind : trie.find? path = some index)
    (htaken : (Merge.take trie merge index).id? index = some (number spellings path)) :
    ∀ found ∈ done ++ [path], ∀ other, trie.find? found = some other →
      (Merge.take trie merge index).id? other = some (number spellings found) := by
  intro found hfound other hother
  rcases List.mem_append.mp hfound with hfound | hfound
  · have hsome : some other ∈ order.map some := hdone ▸ hother ▸ List.mem_map_of_mem hfound
    have hmem : other ∈ order := (List.mem_map_of_injective (Option.some_injective _)).mp hsome
    rw [represents.id?_take index hmem, numbered.id found hfound other hother]
  · cases List.mem_singleton.mp hfound
    cases Option.some.inj (hother.symm.trans hfind)
    exact htaken

theorem node_push (numbered : Numbered trie spellings done merge)
    (walked : Walked spellings path symbol)
    (hadmits : merge.graph.Admits (symbol.node (Spelling.children spellings path)).children)
    {id : Nat} {first : List Symbol}
    (h : (leaders (classOf spellings) done ++ [path])[id]? = some first) :
    (merge.graph.push _ hadmits).node? id = Spelling.node? spellings first := by
  rw [Graph.node?_push]
  rcases Nat.lt_or_ge id merge.graph.size with hlt | hge
  · rw [List.getElem?_append_left (numbered.size ▸ hlt)] at h
    rw [if_neg (Nat.ne_of_lt hlt), numbered.node id first h]
  · rw [List.getElem?_append_right (numbered.size ▸ hge), List.getElem?_singleton] at h
    split at h
    · cases h
      have hid : id = merge.graph.size := by
        rw [numbered.size] at hge ⊢
        omega
      rw [if_pos hid, Spelling.node?, walked.last, Option.map_some]
    · cases h

theorem take (numbered : Numbered trie spellings done merge)
    (represents : Represents trie order merge) (tree : trie.IsTree)
    (ordered : trie.Ordered spellings) (closed : Closed spellings)
    (hdone : done.map trie.find? = order.map some)
    (hwalk : walk spellings = done ++ path :: after) (hfind : trie.find? path = some index)
    (hchildren : ∀ child ∈ trie.children index, child ∈ order) :
    Numbered trie spellings (done ++ [path]) (Merge.take trie merge index) := by
  obtain ⟨symbol, walked⟩ := Spelling.exists_walked
    (hwalk ▸ List.mem_append_right done List.mem_cons_self)
  have hsymbol : trie.symbol? index = some symbol := by
    obtain ⟨start, rfl⟩ := List.getLast?_eq_some_iff.mp walked.last
    rw [Trie.find?_concat, Option.bind_eq_some_iff] at hfind
    obtain ⟨_, _, hchild⟩ := hfind
    exact (Trie.child?_eq_some hchild).2
  have hsize : index < merge.merged.size := represents.size ▸ Trie.find?_lt hfind
  rcases take_cases trie merge index with ⟨hnone, _⟩ | ⟨found, node, hfound, rfl, hcases⟩
  · rw [hsymbol] at hnone
    cases hnone
  · cases Option.some.inj (hsymbol.symm.trans hfound)
    rw [numbered.ids_children tree ordered hdone hfind hchildren] at hcases
    rcases hcases with ⟨id, hlt, hhit, htake⟩ | ⟨hmiss, hadmits, hlt, htake⟩
    · obtain ⟨hleaders, hnumber⟩ := numbered.of_hit represents closed hwalk walked hhit
      refine ⟨numbered.id_concat represents hdone hfind ?_, ?_, ?_⟩
      · rw [htake, id?_assign, if_pos ⟨rfl, hsize⟩, hnumber]
      · rw [hleaders, htake]
        exact numbered.size
      · rw [hleaders, htake]
        exact numbered.node
    · obtain ⟨hleaders, hnumber⟩ := numbered.of_miss represents closed hwalk walked hmiss
      refine ⟨numbered.id_concat represents hdone hfind ?_, ?_, fun id first hfirst => ?_⟩
      · rw [htake, id?_assign, if_pos ⟨rfl, hsize⟩, hnumber]
      · rw [hleaders, htake, List.length_append, ← numbered.size]
        exact Graph.size_push _ _ hadmits
      · rw [hleaders] at hfirst
        rw [htake]
        exact numbered.node_push walked hadmits hfirst

end Step

theorem foldl (tree : trie.IsTree) (ordered : trie.Ordered spellings) (closed : Closed spellings)
    (hfirst : trie.ChildrenFirst order) (hlt : ∀ index ∈ order, index < trie.size)
    {after : List (List Symbol)} (hwalk : walk spellings = done ++ after)
    (hdone : done.map trie.find? = order.map some) :
    Numbered trie spellings done (order.foldl (Merge.take trie) (start trie.size)) := by
  induction hfirst generalizing done after with
  | nil =>
      cases List.map_eq_nil_iff.mp hdone
      exact numbered_start trie spellings
  | @concat order index settled children ih =>
      rw [List.map_append, List.map_singleton, List.map_eq_append_iff] at hdone
      obtain ⟨before, last, rfl, hbefore, hlast⟩ := hdone
      obtain ⟨path, rfl, hfind⟩ := List.map_eq_singleton_iff.mp hlast
      have hltBefore : ∀ other ∈ order, other < trie.size := fun other hother =>
        hlt other (List.mem_append_left _ hother)
      rw [List.append_assoc, List.singleton_append] at hwalk
      rw [List.foldl_append]
      exact (ih hltBefore hwalk hbefore).take (Represents.foldl hltBefore settled) tree ordered
        closed hbefore hwalk hfind children

end Numbered

end Merge

namespace Trie

open Spelling (Closed firsts walk)

variable {trie : Trie} {spellings : List (List Symbol)}

/-- The root comes last and becomes no node. -/
theorem IsTree.ofTrie_eq (tree : trie.IsTree) :
    Merge.ofTrie trie = ((trie.children 0).flatMap trie.below).foldl (Merge.take trie)
      (.start trie.size) := by
  rw [Merge.ofTrie, postorder_eq, below_eq, List.foldl_append, List.foldl_cons, List.foldl_nil]
  rcases Merge.take_cases trie (((trie.children 0).flatMap trie.below).foldl (Merge.take trie)
    (.start trie.size)) 0 with ⟨_, htake⟩ | ⟨symbol, _, hsymbol, _⟩
  · exact htake
  · rw [tree.root] at hsymbol
    cases hsymbol

theorem Ordered.numbered (ordered : trie.Ordered spellings) (tree : trie.IsTree)
    (closed : Closed spellings) :
    Merge.Numbered trie spellings (walk spellings) (Merge.ofTrie trie) := by
  rw [tree.ofTrie_eq]
  refine .foldl tree ordered closed (.flatMap fun child _ => childrenFirst_below trie child) ?_
    (List.append_nil _).symm (ordered.map_find?_walk tree)
  intro index hindex
  obtain ⟨child, hchild, hindex⟩ := List.mem_flatMap.mp hindex
  exact lt_of_mem_below (lt_of_mem_children hchild).2 hindex

/-- The nodes of the graph, and its root. -/
theorem Ordered.toGraph_eq (ordered : trie.Ordered spellings) (tree : trie.IsTree)
    (closed : Closed spellings) :
    trie.toGraph.size = (firsts spellings).length ∧
      (∀ id path, (firsts spellings)[id]? = some path →
        trie.toGraph.node? id = Spelling.node? spellings path) ∧
      trie.toGraph.root = Spelling.children spellings [] := by
  have numbered := ordered.numbered tree closed
  refine ⟨numbered.size, numbered.node, ?_⟩
  refine numbered.ids_children tree ordered (ordered.map_find?_walk tree) trie.find?_nil ?_
  exact fun child hchild => List.mem_flatMap.mpr ⟨child, hchild, self_mem_below trie child⟩

end Trie

end Lexicon
