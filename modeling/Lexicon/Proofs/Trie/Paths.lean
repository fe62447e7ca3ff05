import Lexicon.Trie.Basic
import Mathlib.Data.List.Find
import Mathlib.Data.List.Induction
import Mathlib.Data.List.Nodup

namespace Lexicon.Trie

/-! Paths from the root. In a trie they stand for its nodes, one for one. -/

variable {trie : Trie}

def Has (trie : Trie) (path : List Symbol) : Prop :=
  (trie.find? path).isSome

@[simp] theorem find?_nil (trie : Trie) : trie.find? [] = some 0 :=
  rfl

theorem find?_concat (trie : Trie) (path : List Symbol) (symbol : Symbol) :
    trie.find? (path ++ [symbol]) = (trie.find? path).bind (trie.child? · symbol) := by
  simp [find?, List.foldlM_append]

theorem child?_eq_some {index child : Nat} {symbol : Symbol}
    (h : trie.child? index symbol = some child) :
    child ∈ trie.children index ∧ trie.symbol? child = some symbol :=
  ⟨List.mem_of_find?_eq_some h, by simpa using List.find?_some h⟩

theorem child?_isSome_iff {index : Nat} {symbol : Symbol} :
    (trie.child? index symbol).isSome ↔
      ∃ child ∈ trie.children index, trie.symbol? child = some symbol := by
  simp [child?, List.find?_isSome]

theorem lt_of_child? {index child : Nat} {symbol : Symbol}
    (h : trie.child? index symbol = some child) : index < child ∧ child < trie.size :=
  lt_of_mem_children (child?_eq_some h).1

theorem find?_lt {path : List Symbol} {index : Nat} (h : trie.find? path = some index) :
    index < trie.size := by
  rcases List.eq_nil_or_concat path with rfl | ⟨start, symbol, rfl⟩
  · cases h
    exact trie.nonempty
  · rw [List.concat_eq_append, find?_concat, Option.bind_eq_some_iff] at h
    obtain ⟨parent, _, hchild⟩ := h
    exact (lt_of_child? hchild).2

/-- Only the root has no symbol. All other nodes are the child of one node, and no
two children of a node have the same symbol. -/
structure IsTree (trie : Trie) : Prop where
  root : trie.symbol? 0 = none
  labelled : ∀ index, 0 < index → index < trie.size → ∃ symbol, trie.symbol? index = some symbol
  distinct : ∀ index, ((trie.children index).map trie.symbol?).Nodup
  exists_parent : ∀ child, 0 < child → child < trie.size → ∃ parent, child ∈ trie.children parent
  parent_unique : ∀ child first second, child ∈ trie.children first →
    child ∈ trie.children second → first = second

namespace IsTree

theorem child?_of_mem (tree : trie.IsTree) {index child : Nat} {symbol : Symbol}
    (hmem : child ∈ trie.children index) (hsymbol : trie.symbol? child = some symbol) :
    trie.child? index symbol = some child := by
  obtain ⟨found, hfound⟩ := Option.isSome_iff_exists.mp
    (child?_isSome_iff.mpr ⟨child, hmem, hsymbol⟩)
  obtain ⟨hfoundMem, hfoundSymbol⟩ := child?_eq_some hfound
  have heq : found = child :=
    List.inj_on_of_nodup_map (tree.distinct index) hfoundMem hmem (hfoundSymbol.trans hsymbol.symm)
  rw [hfound, heq]

/-- Different paths lead to different nodes. -/
theorem find?_injective (tree : trie.IsTree) {first second : List Symbol} {index : Nat}
    (hfirst : trie.find? first = some index) (hsecond : trie.find? second = some index) :
    first = second := by
  induction first using List.reverseRecOn generalizing second index with
  | nil =>
      cases hfirst
      rcases List.eq_nil_or_concat second with rfl | ⟨start, symbol, rfl⟩
      · rfl
      · rw [List.concat_eq_append, find?_concat, Option.bind_eq_some_iff] at hsecond
        obtain ⟨parent, _, hchild⟩ := hsecond
        exact absurd (lt_of_child? hchild).1 (Nat.not_lt_zero parent)
  | append_singleton start symbol ih =>
      rw [find?_concat, Option.bind_eq_some_iff] at hfirst
      obtain ⟨parent, hparent, hchild⟩ := hfirst
      rcases List.eq_nil_or_concat second with rfl | ⟨other, last, rfl⟩
      · cases hsecond
        exact absurd (lt_of_child? hchild).1 (Nat.not_lt_zero parent)
      · rw [List.concat_eq_append, find?_concat, Option.bind_eq_some_iff] at hsecond
        obtain ⟨above, habove, hlast⟩ := hsecond
        obtain ⟨hmem, hsymbol⟩ := child?_eq_some hchild
        obtain ⟨hmemLast, hsymbolLast⟩ := child?_eq_some hlast
        cases tree.parent_unique index parent above hmem hmemLast
        cases Option.some.inj (hsymbol.symm.trans hsymbolLast)
        rw [List.concat_eq_append, ih hparent habove]

/-- A path leads to each node. -/
theorem exists_path (tree : trie.IsTree) {index : Nat} (h : index < trie.size) :
    ∃ path, trie.find? path = some index := by
  induction index using Nat.strongRecOn with
  | ind index ih =>
      rcases Nat.eq_zero_or_pos index with rfl | hpos
      · exact ⟨[], rfl⟩
      · obtain ⟨parent, hmem⟩ := tree.exists_parent index hpos h
        obtain ⟨symbol, hsymbol⟩ := tree.labelled index hpos h
        have hparent := (lt_of_mem_children hmem).1
        obtain ⟨path, hpath⟩ := ih parent hparent (Nat.lt_trans hparent h)
        refine ⟨path ++ [symbol], ?_⟩
        rw [find?_concat, hpath]
        exact tree.child?_of_mem hmem hsymbol

end IsTree

/-! Growing a trie by a node. -/

@[simp] theorem size_append (trie : Trie) (parent : Nat) (symbol : Symbol) :
    (trie.append parent symbol).size = trie.size + 1 := by
  simp [append, size]

theorem symbol?_append (trie : Trie) (parent : Nat) (symbol : Symbol) (index : Nat) :
    (trie.append parent symbol).symbol? index =
      if index = trie.size then some symbol else trie.symbol? index := by
  have hsize : trie.size = trie.nodes.size := rfl
  rw [hsize]
  unfold symbol? append
  simp only [Array.getElem?_push, Array.size_modify, Array.getElem?_modify]
  by_cases hindex : index = trie.nodes.size
  · simp [hindex]
  · rw [if_neg hindex, if_neg hindex]
    split
    · cases trie.nodes[index]? <;> rfl
    · rfl

theorem children_append {parent : Nat} (hparent : parent < trie.size) (symbol : Symbol)
    (index : Nat) :
    (trie.append parent symbol).children index =
      if index = parent then trie.children index ++ [trie.size] else trie.children index := by
  unfold children append
  unfold size at hparent
  simp only [Array.getElem?_push, Array.size_modify, Array.getElem?_modify, size]
  by_cases hindex : index = trie.nodes.size
  · have hne : index ≠ parent := by omega
    rw [if_pos hindex, if_neg hne, Array.getElem?_eq_none (by omega)]
    rfl
  · rw [if_neg hindex]
    by_cases hsame : index = parent
    · subst hsame
      simp [hparent, TrieNode.addChild]
    · simp [hsame, Ne.symm hsame]

theorem mem_children_append {parent : Nat} (hparent : parent < trie.size) {symbol : Symbol}
    {index child : Nat} :
    child ∈ (trie.append parent symbol).children index ↔
      (child = trie.size ∧ index = parent) ∨ child ∈ trie.children index := by
  rw [children_append hparent]
  split
  · rename_i hsame
    simp [hsame, or_comm]
  · rename_i hother
    simp [hother]

theorem symbol?_append_of_mem {index child : Nat} (h : child ∈ trie.children index) (parent : Nat)
    (symbol : Symbol) : (trie.append parent symbol).symbol? child = trie.symbol? child := by
  have hlt := (lt_of_mem_children h).2
  rw [symbol?_append, if_neg (Nat.ne_of_lt hlt)]

theorem isTree_empty : empty.IsTree where
  root := rfl
  labelled := by
    intro index hpos hlt
    have : empty.size = 1 := rfl
    omega
  distinct := by
    intro index
    cases index <;> simp [children, empty]
  exists_parent := by
    intro child hpos hlt
    have : empty.size = 1 := rfl
    omega
  parent_unique := by
    intro child first second hfirst _
    cases first <;> simp [children, empty] at hfirst

theorem IsTree.append (tree : trie.IsTree) {parent : Nat} {symbol : Symbol}
    (hparent : parent < trie.size) (hfresh : trie.child? parent symbol = none) :
    (trie.append parent symbol).IsTree where
  root := by
    have := trie.nonempty
    rw [symbol?_append, if_neg (by unfold size; omega), tree.root]
  labelled := by
    intro index hpos hlt
    rw [size_append] at hlt
    rw [symbol?_append]
    split
    · exact ⟨symbol, rfl⟩
    · exact tree.labelled index hpos (by omega)
  distinct := by
    intro index
    have hold : (trie.children index).map (trie.append parent symbol).symbol? =
        (trie.children index).map trie.symbol? :=
      List.map_congr_left fun child hchild => symbol?_append_of_mem hchild parent symbol
    rw [children_append hparent]
    split
    · rename_i hsame
      subst hsame
      rw [List.map_append, hold, List.map_cons, symbol?_append, if_pos rfl, List.map_nil]
      apply List.Nodup.append (tree.distinct index) (List.nodup_singleton _)
      intro found hfound hsymbol
      obtain ⟨child, hchild, rfl⟩ := List.mem_map.mp hfound
      have hsome := child?_isSome_iff.mpr ⟨child, hchild, List.mem_singleton.mp hsymbol⟩
      rw [hfresh] at hsome
      cases hsome
    · rw [hold]
      exact tree.distinct index
  exists_parent := by
    intro child hpos hlt
    rw [size_append] at hlt
    by_cases hnew : child = trie.size
    · exact ⟨parent, (mem_children_append hparent).mpr (.inl ⟨hnew, rfl⟩)⟩
    · obtain ⟨old, hmem⟩ := tree.exists_parent child hpos (by omega)
      exact ⟨old, (mem_children_append hparent).mpr (.inr hmem)⟩
  parent_unique := by
    intro child first second hfirst hsecond
    rcases (mem_children_append hparent).mp hfirst with ⟨rfl, rfl⟩ | hfirst
    · rcases (mem_children_append hparent).mp hsecond with ⟨_, rfl⟩ | hsecond
      · rfl
      · exact absurd (lt_of_mem_children hsecond).2 (Nat.lt_irrefl _)
    · rcases (mem_children_append hparent).mp hsecond with ⟨rfl, _⟩ | hsecond
      · exact absurd (lt_of_mem_children hfirst).2 (Nat.lt_irrefl _)
      · exact tree.parent_unique child first second hfirst hsecond

theorem child?_append {parent : Nat} (hparent : parent < trie.size) (symbol : Symbol)
    (index : Nat) (sought : Symbol) :
    (trie.append parent symbol).child? index sought =
      if index = parent then
        (trie.child? index sought).or (if symbol = sought then some trie.size else none)
      else trie.child? index sought := by
  have hold : (trie.children index).find?
      (fun child => (trie.append parent symbol).symbol? child == some sought) =
        trie.child? index sought := by
    unfold child?
    apply List.find?_congr
    intro child hchild
    rw [symbol?_append_of_mem hchild]
  unfold child? at hold ⊢
  rw [children_append hparent]
  split
  · rw [List.find?_append, hold, List.find?_singleton, symbol?_append, if_pos rfl]
    simp
  · exact hold

theorem child?_size (trie : Trie) (symbol : Symbol) : trie.child? trie.size symbol = none := by
  have : trie.children trie.size = [] := by simp [children, size]
  simp [child?, this]

/-- The new node is the only one that a new path leads to. -/
theorem find?_append (tree : trie.IsTree) {path : List Symbol} {parent : Nat}
    (hpath : trie.find? path = some parent) {symbol : Symbol}
    (hfresh : trie.child? parent symbol = none) (sought : List Symbol) :
    (trie.append parent symbol).find? sought =
      if sought = path ++ [symbol] then some trie.size else trie.find? sought := by
  have hparent := find?_lt hpath
  induction sought using List.reverseRecOn with
  | nil => simp
  | append_singleton start last ih =>
      rw [find?_concat, ih]
      by_cases hstart : start = path ++ [symbol]
      · have hmissing : trie.find? start = none := by
          rw [hstart, find?_concat, hpath]
          exact hfresh
        have hlonger : start ++ [last] ≠ path ++ [symbol] := by
          intro heq
          have := congrArg List.length (hstart ▸ heq)
          simp at this
        rw [if_pos hstart, if_neg hlonger, find?_concat, hmissing, Option.bind_some,
          child?_append hparent, if_neg (by omega), child?_size]
        rfl
      · rw [if_neg hstart, find?_concat]
        cases hfound : trie.find? start with
        | none =>
            have hne : start ++ [last] ≠ path ++ [symbol] := by
              intro heq
              cases (List.append_inj' heq rfl).1
              rw [hpath] at hfound
              cases hfound
            rw [if_neg hne]
            rfl
        | some index =>
            rw [Option.bind_some, Option.bind_some, child?_append hparent]
            by_cases hsame : index = parent
            · subst hsame
              cases tree.find?_injective hfound hpath
              rw [if_pos rfl]
              by_cases hlast : symbol = last
              · subst hlast
                simp [hfresh]
              · have hne : path ++ [last] ≠ path ++ [symbol] := by
                  simp [Ne.symm hlast]
                rw [if_neg hlast, if_neg hne, Option.or_none]
            · have hne : start ++ [last] ≠ path ++ [symbol] := by
                intro heq
                cases (List.append_inj' heq rfl).1
                exact hsame (Option.some.inj (hfound.symm.trans hpath))
              rw [if_neg hsame, if_neg hne]

theorem has_append (tree : trie.IsTree) {path : List Symbol} {parent : Nat}
    (hpath : trie.find? path = some parent) {symbol : Symbol}
    (hfresh : trie.child? parent symbol = none) (sought : List Symbol) :
    (trie.append parent symbol).Has sought ↔ trie.Has sought ∨ sought = path ++ [symbol] := by
  unfold Has
  rw [find?_append tree hpath hfresh]
  split <;> simp [*]

/-! Inserting a path, step by step. -/

/-- What has become of a trie once `path` has been followed in it. -/
structure Followed (before : Trie) (path : List Symbol) (state : Trie × Nat) : Prop where
  tree : state.1.IsTree
  find : state.1.find? path = some state.2
  has : ∀ sought, state.1.Has sought ↔ before.Has sought ∨ sought <+: path

theorem followed_nil (tree : trie.IsTree) : trie.Followed [] (trie, 0) where
  tree := tree
  find := rfl
  has := by
    intro sought
    constructor
    · exact .inl
    · intro hcases
      rcases hcases with h | h
      · exact h
      · rw [List.prefix_nil.mp h]
        rfl

theorem Followed.extend {path : List Symbol} {state : Trie × Nat}
    (followed : trie.Followed path state) (symbol : Symbol) :
    trie.Followed (path ++ [symbol]) (extend state symbol) := by
  obtain ⟨now, index⟩ := state
  obtain ⟨tree, hfind, hhas⟩ := followed
  simp only at tree hfind hhas
  have hiff : ∀ sought, now.Has sought ∨ sought = path ++ [symbol] ↔
      trie.Has sought ∨ sought <+: path ++ [symbol] := by
    intro sought
    rw [hhas, List.prefix_concat_iff, or_assoc, or_comm (b := sought = path ++ [symbol])]
  unfold Trie.extend
  simp only
  split
  · rename_i child hchild
    have hlonger : now.find? (path ++ [symbol]) = some child := by
      rw [find?_concat, hfind]
      exact hchild
    refine ⟨tree, hlonger, fun sought => ?_⟩
    rw [← hiff]
    constructor
    · exact .inl
    · intro hcases
      rcases hcases with h | rfl
      · exact h
      · exact Option.isSome_iff_exists.mpr ⟨child, hlonger⟩
  · rename_i hfresh
    refine ⟨tree.append (find?_lt hfind) hfresh, ?_, fun sought => ?_⟩
    · rw [find?_append tree hfind hfresh, if_pos rfl]
    · rw [has_append tree hfind hfresh, hiff]

theorem followed_foldl (tree : trie.IsTree) (path : List Symbol) :
    trie.Followed path (path.foldl extend (trie, 0)) := by
  induction path using List.reverseRecOn with
  | nil => exact followed_nil tree
  | append_singleton start symbol ih =>
      rw [List.foldl_append]
      exact ih.extend symbol

theorem IsTree.insert (tree : trie.IsTree) (path : List Symbol) : (trie.insert path).IsTree :=
  (followed_foldl tree path).tree

theorem has_insert (tree : trie.IsTree) (path sought : List Symbol) :
    (trie.insert path).Has sought ↔ trie.Has sought ∨ sought <+: path :=
  (followed_foldl tree path).has sought

end Lexicon.Trie
