import Lexicon.Proofs.DictionaryGraph

namespace Lexicon

/-! The trie of a dictionary after any sequence of calls. -/

namespace Trie

variable {trie : Trie}

/-- Edges lead along these symbols to a node, whichever edges a search would take. -/
inductive Leads (trie : Trie) : List Symbol → Nat → Prop
  | root : Leads trie [] 0
  | child {path : List Symbol} {parent child : Nat} {symbol : Symbol}
      (above : Leads trie path parent) (mem : child ∈ trie.children parent)
      (symbol_eq : trie.symbol? child = some symbol) : Leads trie (path ++ [symbol]) child

def isValue (trie : Trie) (index : Nat) : Bool :=
  match trie.symbol? index with
  | some (.value _) => true
  | _ => false

def valueNodes (trie : Trie) : List Nat :=
  (List.range trie.size).filter trie.isValue

/-- Only the root has no symbol and no parent. Every other node is once among the children of
one node, which was made before it. No two children of a node have one character, or a value
each. A word ends at a value, and nowhere else, and it is not empty. -/
structure WellFormed (trie : Trie) : Prop where
  root : trie.symbol? 0 = none ∧ ∀ index, 0 ∉ trie.children index
  parent : ∀ child, 0 < child → child < trie.size →
    (∃ symbol, trie.symbol? child = some symbol) ∧
    ∃ parent < child, (trie.children parent).count child = 1 ∧
      ∀ other, child ∈ trie.children other → other = parent
  char : ∀ index byte,
    (trie.children index).countP (fun child => trie.symbol? child = some (.char byte)) ≤ 1
  value : ∀ index, (trie.children index).countP trie.isValue ≤ 1
  leaf : ∀ index, trie.isValue index → trie.children index = []
  nonempty : ∀ child ∈ trie.children 0, ¬ trie.isValue child
  inner : ∀ index byte, trie.symbol? index = some (.char byte) → trie.children index ≠ []

theorem isValue_iff {index : Nat} :
    trie.isValue index ↔ ∃ v, trie.symbol? index = some (.value v) := by
  unfold isValue
  split <;> simp_all

theorem mem_valueNodes_iff {index : Nat} :
    index ∈ trie.valueNodes ↔ ∃ v, trie.symbol? index = some (.value v) := by
  rw [valueNodes, List.mem_filter, List.mem_range, isValue_iff]
  exact ⟨And.right, fun h => ⟨lt_of_symbol? h.choose_spec, h⟩⟩

theorem IsTree.leads_iff (tree : trie.IsTree) {path : List Symbol} {index : Nat} :
    trie.Leads path index ↔ trie.find? path = some index := by
  constructor
  · intro leads
    induction leads with
    | root => rfl
    | child above mem symbol_eq ih =>
        rw [find?_concat, ih]
        exact tree.child?_of_mem mem symbol_eq
  · intro hpath
    induction path using List.reverseRecOn generalizing index with
    | nil =>
        cases hpath
        exact .root
    | append_singleton start symbol ih =>
        rw [find?_concat, Option.bind_eq_some_iff] at hpath
        obtain ⟨parent, hparent, hchild⟩ := hpath
        obtain ⟨hmem, hsymbol⟩ := child?_eq_some hchild
        exact .child (ih hparent) hmem hsymbol

theorem countP_letter?_le_one (lawful : trie.Lawful) (index : Nat) (letter : Option UInt8) :
    (trie.children index).countP (fun child => trie.letter? child = letter) ≤ 1 := by
  have hcount := List.nodup_iff_count_le_one.mp (lawful.single index) letter
  rw [List.count, List.countP_map] at hcount
  exact Nat.le_trans (Nat.le_of_eq (List.countP_congr fun child _ => by simp)) hcount

theorem Lawful.wellFormed (lawful : trie.Lawful)
    (nonempty : ∀ child ∈ trie.children 0, ¬ trie.isValue child) : trie.WellFormed where
  root := ⟨lawful.root, fun index h => Nat.not_lt_zero index (lt_of_mem_children h).1⟩
  parent child hpositive hlt := by
    obtain ⟨parent, hmem⟩ := lawful.exists_parent child hpositive hlt
    refine ⟨lawful.labelled child hpositive hlt, parent, (lt_of_mem_children hmem).1, ?_,
      fun other hother => lawful.parent_unique child other parent hother hmem⟩
    exact List.count_eq_one_of_mem (.of_map _ (lawful.distinct parent)) hmem
  char index byte := by
    refine Nat.le_trans (List.countP_mono_left fun child _ hsymbol => ?_)
      (countP_letter?_le_one lawful index (some byte))
    rw [decide_eq_true_eq] at hsymbol ⊢
    rw [letter?, hsymbol]
    rfl
  value index := by
    refine Nat.le_trans (List.countP_mono_left fun child _ hvalue => ?_)
      (countP_letter?_le_one lawful index none)
    obtain ⟨v, hsymbol⟩ := isValue_iff.mp hvalue
    rw [decide_eq_true_eq, letter?, hsymbol]
    rfl
  leaf index hvalue := by
    obtain ⟨v, hsymbol⟩ := isValue_iff.mp hvalue
    exact lawful.leaf index v hsymbol
  nonempty := nonempty
  inner := lawful.inner

/-- Follows the characters of a word, with new nodes where the trie has none for them. The value
becomes a new node in any case. -/
def plant (trie : Trie) (entry : Entry) : Trie :=
  let (grown, index) := (entry.word.map .char).foldl extend (trie, 0)
  grown.append index (.value entry.value)

end Trie

namespace Dictionary

variable {dictionary : Dictionary} {entries : List Entry}

namespace Holds

theorem wellFormed (holds : dictionary.Holds entries) : dictionary.trie.WellFormed := by
  refine holds.lawful.wellFormed fun child hchild hvalue => ?_
  obtain ⟨v, hsymbol⟩ := Trie.isValue_iff.mp hvalue
  obtain ⟨entry, hentry, hprefix⟩ := holds.path_to_child (Trie.find?_nil _) hchild hsymbol
  have hspelling := Entry.concat_value_prefix_iff.mp hprefix
  have hword : [] = entry.word.map Symbol.char := (List.append_inj' hspelling rfl).1
  exact (holds.fits entry hentry).nonempty (List.map_eq_nil_iff.mp hword.symm)

/-- A node with a value is where the spelling of an entry leads to. -/
theorem exists_entry (holds : dictionary.Holds entries) {index : Nat}
    (hindex : index ∈ dictionary.trie.valueNodes) :
    ∃ entry ∈ entries, dictionary.trie.find? entry.spelling = some index := by
  obtain ⟨v, hsymbol⟩ := Trie.mem_valueNodes_iff.mp hindex
  obtain ⟨start, hfind, entry, hentry, hprefix⟩ := holds.exists_path hsymbol
  exact ⟨entry, hentry, Entry.concat_value_prefix_iff.mp hprefix ▸ hfind⟩

theorem find?_spelling (holds : dictionary.Holds entries) {entry : Entry}
    (hentry : entry ∈ entries) : ∃ index ∈ dictionary.trie.valueNodes,
      dictionary.trie.find? entry.spelling = some index := by
  obtain ⟨index, hfind⟩ :=
    Option.isSome_iff_exists.mp ((holds.has_spelling_iff entry).mpr hentry)
  exact ⟨index, Trie.mem_valueNodes_iff.mpr ⟨entry.value, symbol?_of_find? hfind⟩, hfind⟩

theorem length_valueNodes (holds : dictionary.Holds entries) :
    dictionary.trie.valueNodes.length = entries.length := by
  let nodeOf (entry : Entry) : Nat := (dictionary.trie.find? entry.spelling).getD 0
  have hnodeOf {entry : Entry} {index : Nat}
      (hfind : dictionary.trie.find? entry.spelling = some index) : nodeOf entry = index := by
    simp only [nodeOf, hfind, Option.getD_some]
  have hnodup : (entries.map nodeOf).Nodup := by
    refine List.Nodup.map_on (fun first hfirst second hsecond hsame => ?_)
      (.of_map _ holds.distinct)
    obtain ⟨index, _, hindex⟩ := holds.find?_spelling hfirst
    obtain ⟨other, _, hother⟩ := holds.find?_spelling hsecond
    rw [hnodeOf hindex, hnodeOf hother] at hsame
    exact Entry.spelling_injective (holds.tree.find?_injective hindex (hsame ▸ hother))
  have hperm : dictionary.trie.valueNodes.Perm (entries.map nodeOf) := by
    refine (List.perm_ext_iff_of_nodup (List.nodup_range.filter _) hnodup).mpr fun index => ?_
    rw [List.mem_map]
    constructor
    · intro hindex
      obtain ⟨entry, hentry, hfind⟩ := holds.exists_entry hindex
      exact ⟨entry, hentry, hnodeOf hfind⟩
    · rintro ⟨entry, hentry, rfl⟩
      obtain ⟨index, hindex, hfind⟩ := holds.find?_spelling hentry
      exact hnodeOf hfind ▸ hindex
  rw [hperm.length_eq, List.length_map]

/-- A word that is new has no value yet, so that its last node is new as well. -/
theorem insert_spelling_eq (holds : dictionary.Holds entries) {entry : Entry}
    (hnew : ∀ earlier ∈ entries, earlier.word ≠ entry.word) :
    dictionary.trie.insert entry.spelling = dictionary.trie.plant entry := by
  have followed := Trie.followed_foldl holds.tree (entry.word.map Symbol.char)
  rw [Trie.insert, Entry.spelling, List.foldl_append, Trie.plant]
  generalize (entry.word.map Symbol.char).foldl Trie.extend (dictionary.trie, 0) = state
    at followed ⊢
  obtain ⟨grown, index⟩ := state
  have hfresh : grown.child? index (.value entry.value) = none := by
    rw [← Option.not_isSome_iff_eq_none]
    intro hchild
    have hhas : grown.Has entry.spelling := by
      rw [Trie.Has, Entry.spelling, Trie.find?_concat, followed.find]
      exact hchild
    rcases (followed.has entry.spelling).mp hhas with hold | hprefix
    · exact hnew entry ((holds.has_spelling_iff entry).mp hold) rfl
    · have := hprefix.length_le
      simp [Entry.spelling] at this
  simp only [List.foldl_cons, List.foldl_nil, Trie.extend, hfresh]

end Holds

/-- Whatever calls came before, refused or not: the trie is well-formed, as many of its nodes
have values as calls were taken, the spelling of one entry leads to each of these nodes, and
spellings lead to a node if and only if their entry was taken. The value of an entry that is
taken becomes a new node. -/
theorem trie_invariant (calls : List Entry) :
    (empty.addAll calls).trie.WellFormed ∧
    (empty.addAll calls).trie.valueNodes.length = (empty.addAll calls).count ∧
    (∀ index ∈ (empty.addAll calls).trie.valueNodes,
      ∃! entry : Entry, (empty.addAll calls).trie.Leads entry.spelling index) ∧
    (∀ entry : Entry, (∃ index, (empty.addAll calls).trie.Leads entry.spelling index) ↔
      entry ∈ empty.accepted calls) ∧
    ∀ call, ((empty.addAll calls).add call).1 = none →
      ((empty.addAll calls).add call).2.trie = (empty.addAll calls).trie.plant call := by
  have holds := holds_addAll calls
  refine ⟨holds.wellFormed, holds.length_valueNodes.trans holds.count.symm, fun index hindex => ?_,
    fun entry => ?_, fun call htaken => ?_⟩
  · obtain ⟨entry, _, hfind⟩ := holds.exists_entry hindex
    refine ⟨entry, holds.tree.leads_iff.mpr hfind, fun other hother => ?_⟩
    exact Entry.spelling_injective
      (holds.tree.find?_injective (holds.tree.leads_iff.mp hother) hfind)
  · rw [← holds.has_spelling_iff, Trie.Has, Option.isSome_iff_exists]
    exact exists_congr fun index => holds.tree.leads_iff
  · have hnone := add_eq_none_iff.mp htaken
    rw [Dictionary.add, hnone]
    exact holds.insert_spelling_eq ((holds.fault?_eq_none_iff call).mp hnone).2

end Dictionary

end Lexicon
