import Lexicon.Dictionary
import Lexicon.Proofs.Trie.Checked
import Lexicon.Proofs.Word

namespace Lexicon

/-! What a dictionary holds after any sequence of calls. -/

namespace Entry

/-- Words of printable characters with values of four bits. -/
structure Fits (entry : Entry) : Prop where
  nonempty : entry.word ≠ []
  printable : ∀ byte ∈ entry.word, 0x20 ≤ byte ∧ byte ≤ 0x7E
  small : entry.value ≤ 15

theorem spelling_injective {first second : Entry} (h : first.spelling = second.spelling) :
    first = second := by
  obtain ⟨hword, hvalue⟩ := List.append_inj' h rfl
  have hchar : Function.Injective Symbol.char := fun _ _ heq => Symbol.char.inj heq
  cases first
  cases second
  cases List.map_injective_iff.mpr hchar hword
  cases hvalue
  rfl

/-- The value stands at the end, and nowhere else. -/
theorem concat_value_prefix_iff {start : List Symbol} {v : UInt8} {entry : Entry} :
    start ++ [.value v] <+: entry.spelling ↔ start ++ [.value v] = entry.spelling := by
  constructor
  · intro h
    rcases List.prefix_concat_iff.mp h with h | h
    · exact h
    · have hmem : Symbol.value v ∈ entry.word.map Symbol.char :=
        h.subset (List.mem_append_right _ List.mem_cons_self)
      obtain ⟨byte, _, hbyte⟩ := List.mem_map.mp hmem
      cases hbyte
  · intro h
    rw [h]

theorem spelling_prefix_iff {first second : Entry} :
    first.spelling <+: second.spelling ↔ first = second :=
  concat_value_prefix_iff.trans ⟨spelling_injective, fun h => congrArg spelling h⟩

theorem mem_spelling_char {entry : Entry} {byte : UInt8} :
    Symbol.char byte ∈ entry.spelling ↔ byte ∈ entry.word := by
  simp [spelling]

theorem mem_spelling_value {entry : Entry} {v : UInt8} :
    Symbol.value v ∈ entry.spelling ↔ v = entry.value := by
  simp [spelling]

/-- Behind a character, the spelling goes on. -/
theorem exists_concat_prefix {start : List Symbol} {byte : UInt8} {entry : Entry}
    (h : start ++ [.char byte] <+: entry.spelling) :
    ∃ symbol, start ++ [.char byte] ++ [symbol] <+: entry.spelling := by
  obtain ⟨rest, hrest⟩ := h
  cases rest with
  | nil =>
      rw [List.append_nil] at hrest
      have := (List.append_inj' hrest rfl).2
      cases this
  | cons symbol rest => exact ⟨symbol, rest, by simpa using hrest⟩

end Entry

namespace Dictionary

/-- The dictionary after the entries have been added one by one, refused or not. -/
def addAll (dictionary : Dictionary) (calls : List Entry) : Dictionary :=
  calls.foldl (fun dictionary call => (dictionary.add call).2) dictionary

/-- The entries that are not refused when all are added one by one. -/
def accepted (dictionary : Dictionary) : List Entry → List Entry
  | [] => []
  | call :: rest =>
      match dictionary.add call with
      | (none, grown) => call :: grown.accepted rest
      | (some _, same) => same.accepted rest

/-- The words of a dictionary are those of `entries`. -/
structure Holds (dictionary : Dictionary) (entries : List Entry) : Prop where
  tree : dictionary.trie.IsTree
  has : ∀ path, dictionary.trie.Has path ↔ path = [] ∨ ∃ entry ∈ entries, path <+: entry.spelling
  fits : ∀ entry ∈ entries, entry.Fits
  distinct : (entries.map Entry.word).Nodup
  count : dictionary.count = entries.length

variable {dictionary : Dictionary} {entries : List Entry}

theorem holds_empty : empty.Holds [] where
  tree := Trie.isTree_empty
  has := by
    intro path
    cases path with
    | nil => simp [Trie.Has]
    | cons symbol rest => simp [Trie.Has, Trie.find?, Trie.child?, Trie.children, empty, Trie.empty]
  fits := by simp
  distinct := List.nodup_nil
  count := rfl

theorem Holds.eq_of_word (holds : dictionary.Holds entries) {first second : Entry}
    (hfirst : first ∈ entries) (hsecond : second ∈ entries) (h : first.word = second.word) :
    first = second :=
  List.inj_on_of_nodup_map holds.distinct hfirst hsecond h

theorem Holds.has_spelling_iff (holds : dictionary.Holds entries) (entry : Entry) :
    dictionary.trie.Has entry.spelling ↔ entry ∈ entries := by
  rw [holds.has]
  constructor
  · intro hcases
    rcases hcases with hnil | ⟨found, hfound, hprefix⟩
    · simp [Entry.spelling] at hnil
    · rwa [Entry.spelling_prefix_iff.mp hprefix]
  · exact fun h => .inr ⟨entry, h, List.prefix_rfl⟩

theorem contains_iff_has {trie : Trie} {word : Word} :
    trie.contains word ↔ ∃ v, trie.Has (Entry.mk word v).spelling := by
  have hspelling : ∀ v, trie.find? (Entry.mk word v).spelling =
      (trie.find? (word.map .char)).bind (trie.child? · (.value v)) :=
    fun v => trie.find?_concat _ _
  unfold Trie.contains Trie.Has
  simp only [hspelling]
  cases trie.find? (word.map .char) with
  | none => simp
  | some index =>
      simp only [Option.bind_some, Trie.child?_isSome_iff, List.any_eq_true]
      constructor
      · intro h
        obtain ⟨child, hchild, hvalue⟩ := h
        split at hvalue
        · exact ⟨_, child, hchild, ‹_›⟩
        · cases hvalue
      · intro h
        obtain ⟨v, child, hchild, hvalue⟩ := h
        exact ⟨child, hchild, by rw [hvalue]⟩

theorem Holds.contains_iff (holds : dictionary.Holds entries) (word : Word) :
    dictionary.trie.contains word ↔ ∃ entry ∈ entries, entry.word = word := by
  rw [contains_iff_has]
  constructor
  · intro h
    obtain ⟨v, hv⟩ := h
    exact ⟨_, (holds.has_spelling_iff _).mp hv, rfl⟩
  · intro h
    obtain ⟨entry, hentry, rfl⟩ := h
    exact ⟨entry.value, (holds.has_spelling_iff entry).mpr hentry⟩

/-- An entry is refused unless it fits and its word is new. -/
theorem Holds.fault?_eq_none_iff (holds : dictionary.Holds entries) (entry : Entry) :
    dictionary.fault? entry = none ↔
      entry.Fits ∧ ∀ earlier ∈ entries, earlier.word ≠ entry.word := by
  have hnew : (¬dictionary.trie.contains entry.word) ↔
      ∀ earlier ∈ entries, earlier.word ≠ entry.word := by
    rw [holds.contains_iff]
    simp
  have hprintable : (entry.word.find? fun byte => !isPrintable byte) = none ↔
      ∀ byte ∈ entry.word, 0x20 ≤ byte ∧ byte ≤ 0x7E := by
    simp [List.find?_eq_none, isPrintable_iff]
  rw [← hnew]
  unfold fault?
  split
  · rename_i hempty
    simp only [reduceCtorEq, false_iff, not_and]
    exact fun fits => absurd (List.isEmpty_iff.mp hempty) fits.nonempty
  · rename_i hnonempty
    split
    · rename_i byte hbyte
      simp only [reduceCtorEq, false_iff, not_and]
      intro fits
      rw [hprintable.mpr fits.printable] at hbyte
      cases hbyte
    · rename_i hall
      split
      · rename_i hlarge
        simp only [reduceCtorEq, false_iff, not_and]
        exact fun fits => absurd fits.small (UInt8.not_le.mpr hlarge)
      · rename_i hsmall
        have fits : entry.Fits :=
          ⟨fun hnil => hnonempty (by rw [hnil]; rfl), hprintable.mp hall, UInt8.not_lt.mp hsmall⟩
        split <;> simp [*]

theorem Holds.insert (holds : dictionary.Holds entries) {entry : Entry} (fits : entry.Fits)
    (hnew : ∀ earlier ∈ entries, earlier.word ≠ entry.word) :
    (dictionary.insert entry).Holds (entries ++ [entry]) where
  tree := holds.tree.insert entry.spelling
  has := by
    intro path
    change (dictionary.trie.insert entry.spelling).Has path ↔ _
    rw [Trie.has_insert holds.tree, holds.has]
    simp [or_and_right, exists_or, or_assoc]
  fits := by
    intro found hfound
    rcases List.mem_append.mp hfound with hfound | hfound
    · exact holds.fits found hfound
    · rwa [List.mem_singleton.mp hfound]
  distinct := by
    rw [List.map_append]
    apply List.Nodup.append holds.distinct (List.nodup_singleton _)
    intro word hword hsame
    obtain ⟨earlier, hearlier, rfl⟩ := List.mem_map.mp hword
    exact hnew earlier hearlier (List.mem_singleton.mp hsame)
  count := by
    simp [Dictionary.insert, holds.count]

theorem add_eq_none_iff {entry : Entry} :
    (dictionary.add entry).1 = none ↔ dictionary.fault? entry = none := by
  unfold Dictionary.add
  split <;> simp_all

theorem Holds.add (holds : dictionary.Holds entries) (entry : Entry) :
    ((dictionary.add entry).1 = none ∧ (dictionary.add entry).2.Holds (entries ++ [entry])) ∨
      ((dictionary.add entry).1.isSome ∧ (dictionary.add entry).2 = dictionary) := by
  unfold Dictionary.add
  cases hfault : dictionary.fault? entry with
  | some error => exact .inr ⟨rfl, rfl⟩
  | none =>
      obtain ⟨fits, hnew⟩ := (holds.fault?_eq_none_iff entry).mp hfault
      exact .inl ⟨rfl, holds.insert fits hnew⟩

theorem accepted_of_add_eq_none {call : Entry} {rest : List Entry}
    (h : (dictionary.add call).1 = none) :
    dictionary.accepted (call :: rest) = call :: (dictionary.add call).2.accepted rest := by
  rw [accepted]
  split <;> simp_all

theorem accepted_of_refused {call : Entry} {rest : List Entry}
    (h : (dictionary.add call).1.isSome) :
    dictionary.accepted (call :: rest) = (dictionary.add call).2.accepted rest := by
  rw [accepted]
  split <;> simp_all

theorem Holds.addAll (holds : dictionary.Holds entries) (calls : List Entry) :
    (dictionary.addAll calls).Holds (entries ++ dictionary.accepted calls) := by
  induction calls generalizing dictionary entries with
  | nil => simpa [Dictionary.addAll, accepted] using holds
  | cons call rest ih =>
      change ((dictionary.add call).2.addAll rest).Holds _
      rcases holds.add call with ⟨hnone, hgrown⟩ | ⟨hsome, hsame⟩
      · rw [accepted_of_add_eq_none hnone]
        simpa using ih hgrown
      · rw [accepted_of_refused hsome, hsame]
        exact ih holds

theorem holds_addAll (calls : List Entry) : (empty.addAll calls).Holds (empty.accepted calls) :=
  holds_empty.addAll calls

/-- Refused entries leave no trace. -/
theorem addAll_accepted (dictionary : Dictionary) (calls : List Entry) :
    dictionary.addAll (dictionary.accepted calls) = dictionary.addAll calls := by
  induction calls generalizing dictionary with
  | nil => rfl
  | cons call rest ih =>
      cases hcall : (dictionary.add call).1 with
      | none =>
          rw [accepted_of_add_eq_none hcall]
          exact ih (dictionary.add call).2
      | some error =>
          have hsame : (dictionary.add call).2 = dictionary := by
            unfold Dictionary.add at hcall ⊢
            split at hcall
            · rfl
            · cases hcall
          have hrest : dictionary.addAll (call :: rest) = dictionary.addAll rest := by
            change (dictionary.add call).2.addAll rest = _
            rw [hsame]
          rw [accepted_of_refused (by rw [hcall]; rfl), hsame, hrest]
          exact ih dictionary

/-! Entries none of which is refused. -/

theorem add?_eq_ok {entry : Entry} (h : (dictionary.add entry).1 = none) :
    dictionary.add? entry = .ok (dictionary.add entry).2 := by
  unfold add?
  split <;> simp_all

theorem add_of_add? {entry : Entry} {grown : Dictionary} (h : dictionary.add? entry = .ok grown) :
    (dictionary.add entry).1 = none ∧ (dictionary.add entry).2 = grown := by
  unfold add? at h
  split at h
  · cases h
  · rename_i heq
    cases h
    simp [heq]

theorem Holds.foldlM_add? (holds : dictionary.Holds entries) {calls : List Entry}
    {grown : Dictionary} (h : calls.foldlM add? dictionary = .ok grown) :
    grown.Holds (entries ++ calls) := by
  induction calls generalizing dictionary entries with
  | nil =>
      cases h
      simpa using holds
  | cons call rest ih =>
      rw [List.foldlM_cons] at h
      cases hcall : dictionary.add? call with
      | error error =>
          rw [hcall] at h
          cases h
      | ok next =>
          rw [hcall] at h
          obtain ⟨hnone, hnext⟩ := add_of_add? hcall
          rcases holds.add call with ⟨_, hgrown⟩ | ⟨hsome, _⟩
          · subst hnext
            have hrest := ih hgrown h
            rwa [List.append_assoc] at hrest
          · rw [hnone] at hsome
            cases hsome

theorem Holds.exists_foldlM_add? (holds : dictionary.Holds entries) {calls : List Entry}
    (fits : ∀ call ∈ calls, call.Fits) (distinct : ((entries ++ calls).map Entry.word).Nodup) :
    ∃ grown, calls.foldlM add? dictionary = .ok grown := by
  induction calls generalizing dictionary entries with
  | nil => exact ⟨dictionary, rfl⟩
  | cons call rest ih =>
      have hnew : ∀ earlier ∈ entries, earlier.word ≠ call.word := by
        intro earlier hearlier hsame
        rw [List.map_append] at distinct
        exact List.disjoint_of_nodup_append distinct (List.mem_map_of_mem hearlier)
          (hsame ▸ List.mem_map_of_mem List.mem_cons_self)
      have hnone := add_eq_none_iff.mpr
        ((holds.fault?_eq_none_iff call).mpr ⟨fits call List.mem_cons_self, hnew⟩)
      rcases holds.add call with ⟨_, hgrown⟩ | ⟨hsome, _⟩
      · obtain ⟨grown, h⟩ := ih hgrown (fun other hother => fits other (List.mem_cons_of_mem _ hother))
          (by simpa using distinct)
        exact ⟨grown, by rw [List.foldlM_cons, add?_eq_ok hnone]; exact h⟩
      · rw [hnone] at hsome
        cases hsome

theorem holds_ofEntries (h : ofEntries entries = .ok dictionary) : dictionary.Holds entries :=
  holds_empty.foldlM_add? h

theorem exists_ofEntries (fits : ∀ entry ∈ entries, entry.Fits)
    (distinct : (entries.map Entry.word).Nodup) :
    ∃ dictionary, ofEntries entries = .ok dictionary :=
  holds_empty.exists_foldlM_add? fits distinct

end Dictionary

end Lexicon
