import Lexicon.Proofs.Packed.Run
import Lexicon.WordList
import Mathlib.Data.List.Forall2
import Mathlib.Data.List.TakeWhile

namespace Lexicon.WordList

/-! The grammar of a word list, and the first line that a text breaks it with. -/

/-- What stands before the last comma that a blank follows, and what stands behind it. -/
def SplitsLast (line word rest : List Char) : Prop :=
  line = word ++ ',' :: ' ' :: rest ∧
    ∀ before after, line = before ++ ',' :: ' ' :: after → before.length ≤ word.length

/-- A word, and one character behind it. -/
def Shaped (line word : List Char) (char : Char) : Prop :=
  word ≠ [] ∧ SplitsLast line word [char]

def IsDigit (char : Char) (v : UInt8) : Prop :=
  char.toNat = '0'.toNat + v.toNat ∧ v < 10

def Lists (allowed : List UInt8) (line : List Char) (entry : String × UInt8) : Prop :=
  ∃ char, Shaped line entry.1.toList char ∧ IsDigit char entry.2 ∧ entry.2 ∈ allowed

inductive Refuses (allowed : List UInt8) (number : Nat) : List Char → FormatError → Prop
  | malformed {line : List Char} (h : ∀ word char, ¬ Shaped line word char) :
      Refuses allowed number line (.malformedLine number (String.ofList line))
  | disallowed {line word : List Char} {char : Char} (shaped : Shaped line word char)
      (h : ∀ v, IsDigit char v → v ∉ allowed) :
      Refuses allowed number line (.disallowedValue number char)

variable {allowed : List UInt8} {number : Nat} {line word : List Char} {char : Char}

theorem shaped_iff : Shaped line word char ↔ word ≠ [] ∧ line = word ++ [',', ' ', char] := by
  refine and_congr_right fun _ => ⟨And.left, fun hline => ⟨hline, fun before after h => ?_⟩⟩
  subst hline
  have hlength := congrArg List.length h
  simp only [List.length_append, List.length_cons, List.length_nil] at hlength
  rcases after with _ | ⟨next, after⟩
  · have hreverse := congrArg List.reverse h
    simp at hreverse
  · rw [List.length_cons] at hlength
    omega

theorem Shaped.unique {other : List Char} {last : Char} (h : Shaped line word char)
    (hother : Shaped line other last) : word = other ∧ char = last := by
  obtain ⟨_, rfl⟩ := shaped_iff.mp h
  obtain ⟨hword, hends⟩ := List.append_inj' (shaped_iff.mp hother).2 rfl
  cases hends
  exact ⟨hword, rfl⟩

theorem parseLine_of_shaped (shaped : Shaped line word char) :
    parseLine allowed number line =
      ((digit? char).filter allowed.contains).elim (.error (.disallowedValue number char))
        fun v => .ok (String.ofList word, v) := by
  obtain ⟨hword, rfl⟩ := shaped_iff.mp shaped
  obtain ⟨front, last, rfl⟩ : ∃ front last, word = front ++ [last] :=
    ⟨_, _, (List.dropLast_concat_getLast hword).symm⟩
  have hreverse : ((front ++ [last]) ++ [',', ' ', char]).reverse =
      char :: ' ' :: ',' :: last :: front.reverse := by simp
  have hback : (last :: front.reverse).reverse = front ++ [last] := by simp
  rw [parseLine, hreverse]
  simp only [hback]
  cases (digit? char).filter allowed.contains <;> rfl

theorem parseLine_of_not_shaped (h : ∀ word char, ¬ Shaped line word char) :
    parseLine allowed number line = .error (.malformedLine number (String.ofList line)) := by
  unfold parseLine
  split
  · rename_i char last front hreverse
    have hline := List.reverse_eq_iff.mp hreverse
    refine absurd (shaped_iff.mpr ⟨?_, ?_⟩) (h (last :: front).reverse char)
    · simp
    · simpa using hline
  · rfl

theorem digit?_eq_some_iff {v : UInt8} : digit? char = some v ↔ IsDigit char v := by
  have hbounds : ('0' ≤ char && char ≤ '9') = true ↔ 48 ≤ char.toNat ∧ char.toNat ≤ 57 := by
    rw [Bool.and_eq_true, decide_eq_true_iff, decide_eq_true_iff]
    rfl
  have hzero : '0'.toNat = 48 := rfl
  rw [digit?, IsDigit, hzero, UInt8.lt_iff_toNat_lt]
  split
  · rename_i h
    rw [hbounds] at h
    have hvalue : (UInt8.ofNat (char.toNat - 48)).toNat = char.toNat - 48 := by
      rw [UInt8.toNat_ofNat', Nat.mod_eq_of_lt (by omega)]
    rw [Option.some_inj, ← UInt8.toNat_inj, hvalue]
    show _ ↔ _ ∧ v.toNat < 10
    omega
  · rename_i h
    rw [hbounds] at h
    refine iff_of_false nofun fun hv => h ?_
    have hsmall : v.toNat < 10 := hv.2
    omega

theorem filter_digit?_eq_some_iff {v : UInt8} :
    (digit? char).filter allowed.contains = some v ↔ IsDigit char v ∧ v ∈ allowed := by
  rw [Option.filter_eq_some_iff, digit?_eq_some_iff, List.contains_iff_mem]

theorem parseLine_eq_ok_iff {entry : String × UInt8} :
    parseLine allowed number line = .ok entry ↔ Lists allowed line entry := by
  by_cases h : ∃ word char, Shaped line word char
  · obtain ⟨word, char, shaped⟩ := h
    rw [parseLine_of_shaped shaped]
    constructor
    · intro hparse
      cases hvalue : (digit? char).filter allowed.contains with
      | none =>
          rw [hvalue] at hparse
          cases hparse
      | some v =>
          rw [hvalue] at hparse
          cases hparse
          refine ⟨char, ?_, filter_digit?_eq_some_iff.mp hvalue⟩
          rwa [String.toList_ofList]
    · rintro ⟨last, hshaped, hdigit⟩
      obtain ⟨rfl, rfl⟩ := shaped.unique hshaped
      rw [filter_digit?_eq_some_iff.mpr hdigit, Option.elim_some, String.ofList_toList]
  · have hnone : ∀ word char, ¬ Shaped line word char := fun word char shaped =>
      h ⟨word, char, shaped⟩
    rw [parseLine_of_not_shaped hnone]
    exact iff_of_false nofun fun ⟨char, shaped, _⟩ => hnone _ char shaped

theorem parseLine_eq_error_iff {error : FormatError} :
    parseLine allowed number line = .error error ↔ Refuses allowed number line error := by
  constructor
  · intro hparse
    by_cases h : ∃ word char, Shaped line word char
    · obtain ⟨word, char, shaped⟩ := h
      rw [parseLine_of_shaped shaped] at hparse
      cases hvalue : (digit? char).filter allowed.contains with
      | none =>
          rw [hvalue] at hparse
          cases hparse
          refine .disallowed shaped fun v hdigit hmem => ?_
          rw [filter_digit?_eq_some_iff.mpr ⟨hdigit, hmem⟩] at hvalue
          cases hvalue
      | some v =>
          rw [hvalue] at hparse
          cases hparse
    · have hnone : ∀ word char, ¬ Shaped line word char := fun word char shaped =>
        h ⟨word, char, shaped⟩
      rw [parseLine_of_not_shaped hnone] at hparse
      cases hparse
      exact .malformed hnone
  · intro refuses
    cases refuses with
    | malformed h => exact parseLine_of_not_shaped h
    | disallowed shaped h =>
        rw [parseLine_of_shaped shaped]
        cases hvalue : (digit? _).filter allowed.contains with
        | none => rfl
        | some v =>
            obtain ⟨hdigit, hmem⟩ := filter_digit?_eq_some_iff.mp hvalue
            exact absurd hmem (h v hdigit)

theorem Lists.not_refuses {entry : String × UInt8} (h : Lists allowed line entry)
    {error : FormatError} : ¬ Refuses allowed number line error := by
  intro refuses
  have hparse := parseLine_eq_error_iff.mpr refuses
  rw [parseLine_eq_ok_iff.mpr h] at hparse
  cases hparse

/-! The lines between the delimiters, each with its number. -/

def parseLines (allowed : List UInt8) (start : Nat) (listed : List (List Char)) :
    Except FormatError (List (String × UInt8)) :=
  (listed.zipIdx start).mapM fun (line, number) => parseLine allowed number line

theorem parseLines_cons (allowed : List UInt8) (start : Nat) (line : List Char)
    (rest : List (List Char)) : parseLines allowed start (line :: rest) = (do
      let entry ← parseLine allowed start line
      let others ← parseLines allowed (start + 1) rest
      pure (entry :: others)) := by
  rw [parseLines, List.zipIdx_cons, List.mapM_cons]
  rfl

variable {lines listed : List (List Char)} {start : Nat}

theorem parseLines_eq_ok_iff {words : List (String × UInt8)} :
    parseLines allowed start listed = .ok words ↔ List.Forall₂ (Lists allowed) listed words := by
  induction listed generalizing start words with
  | nil =>
      rw [List.forall₂_nil_left_iff]
      exact ⟨fun h => (Except.ok.inj h).symm, fun h => congrArg Except.ok h.symm⟩
  | cons line rest ih =>
      simp only [parseLines_cons, Packed.bind_eq_ok, parseLine_eq_ok_iff, ih,
        List.forall₂_cons_left_iff]
      constructor
      · rintro ⟨entry, hentry, others, hothers, h⟩
        cases h
        exact ⟨entry, others, hentry, hothers, rfl⟩
      · rintro ⟨entry, others, hentry, hothers, rfl⟩
        exact ⟨entry, hentry, others, hothers, rfl⟩

/-- The lines before this one list words, and this one does not. -/
def RefusesFirst (allowed : List UInt8) (start : Nat) (listed : List (List Char))
    (error : FormatError) : Prop :=
  ∃ before line after, listed = before ++ line :: after ∧
    (∀ other ∈ before, ∃ entry, Lists allowed other entry) ∧
    Refuses allowed (start + before.length) line error

theorem refusesFirst_cons {line : List Char} {error : FormatError} :
    RefusesFirst allowed start (line :: listed) error ↔
      Refuses allowed start line error ∨
      (∃ entry, Lists allowed line entry) ∧ RefusesFirst allowed (start + 1) listed error := by
  constructor
  · rintro ⟨before, broken, after, hlist, hbefore, hbroken⟩
    rcases before with _ | ⟨other, before⟩
    · cases hlist
      exact .inl hbroken
    · cases hlist
      obtain ⟨hfirst, hrest⟩ := List.forall_mem_cons.mp hbefore
      rw [List.length_cons, Nat.add_comm before.length, ← Nat.add_assoc] at hbroken
      exact .inr ⟨hfirst, before, broken, after, rfl, hrest, hbroken⟩
  · rintro (hbroken | ⟨hfirst, before, broken, after, rfl, hrest, hbroken⟩)
    · exact ⟨[], line, listed, rfl, nofun, hbroken⟩
    · refine ⟨line :: before, broken, after, rfl, List.forall_mem_cons.mpr ⟨hfirst, hrest⟩, ?_⟩
      rwa [List.length_cons, Nat.add_comm before.length, ← Nat.add_assoc]

theorem parseLines_eq_error_iff {error : FormatError} :
    parseLines allowed start listed = .error error ↔ RefusesFirst allowed start listed error := by
  induction listed generalizing start with
  | nil =>
      refine iff_of_false nofun ?_
      rintro ⟨before, line, after, h, _⟩
      simp at h
  | cons line rest ih =>
      rw [parseLines_cons, refusesFirst_cons, ← ih, ← parseLine_eq_error_iff]
      cases hline : parseLine allowed start line with
      | error found =>
          have hbroken : ¬ ∃ entry, Lists allowed line entry := by
            rintro ⟨entry, hentry⟩
            exact hentry.not_refuses (parseLine_eq_error_iff.mp hline)
          simp only [hbroken, false_and, or_false, bind, Except.bind, Except.error.injEq]
      | ok entry =>
          have hlists : ∃ entry, Lists allowed line entry := ⟨entry, parseLine_eq_ok_iff.mp hline⟩
          simp only [hlists, true_and, reduceCtorEq, false_or]
          cases parseLines allowed (start + 1) rest <;> simp [bind, Except.bind, pure, Except.pure]

/-! The delimiters. -/

theorem splitDelimiter_append {before : List (List Char)} (h : delimiter ∉ before)
    (after : List (List Char)) :
    splitDelimiter (before ++ delimiter :: after) = .ok (before, after) := by
  have hbefore : ∀ line ∈ before, (line != delimiter) = true := by
    intro line hline
    rw [bne_iff_ne]
    rintro rfl
    exact h hline
  rw [splitDelimiter, List.dropWhile_append_of_pos hbefore, List.takeWhile_append_of_pos hbefore]
  simp

theorem splitDelimiter_of_notMem (h : delimiter ∉ lines) :
    splitDelimiter lines = .error .missingDelimiter := by
  have hlines : ∀ line ∈ lines, (line != delimiter) = true := by
    intro line hline
    rw [bne_iff_ne]
    rintro rfl
    exact h hline
  rw [splitDelimiter, List.dropWhile_eq_nil_iff.mpr hlines]

/-- The first two delimiters stand between these parts. -/
structure Delimits (preamble listed rest lines : List (List Char)) : Prop where
  lines_eq : lines = preamble ++ delimiter :: (listed ++ delimiter :: rest)
  preamble : delimiter ∉ preamble
  listed : delimiter ∉ listed

theorem exists_delimits (h : 2 ≤ lines.count delimiter) :
    ∃ preamble listed rest, Delimits preamble listed rest lines := by
  have hmem : delimiter ∈ lines := List.count_pos_iff.mp (by omega)
  obtain ⟨preamble, after, rfl, hpreamble⟩ := List.eq_append_cons_of_mem hmem
  rw [List.count_append, List.count_cons_self, List.count_eq_zero.mpr hpreamble] at h
  have hafter : delimiter ∈ after := List.count_pos_iff.mp (by omega)
  obtain ⟨listed, rest, rfl, hlisted⟩ := List.eq_append_cons_of_mem hafter
  exact ⟨preamble, listed, rest, rfl, hpreamble, hlisted⟩

/-- The lines of a text, without the blanks at their ends. -/
def trimmedLines (text : String) : List (List Char) :=
  (Text.lines text.toList).map Text.trim

variable {text : String} {preamble rest : List (List Char)}

theorem Delimits.parse_eq (h : Delimits preamble listed rest (trimmedLines text)) :
    parse allowed text = (parseLines allowed (preamble.length + 2) listed).map
      (.mk (String.intercalate "\n" (preamble.map String.ofList))) := by
  have hlines := h.lines_eq
  rw [trimmedLines] at hlines
  rw [parse]
  simp only [hlines]
  rw [splitDelimiter_append h.preamble]
  simp only [bind, Except.bind]
  rw [splitDelimiter_append h.listed]
  simp only [pure, Except.pure]
  rw [← parseLines]
  cases parseLines allowed (preamble.length + 2) listed <;> rfl

theorem Delimits.parse_eq_ok_iff (h : Delimits preamble listed rest (trimmedLines text))
    {list : WordList} : parse allowed text = .ok list ↔
      list.preamble = String.intercalate "\n" (preamble.map String.ofList) ∧
        List.Forall₂ (Lists allowed) listed list.words := by
  obtain ⟨shown, words⟩ := list
  have hlines : parseLines allowed (preamble.length + 2) listed = .ok words ↔ _ :=
    parseLines_eq_ok_iff
  rw [h.parse_eq, ← hlines]
  cases parseLines allowed (preamble.length + 2) listed with
  | error error => exact iff_of_false nofun nofun
  | ok found =>
      simp only [Except.map, Except.ok.injEq, mk.injEq]
      exact and_congr_left fun _ => eq_comm

theorem Delimits.parse_eq_error_iff (h : Delimits preamble listed rest (trimmedLines text))
    {error : FormatError} : parse allowed text = .error error ↔
      RefusesFirst allowed (preamble.length + 2) listed error := by
  rw [h.parse_eq, ← parseLines_eq_error_iff]
  cases parseLines allowed (preamble.length + 2) listed with
  | error found => simp only [Except.map, Except.error.injEq]
  | ok found => exact iff_of_false nofun nofun

theorem parse_of_count_lt (h : (trimmedLines text).count delimiter < 2) :
    parse allowed text = .error .missingDelimiter := by
  rw [trimmedLines] at h
  rw [parse]
  by_cases hmem : delimiter ∈ (Text.lines text.toList).map Text.trim
  · obtain ⟨before, after, hlines, hbefore⟩ := List.eq_append_cons_of_mem hmem
    rw [hlines, List.count_append, List.count_cons_self] at h
    have hafter : delimiter ∉ after := List.count_eq_zero.mp (by omega)
    simp only [hlines]
    rw [splitDelimiter_append hbefore]
    simp only [bind, Except.bind]
    rw [splitDelimiter_of_notMem hafter]
  · simp only
    rw [splitDelimiter_of_notMem hmem]
    rfl

theorem parse_eq_missingDelimiter_iff : parse allowed text = .error .missingDelimiter ↔
    (trimmedLines text).count delimiter < 2 := by
  refine ⟨fun hparse => ?_, parse_of_count_lt⟩
  by_contra hcount
  obtain ⟨preamble, listed, rest, h⟩ := exists_delimits (Nat.le_of_not_lt hcount)
  obtain ⟨before, line, after, _, _, hline⟩ := h.parse_eq_error_iff.mp hparse
  cases hline

/-! Writing a list. -/

def lineOf (entry : String × UInt8) : String :=
  entry.1 ++ ", " ++ toString entry.2.toNat

/-- A list in text form; whatever follows the second delimiter is no part of it. -/
def source (preamble : List String) (words : List (String × UInt8)) (trailer : String) : String :=
  String.join ((preamble ++ "%%" :: (words.map lineOf ++ ["%%"])).map (· ++ "\n")) ++ trailer

/-- A line of its own that is no delimiter. -/
structure IsPreamble (line : String) : Prop where
  trimmed : Text.trim line.toList = line.toList
  single : '\n' ∉ line.toList
  plain : line ≠ "%%"

/-- A word that can stand in a line, with a digit that is allowed. -/
structure Listable (allowed : List UInt8) (entry : String × UInt8) : Prop where
  single : '\n' ∉ entry.1.toList
  begins : ∃ first rest, entry.1.toList = first :: rest ∧ Text.isBlank first = false
  digit : entry.2 < 10
  allowed : entry.2 ∈ allowed

theorem isDigit_digitChar {v : UInt8} (h : v < 10) : IsDigit (Nat.digitChar v.toNat) v := by
  have hdigits : ∀ n < 10, (Nat.digitChar n).toNat = '0'.toNat + n := by decide
  exact ⟨hdigits v.toNat h, h⟩

theorem Listable.toList_lineOf {entry : String × UInt8} (h : Listable allowed entry) :
    (lineOf entry).toList = entry.1.toList ++ [',', ' ', Nat.digitChar entry.2.toNat] := by
  have hdigits : ∀ n < 10, (toString n).toList = [Nat.digitChar n] := by decide
  rw [lineOf, String.toList_append, String.toList_append, hdigits entry.2.toNat h.digit,
    List.append_assoc]
  rfl

theorem Listable.lists {entry : String × UInt8} (h : Listable allowed entry) :
    Lists allowed (lineOf entry).toList entry := by
  obtain ⟨first, rest, hword, _⟩ := h.begins
  refine ⟨_, shaped_iff.mpr ⟨?_, h.toList_lineOf⟩, isDigit_digitChar h.digit, h.allowed⟩
  rw [hword]
  exact List.cons_ne_nil first rest

theorem trim_of_ends {first last : Char} (middle : List Char) (hfirst : Text.isBlank first = false)
    (hlast : Text.isBlank last = false) :
    Text.trim (first :: (middle ++ [last])) = first :: (middle ++ [last]) := by
  rw [Text.trim, List.dropWhile_cons_of_neg (by simp [hfirst]), ← List.cons_append,
    List.reverse_append, List.reverse_singleton, List.singleton_append,
    List.dropWhile_cons_of_neg (by simp [hlast]), List.reverse_cons, List.reverse_reverse]

theorem Listable.trim_lineOf {entry : String × UInt8} (h : Listable allowed entry) :
    Text.trim (lineOf entry).toList = (lineOf entry).toList := by
  obtain ⟨first, rest, hword, hfirst⟩ := h.begins
  have hlast : Text.isBlank (Nat.digitChar entry.2.toNat) = false := by
    have hdigits : ∀ n < 10, Text.isBlank (Nat.digitChar n) = false := by decide
    exact hdigits entry.2.toNat h.digit
  have htrim := trim_of_ends (rest ++ [',', ' ']) hfirst hlast
  rw [List.append_assoc, ← List.cons_append, ← hword] at htrim
  rw [h.toList_lineOf]
  exact htrim

theorem Listable.single_lineOf {entry : String × UInt8} (h : Listable allowed entry) :
    '\n' ∉ (lineOf entry).toList := by
  have hdigits : ∀ n < 10, '\n' ∉ [',', ' ', Nat.digitChar n] := by decide
  rw [h.toList_lineOf, List.mem_append, not_or]
  exact ⟨h.single, hdigits entry.2.toNat h.digit⟩

theorem Listable.plain_lineOf {entry : String × UInt8} (h : Listable allowed entry) :
    (lineOf entry).toList ≠ delimiter := by
  intro hline
  have hcomma : ',' ∈ (lineOf entry).toList := by simp [h.toList_lineOf]
  rw [hline] at hcomma
  revert hcomma
  decide

theorem lines_flatMap {lines : List String} (h : ∀ line ∈ lines, '\n' ∉ line.toList)
    (rest : List Char) : Text.lines ((lines.flatMap fun line => line.toList ++ ['\n']) ++ rest) =
      lines.map String.toList ++ Text.lines rest := by
  induction lines with
  | nil => rfl
  | cons line others ih =>
      obtain ⟨hline, hothers⟩ := List.forall_mem_cons.mp h
      rw [List.flatMap_cons, List.append_assoc, List.append_assoc, List.singleton_append,
        Text.lines_append hline, ih hothers]
      rfl

theorem toList_source (preamble : List String) (words : List (String × UInt8)) (trailer : String) :
    (source preamble words trailer).toList =
      ((preamble ++ "%%" :: (words.map lineOf ++ ["%%"])).flatMap fun line => line.toList ++ ['\n'])
        ++ trailer.toList := by
  rw [source, String.toList_append, String.toList_join, List.flatMap_map]
  congr 1
  exact List.flatMap_congr fun line _ => String.toList_append

variable {words : List (String × UInt8)} {shown : List String}

theorem delimits_source (hshown : ∀ line ∈ shown, IsPreamble line)
    (hwords : ∀ entry ∈ words, Listable allowed entry) (trailer : String) :
    Delimits (shown.map String.toList) (words.map fun entry => (lineOf entry).toList)
      (trimmedLines trailer) (trimmedLines (source shown words trailer)) := by
  have hsingle : ∀ line ∈ shown ++ "%%" :: (words.map lineOf ++ ["%%"]), '\n' ∉ line.toList := by
    have hdelimiter : '\n' ∉ "%%".toList := by decide
    simp only [List.mem_append, List.mem_cons, List.mem_map, List.not_mem_nil, or_false]
    rintro line (hline | rfl | ⟨entry, hentry, rfl⟩ | rfl)
    · exact (hshown line hline).single
    · exact hdelimiter
    · exact (hwords entry hentry).single_lineOf
    · exact hdelimiter
  refine ⟨?_, ?_, ?_⟩
  · have hpreamble : (shown.map String.toList).map Text.trim = shown.map String.toList := by
      rw [List.map_map]
      exact List.map_congr_left fun line hline => (hshown line hline).trimmed
    have hlisted : ((words.map lineOf).map String.toList).map Text.trim =
        words.map fun entry => (lineOf entry).toList := by
      rw [List.map_map, List.map_map]
      exact List.map_congr_left fun entry hentry => (hwords entry hentry).trim_lineOf
    have htrim : Text.trim "%%".toList = delimiter := by decide
    rw [trimmedLines, toList_source, lines_flatMap hsingle]
    simp only [List.map_append, List.map_cons, List.map_nil, hpreamble, hlisted, htrim,
      List.append_assoc, List.cons_append, List.nil_append]
    rfl
  · intro hmem
    obtain ⟨line, hline, hsame⟩ := List.mem_map.mp hmem
    exact (hshown line hline).plain (String.toList_inj.mp hsame)
  · intro hmem
    obtain ⟨entry, hentry, hsame⟩ := List.mem_map.mp hmem
    exact (hwords entry hentry).plain_lineOf hsame

theorem parse_source (hshown : ∀ line ∈ shown, IsPreamble line)
    (hwords : ∀ entry ∈ words, Listable allowed entry) (trailer : String) :
    parse allowed (source shown words trailer) = .ok ⟨String.intercalate "\n" shown, words⟩ := by
  refine (delimits_source hshown hwords trailer).parse_eq_ok_iff.mpr ⟨?_, ?_⟩
  · rw [List.map_map]
    have hsame : String.ofList ∘ String.toList = id := funext fun _ => String.ofList_toList
    rw [hsame, List.map_id]
  · rw [List.forall₂_map_left_iff, List.forall₂_same]
    exact fun entry hentry => (hwords entry hentry).lists

/-- A text is a word list exactly if it has two delimiters, and each line between the first two
of them splits at its last comma with a blank into a word and a digit that is allowed; these are
the words, and the lines in front of the delimiters are the preamble. The first line that is not
so is the one that is reported, by its number in the whole text. A list that is written is read
back as it was, whatever is written behind it. -/
theorem parse_exact (allowed : List UInt8) (text : String) :
    (parse allowed text = .error .missingDelimiter ↔ (trimmedLines text).count delimiter < 2) ∧
    (2 ≤ (trimmedLines text).count delimiter →
      ∃ preamble listed rest, Delimits preamble listed rest (trimmedLines text)) ∧
    (∀ preamble listed rest, Delimits preamble listed rest (trimmedLines text) →
      (∀ list, parse allowed text = .ok list ↔
        list.preamble = String.intercalate "\n" (preamble.map String.ofList) ∧
          List.Forall₂ (Lists allowed) listed list.words) ∧
      ∀ error, parse allowed text = .error error ↔
        RefusesFirst allowed (preamble.length + 2) listed error) ∧
    ∀ (shown : List String) (words : List (String × UInt8)) (trailer : String),
      (∀ line ∈ shown, IsPreamble line) → (∀ entry ∈ words, Listable allowed entry) →
        parse allowed (source shown words trailer) =
          .ok ⟨String.intercalate "\n" shown, words⟩ :=
  ⟨parse_eq_missingDelimiter_iff, exists_delimits,
    fun _ _ _ h => ⟨fun _ => h.parse_eq_ok_iff, fun _ => h.parse_eq_error_iff⟩,
    fun _ _ trailer hshown hwords => parse_source hshown hwords trailer⟩

/-- The second line between the delimiters has a digit that is not allowed, and a word may hold
a comma itself. -/
theorem parse_exact_commas :
    parse [1, 2] " x\n%%\na, b, 1\nc, 3 \n%%\nd" = .error (.disallowedValue 4 '3') ∧
    source [] [("a, b", 1)] "%%, 2" = "%%\na, b, 1\n%%\n%%, 2" ∧
    parse [1, 2] "%%\na, b, 1\n%%\n%%, 2" = .ok ⟨"", [("a, b", 1)]⟩ := by
  have hsource : source [] [("a, b", 1)] "%%, 2" = "%%\na, b, 1\n%%\n%%, 2" := rfl
  refine ⟨?_, hsource, ?_⟩
  · have delimits : Delimits [['x']] [['a', ',', ' ', 'b', ',', ' ', '1'], ['c', ',', ' ', '3']]
        [['d']] (trimmedLines " x\n%%\na, b, 1\nc, 3 \n%%\nd") :=
      ⟨rfl, by decide, by decide⟩
    obtain ⟨_, _, hparse, _⟩ := parse_exact [1, 2] " x\n%%\na, b, 1\nc, 3 \n%%\nd"
    have hfirst : Lists [1, 2] ['a', ',', ' ', 'b', ',', ' ', '1'] ("a, b", 1) :=
      ⟨'1', shaped_iff.mpr ⟨by decide, rfl⟩, ⟨by decide, by decide⟩, by decide⟩
    have hsecond : Shaped ['c', ',', ' ', '3'] ['c'] '3' := shaped_iff.mpr ⟨by decide, rfl⟩
    refine ((hparse _ _ _ delimits).2 _).mpr ⟨[_], _, [], rfl, ?_, .disallowed hsecond ?_⟩
    · exact List.forall_mem_singleton.mpr ⟨_, hfirst⟩
    · rintro v ⟨hv, _⟩ hmem
      rcases List.mem_pair.mp hmem with rfl | rfl <;> revert hv <;> decide
  · obtain ⟨_, _, _, hwritten⟩ := parse_exact [1, 2] ""
    rw [← hsource]
    refine hwritten [] [("a, b", 1)] "%%, 2" nofun (List.forall_mem_singleton.mpr ?_)
    exact ⟨by decide, ⟨'a', _, rfl, by decide⟩, by decide, by decide⟩

end Lexicon.WordList
