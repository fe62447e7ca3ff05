import Lexicon.CArray
import Lexicon.Text.Blank
import Mathlib.Data.List.Basic

namespace Lexicon

/-! An array of bytes is read back from its text, whatever stands in front of it. -/

namespace Text

def hexDigit? (char : Char) : Option Nat :=
  lowerDigits.idxOf? char

def hexByte? (high low : Char) : Option UInt8 := do
  let high ← hexDigit? high
  let low ← hexDigit? low
  pure (UInt8.ofNat (high * 16 + low))

theorem hexDigit?_getD : ∀ n < 16, hexDigit? (lowerDigits.getD n '0') = some n := by
  decide

theorem hexByte?_hexPair (byte : UInt8) :
    hexByte? (lowerDigits.getD (byte.toNat / 16) '0') (lowerDigits.getD (byte.toNat % 16) '0') =
      some byte := by
  have hbyte := byte.toNat_lt
  have hsum : byte.toNat / 16 * 16 + byte.toNat % 16 = byte.toNat := by omega
  rw [hexByte?, hexDigit?_getD _ (by omega), hexDigit?_getD _ (by omega)]
  simp only [Option.bind_eq_bind, Option.bind_some, Option.pure_def, hsum, UInt8.ofNat_toNat]

theorem mem_lowerDigits_of_getD (n : Nat) : lowerDigits.getD n '0' ∈ lowerDigits := by
  rw [List.getD_eq_getElem?_getD]
  cases h : lowerDigits[n]? with
  | none => decide
  | some digit => exact List.mem_of_getElem? h

end Text

namespace CArray

/-- An array as its text declares it: how many elements it says it has, and the elements that
each line between the braces has. -/
structure Declared where
  before : List Char
  size : Nat
  rows : List (List UInt8)
deriving DecidableEq, Repr

def opening : String := "const unsigned char kDafsa["

def closing : String := "] = " ++ String.singleton Text.openBrace ++ "\n"

def ending : String := String.singleton Text.closeBrace ++ ";\n"

/-- The elements of a line, each with the comma behind it. -/
def readRow : List Char → Option (List UInt8)
  | [] => some []
  | ' ' :: rest => readRow rest
  | '0' :: 'x' :: high :: low :: ',' :: rest => do
      let byte ← Text.hexByte? high low
      let others ← readRow rest
      pure (byte :: others)
  | _ => none

/-- What follows a piece of text that has to come first. -/
def skip : List Char → List Char → Option (List Char)
  | [], text => some text
  | _ :: _, [] => none
  | expected :: piece, char :: text => if char = expected then skip piece text else none

/-- Reads the last array of a text, which begins with the last square bracket that opens. -/
def read (text : List Char) : Option Declared := do
  let before ← skip opening.toList.reverse (text.reverse.dropWhile (· != '['))
  let behind := (text.reverse.takeWhile (· != '[')).reverse
  let body ← skip closing.toList (behind.dropWhile Char.isDigit)
  let rows ← (Text.lines (body.takeWhile (· != Text.closeBrace))).mapM readRow
  if body.dropWhile (· != Text.closeBrace) = ending.toList then
    some ⟨before.reverse, Nat.ofDigitChars 10 (behind.takeWhile Char.isDigit) 0, rows⟩
  else
    none

theorem skip_append (piece text : List Char) : skip piece (piece ++ text) = some text := by
  induction piece with
  | nil => rfl
  | cons char piece ih => rw [List.cons_append, skip, if_pos rfl, ih]

/-! A row is read as it was written. -/

def element (byte : UInt8) : List Char :=
  '0' :: 'x' :: Text.hexPair Text.lowerDigits byte ++ [',']

/-- The text of a row without the line feed that ends it. -/
def rowText (row : List UInt8) : List Char :=
  ' ' :: ' ' :: [' '].intercalate (row.map element)

theorem toList_line {row : List UInt8} (h : row ≠ []) : (line row).toList = rowText row ++ ['\n'] := by
  have key : ", ".toList.intercalate ((row.map Text.hexByte).map String.toList) ++ [','] =
      [' '].intercalate (row.map element) := by
    induction row with
    | nil => exact absurd rfl h
    | cons byte rest ih =>
        cases rest with
        | nil => simp [element, Text.hexByte]
        | cons next others =>
            have ih := ih (List.cons_ne_nil _ _)
            simp only [List.map_cons, List.intercalate_cons_cons, List.append_assoc] at ih ⊢
            rw [ih]
            simp [element, Text.hexByte]
  rw [line, String.toList_append, String.toList_append, String.toList_intercalate, rowText, ← key]
  simp

theorem readRow_element (byte : UInt8) (rest : List Char) :
    readRow (element byte ++ rest) = (readRow rest).map (byte :: ·) := by
  simp only [element, Text.hexPair, List.cons_append, List.nil_append, readRow,
    Text.hexByte?_hexPair, Option.bind_eq_bind, Option.bind_some, Option.pure_def]
  cases readRow rest <;> rfl

theorem readRow_rowText (row : List UInt8) : readRow (rowText row) = some row := by
  rw [rowText, readRow, readRow]
  induction row with
  | nil => rfl
  | cons byte rest ih =>
      cases rest with
      | nil =>
          rw [List.map_singleton, List.intercalate_singleton, ← List.append_nil (element byte),
            readRow_element]
          rfl
      | cons next others =>
          rw [List.map_cons, List.map_cons, List.intercalate_cons_cons, List.append_assoc,
            readRow_element, List.singleton_append, readRow, ← List.map_cons, ih]
          rfl

/-- The characters of rows; those that end a row or stand around all rows are none of them. -/
def rowChars : List Char := ' ' :: ',' :: 'x' :: Text.lowerDigits

theorem mem_rowChars_of_element {byte : UInt8} {char : Char} (h : char ∈ element byte) :
    char ∈ rowChars := by
  have digit (n : Nat) : Text.lowerDigits.getD n '0' ∈ rowChars :=
    List.mem_append_right [' ', ',', 'x'] (Text.mem_lowerDigits_of_getD n)
  simp only [element, Text.hexPair, List.cons_append, List.nil_append, List.mem_cons,
    List.not_mem_nil, or_false] at h
  rcases h with rfl | rfl | rfl | rfl | rfl
  · decide
  · decide
  · exact digit _
  · exact digit _
  · decide

theorem mem_rowChars_of_rowText (row : List UInt8) : ∀ char ∈ rowText row, char ∈ rowChars := by
  have blank : ' ' ∈ rowChars := List.mem_cons_self
  rw [rowText, List.forall_mem_cons, List.forall_mem_cons]
  refine ⟨blank, blank, ?_⟩
  induction row with
  | nil => exact nofun
  | cons byte rest ih =>
      cases rest with
      | nil => exact fun char => mem_rowChars_of_element
      | cons next others =>
          rw [List.map_cons, List.map_cons, List.intercalate_cons_cons, ← List.map_cons]
          simp only [List.forall_mem_append, List.forall_mem_singleton]
          exact ⟨⟨fun char => mem_rowChars_of_element, blank⟩, ih⟩

theorem mem_rows_ne_nil {bytes row : List UInt8} (h : row ∈ rows bytes) : row ≠ [] := by
  fun_induction rows bytes with
  | case1 => cases h
  | case2 byte rest ih =>
      rcases List.mem_cons.mp h with rfl | h
      · simp [bytesPerLine]
      · exact ih h

theorem flatten_rows (bytes : List UInt8) : (rows bytes).flatten = bytes := by
  fun_induction rows bytes with
  | case1 => rfl
  | case2 byte rest ih => rw [List.flatten_cons, ih, List.take_append_drop]

/-! The whole text. -/

theorem takeWhile_append_stop {α : Type} (p : α → Bool) {front : List α}
    (h : ∀ x ∈ front, p x) (stop : α) (hstop : p stop = false) (rest : List α) :
    (front ++ stop :: rest).takeWhile p = front ∧
      (front ++ stop :: rest).dropWhile p = stop :: rest := by
  have hstop : ¬ p stop := by
    rw [hstop]
    exact Bool.false_ne_true
  rw [List.takeWhile_append_of_pos h, List.dropWhile_append_of_pos h,
    List.takeWhile_cons_of_neg hstop, List.dropWhile_cons_of_neg hstop, List.append_nil]
  exact ⟨rfl, rfl⟩

def rowsText (rows : List (List UInt8)) : List Char :=
  rows.flatMap fun row => rowText row ++ ['\n']

theorem mapM_readRow_rowsText (rows : List (List UInt8)) :
    (Text.lines (rowsText rows)).mapM readRow = some rows := by
  induction rows with
  | nil => rfl
  | cons row rest ih =>
      have hline : '\n' ∉ rowText row := fun h =>
        absurd (mem_rowChars_of_rowText row '\n' h) (by decide)
      rw [rowsText, List.flatMap_cons, List.append_assoc, List.singleton_append,
        Text.lines_append hline, ← rowsText, List.mapM_cons, readRow_rowText, ih]
      rfl

theorem forall_mem_rowsText (rows : List (List UInt8)) :
    ∀ char ∈ rowsText rows, char ≠ '[' ∧ char ≠ Text.closeBrace := by
  have clean : '[' ∉ rowChars ∧ Text.closeBrace ∉ rowChars := by decide
  intro char hchar
  obtain ⟨row, _, hchar⟩ := List.mem_flatMap.mp hchar
  rcases List.mem_append.mp hchar with hrow | hfeed
  · have hmem := mem_rowChars_of_rowText row char hrow
    exact ⟨ne_of_mem_of_not_mem hmem clean.1, ne_of_mem_of_not_mem hmem clean.2⟩
  · cases List.mem_singleton.mp hfeed
    decide

theorem toList_text (bytes : Packed.Buffer) (preamble : Option String) :
    (text bytes preamble).toList = (header ++ preambleText preamble).toList ++ (opening.toList ++
      (Nat.toDigits 10 bytes.size ++
        (closing.toList ++ (rowsText (rows bytes.toList) ++ ending.toList)))) := by
  have hsize : (toString bytes.size).toList = Nat.toDigits 10 bytes.size := Nat.toList_repr
  have hrows : (String.join ((rows bytes.toList).map line)).toList = rowsText (rows bytes.toList) := by
    rw [String.toList_join, List.flatMap_map, rowsText]
    exact List.flatMap_congr fun row hrow => toList_line (mem_rows_ne_nil hrow)
  have htext : text bytes preamble = header ++ preambleText preamble ++
      (opening ++ toString bytes.size ++ closing) ++
      String.join ((rows bytes.toList).map line) ++ ending := rfl
  simp only [htext, String.toList_append, hsize, hrows, List.append_assoc]

/-- No other array begins behind the opening. -/
theorem forall_mem_behind (size : Nat) (rows : List (List UInt8)) :
    ∀ char ∈ Nat.toDigits 10 size ++ (closing.toList ++ (rowsText rows ++ ending.toList)),
      char ≠ '[' := by
  have hclosing : '[' ∉ closing.toList := by decide
  have hending : '[' ∉ ending.toList := by decide
  simp only [List.forall_mem_append]
  refine ⟨fun char hchar => ?_, fun char hchar => ne_of_mem_of_not_mem hchar hclosing,
    fun char hchar => ?_, fun char hchar => ne_of_mem_of_not_mem hchar hending⟩
  · have hdigit : char.isDigit := Nat.isDigit_of_mem_toDigits (by decide) (by decide) hchar
    rintro rfl
    exact absurd hdigit (by decide)
  · exact (forall_mem_rowsText rows char hchar).1

/-- The array that a text ends with is read from it, and what stands before the array is left
as it was. -/
theorem read_text (bytes : Packed.Buffer) (preamble : Option String) :
    read (text bytes preamble).toList =
      some ⟨(header ++ preambleText preamble).toList, bytes.size, rows bytes.toList⟩ := by
  have hopening : opening.toList.reverse = '[' :: "const unsigned char kDafsa".toList.reverse := by
    decide
  have hclosing : closing.toList = ']' :: [' ', '=', ' ', Text.openBrace, '\n'] := by
    simp [closing]
  have hending : ending.toList = Text.closeBrace :: ";\n".toList := by simp [ending]
  have hdigits : ∀ char ∈ Nat.toDigits 10 bytes.size, char.isDigit := fun char =>
    Nat.isDigit_of_mem_toDigits (by decide) (by decide)
  have hbehind := forall_mem_behind bytes.size (rows bytes.toList)
  have hrows := forall_mem_rowsText (rows bytes.toList)
  have hreverse := congrArg List.reverse (toList_text bytes preamble)
  rw [List.reverse_append, List.reverse_append, hopening, List.append_assoc, List.cons_append]
    at hreverse
  obtain ⟨hafter, hbefore⟩ := takeWhile_append_stop (· != '[')
    (fun char hchar => bne_iff_ne.mpr (hbehind char (List.mem_reverse.mp hchar))) '[' (bne_self_eq_false _)
    ("const unsigned char kDafsa".toList.reverse ++ (header ++ preambleText preamble).toList.reverse)
  obtain ⟨hsize, hbody⟩ := takeWhile_append_stop Char.isDigit hdigits ']' rfl
    ([' ', '=', ' ', Text.openBrace, '\n'] ++ (rowsText (rows bytes.toList) ++ ending.toList))
  obtain ⟨hlines, hend⟩ := takeWhile_append_stop (· != Text.closeBrace)
    (fun char hchar => bne_iff_ne.mpr (hrows char hchar).2) Text.closeBrace (bne_self_eq_false _)
    ";\n".toList
  rw [← List.cons_append, ← hclosing] at hsize hbody
  rw [← List.cons_append, ← hopening] at hbefore
  rw [← hending] at hlines hend
  rw [read, hreverse, hafter, ← List.cons_append, ← hopening, hbefore]
  simp only [skip_append, Option.bind_eq_bind, Option.bind_some, List.reverse_reverse, hsize, hbody,
    hlines, hend, mapM_readRow_rowsText, if_true, Nat.ofDigitChars_ten_toDigits]

/-! How many bytes the rows have. -/

theorem rows_eq_nil_iff {bytes : List UInt8} : rows bytes = [] ↔ bytes = [] := by
  cases bytes with
  | nil => simp [rows]
  | cons byte rest => simp [rows]

theorem length_of_mem_rows {bytes row : List UInt8} (h : row ∈ rows bytes) :
    1 ≤ row.length ∧ row.length ≤ bytesPerLine := by
  refine ⟨List.length_pos_iff.mpr (mem_rows_ne_nil h), ?_⟩
  fun_induction rows bytes with
  | case1 => cases h
  | case2 byte rest ih =>
      rcases List.mem_cons.mp h with rfl | h
      · exact List.length_take_le _ _
      · exact ih h

/-- A row that others follow is full. -/
theorem length_of_mem_dropLast_rows {bytes row : List UInt8} (h : row ∈ (rows bytes).dropLast) :
    row.length = bytesPerLine := by
  fun_induction rows bytes with
  | case1 => cases h
  | case2 byte rest ih =>
      by_cases hdrop : (byte :: rest).drop bytesPerLine = []
      · rw [hdrop, rows, List.dropLast_singleton] at h
        cases h
      · rw [List.dropLast_cons_of_ne_nil (mt rows_eq_nil_iff.mp hdrop)] at h
        rcases List.mem_cons.mp h with rfl | h
        · rw [List.length_take, Nat.min_eq_left]
          exact Nat.le_of_not_le (mt List.drop_eq_nil_iff.mpr hdrop)
        · exact ih h

/-- An array is declared behind these characters, and none is declared further on. -/
def DeclaresLast (text before : List Char) : Prop :=
  before ++ opening.toList <+: text ∧
    ∀ front, front ++ opening.toList <+: text → front.length ≤ before.length

theorem declaresLast_of_notMem {before behind : List Char} (h : '[' ∉ behind) :
    DeclaresLast (before ++ (opening.toList ++ behind)) before := by
  refine ⟨⟨behind, List.append_assoc _ _ _⟩, fun front hfront => ?_⟩
  by_contra hfar
  -- The square bracket of an opening further on would stand behind this one.
  obtain ⟨name, hname⟩ : ∃ name, opening.toList = name ++ ['['] :=
    ⟨"const unsigned char kDafsa".toList, by decide⟩
  have hbracket : (front ++ opening.toList)[front.length + name.length]? = some '[' := by
    rw [hname, List.getElem?_append_right (Nat.le_add_right _ _), Nat.add_sub_cancel_left,
      List.getElem?_concat_length]
  have hlength : (before ++ opening.toList).length = before.length + name.length + 1 := by
    rw [hname, List.length_append, List.length_append, List.length_singleton, Nat.add_assoc]
  obtain ⟨back, hback⟩ := hfront
  rw [← List.append_assoc] at hback
  have hmem : (before ++ opening.toList ++ behind)[front.length + name.length]? = some '[' := by
    rw [← hback, List.getElem?_append_left (List.getElem?_eq_some_iff.mp hbracket).1, hbracket]
  rw [List.getElem?_append_right (by omega)] at hmem
  exact h (List.mem_of_getElem? hmem)

theorem toList_preambleText (preamble : Option String) :
    (preambleText preamble).toList =
      match preamble with
      | none => []
      | some shown => if shown = "" then [] else shown.toList ++ ['\n', '\n'] := by
  cases preamble with
  | none => rfl
  | some shown =>
      by_cases hshown : shown = ""
      · subst hshown
        rfl
      · simp [preambleText, hshown]

/-- From the text, whatever its preamble is, the last array that it declares is read: it has the
size of the bytes, and its elements are the bytes, twelve to a line, with the rest of them on the
last line. In front of it stand the header and the preamble, if there is one to show, with a blank
line behind it. -/
theorem array_recovered (preamble : Option String) :
    (∀ bytes : Packed.Buffer, ∃ declared,
      read (text bytes preamble).toList = some declared ∧
      DeclaresLast (text bytes preamble).toList declared.before ∧
      declared.size = bytes.size ∧ declared.rows.flatten = bytes.toList ∧
      (∀ row ∈ declared.rows.dropLast, row.length = 12) ∧
      (∀ row ∈ declared.rows.getLast?, 1 ≤ row.length ∧ row.length ≤ 12) ∧
      (bytes = #[] ↔ declared.rows = []) ∧
      declared.before = header.toList ++
        match preamble with
        | none => []
        | some shown => if shown = "" then [] else shown.toList ++ ['\n', '\n']) ∧
    Function.Injective fun bytes => text bytes preamble := by
  constructor
  · intro bytes
    refine ⟨_, read_text bytes preamble, ?_, rfl, flatten_rows _, fun row =>
      length_of_mem_dropLast_rows, fun row hrow => length_of_mem_rows (List.mem_of_getLast? hrow),
      ?_, ?_⟩
    · rw [toList_text]
      exact declaresLast_of_notMem fun h => forall_mem_behind bytes.size _ _ h rfl
    · rw [rows_eq_nil_iff, Array.toList_eq_nil_iff]
    · rw [String.toList_append, toList_preambleText]
  · intro first second same
    have hread := read_text first preamble
    rw [congrArg String.toList same, read_text second preamble] at hread
    have hrows : rows second.toList = rows first.toList :=
      congrArg Declared.rows (Option.some.inj hread)
    apply Array.toList_inj.mp
    rw [← flatten_rows first.toList, ← hrows, flatten_rows]

end CArray

end Lexicon
