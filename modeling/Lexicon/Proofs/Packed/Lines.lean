import Lexicon.Proofs.Packed.Marks

namespace Lexicon.Packed

variable {buffer : Buffer}

/-! What can be told from the line of a byte. -/

/-! Numbers are digits, and a comment ends like no production. -/

theorem toString_eq_concat (n : Nat) :
    ∃ before last, (toString n).toList = before ++ [last] ∧ last.isDigit := by
  have hdigits : (toString n).toList = Nat.toDigits 10 n := Nat.toList_repr
  obtain ⟨before, last, hlast⟩ := (List.eq_nil_or_concat' (Nat.toDigits 10 n)).resolve_left
    Nat.toDigits_ne_nil
  refine ⟨before, last, hdigits.trans hlast, ?_⟩
  exact Nat.isDigit_of_mem_toDigits (by decide) (by decide)
    (hlast ▸ List.mem_append_right _ List.mem_cons_self)

theorem head?_padLeft (column n : Nat) :
    ∃ first, (Text.padLeft column (toString n)).toList.head? = some first ∧ first ≠ '\n' := by
  have hdigits : (toString n).toList = Nat.toDigits 10 n := Nat.toList_repr
  rw [Text.padLeft, String.toList_append, String.toList_ofList, hdigits, List.head?_append]
  cases hpad : column - (toString n).length with
  | succ width => exact ⟨' ', rfl, by decide⟩
  | zero =>
      cases hfirst : Nat.toDigits 10 n with
      | nil => exact absurd hfirst Nat.toDigits_ne_nil
      | cons first rest =>
          have hdigit : first.isDigit := Nat.isDigit_of_mem_toDigits (by decide) (by decide)
            (hfirst ▸ List.mem_cons_self)
          refine ⟨first, rfl, ?_⟩
          rintro rfl
          exact absurd hdigit (by decide)

theorem Mark.comment_eq_concat {mark : Mark} (h : mark ≠ .payload) :
    ∃ before last, mark.comment.toList = before ++ [last] ∧ last ≠ '>' := by
  have number (n : Nat) (text : String) :
      ∃ before last, (text ++ toString n).toList = before ++ [last] ∧ last ≠ '>' := by
    obtain ⟨before, last, hlast, hdigit⟩ := toString_eq_concat n
    refine ⟨text.toList ++ before, last, ?_, ?_⟩
    · rw [String.toList_append, hlast, List.append_assoc]
    · rintro rfl
      exact absurd hdigit (by decide)
  have quoted (text inner : String) :
      ∃ before last, (text ++ Text.quote inner).toList = before ++ [last] ∧ last ≠ '>' := by
    refine ⟨text.toList ++ '"' :: inner.toList.flatMap (Text.escape '"'), '"', ?_, by decide⟩
    rw [String.toList_append, Text.quote, String.toList_ofList, List.append_assoc]
  cases mark with
  | link link => exact number _ _
  | payload => exact absurd rfl h
  | label byte =>
      cases byte with
      | char => exact quoted _ _
      | endChar => exact quoted _ _
      | value => exact number _ _

namespace Listing

/-- The lines of all bytes, each one with the blank line that stands before it. -/
def lines (buffer : Buffer) (listing : Listing) : List String :=
  let column := (toString (buffer.size - 1)).length
  buffer.toList.zipIdx.map fun (byte, position) =>
    (if listing.isStart position then "\n" else "") ++
      line column position byte (listing.mark? position)

theorem text_eq_join (buffer : Buffer) (listing : Listing) :
    text buffer listing = String.join (lines buffer listing) :=
  rfl

/-- The line says that its byte is not reached. -/
def ListsUnreached (line : String) : Prop :=
  "<unreached>\n".toList <:+ line.toList

/-- A blank line stands before the line. -/
def SetApart (line : String) : Prop :=
  ['\n'] <+: line.toList

theorem not_listsUnreached {text : String} {before : List Char} {last : Char}
    (h : text.toList = before ++ [last]) (hlast : last ≠ '>') : ¬ ListsUnreached (text ++ "\n") := by
  unfold ListsUnreached
  rw [← List.reverse_prefix, String.toList_append, h]
  intro hinitial
  have hinitial : '>' :: "<unreached".toList.reverse <+: last :: before.reverse := by
    simpa using hinitial
  exact hlast (List.cons_prefix_cons.mp hinitial).1.symm

theorem line_of_ne_payload {mark : Mark} (h : mark ≠ .payload) (column position : Nat)
    (byte : UInt8) :
    ∃ head : String, line column position byte (some mark) = head ++ mark.comment ++ "\n" := by
  cases mark with
  | payload => exact absurd rfl h
  | link => exact ⟨_, rfl⟩
  | label => exact ⟨_, rfl⟩

theorem listsUnreached_line_iff (before : String) (column position : Nat) (byte : UInt8)
    (mark : Option Mark) :
    ListsUnreached (before ++ line column position byte mark) ↔ mark = none := by
  cases mark with
  | none =>
      refine iff_of_true ?_ rfl
      rw [ListsUnreached, line, String.toList_append, String.toList_append]
      exact (List.suffix_append _ _).trans (List.suffix_append _ _)
  | some mark =>
      refine iff_of_false ?_ (Option.some_ne_none mark)
      by_cases hpayload : mark = .payload
      · subst hpayload
        rw [ListsUnreached, line, ← List.reverse_prefix]
        simp [Mark.production]
      · obtain ⟨head, hhead⟩ := line_of_ne_payload hpayload column position byte
        obtain ⟨comment, last, hcomment, hlast⟩ := Mark.comment_eq_concat hpayload
        rw [hhead, ← String.append_assoc, ← String.append_assoc]
        have htext : (before ++ head ++ mark.comment).toList =
            (before ++ head).toList ++ comment ++ [last] := by
          rw [String.toList_append, hcomment, List.append_assoc]
        exact not_listsUnreached htext hlast

theorem head?_line (column position : Nat) (byte : UInt8) (mark : Option Mark) :
    ∃ first, (line column position byte mark).toList.head? = some first ∧ first ≠ '\n' := by
  obtain ⟨first, hfirst, hne⟩ := head?_padLeft column position
  have hline : ∃ rest : String,
      line column position byte mark = Text.padLeft column (toString position) ++ rest := by
    unfold line
    simp only [String.append_assoc]
    split <;> exact ⟨_, rfl⟩
  obtain ⟨rest, hrest⟩ := hline
  refine ⟨first, ?_, hne⟩
  rw [hrest, String.toList_append, List.head?_append, hfirst]
  rfl

theorem getElem?_lines_eq_some {listing : Listing} {position : Nat} {line : String}
    (h : (lines buffer listing)[position]? = some line) :
    position < buffer.size ∧ (ListsUnreached line ↔ ¬ listing.Marked position) ∧
      (SetApart line ↔ listing.isStart position) := by
  unfold lines at h
  rw [List.getElem?_map, List.getElem?_zipIdx, Option.map_map] at h
  obtain ⟨byte, hbyte, rfl⟩ := Option.map_eq_some_iff.mp h
  have hsize : position < buffer.size := by
    simpa using (List.getElem?_eq_some_iff.mp hbyte).1
  simp only [Function.comp_apply, Nat.zero_add]
  refine ⟨hsize, (listsUnreached_line_iff _ _ _ _ _).trans ?_, ?_⟩
  · rw [Marked, Option.not_isSome_iff_eq_none]
  · obtain ⟨first, hfirst, hne⟩ := head?_line
      (toString (buffer.size - 1)).length position byte (listing.mark? position)
    split
    · rename_i hstart
      refine iff_of_true ?_ hstart
      rw [SetApart, String.toList_append]
      exact List.prefix_append _ _
    · rename_i hstart
      refine iff_of_false ?_ hstart
      rw [SetApart, String.empty_append]
      rintro ⟨rest, hrest⟩
      rw [← hrest] at hfirst
      exact hne (Option.some.inj hfirst).symm

theorem length_lines (buffer : Buffer) (listing : Listing) :
    (lines buffer listing).length = buffer.size := by
  simp [lines]

end Listing

end Lexicon.Packed
