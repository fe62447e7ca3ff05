namespace Lexicon.Text

/-! Blanks and lines. -/

/-- The white space of Unicode. -/
def isBlank (char : Char) : Bool :=
  let code := char.toNat
  (0x09 ≤ code && code ≤ 0x0D) || code == 0x20 || code == 0x85 || code == 0xA0 ||
    code == 0x1680 || (0x2000 ≤ code && code ≤ 0x200A) || code == 0x2028 || code == 0x2029 ||
    code == 0x202F || code == 0x205F || code == 0x3000

def trim (text : List Char) : List Char :=
  ((text.dropWhile isBlank).reverse.dropWhile isBlank).reverse

/-- A character in front of lines: a line feed ends a line of its own, any other
character begins the first of them. -/
def consLine (char : Char) (lines : List (List Char)) : List (List Char) :=
  if char = '\n' then
    [] :: lines
  else
    match lines with
    | [] => [[char]]
    | line :: rest => (char :: line) :: rest

/-- The lines of a text. Behind the last line feed there is no empty line. -/
def lines (text : List Char) : List (List Char) :=
  text.foldr consLine []

theorem lines_append {line rest : List Char} (h : '\n' ∉ line) :
    lines (line ++ '\n' :: rest) = line :: lines rest := by
  induction line with
  | nil => rfl
  | cons char line ih =>
      rw [List.mem_cons, not_or] at h
      rw [List.cons_append, lines, List.foldr_cons, ← lines, ih h.2, consLine, if_neg (Ne.symm h.1)]

end Lexicon.Text
