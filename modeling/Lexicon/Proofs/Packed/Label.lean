import Lexicon.Packed.Branch
import Lexicon.Packed.Lookup

namespace Lexicon.Packed

/-! A label byte is read as it was written. -/

namespace LabelByte

theorem toNat_mark {byte : UInt8} (h : byte < 0x80) : (0x80 ||| byte).toNat = 0x80 + byte.toNat := by
  have hbyte : byte.toNat < 2 ^ 7 := UInt8.lt_iff_toNat_lt.mp h
  rw [UInt8.toNat_or]
  exact (Nat.two_pow_add_eq_or_of_lt hbyte 1).symm

theorem ofByte_toByte_endChar {byte : UInt8} (hlow : 0x20 ≤ byte) (hhigh : byte < 0x80) :
    ofByte (toByte (.endChar byte)) = .endChar byte := by
  have hmark := toNat_mark hhigh
  rw [UInt8.le_iff_toNat_le] at hlow
  rw [UInt8.lt_iff_toNat_lt] at hhigh
  have hlow : 0x20 ≤ byte.toNat := hlow
  have hhigh : byte.toNat < 0x80 := hhigh
  have hchar : ¬ 0x80 ||| byte < 0x80 := by
    rw [UInt8.lt_iff_toNat_lt, hmark]
    exact Nat.not_lt.mpr (Nat.le_add_right _ _)
  have hvalue : ¬ 0x80 ||| byte < 0xA0 := by
    rw [UInt8.lt_iff_toNat_lt, hmark]
    exact Nat.not_lt.mpr (Nat.add_le_add_left hlow 0x80)
  have hrest : (0x80 ||| byte) &&& 0x7F = byte := by
    apply UInt8.toNat_inj.mp
    rw [UInt8.toNat_and, hmark]
    apply (Nat.and_two_pow_sub_one_eq_mod _ 7).trans
    omega
  rw [toByte, ofByte, if_neg hchar, if_neg hvalue, hrest]

theorem ofByte_toByte_value {v : UInt8} (h : v ≤ 15) : ofByte (toByte (.value v)) = .value v := by
  have hv : v.toNat ≤ 15 := UInt8.le_iff_toNat_le.mp h
  have hmark : (0x80 ||| v).toNat = 0x80 + v.toNat :=
    toNat_mark (UInt8.lt_iff_toNat_lt.mpr (Nat.lt_of_le_of_lt hv (by decide)))
  have hchar : ¬ 0x80 ||| v < 0x80 := by
    rw [UInt8.lt_iff_toNat_lt, hmark]
    exact Nat.not_lt.mpr (Nat.le_add_right _ _)
  have hvalue : 0x80 ||| v < 0xA0 := by
    rw [UInt8.lt_iff_toNat_lt, hmark]
    exact Nat.lt_of_le_of_lt (Nat.add_le_add_left hv 0x80) (by decide)
  have hrest : (0x80 ||| v) &&& 0x0F = v := by
    apply UInt8.toNat_inj.mp
    rw [UInt8.toNat_and, hmark]
    apply (Nat.and_two_pow_sub_one_eq_mod _ 4).trans
    omega
  rw [toByte, ofByte, if_neg hchar, if_pos hvalue, hrest]

end LabelByte

/-! What the bytes of a label spell, whoever reads them. -/

/-- The label at a position has these letters and ends so. -/
inductive Spells (buffer : Buffer) : Nat → Word → Ending → Prop
  | value {position : Nat} {byte v : UInt8} (found : buffer[position]? = some byte)
      (byte_eq : LabelByte.ofByte byte = .value v) : Spells buffer position [] (.value v)
  | endChar {position : Nat} {byte letter : UInt8} (found : buffer[position]? = some byte)
      (byte_eq : LabelByte.ofByte byte = .endChar letter) (printable : isPrintable letter) :
      Spells buffer position [letter] (.links (position + 1))
  | char {position : Nat} {byte letter : UInt8} {letters : Word} {ending : Ending}
      (found : buffer[position]? = some byte) (byte_eq : LabelByte.ofByte byte = .char letter)
      (printable : isPrintable letter) (rest : Spells buffer (position + 1) letters ending) :
      Spells buffer position (letter :: letters) ending

namespace Label

theorem spells_of_readFrom {buffer : Buffer} {position : Nat} {before : Word} {label : Label}
    (h : readFrom buffer position before = .ok label) :
    ∃ letters, label.letters = before.reverse ++ letters ∧
      Spells buffer position letters label.ending := by
  fun_induction readFrom buffer position before with
  | case1 => cases h
  | case2 position before byte found _ letter byte_eq printable ih =>
      obtain ⟨letters, hletters, rest⟩ := ih h
      refine ⟨letter :: letters, ?_, .char found byte_eq printable rest⟩
      rw [hletters, List.reverse_cons, List.append_assoc, List.singleton_append]
  | case3 => cases h
  | case4 position before byte found _ letter byte_eq printable =>
      cases h
      exact ⟨[letter], List.reverse_cons, .endChar found byte_eq printable⟩
  | case5 => cases h
  | case6 position before byte found _ v byte_eq =>
      cases h
      exact ⟨[], (List.append_nil _).symm, .value found byte_eq⟩

theorem readFrom_eq {buffer : Buffer} {position : Nat} {byte : UInt8}
    (h : buffer[position]? = some byte) (before : Word) :
    readFrom buffer position before =
      match LabelByte.ofByte byte with
      | .char letter =>
          if isPrintable letter then readFrom buffer (position + 1) (letter :: before)
          else .error (.unexpectedByte position byte)
      | .endChar letter =>
          if isPrintable letter then .ok ⟨(letter :: before).reverse, .links (position + 1)⟩
          else .error (.unexpectedByte position byte)
      | .value v => .ok ⟨before.reverse, .value v⟩ := by
  rw [readFrom]
  split
  · simp_all
  · rename_i found hfound
    cases hfound.symm.trans h
    rfl

theorem readFrom_of_spells {buffer : Buffer} {position : Nat} {letters : Word} {ending : Ending}
    (h : Spells buffer position letters ending) (before : Word) :
    readFrom buffer position before = .ok ⟨before.reverse ++ letters, ending⟩ := by
  induction h generalizing before with
  | value found byte_eq =>
      rw [readFrom_eq found]
      simp only [byte_eq, List.append_nil]
  | endChar found byte_eq printable =>
      rw [readFrom_eq found]
      simp only [byte_eq, printable, if_true, List.reverse_cons]
  | char found byte_eq printable rest ih =>
      rw [readFrom_eq found]
      simp only [byte_eq, printable, if_true, ih, List.reverse_cons, List.append_assoc,
        List.singleton_append]

theorem read_eq_ok_iff {buffer : Buffer} {position : Nat} {label : Label} :
    read buffer position = .ok label ↔ Spells buffer position label.letters label.ending := by
  constructor
  · intro h
    obtain ⟨letters, hletters, hspells⟩ := spells_of_readFrom h
    rw [List.reverse_nil, List.nil_append] at hletters
    rwa [hletters]
  · intro h
    exact readFrom_of_spells h []

end Label

/-- A label that a run follows has a letter. -/
theorem Spells.letters_ne_nil {buffer : Buffer} {position start : Nat} {letters : Word}
    (h : Spells buffer position letters (.links start)) : letters ≠ [] := by
  cases h with
  | endChar => exact List.cons_ne_nil _ _
  | char => exact List.cons_ne_nil _ _

theorem Spells.unique {buffer : Buffer} {position : Nat} {first second : Word}
    {one other : Ending} (h : Spells buffer position first one)
    (k : Spells buffer position second other) : first = second ∧ one = other := by
  have hread := Label.readFrom_of_spells h []
  rw [Label.readFrom_of_spells k []] at hread
  cases hread
  exact ⟨rfl, rfl⟩

/-- The character that a label begins with. -/
def firstAt (buffer : Buffer) (position : Nat) : Option UInt8 :=
  match buffer[position]?.map LabelByte.ofByte with
  | some (.char letter) => some letter
  | some (.endChar letter) => some letter
  | _ => none

theorem Spells.head?_eq {buffer : Buffer} {position : Nat} {letters : Word} {ending : Ending}
    (h : Spells buffer position letters ending) : letters.head? = firstAt buffer position := by
  cases h with
  | value found byte_eq => simp [firstAt, found, byte_eq]
  | endChar found byte_eq => simp [firstAt, found, byte_eq]
  | char found byte_eq => simp [firstAt, found, byte_eq]

/-! Lookup reads the same labels. -/

theorem Spells.begins_iff {buffer : Buffer} {position : Nat} {letters : Word} {ending : Ending}
    (h : Spells buffer position letters ending) (key : Word) :
    begins buffer position key ↔ letters.head? = key.head? := by
  cases h with
  | value found byte_eq => cases key <;> simp [begins, found, byte_eq]
  | endChar found byte_eq => cases key <;> simp [begins, found, byte_eq]
  | char found byte_eq => cases key <;> simp [begins, found, byte_eq]

/-- What is reached behind a label, with the rest of the key. -/
def Ending.reached? : Ending → Word → Option Reached
  | .links start, rest => some (.links start rest)
  | .value v, [] => some (.value v)
  | .value _, _ :: _ => none

theorem Spells.follow_eq_some_iff {buffer : Buffer} {position : Nat} {letters : Word}
    {ending : Ending} (h : Spells buffer position letters ending) (key : Word)
    (reached : Reached) :
    follow buffer position key = some reached ↔
      ∃ rest, key = letters ++ rest ∧ ending.reached? rest = some reached := by
  induction h generalizing key with
  | value found byte_eq =>
      cases key <;> simp [follow, found, byte_eq, Ending.reached?]
  | @endChar position byte letter found byte_eq printable =>
      cases key with
      | nil => simp [follow, found, byte_eq]
      | cons first others =>
          simp only [follow, found, byte_eq, Option.map_some, List.singleton_append,
            List.cons.injEq, Ending.reached?]
          split
          · rename_i hfirst
            simp [hfirst]
          · rename_i hfirst
            simp [Ne.symm hfirst]
  | @char position byte letter letters ending found byte_eq printable _ ih =>
      cases key with
      | nil => simp [follow, found, byte_eq]
      | cons first others =>
          simp only [follow, found, byte_eq, Option.map_some, List.cons_append, List.cons.injEq]
          split
          · rename_i hfirst
            simp [ih, hfirst]
          · rename_i hfirst
            simp [Ne.symm hfirst]

end Lexicon.Packed
