import Lexicon.Word

namespace Lexicon

theorem isPrintable_iff {byte : UInt8} : isPrintable byte ↔ 0x20 ≤ byte ∧ byte ≤ 0x7E := by
  simp only [isPrintable, Bool.and_eq_true, decide_eq_true_eq, UInt8.le_iff_toNat_le,
    UInt8.lt_iff_toNat_lt]
  have h₁ : (0x7F : UInt8).toNat = 127 := rfl
  have h₂ : (0x7E : UInt8).toNat = 126 := rfl
  omega

/-! Entries are sorted by their words. -/

theorem Word.compare_eq_lt_iff (left right : Word) : compare left right = .lt ↔ left < right := by
  induction left generalizing right with
  | nil => cases right <;> simp [List.compare_nil_cons]
  | cons first rest ih =>
      cases right with
      | nil => simp [List.compare_cons_nil]
      | cons other others =>
          rw [List.compare_cons_cons, Ordering.then_eq_lt, ih, List.cons_lt_cons_iff,
            Std.compare_eq_lt, Std.compare_eq_iff_eq]

namespace Entry

instance : Std.TransCmp order :=
  inferInstanceAs (Std.TransCmp (compareLex (compareOn word) (compareOn value)))

theorem le_trans {first second third : Entry} (hfirst : first.le second)
    (hsecond : second.le third) : first.le third :=
  Std.TransCmp.isLE_trans hfirst hsecond

theorem le_total (first second : Entry) : (first.le second || second.le first) = true := by
  have hswap : order second first = (order first second).swap := Std.OrientedCmp.eq_swap
  rw [le, le, hswap]
  cases order first second <;> rfl

theorem pairwise_sort (entries : List Entry) :
    (sort entries).Pairwise fun left right => left.le right := by
  apply List.pairwise_mergeSort
  · intro first second third
    exact le_trans
  · exact le_total

theorem le_iff {left right : Entry} :
    left.le right ↔ left.word < right.word ∨ left.word = right.word ∧ left.value ≤ right.value := by
  rw [le, order, Ordering.isLE_then_iff_or, Word.compare_eq_lt_iff, Std.compare_eq_iff_eq,
    Std.isLE_compare]

theorem lt_of_le {left right : Entry} (h : left.le right) (hne : left.word ≠ right.word) :
    left.word < right.word :=
  (le_iff.mp h).resolve_right fun hsame => hne hsame.1

/-- Words that differ from each other are listed in strict order. -/
theorem pairwise_sort_lt {entries : List Entry}
    (distinct : entries.Pairwise fun left right => left.word ≠ right.word) :
    (sort entries).Pairwise fun left right => left.word < right.word := by
  have hsorted : (sort entries).Pairwise fun left right => left.word ≠ right.word :=
    distinct.perm (sort_perm entries).symm fun h => h.symm
  exact (pairwise_sort entries).imp₂ (fun _ _ => lt_of_le) hsorted

end Entry

end Lexicon
