import Lexicon.Packed.Branch

namespace Lexicon.Packed

/-! Runs lead to later runs, so that every way through them ends. The weight of
the runs that are left to visit falls when one gives way to those behind it, as
often as these are met. -/

def weight (buffer : Buffer) (starts : List Nat) : Nat :=
  (starts.map fun start => (buffer.size + 1).pow (buffer.size - start)).foldr (· + ·) 0

theorem weight_append (buffer : Buffer) (left right : List Nat) :
    weight buffer (left ++ right) = weight buffer left + weight buffer right := by
  simp only [weight, ← List.sum_eq_foldr, List.map_append, List.sum_append]

theorem weight_cons (buffer : Buffer) (start : Nat) (rest : List Nat) :
    weight buffer (start :: rest) = weight buffer [start] + weight buffer rest :=
  weight_append buffer [start] rest

theorem weight_singleton_pos (buffer : Buffer) (start : Nat) : 0 < weight buffer [start] := by
  simp only [weight, List.map_cons, List.map_nil, List.foldr_cons, List.foldr_nil, Nat.add_zero]
  exact Nat.pow_pos (by omega)

theorem weight_le (buffer : Buffer) (starts : List Nat) (room : Nat)
    (h : ∀ start ∈ starts, buffer.size - start ≤ room) :
    weight buffer starts ≤ starts.length * (buffer.size + 1).pow room := by
  induction starts with
  | nil => simp [weight]
  | cons start rest ih =>
      have hrest := ih fun other hother => h other (List.mem_cons_of_mem _ hother)
      have hstart : (buffer.size + 1).pow (buffer.size - start) ≤ (buffer.size + 1).pow room :=
        Nat.pow_le_pow_right (by omega) (h start List.mem_cons_self)
      simp only [weight, List.map_cons, List.foldr_cons, List.length_cons] at hrest ⊢
      rw [Nat.succ_mul]
      omega

theorem weight_branches_lt {buffer : Buffer} {start : Nat} {found : List Branch}
    (h : branches buffer start = .ok found) {starts : List Nat}
    (hlength : starts.length ≤ found.length)
    (hmem : ∀ next ∈ starts, ∃ branch ∈ found, branch.start? = some next) :
    weight buffer starts < weight buffer [start] := by
  have hcount := Nat.le_trans hlength (length_branches_le h)
  cases hroom : buffer.size - start with
  | zero =>
      have : starts = [] := List.length_eq_zero_iff.mp (by omega)
      subst this
      exact weight_singleton_pos buffer start
  | succ room =>
      have hle := weight_le buffer starts room fun next hnext => by
        obtain ⟨branch, hbranch, hstart⟩ := hmem next hnext
        have := branches_start h hbranch hstart
        omega
      have hpos : 0 < (buffer.size + 1).pow room := Nat.pow_pos (by omega)
      have hlt : starts.length * (buffer.size + 1).pow room <
          (buffer.size + 1) * (buffer.size + 1).pow room :=
        Nat.mul_lt_mul_of_pos_right (by omega) hpos
      have hweight : weight buffer [start] =
          (buffer.size + 1) * (buffer.size + 1).pow room := by
        simp only [weight, List.map_cons, List.map_nil, List.foldr_cons, List.foldr_nil,
          Nat.add_zero, hroom]
        exact Nat.pow_succ'
      omega

theorem weight_rest_lt (buffer : Buffer) (start : Nat) (rest : List Nat) :
    weight buffer rest < weight buffer (start :: rest) := by
  have := weight_singleton_pos buffer start
  rw [weight_cons]
  omega

/-- The runs behind the branches of a run, the last one first. -/
def nextStarts (found : List Branch) : List Nat :=
  (found.filterMap Branch.start?).reverse

theorem weight_nextStarts_lt {buffer : Buffer} {start : Nat} {found : List Branch}
    (h : branches buffer start = .ok found) (rest : List Nat) :
    weight buffer (nextStarts found ++ rest) < weight buffer (start :: rest) := by
  have hlt : weight buffer (nextStarts found) < weight buffer [start] := by
    refine weight_branches_lt h ?_ ?_
    · simpa [nextStarts] using List.length_filterMap_le Branch.start? found
    · intro next hnext
      simpa [nextStarts] using hnext
  rw [weight_append, weight_cons buffer start]
  omega

end Lexicon.Packed
