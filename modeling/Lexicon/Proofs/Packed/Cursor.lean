import Lexicon.Proofs.Packed.Grammar
import Lexicon.Proofs.Packed.ReadBack
import Mathlib.Algebra.GroupWithZero.Nat

namespace Lexicon.Packed

/-! A cursor is asked for one link after the other, and asked on when there are no more. -/

variable {buffer : Buffer} {position base : Nat} {run : Run}

namespace Cursor

/-- The cursor when it has been asked so many times. -/
def after (buffer : Buffer) : Nat → Cursor → Cursor
  | 0, cursor => cursor
  | calls + 1, cursor => after buffer calls (cursor.next buffer).2

/-- What the cursor answers when it has been asked so many times before. -/
def answer (buffer : Buffer) (cursor : Cursor) (calls : Nat) :
    Option (Except DecodeError Link) :=
  ((cursor.after buffer calls).next buffer).1

theorem answer_succ (cursor : Cursor) (calls : Nat) :
    cursor.answer buffer (calls + 1) = (cursor.next buffer).2.answer buffer calls :=
  rfl

theorem next_of_error {error : DecodeError} (read : Link.read buffer position base = .error error) :
    next buffer ⟨some position, base⟩ = (some (.error error), ⟨none, base⟩) := by
  simp only [next, read]

theorem next_of_link {link : Link} (read : Link.read buffer position base = .ok link) :
    next buffer ⟨some position, base⟩ =
      (some (.ok link),
        ⟨if link.last then none else some (position + link.width), link.target⟩) := by
  simp only [next, read]

/-- A cursor without a position stays as it is. -/
theorem answer_of_none {cursor : Cursor} (done : cursor.position = none) (calls : Nat) :
    cursor.answer buffer calls = none := by
  have hnext : cursor.next buffer = (none, cursor) := by
    simp only [next, done]
  induction calls with
  | zero => exact congrArg Prod.fst hnext
  | succ calls ih => rw [answer_succ, hnext, ih]

end Cursor

theorem Grammar.LinkAt.width_le {distance width : Nat} {last : Bool}
    (h : Grammar.LinkAt buffer position distance width last) : width ≤ 3 := by
  cases h <;> decide

namespace Run

/-- The links of a run, and behind them the error that it breaks off with. -/
def answers (run : Run) : List (Except DecodeError Link) :=
  run.links.map .ok ++ run.error.toList.map .error

theorem Reads.answer_eq (reads : Reads buffer position base run) (calls : Nat) :
    Cursor.answer buffer ⟨some position, base⟩ calls = run.answers[calls]? := by
  induction reads generalizing calls with
  | fault read =>
      cases calls with
      | zero => exact congrArg Prod.fst (Cursor.next_of_error read)
      | succ calls =>
          rw [Cursor.answer_succ, Cursor.next_of_error read, Cursor.answer_of_none rfl]
          rfl
  | last read last =>
      cases calls with
      | zero => exact congrArg Prod.fst (Cursor.next_of_link read)
      | succ calls =>
          rw [Cursor.answer_succ, Cursor.next_of_link read, last, Cursor.answer_of_none rfl]
          rfl
  | more read last behind ih =>
      cases calls with
      | zero => exact congrArg Prod.fst (Cursor.next_of_link read)
      | succ calls =>
          rw [Cursor.answer_succ, Cursor.next_of_link read, last]
          exact ih calls

theorem Reads.exists_read (reads : Reads buffer position base run) :
    ∀ link ∈ run.links, ∃ position base, Link.read buffer position base = .ok link := by
  induction reads with
  | fault => exact nofun
  | last read => exact List.forall_mem_singleton.mpr ⟨_, _, read⟩
  | more read _ _ ih => exact List.forall_mem_cons.mpr ⟨⟨_, _, read⟩, ih⟩

/-- Each link leads as far behind the base as the distances up to its own one come to. -/
theorem Reads.exists_distances (reads : Reads buffer position base run) :
    ∃ distances : List Nat,
      List.Forall₂ (fun link distance =>
        Grammar.LinkAt buffer link.position distance link.width link.last) run.links distances ∧
      ∀ index link, run.links[index]? = some link →
        link.target = base + (distances.take (index + 1)).sum := by
  induction reads with
  | fault => exact ⟨[], .nil, nofun⟩
  | @last position base link read last =>
      obtain ⟨distance, hlink, rfl, htarget, _⟩ := Grammar.read_eq_ok_iff.mp read
      refine ⟨[distance], .cons hlink .nil, fun index found hfound => ?_⟩
      cases index with
      | zero =>
          cases hfound
          simpa using htarget
      | succ index => cases hfound
  | @more position base link links error read last behind ih =>
      obtain ⟨distance, hlink, rfl, htarget, _⟩ := Grammar.read_eq_ok_iff.mp read
      obtain ⟨distances, hlinks, htargets⟩ := ih
      refine ⟨distance :: distances, .cons hlink hlinks, fun index found hfound => ?_⟩
      cases index with
      | zero =>
          cases hfound
          simpa using htarget
      | succ index =>
          rw [htargets index found hfound, htarget, List.take_succ_cons, List.sum_cons,
            Nat.add_assoc]

/-- A run that breaks off has no link with the mark. -/
theorem Reads.unmarked (reads : Reads buffer position base run) (broken : run.error ≠ none) :
    ∀ link ∈ run.links, link.last = false := by
  induction reads with
  | fault => exact nofun
  | last => exact absurd rfl broken
  | more _ last _ ih => exact List.forall_mem_cons.mpr ⟨last, ih broken⟩

theorem Reads.error_eq_none_iff (reads : Reads buffer position base run) :
    run.error = none ↔ EndsOnce run.links := by
  refine ⟨reads.endsOnce, fun ends => ?_⟩
  by_contra broken
  obtain ⟨others, final, hlinks, hfinal, _⟩ := ends
  have hmem : final ∈ run.links := hlinks ▸ List.mem_concat_self
  rw [reads.unmarked broken final hmem] at hfinal
  cases hfinal

/-- Whatever the buffer and wherever the run starts: the answers are links, then at most one
error, then none for ever. The links stand side by side from the start on, each of them in the
buffer as the grammar has it; they lead forward and stay inside the buffer, no less far each
than the one before it, and each as far from the start as the distances so far come to. There
is no error if and only if the last link is marked, and only the last one is. -/
theorem cursor_answers (buffer : Buffer) (start : Nat) :
    let run := Run.read buffer start
    (∀ calls, (Cursor.start start).answer buffer calls = run.answers[calls]?) ∧
    (∃ stop, Tiles start run.links stop) ∧
    (∀ link ∈ run.links, 1 ≤ link.width ∧ link.width ≤ 3 ∧
      link.position + link.width ≤ buffer.size ∧
      link.position < link.target ∧ link.target < buffer.size) ∧
    (run.links.Pairwise fun left right => left.target ≤ right.target) ∧
    (∃ distances : List Nat,
      List.Forall₂ (fun link distance =>
        Grammar.LinkAt buffer link.position distance link.width link.last) run.links distances ∧
      ∀ index link, run.links[index]? = some link →
        link.target = start + (distances.take (index + 1)).sum) ∧
    (run.error = none ↔ EndsOnce run.links) := by
  intro run
  have reads : Reads buffer start start run := reads_read buffer start
  obtain ⟨stop, htiles, _⟩ := reads.exists_tiles
  refine ⟨reads.answer_eq, ⟨stop, htiles⟩, fun link hlink => ?_, reads.targets.2,
    reads.exists_distances, reads.error_eq_none_iff⟩
  obtain ⟨position, base, hread⟩ := reads.exists_read link hlink
  obtain ⟨hposition, hpositive, hfits, hforward, hinside⟩ := Link.read_bounds hread
  obtain ⟨distance, hlinkAt, _⟩ := Grammar.read_eq_ok_iff.mp hread
  rw [hposition]
  exact ⟨hpositive, hlinkAt.width_le, hfits, hforward, hinside⟩

end Run

end Lexicon.Packed
