import Lexicon.Proofs.Packed.Guarded.Reading
import Lexicon.Proofs.Packed.Lookup

namespace Lexicon.Packed

variable {buffer : Buffer}

namespace Run

theorem links_collect_append (buffer : Buffer) (cursor : Cursor) (links before : List Link) :
    (collect buffer cursor (links ++ before)).links =
      before.reverse ++ (collect buffer cursor links).links := by
  fun_induction collect buffer cursor links with
  | case1 cursor links after hnext =>
      rw [collect]
      split <;> simp_all
  | case2 cursor links error after hnext =>
      rw [collect]
      split <;> simp_all
  | case3 cursor links link after hnext _ ih =>
      rw [collect_of_next hnext]
      exact ih

theorem links_collect_of_next {cursor after : Cursor} {link : Link}
    (h : cursor.next buffer = (some (.ok link), after)) :
    (collect buffer cursor []).links = link :: (collect buffer after []).links := by
  rw [collect_of_next h]
  exact links_collect_append buffer after [] [link]

theorem links_collect_of_end {cursor after : Cursor} {error : Option DecodeError}
    (h : cursor.next buffer = (error.map .error, after)) :
    (collect buffer cursor []).links = [] := by
  rw [collect]
  cases error <;> split <;> simp_all

end Run

theorem next_bounds {cursor after : Cursor} {link : Link}
    (h : cursor.next buffer = (some (.ok link), after)) :
    ∃ position, cursor.position = some position ∧ position < link.target ∧
      link.target < buffer.size ∧ ∀ other, after.position = some other → position ≤ other := by
  unfold Cursor.next at h
  split at h
  · cases h
  · rename_i position hposition
    split at h
    · cases h
    · rename_i found hread
      cases h
      obtain ⟨_, _, _, hforward, hinside⟩ := Link.read_bounds hread
      refine ⟨position, hposition, hforward, hinside, fun other hother => ?_⟩
      simp only at hother
      split at hother
      · cases hother
      · cases hother
        exact Nat.le_add_right _ _

theorem follow_bounds {position start : Nat} {key rest : Word}
    (h : follow buffer position key = some (.links start rest)) :
    position < start ∧ start ≤ buffer.size := by
  induction key generalizing position with
  | nil =>
      unfold follow at h
      split at h <;> cases h
  | cons first others ih =>
      unfold follow at h
      split at h
      · split at h
        · have := ih h
          omega
        · cases h
      · rename_i letter hbyte
        split at h
        · cases h
          obtain ⟨byte, hbyte, _⟩ := Option.map_eq_some_iff.mp hbyte
          obtain ⟨hlt, _⟩ := Array.getElem?_eq_some_iff.mp hbyte
          omega
        · cases h
      · cases h

namespace Guarded

variable {rounds : Nat}

/-! The lookup of a key. -/

/-- What the label behind a link comes to: another link is tried, or the key is not there, or
the label is passed. -/
inductive Trial where
  | other
  | absent
  | passed (reached : Reached)

def followOn (buffer : Buffer) : Nat × Word → Except Stop (Nat × Word ⊕ Option Reached)
  | (position, []) =>
      match buffer[position]?.map LabelByte.ofByte with
      | some (.value v) => .ok (.inr (some (.value v)))
      | _ => .ok (.inr none)
  | (position, first :: rest) =>
      match buffer[position]?.map LabelByte.ofByte with
      | some (.char letter) =>
          if letter = first then .ok (.inl (position + 1, rest)) else .ok (.inr none)
      | some (.endChar letter) =>
          if letter = first then .ok (.inr (some (.links (position + 1) rest)))
          else .ok (.inr none)
      | _ => .ok (.inr none)

/-- Once the first letter is found, there is no way back. -/
def tryLabel (rounds : Nat) (buffer : Buffer) (position : Nat) : Word → Except Stop Trial
  | [] =>
      match buffer[position]?.map LabelByte.ofByte with
      | none => .ok .absent
      | some (.value v) => .ok (.passed (.value v))
      | some _ => .ok .other
  | first :: rest =>
      match buffer[position]?.map LabelByte.ofByte with
      | none => .ok .absent
      | some (.char letter) =>
          if letter = first then do
            match ← loop (followOn buffer) rounds (position + 1, rest) with
            | some reached => pure (.passed reached)
            | none => pure .absent
          else
            .ok .other
      | some (.endChar letter) =>
          if letter = first then .ok (.passed (.links (position + 1) rest)) else .ok .other
      | some (.value _) => .ok .other

def goOn (buffer : Buffer) (start : Nat) (after : Cursor) (key : Word) :
    Trial → Except Stop (Nat × Cursor × Word ⊕ Option UInt8)
  | .other => .ok (.inl (start, after, key))
  | .absent => .ok (.inr none)
  | .passed (.value v) => .ok (.inr (some v))
  | .passed (.links next rest) => do
      let next ← ahead buffer start next
      pure (.inl (next, .start next, rest))

def lookupOn (rounds : Nat) (buffer : Buffer) :
    Nat × Cursor × Word → Except Stop (Nat × Cursor × Word ⊕ Option UInt8)
  | (start, cursor, key) =>
      match next buffer cursor with
      | .error (.fault _) => .ok (.inr none)
      | .error stop => .error stop
      | .ok none => .ok (.inr none)
      | .ok (some (link, after)) => do
          let trial ← tryLabel rounds buffer link.target key
          goOn buffer start after key trial

def lookup (rounds : Nat) (buffer : Buffer) (key : Word) : Except Stop (Option UInt8) :=
  if key.all isPrintable then
    loop (lookupOn rounds buffer) rounds (0, .start 0, key)
  else
    .ok none

theorem next_eq (cursor : Cursor) :
    next buffer cursor =
      match cursor.next buffer with
      | (none, _) => .ok none
      | (some (.error error), _) => .error (.fault error)
      | (some (.ok link), after) => .ok (some (link, after)) := by
  rw [next, Cursor.next]
  cases cursor.position with
  | none => rfl
  | some position =>
      simp only [link_eq]
      cases Link.read buffer position cursor.base <;> rfl

theorem turn_followOn (buffer : Buffer) (state : Nat × Word) :
    Turn (fun _ => True) (fun state => buffer.size - state.1)
      (fun state => .ok (follow buffer state.1 state.2)) state (followOn buffer state) := by
  obtain ⟨position, key⟩ := state
  cases hfound : buffer[position]?.map LabelByte.ofByte with
  | none =>
      cases key <;> simp only [followOn, hfound] <;> exact .done (by simp only [follow, hfound])
  | some found =>
      obtain ⟨byte, hbyte, _⟩ := Option.map_eq_some_iff.mp hfound
      obtain ⟨hlt, _⟩ := Array.getElem?_eq_some_iff.mp hbyte
      cases key with
      | nil =>
          cases found <;> simp only [followOn, hfound] <;>
            exact .done (by simp only [follow, hfound])
      | cons first rest =>
          cases found with
          | char letter =>
              by_cases hfirst : letter = first
              · simp only [followOn, hfound, if_pos hfirst]
                exact .more trivial (by simp only; omega)
                  (by simp only [follow, hfound, if_pos hfirst])
              · simp only [followOn, hfound, if_neg hfirst]
                exact .done (by simp only [follow, hfound, if_neg hfirst])
          | endChar letter =>
              by_cases hfirst : letter = first
              · simp only [followOn, hfound, if_pos hfirst]
                exact .done (by simp only [follow, hfound, if_pos hfirst])
              · simp only [followOn, hfound, if_neg hfirst]
                exact .done (by simp only [follow, hfound, if_neg hfirst])
          | value v =>
              simp only [followOn, hfound]
              exact .done (by simp only [follow, hfound])

theorem loop_followOn (enough : buffer.size < rounds) (position : Nat) (key : Word) :
    loop (followOn buffer) rounds (position, key) = .ok (follow buffer position key) :=
  loop_eq (fun state _ => turn_followOn buffer state) trivial (by simp only; omega)

/-- The trial of a label that begins as the key does. -/
def Trial.ofReached : Option Reached → Trial
  | some reached => .passed reached
  | none => .absent

theorem tryLabel_eq (enough : buffer.size < rounds) {position : Nat} (h : position < buffer.size)
    (key : Word) :
    tryLabel rounds buffer position key =
      .ok (if begins buffer position key then .ofReached (follow buffer position key)
        else .other) := by
  obtain ⟨found, hfound⟩ : ∃ found, buffer[position]?.map LabelByte.ofByte = some found :=
    ⟨_, congrArg (Option.map LabelByte.ofByte) (Array.getElem?_eq_getElem h)⟩
  cases key with
  | nil => cases found <;> simp [tryLabel, begins, follow, hfound, Trial.ofReached]
  | cons first rest =>
      cases found with
      | char letter =>
          by_cases hfirst : letter = first
          · simp only [tryLabel, begins, follow, hfound, hfirst, loop_followOn enough, ok_bind,
              beq_self_eq_true, if_true]
            cases follow buffer (position + 1) rest <;> rfl
          · simp [tryLabel, begins, hfound, hfirst]
      | endChar letter =>
          by_cases hfirst : letter = first <;>
            simp [tryLabel, begins, follow, hfound, hfirst, Trial.ofReached]
      | value v => simp [tryLabel, begins, hfound]

/-- What a lookup comes to from a link on. -/
def answer (buffer : Buffer) (cursor : Cursor) (key : Word) : Option UInt8 :=
  ((Run.collect buffer cursor []).links.find? fun link => begins buffer link.target key).bind
    fun link => (follow buffer link.target key).bind (Reached.value? buffer)

theorem answer_start (buffer : Buffer) (start : Nat) (key : Word) :
    answer buffer (.start start) key = lookupFrom buffer start key :=
  (lookupFrom_step buffer start key).symm

theorem answer_of_end {cursor after : Cursor} {error : Option DecodeError}
    (h : cursor.next buffer = (error.map .error, after)) (key : Word) :
    answer buffer cursor key = none := by
  rw [answer, Run.links_collect_of_end h]
  rfl

theorem answer_of_next {cursor after : Cursor} {link : Link}
    (h : cursor.next buffer = (some (.ok link), after)) (key : Word) :
    answer buffer cursor key =
      if begins buffer link.target key then
        (follow buffer link.target key).bind (Reached.value? buffer)
      else
        answer buffer after key := by
  rw [answer, Run.links_collect_of_next h, List.find?_cons]
  split
  · rename_i hbegins
    rw [if_pos hbegins]
    rfl
  · rename_i hbegins
    rw [if_neg (by simp [hbegins])]
    rfl

/-- Rounds of a lookup: those for what is left of the run, and those for all runs behind it. -/
def roomOf (buffer : Buffer) (state : Nat × Cursor × Word) : Nat :=
  (buffer.size + 1 - state.1) * (buffer.size + 2) + state.2.1.room buffer

theorem roomOf_start_lt {start next : Nat} (h : start < next ∧ next ≤ buffer.size) (rest : Word)
    (cursor : Cursor) (key : Word) :
    roomOf buffer (next, .start next, rest) < roomOf buffer (start, cursor, key) := by
  have hruns : (buffer.size + 1 - next + 1) * (buffer.size + 2) ≤
      (buffer.size + 1 - start) * (buffer.size + 2) :=
    Nat.mul_le_mul_right _ (by omega)
  have hroom : (Cursor.start next).room buffer = buffer.size + 1 - next := rfl
  rw [Nat.succ_mul] at hruns
  simp only [roomOf, hroom]
  omega

/-- All links of the run that are left stand behind its start. -/
def Within (state : Nat × Cursor × Word) : Prop :=
  ∀ position, state.2.1.position = some position → state.1 ≤ position

theorem within_start (start : Nat) (key : Word) : Within (start, .start start, key) := by
  rintro position hposition
  cases hposition
  exact Nat.le_refl _

/-- Where the label begins as the key does, nothing but what is behind it counts. -/
theorem turn_passed {start target : Nat} {cursor after : Cursor} {key : Word}
    (hvalue : answer buffer cursor key = (follow buffer target key).bind (Reached.value? buffer))
    (hstart : start ≤ target) :
    Turn Within (roomOf buffer) (fun state => .ok (answer buffer state.2.1 state.2.2))
      (start, cursor, key) (goOn buffer start after key (.ofReached (follow buffer target key))) := by
  cases hfollow : follow buffer target key with
  | none =>
      rw [hfollow] at hvalue
      exact .done (congrArg Except.ok hvalue)
  | some reached =>
      rw [hfollow] at hvalue
      cases reached with
      | value v => exact .done (congrArg Except.ok hvalue)
      | links next rest =>
          obtain ⟨hlt, hle⟩ := follow_bounds hfollow
          have hahead : start < next ∧ next ≤ buffer.size := ⟨by omega, hle⟩
          simp only [Trial.ofReached, goOn, ahead, if_pos hahead, ok_bind]
          exact .more (within_start next rest) (roomOf_start_lt hahead rest cursor key)
            (congrArg Except.ok (hvalue.trans (answer_start buffer next rest).symm))

theorem turn_lookupOn (enough : buffer.size < rounds) (state : Nat × Cursor × Word)
    (within : Within state) :
    Turn Within (roomOf buffer) (fun state => .ok (answer buffer state.2.1 state.2.2)) state
      (lookupOn rounds buffer state) := by
  obtain ⟨start, cursor, key⟩ := state
  rw [lookupOn, next_eq]
  cases hnext : cursor.next buffer with
  | mk outcome after =>
      match outcome with
      | none => exact .done (congrArg Except.ok (@answer_of_end _ _ _ none hnext key))
      | some (.error error) =>
          exact .done (congrArg Except.ok (@answer_of_end _ _ _ (some error) hnext key))
      | some (.ok link) =>
          obtain ⟨position, hposition, hforward, hinside, hafter⟩ := next_bounds hnext
          have hstart : start ≤ position := within position hposition
          have hvalue := answer_of_next hnext key
          simp only [tryLabel_eq enough hinside, ok_bind]
          by_cases hbegins : begins buffer link.target key
          · rw [if_pos hbegins] at hvalue ⊢
            exact turn_passed hvalue (by omega)
          · rw [if_neg hbegins] at hvalue ⊢
            have hless := Cursor.room_next_lt hnext
            refine .more (fun other hother => ?_) ?_ (congrArg Except.ok hvalue)
            · exact Nat.le_trans hstart (hafter other hother)
            · simp only [roomOf]
              omega

theorem lookup_eq (enough : (buffer.size + 2) * (buffer.size + 2) ≤ rounds) (key : Word) :
    lookup rounds buffer key = .ok (Packed.lookup buffer key) := by
  have hrounds : (buffer.size + 2) * (buffer.size + 2) =
      (buffer.size + 1) * (buffer.size + 2) + (buffer.size + 2) :=
    Nat.succ_mul _ _
  have hstart : (Cursor.start 0).room buffer = buffer.size + 1 := rfl
  have hroom : roomOf buffer (0, .start 0, key) < rounds := by
    simp only [roomOf, hstart, Nat.sub_zero]
    omega
  rw [lookup, Packed.lookup]
  split
  · rw [loop_eq (turn_lookupOn (by omega)) (within_start 0 key) hroom, answer_start]
  · rfl

end Guarded

end Lexicon.Packed
