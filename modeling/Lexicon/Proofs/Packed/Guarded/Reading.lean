import Lexicon.Proofs.Packed.Marks
import Lexicon.Proofs.Packed.Run

namespace Lexicon.Packed

namespace Label

theorem read_of_none {buffer : Buffer} {position : Nat} (h : buffer[position]? = none) :
    read buffer position = .error (.truncated position) := by
  rw [read, readFrom]
  split <;> simp_all

theorem readFrom_append (buffer : Buffer) (position : Nat) (letters before : Word) :
    readFrom buffer position (letters ++ before) =
      (readFrom buffer position letters).map fun label =>
        ⟨before.reverse ++ label.letters, label.ending⟩ := by
  fun_induction readFrom buffer position letters with
  | case1 position letters hnone =>
      rw [readFrom]
      split <;> simp_all [Except.map]
  | case2 position letters byte hbyte _ letter hletter hprintable ih =>
      rw [readFrom_eq hbyte, hletter]
      simp only [hprintable, if_true]
      exact ih
  | case3 position letters byte hbyte _ letter hletter hprintable =>
      rw [readFrom_eq hbyte, hletter]
      simp only [hprintable]
      rfl
  | case4 position letters byte hbyte _ letter hletter hprintable =>
      rw [readFrom_eq hbyte, hletter]
      simp [hprintable, Except.map]
  | case5 position letters byte hbyte _ letter hletter hprintable =>
      rw [readFrom_eq hbyte, hletter]
      simp only [hprintable]
      rfl
  | case6 position letters byte hbyte _ v hv =>
      rw [readFrom_eq hbyte, hv]
      simp [Except.map]

theorem read_eq {buffer : Buffer} {position : Nat} {byte : UInt8}
    (h : buffer[position]? = some byte) :
    read buffer position =
      match LabelByte.ofByte byte with
      | .char letter =>
          if isPrintable letter then
            (read buffer (position + 1)).map fun label => ⟨letter :: label.letters, label.ending⟩
          else
            .error (.unexpectedByte position byte)
      | .endChar letter =>
          if isPrintable letter then .ok ⟨[letter], .links (position + 1)⟩
          else .error (.unexpectedByte position byte)
      | .value v => .ok ⟨[], .value v⟩ := by
  rw [read, readFrom_eq h]
  cases LabelByte.ofByte byte with
  | char letter =>
      have hread := readFrom_append buffer (position + 1) [] [letter]
      rw [List.nil_append] at hread
      simp only [hread]
      rfl
  | endChar letter => rfl
  | value v => rfl

end Label

/-! Reading that stops where it would leave an array, where a run would lead to one that is not
behind it, and where a loop has had all of its rounds. -/

inductive Stop where
  | fault (error : DecodeError)
  | outside (index size : Nat)
  | astray (start next : Nat)
  | unfinished
deriving DecidableEq, Repr

namespace Guarded

variable {α σ : Type}

/-- An element that has to be there. -/
def getAt (values : Array α) (index : Nat) : Except Stop α :=
  match values[index]? with
  | some value => .ok value
  | none => .error (.outside index values.size)

def setAt (values : Array α) (index : Nat) (value : α) : Except Stop (Array α) :=
  if index < values.size then
    .ok (values.setIfInBounds index value)
  else
    .error (.outside index values.size)

theorem getAt_eq {values : Array α} {index : Nat} (h : index < values.size) (absent : α) :
    getAt values index = .ok (values.getD index absent) := by
  rw [getAt, Array.getElem?_eq_getElem h, Array.getD_eq_getD_getElem?, Array.getElem?_eq_getElem h]
  rfl

theorem setAt_eq {values : Array α} {index : Nat} (h : index < values.size) (value : α) :
    setAt values index value = .ok (values.setIfInBounds index value) :=
  if_pos h

/-- A run that another one leads to. It has to lie behind that one, in the buffer or at its end. -/
def ahead (buffer : Buffer) (start next : Nat) : Except Stop Nat :=
  if start < next ∧ next ≤ buffer.size then .ok next else .error (.astray start next)

/-- Goes on from state to state until there is a result. -/
def loop (step : σ → Except Stop (σ ⊕ α)) : Nat → σ → Except Stop α
  | 0, _ => .error .unfinished
  | rounds + 1, state => do
      match ← step state with
      | .inl next => loop step rounds next
      | .inr result => pure result

/-- What a round may do in a state that should come to `value`: end the loop with it, or go on
to a state that comes to the same and has less room. -/
inductive Turn (holds : σ → Prop) (room : σ → Nat) (value : σ → Except Stop α) (state : σ) :
    Except Stop (σ ⊕ α) → Prop
  | stopped {stop : Stop} (eq : value state = .error stop) :
      Turn holds room value state (.error stop)
  | done {result : α} (eq : value state = .ok result) :
      Turn holds room value state (.ok (.inr result))
  | more {next : σ} (keeps : holds next) (less : room next < room state)
      (eq : value state = value next) : Turn holds room value state (.ok (.inl next))

theorem loop_eq {holds : σ → Prop} {room : σ → Nat} {value : σ → Except Stop α}
    {step : σ → Except Stop (σ ⊕ α)}
    (turn : ∀ state, holds state → Turn holds room value state (step state)) {rounds : Nat}
    {state : σ} (start : holds state) (enough : room state < rounds) :
    loop step rounds state = value state := by
  induction rounds generalizing state with
  | zero => exact absurd enough (Nat.not_lt_zero _)
  | succ rounds ih =>
      have hturn := turn state start
      rw [loop]
      generalize step state = outcome at hturn ⊢
      cases hturn with
      | stopped eq => exact eq.symm
      | done eq => exact eq.symm
      | more keeps less eq => exact (ih keeps (by omega)).trans eq.symm

/-! The links of a run. -/

/-- A byte of what stands at a position. -/
def byteOf (buffer : Buffer) (position index : Nat) : Except Stop UInt8 :=
  match buffer[index]? with
  | some byte => .ok byte
  | none => .error (.fault (.truncated position))

def offset (buffer : Buffer) (position : Nat) : Except Stop Offset := do
  let lead ← getAt buffer position
  let last := 0x80 ≤ lead.toNat
  let body := lead.toNat % 0x80
  if body < 0x40 then
    pure ⟨body, 1, last⟩
  else if body < 0x60 then
    let low ← byteOf buffer position (position + 1)
    pure ⟨(body - 0x40) * 0x100 + low.toNat, 2, last⟩
  else
    let middle ← byteOf buffer position (position + 1)
    let low ← byteOf buffer position (position + 2)
    pure ⟨(body - 0x60) * 0x10000 + middle.toNat * 0x100 + low.toNat, 3, last⟩

def link (buffer : Buffer) (position base : Nat) : Except Stop Link :=
  if buffer.size ≤ position then
    .error (.fault (.truncated position))
  else do
    let found ← offset buffer position
    let target := base + found.distance
    if target ≤ position then
      throw (.fault (.backwardLink position target))
    else if buffer.size ≤ target then
      throw (.fault (.outOfBounds position target))
    else
      pure ⟨position, target, found.width, found.last⟩

def next (buffer : Buffer) (cursor : Cursor) : Except Stop (Option (Link × Cursor)) :=
  match cursor.position with
  | none => .ok none
  | some position => do
      let found ← link buffer position cursor.base
      pure (some (found,
        ⟨if found.last then none else some (position + found.width), found.target⟩))

/-- Goes on to the next link of a run. -/
def passLink (buffer : Buffer) (visit : σ → Link → Except Stop σ) :
    σ × Cursor → Except Stop (σ × Cursor ⊕ σ)
  | (state, cursor) => do
      match ← next buffer cursor with
      | none => pure (.inr state)
      | some (link, after) =>
          let state ← visit state link
          pure (.inl (state, after))

def overRun (rounds : Nat) (buffer : Buffer) (visit : σ → Link → Except Stop σ) (start : Nat)
    (state : σ) : Except Stop σ :=
  loop (passLink buffer visit) rounds (state, .start start)

variable {buffer : Buffer}

theorem offset_eq {position : Nat} (h : position < buffer.size) :
    offset buffer position =
      match Offset.read? buffer position with
      | some offset => .ok offset
      | none => .error (.fault (.truncated position)) := by
  have hlead := Array.getElem?_eq_getElem h
  rw [offset, Offset.read?, getAt, hlead]
  simp only [Option.bind_eq_bind, Option.bind_some, byteOf]
  rw [ok_bind]
  split
  · rfl
  · split
    · cases buffer[position + 1]? <;> rfl
    · cases buffer[position + 1]? with
      | none => rfl
      | some middle => cases buffer[position + 2]? <;> rfl

/-- The first byte of a link is there whenever it is read. -/
theorem link_eq (buffer : Buffer) (position base : Nat) :
    link buffer position base = (Link.read buffer position base).mapError .fault := by
  rw [link, Link.read]
  split
  · rename_i hend
    have hnone : Offset.read? buffer position = none := by
      rw [Offset.read?, Array.getElem?_eq_none hend]
      rfl
    rw [hnone]
    rfl
  · rename_i hinside
    rw [offset_eq (Nat.lt_of_not_le hinside)]
    cases Offset.read? buffer position with
    | none => rfl
    | some found =>
        rw [ok_bind]
        simp only
        split
        · rfl
        · split <;> rfl

theorem passLink_of_read {position base : Nat} {link : Link}
    (read : Link.read buffer position base = .ok link) (visit : σ → Link → Except Stop σ)
    (state : σ) :
    passLink buffer visit (state, ⟨some position, base⟩) =
      visit state link >>= fun state => .ok (.inl (state,
        ⟨if link.last then none else some (position + link.width), link.target⟩)) := by
  simp only [passLink, next, link_eq, read]
  rfl

/-- What a run comes to behind its links. -/
def close (error : Option DecodeError) (state : σ) : Except Stop σ :=
  match error with
  | none => .ok state
  | some error => .error (.fault error)

theorem loop_passLink {visit : σ → Link → Except Stop σ} {position base rounds : Nat} {run : Run}
    (reads : Run.Reads buffer position base run) (enough : buffer.size + 1 - position < rounds)
    (state : σ) :
    loop (passLink buffer visit) rounds (state, ⟨some position, base⟩) =
      run.links.foldlM visit state >>= close run.error := by
  induction reads generalizing state rounds with
  | fault read =>
      obtain ⟨rounds, rfl⟩ := Nat.exists_eq_add_one_of_ne_zero (by omega : rounds ≠ 0)
      simp only [loop, passLink, next, link_eq, read]
      rfl
  | @last position base link read last =>
      obtain ⟨_, _, hfits, _⟩ := Link.read_bounds read
      -- One more round finds that the run has ended.
      obtain ⟨rounds, rfl⟩ : ∃ less, rounds = less + 2 := ⟨rounds - 2, by omega⟩
      rw [loop, passLink_of_read read, last, List.foldlM_cons]
      cases visit state link with
      | error stop => rfl
      | ok state => rfl
  | @more position base link links error read last behind ih =>
      obtain ⟨_, _, hfits, _⟩ := Link.read_bounds read
      obtain ⟨rounds, rfl⟩ := Nat.exists_eq_add_one_of_ne_zero (by omega : rounds ≠ 0)
      rw [loop, passLink_of_read read, last, List.foldlM_cons]
      cases visit state link with
      | error stop => rfl
      | ok state => exact ih (by omega) state

/-- A visit that reads the branch of its link and does with it what `step` says. -/
structure Visits (buffer : Buffer) (holds : σ → Prop) (visit : σ → Link → Except Stop σ)
    (step : σ → Branch → σ) (link : Link) : Prop where
  eq : ∀ state, holds state → visit state link =
    (Branch.read buffer link).mapError .fault >>= fun branch => .ok (step state branch)
  keeps : ∀ state, holds state → ∀ branch, Branch.read buffer link = .ok branch →
    holds (step state branch)

theorem foldlM_visit {holds : σ → Prop} {visit : σ → Link → Except Stop σ}
    {step : σ → Branch → σ} {links : List Link}
    (visits : ∀ link ∈ links, Visits buffer holds visit step link) {state : σ} (h : holds state) :
    links.foldlM visit state =
      (links.mapM (Branch.read buffer)).mapError .fault >>= fun found =>
        .ok (found.foldl step state) := by
  induction links generalizing state with
  | nil => rfl
  | cons link rest ih =>
      obtain ⟨hlink, hrest⟩ := List.forall_mem_cons.mp visits
      rw [List.foldlM_cons, List.mapM_cons, hlink.eq state h]
      cases hread : Branch.read buffer link with
      | error error => rfl
      | ok branch =>
          have hfold := ih hrest (hlink.keeps state h branch hread)
          change rest.foldlM visit (step state branch) = _
          rw [hfold]
          cases rest.mapM (Branch.read buffer) <;> rfl

theorem overRun_eq {holds : σ → Prop} {visit : σ → Link → Except Stop σ} {step : σ → Branch → σ}
    {start rounds : Nat}
    (visits : ∀ link ∈ (Run.read buffer start).links, Visits buffer holds visit step link)
    (enough : buffer.size + 1 < rounds) {state : σ} (h : holds state) :
    overRun rounds buffer visit start state =
      (branches buffer start).mapError .fault >>= fun found => .ok (found.foldl step state) := by
  have hloop : loop (passLink buffer visit) rounds (state, ⟨some start, start⟩) = _ :=
    loop_passLink (Run.reads_read buffer start) (by omega) state
  rw [overRun, Cursor.start, hloop, foldlM_visit visits h, branches]
  cases (Run.read buffer start).links.mapM (Branch.read buffer) with
  | error error => rfl
  | ok found => cases (Run.read buffer start).error <;> rfl

/-! The label behind a link. What is done with each of its bytes is left open. -/

def labelByteAt (buffer : Buffer) (position : Nat) : Except Stop LabelByte := do
  let byte ← byteOf buffer position position
  match LabelByte.ofByte byte with
  | .char letter =>
      if isPrintable letter then pure (.char letter)
      else throw (.fault (.unexpectedByte position byte))
  | .endChar letter =>
      if isPrintable letter then pure (.endChar letter)
      else throw (.fault (.unexpectedByte position byte))
  | .value v => pure (.value v)

def readOn (buffer : Buffer) (note : σ → Nat → LabelByte → Except Stop σ) :
    Nat × σ → Except Stop (Nat × σ ⊕ σ × Ending)
  | (position, state) => do
      let byte ← labelByteAt buffer position
      let state ← note state position byte
      match byte with
      | .char _ => pure (.inl (position + 1, state))
      | .endChar _ => pure (.inr (state, .links (position + 1)))
      | .value v => pure (.inr (state, .value v))

def readLabel (rounds : Nat) (buffer : Buffer) (note : σ → Nat → LabelByte → Except Stop σ)
    (position : Nat) (state : σ) : Except Stop (σ × Ending) :=
  loop (readOn buffer note) rounds (position, state)

def spell (letters : Word) (_ : Nat) : LabelByte → Word
  | .char letter => letter :: letters
  | .endChar letter => letter :: letters
  | .value _ => letters

def label (rounds : Nat) (buffer : Buffer) (position : Nat) : Except Stop Label := do
  let (letters, ending) ←
    readLabel rounds buffer (fun letters position byte => .ok (spell letters position byte))
      position []
  pure ⟨letters.reverse, ending⟩

/-- A state when the bytes from a position on have been noted in it. -/
def noted (buffer : Buffer) (step : σ → Nat → LabelByte → σ) (position width : Nat) (state : σ) :
    σ :=
  (List.range' position width).foldl
    (fun state position => step state position (.ofByte (buffer.getD position 0))) state

theorem noted_succ {position : Nat} {byte : UInt8} (h : buffer[position]? = some byte)
    (step : σ → Nat → LabelByte → σ) (width : Nat) (state : σ) :
    noted buffer step position (width + 1) state =
      noted buffer step (position + 1) width (step state position (.ofByte byte)) := by
  rw [noted, List.range'_succ, List.foldl_cons, Array.getD_eq_getD_getElem?, h]
  rfl

theorem labelByteAt_eq_ok {position : Nat} {shown : LabelByte}
    (h : labelByteAt buffer position = .ok shown) :
    ∃ byte, buffer[position]? = some byte ∧ LabelByte.ofByte byte = shown := by
  rw [labelByteAt, byteOf] at h
  cases hbyte : buffer[position]? with
  | none =>
      rw [hbyte] at h
      cases h
  | some byte =>
      simp only [hbyte, ok_bind] at h
      refine ⟨byte, rfl, ?_⟩
      cases hshown : LabelByte.ofByte byte with
      | char letter =>
          simp only [hshown] at h
          split at h <;> cases h
          rfl
      | endChar letter =>
          simp only [hshown] at h
          split at h <;> cases h
          rfl
      | value v =>
          simp only [hshown] at h
          cases h
          rfl

theorem read_eq_bind (buffer : Buffer) (position : Nat) :
    (Label.read buffer position).mapError Stop.fault =
      labelByteAt buffer position >>= fun byte =>
        match byte with
        | .char letter => ((Label.read buffer (position + 1)).mapError Stop.fault).map fun label =>
            ⟨letter :: label.letters, label.ending⟩
        | .endChar letter => .ok ⟨[letter], .links (position + 1)⟩
        | .value v => .ok ⟨[], .value v⟩ := by
  rw [labelByteAt, byteOf]
  cases hbyte : buffer[position]? with
  | none =>
      rw [Label.read_of_none hbyte]
      rfl
  | some byte =>
      rw [Label.read_eq hbyte, ok_bind]
      cases LabelByte.ofByte byte with
      | char letter =>
          simp only
          split
          · cases Label.read buffer (position + 1) <;> rfl
          · rfl
      | endChar letter =>
          simp only
          split <;> rfl
      | value v => rfl

/-- A note that is always taken. -/
structure Notes (buffer : Buffer) (holds : σ → Prop) (note : σ → Nat → LabelByte → Except Stop σ)
    (step : σ → Nat → LabelByte → σ) : Prop where
  eq : ∀ state position byte, holds state → position < buffer.size →
    note state position byte = .ok (step state position byte)
  keeps : ∀ state position byte, holds state → holds (step state position byte)

namespace Notes

variable {holds : σ → Prop} {note : σ → Nat → LabelByte → Except Stop σ}
variable {step : σ → Nat → LabelByte → σ}

theorem turn (notes : Notes buffer holds note step) (state : Nat × σ) (h : holds state.2) :
    Turn (fun state => holds state.2) (fun state => buffer.size - state.1)
      (fun state => (Label.read buffer state.1).mapError Stop.fault >>= fun label =>
        .ok (noted buffer step state.1 label.width state.2, label.ending))
      state (readOn buffer note state) := by
  obtain ⟨position, state⟩ := state
  have h : holds state := h
  have hread := read_eq_bind buffer position
  rw [readOn]
  cases hbyte : labelByteAt buffer position with
  | error stop =>
      rw [hbyte] at hread
      exact .stopped (by simp only [hread]; rfl)
  | ok shown =>
      obtain ⟨byte, hat, rfl⟩ := labelByteAt_eq_ok hbyte
      obtain ⟨hlt, _⟩ := Array.getElem?_eq_some_iff.mp hat
      have hnoted := noted_succ hat step
      rw [hbyte, ok_bind] at hread
      rw [ok_bind, notes.eq state position _ h hlt, ok_bind]
      cases hshown : LabelByte.ofByte byte with
      | char letter =>
          rw [hshown] at hread hnoted
          refine .more (notes.keeps state position _ h) (by simp only; omega) ?_
          simp only [hread]
          cases Label.read buffer (position + 1) with
          | error error => rfl
          | ok label =>
              change Except.ok (noted _ _ _ (Label.width ⟨letter :: _, _⟩) _, _) = _
              rw [Label.width_cons, hnoted]
              rfl
      | endChar letter =>
          rw [hshown] at hread hnoted
          refine .done ?_
          simp only [hread]
          exact congrArg (fun state => Except.ok (state, _)) (hnoted 0 state)
      | value v =>
          rw [hshown] at hread hnoted
          refine .done ?_
          simp only [hread]
          exact congrArg (fun state => Except.ok (state, _)) (hnoted 0 state)

theorem readLabel_eq (notes : Notes buffer holds note step) {rounds position : Nat} {state : σ}
    (h : holds state) (enough : buffer.size < rounds) :
    readLabel rounds buffer note position state =
      (Label.read buffer position).mapError .fault >>= fun label =>
        .ok (noted buffer step position label.width state, label.ending) := by
  rw [readLabel]
  exact loop_eq notes.turn h (by simp only; omega)

end Notes

theorem noted_spell {position : Nat} {letters : Word} {ending : Ending}
    (h : Spells buffer position letters ending) (before : Word) :
    noted buffer spell position (Label.width ⟨letters, ending⟩) before =
      letters.reverse ++ before := by
  induction h generalizing before with
  | value found byte_eq =>
      refine (noted_succ found _ _ _).trans ?_
      rw [byte_eq]
      rfl
  | endChar found byte_eq =>
      refine (noted_succ found _ _ _).trans ?_
      rw [byte_eq]
      rfl
  | char found byte_eq _ _ ih =>
      rw [Label.width_cons, noted_succ found, byte_eq, spell, ih]
      simp

theorem label_eq {position rounds : Nat} (enough : buffer.size < rounds) :
    label rounds buffer position = (Label.read buffer position).mapError .fault := by
  have notes : Notes buffer (fun _ => True)
      (fun letters position byte => .ok (spell letters position byte)) spell :=
    ⟨fun _ _ _ _ _ => rfl, fun _ _ _ _ => trivial⟩
  rw [label, notes.readLabel_eq trivial enough]
  cases hread : Label.read buffer position with
  | error error => rfl
  | ok label =>
      have hspell := noted_spell (Label.read_eq_ok_iff.mp hread) []
      change Except.ok (Label.mk (noted buffer spell position label.width []).reverse _) = _
      change noted buffer spell position label.width [] = _ at hspell
      rw [hspell, List.append_nil, List.reverse_reverse]
      rfl

end Guarded

end Lexicon.Packed
