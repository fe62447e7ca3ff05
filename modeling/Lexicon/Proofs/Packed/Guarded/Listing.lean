import Lexicon.Proofs.Packed.Guarded.Walk
import Lexicon.Proofs.Packed.Walk

namespace Lexicon.Packed

variable {buffer : Buffer}

theorem link_fits {start : Nat} {link : Link} (h : link ∈ (Run.read buffer start).links) :
    0 < link.width ∧ link.position + link.width ≤ buffer.size := by
  obtain ⟨stop, htiles, hstop⟩ := (Run.reads_read buffer start).exists_tiles
  obtain ⟨_, hwidth, hle⟩ := htiles.bounds link h
  have hstop := hstop (List.ne_nil_of_mem h)
  exact ⟨hwidth, by omega⟩

theorem sound_of_read {start : Nat} {link : Link} {branch : Branch}
    (hlink : link ∈ (Run.read buffer start).links) (read : Branch.read buffer link = .ok branch) :
    branch.Sound buffer := by
  obtain ⟨rfl, isRead⟩ := Branch.read_eq_ok_iff.mp read
  obtain ⟨width, fits⟩ := link_fits hlink
  exact ⟨isRead, width, fits⟩

namespace Listing

variable {listing shown : Listing}

/-! What waits below is left alone, and the arrays keep their sizes. -/

theorem note_append (state : Listing × List Nat) (branch : Branch) (rest : List Nat) :
    note buffer (state.1, state.2 ++ rest) branch =
      ((note buffer state branch).1, (note buffer state branch).2 ++ rest) := by
  unfold note
  simp only
  split
  · rfl
  · rw [List.append_assoc]

theorem foldl_note_append (found : List Branch) (state : Listing × List Nat) (rest : List Nat) :
    found.foldl (note buffer) (state.1, state.2 ++ rest) =
      ((found.foldl (note buffer) state).1, (found.foldl (note buffer) state).2 ++ rest) := by
  induction found generalizing state with
  | nil => rfl
  | cons branch others ih => rw [List.foldl_cons, note_append, ih, List.foldl_cons]

theorem starts_markLink (listing : Listing) (link : Link) :
    (listing.markLink link).starts = listing.starts :=
  starts_foldl_mark _ _ fun _ => .payload

theorem starts_markLabel (listing : Listing) (target : Nat) (label : Label) :
    (listing.markLabel buffer target label).starts = listing.starts :=
  starts_foldl_mark _ _ fun position => .label (.ofByte (buffer.getD position 0))

theorem size_starts_note (state : Listing × List Nat) (branch : Branch) :
    (note buffer state branch).1.starts.size = state.1.starts.size := by
  unfold note
  simp only
  split
  · rw [starts_markLink]
  · rw [starts_markLabel]
    exact Array.size_setIfInBounds.trans (congrArg Array.size (starts_markLink _ _))

theorem size_starts_foldl_note (found : List Branch) (state : Listing × List Nat) :
    (found.foldl (note buffer) state).1.starts.size = state.1.starts.size := by
  induction found generalizing state with
  | nil => rfl
  | cons branch rest ih => exact (ih _).trans (size_starts_note state branch)

theorem size_starts_fill {waiting : List Nat} (h : fill buffer waiting listing = .ok shown) :
    shown.starts.size = listing.starts.size := by
  fun_induction fill buffer waiting listing with
  | case1 =>
      cases h
      rfl
  | case2 _ _ _ _ _ ih => exact ih h
  | case3 => cases h
  | case4 listing start rest _ found _ noted starts hnote _ ih =>
      have hsize := @size_starts_foldl_note buffer found (listing, [])
      rw [hnote] at hsize
      exact (ih h).trans hsize

theorem fill_of_error {start : Nat} (unmarked : ¬ listing.Marked start) {error : DecodeError}
    (unread : branches buffer start = .error error) (rest : List Nat) :
    fill buffer (start :: rest) listing = .error error := by
  rw [Marked] at unmarked
  rw [fill, if_neg unmarked]
  split <;> simp_all

end Listing

namespace Guarded

open Listing (note)

variable {shown : Listing} {rounds : Nat}

/-! The walk that fills a listing. -/

def markAt (listing : Listing) (position : Nat) (mark : Mark) : Except Stop Listing := do
  let marks ← setAt listing.marks position (some mark)
  pure { listing with marks }

def noteOf (rounds : Nat) (buffer : Buffer) (start : Nat) (state : Listing × List Nat)
    (link : Link) : Except Stop (Listing × List Nat) := do
  let listing ← markAt state.1 link.position (.link link)
  let listing ← (List.range' (link.position + 1) (link.width - 1)).foldlM
    (fun listing position => markAt listing position .payload) listing
  let seen ← getAt listing.starts link.target
  let starts ← setAt listing.starts link.target true
  if seen then
    pure ({ listing with starts }, state.2)
  else
    let (listing, ending) ← readLabel rounds buffer
      (fun listing position byte => markAt listing position (.label byte)) link.target
      { listing with starts }
    match ending with
    | .links next =>
        let next ← ahead buffer start next
        pure (listing, next :: state.2)
    | .value _ => pure (listing, state.2)

def noteRun (rounds : Nat) (buffer : Buffer) :
    Listing × List Nat → Except Stop (Listing × List Nat ⊕ Listing)
  | (listing, []) => .ok (.inr listing)
  | (listing, start :: rest) =>
      if (listing.mark? start).isSome then
        pure (.inl (listing, rest))
      else do
        let state ← overRun rounds buffer (noteOf rounds buffer start) start (listing, rest)
        pure (.inl state)

def lineOf (column : Nat) (listing : Listing) : UInt8 × Nat → Except Stop String
  | (byte, position) => do
      let isStart ← getAt listing.starts position
      pure ((if isStart then "\n" else "") ++
        Listing.line column position byte (listing.mark? position))

def listing (rounds : Nat) (buffer : Buffer) : Except Stop String :=
  if buffer.isEmpty then
    .error (.fault .empty)
  else do
    let shown ← loop (noteRun rounds buffer) rounds (.blank buffer.size, [0])
    let column := (toString (buffer.size - 1)).length
    let lines ← buffer.toList.zipIdx.mapM (lineOf column shown)
    pure (String.join lines)

theorem markAt_eq (sized : shown.Sized buffer) {position : Nat} (h : position < buffer.size)
    (mark : Mark) : markAt shown position mark = .ok (shown.mark position mark) := by
  rw [markAt, setAt_eq (sized.marks.symm ▸ h)]
  rfl

theorem foldlM_markAt (sized : shown.Sized buffer) {positions : List Nat}
    (h : ∀ position ∈ positions, position < buffer.size) (mark : Mark) :
    positions.foldlM (fun listing position => markAt listing position mark) shown =
      .ok (positions.foldl (fun listing position => listing.mark position mark) shown) := by
  induction positions generalizing shown with
  | nil => rfl
  | cons first rest ih =>
      obtain ⟨hfirst, hrest⟩ := List.forall_mem_cons.mp h
      rw [List.foldlM_cons, markAt_eq sized hfirst, ok_bind, ih (sized.mark first mark) hrest]
      rfl

theorem notes_markAt (buffer : Buffer) :
    Notes buffer (Listing.Sized buffer)
      (fun listing position byte => markAt listing position (.label byte))
      fun listing position byte => listing.mark position (.label byte) :=
  ⟨fun _ _ _ sized h => markAt_eq sized h _, fun _ _ _ sized => sized.mark _ _⟩

/-- A label that was met before has been read. -/
structure Backed (buffer : Buffer) (listing : Listing) : Prop extends listing.Kept buffer where
  readable : ∀ target, listing.isStart target → ∃ label, Label.read buffer target = .ok label

/-- The bytes of a link and its target have their places. -/
theorem noteOf_eq (sized : shown.Sized buffer) (start : Nat) (waiting : List Nat) {link : Link}
    (hwidth : 0 < link.width) (hfits : link.position + link.width ≤ buffer.size)
    (hinside : link.target < buffer.size) :
    noteOf rounds buffer start (shown, waiting) link =
      if (shown.markLink link).isStart link.target then
        .ok ((shown.markLink link).markStart link.target, waiting)
      else
        readLabel rounds buffer (fun listing position byte => markAt listing position (.label byte))
          link.target ((shown.markLink link).markStart link.target) >>= fun (listing, ending) =>
            match ending with
            | .links next => ahead buffer start next >>= fun next => .ok (listing, next :: waiting)
            | .value _ => .ok (listing, waiting) := by
  have hlt : ∀ position ∈ List.range' (link.position + 1) (link.width - 1),
      position < buffer.size := by
    intro position hposition
    rw [List.mem_range'_1] at hposition
    omega
  have htarget : link.target < (shown.markLink link).starts.size :=
    (sized.markLink hwidth hfits).1.starts.symm ▸ hinside
  rw [noteOf, markAt_eq sized (by omega), ok_bind, foldlM_markAt (sized.mark _ _) hlt, ok_bind]
  change (getAt (shown.markLink link).starts link.target >>= _) = _
  rw [getAt_eq htarget false, ok_bind]
  change (setAt (shown.markLink link).starts link.target true >>= _) = _
  rw [setAt_eq htarget, ok_bind]
  rfl

theorem markStart_of_isStart {position : Nat} (h : shown.isStart position) :
    shown.markStart position = shown := by
  rw [Listing.markStart, setIfInBounds_of_getD h]

theorem Backed.note (backed : Backed buffer shown) {branch : Branch} (sound : branch.Sound buffer)
    (waiting : List Nat) : Backed buffer (Listing.note buffer (shown, waiting) branch).1 := by
  obtain ⟨hkept, _, hstarts⟩ := backed.toKept.note sound waiting
  refine ⟨hkept, fun target htarget => ?_⟩
  rcases (hstarts target).mp htarget with hold | rfl
  · exact backed.readable target hold
  · exact ⟨branch.label, Label.read_eq_ok_iff.mpr sound.isRead⟩

theorem Backed.foldl_note {found : List Branch} {state : Listing × List Nat}
    (backed : Backed buffer state.1) (sound : ∀ branch ∈ found, branch.Sound buffer) :
    Backed buffer (found.foldl (Listing.note buffer) state).1 := by
  induction found generalizing state with
  | nil => exact backed
  | cons branch rest ih =>
      obtain ⟨hbranch, hrest⟩ := List.forall_mem_cons.mp sound
      exact ih (backed.note hbranch state.2) hrest

theorem visits_noteOf (enough : buffer.size < rounds) {start : Nat} {link : Link}
    (hlink : link ∈ (Run.read buffer start).links) :
    Visits buffer (fun state => Backed buffer state.1) (noteOf rounds buffer start) (note buffer)
      link := by
  obtain ⟨hwidth, hfits⟩ := link_fits hlink
  obtain ⟨_, _, hinside⟩ := Run.mem_read hlink
  refine ⟨fun state backed => ?_, fun state backed branch hread =>
    backed.note (sound_of_read hlink hread) state.2⟩
  obtain ⟨shown, waiting⟩ := state
  have sized : shown.Sized buffer := backed.toSized
  rw [noteOf_eq sized start waiting hwidth hfits hinside, Branch.read]
  by_cases hseen : (shown.markLink link).isStart link.target
  · -- The label is not read here, but it could be, so that no fault is passed over.
    have hstart := hseen
    rw [Listing.isStart_markLink] at hstart
    obtain ⟨label, hlabel⟩ := backed.readable link.target hstart
    rw [if_pos hseen, hlabel, markStart_of_isStart hseen]
    exact congrArg Except.ok (if_pos hseen).symm
  · have hsized := (sized.markLink hwidth hfits).1.markStart link.target
    rw [if_neg hseen, (notes_markAt buffer).readLabel_eq hsized enough]
    cases hlabel : Label.read buffer link.target with
    | error error => rfl
    | ok label =>
        obtain ⟨letters, ending⟩ := label
        refine Eq.trans ?_ (congrArg Except.ok (if_neg hseen).symm)
        cases ending with
        | links next =>
            change (ahead buffer start next >>= _) = _
            rw [ahead_eq hlink hlabel rfl]
            rfl
        | value v => rfl

theorem overRun_noteOf (enough : buffer.size + 1 < rounds) (start : Nat) (rest : List Nat)
    (backed : Backed buffer shown) :
    overRun rounds buffer (noteOf rounds buffer start) start (shown, rest) =
      (branches buffer start).mapError .fault >>= fun found =>
        .ok ((found.foldl (note buffer) (shown, [])).1,
          (found.foldl (note buffer) (shown, [])).2 ++ rest) := by
  have hvisits := fun link => @visits_noteOf buffer rounds (by omega) start link
  have hnoted := fun found => @Listing.foldl_note_append buffer found (shown, []) rest
  simp only [List.nil_append] at hnoted
  rw [overRun_eq hvisits enough backed]
  simp only [hnoted]

theorem turn_noteRun (enough : buffer.size + 1 < rounds) (state : Listing × List Nat)
    (backed : Backed buffer state.1) :
    Turn (fun state => Backed buffer state.1) (fun state => weight buffer state.2)
      (fun state => (Listing.fill buffer state.2 state.1).mapError .fault) state
      (noteRun rounds buffer state) := by
  obtain ⟨shown, waiting⟩ := state
  match waiting with
  | [] => exact .done (by simp only [Listing.fill]; rfl)
  | start :: rest =>
      rw [noteRun]
      by_cases hmarked : (shown.mark? start).isSome
      · have hvalue := @Listing.fill_skip buffer _ _ hmarked rest
        rw [if_pos hmarked]
        exact .more backed (weight_rest_lt buffer start rest)
          (congrArg (Except.mapError Stop.fault) hvalue)
      · rw [if_neg hmarked, overRun_noteOf enough start rest backed]
        cases hread : branches buffer start with
        | error error =>
            have hvalue := Listing.fill_of_error hmarked hread rest
            exact .stopped (congrArg (Except.mapError Stop.fault) hvalue)
        | ok found =>
            have hvalue := Listing.fill_visit hmarked hread rest
            exact .more (Backed.foldl_note backed fun _ => sound_of_mem hread)
              (Listing.weight_note_lt hread rfl rest)
              (congrArg (Except.mapError Stop.fault) hvalue)

theorem lineOf_eq (column : Nat) {byte : UInt8} {position : Nat} (h : position < shown.starts.size) :
    lineOf column shown (byte, position) =
      .ok ((if shown.isStart position then "\n" else "") ++
        Listing.line column position byte (shown.mark? position)) := by
  rw [lineOf, getAt_eq h false]
  rfl

theorem mapM_lineOf (column : Nat) {bytes : List (UInt8 × Nat)}
    (h : ∀ place ∈ bytes, place.2 < shown.starts.size) :
    bytes.mapM (lineOf column shown) =
      .ok (bytes.map fun (byte, position) =>
        (if shown.isStart position then "\n" else "") ++
          Listing.line column position byte (shown.mark? position)) := by
  induction bytes with
  | nil => rfl
  | cons place rest ih =>
      obtain ⟨hplace, hrest⟩ := List.forall_mem_cons.mp h
      rw [List.mapM_cons, lineOf_eq column hplace, ih hrest]
      rfl

theorem backed_blank (buffer : Buffer) : Backed buffer (.blank buffer.size) :=
  { Listing.kept_blank buffer with
    readable := fun _ hstart => absurd hstart (Listing.isStart_blank _ _) }

theorem listing_eq (enough : buffer.size + 1 < rounds) (heavy : weight buffer [0] < rounds) :
    listing rounds buffer = (Packed.listing buffer).mapError .fault := by
  rw [listing, Packed.listing, Listing.ofBuffer]
  split
  · rfl
  · have backed := backed_blank buffer
    have hloop : loop (noteRun rounds buffer) rounds (.blank buffer.size, [0]) = _ :=
      loop_eq (turn_noteRun enough) backed heavy
    rw [hloop]
    simp only
    cases hfill : Listing.fill buffer [0] (.blank buffer.size) with
    | error error => rfl
    | ok shown =>
        have hsize := (Listing.size_starts_fill hfill).trans backed.starts
        have hlines : ∀ place ∈ buffer.toList.zipIdx, place.2 < shown.starts.size := by
          intro place hplace
          have hlt := (List.mem_zipIdx' hplace).1
          rw [hsize]
          simpa using hlt
        change (buffer.toList.zipIdx.mapM (lineOf _ shown) >>= _) = _
        rw [mapM_lineOf _ hlines]
        rfl

end Guarded

end Lexicon.Packed
