import Lexicon.Proofs.Packed.Guarded.Reading
import Lexicon.Proofs.Packed.Links

namespace Lexicon.Packed

variable {buffer : Buffer}

/-! One run of each walk. -/

theorem collectEntries_of_error {start : Nat} {error : DecodeError}
    (unread : branches buffer start = .error error) (trail : Word) (rest : List (Nat × Word))
    (before : List Entry) :
    collectEntries buffer ((start, trail) :: rest) before = .error error := by
  rw [collectEntries]
  split <;> simp_all

theorem collectLinks_of_visited {visited : Array Bool} {start : Nat}
    (seen : visited.getD start false) (rest : List Nat) (before : List Link) :
    collectLinks buffer (start :: rest) visited before = collectLinks buffer rest visited before := by
  rw [collectLinks, if_pos seen]

theorem collectLinks_of_new {visited : Array Bool} {start : Nat}
    (new : ¬ visited.getD start false) (rest : List Nat) (before : List Link) :
    collectLinks buffer (start :: rest) visited before =
      branches buffer start >>= fun found =>
        collectLinks buffer (nextStarts found ++ rest) (visited.setIfInBounds start true)
          ((found.map Branch.link).reverse ++ before) := by
  rw [collectLinks, if_neg new]
  split
  · rename_i error herror
    rw [herror]
    rfl
  · rename_i found hfound
    simp only [hfound]
    rfl

theorem setIfInBounds_of_getD {visited : Array Bool} {start : Nat}
    (seen : visited.getD start false) : visited.setIfInBounds start true = visited := by
  rw [Array.getD_eq_getD_getElem?] at seen
  cases hvisited : visited[start]? with
  | none =>
      rw [hvisited] at seen
      cases seen
  | some found =>
      obtain ⟨hlt, hfound⟩ := Array.getElem?_eq_some_iff.mp hvisited
      rw [hvisited] at seen
      have hseen : found = true := seen
      rw [Array.setIfInBounds_def, dif_pos hlt, ← hseen, ← hfound, Array.set_getElem_self]

namespace Guarded

/-! The walks that list all entries and all links. What waits grows while it is taken from; its
weight falls with every run that is visited. -/

variable {rounds : Nat} {α β : Type}

theorem ahead_eq {start next : Nat} {link : Link} {label : Label}
    (hlink : link ∈ (Run.read buffer start).links)
    (hread : Label.read buffer link.target = .ok label) (hnext : label.ending = .links next) :
    ahead buffer start next = .ok next := by
  obtain ⟨hstart, hforward, _⟩ := Run.mem_read hlink
  obtain ⟨hlt, hle⟩ := Label.readFrom_start hread hnext
  exact if_pos ⟨by omega, hle⟩

/-- Puts what a branch leads to on what waits, and what it shows on what was found. -/
def push (waits : Branch → Option α) (shows : Branch → Option β) (state : List α × List β)
    (branch : Branch) : List α × List β :=
  ((waits branch).toList ++ state.1, (shows branch).toList ++ state.2)

theorem foldl_push (waits : Branch → Option α) (shows : Branch → Option β) (found : List Branch)
    (state : List α × List β) :
    found.foldl (push waits shows) state =
      ((found.filterMap waits).reverse ++ state.1, (found.filterMap shows).reverse ++ state.2) := by
  induction found generalizing state with
  | nil => rfl
  | cons branch rest ih =>
      rw [List.foldl_cons, ih]
      cases hwaits : waits branch <;> cases hshows : shows branch <;> simp [push, hwaits, hshows]

theorem visits_of_label {σ : Type} (enough : buffer.size < rounds) {link : Link}
    {visit : σ → Link → Except Stop σ} {put : σ → Label → Except Stop σ} {step : σ → Branch → σ}
    (visit_eq : ∀ state, visit state link = label rounds buffer link.target >>= put state)
    (put_eq : ∀ state label, Label.read buffer link.target = .ok label →
      put state label = .ok (step state ⟨link, label⟩)) :
    Visits buffer (fun _ => True) visit step link := by
  refine ⟨fun state _ => ?_, fun _ _ _ _ => trivial⟩
  rw [visit_eq, label_eq enough, Branch.read]
  cases hread : Label.read buffer link.target with
  | error error => rfl
  | ok label => exact put_eq state label hread

def entryOf (rounds : Nat) (buffer : Buffer) (start : Nat) (trail : Word)
    (state : List (Nat × Word) × List Entry) (link : Link) :
    Except Stop (List (Nat × Word) × List Entry) := do
  let label ← label rounds buffer link.target
  let letters := label.letters.reverseAux trail
  match label.ending with
  | .links next =>
      let next ← ahead buffer start next
      pure ((next, letters) :: state.1, state.2)
  | .value v => pure (state.1, ⟨letters.reverse, v⟩ :: state.2)

def entryRun (rounds : Nat) (buffer : Buffer) :
    List (Nat × Word) × List Entry →
      Except Stop (List (Nat × Word) × List Entry ⊕ List Entry)
  | ([], found) => .ok (.inr found)
  | ((start, trail) :: rest, found) => do
      let state ← overRun rounds buffer (entryOf rounds buffer start trail) start (rest, found)
      pure (.inl state)

def entries (rounds : Nat) (buffer : Buffer) : Except Stop (List Entry) :=
  if buffer.isEmpty then
    .error (.fault .empty)
  else do
    let found ← loop (entryRun rounds buffer) rounds ([(0, [])], [])
    pure (Entry.sort found)

theorem visits_entryOf (enough : buffer.size < rounds) (trail : Word) {start : Nat} {link : Link}
    (hlink : link ∈ (Run.read buffer start).links) :
    Visits buffer (fun _ => True) (entryOf rounds buffer start trail)
      (push (Branch.next? trail) (Branch.entry? trail)) link := by
  refine visits_of_label enough (fun _ => rfl) fun state label hread => ?_
  obtain ⟨letters, ending⟩ := label
  cases ending with
  | links next =>
      simp only [ahead_eq hlink hread rfl]
      rfl
  | value v => rfl

theorem overRun_entryOf (enough : buffer.size + 1 < rounds) (trail : Word) (start : Nat)
    (state : List (Nat × Word) × List Entry) :
    overRun rounds buffer (entryOf rounds buffer start trail) start state =
      (branches buffer start).mapError .fault >>= fun found =>
        .ok (nextTrails trail found ++ state.1,
          (found.filterMap (Branch.entry? trail)).reverse ++ state.2) := by
  have hvisits := fun link => @visits_entryOf buffer rounds (by omega) trail start link
  rw [overRun_eq hvisits enough trivial]
  simp only [foldl_push]
  rfl

theorem turn_entryRun (enough : buffer.size + 1 < rounds)
    (state : List (Nat × Word) × List Entry) :
    Turn (fun _ => True) (fun state => weight buffer (state.1.map Prod.fst))
      (fun state => (collectEntries buffer state.1 state.2).mapError .fault) state
      (entryRun rounds buffer state) := by
  obtain ⟨waiting, found⟩ := state
  match waiting with
  | [] => exact .done (by simp only [collectEntries]; rfl)
  | (start, trail) :: rest =>
      rw [entryRun, overRun_entryOf enough]
      cases hread : branches buffer start with
      | error error =>
          have hvalue := collectEntries_of_error hread trail rest found
          exact .stopped (congrArg (Except.mapError Stop.fault) hvalue)
      | ok branches =>
          have hvalue := collectEntries_cons hread trail rest found
          refine .more trivial ?_ (congrArg (Except.mapError Stop.fault) hvalue)
          simpa using weight_nextTrails_lt hread trail rest

theorem entries_eq (enough : buffer.size + 1 < rounds) (heavy : weight buffer [0] < rounds) :
    entries rounds buffer = (Packed.entries buffer).mapError .fault := by
  rw [entries, Packed.entries]
  split
  · rfl
  · have hloop : loop (entryRun rounds buffer) rounds ([(0, [])], []) = _ :=
      loop_eq (fun state _ => turn_entryRun enough state) trivial heavy
    rw [hloop]
    cases collectEntries buffer [(0, [])] [] <;> rfl

def linkOf (rounds : Nat) (buffer : Buffer) (start : Nat) (state : List Nat × List Link)
    (link : Link) : Except Stop (List Nat × List Link) := do
  let label ← label rounds buffer link.target
  match label.ending with
  | .links next =>
      let next ← ahead buffer start next
      pure (next :: state.1, link :: state.2)
  | .value _ => pure (state.1, link :: state.2)

def linkRun (rounds : Nat) (buffer : Buffer) :
    List Nat × Array Bool × List Link →
      Except Stop (List Nat × Array Bool × List Link ⊕ List Link)
  | ([], _, found) => .ok (.inr found)
  | (start :: rest, visited, found) => do
      let seen ← getAt visited start
      let visited ← setAt visited start true
      if seen then
        pure (.inl (rest, visited, found))
      else
        let (waiting, found) ←
          overRun rounds buffer (linkOf rounds buffer start) start (rest, found)
        pure (.inl (waiting, visited, found))

def links (rounds : Nat) (buffer : Buffer) : Except Stop (List Link) :=
  if buffer.isEmpty then
    .error (.fault .empty)
  else do
    let found ← loop (linkRun rounds buffer) rounds
      ([0], Array.replicate (buffer.size + 1) false, [])
    pure (found.reverse.mergeSort fun left right => left.position ≤ right.position)

theorem visits_linkOf (enough : buffer.size < rounds) {start : Nat} {link : Link}
    (hlink : link ∈ (Run.read buffer start).links) :
    Visits buffer (fun _ => True) (linkOf rounds buffer start)
      (push Branch.start? (some ∘ Branch.link)) link := by
  refine visits_of_label enough (fun _ => rfl) fun state label hread => ?_
  obtain ⟨letters, ending⟩ := label
  cases ending with
  | links next =>
      simp only [ahead_eq hlink hread rfl]
      rfl
  | value v => rfl

theorem overRun_linkOf (enough : buffer.size + 1 < rounds) (start : Nat)
    (state : List Nat × List Link) :
    overRun rounds buffer (linkOf rounds buffer start) start state =
      (branches buffer start).mapError .fault >>= fun found =>
        .ok (nextStarts found ++ state.1, (found.map Branch.link).reverse ++ state.2) := by
  have hvisits := fun link => @visits_linkOf buffer rounds (by omega) start link
  rw [overRun_eq hvisits enough trivial]
  simp only [foldl_push, List.filterMap_eq_map]
  rfl

/-- Each run that waits has its place among the visited ones. -/
structure Fits (buffer : Buffer) (state : List Nat × Array Bool × List Link) : Prop where
  size : state.2.1.size = buffer.size + 1
  waiting : ∀ start ∈ state.1, start ≤ buffer.size

theorem turn_linkRun (enough : buffer.size + 1 < rounds)
    (state : List Nat × Array Bool × List Link) (fits : Fits buffer state) :
    Turn (Fits buffer) (fun state => weight buffer state.1)
      (fun state => (collectLinks buffer state.1 state.2.1 state.2.2).mapError .fault) state
      (linkRun rounds buffer state) := by
  obtain ⟨waiting, visited, found⟩ := state
  match waiting with
  | [] => exact .done (by simp only [collectLinks]; rfl)
  | start :: rest =>
      obtain ⟨hstart, hrest⟩ := List.forall_mem_cons.mp fits.waiting
      have hsize : visited.size = buffer.size + 1 := fits.size
      have hlt : start < visited.size := by omega
      rw [linkRun, getAt_eq hlt false, setAt_eq hlt, ok_bind, ok_bind]
      by_cases seen : visited.getD start false
      · have hvalue := @collectLinks_of_visited buffer _ _ seen rest found
        -- The run is marked once more, which leaves the marks as they were.
        rw [if_pos seen, setIfInBounds_of_getD seen]
        exact .more ⟨hsize, hrest⟩ (weight_rest_lt buffer start rest)
          (congrArg (Except.mapError Stop.fault) hvalue)
      · have hvalue := @collectLinks_of_new buffer _ _ seen rest found
        rw [if_neg seen, overRun_linkOf enough]
        cases hread : branches buffer start with
        | error error =>
            rw [hread] at hvalue
            exact .stopped (congrArg (Except.mapError Stop.fault) hvalue)
        | ok branches =>
            rw [hread] at hvalue
            refine .more ⟨?_, ?_⟩ (weight_nextStarts_lt hread rest)
              (congrArg (Except.mapError Stop.fault) hvalue)
            · exact Array.size_setIfInBounds.trans hsize
            · intro other hother
              rcases List.mem_append.mp hother with hnext | hother
              · exact (nextStarts_bounds hread hnext).2
              · exact hrest other hother

theorem links_eq (enough : buffer.size + 1 < rounds) (heavy : weight buffer [0] < rounds) :
    links rounds buffer = (Packed.links buffer).mapError .fault := by
  rw [links, Packed.links]
  split
  · rfl
  · have fits : Fits buffer ([0], Array.replicate (buffer.size + 1) false, []) :=
      ⟨Array.size_replicate, by simp⟩
    rw [loop_eq (turn_linkRun enough) fits heavy]
    cases collectLinks buffer [0] (Array.replicate (buffer.size + 1) false) [] <;> rfl

end Guarded

end Lexicon.Packed
