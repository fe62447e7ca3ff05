import Lexicon.Packed.Sizing
import Lexicon.Proofs.Packed.Tiles

namespace Lexicon

/-- A step that another error is told of succeeds with what it did before. -/
theorem mapError_eq_ok_iff {ε η α : Type} {wrap : ε → η} {action : Except ε α} {result : α} :
    action.mapError wrap = .ok result ↔ action = .ok result := by
  constructor
  · intro h
    cases action with
    | error error => cases h
    | ok found =>
        cases h
        rfl
  · rintro rfl
    rfl

theorem ok_bind {ε α β : Type} (found : α) (next : α → Except ε β) :
    (Except.ok found >>= next) = next found :=
  rfl

theorem mapError_bind {ε η α β : Type} {wrap : ε → η} {action : Except ε α} {next : α → Except ε β}
    {checked : α → Except η β}
    (h : ∀ found, action = .ok found → checked found = (next found).mapError wrap) :
    action.mapError wrap >>= checked = (action >>= next).mapError wrap := by
  cases action with
  | error error => rfl
  | ok found => exact h found rfl

namespace Packed

theorem bind_eq_ok {ε α β : Type} {action : Except ε α} {next : α → Except ε β} {result : β} :
    action >>= next = .ok result ↔ ∃ found, action = .ok found ∧ next found = .ok result := by
  cases action with
  | error error => exact ⟨nofun, nofun⟩
  | ok found => exact ⟨fun h => ⟨found, rfl, h⟩, fun ⟨_, rfl, h⟩ => h⟩

/-! A run is read as it was written. -/

/-- From this position on, the buffer has these bytes. -/
def Shows (buffer : Buffer) : Nat → List UInt8 → Prop
  | _, [] => True
  | position, byte :: rest => buffer[position]? = some byte ∧ Shows buffer (position + 1) rest

theorem shows_append {buffer : Buffer} {position : Nat} {first second : List UInt8} :
    Shows buffer position (first ++ second) ↔
      Shows buffer position first ∧ Shows buffer (position + first.length) second := by
  induction first generalizing position with
  | nil => simp [Shows]
  | cons byte rest ih =>
      rw [List.cons_append, Shows, Shows, ih, List.length_cons, and_assoc, Nat.add_assoc,
        Nat.add_comm 1]

theorem shows_toArray (before text after : List UInt8) :
    Shows (before ++ text ++ after).toArray before.length text := by
  induction text generalizing before with
  | nil => trivial
  | cons byte rest ih =>
      refine ⟨by simp, ?_⟩
      have := ih (before ++ [byte])
      simpa using this

namespace Offset

theorem widthOf_pos (distance : Nat) : 0 < widthOf distance := by
  unfold widthOf
  split
  · exact Nat.one_pos
  · split <;> decide

theorem toNat_ofNat {n : Nat} (h : n < 256) : (UInt8.ofNat n).toNat = n := by
  rw [UInt8.toNat_ofNat']
  exact Nat.mod_eq_of_lt h

/-- What the lead byte of a link has more when the link ends its run. -/
def mark (last : Bool) : Nat :=
  if last then 0x80 else 0

theorem toNat_eq_mark_add_iff {lead : UInt8} {body : Nat} {last : Bool} (h : body < 0x80) :
    lead.toNat = mark last + body ↔
      lead.toNat % 0x80 = body ∧ decide (0x80 ≤ lead.toNat) = last := by
  have hlead := lead.toNat_lt
  cases last
  · simp only [mark, Bool.false_eq_true, if_false, decide_eq_false_iff_not]
    omega
  · simp only [mark, if_true, decide_eq_true_eq]
    omega

/-- The narrowest link for a distance is read back, whatever stands around it. -/
theorem read?_of_shows {buffer : Buffer} {position distance : Nat} {last : Bool}
    (hdistance : distance < distanceBound) (h : Shows buffer position (bytes last distance)) :
    read? buffer position = some ⟨distance, widthOf distance, last⟩ := by
  have hbound : distance < 0x200000 := hdistance
  have hmark : ∀ body < 0x80, ∀ lead, buffer[position]? = some lead →
      lead = UInt8.ofNat (mark last + body) →
        lead.toNat % 0x80 = body ∧ decide (0x80 ≤ lead.toNat) = last := by
    rintro body hbody _ _ rfl
    refine (toNat_eq_mark_add_iff hbody).mp (toNat_ofNat ?_)
    unfold mark
    split <;> omega
  unfold bytes at h
  unfold widthOf
  simp only at h
  split at h
  · rename_i hsmall
    obtain ⟨hlead, _⟩ := h
    obtain ⟨hbody, hlast⟩ := hmark distance (by omega) _ hlead rfl
    rw [read?, hlead, if_pos hsmall]
    simp only [Option.bind_eq_bind, Option.bind_some, hbody, hlast]
    rw [if_pos (by omega)]
  · rename_i hwide
    split at h
    · rename_i hmedium
      obtain ⟨hlead, hlow, _⟩ := h
      rw [Nat.add_assoc] at hlead
      obtain ⟨hbody, hlast⟩ := hmark (0x40 + distance / 0x100) (by omega) _ hlead rfl
      rw [read?, hlead, if_neg hwide, if_pos hmedium]
      simp only [Option.bind_eq_bind, Option.bind_some, hbody, hlast, hlow]
      rw [if_neg (by omega), if_pos (by omega), UInt8.toNat_ofNat']
      simp only [Option.some.injEq, Offset.mk.injEq, and_true]
      omega
    · rename_i hlarge
      obtain ⟨hlead, hmiddle, hlow, _⟩ := h
      rw [Nat.add_assoc] at hlead
      obtain ⟨hbody, hlast⟩ := hmark (0x60 + distance / 0x10000) (by omega) _ hlead rfl
      rw [Nat.add_assoc] at hlow
      rw [read?, hlead, if_neg hwide, if_neg hlarge]
      simp only [Option.bind_eq_bind, Option.bind_some, hbody, hlast, hmiddle, hlow]
      rw [if_neg (by omega), if_neg (by omega), UInt8.toNat_ofNat', UInt8.toNat_ofNat']
      simp only [Option.some.injEq, Offset.mk.injEq, and_true]
      omega

end Offset

theorem inRange_iff {distance : Nat} :
    inRange distance ↔ 0 < distance ∧ distance < distanceBound := by
  simp [inRange]

@[simp] theorem runBytes_singleton (distance : Nat) :
    runBytes [distance] = Offset.bytes true distance := by
  simp [runBytes]

@[simp] theorem runBytes_cons_cons (distance next : Nat) (rest : List Nat) :
    runBytes (distance :: next :: rest) =
      Offset.bytes false distance ++ runBytes (next :: rest) := by
  simp [runBytes, List.getLast?_cons_cons]

@[simp] theorem runSize_cons (distance : Nat) (rest : List Nat) :
    runSize (distance :: rest) = Offset.widthOf distance + runSize rest :=
  rfl

namespace Run

/-- Where the links of a run lead, which is complete. -/
structure LeadsTo (buffer : Buffer) (start : Nat) (targets : List Nat) : Prop where
  error : (Run.read buffer start).error = none
  targets : ((Run.read buffer start).links.map Link.target).Perm targets

theorem next_of_shows {buffer : Buffer} {position origin place : Nat} {last : Bool}
    (hrange : inRange (origin - place)) (horigin : origin ≤ buffer.size) (hplace : 0 < place)
    (hroom : place + position < buffer.size)
    (h : Shows buffer position (Offset.bytes last (origin - place))) :
    Cursor.next buffer ⟨some position, buffer.size - origin⟩ =
      (some (.ok ⟨position, buffer.size - place, Offset.widthOf (origin - place), last⟩),
        ⟨if last then none else some (position + Offset.widthOf (origin - place)),
          buffer.size - place⟩) := by
  obtain ⟨hpositive, hbound⟩ := inRange_iff.mp hrange
  have htarget : buffer.size - origin + (origin - place) = buffer.size - place := by omega
  have hread : Link.read buffer position (buffer.size - origin) =
      .ok ⟨position, buffer.size - place, Offset.widthOf (origin - place), last⟩ := by
    rw [Link.read, Offset.read?_of_shows hbound h]
    simp only [htarget]
    rw [if_neg (by omega), if_neg (by omega)]
  simp only [Cursor.next, hread]

theorem collect_of_next {buffer : Buffer} {cursor after : Cursor} {link : Link}
    (h : cursor.next buffer = (some (.ok link), after)) (links : List Link) :
    collect buffer cursor links = collect buffer after (link :: links) := by
  rw [collect]
  split <;> simp_all

theorem collect_done (buffer : Buffer) (base : Nat) (links : List Link) :
    collect buffer ⟨none, base⟩ links = ⟨links.reverse, none⟩ := by
  rw [collect]
  rfl

/-- The links to these places, in a run that begins at `position`. The places are counted from
the end of a buffer of this size, as `origin` is, where the first distance starts. -/
def linksTo (size : Nat) : Nat → Nat → List Nat → List Link
  | _, _, [] => []
  | position, origin, place :: rest =>
      ⟨position, size - place, Offset.widthOf (origin - place), rest.isEmpty⟩ ::
        linksTo size (position + Offset.widthOf (origin - place)) place rest

theorem map_target_linksTo (size position origin : Nat) (places : List Nat) :
    (linksTo size position origin places).map Link.target = places.map (size - ·) := by
  induction places generalizing position origin with
  | nil => rfl
  | cons place rest ih => rw [linksTo, List.map_cons, List.map_cons, ih]

theorem tiles_linksTo (size position origin : Nat) (places : List Nat) :
    Tiles position (linksTo size position origin places)
      (position + runSize (distances origin places)) := by
  induction places generalizing position origin with
  | nil => rfl
  | cons place rest ih =>
      refine ⟨rfl, Offset.widthOf_pos _, ?_⟩
      rw [distances_cons, runSize_cons, ← Nat.add_assoc]
      exact ih _ _

/-- A run is read as the links to the places that it was written for. -/
theorem collect_runBytes {buffer : Buffer} {position origin : Nat} {places : List Nat}
    (hplaces : places ≠ []) (hrange : ∀ distance ∈ distances origin places, inRange distance)
    (horigin : origin ≤ buffer.size) (hpositive : ∀ place ∈ places, 0 < place)
    (hroom : ∀ place ∈ places,
      place + position + runSize (distances origin places) ≤ buffer.size)
    (hshows : Shows buffer position (runBytes (distances origin places))) (found : List Link) :
    collect buffer ⟨some position, buffer.size - origin⟩ found =
      ⟨found.reverse ++ linksTo buffer.size position origin places, none⟩ := by
  induction places generalizing position origin found with
  | nil => exact absurd rfl hplaces
  | cons place rest ih =>
      rw [distances_cons] at hrange hroom hshows
      have hhead := hrange _ List.mem_cons_self
      have hwidth := Offset.widthOf_pos (origin - place)
      have hplace := hpositive place List.mem_cons_self
      have hfits := hroom place List.mem_cons_self
      rw [runSize_cons] at hfits
      rw [linksTo]
      cases hrest : rest with
      | nil =>
          subst hrest
          rw [distances_nil, runBytes_singleton] at hshows
          have hnext := next_of_shows hhead horigin hplace (by omega) hshows
          rw [collect_of_next hnext, if_pos rfl, collect_done, List.reverse_cons]
          rfl
      | cons next others =>
          rw [hrest, distances_cons, runBytes_cons_cons, shows_append, Offset.length_bytes,
            ← distances_cons, ← hrest] at hshows
          have hnext := next_of_shows hhead horigin hplace (by omega) hshows.1
          have hcloser : place ≤ buffer.size := by omega
          have hbehind := ih (by rw [hrest]; exact List.cons_ne_nil _ _)
            (fun distance hdistance => hrange distance (List.mem_cons_of_mem _ hdistance)) hcloser
            (fun other hother => hpositive other (List.mem_cons_of_mem _ hother))
            (fun other hother => by
              have := hroom other (List.mem_cons_of_mem _ hother)
              rw [runSize_cons] at this
              omega)
            hshows.2
            (⟨position, buffer.size - place, Offset.widthOf (origin - place), false⟩ :: found)
          rw [collect_of_next hnext]
          simpa [hrest] using hbehind

end Run

/-! What the trials for the size of a run come to. -/

/-- These bytes link to all of the places, when `behind` bytes follow them. -/
def Connects (behind : Nat) (places : List Nat) (run : List UInt8) : Prop :=
  ∃ sorted : List Nat, sorted.Perm places ∧
    (∀ distance ∈ distances (behind + run.length) sorted, inRange distance) ∧
    run = runBytes (distances (behind + run.length) sorted)

theorem settle_eq_ok {behind rounds guess : Nat} {places : List Nat} {run : List UInt8}
    (h : settle behind places rounds guess = .ok run) :
    (∀ distance ∈ distances (behind + run.length) places, inRange distance) ∧
      run = runBytes (distances (behind + run.length) places) := by
  induction rounds generalizing guess with
  | zero => cases h
  | succ rounds ih =>
      rw [settle] at h
      split at h
      · cases h
      · rename_i hfound
        split at h
        · rename_i hguess
          cases h
          rw [length_runBytes, hguess]
          exact ⟨by simpa using hfound, rfl⟩
        · exact ih h

theorem connects_of_sizeRun {behind rounds : Nat} {places : List Nat} {run : List UInt8}
    (h : sizeRun behind places rounds = .ok run) : Connects behind places run :=
  ⟨_, List.mergeSort_perm _ _, settle_eq_ok h⟩

/-- A run that stands in front of `behind` bytes at the end of a buffer is read as it was
written. -/
theorem read_of_shows {buffer : Buffer} {behind start : Nat} {places : List Nat} {run : List UInt8}
    (hplaces : places ≠ [])
    (hrange : ∀ distance ∈ distances (behind + run.length) places, inRange distance)
    (hrun : run = runBytes (distances (behind + run.length) places))
    (hbehind : ∀ place ∈ places, 0 < place ∧ place ≤ behind)
    (hstart : start + run.length + behind = buffer.size) (hshows : Shows buffer start run) :
    Run.read buffer start =
        ⟨Run.linksTo buffer.size start (behind + run.length) places, none⟩ ∧
      Tiles start (Run.linksTo buffer.size start (behind + run.length) places)
        (start + run.length) := by
  have hlength : run.length = runSize (distances (behind + run.length) places) := by
    rw [← length_runBytes, ← hrun]
  have hwritten : Shows buffer start (runBytes (distances (behind + run.length) places)) := by
    rw [← hrun]
    exact hshows
  have hcollect := Run.collect_runBytes hplaces hrange (by omega)
    (fun place hplace => (hbehind place hplace).1)
    (fun place hplace => by
      have := (hbehind place hplace).2
      omega)
    hwritten []
  have horigin : buffer.size - (behind + run.length) = start := by omega
  have htiles := Run.tiles_linksTo buffer.size start (behind + run.length) places
  rw [← hlength] at htiles
  rw [horigin] at hcollect
  exact ⟨hcollect, htiles⟩

theorem Connects.exists_read {buffer : Buffer} {behind start : Nat} {places : List Nat}
    {run : List UInt8} (h : Connects behind places run) (hplaces : places ≠ [])
    (hbehind : ∀ place ∈ places, 0 < place ∧ place ≤ behind)
    (hstart : start + run.length + behind = buffer.size) (hshows : Shows buffer start run) :
    ∃ links, Run.read buffer start = ⟨links, none⟩ ∧
      (links.map Link.target).Perm (places.map (buffer.size - ·)) ∧
      Tiles start links (start + run.length) := by
  obtain ⟨sorted, hperm, hrange, hrun⟩ := h
  have hsorted : sorted ≠ [] := by
    rintro rfl
    exact hplaces (List.nil_perm.mp hperm)
  obtain ⟨hread, htiles⟩ := read_of_shows hsorted hrange hrun
    (fun place hplace => hbehind place (hperm.mem_iff.mp hplace)) hstart hshows
  refine ⟨_, hread, ?_, htiles⟩
  rw [Run.map_target_linksTo]
  exact hperm.map _

end Packed

end Lexicon
