import Lexicon.Packed.Layout
import Lexicon.Proofs.Packed.Run
import Mathlib.Data.List.Sort
import Mathlib.Tactic.SplitIfs

namespace Lexicon.Packed

/-! How the trials for the size of a run end. -/

namespace Offset

theorem widthOf_le (distance : Nat) : widthOf distance ≤ 3 := by
  unfold widthOf
  split_ifs <;> omega

/-- The first distance of a run grows with the run. Counted from a first guess of three
bytes for each link, its width falls once at the most. -/
theorem widthOf_settles (reach : Nat) {count rest : Nat} (hlow : count ≤ rest)
    (hhigh : rest ≤ 3 * count) :
    let first := widthOf (reach + 3 * (count + 1))
    let second := widthOf (reach + (first + rest))
    second = first ∨ widthOf (reach + (second + rest)) = second := by
  simp only [widthOf]
  split_ifs <;> omega

end Offset

theorem length_distances (origin : Nat) (places : List Nat) :
    (distances origin places).length = places.length := by
  simp [distances]

theorem length_le_runSize (distances : List Nat) : distances.length ≤ runSize distances := by
  induction distances with
  | nil => exact Nat.le_refl _
  | cons distance rest ih =>
      have := Offset.widthOf_pos distance
      rw [List.length_cons, runSize_cons]
      omega

theorem Connects.ne_nil {behind : Nat} {places : List Nat} {run : List UInt8}
    (h : Connects behind places run) (hplaces : places ≠ []) : run ≠ [] := by
  obtain ⟨sorted, hperm, _, hrun⟩ := h
  have hlength := length_le_runSize (distances (behind + run.length) sorted)
  rw [← length_runBytes, ← hrun, length_distances, hperm.length_eq] at hlength
  exact List.length_pos_iff.mp (Nat.lt_of_lt_of_le (List.length_pos_iff.mpr hplaces) hlength)

theorem runSize_le (distances : List Nat) : runSize distances ≤ 3 * distances.length := by
  induction distances with
  | nil => exact Nat.le_refl _
  | cons distance rest ih =>
      have := Offset.widthOf_le distance
      rw [List.length_cons, runSize_cons]
      omega

/-- All distances are in range when the run is taken to have this size. -/
def Fits (behind : Nat) (places : List Nat) (size : Nat) : Prop :=
  ∀ distance ∈ distances (behind + size) places, inRange distance

/-- The narrowest links for the distances that this size of a run implies are in range and
take exactly this size. -/
structure Consistent (behind : Nat) (places : List Nat) (size : Nat) : Prop where
  fits : Fits behind places size
  size_eq : runSize (distances (behind + size) places) = size

theorem settle_of_fits {behind guess : Nat} {places : List Nat} (fits : Fits behind places guess)
    (rounds : Nat) :
    settle behind places (rounds + 1) guess =
      if runSize (distances (behind + guess) places) = guess then
        .ok (runBytes (distances (behind + guess) places))
      else settle behind places rounds (runSize (distances (behind + guess) places)) := by
  have hfind : (distances (behind + guess) places).find? (fun distance => !inRange distance) =
      none := by
    rw [List.find?_eq_none]
    intro distance hdistance
    simpa using fits distance hdistance
  rw [settle]
  simp only [hfind]

theorem settle_of_not_fits {behind guess : Nat} {places : List Nat}
    (h : ¬ Fits behind places guess) (rounds : Nat) :
    ∃ distance, settle behind places (rounds + 1) guess = .error (.distance distance) := by
  have hsome : ((distances (behind + guess) places).find? fun distance =>
      !inRange distance).isSome := by
    rw [List.find?_isSome]
    simpa [Fits] using h
  obtain ⟨distance, hfind⟩ := Option.isSome_iff_exists.mp hsome
  refine ⟨distance, ?_⟩
  rw [settle]
  simp only [hfind]

theorem Consistent.settle {behind size : Nat} {places : List Nat}
    (h : Consistent behind places size) (rounds : Nat) :
    settle behind places (rounds + 1) size = .ok (runBytes (distances (behind + size) places)) := by
  rw [settle_of_fits h.fits, if_pos h.size_eq]

theorem Consistent.length_runBytes {behind size : Nat} {places : List Nat}
    (h : Consistent behind places size) :
    (runBytes (distances (behind + size) places)).length = size := by
  rw [Packed.length_runBytes, h.size_eq]

/-! Only the first distance of a run depends on its size. -/

variable {behind nearest : Nat} {further : List Nat}

theorem fits_cons_iff (hnearest : nearest ≤ behind) {size : Nat} :
    Fits behind (nearest :: further) size ↔
      inRange (behind - nearest + size) ∧
        ∀ distance ∈ distances nearest further, inRange distance := by
  have hfirst : behind + size - nearest = behind - nearest + size := by omega
  rw [Fits, distances_cons, List.forall_mem_cons, hfirst]

theorem runSize_distances_cons (hnearest : nearest ≤ behind) (size : Nat) :
    runSize (distances (behind + size) (nearest :: further)) =
      Offset.widthOf (behind - nearest + size) + runSize (distances nearest further) := by
  have hfirst : behind + size - nearest = behind - nearest + size := by omega
  rw [distances_cons, runSize_cons, hfirst]

theorem Fits.of_le (hnearest : nearest ≤ behind) {guess size : Nat}
    (fits : Fits behind (nearest :: further) guess) (hpositive : 0 < size) (hle : size ≤ guess) :
    Fits behind (nearest :: further) size := by
  rw [fits_cons_iff hnearest] at fits ⊢
  obtain ⟨hfirst, hrest⟩ := fits
  refine ⟨?_, hrest⟩
  rw [inRange_iff] at hfirst ⊢
  omega

/-- Where the first guess fits, the third trial is right at the latest. -/
theorem Fits.exists_settle (hnearest : nearest ≤ behind)
    (fits : Fits behind (nearest :: further) (3 * (further.length + 1))) (rounds : Nat) :
    ∃ size, Consistent behind (nearest :: further) size ∧
      settle behind (nearest :: further) (rounds + 3) (3 * (further.length + 1)) =
        .ok (runBytes (distances (behind + size) (nearest :: further))) := by
  have hsize (size : Nat) : runSize (distances (behind + size) (nearest :: further)) =
      Offset.widthOf (behind - nearest + size) + runSize (distances nearest further) :=
    runSize_distances_cons hnearest size
  have hlow := length_le_runSize (distances nearest further)
  have hhigh := runSize_le (distances nearest further)
  rw [length_distances] at hlow hhigh
  have hsettles := Offset.widthOf_settles (behind - nearest) hlow hhigh
  simp only at hsettles
  generalize hguess : 3 * (further.length + 1) = guess at fits hsettles ⊢
  generalize hrest : runSize (distances nearest further) = rest at hsize hhigh hsettles
  -- What a trial comes to is never more than the first guess, so that all trials fit.
  have hfits : ∀ size, Fits behind (nearest :: further)
      (runSize (distances (behind + size) (nearest :: further))) := by
    intro size
    have hpositive := Offset.widthOf_pos (behind - nearest + size)
    have hle := Offset.widthOf_le (behind - nearest + size)
    rw [hsize]
    exact fits.of_le hnearest (by omega) (by omega)
  rw [settle_of_fits fits]
  split
  · rename_i hfirst
    exact ⟨guess, ⟨fits, hfirst⟩, rfl⟩
  · rw [settle_of_fits (hfits guess)]
    split
    · rename_i hsecond
      exact ⟨_, ⟨hfits guess, hsecond⟩, rfl⟩
    · rename_i hsecond
      have hthird : Consistent behind (nearest :: further)
          (runSize (distances (behind + runSize (distances (behind + guess)
            (nearest :: further))) (nearest :: further))) := by
        refine ⟨hfits _, ?_⟩
        simp only [hsize] at hsecond ⊢
        rcases hsettles with hsame | hsame
        · exact absurd (by rw [hsame]) hsecond
        · rw [hsame]
      exact ⟨_, hthird, hthird.settle rounds⟩

theorem Consistent.further_inRange (hnearest : nearest ≤ behind) {size : Nat}
    (h : Consistent behind (nearest :: further) size) :
    ∀ distance ∈ distances nearest further, inRange distance :=
  ((fits_cons_iff hnearest).mp h.fits).2

theorem sizeRun_eq {places sorted : List Nat} (h : places.Perm sorted)
    (falling : sorted.Pairwise (· ≥ ·)) (behind rounds : Nat) :
    sizeRun behind places rounds = settle behind sorted rounds (3 * sorted.length) := by
  have hsort : places.mergeSort (fun left right => right ≤ left) = sorted := by
    have hpairwise : (places.mergeSort fun left right => right ≤ left).Pairwise (· ≥ ·) :=
      List.pairwise_mergeSort' (· ≥ ·) places
    exact ((List.mergeSort_perm _ _).trans h).eq_of_pairwise
      (fun _ _ _ _ hle hge => Nat.le_antisymm hge hle) hpairwise falling
  rw [sizeRun, hsort]

theorem exists_falling {places : List Nat} (distinct : places.Nodup) :
    ∃ sorted : List Nat, sorted.Perm places ∧ sorted.Pairwise (· > ·) := by
  have hperm : (places.mergeSort fun left right => right ≤ left).Perm places :=
    List.mergeSort_perm _ _
  have hfalling : (places.mergeSort fun left right => right ≤ left).Pairwise (· ≥ ·) :=
    List.pairwise_mergeSort' (· ≥ ·) places
  refine ⟨_, hperm, hfalling.imp₂ ?_ (hperm.nodup_iff.mpr distinct)⟩
  exact fun _ _ hle hne => Nat.lt_of_le_of_ne hle hne.symm

/-! The run of a node, whose children have their places. -/

namespace Layout

variable {layout : Layout} {owner : Owner} {children : List Nat} {rounds : Nat}

theorem filterMap_place?_perm {places : List Nat}
    (placed : (children.map layout.place?).Perm (places.map some)) :
    (children.filterMap layout.place?).Perm places := by
  have := placed.filterMap id
  rwa [List.filterMap_map, List.filterMap_map, Function.id_comp, Function.id_comp,
    List.filterMap_some] at this

theorem run_of_settle {run : List UInt8} {sorted : List Nat}
    (placed : (children.map layout.place?).Perm (sorted.map some))
    (falling : sorted.Pairwise (· ≥ ·))
    (h : settle layout.size sorted rounds (3 * sorted.length) = .ok run) :
    layout.run owner children rounds = .ok run := by
  rw [Layout.run, sizeRun_eq (filterMap_place?_perm placed) falling, h]
  rfl

theorem run_of_settle_error {distance : Nat} {sorted : List Nat}
    (placed : (children.map layout.place?).Perm (sorted.map some))
    (falling : sorted.Pairwise (· ≥ ·))
    (h : settle layout.size sorted rounds (3 * sorted.length) = .error (.distance distance)) :
    layout.run owner children rounds = .error (.distanceOutOfRange owner distance) := by
  rw [Layout.run, sizeRun_eq (filterMap_place?_perm placed) falling, h]
  rfl

/-- With three rounds, a run is refused for its distances if no size suits it, or if the
first distance is out of range when all links have their widest form. In every other case
the run is written in a size that suits it. -/
theorem run_outcome {nearest : Nat} {further : List Nat}
    (placed : (children.map layout.place?).Perm ((nearest :: further).map some))
    (falling : (nearest :: further).Pairwise (· ≥ ·)) (hnearest : nearest ≤ layout.size)
    (hrounds : 3 ≤ rounds) :
    ((∃ distance, layout.run owner children rounds =
        .error (.distanceOutOfRange owner distance)) ↔
      (¬ ∃ size, Consistent layout.size (nearest :: further) size) ∨
        distanceBound ≤ layout.size + 3 * children.length - nearest) ∧
    ((∃ size, Consistent layout.size (nearest :: further) size) →
      layout.size + 3 * children.length - nearest < distanceBound →
      ∃ run, layout.run owner children rounds = .ok run ∧
        Consistent layout.size (nearest :: further) run.length ∧
        run = runBytes (distances (layout.size + run.length) (nearest :: further))) := by
  obtain ⟨rounds, rfl⟩ := Nat.exists_eq_add_of_le' hrounds
  have hlength : children.length = further.length + 1 := by
    simpa using placed.length_eq
  rw [hlength]
  have hfits : Fits layout.size (nearest :: further) (3 * (further.length + 1)) ↔
      (∃ size, Consistent layout.size (nearest :: further) size) ∧
        layout.size + 3 * (further.length + 1) - nearest < distanceBound := by
    constructor
    · intro fits
      obtain ⟨size, hconsistent, _⟩ := fits.exists_settle hnearest rounds
      have hfirst := (inRange_iff.mp ((fits_cons_iff hnearest).mp fits).1).2
      exact ⟨⟨size, hconsistent⟩, by omega⟩
    · intro hboth
      obtain ⟨⟨size, hconsistent⟩, hfirst⟩ := hboth
      refine (fits_cons_iff hnearest).mpr ⟨?_, hconsistent.further_inRange hnearest⟩
      rw [inRange_iff]
      omega
  have written : Fits layout.size (nearest :: further) (3 * (further.length + 1)) →
      ∃ run, layout.run owner children (rounds + 3) = .ok run ∧
        Consistent layout.size (nearest :: further) run.length ∧
        run = runBytes (distances (layout.size + run.length) (nearest :: further)) := by
    intro fits
    obtain ⟨size, hconsistent, hsettle⟩ := fits.exists_settle hnearest rounds
    refine ⟨_, run_of_settle placed falling hsettle, ?_⟩
    rw [hconsistent.length_runBytes]
    exact ⟨hconsistent, rfl⟩
  constructor
  · constructor
    · intro hrefused
      obtain ⟨distance, hrefused⟩ := hrefused
      by_contra hnot
      push Not at hnot
      obtain ⟨run, hrun, _⟩ := written (hfits.mpr hnot)
      rw [hrun] at hrefused
      cases hrefused
    · intro hcases
      have hnot : ¬ Fits layout.size (nearest :: further) (3 * (further.length + 1)) := by
        rw [hfits]
        rcases hcases with hnone | hfar
        · exact fun hboth => hnone hboth.1
        · exact fun hboth => absurd hboth.2 (Nat.not_lt.mpr hfar)
      obtain ⟨distance, hsettle⟩ := settle_of_not_fits hnot (rounds + 2)
      exact ⟨distance, run_of_settle_error placed falling hsettle⟩
  · exact fun hconsistent hfirst => written (hfits.mpr ⟨hconsistent, hfirst⟩)

/-- Two nodes at the very end of a buffer that has grown to this size. -/
def farBehind (size : Nat) : Layout where
  bytes := List.replicate size 0
  size := size
  places := #[some 1, some 2]
  size_eq := by simp

/-- Here the first trial is two bytes too long for the short form of the first link, and
the second one is still one byte too long. -/
theorem run_outcome_third_trial :
    ((∃ distance, (farBehind 62).run .root [0, 1] 3 =
        .error (.distanceOutOfRange .root distance)) ↔
      (¬ ∃ size, Consistent 62 [2, 1] size) ∨ distanceBound ≤ 62 + 3 * 2 - 2) ∧
    ∃ run, (farBehind 62).run .root [0, 1] 3 = .ok run ∧ Consistent 62 [2, 1] run.length ∧
      run = runBytes (distances (62 + run.length) [2, 1]) := by
  have placed : ([0, 1].map (farBehind 62).place?).Perm ([2, 1].map some) :=
    List.Perm.swap (some 2) (some 1) []
  have consistent : Consistent 62 [2, 1] 2 := ⟨by unfold Fits; decide, by decide⟩
  obtain ⟨hrefused, hwritten⟩ := @run_outcome _ .root _ 3 _ _ placed (by decide) (by decide)
    (Nat.le_refl 3)
  exact ⟨hrefused, hwritten ⟨2, consistent⟩ (by decide)⟩

/-- Four bytes suit this run, and yet it is refused, since it would not fit into six. -/
theorem run_refused_in_reach :
    Consistent 2097149 [2, 1] 4 ∧
      (farBehind 2097149).run .root [0, 1] 8 = .error (.distanceOutOfRange .root 2097153) := by
  constructor
  · exact ⟨by unfold Fits; decide, by decide⟩
  · have placed : ([0, 1].map (farBehind 2097149).place?).Perm ([2, 1].map some) :=
      List.Perm.swap (some 2) (some 1) []
    exact run_of_settle_error placed (by decide) rfl

end Layout

end Lexicon.Packed
