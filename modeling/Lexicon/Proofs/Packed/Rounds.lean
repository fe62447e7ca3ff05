import Lexicon.Proofs.Packed.Layout
import Lexicon.Proofs.Packed.Sizing
import Mathlib.Order.Bounds.Basic

namespace Lexicon.Packed

/-! Three trials are enough for every run. Fewer of them end in the same result or in none. -/

theorem Offset.widthOf_mono {first second : Nat} (h : first ≤ second) :
    widthOf first ≤ widthOf second := by
  unfold widthOf
  split_ifs <;> omega

/-- The narrowest links for the distances that this size of a run implies take exactly this
size. -/
def SelfSized (behind : Nat) (places : List Nat) (size : Nat) : Prop :=
  runSize (distances (behind + size) places) = size

variable {behind guess rounds : Nat} {places : List Nat}

theorem runSize_distances_mono {size : Nat} (h : size ≤ guess) :
    runSize (distances (behind + size) places) ≤ runSize (distances (behind + guess) places) := by
  cases places with
  | nil => exact Nat.le_refl _
  | cons nearest further =>
      rw [distances_cons, distances_cons, runSize_cons, runSize_cons]
      exact Nat.add_le_add_right (Offset.widthOf_mono (by omega)) _

/-- From above, the trials never fall below a size that suits its own distances. -/
theorem SelfSized.le_length {size : Nat} (h : SelfSized behind places size) (hle : size ≤ guess)
    {run : List UInt8} (hsettle : settle behind places rounds guess = .ok run) :
    size ≤ run.length := by
  induction rounds generalizing guess with
  | zero => cases hsettle
  | succ rounds ih =>
      rw [settle] at hsettle
      split at hsettle
      · cases hsettle
      · split at hsettle
        · rename_i hguess
          cases hsettle
          rwa [length_runBytes, hguess]
        · refine ih ?_ hsettle
          exact Nat.le_trans (Nat.le_of_eq h.symm) (runSize_distances_mono hle)

theorem isGreatest_of_settle {run : List UInt8}
    (h : settle behind places rounds (3 * places.length) = .ok run) :
    IsGreatest {size | size ≤ 3 * places.length ∧ SelfSized behind places size} run.length := by
  have hself : SelfSized behind places run.length := by
    rw [SelfSized, ← length_runBytes, ← (settle_eq_ok h).2]
  constructor
  · refine ⟨?_, hself⟩
    have hsmall := runSize_le (distances (behind + run.length) places)
    rwa [hself, length_distances] at hsmall
  · intro size hsize
    exact hsize.2.le_length hsize.1 h

/-! A trial that decides is the last one. -/

theorem settle_add (h : settle behind places rounds guess ≠ .error .unsettled) (more : Nat) :
    settle behind places (rounds + more) guess = settle behind places rounds guess := by
  induction rounds generalizing guess with
  | zero => exact absurd rfl h
  | succ rounds ih =>
      rw [Nat.succ_add, settle, settle]
      rw [settle] at h
      split
      · rfl
      · rename_i hfits
        simp only [hfits] at h
        split
        · rfl
        · rename_i hguess
          rw [if_neg hguess] at h
          exact ih h

theorem settle_three_ne_unsettled (h : ∀ place ∈ places, place ≤ behind) :
    settle behind places 3 (3 * places.length) ≠ .error .unsettled := by
  cases places with
  | nil => exact nofun
  | cons nearest further =>
      have hnearest := h nearest List.mem_cons_self
      by_cases fits : Fits behind (nearest :: further) (3 * (further.length + 1))
      · obtain ⟨size, _, hsettle⟩ := fits.exists_settle hnearest 0
        rw [List.length_cons, hsettle]
        exact nofun
      · obtain ⟨distance, hsettle⟩ := settle_of_not_fits fits 2
        rw [List.length_cons, hsettle]
        exact nofun

theorem sizeRun_three_ne_unsettled (h : ∀ place ∈ places, place ≤ behind) :
    sizeRun behind places 3 ≠ .error .unsettled := by
  apply settle_three_ne_unsettled
  intro place hplace
  exact h place (List.mem_mergeSort.mp hplace)

theorem sizeRun_eq_or_unsettled (h : ∀ place ∈ places, place ≤ behind) (rounds : Nat) :
    sizeRun behind places rounds = sizeRun behind places 3 ∨
      rounds < 3 ∧ sizeRun behind places rounds = .error .unsettled := by
  rcases Nat.lt_or_ge rounds 3 with hfew | hmany
  · obtain ⟨more, hmore⟩ := Nat.exists_eq_add_of_le (Nat.le_of_lt hfew)
    by_cases hunsettled : sizeRun behind places rounds = .error .unsettled
    · exact .inr ⟨hfew, hunsettled⟩
    · rw [hmore]
      exact .inl (settle_add hunsettled more).symm
  · obtain ⟨more, rfl⟩ := Nat.exists_eq_add_of_le hmany
    exact .inl (settle_add (sizeRun_three_ne_unsettled h) more)

/-- A result that was found in fewer trials than three may be missing. In all other cases it
is the one that three trials lead to. -/
def Agrees {α : Type} (rounds : Nat) (result three : Except EncodeError α) : Prop :=
  result = three ∨ rounds < 3 ∧ ∃ owner, result = .error (.sizingDidNotConverge owner rounds)

namespace Agrees

variable {α β : Type} {result three : Except EncodeError α}

theorem refl (rounds : Nat) (result : Except EncodeError α) : Agrees rounds result result :=
  .inl rfl

theorem bind (h : Agrees rounds result three) {next nextOfThree : α → Except EncodeError β}
    (hnext : ∀ found, three = .ok found → Agrees rounds (next found) (nextOfThree found)) :
    Agrees rounds (result >>= next) (three >>= nextOfThree) := by
  rcases h with rfl | ⟨hrounds, owner, rfl⟩
  · cases result with
    | error error => exact .refl rounds (.error error)
    | ok found => exact hnext found rfl
  · exact .inr ⟨hrounds, owner, rfl⟩

end Agrees

namespace Layout

variable {layout : Layout} {owner : Owner} {children : List Nat}

theorem forall_mem_filterMap_place?
    (within : ∀ child ∈ children, ∀ place ∈ layout.place? child, place ≤ layout.size) :
    ∀ place ∈ children.filterMap layout.place?, place ≤ layout.size := by
  intro place hplace
  obtain ⟨child, hchild, hplace⟩ := List.mem_filterMap.mp hplace
  exact within child hchild place hplace

theorem run_three_decides (within : ∀ child ∈ children, ∀ place ∈ layout.place? child,
    place ≤ layout.size) :
    (∃ run, layout.run owner children 3 = .ok run) ∨
      ∃ distance, layout.run owner children 3 = .error (.distanceOutOfRange owner distance) := by
  have hsettled := sizeRun_three_ne_unsettled (forall_mem_filterMap_place? within)
  rw [Layout.run]
  cases hsize : sizeRun layout.size (children.filterMap layout.place?) 3 with
  | ok run => exact .inl ⟨run, rfl⟩
  | error error =>
      cases error with
      | distance distance => exact .inr ⟨distance, rfl⟩
      | unsettled => exact absurd hsize hsettled

theorem run_eq_or_unsettled (within : ∀ child ∈ children, ∀ place ∈ layout.place? child,
    place ≤ layout.size) (rounds : Nat) :
    layout.run owner children rounds = layout.run owner children 3 ∨
      rounds < 3 ∧
        layout.run owner children rounds = .error (.sizingDidNotConverge owner rounds) := by
  have hplaces := forall_mem_filterMap_place? within
  have hsettled := sizeRun_three_ne_unsettled hplaces
  rcases sizeRun_eq_or_unsettled hplaces rounds with hsame | ⟨hfew, hunsettled⟩
  · left
    rw [Layout.run, Layout.run, hsame]
    cases hsize : sizeRun layout.size (children.filterMap layout.place?) 3 with
    | ok run => rfl
    | error error =>
        cases error with
        | distance distance => rfl
        | unsettled => exact absurd hsize hsettled
  · right
    rw [Layout.run, hunsettled]
    exact ⟨hfew, rfl⟩

theorem agrees_run (within : ∀ child ∈ children, ∀ place ∈ layout.place? child,
    place ≤ layout.size) (rounds : Nat) :
    Agrees rounds (layout.run owner children rounds) (layout.run owner children 3) :=
  (run_eq_or_unsettled within rounds).imp_right fun h => ⟨h.1, owner, h.2⟩

/-- No node begins in front of all bytes. -/
def Within (layout : Layout) : Prop :=
  ∀ id, ∀ place ∈ layout.place? id, place ≤ layout.size

theorem within_blank (size : Nat) : (blank size).Within := by
  intro id place hplace
  rw [place?, blank, Census.getD_replicate] at hplace
  cases hplace

theorem Within.put (within : layout.Within) (id : Nat) (text : List UInt8) :
    (layout.put id text).Within := by
  intro other place hplace
  by_cases hsame : other = id
  · subst hsame
    by_cases hlt : other < layout.places.size
    · rw [place?_put_self hlt] at hplace
      cases hplace
      exact Nat.le_refl _
    · simp [place?, Layout.put, hlt] at hplace
  · rw [place?_put_of_ne hsame] at hplace
    exact Nat.le_trans (within other place hplace) (Nat.le_add_left _ _)

theorem Within.placeNode (within : layout.Within) {after : Layout} {rounds id : Nat} {node : Node}
    (h : layout.placeNode rounds id node = .ok after) : after.Within := by
  cases node with
  | value v =>
      cases h
      exact within.put id _
  | char letter children =>
      rw [Layout.placeNode] at h
      split at h
      · cases h
      · split at h
        · cases h
          exact within.put id _
        · obtain ⟨run, _, h⟩ := bind_eq_ok.mp h
          cases h
          exact within.put id _

theorem Within.agrees_placeNode (within : layout.Within) (rounds id : Nat) (node : Node) :
    Agrees rounds (layout.placeNode rounds id node) (layout.placeNode 3 id node) := by
  cases node with
  | value v => exact .refl _ _
  | char letter children =>
      rw [Layout.placeNode, Layout.placeNode]
      split
      · exact .refl _ _
      · split
        · exact .refl _ _
        · exact (agrees_run (fun child _ => within child) rounds).bind fun run _ => .refl _ _

theorem Within.agrees_foldlM (within : layout.Within) (graph : Graph) (rounds : Nat)
    (ids : List Nat) :
    Agrees rounds (ids.foldlM (place graph rounds) layout) (ids.foldlM (place graph 3) layout) ∧
      ∀ after, ids.foldlM (place graph 3) layout = .ok after → after.Within := by
  induction ids generalizing layout with
  | nil =>
      refine ⟨.refl _ _, fun after h => ?_⟩
      cases h
      exact within
  | cons id rest ih =>
      rw [List.foldlM_cons, List.foldlM_cons]
      have hplace : Agrees rounds (place graph rounds layout id) (place graph 3 layout id) ∧
          ∀ placed, place graph 3 layout id = .ok placed → placed.Within := by
        rw [place, place]
        split
        · refine ⟨.refl _ _, fun placed h => ?_⟩
          cases h
          exact within
        · exact ⟨within.agrees_placeNode rounds id _, fun placed => within.placeNode⟩
      obtain ⟨hagrees, hwithin⟩ := hplace
      refine ⟨hagrees.bind fun placed h => (ih (hwithin placed h)).1, fun after h => ?_⟩
      obtain ⟨placed, hplaced, h⟩ := bind_eq_ok.mp h
      exact (ih (hwithin placed hplaced)).2 after h

end Layout

theorem agrees_encode (graph : Graph) (rounds : Nat) :
    Agrees rounds (encode graph rounds) (encode graph 3) := by
  obtain ⟨hagrees, hwithin⟩ :=
    (Layout.within_blank graph.size).agrees_foldlM graph rounds graph.order.reverse
  rw [encode, encode]
  split
  · exact .refl _ _
  · exact hagrees.bind fun layout h =>
      (Layout.agrees_run (fun child _ => hwithin layout h child) rounds).bind fun run _ =>
        .refl _ _

/-- The third trial decides at the latest: the run of children that have their places is
written or refused for a distance. What is written has the largest of all sizes, up to three
bytes for each link, that suit their own distances. For a graph as a whole, more rounds than
three change nothing, and with fewer of them the result is the same or a run did not settle. -/
theorem three_rounds_suffice {layout : Layout} {owner : Owner} {children places : List Nat}
    (placed : (children.map layout.place?).Perm (places.map some))
    (falling : places.Pairwise (· ≥ ·)) (le_size : ∀ place ∈ places, place ≤ layout.size) :
    ((∃ run, layout.run owner children 3 = .ok run) ∨
      ∃ distance, layout.run owner children 3 = .error (.distanceOutOfRange owner distance)) ∧
    (∀ rounds, 3 ≤ rounds →
      layout.run owner children rounds = layout.run owner children 3) ∧
    (∀ rounds, rounds < 3 →
      layout.run owner children rounds = layout.run owner children 3 ∨
      layout.run owner children rounds = .error (.sizingDidNotConverge owner rounds)) ∧
    (∀ rounds run, layout.run owner children rounds = .ok run →
      IsGreatest {size | size ≤ 3 * children.length ∧ SelfSized layout.size places size}
        run.length) ∧
    ∀ graph rounds,
      (3 ≤ rounds → encode graph rounds = encode graph 3) ∧
      (rounds < 3 → encode graph rounds = encode graph 3 ∨
        ∃ owner, encode graph rounds = .error (.sizingDidNotConverge owner rounds)) := by
  have within : ∀ child ∈ children, ∀ place ∈ layout.place? child, place ≤ layout.size := by
    intro child hchild place hplace
    have hmem := placed.mem_iff.mp (List.mem_map_of_mem hchild)
    rw [hplace] at hmem
    exact le_size place ((List.mem_map_of_injective (Option.some_injective _)).mp hmem)
  refine ⟨Layout.run_three_decides within, fun rounds hmany => ?_, fun rounds _ => ?_,
    fun rounds run h => ?_, fun graph rounds => ⟨fun hmany => ?_, fun _ => ?_⟩⟩
  · exact (Layout.run_eq_or_unsettled within rounds).resolve_right
      fun hfew => Nat.not_lt.mpr hmany hfew.1
  · exact (Layout.run_eq_or_unsettled within rounds).imp_right And.right
  · have hlength : children.length = places.length := by
      simpa using placed.length_eq
    rw [hlength]
    apply isGreatest_of_settle
    rw [← sizeRun_eq (Layout.filterMap_place?_perm placed) falling]
    rw [Layout.run] at h
    cases hsize : sizeRun layout.size (children.filterMap layout.place?) rounds with
    | error error =>
        rw [hsize] at h
        cases h
    | ok found =>
        rw [hsize] at h
        cases h
        rfl
  · exact (agrees_encode graph rounds).resolve_right fun hfew => Nat.not_lt.mpr hmany hfew.1
  · exact (agrees_encode graph rounds).imp_right And.right

/-- One character and its value. -/
def single : Graph where
  nodes := #[.value 1, .char 0x61 [0]]
  root := [1]
  child_lt := by decide
  root_lt := by decide

/-- Three rounds bring this run from six bytes to two, and two rounds are too few for it. -/
theorem three_rounds_suffice_farBehind :
    (Layout.farBehind 62).run .root [0, 1] 3 = .ok [62, 129] ∧
    (Layout.farBehind 62).run .root [0, 1] 100 = .ok [62, 129] ∧
    (Layout.farBehind 62).run .root [0, 1] 2 = .error (.sizingDidNotConverge .root 2) ∧
    IsGreatest {size | size ≤ 6 ∧ SelfSized 62 [2, 1] size} 2 ∧
    encode single 3 = .ok #[129, 97, 129] ∧
    encode single 100 = encode single 3 ∧
    encode single 1 = .error (.sizingDidNotConverge .root 1) := by
  have placed : ([0, 1].map (Layout.farBehind 62).place?).Perm ([2, 1].map some) :=
    List.Perm.swap (some 2) (some 1) []
  obtain ⟨_, hmore, hfewer, hgreatest, hgraph⟩ :=
    @three_rounds_suffice _ .root _ _ placed (by decide) (by decide)
  have hthree : (Layout.farBehind 62).run .root [0, 1] 3 = .ok [62, 129] :=
    Layout.run_of_settle placed (by decide) rfl
  have htwo : (Layout.farBehind 62).run .root [0, 1] 2 ≠ .ok [62, 129] := by
    rw [Layout.run, sizeRun_eq (Layout.filterMap_place?_perm placed) (by decide)]
    intro h
    cases h
  refine ⟨hthree, ?_, ?_, hgreatest 3 _ hthree, ?_, ?_, ?_⟩
  · rw [hmore 100 (by decide), hthree]
  · exact (hfewer 2 (by decide)).resolve_left fun hsame => htwo (hsame.trans hthree)
  · cbv
  · exact (hgraph single 100).1 (by decide)
  · cbv

end Lexicon.Packed
