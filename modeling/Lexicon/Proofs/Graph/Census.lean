import Lexicon.Graph.Order
import Lexicon.Proofs.Graph.Reads

namespace Lexicon

/-! A census finds the nodes that are reached, and counts right. -/

/-- How often these nodes refer to a child. -/
def Graph.owed (graph : Graph) (parents : List Nat) (child : Nat) : Nat :=
  (parents.map fun parent => (graph.children parent).count child).foldr (· + ·) 0

namespace Graph

variable {graph : Graph}

@[simp] theorem owed_nil (graph : Graph) (child : Nat) : graph.owed [] child = 0 :=
  rfl

@[simp] theorem owed_cons (graph : Graph) (parent : Nat) (rest : List Nat) (child : Nat) :
    graph.owed (parent :: rest) child = (graph.children parent).count child + graph.owed rest child :=
  rfl

theorem owed_perm {first second : List Nat} (h : first.Perm second) (child : Nat) :
    graph.owed first child = graph.owed second child :=
  (h.map _).sum_nat

theorem owed_eq_zero_iff {parents : List Nat} {child : Nat} :
    graph.owed parents child = 0 ↔ ∀ parent ∈ parents, child ∉ graph.children parent := by
  induction parents with
  | nil => simp
  | cons parent rest ih => simp [ih, List.count_eq_zero]

/-- Parents that are listed, however often, owe no less than the same parents once. -/
theorem owed_le {parents listed : List Nat} {child : Nat} (nodup : parents.Nodup)
    (h : ∀ parent ∈ parents, child ∈ graph.children parent → parent ∈ listed) :
    graph.owed parents child ≤ graph.owed listed child := by
  induction parents generalizing listed with
  | nil => exact Nat.zero_le _
  | cons parent rest ih =>
      obtain ⟨hnew, nodup⟩ := List.nodup_cons.mp nodup
      obtain ⟨hparent, hrest⟩ := List.forall_mem_cons.mp h
      rw [owed_cons]
      by_cases hchild : child ∈ graph.children parent
      · rw [owed_perm (List.perm_cons_erase (hparent hchild)), owed_cons]
        apply Nat.add_le_add_left
        apply ih nodup
        intro other hother hcount
        exact (List.mem_erase_of_ne (ne_of_mem_of_not_mem hother hnew)).mpr
          (hrest other hother hcount)
      · rw [List.count_eq_zero.mpr hchild, Nat.zero_add]
        exact ih nodup hrest

/-- Parents come later in the arena. What a node has when all of its parents have it, all nodes
have. -/
theorem parents_induct (graph : Graph) {motive : Nat → Prop}
    (step : ∀ id, (∀ parent, id ∈ graph.children parent → motive parent) → motive id) (id : Nat) :
    motive id :=
  step id fun parent h =>
    have : graph.size - parent < graph.size - id := by
      have := lt_of_mem_children h
      have := parent_lt_size h
      omega
    parents_induct graph step parent
termination_by graph.size - id

theorem reached_iff {id : Nat} : graph.Reached id ↔
    id ∈ graph.root ∨ ∃ parent, graph.Reached parent ∧ id ∈ graph.children parent := by
  constructor
  · intro h
    cases h with
    | root h => exact .inl h
    | child hparent h => exact .inr ⟨_, hparent, h⟩
  · intro hcases
    rcases hcases with h | ⟨parent, hparent, h⟩
    · exact .root h
    · exact .child hparent h

end Graph

namespace Census

variable {graph : Graph}

structure Fits (graph : Graph) (census : Census) : Prop where
  reached : census.reached.size = graph.size
  references : census.references.size = graph.size

def count (census : Census) (id : Nat) : Nat :=
  census.references.getD id 0

theorem Fits.getElem?_references {census : Census} (fits : census.Fits graph) {id : Nat}
    (h : id < graph.size) : census.references[id]? = some (census.count id) := by
  have hlt : id < census.references.size := fits.references.symm ▸ h
  simp [count, Array.getD, hlt]

theorem Fits.refer {census : Census} (fits : census.Fits graph) (child : Nat) :
    (census.refer child).Fits graph where
  reached := by simp [Census.refer, fits.reached]
  references := by simp [Census.refer, fits.references]

theorem isReached_refer {census : Census} (fits : census.Fits graph) {child : Nat}
    (hchild : child < graph.size) (id : Nat) :
    (census.refer child).isReached id ↔ census.isReached id ∨ id = child := by
  have hlt : child < census.reached.size := fits.reached.symm ▸ hchild
  simp only [isReached, refer, Array.getD_eq_getD_getElem?, Array.getElem?_setIfInBounds]
  by_cases hsame : child = id
  · subst hsame
    simp [hlt]
  · simp [hsame, Ne.symm hsame]

theorem count_refer {census : Census} (fits : census.Fits graph) {child : Nat}
    (hchild : child < graph.size) (id : Nat) :
    (census.refer child).count id = census.count id + if child = id then 1 else 0 := by
  have hlt : child < census.references.size := fits.references.symm ▸ hchild
  simp only [count, refer, Array.getD_eq_getD_getElem?, Array.getElem?_modify]
  by_cases hsame : child = id
  · subst hsame
    simp [hlt]
  · simp [hsame]

theorem foldl_refer {census : Census} (fits : census.Fits graph) {children : List Nat}
    (hchildren : graph.Admits children) :
    (children.foldl refer census).Fits graph ∧
      ∀ id, ((children.foldl refer census).isReached id ↔ census.isReached id ∨ id ∈ children) ∧
        (children.foldl refer census).count id = census.count id + children.count id := by
  induction children generalizing census with
  | nil => simp [fits]
  | cons child rest ih =>
      have hchild := hchildren child List.mem_cons_self
      obtain ⟨hfits, hrest⟩ := ih (fits.refer child) fun other hother =>
        hchildren other (List.mem_cons_of_mem child hother)
      refine ⟨hfits, fun id => ⟨?_, ?_⟩⟩
      · rw [List.foldl_cons, (hrest id).1, isReached_refer fits hchild, List.mem_cons, or_assoc]
      · rw [List.foldl_cons, (hrest id).2, count_refer fits hchild, List.count_cons]
        simp only [beq_iff_eq]
        omega

/-- What a census knows once the nodes from `bound` on have been visited; `visited` are
those of them that are reached. -/
structure Swept (graph : Graph) (bound : Nat) (visited : List Nat) (census : Census) : Prop
    extends census.Fits graph where
  nodup : visited.Nodup
  mem_visited : ∀ id, id ∈ visited ↔ bound ≤ id ∧ graph.Reached id
  isReached : ∀ id, census.isReached id ↔
    id ∈ graph.root ∨ ∃ parent ∈ visited, id ∈ graph.children parent
  count : ∀ id, census.count id = graph.owed visited id

theorem Swept.isReached_iff {bound id : Nat} {visited : List Nat} {census : Census}
    (swept : Swept graph bound visited census) (h : bound ≤ id + 1) :
    census.isReached id ↔ graph.Reached id := by
  rw [swept.isReached, Graph.reached_iff]
  refine or_congr_right ⟨?_, ?_⟩
  · intro hexists
    obtain ⟨parent, hparent, hchild⟩ := hexists
    exact ⟨parent, ((swept.mem_visited parent).mp hparent).2, hchild⟩
  · intro hexists
    obtain ⟨parent, hparent, hchild⟩ := hexists
    have := Graph.lt_of_mem_children hchild
    exact ⟨parent, (swept.mem_visited parent).mpr ⟨by omega, hparent⟩, hchild⟩

theorem foldl_reach {root : List Nat} (hroot : graph.Admits root) {reached : Array Bool}
    (hsize : reached.size = graph.size) :
    (root.foldl (fun reached id => reached.setIfInBounds id true) reached).size = graph.size ∧
      ∀ id, (root.foldl (fun reached id => reached.setIfInBounds id true) reached).getD id false ↔
        reached.getD id false ∨ id ∈ root := by
  induction root generalizing reached with
  | nil => simp [hsize]
  | cons child rest ih =>
      have hset : (reached.setIfInBounds child true).size = graph.size := by simpa using hsize
      obtain ⟨hfold, hrest⟩ := ih
        (fun other hother => hroot other (List.mem_cons_of_mem child hother)) hset
      have hlt : child < reached.size := hsize.symm ▸ hroot child List.mem_cons_self
      refine ⟨hfold, fun id => ?_⟩
      rw [List.foldl_cons, hrest, List.mem_cons, ← or_assoc]
      apply or_congr_left
      simp only [Array.getD_eq_getD_getElem?, Array.getElem?_setIfInBounds]
      by_cases hsame : child = id
      · subst hsame
        simp [hlt]
      · simp [hsame, Ne.symm hsame]

theorem getD_replicate {α : Type} (size id : Nat) (x : α) : (Array.replicate size x).getD id x = x := by
  rw [Array.getD_eq_getD_getElem?, Array.getElem?_replicate]
  split <;> rfl

theorem swept_start (graph : Graph) : Swept graph graph.size [] (start graph) := by
  have hblank : (Array.replicate graph.size false).size = graph.size := by simp
  obtain ⟨hsize, hreached⟩ := foldl_reach graph.root_lt hblank
  refine ⟨⟨hsize, by simp [start]⟩, List.nodup_nil, fun id => ?_, fun id => ?_, fun id => ?_⟩
  · simp only [List.not_mem_nil, false_iff, not_and]
    exact fun hle hreached => absurd hreached.lt_size (Nat.not_lt.mpr hle)
  · rw [show (start graph).isReached id ↔ _ from hreached id, getD_replicate]
    simp
  · exact getD_replicate graph.size id 0

theorem Swept.visit {id : Nat} {visited : List Nat} {census : Census}
    (swept : Swept graph (id + 1) visited census) (hid : id < graph.size) :
    ∃ grown, Swept graph id grown (census.visit graph id) := by
  have hiff := swept.isReached_iff (Nat.le_refl (id + 1))
  unfold Census.visit
  split
  · rename_i hreached
    have hchildren : graph.Admits (graph.children id) := fun child hchild =>
      Nat.lt_trans (Graph.lt_of_mem_children hchild) hid
    obtain ⟨hfits, hfold⟩ := foldl_refer swept.toFits hchildren
    have hnew : id ∉ visited := fun hmem =>
      absurd ((swept.mem_visited id).mp hmem).1 (Nat.not_succ_le_self id)
    refine ⟨id :: visited, hfits, List.nodup_cons.mpr ⟨hnew, swept.nodup⟩, fun other => ?_,
      fun other => ?_, fun other => ?_⟩
    · rw [List.mem_cons, swept.mem_visited]
      constructor
      · intro hcases
        rcases hcases with rfl | ⟨hle, hother⟩
        · exact ⟨Nat.le_refl _, hiff.mp hreached⟩
        · exact ⟨by omega, hother⟩
      · intro hboth
        obtain ⟨hle, hother⟩ := hboth
        rcases Nat.eq_or_lt_of_le hle with rfl | hlt
        · exact .inl rfl
        · exact .inr ⟨hlt, hother⟩
    · rw [(hfold other).1, swept.isReached]
      simp only [List.mem_cons, exists_eq_or_imp]
      exact or_assoc.trans (or_congr_right or_comm)
    · rw [(hfold other).2, swept.count, Graph.owed_cons, Nat.add_comm]
  · rename_i hreached
    refine ⟨visited, swept.toFits, swept.nodup, fun other => ?_, swept.isReached, swept.count⟩
    rw [swept.mem_visited]
    constructor
    · exact fun h => ⟨by omega, h.2⟩
    · intro hboth
      obtain ⟨hle, hother⟩ := hboth
      rcases Nat.eq_or_lt_of_le hle with rfl | hlt
      · exact absurd (hiff.mpr hother) hreached
      · exact ⟨hlt, hother⟩

theorem exists_swept {bound : Nat} {visited : List Nat} {census : Census}
    (swept : Swept graph bound visited census) (h : bound ≤ graph.size) :
    ∃ all, Swept graph 0 all (sweep graph bound census) := by
  induction bound generalizing visited census with
  | zero => exact ⟨visited, swept⟩
  | succ id ih =>
      obtain ⟨grown, hgrown⟩ := swept.visit h
      exact ih hgrown (Nat.le_of_succ_le h)

end Census

theorem Graph.exists_swept_census (graph : Graph) : ∃ all, Census.Swept graph 0 all graph.census :=
  Census.exists_swept (Census.swept_start graph) (Nat.le_refl _)

end Lexicon
