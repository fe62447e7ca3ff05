import Lexicon.Proofs.Packed.Reachable

namespace Lexicon.Packed

/-! The fault that a walk over all runs meets first. -/

variable {buffer : Buffer}

theorem nextStarts_bounds {start next : Nat} {found : List Branch}
    (read : branches buffer start = .ok found) (h : next ∈ nextStarts found) :
    start < next ∧ next ≤ buffer.size := by
  obtain ⟨branch, hbranch, hnext⟩ := mem_nextStarts.mp h
  exact branches_start read hbranch hnext

/-- The fault of a run, or else the first one behind its branches, the last branch first. -/
def fault (buffer : Buffer) (start : Nat) : Option DecodeError :=
  match h : branches buffer start with
  | .error error => some error
  | .ok found =>
      (nextStarts found).attach.findSome? fun ⟨next, hnext⟩ =>
        have := nextStarts_bounds h hnext
        fault buffer next
termination_by buffer.size - start

theorem fault_of_error {start : Nat} {error : DecodeError}
    (h : branches buffer start = .error error) : fault buffer start = some error := by
  rw [fault]
  split
  · rename_i other hother
    cases hother.symm.trans h
    rfl
  · rename_i found hfound
    cases hfound.symm.trans h

theorem fault_eq {start : Nat} {found : List Branch} (read : branches buffer start = .ok found) :
    fault buffer start = (nextStarts found).findSome? (fault buffer) := by
  rw [fault]
  split
  · rename_i error herror
    cases herror.symm.trans read
  · rename_i others hothers
    cases hothers.symm.trans read
    have hattach : (nextStarts found).attach.findSome? (fun next => fault buffer next.1) =
        (nextStarts found).findSome? (fault buffer) := by
      conv_rhs => rw [← List.attach_map_subtype_val (nextStarts found), List.findSome?_map]
      rfl
    exact hattach

/-- The list of entries fails with the first fault behind the runs that wait. -/
theorem collectEntries_eq_error_iff {waiting : List (Nat × Word)} {before : List Entry}
    {error : DecodeError} :
    collectEntries buffer waiting before = .error error ↔
      (waiting.map Prod.fst).findSome? (fault buffer) = some error := by
  fun_induction collectEntries buffer waiting before with
  | case1 => simp
  | case2 before start trail rest other hother =>
      rw [List.map_cons, List.findSome?_cons, fault_of_error hother]
      simp
  | case3 before start trail rest found read _ ih =>
      rw [ih, List.map_append, map_fst_nextTrails, List.findSome?_append, List.map_cons,
        List.findSome?_cons, fault_eq read]
      cases (nextStarts found).findSome? (fault buffer) <;> rfl

theorem entries_eq_error_iff {error : DecodeError} :
    entries buffer = .error error ↔
      if buffer.isEmpty then error = .empty else fault buffer 0 = some error := by
  rw [entries]
  split
  · simp [eq_comm]
  · have hfault : [0].findSome? (fault buffer) = fault buffer 0 := by
      cases h : fault buffer 0 <;> simp [h]
    have hcollect : collectEntries buffer [(0, [])] [] = .error error ↔
        [0].findSome? (fault buffer) = some error := collectEntries_eq_error_iff
    rw [← hfault, ← hcollect]
    cases collectEntries buffer [(0, [])] [] <;> simp [Except.map]

/-! A walk that comes to a run again passes over it. This loses no fault, since all behind
the run has been visited by then: runs lead to later runs only, and the last one that is
found is the next one to be visited. -/

/-- These runs are the next ones to be visited, and stand behind the bound. -/
structure OnTop (waiting : List Nat) (bound : Nat) (above : List Nat) : Prop where
  isPrefix : above <+: waiting
  lt : ∀ next ∈ above, bound < next

namespace OnTop

theorem nil (waiting : List Nat) (bound : Nat) : OnTop waiting bound [] :=
  ⟨List.nil_prefix, nofun⟩

theorem eq_nil {start bound : Nat} {rest above : List Nat}
    (h : OnTop (start :: rest) bound above) (hle : start ≤ bound) : above = [] := by
  cases habove : above with
  | nil => rfl
  | cons first others =>
      have hinitial := h.isPrefix
      rw [habove, List.cons_prefix_cons] at hinitial
      have := h.lt first (by rw [habove]; exact List.mem_cons_self)
      omega

theorem step {start bound : Nat} {rest above nexts : List Nat}
    (h : OnTop (start :: rest) bound above) (behind : ∀ next ∈ nexts, start < next) :
    above = [] ∨ ∃ others, above = start :: others ∧ OnTop (nexts ++ rest) bound (nexts ++ others) := by
  cases habove : above with
  | nil => exact .inl rfl
  | cons first others =>
      obtain ⟨hinitial, hlt⟩ := h
      rw [habove, List.cons_prefix_cons] at hinitial
      obtain ⟨rfl, hothers⟩ := hinitial
      rw [habove, List.forall_mem_cons] at hlt
      obtain ⟨hfirst, hlt⟩ := hlt
      refine .inr ⟨others, rfl, (List.prefix_append_right_inj nexts).mpr hothers, ?_⟩
      intro next hnext
      rcases List.mem_append.mp hnext with hnext | hnext
      · exact Nat.lt_trans hfirst (behind next hnext)
      · exact hlt next hnext

end OnTop

/-- What is left to visit behind a run is all on top. -/
def Tracked (buffer : Buffer) (waiting : List Nat) (start : Nat) : Prop :=
  ∃ above, OnTop waiting start above ∧ fault buffer start = above.findSome? (fault buffer)

/-- The run is still to be visited, and soon enough. -/
def Awaited (waiting : List Nat) (bound next : Nat) : Prop :=
  ∃ above, OnTop waiting bound above ∧ next ∈ above

namespace Tracked

variable {start other : Nat} {rest nexts : List Nat}

theorem fault_eq_none (h : Tracked buffer (start :: rest) other) (hle : start ≤ other) :
    fault buffer other = none := by
  obtain ⟨above, honTop, hfault⟩ := h
  rw [hfault, honTop.eq_nil hle]
  rfl

theorem of_fault_eq_none (h : fault buffer other = none) (waiting : List Nat) :
    Tracked buffer waiting other :=
  ⟨[], .nil _ _, h⟩

theorem step (h : Tracked buffer (start :: rest) other) (behind : ∀ next ∈ nexts, start < next)
    (same : nexts.findSome? (fault buffer) = fault buffer start) :
    Tracked buffer (nexts ++ rest) other := by
  obtain ⟨above, honTop, hfault⟩ := h
  rcases honTop.step behind with rfl | ⟨others, rfl, hnext⟩
  · exact of_fault_eq_none hfault _
  · refine ⟨nexts ++ others, hnext, ?_⟩
    rw [hfault, List.findSome?_append, same, List.findSome?_cons]
    cases fault buffer start <;> rfl

theorem self (behind : ∀ next ∈ nexts, start < next)
    (same : nexts.findSome? (fault buffer) = fault buffer start) :
    Tracked buffer (nexts ++ rest) start :=
  ⟨nexts, ⟨List.prefix_append _ _, behind⟩, same.symm⟩

end Tracked

namespace Awaited

variable {start bound next : Nat} {rest nexts : List Nat}

theorem lt (h : Awaited (start :: rest) bound next) : bound < start := by
  obtain ⟨above, honTop, hnext⟩ := h
  by_contra hle
  rw [honTop.eq_nil (Nat.le_of_not_lt hle)] at hnext
  cases hnext

theorem step (h : Awaited (start :: rest) bound next) (behind : ∀ next ∈ nexts, start < next) :
    next = start ∨ Awaited (nexts ++ rest) bound next := by
  obtain ⟨above, honTop, hnext⟩ := h
  rcases honTop.step behind with rfl | ⟨others, rfl, hlater⟩
  · cases hnext
  · rcases List.mem_cons.mp hnext with rfl | hnext
    · exact .inl rfl
    · exact .inr ⟨_, hlater, List.mem_append_right _ hnext⟩

theorem push (h : Awaited rest bound next) (behind : ∀ next ∈ nexts, bound < next) :
    Awaited (nexts ++ rest) bound next := by
  obtain ⟨above, ⟨hinitial, hlt⟩, hnext⟩ := h
  refine ⟨nexts ++ above, ⟨(List.prefix_append_right_inj nexts).mpr hinitial, ?_⟩,
    List.mem_append_right _ hnext⟩
  exact List.forall_mem_append.mpr ⟨behind, hlt⟩

theorem append (h : Awaited nexts bound next) : Awaited (nexts ++ rest) bound next := by
  obtain ⟨above, ⟨hinitial, hlt⟩, hnext⟩ := h
  exact ⟨above, ⟨hinitial.trans (List.prefix_append _ _), hlt⟩, hnext⟩

end Awaited

end Lexicon.Packed
