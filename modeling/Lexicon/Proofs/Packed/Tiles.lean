import Lexicon.Packed.Run

namespace Lexicon.Packed

/-! The links of a run, in whatever buffer it is read, stand one behind the other and lead
ever further. -/

/-- Links without gaps between them, from one position up to another. -/
def Tiles : Nat → List Link → Nat → Prop
  | start, [], stop => start = stop
  | start, link :: rest, stop =>
      link.position = start ∧ 0 < link.width ∧ Tiles (start + link.width) rest stop

/-- A link takes this byte. -/
def Link.Takes (link : Link) (position : Nat) : Prop :=
  link.position ≤ position ∧ position < link.position + link.width

namespace Tiles

theorem le {start stop : Nat} {links : List Link} (h : Tiles start links stop) : start ≤ stop := by
  induction links generalizing start with
  | nil => exact Nat.le_of_eq h
  | cons link rest ih =>
      obtain ⟨_, _, hrest⟩ := h
      have := ih hrest
      omega

theorem bounds {start stop : Nat} {links : List Link} (h : Tiles start links stop) :
    ∀ link ∈ links, start ≤ link.position ∧ 0 < link.width ∧
      link.position + link.width ≤ stop := by
  induction links generalizing start with
  | nil => exact nofun
  | cons link rest ih =>
      obtain ⟨hposition, hwidth, hrest⟩ := h
      have hle := hrest.le
      intro other hother
      rcases List.mem_cons.mp hother with rfl | hother
      · omega
      · have := ih hrest other hother
        omega

theorem pairwise {start stop : Nat} {links : List Link} (h : Tiles start links stop) :
    links.Pairwise fun left right => left.position + left.width ≤ right.position := by
  induction links generalizing start with
  | nil => exact .nil
  | cons link rest ih =>
      obtain ⟨hposition, _, hrest⟩ := h
      refine .cons (fun other hother => ?_) (ih hrest)
      have := hrest.bounds other hother
      omega

theorem exists_takes {start stop position : Nat} {links : List Link} (h : Tiles start links stop)
    (hstart : start ≤ position) (hstop : position < stop) : ∃ link ∈ links, link.Takes position := by
  induction links generalizing start with
  | nil =>
      have hnone : start = stop := h
      omega
  | cons link rest ih =>
      obtain ⟨hposition, _, hrest⟩ := h
      by_cases hfirst : position < start + link.width
      · exact ⟨link, List.mem_cons_self, by unfold Link.Takes; omega⟩
      · obtain ⟨other, hother, htakes⟩ := ih hrest (Nat.le_of_not_lt hfirst)
        exact ⟨other, List.mem_cons_of_mem _ hother, htakes⟩

end Tiles

theorem Link.base_le_target {buffer : Buffer} {position base : Nat} {link : Link}
    (h : read buffer position base = .ok link) : base ≤ link.target := by
  unfold read at h
  split at h
  · cases h
  · simp only at h
    split at h
    · cases h
    · split at h
      · cases h
      · cases h
        exact Nat.le_add_right _ _

namespace Run

/-- What reading a run from a position on can come to. -/
inductive Reads (buffer : Buffer) : Nat → Nat → Run → Prop
  | fault {position base : Nat} {error : DecodeError}
      (read : Link.read buffer position base = .error error) :
      Reads buffer position base ⟨[], some error⟩
  | last {position base : Nat} {link : Link} (read : Link.read buffer position base = .ok link)
      (last : link.last = true) : Reads buffer position base ⟨[link], none⟩
  | more {position base : Nat} {link : Link} {links : List Link} {error : Option DecodeError}
      (read : Link.read buffer position base = .ok link) (last : link.last = false)
      (behind : Reads buffer (position + link.width) link.target ⟨links, error⟩) :
      Reads buffer position base ⟨link :: links, error⟩

theorem collect_of_none {buffer : Buffer} {cursor : Cursor} (h : cursor.position = none)
    (before : List Link) : collect buffer cursor before = ⟨before.reverse, none⟩ := by
  have hnext : cursor.next buffer = (none, cursor) := by
    simp only [Cursor.next, h]
  rw [collect]
  split <;> simp_all

theorem exists_reads {buffer : Buffer} {cursor : Cursor} {position : Nat}
    (h : cursor.position = some position) (before : List Link) :
    ∃ run, Reads buffer position cursor.base run ∧
      collect buffer cursor before = ⟨before.reverse ++ run.links, run.error⟩ := by
  fun_induction collect buffer cursor before generalizing position with
  | case1 cursor before after hnext =>
      simp only [Cursor.next, h] at hnext
      split at hnext <;> cases hnext
  | case2 cursor before error after hnext =>
      simp only [Cursor.next, h] at hnext
      split at hnext
      · rename_i hread
        cases hnext
        exact ⟨_, .fault hread, by rw [List.append_nil]⟩
      · cases hnext
  | case3 cursor before link after hnext _ ih =>
      simp only [Cursor.next, h] at hnext
      split at hnext
      · cases hnext
      · rename_i hread
        cases hnext
        cases hlast : link.last with
        | true =>
            refine ⟨_, .last hread hlast, ?_⟩
            rw [collect_of_none (by simp), List.reverse_cons]
        | false =>
            have hnext : (if link.last then none else some (position + link.width)) =
                some (position + link.width) := by
              rw [hlast]
              rfl
            obtain ⟨run, hrun, hcollect⟩ := ih hnext
            refine ⟨_, .more hread hlast hrun, ?_⟩
            rw [hlast] at hcollect
            rw [hcollect, List.reverse_cons, List.append_assoc, List.singleton_append]

theorem reads_read (buffer : Buffer) (start : Nat) :
    Reads buffer start start (read buffer start) := by
  obtain ⟨run, hrun, hcollect⟩ := @exists_reads buffer (.start start) start rfl []
  rw [read, hcollect]
  exact hrun

variable {buffer : Buffer} {position base : Nat} {run : Run}

theorem Reads.exists_tiles (h : Reads buffer position base run) :
    ∃ stop, Tiles position run.links stop ∧ (run.links ≠ [] → stop ≤ buffer.size) := by
  induction h with
  | @fault position => exact ⟨position, rfl, fun h => absurd rfl h⟩
  | last read last =>
      obtain ⟨hposition, hwidth, hfits, _⟩ := Link.read_bounds read
      exact ⟨_, ⟨hposition, hwidth, rfl⟩, fun _ => hfits⟩
  | @more position base link links error read last behind ih =>
      obtain ⟨hposition, hwidth, hfits, _⟩ := Link.read_bounds read
      obtain ⟨stop, htiles, hstop⟩ := ih
      refine ⟨stop, ⟨hposition, hwidth, htiles⟩, fun _ => ?_⟩
      by_cases hnil : links = []
      · subst hnil
        exact Nat.le_trans (Nat.le_of_eq htiles.symm) hfits
      · exact hstop hnil

/-- No link leads less far than the one before it. -/
theorem Reads.targets (h : Reads buffer position base run) :
    (∀ link ∈ run.links, base ≤ link.target) ∧
      run.links.Pairwise fun left right => left.target ≤ right.target := by
  induction h with
  | fault => exact ⟨nofun, .nil⟩
  | last read last =>
      exact ⟨List.forall_mem_singleton.mpr (Link.base_le_target read), List.pairwise_singleton _ _⟩
  | more read last behind ih =>
      obtain ⟨hbase, hpairwise⟩ := ih
      refine ⟨List.forall_mem_cons.mpr ⟨Link.base_le_target read, fun link hlink => ?_⟩,
        .cons hbase hpairwise⟩
      exact Nat.le_trans (Link.base_le_target read) (hbase link hlink)

theorem Reads.links_ne_nil (h : Reads buffer position base run) (complete : run.error = none) :
    run.links ≠ [] := by
  cases h with
  | fault => cases complete
  | last => exact List.cons_ne_nil _ _
  | more => exact List.cons_ne_nil _ _

theorem exists_first {start : Nat} (complete : (read buffer start).error = none) :
    ∃ link ∈ (read buffer start).links, link.Takes start := by
  have hreads := reads_read buffer start
  have hne := hreads.links_ne_nil complete
  obtain ⟨stop, htiles, _⟩ := hreads.exists_tiles
  cases hlinks : (read buffer start).links with
  | nil => exact absurd hlinks hne
  | cons link rest =>
      rw [hlinks] at htiles
      obtain ⟨hposition, hwidth, _⟩ := htiles
      exact ⟨link, List.mem_cons_self, by unfold Link.Takes; omega⟩

end Run

end Lexicon.Packed
