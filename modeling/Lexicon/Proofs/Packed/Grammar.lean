import Lexicon.Proofs.Packed.Reachable
import Lexicon.Proofs.Word

namespace Lexicon.Packed

/-! What a buffer has to be, said of its bytes, and that a run can be read if and only if it is
so. -/

namespace Grammar

/-- A complete link stands here, with its distance and its width. -/
inductive LinkAt (buffer : Buffer) (position : Nat) : Nat → Nat → Bool → Prop
  | one {lead : UInt8} {distance : Nat} {last : Bool} (first : buffer[position]? = some lead)
      (lead_eq : lead.toNat = Offset.mark last + distance) (small : distance < 0x40) :
      LinkAt buffer position distance 1 last
  | two {lead low : UInt8} {high : Nat} {last : Bool} (first : buffer[position]? = some lead)
      (second : buffer[position + 1]? = some low)
      (lead_eq : lead.toNat = Offset.mark last + (0x40 + high)) (small : high < 0x20) :
      LinkAt buffer position (high * 0x100 + low.toNat) 2 last
  | three {lead middle low : UInt8} {high : Nat} {last : Bool}
      (first : buffer[position]? = some lead) (second : buffer[position + 1]? = some middle)
      (third : buffer[position + 2]? = some low)
      (lead_eq : lead.toNat = Offset.mark last + (0x60 + high)) (small : high < 0x20) :
      LinkAt buffer position (high * 0x10000 + middle.toNat * 0x100 + low.toNat) 3 last

/-- A label begins here: printable characters, the last of them marked, or a value behind
them. -/
inductive LabelAt (buffer : Buffer) : Nat → Word → Ending → Prop
  | value {position : Nat} {byte : UInt8} (found : buffer[position]? = some byte)
      (low : 0x80 ≤ byte) (high : byte ≤ 0x9F) : LabelAt buffer position [] (.value (byte % 16))
  | endChar {position : Nat} {letter : UInt8} (found : buffer[position]? = some (0x80 + letter))
      (low : 0x20 ≤ letter) (high : letter ≤ 0x7E) :
      LabelAt buffer position [letter] (.links (position + 1))
  | char {position : Nat} {letter : UInt8} {letters : Word} {ending : Ending}
      (found : buffer[position]? = some letter) (low : 0x20 ≤ letter) (high : letter ≤ 0x7E)
      (rest : LabelAt buffer (position + 1) letters ending) :
      LabelAt buffer position (letter :: letters) ending

/-- A run goes on at `start`, with distances from `origin`. One of its links is due at
`position`, with its distance from `base`: the first one, or one behind links none of which
ends the run. -/
inductive Due (buffer : Buffer) : Nat → Nat → Nat → Nat → Prop
  | here {start origin : Nat} : Due buffer start origin start origin
  | behind {start origin distance width position base : Nat}
      (link : LinkAt buffer start distance width false)
      (due : Due buffer (start + width) (origin + distance) position base) :
      Due buffer start origin position base

/-- A link that is due there stands at `position` and leads to `target`. -/
def LinkFrom (buffer : Buffer) (start origin position target : Nat) : Prop :=
  ∃ base distance width last, Due buffer start origin position base ∧
    LinkAt buffer position distance width last ∧ target = base + distance

/-- The link that is due is complete, leads forward and not out of the buffer, and to a label. -/
inductive Sound (buffer : Buffer) (position base : Nat) : Prop
  | mk {distance width : Nat} {last : Bool} {letters : Word} {ending : Ending}
      (link : LinkAt buffer position distance width last) (forward : position < base + distance)
      (inside : base + distance < buffer.size)
      (label : LabelAt buffer (base + distance) letters ending)

/-- The runs that are met: that of the root, and those behind the labels of their links. -/
inductive Met (buffer : Buffer) : Nat → Prop
  | root : Met buffer 0
  | behind {start position target next : Nat} {letters : Word} (met : Met buffer start)
      (link : LinkFrom buffer start start position target)
      (label : LabelAt buffer target letters (.links next)) : Met buffer next

/-- All links of all runs that are met are as they have to be. -/
structure Accepts (buffer : Buffer) : Prop where
  nonempty : 0 < buffer.size
  sound : ∀ start, Met buffer start → ∀ position base,
    Due buffer start start position base → Sound buffer position base

/-! Bytes are read as the grammar has them. -/

variable {buffer : Buffer}

theorem LinkAt.read? {position distance width : Nat} {last : Bool}
    (h : LinkAt buffer position distance width last) :
    Offset.read? buffer position = some ⟨distance, width, last⟩ := by
  cases h with
  | one first lead_eq small =>
      obtain ⟨hbody, hlast⟩ := (Offset.toNat_eq_mark_add_iff (by omega)).mp lead_eq
      simp only [Offset.read?, first, Option.bind_eq_bind, Option.bind_some, hbody, hlast]
      rw [if_pos small]
  | two first second lead_eq small =>
      obtain ⟨hbody, hlast⟩ := (Offset.toNat_eq_mark_add_iff (by omega)).mp lead_eq
      simp only [Offset.read?, first, second, Option.bind_eq_bind, Option.bind_some, hbody, hlast]
      rw [if_neg (by omega), if_pos (by omega), Nat.add_sub_cancel_left]
  | three first second third lead_eq small =>
      obtain ⟨hbody, hlast⟩ := (Offset.toNat_eq_mark_add_iff (by omega)).mp lead_eq
      simp only [Offset.read?, first, second, third, Option.bind_eq_bind, Option.bind_some, hbody,
        hlast]
      rw [if_neg (by omega), if_neg (by omega), Nat.add_sub_cancel_left]

theorem linkAt_of_read? {position : Nat} {offset : Offset}
    (h : Offset.read? buffer position = some offset) :
    LinkAt buffer position offset.distance offset.width offset.last := by
  simp only [Offset.read?, Option.bind_eq_bind, Option.bind_eq_some_iff] at h
  obtain ⟨lead, hlead, h⟩ := h
  have hlast : ∀ body, lead.toNat % 0x80 = body →
      lead.toNat = Offset.mark (decide (0x80 ≤ lead.toNat)) + body := by
    rintro _ rfl
    exact (Offset.toNat_eq_mark_add_iff (Nat.mod_lt _ (by decide))).mpr ⟨rfl, rfl⟩
  split at h
  · rename_i hsmall
    cases h
    exact .one hlead (hlast _ rfl) hsmall
  · split at h <;> simp only [Option.bind_eq_some_iff] at h
    · obtain ⟨low, hlow, h⟩ := h
      cases h
      exact .two hlead hlow (hlast _ (by omega)) (by omega)
    · obtain ⟨middle, hmiddle, low, hlow, h⟩ := h
      cases h
      exact .three hlead hmiddle hlow (hlast _ (by omega)) (by omega)

theorem LinkAt.unique {position distance width otherDistance otherWidth : Nat} {last other : Bool}
    (h : LinkAt buffer position distance width last)
    (k : LinkAt buffer position otherDistance otherWidth other) :
    distance = otherDistance ∧ width = otherWidth ∧ last = other := by
  have hread := h.read?
  rw [k.read?] at hread
  cases hread
  exact ⟨rfl, rfl, rfl⟩

theorem read_eq_ok_iff {position base : Nat} {link : Link} :
    Link.read buffer position base = .ok link ↔
      ∃ distance, LinkAt buffer position distance link.width link.last ∧
        link.position = position ∧ link.target = base + distance ∧
        position < link.target ∧ link.target < buffer.size := by
  constructor
  · intro h
    rw [Link.read] at h
    split at h
    · cases h
    · rename_i offset hoffset
      simp only at h
      split at h
      · cases h
      · split at h
        · cases h
        · cases h
          exact ⟨offset.distance, linkAt_of_read? hoffset, rfl, rfl, Nat.lt_of_not_le ‹_›,
            Nat.lt_of_not_le ‹_›⟩
  · intro hexists
    obtain ⟨distance, hlink, rfl, htarget, hforward, hinside⟩ := hexists
    rw [Link.read, hlink.read?]
    simp only [← htarget]
    rw [if_neg (Nat.not_le.mpr hforward), if_neg (Nat.not_le.mpr hinside)]

/-! Each byte of a label is one of three. -/

theorem ofByte_of_lt {byte : UInt8} (h : byte < 0x80) : LabelByte.ofByte byte = .char byte :=
  LabelByte.ofByte_toByte_char h

theorem ofByte_of_value {byte : UInt8} (low : 0x80 ≤ byte) (high : byte ≤ 0x9F) :
    LabelByte.ofByte byte = .value (byte % 16) := by
  have hvalue : byte < 0xA0 := by
    rw [UInt8.le_iff_toNat_le] at high
    exact UInt8.lt_iff_toNat_lt.mpr (Nat.lt_succ_of_le high)
  have hrest : byte &&& 0x0F = byte % 16 := by
    apply UInt8.toNat_inj.mp
    rw [UInt8.toNat_and, UInt8.toNat_mod]
    exact Nat.and_two_pow_sub_one_eq_mod _ 4
  rw [LabelByte.ofByte, if_neg (UInt8.not_lt.mpr low), if_pos hvalue, hrest]

theorem exists_marked {byte : UInt8} (h : 0xA0 ≤ byte) :
    ∃ letter, byte = 0x80 + letter ∧ LabelByte.ofByte byte = .endChar letter := by
  have hbyte : 0xA0 ≤ byte.toNat := UInt8.le_iff_toNat_le.mp h
  have hlt := byte.toNat_lt
  have hrest : (byte &&& 0x7F).toNat = byte.toNat % 2 ^ 7 := by
    rw [UInt8.toNat_and]
    exact Nat.and_two_pow_sub_one_eq_mod _ 7
  refine ⟨byte &&& 0x7F, ?_, ?_⟩
  · apply UInt8.toNat_inj.mp
    rw [UInt8.toNat_add, hrest]
    change byte.toNat = (0x80 + byte.toNat % 2 ^ 7) % 256
    omega
  · have hchar : ¬ byte < 0x80 := UInt8.not_lt.mpr (UInt8.le_trans (by decide) h)
    rw [LabelByte.ofByte, if_neg hchar, if_neg (UInt8.not_lt.mpr h)]

theorem lt_of_printable {letter : UInt8} (h : letter ≤ 0x7E) : letter < 0x80 :=
  UInt8.lt_of_le_of_lt h (by decide)

theorem ofByte_of_marked {letter : UInt8} (low : 0x20 ≤ letter) (high : letter ≤ 0x7E) :
    LabelByte.ofByte (0x80 + letter) = .endChar letter := by
  have hletter := lt_of_printable high
  have hmark : 0x80 ||| letter = 0x80 + letter := by
    apply UInt8.toNat_inj.mp
    rw [LabelByte.toNat_mark hletter, UInt8.toNat_add]
    have hlt : letter.toNat < 0x80 := UInt8.lt_iff_toNat_lt.mp hletter
    exact (Nat.mod_eq_of_lt (Nat.add_lt_add_left hlt 0x80)).symm
  rw [← hmark]
  exact LabelByte.ofByte_toByte_endChar low hletter

theorem LabelAt.spells {position : Nat} {letters : Word} {ending : Ending}
    (h : LabelAt buffer position letters ending) : Spells buffer position letters ending := by
  induction h with
  | value found low high => exact .value found (ofByte_of_value low high)
  | endChar found low high =>
      exact .endChar found (ofByte_of_marked low high) (isPrintable_iff.mpr ⟨low, high⟩)
  | char found low high _ ih =>
      exact .char found (ofByte_of_lt (lt_of_printable high)) (isPrintable_iff.mpr ⟨low, high⟩) ih

theorem ofByte_cases (byte : UInt8) :
    LabelByte.ofByte byte = .char byte ∨
      (0x80 ≤ byte ∧ byte ≤ 0x9F ∧ LabelByte.ofByte byte = .value (byte % 16)) ∨
      ∃ letter, byte = 0x80 + letter ∧ LabelByte.ofByte byte = .endChar letter := by
  by_cases hchar : byte < 0x80
  · exact .inl (ofByte_of_lt hchar)
  · have hlow := UInt8.not_lt.mp hchar
    by_cases hvalue : byte ≤ 0x9F
    · exact .inr (.inl ⟨hlow, hvalue, ofByte_of_value hlow hvalue⟩)
    · have hmarked : 0xA0 ≤ byte := by
        rw [UInt8.le_iff_toNat_le] at hvalue ⊢
        exact Nat.lt_of_not_le hvalue
      exact .inr (.inr (exists_marked hmarked))

theorem labelAt_of_spells {position : Nat} {letters : Word} {ending : Ending}
    (h : Spells buffer position letters ending) : LabelAt buffer position letters ending := by
  induction h with
  | @value position byte v found byte_eq =>
      rcases ofByte_cases byte with hchar | ⟨hlow, hhigh, hvalue⟩ | ⟨letter, _, hmarked⟩
      · cases hchar.symm.trans byte_eq
      · cases hvalue.symm.trans byte_eq
        exact .value found hlow hhigh
      · cases hmarked.symm.trans byte_eq
  | @endChar position byte letter found byte_eq printable =>
      obtain ⟨hlow, hhigh⟩ := isPrintable_iff.mp printable
      rcases ofByte_cases byte with hchar | ⟨_, _, hvalue⟩ | ⟨other, rfl, hmarked⟩
      · cases hchar.symm.trans byte_eq
      · cases hvalue.symm.trans byte_eq
      · cases hmarked.symm.trans byte_eq
        exact .endChar found hlow hhigh
  | @char position byte letter letters ending found byte_eq printable _ ih =>
      obtain ⟨hlow, hhigh⟩ := isPrintable_iff.mp printable
      rcases ofByte_cases byte with hchar | ⟨_, _, hvalue⟩ | ⟨other, _, hmarked⟩
      · cases hchar.symm.trans byte_eq
        exact .char found hlow hhigh ih
      · cases hvalue.symm.trans byte_eq
      · cases hmarked.symm.trans byte_eq

/-! A run can be read if and only if all of its links that are due are as they have to be, and
then it has these links. -/

theorem sound_iff {position base : Nat} :
    Sound buffer position base ↔ ∃ link, Link.read buffer position base = .ok link ∧
      ∃ letters ending, Spells buffer link.target letters ending := by
  constructor
  · intro h
    cases h with
    | @mk distance width last letters ending link forward inside label =>
        exact ⟨⟨position, base + distance, width, last⟩,
          read_eq_ok_iff.mpr ⟨distance, link, rfl, rfl, forward, inside⟩, letters, ending,
          label.spells⟩
  · intro hexists
    obtain ⟨link, hread, letters, ending, hspells⟩ := hexists
    obtain ⟨distance, hlink, _, htarget, hforward, hinside⟩ := read_eq_ok_iff.mp hread
    rw [htarget] at hforward hinside hspells
    exact .mk hlink hforward hinside (labelAt_of_spells hspells)

theorem due_iff {start origin position base : Nat} {link : Link}
    (read : Link.read buffer start origin = .ok link) :
    Due buffer start origin position base ↔ (position = start ∧ base = origin) ∨
      (link.last = false ∧ Due buffer (start + link.width) link.target position base) := by
  obtain ⟨distance, hlink, _, htarget, _⟩ := read_eq_ok_iff.mp read
  rw [htarget]
  constructor
  · intro due
    cases due with
    | here => exact .inl ⟨rfl, rfl⟩
    | behind other due =>
        obtain ⟨rfl, rfl, hlast⟩ := hlink.unique other
        exact .inr ⟨hlast, due⟩
  · intro hcases
    rcases hcases with ⟨rfl, rfl⟩ | ⟨hlast, due⟩
    · exact .here
    · exact .behind (hlast ▸ hlink) due

variable {start origin : Nat} {run : Run}

theorem reads_sound_iff (reads : Run.Reads buffer start origin run) :
    (run.error = none ∧
      ∀ link ∈ run.links, ∃ letters ending, Spells buffer link.target letters ending) ↔
      ∀ position base, Due buffer start origin position base → Sound buffer position base := by
  induction reads with
  | @fault start origin error read =>
      refine ⟨fun h => absurd h.1 nofun, fun sound => ?_⟩
      obtain ⟨link, hlink, _⟩ := sound_iff.mp (sound start origin .here)
      cases read.symm.trans hlink
  | @last start origin link read last =>
      rw [List.forall_mem_singleton]
      constructor
      · intro h position base due
        rcases (due_iff read).mp due with ⟨rfl, rfl⟩ | ⟨hlast, _⟩
        · exact sound_iff.mpr ⟨link, read, h.2⟩
        · cases last.symm.trans hlast
      · intro sound
        obtain ⟨other, hother, hlabel⟩ := sound_iff.mp (sound start origin .here)
        cases read.symm.trans hother
        exact ⟨rfl, hlabel⟩
  | @more start origin link links error read last behind ih =>
      rw [List.forall_mem_cons]
      constructor
      · intro h position base due
        obtain ⟨hcomplete, hlabel, hlabels⟩ := h
        rcases (due_iff read).mp due with ⟨rfl, rfl⟩ | ⟨_, due⟩
        · exact sound_iff.mpr ⟨link, read, hlabel⟩
        · exact ih.mp ⟨hcomplete, hlabels⟩ position base due
      · intro sound
        obtain ⟨other, hother, hlabel⟩ := sound_iff.mp (sound start origin .here)
        cases read.symm.trans hother
        obtain ⟨hcomplete, hlabels⟩ := ih.mpr fun position base due =>
          sound position base ((due_iff read).mpr (.inr ⟨last, due⟩))
        exact ⟨hcomplete, hlabel, hlabels⟩

theorem linkFrom_iff {link : Link} (read : Link.read buffer start origin = .ok link)
    {position target : Nat} : LinkFrom buffer start origin position target ↔
      (link.position = position ∧ link.target = target) ∨
        (link.last = false ∧ LinkFrom buffer (start + link.width) link.target position target) := by
  obtain ⟨distance, hlink, hposition, htarget, _⟩ := read_eq_ok_iff.mp read
  constructor
  · intro h
    obtain ⟨base, other, width, last, due, hother, rfl⟩ := h
    rcases (due_iff read).mp due with ⟨rfl, rfl⟩ | ⟨hlast, due⟩
    · obtain ⟨rfl, _⟩ := hlink.unique hother
      exact .inl ⟨hposition, htarget⟩
    · exact .inr ⟨hlast, base, other, width, last, due, hother, rfl⟩
  · intro h
    rcases h with ⟨rfl, rfl⟩ | ⟨hlast, base, other, width, last, due, hother, rfl⟩
    · rw [hposition]
      exact ⟨origin, distance, link.width, link.last, .here, hlink, htarget⟩
    · exact ⟨base, other, width, last, (due_iff read).mpr (.inr ⟨hlast, due⟩), hother, rfl⟩

theorem reads_links_iff (reads : Run.Reads buffer start origin run) (complete : run.error = none)
    {position target : Nat} : LinkFrom buffer start origin position target ↔
      ∃ link ∈ run.links, link.position = position ∧ link.target = target := by
  induction reads with
  | fault => cases complete
  | last read last => rw [linkFrom_iff read]; simp [last]
  | more read last behind ih => rw [linkFrom_iff read, ih complete]; simp [last]

theorem exists_branches_iff : (∃ found, branches buffer start = .ok found) ↔
    ∀ position base, Due buffer start start position base → Sound buffer position base := by
  rw [← reads_sound_iff (Run.reads_read buffer start)]
  constructor
  · intro h
    obtain ⟨found, read⟩ := h
    refine ⟨(branches_eq_ok_iff.mp read).1, fun link hlink => ?_⟩
    obtain ⟨branch, hbranch, rfl⟩ := (mem_links_iff read).mp hlink
    exact ⟨_, _, isRead_of_mem read hbranch⟩
  · exact fun h => exists_branches h.1 h.2

theorem linkFrom_iff_exists_branch {found : List Branch} (read : branches buffer start = .ok found)
    {position target : Nat} : LinkFrom buffer start start position target ↔
      ∃ branch ∈ found, branch.link.position = position ∧ branch.link.target = target := by
  obtain ⟨complete, hlinks, _⟩ := branches_eq_ok_iff.mp read
  rw [reads_links_iff (Run.reads_read buffer start) complete, ← hlinks]
  simp

end Grammar

end Lexicon.Packed
