import Lexicon.CommandLine.Run
import Lexicon.Proofs.CArray
import Lexicon.Proofs.Files
import Lexicon.Proofs.RoundTrip

namespace Lexicon

/-! From the file that a command line names to the file that the command leaves. -/

theorem Text.fromUTF8?_bytes (text : String) :
    String.fromUTF8? ⟨(Text.bytes text).toArray⟩ = some text := by
  have hbytes : (⟨(Text.bytes text).toArray⟩ : ByteArray) = text.toByteArray := by
    rw [← String.utf8Encode_toList, List.utf8Encode]
    apply ByteArray.ext
    simp [Text.bytes]
  rw [hbytes, String.fromUTF8?, dif_pos text.isValidUTF8]
  rfl

namespace CommandLine

variable {rounds : Nat} {content : Except FileError (List UInt8)} {written : List UInt8}
variable {text : String} {list : WordList} {bytes : Packed.Buffer} {error : CompileError}

/-- The steps from what a file holds to packed bytes, when each of them succeeds. -/
structure Packs (rounds : Nat) (written : List UInt8) (text : String) (list : WordList)
    (bytes : Packed.Buffer) : Prop where
  decoded : String.fromUTF8? ⟨written.toArray⟩ = some text
  parsed : WordList.parse WordList.defaultAllowed text = .ok list
  packed : ∃ dictionary, Dictionary.ofEntries list.entries = .ok dictionary ∧
    Packed.encode dictionary.graph rounds = .ok bytes

/-- The first step that does not succeed, and the error that is told of it. -/
inductive Fails (rounds : Nat) : Except FileError (List UInt8) → CompileError → Prop where
  | unread (error : FileError) : Fails rounds (.error error) (.file error)
  | undecoded {written : List UInt8} (decoded : String.fromUTF8? ⟨written.toArray⟩ = none) :
      Fails rounds (.ok written) (.file .invalidText)
  | unparsed {written : List UInt8} {text : String} {error : FormatError}
      (decoded : String.fromUTF8? ⟨written.toArray⟩ = some text)
      (parsed : WordList.parse WordList.defaultAllowed text = .error error) :
      Fails rounds (.ok written) (.format error)
  | refused {written : List UInt8} {text : String} {list : WordList} {error : EntryError}
      (decoded : String.fromUTF8? ⟨written.toArray⟩ = some text)
      (parsed : WordList.parse WordList.defaultAllowed text = .ok list)
      (built : Dictionary.ofEntries list.entries = .error error) :
      Fails rounds (.ok written) (.entry error)
  | unpacked {written : List UInt8} {text : String} {list : WordList} {dictionary : Dictionary}
      {error : Packed.EncodeError}
      (decoded : String.fromUTF8? ⟨written.toArray⟩ = some text)
      (parsed : WordList.parse WordList.defaultAllowed text = .ok list)
      (built : Dictionary.ofEntries list.entries = .ok dictionary)
      (packed : Packed.encode dictionary.graph rounds = .error error) :
      Fails rounds (.ok written) (.encode error)

theorem fails_or_packs (rounds : Nat) (content : Except FileError (List UInt8)) :
    (∃ error, Fails rounds content error) ∨
      ∃ written text list bytes, content = .ok written ∧ Packs rounds written text list bytes := by
  cases content with
  | error error => exact .inl ⟨_, .unread error⟩
  | ok written =>
      cases decoded : String.fromUTF8? ⟨written.toArray⟩ with
      | none => exact .inl ⟨_, .undecoded decoded⟩
      | some text =>
          cases parsed : WordList.parse WordList.defaultAllowed text with
          | error error => exact .inl ⟨_, .unparsed decoded parsed⟩
          | ok list =>
              cases built : Dictionary.ofEntries list.entries with
              | error error => exact .inl ⟨_, .refused decoded parsed built⟩
              | ok dictionary =>
                  cases packed : Packed.encode dictionary.graph rounds with
                  | error error => exact .inl ⟨_, .unpacked decoded parsed built packed⟩
                  | ok bytes =>
                      exact .inr ⟨_, _, _, _, rfl, decoded, parsed, dictionary, built, packed⟩

theorem packEntries_eq_ok_iff {entries : List Entry} :
    packEntries rounds entries = .ok bytes ↔
      ∃ dictionary, Dictionary.ofEntries entries = .ok dictionary ∧
        Packed.encode dictionary.graph rounds = .ok bytes := by
  rw [packEntries, Packed.bind_eq_ok]
  exact exists_congr fun dictionary => and_congr mapError_eq_ok_iff mapError_eq_ok_iff

/-- With the rounds that are the default, these are the steps that a text goes through. -/
theorem compile_eq_ok_iff (decoded : String.fromUTF8? ⟨written.toArray⟩ = some text) :
    compile text = .ok bytes ↔ ∃ list, Packs Packed.defaultRounds written text list bytes := by
  rw [compile, Packed.bind_eq_ok]
  constructor
  · intro h
    obtain ⟨list, parsed, packed⟩ := h
    exact ⟨list, decoded, mapError_eq_ok_iff.mp parsed, packEntries_eq_ok_iff.mp packed⟩
  · intro h
    obtain ⟨list, packs⟩ := h
    exact ⟨list, mapError_eq_ok_iff.mpr packs.parsed, packEntries_eq_ok_iff.mpr packs.packed⟩

theorem Packs.entries (packs : Packs rounds written text list bytes) :
    Packed.entries bytes = .ok (Entry.sort list.entries) := by
  obtain ⟨dictionary, built, packed⟩ := packs.packed
  exact Dictionary.entries_eq_sort built packed

/-- A file is the packed bytes, or a text whose array, read back, is these bytes. -/
def Carries (binary : Bool) (written : List UInt8) (bytes : Packed.Buffer) : Prop :=
  if binary then
    written = bytes.toList
  else
    ∃ text declared, String.fromUTF8? ⟨written.toArray⟩ = some text ∧
      CArray.read text.toList = some declared ∧ declared.size = bytes.size ∧
      declared.rows.flatten = bytes.toList

theorem carries_output (binary : Bool) (bytes : Packed.Buffer) (preamble : Option String) :
    Carries binary (if binary then bytes.toList else Text.bytes (CArray.text bytes preamble))
      bytes := by
  cases binary with
  | true => exact rfl
  | false =>
      exact ⟨_, _, Text.fromUTF8?_bytes _, CArray.read_text bytes preamble, rfl,
        CArray.flatten_rows _⟩

theorem ofFile_ok (allowed written : List UInt8) :
    WordList.ofFile allowed (.ok written) =
      match String.fromUTF8? ⟨written.toArray⟩ with
      | none => .error (.file .invalidText)
      | some text => (WordList.parse allowed text).mapError .format :=
  rfl

namespace Options

variable {options : Options} {files : Files}

theorem output_of_packs (packs : Packs options.rounds written text list bytes) :
    options.output (.ok written) =
      .ok (if options.binary then bytes.toList
        else Text.bytes (CArray.text bytes (some list.preamble))) := by
  have hpacked := packEntries_eq_ok_iff.mpr packs.packed
  simp only [output, ofFile_ok, packs.decoded, packs.parsed, Except.mapError, ok_bind, hpacked]
  rfl

theorem output_of_fails (fails : Fails options.rounds content error) :
    options.output content = .error error := by
  cases fails with
  | unread error => rfl
  | undecoded decoded =>
      simp only [output, ofFile_ok, decoded]
      rfl
  | unparsed decoded parsed =>
      simp only [output, ofFile_ok, decoded, parsed]
      rfl
  | refused decoded parsed built =>
      simp only [output, ofFile_ok, decoded, parsed, packEntries, built, Except.mapError, ok_bind]
      rfl
  | unpacked decoded parsed built packed =>
      simp only [output, ofFile_ok, decoded, parsed, packEntries, built, packed, Except.mapError,
        ok_bind]
      rfl

theorem run_of_fails (fails : Fails options.rounds (files.read options.infile) error) :
    options.run files = (.failure error, files) := by
  rw [run, output_of_fails fails]

/-- What the output file held before, or whether there was one, does not matter. -/
theorem run_of_packs (writable : ∃ place, files.Writes options.outfile place)
    (hread : files.read options.infile = .ok written)
    (packs : Packs options.rounds written text list bytes) :
    (options.run files).1.code = 0 ∧
      ∃ content, (options.run files).2.read options.outfile = .ok content ∧
        Carries options.binary content bytes := by
  obtain ⟨place, writes⟩ := writable
  have hwrite (content : List UInt8) :
      files.write options.outfile content = .ok (files.set place content) :=
    Files.write_eq_ok_iff.mpr ⟨place, writes, rfl⟩
  rw [run, hread, output_of_packs packs]
  simp only [hwrite]
  exact ⟨rfl, _, Files.read_of_write (hwrite _), carries_output _ _ (some list.preamble)⟩

theorem packs_of_code_eq_zero (h : (options.run files).1.code = 0) :
    ∃ written text list bytes, files.read options.infile = .ok written ∧
      Packs options.rounds written text list bytes := by
  rcases fails_or_packs options.rounds (files.read options.infile) with fails | packs
  · obtain ⟨error, fails⟩ := fails
    rw [run_of_fails fails] at h
    cases h
  · exact packs

end Options

/-- With whichever options, a command that ends well leaves the words of its input file, packed or
as an array of the same bytes; one that does not leaves all files as they were. -/
theorem run_end_to_end {options : Options} {files : Files}
    (writable : ∃ place, files.Writes options.outfile place) :
    ((options.run files).1.code = 0 →
      ∃ written text list content bytes,
        files.read options.infile = .ok written ∧
        String.fromUTF8? ⟨written.toArray⟩ = some text ∧
        WordList.parse WordList.defaultAllowed text = .ok list ∧
        Packed.entries bytes = .ok (Entry.sort list.entries) ∧
        (options.run files).2.read options.outfile = .ok content ∧
        Carries options.binary content bytes ∧
        ∀ (other : Options) (others : Files), other.binary → other.rounds = options.rounds →
          others.read other.infile = .ok written →
          (∃ place, others.Writes other.outfile place) →
          (other.run others).1.code = 0 ∧
            (other.run others).2.read other.outfile = .ok bytes.toList) ∧
    (∀ error, Fails options.rounds (files.read options.infile) error →
      options.run files = (.failure error, files) ∧ (options.run files).1.code = 1) ∧
    (options.rounds = 8 → ∀ written text, files.read options.infile = .ok written →
      String.fromUTF8? ⟨written.toArray⟩ = some text →
      ((options.run files).1.code = 0 ↔ ∃ bytes, compile text = .ok bytes) ∧
      ∀ bytes, compile text = .ok bytes → ∃ content,
        (options.run files).2.read options.outfile = .ok content ∧
        Carries options.binary content bytes) := by
  refine ⟨fun hcode => ?_, fun error fails => ?_, fun hrounds written text hread decoded => ?_⟩
  · obtain ⟨written, text, list, bytes, hread, packs⟩ := Options.packs_of_code_eq_zero hcode
    obtain ⟨_, content, hcontent, carries⟩ := Options.run_of_packs writable hread packs
    refine ⟨written, text, list, content, bytes, hread, packs.decoded, packs.parsed, packs.entries,
      hcontent, carries, fun other others hbinary hrounds hother hwritable => ?_⟩
    rw [← hrounds] at packs
    obtain ⟨hcode, content, hcontent, carries⟩ := Options.run_of_packs hwritable hother packs
    rw [hbinary] at carries
    cases carries
    exact ⟨hcode, hcontent⟩
  · rw [Options.run_of_fails fails]
    exact ⟨rfl, rfl⟩
  · have hpacks {bytes : Packed.Buffer} :
        compile text = .ok bytes ↔ ∃ list, Packs options.rounds written text list bytes := by
      rw [compile_eq_ok_iff decoded, hrounds]
      rfl
    refine ⟨⟨fun hcode => ?_, fun hbytes => ?_⟩, fun bytes hbytes => ?_⟩
    · obtain ⟨other, otherText, list, bytes, hother, packs⟩ := Options.packs_of_code_eq_zero hcode
      cases hread.symm.trans hother
      cases decoded.symm.trans packs.decoded
      exact ⟨bytes, hpacks.mpr ⟨list, packs⟩⟩
    · obtain ⟨bytes, hbytes⟩ := hbytes
      obtain ⟨list, packs⟩ := hpacks.mp hbytes
      exact (Options.run_of_packs writable hread packs).1
    · obtain ⟨list, packs⟩ := hpacks.mp hbytes
      exact (Options.run_of_packs writable hread packs).2

/-- Words in a file, and an output file with something else in it. -/
def sampleText : String := "%%\nab, 1\ncb, 1\na, 2\n%%\n"

def sampleFiles : Files where
  working := []
  entries := [(["words"], .file (Text.bytes sampleText)), (["array"], .file [0x21])]

theorem compile_sampleText :
    compile sampleText = .ok #[2, 130, 227, 133, 225, 2, 129, 130, 98, 129] := by
  have packed : Packed.encode Dictionary.sample.graph Packed.defaultRounds =
      .ok #[2, 130, 227, 133, 225, 2, 129, 130, 98, 129] := by
    rw [Dictionary.graph_sample]
    cbv
  have parsed : WordList.parse WordList.defaultAllowed sampleText =
      .ok ⟨"", [("ab", 1), ("cb", 1), ("a", 2)]⟩ := by
    cbv
  exact (compile_eq_ok_iff (Text.fromUTF8?_bytes sampleText)).mpr
    ⟨_, Text.fromUTF8?_bytes sampleText, parsed, Dictionary.sample,
      Dictionary.ofEntries_sampleEntries, packed⟩

def sampleOptions : Options := ⟨"words", "array", false, 8⟩

theorem run_end_to_end_sample :
    (∃ place, sampleFiles.Writes "array" place) ∧
    (sampleOptions.run sampleFiles).1.code = 0 ∧
    ∃ content, (sampleOptions.run sampleFiles).2.read "array" = .ok content ∧
      Carries false content #[2, 130, 227, 133, 225, 2, 129, 130, 98, 129] := by
  have writable : ∃ place, sampleFiles.Writes sampleOptions.outfile place :=
    ⟨["array"], by cbv, by decide +kernel, fun h => by cases h⟩
  have hread : sampleFiles.read "words" = .ok (Text.bytes sampleText) := by cbv
  obtain ⟨hcode, hcontent⟩ := (run_end_to_end writable).2.2 rfl _ _ hread
    (Text.fromUTF8?_bytes sampleText)
  exact ⟨writable, hcode.mpr ⟨_, compile_sampleText⟩, hcontent _ compile_sampleText⟩

end CommandLine

end Lexicon
