import CodeGroom.Job
import CodeGroom.Proofs.Diff.Unified
import CodeGroom.Proofs.Text.Encoding
import CodeGroom.Proofs.Text.LineEnds

/-!
# What is printed of the changes in a file

A diff takes the file by its own lines and the formatted text by all line boundaries. So it is empty just if formatting leaves the
file as it is and both ways to cut its text agree: a form feed, say, in the middle of an unchanged file shows as a change.
-/

namespace CodeGroom

theorem Text.decode_injective : Function.Injective decode := Function.LeftInverse.injective encode_decode

/-- Nothing is written just for the empty text. -/
theorem Text.encode_eq_nil_iff {t : Text} : encode t = [] ↔ t = [] := by
  cases t with
  | nil => simp
  | cons x t => cases x <;> simp [encode]

namespace Job

/-- The line ends of the file and all line boundaries of the formatted text give the same lines just if the formatted text is the
text of the file, and its line boundaries are line ends. -/
theorem lines_eq_iff (bytes formatted : List UInt8) :
    (Text.decode bytes).fileLines = (Text.decode formatted).allLines ↔
      formatted = bytes ∧ ∀ x ∈ (Text.decode bytes).dropLast, Text.endsAnyLine x = true → Text.endsFileLine x = true := by
  constructor
  · intro hlines
    have htext := congrArg List.flatten hlines
    rw [Text.fileLines, Text.allLines, Text.flatten_cutAfter, Text.flatten_cutAfter] at htext
    obtain rfl := Text.decode_injective htext
    exact ⟨rfl, (Text.fileLines_eq_allLines_iff _).1 hlines⟩
  · rintro ⟨rfl, hends⟩
    exact (Text.fileLines_eq_allLines_iff _).2 hends

variable (lexers : String → Lexer) (settings : Settings) (read : FileReader) (file : FilePath) {bytes formatted : List UInt8} {trace : Trace}

/-- What a job for changes prints for a file that can be formatted. -/
theorem fileText_of_diff (hdiff : settings.diff = true) (hname : file.hasNull = false) (hread : read file = .ok bytes)
    (hformat : Format.bytes (lexers (settings.languageOf file)) settings.style (settings.languageOf file) bytes =
      .ok (formatted, trace)) :
    fileText lexers settings read file =
      .ok (Text.encode (Diff.unified file.toText (Text.decode bytes).fileLines (Text.decode formatted).allLines), trace) := by
  simp only [fileText, hname, hread, bind, Except.bind, hformat, hdiff]
  rfl

/-- Whatever the lexers give, of a file that can be formatted a job for changes prints nothing exactly if formatting leaves it as it
is, and no symbol but its last one is a line boundary that ends no line of a file. -/
theorem fileText_eq_nil_iff (hdiff : settings.diff = true) (hname : file.hasNull = false) (hread : read file = .ok bytes)
    (hformat : Format.bytes (lexers (settings.languageOf file)) settings.style (settings.languageOf file) bytes =
      .ok (formatted, trace)) :
    ∃ text, fileText lexers settings read file = .ok (text, trace) ∧ (text = [] ↔ formatted = bytes ∧
      ∀ x ∈ (Text.decode bytes).dropLast, Text.endsAnyLine x = true → Text.endsFileLine x = true) := by
  refine ⟨_, fileText_of_diff lexers settings read file hdiff hname hread hformat, ?_⟩
  rw [Text.encode_eq_nil_iff, Diff.unified_eq_nil_iff, lines_eq_iff]

end Job

namespace DiffAux

/-- A job that prints changes. -/
def changesOnly : Settings := { diff := true }

/-- A file of C. -/
def file : FilePath := { root := 0, parts := [Text.ofString "a.c"] }

/-- A file with all line ends that a file can have: both in a row, a carriage return, and a line feed. -/
def endedFile : List UInt8 := [97, 59, 13, 10, 98, 59, 13, 99, 59, 10]

/-- A file with a form feed between two statements. -/
def pagedFile : List UInt8 := [97, 59, 12, 98, 59, 10]

/-- What a computation gives, apart from what it reports. -/
theorem exists_ok {e : Except Fault (List UInt8 × Trace)} {b : List UInt8} (h : e.toOption.map (·.1) = some b) :
    ∃ trace, e = .ok (b, trace) := by
  cases e with
  | error f => cases h
  | ok r => exact ⟨r.2, by rw [← Option.some.inj h]⟩

end DiffAux

open DiffAux in
theorem Job.fileText_endedFile :
    ∃ text trace, fileText sourceTokens changesOnly (fun _ => .ok endedFile) file = .ok (text, trace) ∧ text = [] := by
  obtain ⟨trace, hformat⟩ : ∃ trace, Format.bytes (sourceTokens "c") {} "c" endedFile = .ok (endedFile, trace) :=
    exists_ok (by decide +kernel)
  obtain ⟨text, htext, hempty⟩ := fileText_eq_nil_iff sourceTokens changesOnly
    (fun _ => .ok endedFile) file rfl (by decide) rfl hformat
  exact ⟨text, trace, htext, hempty.2 ⟨rfl, by decide +kernel⟩⟩

open DiffAux in
/-- Changes may be printed for a file that formatting leaves as it is: a form feed cuts only the formatted text. -/
theorem Job.not_fileText_eq_nil_iff : ¬∀ (settings : Settings) (read : FileReader) (file : FilePath)
    (bytes formatted text : List UInt8) (trace trace' : Trace), settings.diff = true → read file = .ok bytes →
      Format.bytes (sourceTokens (settings.languageOf file)) settings.style (settings.languageOf file) bytes =
        .ok (formatted, trace) →
      fileText sourceTokens settings read file = .ok (text, trace') → (text = [] ↔ formatted = bytes) := by
  intro h
  obtain ⟨trace, hformat⟩ : ∃ trace, Format.bytes (sourceTokens "c") {} "c" pagedFile = .ok (pagedFile, trace) :=
    exists_ok (by decide +kernel)
  have htext := fileText_of_diff sourceTokens changesOnly (fun _ => .ok pagedFile) file rfl (by decide) rfl hformat
  have hempty := (h changesOnly (fun _ => .ok pagedFile) file pagedFile pagedFile _ trace trace rfl rfl hformat htext).2 rfl
  rw [Text.encode_eq_nil_iff, Diff.unified_eq_nil_iff] at hempty
  exact absurd hempty (by decide +kernel)

end CodeGroom
