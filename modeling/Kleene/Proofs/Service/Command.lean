import Kleene.Proofs.Service.Directory
import Kleene.Proofs.Service.Report
import Kleene.Proofs.Text.Encoding
import Kleene.Proofs.Text.Lines
import Kleene.Service.Command

/-!
# The report on a file

A file is read with line feeds for all its line ends. This changes no line of its text, and with it
neither the automaton that the text describes nor the report on it.

`Command.ReportOn bytes report` says what the report on a file with some bytes is, and
`Command.Puts` what the command does with a report. A file is given to it (`Command.GivesFile`) by a
path in an option, or else by one in a setting: `Command.givesFile_iff`.

The main statement is `Command.run_reports_description`: a file that can be read has a report, that
on its text as it stands, and the command puts it in the file that is written; a file that cannot be
read leaves all files as they are.
-/

set_option autoImplicit false

namespace Kleene

open Text

/-! ## Line ends -/

/-- Line feeds for all line ends leave the automaton that a text describes. -/
theorem Automaton.ofDescription_withLineFeeds {ν : Type} [Name ν] (text : String) :
    (Automaton.ofDescription (withLineFeeds text) : Except (Failure ν) (Automaton ν)) =
      Automaton.ofDescription text := by
  unfold Automaton.ofDescription
  rw [splitLines_withLineFeeds]

/-- Line feeds for all line ends leave the report on a text. -/
theorem convertDescription_withLineFeeds (text : String) :
    convertDescription (withLineFeeds text) = convertDescription text := by
  rw [convertDescription, convertDescription, Automaton.ofDescription_withLineFeeds]

/-- Every text has a report. -/
theorem exists_report (text : String) : ∃ report, convertDescription text = .ok report := by
  rcases Diagnosed.valid_or_diagnosed text with ⟨m, hread, hvalid⟩ | ⟨code, message, hdiagnosed⟩
  · obtain ⟨expression, -, hreport, -⟩ := exists_expression_report hread hvalid
    exact ⟨_, hreport⟩
  · exact ⟨_, hdiagnosed.report_eq⟩

namespace Command

variable {settings : Settings} {options : Options} {directory : Directory}

/-! ## The report -/

/-- What the report on a file with some bytes is. -/
inductive ReportOn (bytes : List UInt8) (report : String) : Prop
  /-- The bytes are a text, and the report is that on the text with the line ends that it has. -/
  | text {chars : List Char} (hbytes : bytes = chars.flatMap String.utf8EncodeChar)
      (hreport : convertDescription (ofChars chars) = .ok report)
  | noText (hbytes : ¬∃ chars : List Char, bytes = chars.flatMap String.utf8EncodeChar)
      (hreport : report = "Error:\nE0: Input file is malformed")

/-- There is one report on the bytes of a file. -/
theorem ReportOn.unique {bytes : List UInt8} {report other : String} (h : ReportOn bytes report)
    (hother : ReportOn bytes other) : report = other := by
  cases h with
  | text hbytes hreport =>
    cases hother with
    | text hbytes' hreport' =>
      have hpoints := (decodeUtf8_eq_ok_iff.mpr ⟨_, rfl, hbytes⟩).symm.trans
        (decodeUtf8_eq_ok_iff.mpr ⟨_, rfl, hbytes'⟩)
      rw [ofChars, Except.ok.inj hpoints] at hreport
      exact Except.ok.inj (hreport.symm.trans hreport')
    | noText hno _ => exact absurd ⟨_, hbytes⟩ hno
  | noText hno hreport =>
    cases hother with
    | text hbytes _ => exact absurd ⟨_, hbytes⟩ hno
    | noText _ hreport' => exact hreport.trans hreport'.symm

/-- The report on a file with a text of ASCII characters is that on the text. -/
theorem reportOn_of_isAscii {text report : String} (h : IsAscii text)
    (hreport : convertDescription text = .ok report) : ReportOn (encodeUtf8 text) report := by
  have hbytes : encodeUtf8 text = text.toList.flatMap String.utf8EncodeChar := by
    rw [encodeUtf8, h.pointsOf_eq, List.flatMap_map]
    rfl
  exact .text hbytes (by rwa [h.ofChars_eq])

/-- Every file has a report, and this is what the command makes of its bytes. -/
theorem exists_reportOn (bytes : List UInt8) :
    ∃ report, reportOfBytes bytes = .ok report ∧ ReportOn bytes report := by
  cases hdecode : Encoding.decodeUtf8 bytes with
  | ok points =>
    obtain ⟨chars, rfl, hbytes⟩ := decodeUtf8_eq_ok_iff.mp hdecode
    obtain ⟨report, hreport⟩ := exists_report (ofChars chars)
    refine ⟨report, ?_, .text hbytes hreport⟩
    have htext : String.ofList (unifyLineEnds ((chars.map Point.char).flatMap Point.spell)) =
        withLineFeeds (ofChars chars) := by
      rw [withLineFeeds, ofChars, ofPoints, String.toList_ofList]
    rw [reportOfBytes, hdecode]
    dsimp only
    rw [htext, convertDescription_withLineFeeds, hreport]
  | error fault =>
    refine ⟨"Error:\nE0: Input file is malformed", ?_, .noText ?_ rfl⟩
    · rw [reportOfBytes, hdecode]
      rfl
    · rintro ⟨chars, hbytes⟩
      have hread := decodeUtf8_eq_ok_iff.mpr ⟨chars, rfl, hbytes⟩
      rw [hdecode] at hread
      cases hread

/-! ## The files -/

/-- The operating system takes a text as a path: its halves stand for single bytes, and no character
in it ends texts there. -/
structure IsPath (path : String) : Prop where
  isLoneByte : ∀ half, .half half ∈ pointsOf path → Text.isLoneByte half = true
  noNull : '\x00' ∉ path.toList

/-- An ASCII text without the character that ends texts is a path. -/
theorem isPath_of_isAscii {path : String} (h : IsAscii path) (hnull : '\x00' ∉ path.toList) :
    IsPath path where
  isLoneByte := by simp [h.pointsOf_eq]
  noNull := hnull

/-- A text names a file exactly if it is a path. -/
theorem named_eq_ok_iff {path : String} {file : FileReference} :
    named path = .ok file ↔ IsPath path ∧ .named path = file := by
  have hhalves : (checkHalves Text.isLoneByte (pointsOf path)).mapError CommandError.notEncodable =
      .ok () ↔ ∀ half, .half half ∈ pointsOf path → Text.isLoneByte half = true := by
    rw [mapError_eq_ok_iff, ← findUnencodable_eq_none_iff, checkHalves]
    cases findUnencodable Text.isLoneByte 0 (pointsOf path) <;> simp
  rw [named, bind_eq_ok_iff]
  constructor
  · rintro ⟨_, hlone, h⟩
    split at h
    · cases h
    next hnull =>
    exact ⟨⟨hhalves.mp hlone, by simpa using hnull⟩, Except.ok.inj h⟩
  · rintro ⟨⟨hlone, hnull⟩, rfl⟩
    refine ⟨(), hhalves.mpr hlone, ?_⟩
    rw [if_neg (by simpa using hnull)]
    rfl

/-- A value stands for the file at a path exactly if it is this path. -/
theorem referenceOf_eq_named_iff {value : Json} {path : String} :
    referenceOf value = .ok (.named path) ↔ IsPath path ∧ value = .text path := by
  cases value with
  | scalar value =>
    cases value with
    | text other =>
      rw [referenceOf, named_eq_ok_iff]
      constructor
      · rintro ⟨hpath, h⟩
        obtain rfl := FileReference.named.inj h
        exact ⟨hpath, rfl⟩
      · rintro ⟨hpath, h⟩
        obtain rfl := Scalar.text.inj (Json.scalar.inj h)
        exact ⟨hpath, rfl⟩
    | int value =>
      refine iff_of_false (fun h => ?_) (by simp [Json.text])
      rw [referenceOf, numbered] at h
      split at h
      · cases h
      split at h <;> cases h
    | _ => simp [referenceOf, Json.text]
  | _ => simp [referenceOf, Json.text]

/-- The file that is chosen is at a path exactly if an option is this path, or there is none and the
setting for it is this path. -/
theorem chosenFile_eq_named_iff {given : Option Json} {name path : String} :
    chosenFile settings given name = .ok (.named path) ↔ IsPath path ∧
      (given = some (.text path) ∨ given = none ∧
        (settings.get name : Except (Failure String) Json) = .ok (.text path)) := by
  cases given with
  | some value =>
    simp only [chosenFile, referenceOf_eq_named_iff, Option.some.injEq, reduceCtorEq, false_and,
      or_false]
  | none =>
    constructor
    · intro h
      obtain ⟨value, hget, hvalue⟩ := bind_eq_ok_iff.mp h
      obtain ⟨hpath, rfl⟩ := referenceOf_eq_named_iff.mp hvalue
      exact ⟨hpath, .inr ⟨rfl, mapError_eq_ok_iff.mp hget⟩⟩
    · rintro ⟨hpath, h | ⟨-, hget⟩⟩
      · cases h
      · exact bind_eq_ok_iff.mpr
          ⟨_, mapError_eq_ok_iff.mpr hget, referenceOf_eq_named_iff.mpr ⟨hpath, rfl⟩⟩

/-- An option, or else the setting for it, is the path of a file at the given way. -/
structure GivesFile (settings : Settings) (given : Option Json) (name : String)
    (directory : Directory) (path : String) (way : Way) : Prop where
  chosen : chosenFile settings given name = .ok (.named path)
  located : directory.Locates path way

/-- The file at a way is given exactly if an option is a path that locates it, or there is no option
and the setting is such a path. -/
theorem givesFile_iff {given : Option Json} {name path : String} {way : Way} :
    GivesFile settings given name directory path way ↔ IsPath path ∧
      (given = some (.text path) ∨ given = none ∧
        (settings.get name : Except (Failure String) Json) = .ok (.text path)) ∧
      directory.Locates path way := by
  rw [← and_assoc, ← chosenFile_eq_named_iff]
  exact ⟨fun h => ⟨h.chosen, h.located⟩, fun h => ⟨h.1, h.2⟩⟩

/-- One file is given at most. -/
theorem GivesFile.unique {given : Option Json} {name path other : String} {way way' : Way}
    (h : GivesFile settings given name directory path way)
    (hother : GivesFile settings given name directory other way') : path = other ∧ way = way' := by
  obtain rfl := FileReference.named.inj (Except.ok.inj (h.chosen.symm.trans hother.chosen))
  exact ⟨rfl, Except.ok.inj (h.located.wayTo_eq.symm.trans hother.located.wayTo_eq)⟩

/-- The bytes of the file that is read. -/
def inputBytes (settings : Settings) (options : Options) (directory : Directory) :
    Except CommandError (List UInt8) := do
  let input ← chosenFile settings options.input Settings.inputPath
  (bytesOf directory input).mapError (CommandError.cannotRead input.display)

/-- The report is made of the bytes of the file that is read. -/
theorem readReport_eq : readReport settings options directory =
    (inputBytes settings options directory >>= fun bytes =>
      (reportOfBytes bytes).mapError CommandError.failed) := by
  rw [readReport, inputBytes, bind_assoc]

/-- Bytes are read exactly if a file is given and has them. -/
theorem inputBytes_eq_ok_iff {bytes : List UInt8} :
    inputBytes settings options directory = .ok bytes ↔ ∃ path way,
      GivesFile settings options.input Settings.inputPath directory path way ∧
        directory.bytesAt way = some bytes := by
  constructor
  · intro h
    obtain ⟨input, hinput, hread⟩ := bind_eq_ok_iff.mp h
    cases input with
    | opened number => cases hread
    | named path =>
      obtain ⟨way, hfile, hbytes⟩ := Directory.read_eq_ok_iff.mp (mapError_eq_ok_iff.mp hread)
      exact ⟨path, way, ⟨hinput, hfile⟩, hbytes⟩
  · rintro ⟨path, way, hgives, hbytes⟩
    refine bind_eq_ok_iff.mpr ⟨.named path, hgives.chosen, ?_⟩
    exact mapError_eq_ok_iff.mpr (Directory.read_eq_ok_iff.mpr ⟨way, hgives.located, hbytes⟩)

/-- The report is written exactly if a file is given, and it is put at the way of this file. -/
theorem writeReport_eq_ok_iff {report : String} {after : Directory} :
    writeReport settings options directory report = .ok after ↔ ∃ path way,
      GivesFile settings options.output Settings.outputPath directory path way ∧
        after = directory.put way (encodeUtf8 report) := by
  constructor
  · intro h
    obtain ⟨output, houtput, hwrite⟩ := bind_eq_ok_iff.mp h
    cases output with
    | opened number => cases hwrite
    | named path =>
      obtain ⟨way, hfile, hput⟩ := Directory.write_eq_ok_iff.mp (mapError_eq_ok_iff.mp hwrite)
      exact ⟨path, way, ⟨houtput, hfile⟩, hput⟩
  · rintro ⟨path, way, hgives, hput⟩
    refine bind_eq_ok_iff.mpr ⟨.named path, hgives.chosen, ?_⟩
    exact mapError_eq_ok_iff.mpr (Directory.write_eq_ok_iff.mpr ⟨way, hgives.located, hput⟩)

/-- What the command does with a report. -/
inductive Puts (settings : Settings) (options : Options) (directory : Directory) (report : String) :
    Prop
  /-- The report is all that the file has afterwards, and no other file is changed. -/
  | written {path : String} {way : Way}
      (hgives : GivesFile settings options.output Settings.outputPath directory path way)
      (hput : (run settings options directory).directory = directory.put way (encodeUtf8 report))
      (hread : way ≠ Directory.sink →
        (run settings options directory).directory.read path = .ok (encodeUtf8 report))
  /-- There is no file to be written, and no file is changed. -/
  | refused (error : CommandError)
      (hnone : ∀ path way,
        ¬GivesFile settings options.output Settings.outputPath directory path way)
      (hrun : run settings options directory = { directory, error := some error })

/-- A report that is made is written, or there is no file to write it to. -/
theorem puts_of_readReport {report : String}
    (hreport : readReport settings options directory = .ok report) :
    Puts settings options directory report := by
  cases hwrite : writeReport settings options directory report with
  | error error =>
    refine .refused error (fun path way hgives => ?_) ?_
    · cases hwrite.symm.trans (writeReport_eq_ok_iff.mpr ⟨path, way, hgives, rfl⟩)
    · rw [run, hreport]
      dsimp only
      rw [hwrite]
  | ok after =>
    -- what is printed, or why it is not, makes no difference to the files
    have hrun : (run settings options directory).directory = after := by
      rw [run, hreport]
      dsimp only
      rw [hwrite]
      dsimp only
      split <;> rfl
    obtain ⟨path, way, hgives, rfl⟩ := writeReport_eq_ok_iff.mp hwrite
    refine .written hgives hrun (fun hsink => ?_)
    rw [hrun]
    exact hgives.located.read_put hsink _

/-- Line feeds for all line ends change neither the lines of a text nor the automaton that it
describes nor the report on it. So the report on a file that can be read is that on its text with
the line ends that it has, or that on a description that does not fit its form if its bytes are no
text, and the command writes this report. If no file can be read, no file is changed. -/
theorem run_reports_description (settings : Settings) (options : Options) (directory : Directory) :
    (∀ text : String, splitLines (withLineFeeds text).toList = splitLines text.toList ∧
      (Automaton.ofDescription (withLineFeeds text) :
        Except (Failure String) (Automaton String)) = Automaton.ofDescription text ∧
      convertDescription (withLineFeeds text) = convertDescription text) ∧
    (∀ path way bytes, GivesFile settings options.input Settings.inputPath directory path way →
      directory.bytesAt way = some bytes →
        ∃ report, ReportOn bytes report ∧ Puts settings options directory report) ∧
    ((∀ path way, GivesFile settings options.input Settings.inputPath directory path way →
      directory.bytesAt way = none) →
        ∃ error, run settings options directory = { directory, error := some error }) := by
  refine ⟨fun text => ⟨splitLines_withLineFeeds text, Automaton.ofDescription_withLineFeeds text,
    convertDescription_withLineFeeds text⟩, ?_, ?_⟩
  · intro path way bytes hgives hbytes
    obtain ⟨report, hreport, hon⟩ := exists_reportOn bytes
    refine ⟨report, hon, puts_of_readReport ?_⟩
    rw [readReport_eq, inputBytes_eq_ok_iff.mpr ⟨path, way, hgives, hbytes⟩]
    exact mapError_eq_ok_iff.mpr hreport
  · intro hnone
    cases hinput : inputBytes settings options directory with
    | error error =>
      refine ⟨error, ?_⟩
      rw [run, readReport_eq, hinput]
      rfl
    | ok bytes =>
      obtain ⟨path, way, hgives, hbytes⟩ := inputBytes_eq_ok_iff.mp hinput
      rw [hnone path way hgives] at hbytes
      cases hbytes

/-- A description whose lines end in three ways. -/
def lantern : String :=
  "states=[dark,lit]\r\nalpha=[match]\rinitial=[dark]\naccepting=[lit]\r\ntrans=[dark>match>lit]\r"

/-- Options that name both files. -/
def lanternOptions : Options where
  input := some (.text "in")
  output := some (.text "out")

/-- The report on the description. -/
def lanternReport : String :=
  "((eps)(eps)*(match)|(match))((\x7b\x7d)(eps)*(match)|(eps))*((\x7b\x7d)(eps)*(match)|(eps))" ++
    "|((eps)(eps)*(match)|(match))\n"

set_option maxRecDepth 2000 in
/-- The description is read, and its automaton has the expression in the report. -/
theorem convertDescription_lantern : convertDescription lantern = .ok lanternReport := by
  have hread : (Automaton.ofDescription lantern : Except (Failure String) (Automaton String)) =
      .ok { graph := { vertices := ["dark", "lit"], rows := [[[], ["match"]], [[], []]] },
            alphabet := ["match"], initial := some "dark", accepting := ["lit"] } := by
    decide
  rw [convertDescription, hread]
  decide

/-- In a directory with the description the command leaves the report in the other file; in one
without it, it leaves everything as it is. -/
theorem run_reports_description_lantern :
    (ReportOn (encodeUtf8 lantern) lanternReport ∧
      Puts [] lanternOptions (.ofEntries [(["in"], encodeUtf8 lantern)] []) lanternReport ∧
      (run [] lanternOptions (.ofEntries [(["in"], encodeUtf8 lantern)] [])).directory.read "out" =
        .ok (encodeUtf8 lanternReport)) ∧
    ∃ error, run [] lanternOptions (.ofEntries [] []) =
      { directory := .ofEntries [] [], error := some error } := by
  have hin : ∀ files, GivesFile [] lanternOptions.input Settings.inputPath (.ofEntries files [])
      "in" (Directory.home ++ ["in"]) := by
    refine fun files => givesFile_iff.mpr ⟨isPath_of_isAscii (by decide) (by decide), .inl rfl, ?_⟩
    exact ⟨Directory.wayTo_name _ (by cbv) (by decide) (by decide) (by decide +kernel), rfl,
      by decide +kernel⟩
  have hout : ∀ files, GivesFile [] lanternOptions.output Settings.outputPath (.ofEntries files [])
      "out" (Directory.home ++ ["out"]) := by
    refine fun files => givesFile_iff.mpr ⟨isPath_of_isAscii (by decide) (by decide), .inl rfl, ?_⟩
    exact ⟨Directory.wayTo_name _ (by cbv) (by decide) (by decide) (by decide +kernel), rfl,
      by decide +kernel⟩
  refine ⟨?_, (run_reports_description [] lanternOptions _).2.2 ?_⟩
  · have hon : ReportOn (encodeUtf8 lantern) lanternReport :=
      reportOn_of_isAscii (by decide) convertDescription_lantern
    obtain ⟨report, hreport, hputs⟩ := (run_reports_description [] lanternOptions
      (.ofEntries [(["in"], encodeUtf8 lantern)] [])).2.1 "in" _ _ (hin _) rfl
    obtain rfl := hreport.unique hon
    refine ⟨hon, hputs, ?_⟩
    cases hputs with
    | refused error hnone hrun => exact absurd (hout _) (hnone _ _)
    | written hgives hput hread =>
      obtain ⟨rfl, rfl⟩ := hgives.unique (hout _)
      exact hread (by decide)
  · intro path way hgives
    obtain ⟨rfl, rfl⟩ := hgives.unique (hin _)
    rfl

end Command

end Kleene
