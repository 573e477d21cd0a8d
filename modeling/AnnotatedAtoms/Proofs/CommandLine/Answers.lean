import AnnotatedAtoms.CommandLine
import AnnotatedAtoms.Directory

/-!
# Answers of the command line

The answer to some arguments is a listing or an error, and never a part of a listing. The contents
of a file are answered as the same text on the command line is.

* `Request.Progress.arguments_append`: arguments are read one after the other;
* `Flags.ofArgs`: contents that stand behind flags and two dashes;
* `respond_inline`, `respond_file`: their answers;
* `respond_all_or_nothing`: what every answer is like, and where two are the same.
-/

namespace AnnotatedAtoms

/-! ## Flags in front of the contents -/

namespace Request.Progress

/-- Where the first arguments decide nothing, the reading goes on behind them. -/
theorem arguments_append (p : Progress) {front : List String} (h : "--" ∉ front)
    (back : List String) :
    p.arguments (front ++ back) = (p.arguments front).bind fun q => q.arguments back := by
  induction front generalizing p with
  | nil => rfl
  | cons text texts ih =>
    rw [List.mem_cons, not_or] at h
    simp only [List.cons_append, arguments, if_neg (Ne.symm h.1)]
    cases p.argument text with
    | error decided => rfl
    | ok q => exact ih q h.2

end Request.Progress

/-- Some arguments that are flags and no more. They say whether a file is meant and whether the
annotations are asked for. -/
structure Flags (file annotations : Bool) (args : List String) : Prop where
  noDashes : "--" ∉ args
  reading : Request.Progress.arguments ⟨false, false, none⟩ args = .ok ⟨file, annotations, none⟩

variable {file annotations : Bool} {flags : List String}

theorem Flags.ofArgs (h : Flags file annotations flags) (contents : String) :
    Request.ofArgs (flags ++ ["--", contents]) = .list ⟨file, annotations, contents⟩ := by
  rw [Request.ofArgs, Request.Progress.arguments_append _ h.noDashes, h.reading]
  rfl

variable (files : String → Option ByteArray)

theorem respond_inline (h : Flags false annotations flags) (source : String) :
    respond files (flags ++ ["--", source]) =
      (Settings.mk false annotations source).answerSource source := by
  rw [respond, h.ofArgs]
  rfl

theorem respond_file (h : Flags true annotations flags) (name : String) :
    respond files (flags ++ ["--", name]) =
      match (files name).bind String.fromUTF8? with
      | some source => (Settings.mk true annotations name).answerSource source
      | none => .failure 1 (unreadableFile name) := by
  rw [respond, h.ofArgs]
  rfl

/-! ## Bytes of a text -/

theorem fromUTF8?_toUTF8 (s : String) : String.fromUTF8? s.toUTF8 = some s :=
  dif_pos s.isValidUTF8

theorem fromUTF8?_eq_none {bytes : ByteArray} (h : ∀ s : String, s.toUTF8 ≠ bytes) :
    String.fromUTF8? bytes = none :=
  dif_neg fun hvalid => h (.ofByteArray bytes hvalid) rfl

/-! ## All or nothing -/

/-- Nothing is listed beside a failure, and nothing is reported beside a success. -/
def Outcome.AllOrNothing (o : Outcome) : Prop :=
  (o.status ≠ 0 → o.stdout = "") ∧ (o.status = 0 → o.stderr = "")

theorem Outcome.allOrNothing_success (stdout : String) : (success stdout).AllOrNothing :=
  ⟨fun h => absurd rfl h, fun _ => rfl⟩

theorem Outcome.allOrNothing_failure {status : UInt32} (h : status ≠ 0) (message : String) :
    (failure status message).AllOrNothing :=
  ⟨fun _ => rfl, fun hzero => absurd hzero h⟩

theorem Settings.allOrNothing_answerSource (s : Settings) (source : String) :
    (s.answerSource source).AllOrNothing := by
  rw [answerSource]
  cases Atom.readAll source with
  | ok as => exact Outcome.allOrNothing_success _
  | error e => exact Outcome.allOrNothing_failure (by decide) _

theorem Settings.allOrNothing_answer (s : Settings) (bytes : Option ByteArray) :
    (s.answer bytes).AllOrNothing := by
  rw [answer]
  split
  · cases bytes.bind String.fromUTF8? with
    | some source => exact s.allOrNothing_answerSource source
    | none => exact Outcome.allOrNothing_failure (by decide) _
  · exact s.allOrNothing_answerSource s.contents

theorem allOrNothing_respond (args : List String) : (respond files args).AllOrNothing := by
  rw [respond]
  cases Request.ofArgs args with
  | help => exact Outcome.allOrNothing_success _
  | version => exact Outcome.allOrNothing_success _
  | misuse => exact Outcome.allOrNothing_failure (by decide) _
  | list settings => exact settings.allOrNothing_answer _

/-- **All or nothing.** Whatever the arguments and the files are, an answer that is not a success
lists nothing, and one that is a success reports nothing. A file that holds the bytes of a text is
answered as the text itself is, with the annotations or without them, and one that holds other bytes
cannot be read. -/
theorem respond_all_or_nothing :
    (∀ args, (respond files args).AllOrNothing) ∧
    ∀ name bytes, files name = some bytes → ∀ annotations fileFlags inlineFlags,
      Flags true annotations fileFlags → Flags false annotations inlineFlags →
      (∀ s : String, s.toUTF8 = bytes →
        respond files (fileFlags ++ ["--", name]) = respond files (inlineFlags ++ ["--", s])) ∧
      ((∀ s : String, s.toUTF8 ≠ bytes) → respond files (fileFlags ++ ["--", name]) =
        ⟨1, "", "Failed to read the input file '" ++ name ++
          "'. Perhaps this file does not exist?" ++ "\n"⟩) := by
  refine ⟨allOrNothing_respond files, ?_⟩
  intro name bytes hbytes annotations fileFlags inlineFlags hfile hinline
  rw [respond_file files hfile, hbytes, Option.bind_some]
  constructor
  · rintro s rfl
    rw [fromUTF8?_toUTF8, respond_inline files hinline]
    rfl
  · intro hinvalid
    rw [fromUTF8?_eq_none hinvalid]
    rfl

/-- An atom in front of an open quote is not listed. -/
theorem respond_all_or_nothing_open_quote :
    let d : Directory := ⟨[("notes", "1 \"open".toUTF8), ("noise", ⟨#[255]⟩)]⟩
    respond d.read ["-pf", "--", "notes"] = respond d.read ["--properties", "--", "1 \"open"] ∧
    (respond d.read ["-pf", "--", "notes"]).stdout = "" ∧
    respond d.read ["-f", "--", "noise"] = ⟨1, "", "Failed to read the input file 'noise'. " ++
      "Perhaps this file does not exist?" ++ "\n"⟩ := by
  intro d
  have hnotes : d.read "notes" = some "1 \"open".toUTF8 :=
    Directory.read_eq_lookup (by decide) (by decide) d
  have hnoise : d.read "noise" = some ⟨#[255]⟩ :=
    Directory.read_eq_lookup (by decide) (by decide) d
  have hfile : Flags true true ["-pf"] := ⟨by decide, by rfl⟩
  have hinline : Flags false true ["--properties"] := ⟨by decide, by rfl⟩
  have hfile' : Flags true false ["-f"] := ⟨by decide, by rfl⟩
  have hinline' : Flags false false [] := ⟨by decide, by rfl⟩
  have hinvalid : ∀ s : String, s.toUTF8 ≠ ⟨#[255]⟩ := by
    intro s hs
    have hvalid : (⟨#[255]⟩ : ByteArray).IsValidUTF8 := hs ▸ s.isValidUTF8
    rw [← ByteArray.validateUTF8_eq_true_iff] at hvalid
    exact absurd hvalid (by decide)
  obtain ⟨hall, hagree⟩ := respond_all_or_nothing d.read
  have hsame := (hagree "notes" _ hnotes true _ _ hfile hinline).1 _ rfl
  have hbad := (hagree "noise" _ hnoise false _ _ hfile' hinline').2 hinvalid
  have hopen : Atom.readAll "1 \"open" = .error (.unexpectedText "\"open" 1) := by cbv
  have hstatus : (respond d.read (["--properties"] ++ ["--", "1 \"open"])).status = 1 := by
    rw [respond_inline d.read hinline, Settings.answerSource, hopen]
    rfl
  have hfailed : (respond d.read ["-pf", "--", "notes"]).status = 1 :=
    (congrArg Outcome.status hsame).trans hstatus
  exact ⟨hsame, (hall _).1 (hfailed ▸ by decide), hbad⟩

end AnnotatedAtoms
