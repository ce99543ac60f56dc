import Reckon.Proofs.Readback
import Reckon.Proofs.Stages

/-!
# Processing one file

A path that is written to leads to the file that was put there (`FileTree.resolve_put_of_target`),
and the text of an outcome is one line (`line_feed_not_mem_renderOutcome`). So processing a file
either writes one line, the outcome of what the input held before, or it fails and leaves all files
as they were (`processFile_atomic`). No tree is excluded: the output may be a symbolic link, it may
lead to the input, and it may hold more than the line that is written.
-/

namespace Reckon

/-! ## Where a file is put -/

namespace FileTree

variable {t : FileTree} {location : Location}

/-- Behind the file that was put where it leads, a path leads to it. -/
theorem resolve_put_of_target {p : Path} (h : t.target p = .ok location) (content : Bytes) :
    (t.put location (.file content)).resolve true p = .ok (.occupied location (.file content)) :=
  ((Writes.put_target h content).toKeeps.leadsTo (target_leadsTo h)).resolve_eq
    (get?_put_self (target_admits h content))

end FileTree

/-! ## The line of an outcome -/

/-- The text of a number is one line. -/
theorem line_feed_not_mem_renderNumber (x : Float) : '\n' ∉ (renderNumber x).toList := by
  have hsign {negative : Bool} {text : List Char} (h : '\n' ∉ text) :
      '\n' ∉ withSign negative text := by
    cases negative with
    | false => exact h
    | true => simpa [withSign] using h
  cases hread : Binary64.ofFloat x with
  | nan =>
    rw [renderNumber, hread]
    show '\n' ∉ "nan".toList
    decide
  | infinite negative =>
    rw [renderNumber, hread, String.toList_ofList]
    exact hsign (by decide)
  | finite negative units =>
    obtain ⟨negative, n, hn, htext, -⟩ := renderNumber_literal (counts_of_ofFloat hread).isFinite
    rw [htext]
    refine hsign fun hmem => ?_
    rcases hn.text_cases hmem with hdigit | hmark
    · cases hdigit
    · exact absurd hmark (by decide)

/-- The text of an outcome is one line. -/
theorem line_feed_not_mem_renderOutcome (outcome : Outcome) :
    '\n' ∉ (renderOutcome outcome).toList := by
  cases outcome with
  | ok value => exact line_feed_not_mem_renderNumber value
  | error e =>
    rw [renderOutcome, String.toList_append, List.mem_append, not_or]
    refine ⟨by decide, fun hmem => ?_⟩
    have hdigits : (toString e.position).toList = Nat.toDigits 10 e.position := by
      rw [Nat.toString_eq_repr]
      exact Nat.toList_repr
    rw [hdigits] at hmem
    cases isDigit_toDigits e.position _ hmem

/-! ## One file -/

/-- Processing a file comes to the answer of its stage, and leaves the files of the stage. -/
theorem processFile_stage (journal : Journal) (input directory : Path) (suffix : String)
    (maxDepth : Nat) (w : World) :
    let s : Stage := ⟨w.files, input, outputPath input directory suffix, maxDepth⟩
    let run := (processFile journal input directory suffix maxDepth : StateM World _) w
    run.1 = s.answer.map (fun outcome => ⟨s.output, outcome⟩) ∧ run.2.files = s.after := by
  have hcarries := Carries.processFile journal
    ⟨none, some directory, suffix, maxDepth, false, none⟩ input (Ledger.ofWorld w).books
  obtain ⟨hanswer, hfiles, -⟩ :=
    hcarries.world (.processFile journal input directory suffix maxDepth) rfl
  exact ⟨hanswer, hfiles⟩

/-- Processing a file is atomic and touches its result only. Where it is done, the file that the
output path leads to holds the rendered outcome, one line, and a line feed; the outcome is that of
the content that the input had before, and everything else is as it was. Where it fails, since the
input cannot be read or else the output cannot be written, nothing has changed. -/
theorem processFile_atomic {journal : Journal} {input directory : Path} {suffix : String}
    {maxDepth : Nat} {w w' : World} {answer : Except FileError Processed}
    (hrun : (processFile journal input directory suffix maxDepth : StateM World _) w =
      (answer, w')) :
    (∀ done, answer = .ok done →
      done.output = outputPath input directory suffix ∧
      (∃ content, w.files.read input = .ok content ∧
        done.outcome = evaluateWith (stripComments (Utf8.decode content)) maxDepth) ∧
      '\n' ∉ (renderOutcome done.outcome).toList ∧
      ∃ location, w.files.LeadsTo done.output location ∧
        w'.files.resolve true done.output =
          .ok (.occupied location (.file (Utf8.encode (renderOutcome done.outcome ++ "\n")))) ∧
        w'.files.get? location =
          some (.file (Utf8.encode (renderOutcome done.outcome ++ "\n"))) ∧
        (∀ other, other ≠ location → w'.files.get? other = w.files.get? other) ∧
        w'.files.home = w.files.home ∧ w'.files.withheld = w.files.withheld) ∧
    ∀ e, answer = .error e → w'.files = w.files ∧
      ((∃ cause, w.files.read input = .error cause ∧ e = .readInput input cause) ∨
        ∃ content cause, w.files.read input = .ok content ∧
          (∀ line, w.files.write (outputPath input directory suffix) line = .error cause) ∧
          e = .writeOutput (outputPath input directory suffix) cause) := by
  obtain ⟨hanswer, hfiles⟩ := processFile_stage journal input directory suffix maxDepth w
  rw [hrun] at hanswer hfiles
  dsimp only at hanswer hfiles
  subst hanswer
  generalize outputPath input directory suffix = output at hfiles ⊢
  rcases Stage.cases ⟨w.files, input, output, maxDepth⟩ with
    ⟨cause, hread, hanswer, hafter, -⟩ | ⟨content, cause, hread, htarget, hanswer, hafter, -⟩ |
    ⟨content, location, hread, htarget, hanswer, hafter, -⟩ <;>
    rw [hafter] at hfiles <;> rw [hanswer]
  · refine ⟨nofun, ?_⟩
    rintro e ⟨⟩
    exact ⟨hfiles, .inl ⟨cause, hread, rfl⟩⟩
  · refine ⟨nofun, ?_⟩
    rintro e ⟨⟩
    refine ⟨hfiles, .inr ⟨content, cause, hread, fun line => ?_, rfl⟩⟩
    rw [FileTree.write_eq, show w.files.target output = .error cause from htarget]
    rfl
  · refine ⟨?_, nofun⟩
    rintro done ⟨⟩
    dsimp only at htarget hfiles ⊢
    have hadmits := FileTree.target_admits htarget
    refine ⟨rfl, ⟨content, hread, rfl⟩, line_feed_not_mem_renderOutcome _, location,
      FileTree.target_leadsTo htarget, ?_, ?_, fun other hother => ?_, ?_, ?_⟩ <;> rw [hfiles]
    · exact FileTree.resolve_put_of_target htarget _
    · exact FileTree.get?_put_self (hadmits _)
    · exact FileTree.get?_put_of_ne (hadmits _) hother
    · exact FileTree.home_put ..
    · exact FileTree.withheld_put ..

/-- Where the output is a link to the input, the result takes the place of what was evaluated. -/
theorem processFile_atomic_own_input :
    let w : World := .ofFiles ⟨[], [(["a.txt"], .file [0x31, 0x2F, 0x34]),
      (["a_result.txt"], .link ⟨"a.txt"⟩)], [], by decide +kernel⟩
    ∃ w', (processFile none ⟨"a.txt"⟩ ⟨"."⟩ "result" 200 : StateM World _) w =
        (.ok ⟨⟨"./a_result.txt"⟩, .ok 0.25⟩, w') ∧
      w'.files.resolve true ⟨"./a_result.txt"⟩ =
        .ok (.occupied ["a.txt"] (.file [0x30, 0x2E, 0x32, 0x35, 0x0A])) ∧
      w'.files.get? ["a_result.txt"] = some (.link ⟨"a.txt"⟩) := by
  intro w
  have hread : w.files.read ⟨"a.txt"⟩ = .ok [0x31, 0x2F, 0x34] := by cbv
  have hresolve : w.files.resolve true ⟨"./a_result.txt"⟩ =
      .ok (.occupied ["a.txt"] (.file [0x31, 0x2F, 0x34])) := by cbv
  have htarget : w.files.target ⟨"./a_result.txt"⟩ = .ok ["a.txt"] :=
    FileTree.target_eq_ok_iff.2 (.inl ⟨_, hresolve, by decide +kernel⟩)
  have houtcome : contentOutcome [0x31, 0x2F, 0x34] 200 = .ok 0.25 := by decide +kernel
  have hpath : outputPath ⟨"a.txt"⟩ ⟨"."⟩ "result" = ⟨"./a_result.txt"⟩ := by decide +kernel
  obtain ⟨hanswer, -⟩ := processFile_stage none ⟨"a.txt"⟩ ⟨"."⟩ "result" 200 w
  rw [hpath, Stage.answer_of_ok (s := ⟨w.files, _, _, _⟩) hread htarget,
    houtcome] at hanswer
  rcases hrun : (processFile none ⟨"a.txt"⟩ ⟨"."⟩ "result" 200 : StateM World _) w with
    ⟨answer, w'⟩
  rw [hrun] at hanswer
  obtain rfl : answer = .ok ⟨⟨"./a_result.txt"⟩, .ok 0.25⟩ := hanswer
  obtain ⟨-, -, -, location, hleads, hholds, -, hothers, -⟩ := (processFile_atomic hrun).1 _ rfl
  obtain rfl := hleads.unique (FileTree.leadsTo_iff.2 ⟨_, hresolve, rfl⟩)
  have hline : Utf8.encode (renderOutcome (.ok 0.25) ++ "\n") = [0x30, 0x2E, 0x32, 0x35, 0x0A] := by
    decide +kernel
  rw [hline] at hholds
  exact ⟨w', rfl, hholds, hothers _ (by decide +kernel)⟩

end Reckon
