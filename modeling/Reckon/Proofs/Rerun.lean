import Reckon.Proofs.Arguments
import Reckon.Proofs.Stages

/-!
# Running a command again

A run depends on its inputs and changes its results, so a second run does what the first one did if
no result is an input (`BatchOptions.Steady`): it comes to the same outcomes and writes what is
there already (`BatchOptions.Steady.filesAfter_filesAfter`). Without symbolic links, that is so for
a single input, whose result has another name, and for the inputs of a directory if the results lie
in another one. What is selected, and which directories are made, is the same again also where the
first run fails (`runCommand_again`).
-/

namespace Reckon

namespace BatchOptions

variable {o : BatchOptions} {t t' : FileTree} {place : Location} {inputs behind : List Path}
  {input : Path}

/-! ## Nothing but results -/

/-- One tree differs from another in results of the inputs and in nothing else. -/
structure Refills (o : BatchOptions) (place : Location) (inputs : List Path) (t t' : FileTree) :
    Prop extends t.Writes t' where
  others : ∀ key, (∀ input ∈ inputs, key ≠ place ++ [o.result input]) → t'.get? key = t.get? key

namespace Refills

/-- Every tree is the one that it is. -/
theorem refl (t : FileTree) : o.Refills place inputs t t :=
  ⟨.refl t, fun _ _ => rfl⟩

/-- A run over some of the inputs fills in results. -/
theorem filesAfter (h : o.Refills place inputs t t') (hready : o.Ready t place)
    (hsome : ∀ input ∈ behind, input ∈ inputs) :
    o.Refills place inputs t (o.filesAfter t' behind) := by
  refine ⟨h.toWrites.trans (o.filesAfter_writes t' behind), fun key hkey => ?_⟩
  rw [(hready.writes h.toWrites).filesAfter_get?_of_ne
    fun input hinput => hkey input (hsome input hinput), h.others key hkey]

end Refills

/-- Where a run changes nothing that is at a location, it changes nothing. -/
theorem filesAfter_eq_self (h : ∀ key, (o.filesAfter t inputs).get? key = t.get? key) :
    o.filesAfter t inputs = t := by
  have hlocations : (o.filesAfter t inputs).entries.map Prod.fst = t.entries.map Prod.fst := by
    have hcame : ∀ key, t.get? key = none → (o.filesAfter t inputs).get? key = none :=
      fun key hnone => (h key).trans hnone
    clear h
    induction inputs generalizing t with
    | nil => rfl
    | cons input inputs ih =>
      have hwrites := o.filesAfter_writes (o.stage t input).after inputs
      have hfirst := (o.stage t input).writes
      rw [filesAfter_cons] at hcame ⊢
      rw [ih fun key hnone => hcame key ?_]
      · rcases (o.stage t input).after_cases with
          hafter | ⟨location, content, htarget, hafter⟩ <;> rw [hafter]
        · rfl
        refine FileTree.locations_put fun hnone => ?_
        -- a file that is put somewhere is there at the end
        have hput := FileTree.get?_put_self (FileTree.target_admits htarget content)
        rw [← hafter] at hput
        obtain ⟨content', hfile⟩ := (hput ▸ hwrites.entry location).of_file
        cases hfile.symm.trans (hcame location hnone)
      · have hentry := hfirst.entry key
        rw [hnone, stage_files] at hentry
        generalize t.get? key = before at hentry
        cases hentry
        rfl
  have hwrites := o.filesAfter_writes t inputs
  exact FileTree.ext_get? hwrites.home hwrites.withheld hlocations h

/-! ## Inputs that are no results -/

/-- The inputs are read alike whatever results there are. -/
def Steady (o : BatchOptions) (place : Location) (inputs : List Path) (t : FileTree) : Prop :=
  ∀ t', o.Refills place inputs t t' → ∀ input ∈ inputs, t'.read input = t.read input

namespace Steady

variable (h : o.Steady place inputs t) (hready : o.Ready t place)
include h hready

/-- What becomes of an input does not depend on the results there are. -/
theorem stage_answer (hrefills : o.Refills place inputs t t') (hinput : input ∈ inputs) :
    (o.stage t' input).answer = (o.stage t input).answer := by
  have hread := h t' hrefills input hinput
  have htarget := hready.target_eq hrefills.toWrites input
  unfold Stage.answer
  simp only [stage_files, stage_input, stage_output, stage_maxDepth, hread, htarget]

/-- The course of a run is that of its inputs, each by itself. -/
theorem course_eq (hrefills : o.Refills place inputs t t')
    (hsome : ∀ input ∈ behind, input ∈ inputs) :
    o.course t' behind = behind.map fun input => (input, (o.stage t input).answer) := by
  induction behind generalizing t' with
  | nil => rfl
  | cons input behind ih =>
    obtain ⟨hinput, hbehind⟩ := List.forall_mem_cons.1 hsome
    have hafter : o.Refills place inputs t (o.filesAfter t' [input]) :=
      hrefills.filesAfter hready (by simpa using hinput)
    rw [course, stages, List.map_cons, List.map_cons, h.stage_answer hready hrefills hinput,
      stage_input]
    exact congrArg _ (ih hafter hbehind)

/-- Behind a run, another one takes the same course. -/
theorem course_filesAfter : o.course (o.filesAfter t inputs) inputs = o.course t inputs := by
  have hrefl : o.Refills place inputs t t := .refl t
  rw [h.course_eq hready (hrefl.filesAfter hready fun _ => id) fun _ => id,
    h.course_eq hready hrefl fun _ => id]

/-- Behind a run, another one leaves the files as they are: each location has the line already that
is written there last. -/
theorem filesAfter_filesAfter :
    o.filesAfter (o.filesAfter t inputs) inputs = o.filesAfter t inputs := by
  refine o.filesAfter_eq_self fun key => ?_
  have hkeeps := (o.filesAfter_writes (o.filesAfter t inputs) inputs).toKeeps
  rw [filesAfter_get? (.refl _), filesAfter_get? hkeeps, o.lastLine?_stages, o.lastLine?_stages t,
    h.course_filesAfter hready]
  cases FileTree.lastLine? _ key _ <;> rfl

end Steady

/-! ## Which inputs are steady -/

/-- A single input is no result: without links, a path to it ends in its name, and its result has
another one. -/
theorem steady_single (hfree : t.LinkFree) {content : Bytes} (hread : t.read input = .ok content) :
    o.Steady place [input] t := by
  intro t' hrefills p hmem
  rw [List.mem_singleton.1 hmem]
  obtain ⟨location, hresolve, hright⟩ := FileTree.read_eq_ok_iff.1 hread
  have hget : t.get? location = some (.file content) := FileTree.resolve_has hresolve
  have hother : ∀ later ∈ [input], location ≠ place ++ [o.result later] := by
    intro later hlater hresult
    rw [List.mem_singleton.1 hlater] at hresult
    obtain ⟨here, name, hlocation, hname⟩ := FileTree.fileName?_of_resolve hfree hresolve
    have hstem : input.stemText? = some (Utf8.decode (splitName name).1) := by
      rw [Path.stemText?, Path.stem?, hname, Option.map_some, Option.map_some]
    rw [hlocation, result, hstem, Option.getD_some] at hresult
    have hsame := List.singleton_inj.1 (List.append_inj_right' hresult rfl)
    exact resultName_ne name o.suffix hsame.symm
  have hget' : t'.get? location = some (.file content) := by
    rw [hrefills.others location hother, hget]
  rw [hread, FileTree.read_eq_ok_iff]
  exact ⟨location, hrefills.toKeeps.resolve_file hresolve hget',
    (hrefills.toKeeps.grants _ _).trans hright⟩

/-- The inputs of a directory are no results if these lie in another directory. -/
theorem steady_directory {directory : Location} {d : Path} (hne : directory ≠ place)
    (hd : t.resolve true d = .ok (.occupied directory .directory)) :
    o.Steady place ((t.inputNames directory).map d.join) t := by
  intro t' hrefills _ hmem
  obtain ⟨name, hname, rfl⟩ := List.mem_map.1 hmem
  have hproper := FileTree.properName_of_mem_inputNames hname
  obtain ⟨-, content, hget⟩ := FileTree.mem_inputNames.1 hname
  have hget' : t'.get? (directory ++ [name]) = some (.file content) := by
    rw [hrefills.others _ fun _ _ heq => hne (List.append_inj_left' heq rfl), hget]
  rw [FileTree.read_join hd hproper hget,
    FileTree.read_join (hrefills.toKeeps.resolve_directory hd) hproper hget',
    hrefills.toKeeps.readable]

/-! ## What a second run does -/

/-- Behind a run over the inputs, another one does nothing new: it leaves the files as they are, and
has the same lines of output. -/
structure Repeats (o : BatchOptions) (inputs : List Path) (t : FileTree) : Prop where
  files : o.filesAfter (o.filesAfter t inputs) inputs = o.filesAfter t inputs
  lines : (o.stages (o.filesAfter t inputs) inputs).flatMap (·.lines o.print) =
    (o.stages t inputs).flatMap (·.lines o.print)

/-- A run over steady inputs does nothing new behind itself. -/
theorem Steady.repeats (h : o.Steady place inputs t) (hready : o.Ready t place) :
    o.Repeats inputs t where
  files := h.filesAfter_filesAfter hready
  lines := by rw [o.lines_stages, o.lines_stages, h.course_filesAfter hready]

/-- Nor does a run over one input: if that cannot be read, nothing is written. -/
theorem Ready.repeats_single (hready : o.Ready t place) (hfree : t.LinkFree) (p : Path) :
    o.Repeats [p] t := by
  cases hread : t.read p with
  | ok content => exact (steady_single hfree hread).repeats hready
  | error e =>
    have hanswer : (o.stage t p).answer = .error (.readInput p e) := by
      rw [Stage.answer, stage_files, stage_input, hread]
    have hafter : o.filesAfter t [p] = t := Stage.after_of_answer_error hanswer
    exact ⟨by rw [hafter, hafter], by rw [hafter]⟩

/-- Behind a run whose results lie in another directory, the inputs of a directory are the same. -/
theorem Ready.collect_again (hready : o.Ready t place) {directory : Location} {d : Path}
    (hne : directory ≠ place) (hd : t.resolve true d = .ok (.occupied directory .directory))
    (hread : t.grants directory .read) :
    (o.filesAfter t ((t.inputNames directory).map d.join)).collect d =
      .ok ((t.inputNames directory).map d.join) := by
  have hrefl : o.Refills place ((t.inputNames directory).map d.join) t t := .refl t
  have hrefills := hrefl.filesAfter hready fun _ => id
  have hnames : (o.filesAfter t ((t.inputNames directory).map d.join)).inputNames directory =
      t.inputNames directory :=
    FileTree.inputNames_congr fun name _ => by
      rw [hrefills.others _ fun _ _ heq => hne (List.append_inj_left' heq rfl)]
  rw [FileTree.collect_eq (hrefills.toKeeps.resolve_directory hd)
    ((hrefills.toKeeps.grants _ _).trans hread), hnames]

/-! ## What a run does -/

/-- The status of a run, the files it leaves and the lines of output. -/
def effect (o : BatchOptions) (t : FileTree) : Nat × FileTree × List String :=
  match t.select o.directory? o.input? with
  | .error _ => (1, t, [])
  | .ok inputs =>
    match t.makeAll o.outputDirectory.ancestors with
    | (.error _, t') => (1, t', [])
    | (.ok _, t') => (0, o.filesAfter t' inputs, (o.stages t' inputs).flatMap (·.lines o.print))

/-- If the output directory cannot be made, a run ends with status 1. -/
theorem effect_of_error {e : SystemError} (hselect : t.select o.directory? o.input? = .ok inputs)
    (hmake : t.makeAll o.outputDirectory.ancestors = (.error e, t')) :
    o.effect t = (1, t', []) := by
  rw [effect, hselect, hmake]

/-- Else it ends well, with the files and the lines of its stages. -/
theorem effect_of_ok (hselect : t.select o.directory? o.input? = .ok inputs)
    (hmake : t.makeAll o.outputDirectory.ancestors = (.ok (), t')) : o.effect t =
      (0, o.filesAfter t' inputs, (o.stages t' inputs).flatMap (·.lines o.print)) := by
  rw [effect, hselect, hmake]

/-- The effect is what a run does. -/
theorem runCommand_effect {words : List Bytes} (filter? : Option String)
    (hwords : Invocation.ofArguments words = .batch o) (t : FileTree) :
    ((runCommand words filter? : StateM World Nat) (.ofFiles t)).1 = (o.effect t).1 ∧
      ((runCommand words filter? : StateM World Nat) (.ofFiles t)).2.files = (o.effect t).2.1 ∧
      ((runCommand words filter? : StateM World Nat) (.ofFiles t)).2.output = (o.effect t).2.2 := by
  have hworld {b : Books} {status : Nat}
      (hrun : Carries (runBatch (filter?.map LogFilter.parse) o)
        { (Ledger.ofWorld (.ofFiles t)).books with
          failures := (Ledger.ofWorld (.ofFiles t)).books.failures ++
            ((filter?.map LogFilter.complaints).getD []).map .line } status b) :=
    (Carries.runCommand hwords hrun).world (.runCommand words filter?) rfl
  unfold effect
  cases hselect : t.select o.directory? o.input? with
  | error e => exact hworld (Carries.runBatch_of_select _ hselect)
  | ok inputs =>
    rcases hmake : t.makeAll o.outputDirectory.ancestors with ⟨_ | _, t'⟩
    · exact hworld (Carries.runBatch_of_makeAll _ hselect hmake)
    · exact hworld (Carries.runBatch_ok _ hselect hmake)

/-- Where the results of a run lie apart from its inputs, a run behind it selects the same inputs
and does nothing new with them. -/
theorem Ready.again (hready : o.Ready t place) (hfree : t.LinkFree)
    (hselect : t.select o.directory? o.input? = .ok inputs)
    (hapart : ∀ d, o.directory? = some d →
      t.resolve true d ≠ .ok (.occupied place .directory)) :
    (o.filesAfter t inputs).select o.directory? o.input? = .ok inputs ∧ o.Repeats inputs t := by
  cases hdirectory : o.directory? with
  | none =>
    rw [hdirectory] at hselect
    cases hinput : o.input? with
    | none =>
      rw [hinput] at hselect
      cases hselect
    | some p =>
      rw [hinput] at hselect
      obtain rfl := Except.ok.inj hselect
      exact ⟨rfl, hready.repeats_single hfree p⟩
  | some d =>
    rw [hdirectory] at hselect
    have hcollect : t.collect d = .ok inputs := hselect
    rcases FileTree.collect_cases hcollect with ⟨directory, hd, hread, rfl⟩ | ⟨rfl, _⟩
    · have hne : directory ≠ place := by
        rintro rfl
        exact hapart d hdirectory hd
      exact ⟨hready.collect_again hne hd hread, (steady_directory hne hd).repeats hready⟩
    · exact ⟨hcollect, rfl, rfl⟩

/-- A run behind another one does the same again. -/
theorem effect_effect (hfree : t.LinkFree) (hsuffix : '/' ∉ o.suffix.toList)
    (hname : o.outputDirectory.bytes ≠ [])
    (hapart : ∀ d location, o.directory? = some d →
      (o.effect t).2.1.resolve true d = .ok (.occupied location .directory) →
      (o.effect t).2.1.resolve true o.outputDirectory ≠ .ok (.occupied location .directory)) :
    o.effect (o.effect t).2.1 = o.effect t := by
  cases hselect : t.select o.directory? o.input? with
  | error e =>
    have heffect : o.effect t = (1, t, []) := by rw [effect, hselect]
    rw [heffect, heffect]
  | ok inputs =>
    have hmakes := t.makes_makeAll o.outputDirectory.ancestors
    have hselect' := hmakes.select hselect
    rcases hmake : t.makeAll o.outputDirectory.ancestors with ⟨e | _, ready⟩
    · obtain ⟨answer, hagain, hanswer⟩ :=
        FileTree.makeAll_makeAll o.outputDirectory.isChain_ancestors hmake
      rw [hmake] at hselect'
      rw [effect_of_error hselect hmake]
      cases answer with
      | error => exact effect_of_error hselect' hagain
      | ok => cases hanswer.1 rfl
    · rw [hmake] at hmakes hselect'
      rw [effect_of_ok hselect hmake] at hapart ⊢
      obtain ⟨place, hplace⟩ := exists_place hname hmake
      have hready : o.Ready ready place := ⟨hsuffix, hplace, fun name target =>
        hmakes.toKeeps.linkFree hfree _ target⟩
      have hkeeps := (o.filesAfter_writes ready inputs).toKeeps
      obtain ⟨hselect'', hrepeats⟩ := hready.again (hmakes.toKeeps.linkFree hfree) hselect'
        fun d hd hresolve => hapart d place hd (hkeeps.resolve_directory hresolve)
          (hkeeps.resolve_directory hplace)
      have hmade : (o.filesAfter ready inputs).makeAll o.outputDirectory.ancestors =
          (.ok (), o.filesAfter ready inputs) := by
        rw [Path.ancestors_eq hname]
        exact FileTree.makeAll_of_isDirectory
          (FileTree.isDirectory_iff.2 ⟨place, hkeeps.resolve_directory hplace⟩) _
      rw [← hrepeats.lines]
      exact (effect_of_ok hselect'' hmade).trans (by rw [hrepeats.files])

end BatchOptions

/-- Running a command again, behind a first run in a tree without links, changes nothing and comes
to the same output and status. A directory of inputs has to be another one than that of the results.
-/
theorem runCommand_again {words : List Bytes} {filter? : Option String} {o : BatchOptions}
    {t : FileTree} {status : Nat} {first : World}
    (hwords : Invocation.ofArguments words = .batch o) (hfree : t.LinkFree)
    (hsuffix : '/' ∉ o.suffix.toList)
    (hfirst : (runCommand words filter? : StateM World Nat) (.ofFiles t) = (status, first))
    (hapart : ∀ d location, o.directory? = some d →
      first.files.resolve true d = .ok (.occupied location .directory) →
      first.files.resolve true o.outputDirectory ≠ .ok (.occupied location .directory)) :
    ∃ second,
      (runCommand words filter? : StateM World Nat) (.ofFiles first.files) = (status, second) ∧
        second.files = first.files ∧ second.output = first.output := by
  rcases hsecond : (runCommand words filter? : StateM World Nat) (.ofFiles first.files) with
    ⟨status', second⟩
  obtain ⟨hstatus, hfiles, houtput⟩ := BatchOptions.runCommand_effect filter? hwords t
  rw [hfirst] at hstatus hfiles houtput
  obtain ⟨hstatus', hfiles', houtput'⟩ := BatchOptions.runCommand_effect filter? hwords first.files
  rw [hsecond] at hstatus' hfiles' houtput'
  dsimp only at hstatus hfiles houtput hstatus' hfiles' houtput'
  rw [hfiles] at hapart
  have hagain := BatchOptions.effect_effect hfree hsuffix
    (Invocation.outputDirectory_ne_nil hwords) hapart
  rw [← hfiles] at hagain
  rw [hagain] at hstatus' hfiles' houtput'
  exact ⟨second, by rw [hstatus', hstatus], hfiles'.trans hfiles.symm, houtput'.trans houtput.symm⟩

/-- A run over a directory that makes its output directory. -/
theorem runCommand_again_directory :
    let t : FileTree := ⟨[], [(["d"], .directory), (["d", "a.txt"], .file [0x31])], [],
      by decide +kernel⟩
    ∃ first second,
      (runCommand ["-d", "d", "-o", "r"] none : StateM World Nat) (.ofFiles t) = (0, first) ∧
      (runCommand ["-d", "d", "-o", "r"] none : StateM World Nat) (.ofFiles first.files) =
        (0, second) ∧ second.files = first.files ∧ second.output = first.output := by
  intro t
  let o : BatchOptions := ⟨some ⟨"d"⟩, some ⟨"r"⟩, "result", 200, false, none⟩
  let ready : FileTree := ⟨[], [(["d"], .directory), (["d", "a.txt"], .file [0x31]),
    (["r"], .directory)], [], by decide +kernel⟩
  have hwords : Invocation.ofArguments ["-d", "d", "-o", "r"] = .batch o := by decide +kernel
  have hfree : t.LinkFree := FileTree.linkFree_of_entries (by simp [t])
  have hselect : t.select o.directory? o.input? = .ok [⟨"d/a.txt"⟩] := by cbv
  have hmake : t.makeAll o.outputDirectory.ancestors = (.ok (), ready) := by cbv
  have hd : ready.resolve true ⟨"d"⟩ = .ok (.occupied ["d"] .directory) := by cbv
  have hr : ready.resolve true o.outputDirectory = .ok (.occupied ["r"] .directory) := by cbv
  obtain ⟨hstatus, hfiles, -⟩ := BatchOptions.runCommand_effect none hwords t
  rw [BatchOptions.effect_of_ok hselect hmake] at hstatus hfiles
  -- the two directories stay where they are when results are written
  have hkeeps := (o.filesAfter_writes ready [⟨"d/a.txt"⟩]).toKeeps
  refine ⟨_, (runCommand_again hwords hfree (by decide +kernel)
    (Prod.ext hstatus rfl) ?_).imp fun _ h => ⟨Prod.ext hstatus rfl, h⟩⟩
  rintro d location hdirectory hresolve hsame
  cases hdirectory
  rw [hfiles, hkeeps.resolve_directory hd] at hresolve
  rw [hfiles, hkeeps.resolve_directory hr] at hsame
  have hlocation : location = ["d"] := by
    cases hresolve
    rfl
  rw [hlocation] at hsame
  exact absurd hsame (by decide +kernel)

end Reckon
