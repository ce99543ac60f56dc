import Reckon.CommandLine
import Reckon.Proofs.Decoding

/-!
# What the words of a command leave

An empty path is refused where it is read (`Draft.fillPath_cases`), so the output directory of a
command has a name, whether it is given or made up (`Invocation.outputDirectory_ne_nil`). On the
way there, whatever is read leaves a draft whose output directory has a name, or stops with
something other than a run (`Draft.Fair`).
-/

namespace Reckon

namespace Draft

/-- The output directory has a name, if it is known. -/
def Named (d : Draft) : Prop :=
  ∀ p, d.outputDirectory? = some p → p.bytes ≠ []

/-- What is read leaves a draft whose output directory has a name, or it stops with something other
than a run. -/
inductive Fair {α : Type} (view : α → Draft) : Except Invocation α → Prop
  | read {a : α} : (view a).Named → Fair view (.ok a)
  | stopped {stop : Invocation} : (∀ o, stop ≠ .batch o) → Fair view (.error stop)

variable {α β : Type} {d : Draft}

/-- Refusing the words is stopping without a run. -/
theorem Fair.misuse {view : α → Draft} : Fair view (.error .misuse) :=
  .stopped nofun

/-- What is read fairly and then read on fairly is read fairly. -/
theorem Fair.bind {view : α → Draft} {view' : β → Draft} {x : Except Invocation α}
    {f : α → Except Invocation β} (h : Fair view x)
    (hf : ∀ a, (view a).Named → Fair view' (f a)) : Fair view' (x.bind f) := by
  cases h with
  | read ha => exact hf _ ha
  | stopped hstop => exact .stopped hstop

/-- What is read with an option still to be filled in, or with none. -/
theorem Fair.pending {x : Except Invocation Draft} (h : Fair id x)
    (pending? : Option ValueOption) : Fair Prod.fst (x.map (·, pending?)) := by
  cases h with
  | read ha => exact .read ha
  | stopped hstop => exact .stopped hstop

/-- An empty path is refused. -/
theorem fillPath_cases (slot : Option Path) (value : Bytes) :
    fillPath slot value = .error .misuse ∨
      value ≠ [] ∧ fillPath slot value = .ok (some ⟨value⟩) := by
  unfold fillPath
  split
  · exact .inl rfl
  · next hempty =>
    rw [Bool.or_eq_true, not_or] at hempty
    exact .inr ⟨by simpa using hempty.2, rfl⟩

/-- A value that is given to an option leaves the output directory with a name, or is refused. -/
theorem fair_fill (hd : d.Named) (option : ValueOption) (value : Bytes) :
    Fair id (d.fill option value) := by
  unfold fill
  cases option with
  | directory =>
    rcases fillPath_cases d.directory? value with h | ⟨-, h⟩
    · exact h ▸ .misuse
    · exact h ▸ .read hd
  | outputDirectory =>
    rcases fillPath_cases d.outputDirectory? value with h | ⟨hvalue, h⟩
    · exact h ▸ .misuse
    · refine h ▸ .read ?_
      rintro p ⟨⟩
      exact hvalue
  | suffix =>
    dsimp only
    split
    · exact .read hd
    · exact .misuse
  | maxDepth =>
    dsimp only
    split
    · exact .read hd
    · exact .misuse

/-- Giving the input leaves the output directory as it was. -/
theorem fair_fillInput (hd : d.Named) (value : Bytes) : Fair id (d.fillInput value) := by
  unfold fillInput
  rcases fillPath_cases d.input? value with h | ⟨-, h⟩
  · exact h ▸ .misuse
  · exact h ▸ .read hd

/-- Turning printing on leaves the output directory as it was. -/
theorem fair_turnPrintOn (hd : d.Named) : Fair id d.turnPrintOn := by
  unfold turnPrintOn
  split
  · exact .misuse
  · exact .read hd

/-- Short options in one word are read fairly. -/
theorem fair_readLetters (hd : d.Named) (letters : Bytes) :
    Fair Prod.fst (d.readLetters letters) := by
  induction letters generalizing d with
  | nil => exact .read hd
  | cons letter rest ih =>
    unfold readLetters
    dsimp only
    split
    case h_1 => exact (fair_turnPrintOn hd).bind fun _ ha => ih ha
    case h_2 | h_3 =>
      split
      · exact .read hd
      · exact (fair_fill hd _ _).pending none
    case h_4 | h_5 => exact .stopped nofun
    case h_6 => exact .misuse

/-- A long option is read fairly, with its value or without. -/
theorem fair_readName (hd : d.Named) (text : Bytes) : Fair Prod.fst (d.readName text) := by
  unfold readName
  dsimp only
  split
  case h_1 | h_2 | h_3 | h_4 =>
    split
    · exact (fair_fill hd _ _).pending none
    · exact .read hd
  case h_5 => exact (fair_turnPrintOn hd).pending none
  case h_6 | h_7 => exact .stopped nofun
  case h_8 => exact .misuse

/-- A word is read fairly, whatever it is. -/
theorem fair_readWord (hd : d.Named) (word : Bytes) : Fair Prod.fst (d.readWord word) := by
  unfold readWord
  split
  · split
    · exact (fair_fillInput hd _).pending none
    · split
      · exact fair_readName hd _
      · exact fair_readLetters hd _
  · exact (fair_fillInput hd _).pending none

/-- Words behind the end of the options are read fairly. -/
theorem fair_inputs (hd : d.Named) (words : List Bytes) :
    Fair id (words.foldlM fillInput d) := by
  induction words generalizing d with
  | nil => exact .read hd
  | cons word words ih =>
    rw [List.foldlM_cons]
    exact (fair_fillInput hd word).bind fun _ ha => ih ha

/-- All words are read fairly. -/
theorem fair_readWords (hd : d.Named) (words : List Bytes) : Fair id (d.readWords words) := by
  fun_induction readWords d words with
  | case1 => exact .read hd
  | case2 d rest => exact fair_inputs hd rest
  | case3 d word rest _ stop hword =>
    have hfair := fair_readWord hd word
    rw [hword] at hfair
    cases hfair with
    | stopped hstop => exact .stopped hstop
  | case4 d word rest _ filled hword ih =>
    have hfair := fair_readWord hd word
    rw [hword] at hfair
    cases hfair with
    | read ha => exact ih ha
  | case5 => exact .misuse
  | case6 => exact .misuse
  | case7 d word _ filled option hword value rest _ stop hfill =>
    have hfair := fair_readWord hd word
    rw [hword] at hfair
    cases hfair with
    | read ha => exact hfill ▸ fair_fill ha option value
  | case8 d word _ filled option hword value rest _ filled' hfill ih =>
    have hfair := fair_readWord hd word
    rw [hword] at hfair
    cases hfair with
    | read ha =>
      have hfair' := fair_fill ha option value
      rw [hfill] at hfair'
      cases hfair' with
      | read ha' => exact ih ha'

end Draft

/-- An output directory that is made up has a low line in its name. -/
theorem defaultOutputDirectory_ne_nil (input? : Option Path) (wholeDirectory : Bool)
    (suffix : String) : (defaultOutputDirectory input? wholeDirectory suffix).bytes ≠ [] := by
  have hunderscore : UInt8.ofNat '_'.toNat ∈
      (defaultOutputDirectory input? wholeDirectory suffix).bytes := by
    simp only [defaultOutputDirectory, List.mem_append]
    exact .inl (.inr (by decide +kernel))
  exact List.ne_nil_of_mem hunderscore

/-- The output directory of a command has a name. -/
theorem Invocation.outputDirectory_ne_nil {words : List Bytes} {o : BatchOptions}
    (h : ofArguments words = .batch o) : o.outputDirectory.bytes ≠ [] := by
  have hfair := Draft.fair_readWords (d := .blank) nofun words
  unfold ofArguments at h
  generalize Draft.blank.readWords words = draft at h hfair
  cases hfair with
  | stopped hstop => exact absurd h (hstop o)
  | @read d hnamed =>
    dsimp only at h
    unfold Draft.finish at h
    split at h
    · cases h
    · cases h
      unfold BatchOptions.outputDirectory
      dsimp only
      cases houtput : d.outputDirectory? with
      | some p => exact hnamed p houtput
      | none => exact defaultOutputDirectory_ne_nil _ _ _

end Reckon
