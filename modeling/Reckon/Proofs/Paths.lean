import Mathlib
import Reckon.Batch
import Reckon.Proofs.Decoding

/-!
# Names of paths

A `ProperName` is one that something in a directory can have. Behind a directory it is the last
name of the joined path (`Path.names_join`, `Path.fileName?_join`), and its stem and extension are
those of the name. An input is a name with a stem and the extension (`isInput_iff`).

The name of a result is text, made from what the stem of the input decodes to. So two inputs have
results of one name exactly if their stems decode to the same text (`resultName_injective`), and no
input has the name of its own result (`resultName_ne`).
-/

namespace Reckon

/-! ## Parts between slashes -/

/-- There is always a part, and be it empty. -/
theorem splitSlashes_ne_nil (bytes : Bytes) : splitSlashes bytes ≠ [] := by
  cases bytes with
  | nil => exact List.cons_ne_nil _ _
  | cons byte rest =>
    rw [splitSlashes]
    split
    · exact List.cons_ne_nil _ _
    · split <;> exact List.cons_ne_nil _ _

/-- A byte that is no slash goes into the first part. -/
theorem splitSlashes_cons {byte : UInt8} (hbyte : byte ≠ slash) {rest : Bytes} {part : Name}
    {parts : List Name} (h : splitSlashes rest = part :: parts) :
    splitSlashes (byte :: rest) = (byte :: part) :: parts := by
  rw [splitSlashes, if_neg hbyte, h]

/-- A slash ends the last part before it. -/
theorem splitSlashes_append (before behind : Bytes) :
    splitSlashes (before ++ slash :: behind) = splitSlashes before ++ splitSlashes behind := by
  induction before with
  | nil => simp [splitSlashes]
  | cons byte before ih =>
    by_cases hbyte : byte = slash
    · simp [splitSlashes, hbyte, ih]
    · obtain ⟨part, parts, h⟩ := List.exists_cons_of_ne_nil (splitSlashes_ne_nil before)
      rw [h, List.cons_append] at ih
      rw [List.cons_append, splitSlashes_cons hbyte ih, splitSlashes_cons hbyte h, List.cons_append]

/-- Without a slash, there is one part. -/
theorem splitSlashes_of_no_slash {bytes : Bytes} (h : slash ∉ bytes) :
    splitSlashes bytes = [bytes] := by
  induction bytes with
  | nil => rfl
  | cons byte rest ih =>
    rw [List.mem_cons, not_or] at h
    exact splitSlashes_cons (Ne.symm h.1) (ih h.2)

/-- No part holds a slash. -/
theorem no_slash_of_mem_splitSlashes {bytes : Bytes} {part : Name} (h : part ∈ splitSlashes bytes) :
    slash ∉ part := by
  induction bytes generalizing part with
  | nil =>
    rw [List.mem_singleton.1 h]
    exact List.not_mem_nil
  | cons byte rest ih =>
    by_cases hbyte : byte = slash
    · rw [splitSlashes, if_pos hbyte] at h
      rcases List.mem_cons.1 h with rfl | h
      · exact List.not_mem_nil
      · exact ih h
    · obtain ⟨first, parts, hrest⟩ := List.exists_cons_of_ne_nil (splitSlashes_ne_nil rest)
      rw [splitSlashes_cons hbyte hrest] at h
      rw [hrest] at ih
      rcases List.mem_cons.1 h with rfl | h
      · rw [List.mem_cons, not_or]
        exact ⟨Ne.symm hbyte, ih (List.mem_cons_self ..)⟩
      · exact ih (List.mem_cons_of_mem _ h)

/-! ## Names of a path -/

namespace Path

/-- The names in some bytes. -/
def namesOf (bytes : Bytes) : List Name :=
  (splitSlashes bytes).filter (!·.isEmpty)

/-- The names of a path, without those that stand for the directory itself. -/
def properNames (p : Path) : List Name :=
  p.names.filter (· ≠ hereName)

/-- The names of a path are those in its bytes. -/
theorem names_eq (p : Path) : p.names = namesOf p.bytes :=
  rfl

/-- The names before a slash come before those behind it. -/
theorem namesOf_append (before behind : Bytes) :
    namesOf (before ++ slash :: behind) = namesOf before ++ namesOf behind := by
  simp [namesOf, splitSlashes_append]

/-- No bytes, no names. -/
theorem namesOf_nil : namesOf [] = [] :=
  rfl

/-- Bytes without a slash are one name. -/
theorem namesOf_name {name : Name} (hnil : name ≠ []) (hslash : slash ∉ name) :
    namesOf name = [name] := by
  simp [namesOf, splitSlashes_of_no_slash hslash, hnil]

/-- A name of a path is neither empty nor does it hold a slash. -/
theorem of_mem_names {p : Path} {name : Name} (h : name ∈ p.names) : name ≠ [] ∧ slash ∉ name := by
  obtain ⟨hsplit, hnil⟩ := List.mem_filter.1 h
  exact ⟨by simpa using hnil, no_slash_of_mem_splitSlashes hsplit⟩

/-- Nor does what stands behind a slash at the end hold one. -/
theorem no_slash_of_mem_steps {p : Path} {name : Name} (h : name ∈ p.steps) : slash ∉ name := by
  unfold steps at h
  split at h
  · rcases List.mem_append.1 h with h | h
    · exact (of_mem_names h).2
    · rw [List.mem_singleton.1 h]
      exact List.not_mem_nil
  · exact (of_mem_names h).2

/-! ## Joining -/

/-- A name alone is not absolute. -/
theorem isAbsolute_name {name : Name} (h : slash ∉ name) : (Path.mk name).isAbsolute = false :=
  decide_eq_false fun hhead => h (List.mem_of_mem_head? hhead)

/-- Behind a path that names something, a name stands behind exactly one more slash, if any. -/
theorem join_cases (p : Path) {name : Name} (h : slash ∉ name) :
    (p.bytes = [] ∧ (p.join name).bytes = name) ∨
    (∃ before, p.bytes = before ++ [slash] ∧ (p.join name).bytes = before ++ slash :: name) ∨
    p.bytes ≠ [] ∧ p.endsInSlash = false ∧ (p.join name).bytes = p.bytes ++ slash :: name := by
  unfold join
  rw [if_neg (by simp [isAbsolute_name h])]
  by_cases hempty : p.bytes = []
  · left
    simp [hempty]
  by_cases hslash : p.endsInSlash
  · obtain ⟨before, hbefore⟩ := List.getLast?_eq_some_iff.1 (of_decide_eq_true hslash)
    right; left
    exact ⟨before, hbefore, by simp [hslash, hbefore]⟩
  · right; right
    exact ⟨hempty, by simpa using hslash, by simp [hempty, hslash]⟩

/-- The joined path goes through one more name. -/
theorem names_join (p : Path) {name : Name} (hnil : name ≠ []) (hslash : slash ∉ name) :
    (p.join name).names = p.names ++ [name] := by
  have hname := namesOf_name hnil hslash
  rw [names_eq, names_eq]
  rcases join_cases p hslash with ⟨hp, hjoin⟩ | ⟨before, hp, hjoin⟩ | ⟨-, -, hjoin⟩
  · rw [hjoin, hp, hname]
    rfl
  · rw [hjoin, hp, namesOf_append, namesOf_append, hname, namesOf_nil, List.append_nil]
  · rw [hjoin, namesOf_append, hname]

/-- The joined path ends as the name does. -/
theorem endsInSlash_join (p : Path) {name : Name} (hnil : name ≠ []) (hslash : slash ∉ name) :
    (p.join name).endsInSlash = false := by
  obtain ⟨before, hjoin⟩ : ∃ before, (p.join name).bytes = before ++ name := by
    rcases join_cases p hslash with ⟨-, hjoin⟩ | ⟨before, -, hjoin⟩ | ⟨-, -, hjoin⟩
    · exact ⟨[], by rw [hjoin, List.nil_append]⟩
    · exact ⟨before ++ [slash], by rw [hjoin]; simp⟩
    · exact ⟨p.bytes ++ [slash], by rw [hjoin]; simp⟩
  refine decide_eq_false fun hlast => hslash ?_
  rw [hjoin, List.getLast?_append, List.getLast?_eq_some_getLast hnil, Option.some_or] at hlast
  exact Option.some.inj hlast ▸ List.getLast_mem hnil

/-- Along the joined path, the name comes last. -/
theorem steps_join (p : Path) {name : Name} (hnil : name ≠ []) (hslash : slash ∉ name) :
    (p.join name).steps = p.names ++ [name] := by
  rw [steps, endsInSlash_join p hnil hslash, if_neg Bool.false_ne_true, names_join p hnil hslash]

/-- The joined path starts where the path does. -/
theorem isAbsolute_join {p : Path} (hp : p.bytes ≠ []) {name : Name} (hslash : slash ∉ name) :
    (p.join name).isAbsolute = p.isAbsolute := by
  unfold isAbsolute
  rcases join_cases p hslash with ⟨hempty, -⟩ | ⟨before, hbefore, hjoin⟩ | ⟨-, -, hjoin⟩
  · exact absurd hempty hp
  · rw [hjoin, hbefore]
    cases before <;> rfl
  · obtain ⟨byte, rest, hcons⟩ := List.exists_cons_of_ne_nil hp
    rw [hjoin, hcons]
    rfl

/-- Names behind a path make different paths. -/
theorem join_injective (p : Path) {name name' : Name} (hnil : name ≠ []) (hslash : slash ∉ name)
    (hnil' : name' ≠ []) (hslash' : slash ∉ name') (h : p.join name = p.join name') :
    name = name' := by
  have hnames := congrArg names h
  rw [names_join p hnil hslash, names_join p hnil' hslash'] at hnames
  exact List.singleton_inj.1 (List.append_cancel_left hnames)

/-- The last name of a path, points aside, is its file name. -/
theorem fileName?_of_getLast? {p : Path} {name : Name} (h : p.properNames.getLast? = some name)
    (hup : name ≠ upName) : p.fileName? = some name := by
  rw [fileName?, show p.names.filter (· ≠ hereName) = p.properNames from rfl, h]
  simp [Option.filter, hup]

/-- A path that goes through a name last has it as its file name. -/
theorem fileName?_join (p : Path) {name : Name} (h : ProperName name) :
    (p.join name).fileName? = some name := by
  refine fileName?_of_getLast? ?_ h.ne_up
  rw [properNames, names_join p h.ne_nil h.no_slash]
  simp [h.ne_here]

/-- A name alone is its file name. -/
theorem fileName?_name {name : Name} (h : ProperName name) :
    (Path.mk name).fileName? = some name := by
  refine fileName?_of_getLast? ?_ h.ne_up
  rw [properNames, names_eq, namesOf_name h.ne_nil h.no_slash]
  simp [h.ne_here]

/-- The file name of a path is one of its names. -/
theorem mem_names_of_fileName? {p : Path} {name : Name} (h : p.fileName? = some name) :
    name ∈ p.names :=
  (List.mem_filter.1 (List.mem_of_getLast? (Option.filter_eq_some_iff.1 h).1)).1

end Path

/-! ## Stems and extensions -/

/-- A point that is not at the very beginning, and behind which no other stands, splits a name. -/
theorem splitName_append {stem extension : Name} (hstem : stem ≠ [])
    (hextension : point ∉ extension) :
    splitName (stem ++ point :: extension) = (stem, some extension) := by
  obtain ⟨byte, reversed, hreverse⟩ := List.exists_cons_of_ne_nil (List.reverse_ne_nil_iff.2 hstem)
  have hname : (stem ++ point :: extension).reverse =
      extension.reverse ++ point :: byte :: reversed := by
    simp [hreverse]
  have hkeep : ∀ d ∈ extension.reverse, (d ≠ point : Bool) = true := by
    intro d hd
    rw [List.mem_reverse] at hd
    exact decide_eq_true fun heq => hextension (heq ▸ hd)
  have hdrop : (stem ++ point :: extension).reverse.dropWhile (· ≠ point) =
      point :: byte :: reversed := by
    rw [hname, List.dropWhile_append_of_pos hkeep]
    rfl
  have htake : (stem ++ point :: extension).reverse.takeWhile (· ≠ point) = extension.reverse := by
    rw [hname, List.takeWhile_append_of_pos hkeep]
    simp
  unfold splitName
  rw [hdrop, htake, List.reverse_reverse]
  show ((byte :: reversed).reverse, some extension) = (stem, some extension)
  rw [← hreverse, List.reverse_reverse]

/-- A name is its stem, a point and its extension, or its stem alone. -/
theorem splitName_cases (name : Name) :
    (∃ extension, splitName name = ((splitName name).1, some extension) ∧
      (splitName name).1 ≠ [] ∧ name = (splitName name).1 ++ point :: extension) ∨
      splitName name = (name, none) := by
  have hsplit := List.takeWhile_append_dropWhile (p := fun d => (d ≠ point : Bool))
    (l := name.reverse)
  unfold splitName
  split
  · next d byte stem hdrop =>
    left
    have hd : d = point := by
      have hhead := List.head?_dropWhile_not (fun d => (d ≠ point : Bool)) name.reverse
      rw [hdrop] at hhead
      simpa using hhead
    refine ⟨_, rfl, by simp, ?_⟩
    rw [hdrop, hd] at hsplit
    have hname := congrArg List.reverse hsplit
    simpa using hname.symm
  · exact .inr rfl

/-- The name of an input: a stem and the extension. -/
def inputName (stem : Name) : Name :=
  stem ++ point :: (inputExtension : Bytes)

/-- The name of an input is its stem and the extension. -/
theorem splitName_inputName {stem : Name} (h : stem ≠ []) :
    splitName (inputName stem) = (stem, some (inputExtension : Bytes)) :=
  splitName_append h (by decide +kernel)

/-- The extension of a name is the one of inputs if it ends in that behind a stem. -/
theorem extension?_eq_iff {name : Name} (h : ProperName name) :
    (Path.mk name).extension? = some (inputExtension : Bytes) ↔
      ∃ stem, stem ≠ [] ∧ name = inputName stem := by
  unfold Path.extension?
  rw [Path.fileName?_name h, Option.bind_some]
  constructor
  · intro hextension
    rcases splitName_cases name with ⟨extension, hcases, hstem, hname⟩ | hcases
    · rw [hcases] at hextension
      obtain rfl := Option.some.inj hextension
      exact ⟨_, hstem, hname⟩
    · rw [hcases] at hextension
      cases hextension
  · rintro ⟨stem, hstem, rfl⟩
    rw [splitName_inputName hstem]

/-- The things inside of a directory that are inputs. -/
theorem isInput_iff {e : DirectoryEntry} (h : ProperName e.name) :
    isInput e ↔ e.isFile ∧ ∃ stem, stem ≠ [] ∧ e.name = inputName stem := by
  rw [isInput, Bool.and_eq_true, decide_eq_true_eq, extension?_eq_iff h]

/-- Behind a directory, the stem of an input is that of its name, read as text. -/
theorem stemText?_join (p : Path) {stem : Name} (h : ProperName (inputName stem))
    (hstem : stem ≠ []) : (p.join (inputName stem)).stemText? = some (Utf8.decode stem) := by
  rw [Path.stemText?, Path.stem?, Path.fileName?_join p h, Option.map_some,
    splitName_inputName hstem, Option.map_some]

/-- The stem of a path holds no slash. -/
theorem Path.no_slash_of_stemText? {p : Path} {stem : String} (h : p.stemText? = some stem) :
    '/' ∉ stem.toList := by
  obtain ⟨bytes, hbytes, rfl⟩ := Option.map_eq_some_iff.1 h
  obtain ⟨name, hname, rfl⟩ := Option.map_eq_some_iff.1 hbytes
  have hslash := (of_mem_names (mem_names_of_fileName? hname)).2
  intro hmem
  have hstem : slash ∈ (splitName name).1 := Utf8.mem_of_mem_decode hmem (by decide)
  rcases splitName_cases name with ⟨extension, -, -, hsplit⟩ | hsplit
  · rw [hsplit] at hslash
    exact hslash (List.mem_append_left _ hstem)
  · rw [hsplit] at hstem
    exact hslash hstem

/-! ## Results -/

/-- The name of a result: a stem, the suffix and the extension. -/
def resultName (stem suffix : String) : Name :=
  (stem ++ "_" ++ suffix ++ "." ++ inputExtension : String)

/-- A file does not have the name of its own result. -/
theorem resultName_ne (name : Name) (suffix : String) :
    resultName (Utf8.decode (splitName name).1) suffix ≠ name := by
  intro heq
  -- the name is text, since that of the result is, and it begins with the text of its stem
  have htext : (Utf8.decode (splitName name).1).toList ++
      '_' :: (suffix.toList ++ '.' :: inputExtension.toList) = Utf8.decodeFrom none name := by
    have hdecode := (Utf8.decode_encode _).symm.trans (congrArg Utf8.decode heq)
    simpa [Utf8.decode] using congrArg String.toList hdecode
  rcases splitName_cases name with ⟨extension, -, -, hname⟩ | hcases
  · -- behind the stem stands a point in the one name and a low line in the other
    have hpoint := Utf8.decodeFrom_append_ascii Utf8.sound_none (splitName name).1
      (show point.toNat < 0x80 by decide) extension
    rw [← hname, ← htext, Utf8.decode, String.toList_ofList] at hpoint
    have hbehind := (List.cons.inj (List.append_cancel_left hpoint)).1
    exact absurd hbehind (by decide)
  · rw [hcases, Utf8.decode, String.toList_ofList] at htext
    simp at htext

/-- Results of one suffix have one name only if the stems are one text. -/
theorem resultName_injective {stem stem' suffix : String}
    (h : resultName stem suffix = resultName stem' suffix) : stem = stem' := by
  have h := congrArg String.toList (Utf8.encode_injective h)
  simp only [String.toList_append, List.append_assoc] at h
  exact String.toList_inj.1 (List.append_cancel_right h)

/-- A result has a name that something can have. -/
theorem resultName_properName {stem suffix : String} (hstem : '/' ∉ stem.toList)
    (hsuffix : '/' ∉ suffix.toList) : ProperName (resultName stem suffix) := by
  have hunderscore : UInt8.ofNat '_'.toNat ∈ resultName stem suffix := by
    simp only [resultName, Utf8.encode_append, List.mem_append]
    exact .inl (.inl (.inl (.inr (by decide +kernel))))
  refine ⟨List.ne_nil_of_mem hunderscore, fun hmem => ?_, ?_, ?_⟩
  · have hslash := Utf8.mem_of_mem_encode (c := '/') hmem (by decide)
    simp [hstem, hsuffix, inputExtension] at hslash
  · intro h
    rw [h] at hunderscore
    exact absurd hunderscore (by decide)
  · intro h
    rw [h] at hunderscore
    exact absurd hunderscore (by decide)

end Reckon
