import Reckon.Proofs.Files.Directories
import Reckon.Proofs.Ledger.Books

/-!
# Inputs of a directory

The inputs of a directory are its files with a stem and the extension, each once and in the order
of the bytes of their names (`FileTree.mem_inputNames`, `FileTree.ascending_inputNames`), so they
are known from what is in the directory (`FileTree.inputNames_congr`), whatever order that is listed
in. While files are written, an input stays where it is, and can be read then if it could be read
before (`FileTree.read_input`).
-/

namespace Reckon

/-! ## Names in order -/

/-- Names in the order of their bytes, each once. -/
def Ascending (names : List Name) : Prop :=
  names.Pairwise fun a b => a < b

/-- Names that ascend are there once each. -/
theorem Ascending.nodup {names : List Name} (h : Ascending names) : names.Nodup := by
  refine List.Pairwise.imp ?_ h
  rintro a b hlt rfl
  exact List.lt_irrefl _ hlt

/-- Names that ascend are known from which they are. -/
theorem Ascending.unique {names names' : List Name} (h : Ascending names) (h' : Ascending names')
    (hmem : ∀ name, name ∈ names ↔ name ∈ names') : names = names' := by
  refine ((List.perm_ext_iff_of_nodup h.nodup h'.nodup).2 hmem).eq_of_pairwise ?_ h h'
  intro a b _ _ hab hba
  exact absurd hba (List.lt_asymm hab)

/-- The order of names is transitive, as sorting requires. -/
theorem nameOrder_trans (a b c : DirectoryEntry) (hab : nameOrder a b) (hbc : nameOrder b c) :
    nameOrder a c :=
  decide_eq_true (List.le_trans (of_decide_eq_true hab) (of_decide_eq_true hbc))

/-- The order of names is total, as sorting requires. -/
theorem nameOrder_total (a b : DirectoryEntry) : nameOrder a b || nameOrder b a := by
  unfold nameOrder
  simpa using List.le_total a.name b.name

namespace FileTree

variable {t t' : FileTree} {directory : Location} {name : Name}

/-! ## The inputs -/

/-- The names of the inputs of a directory. -/
def inputNames (t : FileTree) (directory : Location) : List Name :=
  (((t.children directory).filter isInput).mergeSort nameOrder).map (·.name)

/-- The inputs of a directory are the files in it that have a stem and the extension. -/
theorem mem_inputNames : name ∈ t.inputNames directory ↔
    (∃ stem, stem ≠ [] ∧ name = inputName stem) ∧
      ∃ content, t.get? (directory ++ [name]) = some (.file content) := by
  unfold inputNames
  rw [List.mem_map]
  constructor
  · rintro ⟨e, he, rfl⟩
    obtain ⟨hchild, hinput⟩ := List.mem_filter.1 (List.mem_mergeSort.1 he)
    obtain ⟨hfile, hname⟩ := (isInput_iff (properName_of_child hchild)).1 hinput
    obtain ⟨name, isFile⟩ := e
    obtain rfl : isFile = true := hfile
    exact ⟨hname, mem_children_iff.1 hchild⟩
  · rintro ⟨hname, hget⟩
    have hchild := mem_children_iff.2 hget
    refine ⟨⟨name, true⟩, List.mem_mergeSort.2 (List.mem_filter.2 ⟨hchild, ?_⟩), rfl⟩
    exact (isInput_iff (properName_of_child hchild)).2 ⟨rfl, hname⟩

/-- The inputs of a directory come in the order of their names, each once. -/
theorem ascending_inputNames (t : FileTree) (directory : Location) :
    Ascending (t.inputNames directory) := by
  have hsorted := List.pairwise_mergeSort nameOrder_trans nameOrder_total
    ((t.children directory).filter isInput)
  have hnodup : (t.inputNames directory).Nodup := by
    have hfilter : (((t.children directory).filter isInput).map (·.name)).Nodup :=
      (t.nodup_children directory).sublist (List.filter_sublist.map _)
    exact ((List.mergeSort_perm _ nameOrder).map _).nodup_iff.2 hfilter
  refine List.pairwise_map.2 (hsorted.imp₂ ?_ (List.pairwise_map.1 hnodup))
  intro a b hle hne
  exact Std.lt_of_le_of_ne (of_decide_eq_true hle) hne

/-- The inputs of a directory are known from what is in it. -/
theorem inputNames_congr (h : ∀ name, (∃ stem, stem ≠ [] ∧ name = inputName stem) →
      ((∃ content, t'.get? (directory ++ [name]) = some (.file content)) ↔
        ∃ content, t.get? (directory ++ [name]) = some (.file content))) :
    t'.inputNames directory = t.inputNames directory := by
  refine (t'.ascending_inputNames directory).unique (t.ascending_inputNames directory) ?_
  intro name
  rw [mem_inputNames, mem_inputNames]
  exact and_congr_right (h name)

/-- The inputs of a directory that may be read are its names behind its path. -/
theorem collect_eq {d : Path} (h : t.resolve true d = .ok (.occupied directory .directory))
    (hread : t.grants directory .read) :
    t.collect d = .ok ((t.inputNames directory).map d.join) := by
  have hlist : t.list d = .ok (t.children directory) := by
    unfold list
    rw [h]
    exact if_pos hread
  rw [collect, hlist, inputNames, List.map_map]
  rfl

/-- A file has no inputs. -/
theorem collect_eq_nil {d : Path} {content : Bytes}
    (h : t.resolve true d = .ok (.occupied directory (.file content))) : t.collect d = .ok [] := by
  have hlist : t.list d = .ok [] := by
    unfold list
    rw [h]
    rfl
  rw [collect, hlist]
  simp

/-- The inputs of a path are those of the directory it leads to; those of a file are none. -/
theorem collect_cases {d : Path} {inputs : List Path} (h : t.collect d = .ok inputs) :
    (∃ directory, t.resolve true d = .ok (.occupied directory .directory) ∧
      t.grants directory .read ∧ inputs = (t.inputNames directory).map d.join) ∨
    inputs = [] ∧
      ∃ location content, t.resolve true d = .ok (.occupied location (.file content)) := by
  cases hresolve : t.resolve true d with
  | error e =>
    unfold collect list at h
    rw [hresolve] at h
    cases h
  | ok place =>
    cases place with
    | vacant location =>
      unfold collect list at h
      rw [hresolve] at h
      cases h
    | occupied location entry =>
      cases entry with
      | directory =>
        by_cases hread : t.grants location .read
        · rw [collect_eq hresolve hread] at h
          cases h
          exact .inl ⟨location, rfl, hread, rfl⟩
        · have hlist : t.list d = .error .denied := by
            unfold list
            rw [hresolve]
            exact if_neg hread
          rw [collect, hlist] at h
          cases h
      | file content =>
        rw [collect_eq_nil hresolve] at h
        cases h
        exact .inr ⟨rfl, location, content, rfl⟩
      | link target => exact absurd hresolve resolve_ne_link

/-- An input has a name that something can have. -/
theorem properName_of_mem_inputNames (hname : name ∈ t.inputNames directory) : ProperName name := by
  obtain ⟨-, hfile⟩ := mem_inputNames.1 hname
  exact properName_of_child (mem_children_iff.2 hfile)

/-- An input can be read later if it can be read now. -/
theorem read_input {d : Path} (hd : t.resolve true d = .ok (.occupied directory .directory))
    (hname : name ∈ t.inputNames directory) (hkeeps : t.Keeps t') :
    ∃ content, t'.get? (directory ++ [name]) = some (.file content) ∧
      t'.read (d.join name) = (t.readable directory d name).map fun _ => content := by
  obtain ⟨-, content, hget⟩ := mem_inputNames.1 hname
  obtain ⟨content', hget'⟩ := (hget ▸ hkeeps.entry (directory ++ [name])).of_file
  refine ⟨content', hget', ?_⟩
  rw [← hkeeps.readable]
  exact read_join (hkeeps.resolve_directory hd) (properName_of_mem_inputNames hname) hget'

/-- Making directories adds no input and loses none. -/
theorem Makes.inputNames (h : t.Makes t') (directory : Location) :
    t'.inputNames directory = t.inputNames directory :=
  inputNames_congr fun _ _ =>
    ⟨fun ⟨content, hget⟩ => ⟨content, h.of_file _ content hget⟩,
      fun ⟨content, hget⟩ => ⟨content, h.file hget⟩⟩

/-- Making directories changes nothing about what is selected. -/
theorem Makes.select (h : t.Makes t') {directory? input? : Option Path} {inputs : List Path}
    (hselect : t.select directory? input? = .ok inputs) :
    t'.select directory? input? = .ok inputs := by
  rcases directory? with _ | d
  · cases input? <;> exact hselect
  · have hcollect : t.collect d = .ok inputs := hselect
    show t'.collect d = .ok inputs
    rcases collect_cases hcollect with ⟨directory, hd, hread, rfl⟩ | ⟨rfl, location, content, hd⟩
    · rw [collect_eq (h.toKeeps.resolve_directory hd) ((h.toKeeps.grants _ _).trans hread),
        h.inputNames directory]
    · exact collect_eq_nil (h.toKeeps.resolve_file hd (h.file (resolve_has hd)))

end FileTree

end Reckon
