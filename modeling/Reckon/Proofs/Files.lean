import Mathlib
import Reckon.Files.Tree

/-!
# What is in a file tree

What `FileTree.put` puts at a location that admits it is there, and nothing else changes
(`FileTree.get?_put`). What is in a tree stands in a directory under a name
(`FileTree.exists_parent`) and is one of the entries (`FileTree.get?_eq_some_iff`). Rights are
withheld only from what is there (`FileTree.grants_of_get?_eq_none`).
-/

namespace Reckon

/-- A location with a place is a name in a directory. -/
theorem hasPlace_iff {entries : List (Location × Entry)} {location : Location} :
    HasPlace entries location ↔ ∃ directory name, location = directory ++ [name] ∧
      ProperName name ∧ entryAt entries directory = some .directory := by
  constructor
  · rintro ⟨name, hlast, hproper, hdirectory⟩
    obtain ⟨directory, rfl⟩ := List.getLast?_eq_some_iff.1 hlast
    rw [List.dropLast_concat] at hdirectory
    exact ⟨directory, name, rfl, hproper, hdirectory⟩
  · rintro ⟨directory, name, rfl, hproper, hdirectory⟩
    refine ⟨name, List.getLast?_concat, hproper, ?_⟩
    rwa [List.dropLast_concat]

/-- Where each location is there once, each entry is what is found at its location. -/
theorem lookup_of_mem {entries : List (Location × Entry)} {location : Location} {entry : Entry}
    (h : (entries.map Prod.fst).Nodup) (hmem : (location, entry) ∈ entries) :
    entries.lookup location = some entry := by
  induction entries with
  | nil => cases hmem
  | cons first rest ih =>
    obtain ⟨name, value⟩ := first
    rw [List.map_cons, List.nodup_cons] at h
    rw [lookup_cons_eq]
    rcases List.mem_cons.1 hmem with heq | hrest
    · cases heq
      exact if_pos rfl
    · have hne : location ≠ name := by
        rintro rfl
        exact h.1 (List.mem_map.2 ⟨(location, entry), hrest, rfl⟩)
      rw [if_neg hne, ih h.2 hrest]

/-- What takes the place of something comes where that was. -/
theorem map_fst_putEntry {entries : List (Location × Entry)} {location : Location} (entry : Entry)
    (h : entries.lookup location ≠ none) :
    (putEntry location entry entries).map Prod.fst = entries.map Prod.fst := by
  induction entries with
  | nil => exact absurd rfl h
  | cons first rest ih =>
    obtain ⟨name, value⟩ := first
    rw [lookup_cons_eq] at h
    rw [putEntry]
    split
    · next hname => rw [List.map_cons, List.map_cons, hname]
    · next hname =>
      rw [if_neg (Ne.symm hname)] at h
      rw [List.map_cons, ih h, List.map_cons]

/-- Entries are known from their locations, in order, and from what is found there. -/
theorem entries_ext {entries entries' : List (Location × Entry)}
    (hnodup : (entries.map Prod.fst).Nodup)
    (hlocations : entries'.map Prod.fst = entries.map Prod.fst)
    (hlookup : ∀ key, entries'.lookup key = entries.lookup key) : entries' = entries := by
  induction entries generalizing entries' with
  | nil => exact List.map_eq_nil_iff.1 hlocations
  | cons first rest ih =>
    obtain ⟨name, value⟩ := first
    obtain ⟨⟨name', value'⟩, rest', rfl, hname, hrest⟩ := List.map_eq_cons_iff.1 hlocations
    obtain rfl : name' = name := hname
    rw [List.map_cons, List.nodup_cons] at hnodup
    have hvalue := hlookup name'
    rw [List.lookup_cons_self, List.lookup_cons_self] at hvalue
    obtain rfl := Option.some.inj hvalue
    refine congrArg _ (ih hnodup.2 hrest fun key => ?_)
    by_cases hkey : key = name'
    · have hnone {entries : List (Location × Entry)} (h : key ∉ entries.map Prod.fst) :
          entries.lookup key = none :=
        List.lookup_eq_none_iff.2 fun e he => bne_iff_ne.2 fun heq =>
          h (heq ▸ List.mem_map_of_mem he)
      rw [hnone (hkey ▸ hrest ▸ hnodup.1), hnone (hkey ▸ hnodup.1)]
    · have hkeys := hlookup key
      rwa [lookup_cons_eq, lookup_cons_eq, if_neg hkey, if_neg hkey] at hkeys

namespace FileTree

variable {t t' : FileTree} {location : Location} {entry : Entry}

/-! ## What is at a location -/

/-- The root is a directory. -/
@[simp] theorem get?_nil (t : FileTree) : t.get? [] = some .directory :=
  entryAt_nil t.entries

/-- The current directory is a directory. -/
theorem get?_home (t : FileTree) : t.get? t.home = some .directory :=
  t.wellFormed.home

/-- What is found below the root is one of the entries. -/
theorem mem_entries_of_get? (h : location ≠ []) (hget : t.get? location = some entry) :
    (location, entry) ∈ t.entries := by
  rw [get?, entryAt_of_ne_nil h] at hget
  obtain ⟨before, behind, hentries, -⟩ := List.lookup_eq_some_iff.1 hget
  rw [hentries]
  exact List.mem_append_right _ (List.mem_cons_self ..)

/-- What is at a location other than the root is one of the entries. -/
theorem get?_eq_some_iff (hne : location ≠ []) :
    t.get? location = some entry ↔ (location, entry) ∈ t.entries := by
  refine ⟨mem_entries_of_get? hne, fun hmem => ?_⟩
  rw [get?, entryAt_of_ne_nil hne]
  exact lookup_of_mem t.wellFormed.nodup hmem

/-- Something other than the root stands in a directory, under a name. -/
theorem hasPlace (hne : location ≠ []) (hget : t.get? location = some entry) :
    HasPlace t.entries location :=
  t.wellFormed.hasPlace _ (mem_entries_of_get? hne hget)

/-- What is found below the root has a name in some directory. -/
theorem exists_parent (hne : location ≠ []) (hget : t.get? location = some entry) :
    ∃ directory name, location = directory ++ [name] ∧ ProperName name ∧
      t.get? directory = some .directory :=
  hasPlace_iff.1 (hasPlace hne hget)

/-- Above anything there is a directory; the root is above itself. -/
theorem get?_dropLast (hget : t.get? location = some entry) :
    t.get? location.dropLast = some .directory := by
  by_cases hne : location = []
  · rw [hne]
    exact get?_nil t
  · obtain ⟨directory, name, rfl, -, hdirectory⟩ := exists_parent hne hget
    rwa [List.dropLast_concat]

/-- Nothing is withheld from what is not there. -/
theorem grants_of_get?_eq_none (h : t.get? location = none) (right : Right) :
    t.grants location right := by
  have hmem : (location, right) ∉ t.withheld := fun hmem => t.wellFormed.withheld _ hmem h
  simpa [grants] using hmem

/-! ## What is put somewhere -/

/-- What is put somewhere does not move the current directory. -/
@[simp] theorem home_put (t : FileTree) (location : Location) (entry : Entry) :
    (t.put location entry).home = t.home := by
  unfold put
  split <;> rfl

/-- Nor does it change the rights. -/
@[simp] theorem withheld_put (t : FileTree) (location : Location) (entry : Entry) :
    (t.put location entry).withheld = t.withheld := by
  unfold put
  split <;> rfl

/-- What is put is there, and elsewhere is what was there before. -/
theorem get?_put (h : Admits t.entries location entry) (key : Location) :
    (t.put location entry).get? key = if key = location then some entry else t.get? key := by
  rw [put, dif_pos h]
  exact entryAt_putEntry h.hasPlace.ne_nil key

/-- What is put somewhere is found there. -/
theorem get?_put_self (h : Admits t.entries location entry) :
    (t.put location entry).get? location = some entry := by
  rw [get?_put h, if_pos rfl]

/-- What is elsewhere stays. -/
theorem get?_put_of_ne (h : Admits t.entries location entry) {key : Location}
    (hkey : key ≠ location) : (t.put location entry).get? key = t.get? key := by
  rw [get?_put h, if_neg hkey]

/-- What takes the place of something comes where that was. -/
theorem locations_put (hget : t.get? location ≠ none) :
    (t.put location entry).entries.map Prod.fst = t.entries.map Prod.fst := by
  unfold put
  split
  · next h =>
    rw [get?, entryAt_of_ne_nil h.hasPlace.ne_nil] at hget
    exact map_fst_putEntry entry hget
  · rfl

/-- Nothing is listed at the root, which is there anyway. -/
theorem lookup_nil (t : FileTree) : t.entries.lookup [] = none :=
  List.lookup_eq_none_iff.2 fun e he =>
    bne_iff_ne.2 (t.wellFormed.hasPlace e he).ne_nil.symm

/-- Trees that hold the same at the same locations, listed in the same order, are the same. -/
theorem ext_get? (hhome : t'.home = t.home) (hwithheld : t'.withheld = t.withheld)
    (hlocations : t'.entries.map Prod.fst = t.entries.map Prod.fst)
    (hget : ∀ key, t'.get? key = t.get? key) : t' = t := by
  have hentries : t'.entries = t.entries := by
    refine entries_ext t.wellFormed.nodup hlocations fun key => ?_
    by_cases hkey : key = []
    · rw [hkey, lookup_nil, lookup_nil]
    · rw [← entryAt_of_ne_nil hkey, ← entryAt_of_ne_nil hkey]
      exact hget key
  cases t
  cases t'
  simp_all only

/-- A file can be put where a file is. -/
theorem admits_of_file {content : Bytes} (h : t.get? location = some (.file content))
    (content' : Bytes) : Admits t.entries location (.file content') where
  hasPlace := by
    refine hasPlace ?_ h
    rintro rfl
    rw [get?_nil] at h
    cases h
  fits hdirectory := by cases h.symm.trans hdirectory

/-- Anything can be put where nothing is, under a name in a directory. -/
theorem admits_of_none {directory : Location} {name : Name} (hname : ProperName name)
    (hdirectory : t.get? directory = some .directory) (h : t.get? (directory ++ [name]) = none)
    (entry : Entry) : Admits t.entries (directory ++ [name]) entry where
  hasPlace := hasPlace_iff.2 ⟨directory, name, rfl, hname, hdirectory⟩
  fits hget := by cases h.symm.trans hget

/-! ## What is directly inside of a directory -/

variable {directory : Location} {name : Name}

/-- What is listed has its name in the directory. -/
theorem location_of_child {e : DirectoryEntry}
    (h : (match location.getLast? with
      | some name =>
        if location.dropLast = directory then
          some (DirectoryEntry.mk name (match entry with | .file _ => true | _ => false))
        else none
      | none => none) = some e) : location = directory ++ [e.name] := by
  split at h
  · next last hlast =>
    split at h
    · next hdirectory =>
      obtain ⟨before, rfl⟩ := List.getLast?_eq_some_iff.1 hlast
      rw [List.dropLast_concat] at hdirectory
      cases h
      rw [hdirectory]
    · cases h
  · cases h

/-- What is directly inside of a directory is one of the entries. -/
theorem of_mem_children {e : DirectoryEntry} (h : e ∈ t.children directory) :
    ∃ entry, (directory ++ [e.name], entry) ∈ t.entries := by
  obtain ⟨⟨location, entry⟩, hmem, hsome⟩ := List.mem_filterMap.1 h
  obtain rfl := location_of_child hsome
  exact ⟨entry, hmem⟩

/-- The files directly inside of a directory. -/
theorem mem_children_iff : ⟨name, true⟩ ∈ t.children directory ↔
    ∃ content, t.get? (directory ++ [name]) = some (.file content) := by
  have hne : directory ++ [name] ≠ [] := List.concat_ne_nil _ _
  constructor
  · intro h
    obtain ⟨⟨location, entry⟩, hmem, hsome⟩ := List.mem_filterMap.1 h
    have hlocation : location = directory ++ [name] := location_of_child hsome
    subst hlocation
    cases entry with
    | file content => exact ⟨content, (get?_eq_some_iff hne).2 hmem⟩
    | directory | link => simp at hsome
  · rintro ⟨content, hget⟩
    exact List.mem_filterMap.2 ⟨_, (get?_eq_some_iff hne).1 hget, by simp⟩

/-- What is listed has a name that it can have. -/
theorem properName_of_child {e : DirectoryEntry} (h : e ∈ t.children directory) :
    ProperName e.name := by
  obtain ⟨entry, hmem⟩ := of_mem_children h
  obtain ⟨parent, name, hlocation, hproper, -⟩ := hasPlace_iff.1 (t.wellFormed.hasPlace _ hmem)
  rwa [List.singleton_inj.1 (List.append_inj_right' hlocation rfl)]

/-- Nothing is listed twice. -/
theorem nodup_children (t : FileTree) (directory : Location) :
    ((t.children directory).map (·.name)).Nodup := by
  have hlocations : t.entries.Pairwise fun e e' => e.1 ≠ e'.1 :=
    List.pairwise_map.1 t.wellFormed.nodup
  refine List.pairwise_map.2 (List.pairwise_filterMap.2 (hlocations.imp ?_))
  rintro ⟨location, entry⟩ ⟨location', entry'⟩ hne e he e' he' hname
  exact hne (by rw [location_of_child he, location_of_child he', hname])

end FileTree

end Reckon
