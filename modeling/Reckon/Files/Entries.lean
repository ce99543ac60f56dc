import Reckon.Files.Path

/-!
# Entries of a file tree

A file tree is a list of entries, each at its `Location` below the root (`entryAt`), and
`putEntry` puts one there. Entries are `WellFormed` if each is there once, has a name, and stands in
a directory. They stay so when one is put where they admit it (`WellFormed.put`).
-/

namespace Reckon

/-- Where something is: the names on the way from the root. -/
abbrev Location := List Name

/-- What is at a location. -/
inductive Entry where
  | file (content : Bytes)
  | directory
  | link (target : Path)
  deriving DecidableEq, Repr

/-- What may be done with something. -/
inductive Right where
  /-- To read a file, or to list a directory. -/
  | read
  /-- To write a file, or to put something new into a directory. -/
  | write
  /-- To go through a directory. -/
  | search
  deriving DecidableEq, Repr

/-- What is at a location; the root is a directory. -/
def entryAt (entries : List (Location × Entry)) (location : Location) : Option Entry :=
  if location = [] then some .directory else entries.lookup location

/-- Puts something at a location, in place of what is there. -/
def putEntry (location : Location) (entry : Entry) :
    List (Location × Entry) → List (Location × Entry)
  | [] => [(location, entry)]
  | (key, value) :: rest =>
    if key = location then (location, entry) :: rest
    else (key, value) :: putEntry location entry rest

/-- A location has a name in a directory. -/
def HasPlace (entries : List (Location × Entry)) (location : Location) : Prop :=
  ∃ name ∈ location.getLast?, ProperName name ∧
    entryAt entries location.dropLast = some .directory

instance (entries : List (Location × Entry)) (location : Location) :
    Decidable (HasPlace entries location) :=
  inferInstanceAs (Decidable (∃ name ∈ location.getLast?, ProperName name ∧
    entryAt entries location.dropLast = some .directory))

/-- Entries of a tree: each is there once, has a name, and stands in a directory. The working
directory is one of them or the root, and a right is withheld only from what is there. -/
structure WellFormed (home : Location) (entries : List (Location × Entry))
    (withheld : List (Location × Right)) : Prop where
  nodup : (entries.map Prod.fst).Nodup
  hasPlace : ∀ e ∈ entries, HasPlace entries e.1
  home : entryAt entries home = some .directory
  withheld : ∀ w ∈ withheld, entryAt entries w.1 ≠ none

instance (home : Location) (entries : List (Location × Entry))
    (withheld : List (Location × Right)) : Decidable (WellFormed home entries withheld) :=
  decidable_of_iff ((entries.map Prod.fst).Nodup ∧ (∀ e ∈ entries, HasPlace entries e.1) ∧
      entryAt entries home = some .directory ∧ ∀ w ∈ withheld, entryAt entries w.1 ≠ none)
    ⟨fun ⟨hnodup, hplace, hhome, hwithheld⟩ => ⟨hnodup, hplace, hhome, hwithheld⟩,
      fun ⟨hnodup, hplace, hhome, hwithheld⟩ => ⟨hnodup, hplace, hhome, hwithheld⟩⟩

/-- Whether something can be put at a location: the location has a name in a directory, and no
directory is lost. -/
structure Admits (entries : List (Location × Entry)) (location : Location) (entry : Entry) :
    Prop where
  hasPlace : HasPlace entries location
  fits : entryAt entries location = some .directory → entry = .directory

instance (entries : List (Location × Entry)) (location : Location) (entry : Entry) :
    Decidable (Admits entries location entry) :=
  decidable_of_iff (HasPlace entries location ∧
      (entryAt entries location = some .directory → entry = .directory))
    ⟨fun ⟨hplace, hfits⟩ => ⟨hplace, hfits⟩, fun ⟨hplace, hfits⟩ => ⟨hplace, hfits⟩⟩

/-! ## What is put somewhere -/

variable {entries : List (Location × Entry)} {location : Location} {entry : Entry}

/-- The root is a directory, whatever the entries are. -/
@[simp] theorem entryAt_nil (entries : List (Location × Entry)) :
    entryAt entries [] = some .directory :=
  if_pos rfl

/-- Below the root, the entries say what is there. -/
theorem entryAt_of_ne_nil (h : location ≠ []) :
    entryAt entries location = entries.lookup location :=
  if_neg h

/-- The first entry is what is found at its location, and behind it the others are. -/
theorem lookup_cons_eq (key name : Location) (value : Entry) (rest : List (Location × Entry)) :
    ((name, value) :: rest).lookup key = if key = name then some value else rest.lookup key := by
  by_cases hkey : key = name
  · rw [if_pos hkey, hkey, List.lookup_cons_self]
  · rw [if_neg hkey, List.lookup_cons, beq_eq_false_iff_ne.2 hkey]

/-- What was put at a location is found there, and elsewhere what was there before. -/
theorem lookup_putEntry (location key : Location) (entry : Entry)
    (entries : List (Location × Entry)) :
    (putEntry location entry entries).lookup key =
      if key = location then some entry else entries.lookup key := by
  induction entries with
  | nil => exact lookup_cons_eq key location entry []
  | cons first rest ih =>
    obtain ⟨name, value⟩ := first
    by_cases hname : name = location
    · subst hname
      rw [putEntry, if_pos rfl, lookup_cons_eq, lookup_cons_eq]
      split <;> rfl
    · rw [putEntry, if_neg hname, lookup_cons_eq, lookup_cons_eq, ih]
      by_cases hkey : key = name
      · rw [if_pos hkey, if_neg (hkey ▸ hname), if_pos hkey]
      · rw [if_neg hkey, if_neg hkey]

/-- What is put is found at its location, and everywhere else what was there. -/
theorem entryAt_putEntry (h : location ≠ []) (key : Location) :
    entryAt (putEntry location entry entries) key =
      if key = location then some entry else entryAt entries key := by
  by_cases hkey : key = []
  · rw [hkey, entryAt_nil, entryAt_nil, if_neg (Ne.symm h)]
  · rw [entryAt_of_ne_nil hkey, entryAt_of_ne_nil hkey]
    exact lookup_putEntry location key entry entries

/-- Nothing comes but what is put. -/
theorem mem_putEntry {e : Location × Entry} (h : e ∈ putEntry location entry entries) :
    e = (location, entry) ∨ e ∈ entries := by
  induction entries with
  | nil => exact .inl (List.mem_singleton.1 h)
  | cons first rest ih =>
    obtain ⟨name, value⟩ := first
    rw [putEntry] at h
    split at h
    · exact (List.mem_cons.1 h).imp_right (List.mem_cons_of_mem _)
    · rcases List.mem_cons.1 h with rfl | h
      · exact .inr (List.mem_cons_self ..)
      · exact (ih h).imp_right (List.mem_cons_of_mem _)

/-- What is put takes the place of what was there, so nothing is there twice. -/
theorem nodup_putEntry (h : (entries.map Prod.fst).Nodup) :
    ((putEntry location entry entries).map Prod.fst).Nodup := by
  induction entries with
  | nil => exact List.nodup_cons.2 ⟨List.not_mem_nil, List.nodup_nil⟩
  | cons first rest ih =>
    obtain ⟨name, value⟩ := first
    rw [List.map_cons, List.nodup_cons] at h
    rw [putEntry]
    split
    · next hname => exact List.nodup_cons.2 ⟨hname ▸ h.1, h.2⟩
    · next hname =>
      refine List.nodup_cons.2 ⟨fun hmem => ?_, ih h.2⟩
      obtain ⟨e, he, hfst⟩ := List.mem_map.1 hmem
      rcases mem_putEntry he with rfl | he
      · exact hname hfst.symm
      · exact h.1 (hfst ▸ List.mem_map_of_mem he)

/-- Nothing can be put at the root. -/
theorem HasPlace.ne_nil (h : HasPlace entries location) : location ≠ [] := by
  rintro rfl
  obtain ⟨name, hlast, -⟩ := h
  cases hlast

/-- A directory stays one when something is put that fits. -/
theorem Admits.directory (h : Admits entries location entry) {directory : Location}
    (hdirectory : entryAt entries directory = some .directory) :
    entryAt (putEntry location entry entries) directory = some .directory := by
  rw [entryAt_putEntry h.hasPlace.ne_nil]
  split
  · next heq => rw [h.fits (heq ▸ hdirectory)]
  · exact hdirectory

/-- Entries of a tree stay so when something is put where they admit it. -/
theorem WellFormed.put {home : Location} {withheld : List (Location × Right)}
    (h : WellFormed home entries withheld) (hadmits : Admits entries location entry) :
    WellFormed home (putEntry location entry entries) withheld where
  nodup := nodup_putEntry h.nodup
  hasPlace e he := by
    obtain ⟨name, hlast, hproper, hdirectory⟩ : HasPlace entries e.1 := by
      rcases mem_putEntry he with rfl | he
      · exact hadmits.hasPlace
      · exact h.hasPlace e he
    exact ⟨name, hlast, hproper, hadmits.directory hdirectory⟩
  home := hadmits.directory h.home
  withheld w hw := by
    rw [entryAt_putEntry hadmits.hasPlace.ne_nil]
    split
    · exact nofun
    · exact h.withheld w hw

end Reckon
