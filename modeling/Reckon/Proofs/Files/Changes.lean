import Reckon.Proofs.Files.Ways

/-!
# What changes while files are written

A tree `Keeps` what it has while files are written and directories made: each location has at least
what it had before, a file possibly with another content, something comes only into a directory that
may be written, and no symbolic link comes. Paths then lead where they led before
(`FileTree.Keeps.leadsTo`). If no directory comes either, only files were written
(`FileTree.Writes`).

Behind a directory, a name leads to what has that name there (`FileTree.resolve_join`), whatever
was written meanwhile.
-/

namespace Reckon

namespace FileTree

variable {t t' t'' : FileTree} {location : Location} {entry : Entry}

/-! ## What stays -/

/-- What may become of what is at a location while files are written and directories made. -/
inductive Becomes : Option Entry → Option Entry → Prop
  | same {a : Option Entry} : Becomes a a
  | rewritten {content content' : Bytes} : Becomes (some (.file content)) (some (.file content'))
  | created {content : Bytes} : Becomes none (some (.file content))
  | made : Becomes none (some .directory)

namespace Becomes

variable {a b c : Option Entry}

/-- What is at a location may change more than once. -/
theorem trans (h : Becomes a b) (h' : Becomes b c) : Becomes a c := by
  cases h with
  | same => exact h'
  | rewritten =>
    cases h'
    · exact .rewritten
    · exact .rewritten
  | created =>
    cases h'
    · exact .created
    · exact .created
  | made =>
    cases h'
    exact .made

/-- A directory stays a directory. -/
theorem of_directory (h : Becomes (some .directory) a) : a = some .directory := by
  cases h
  rfl

/-- A symbolic link stays what it is. -/
theorem of_link {link : Path} (h : Becomes (some (.link link)) a) : a = some (.link link) := by
  cases h
  rfl

/-- A file stays a file. -/
theorem of_file {content : Bytes} (h : Becomes (some (.file content)) a) :
    ∃ content', a = some (.file content') := by
  cases h with
  | same | rewritten => exact ⟨_, rfl⟩

/-- No link comes. -/
theorem eq_link {link : Path} (h : Becomes a (some (.link link))) : a = some (.link link) := by
  cases h
  rfl

end Becomes

/-- Everything stays where it is, files perhaps with other contents, and no link comes. What comes,
comes into a directory that may be written. -/
structure Keeps (t t' : FileTree) : Prop where
  home : t'.home = t.home
  withheld : t'.withheld = t.withheld
  entry : ∀ location, Becomes (t.get? location) (t'.get? location)
  came : ∀ location, t.get? location = none →
    t'.get? location = none ∨ t.grants location.dropLast .write

namespace Keeps

/-- No right comes or goes. -/
theorem grants (h : t.Keeps t') (location : Location) (right : Right) :
    t'.grants location right = t.grants location right := by
  rw [FileTree.grants, FileTree.grants, h.withheld]

/-- A tree keeps what it has. -/
theorem refl (t : FileTree) : t.Keeps t :=
  ⟨rfl, rfl, fun _ => .same, fun _ hnone => .inl hnone⟩

/-- What is kept by one tree and then by another is kept by the last one. -/
theorem trans (h : t.Keeps t') (h' : t'.Keeps t'') : t.Keeps t'' where
  home := h'.home.trans h.home
  withheld := h'.withheld.trans h.withheld
  entry location := (h.entry location).trans (h'.entry location)
  came location hnone := by
    rcases h.came location hnone with hnone' | hright
    · have hcame := h'.came location hnone'
      rwa [h.grants] at hcame
    · exact .inr hright

/-- Something is put where it may be. -/
theorem put (hadmits : Admits t.entries location entry)
    (h : Becomes (t.get? location) (some entry))
    (hright : t.get? location = none → t.grants location.dropLast .write) :
    t.Keeps (t.put location entry) where
  home := home_put t location entry
  withheld := withheld_put t location entry
  entry key := by
    rw [get?_put hadmits]
    split
    · next heq => rwa [heq]
    · exact .same
  came key hnone := by
    rw [get?_put hadmits]
    split
    · next heq => exact .inr (heq ▸ hright (heq ▸ hnone))
    · exact .inl hnone

/-- A directory is kept where it is. -/
theorem directory (h : t.Keeps t') (hget : t.get? location = some .directory) :
    t'.get? location = some .directory :=
  (hget ▸ h.entry location).of_directory

/-- A name that could be looked up still can. -/
theorem looksUp {here : Location} {name : Name} (h : t.Keeps t') (hname : t.LooksUp here name) :
    t'.LooksUp here name :=
  { hname with search := (h.grants here .search).trans hname.search }

/-- What was a step along a path still is. -/
theorem step {w w' : Way} (h : t.Keeps t') (hstep : t.Step w w') : t'.Step w w' := by
  cases hstep with
  | pass => exact .pass
  | stay hsearch => exact .stay ((h.grants _ _).trans hsearch)
  | up hsearch => exact .up ((h.grants _ _).trans hsearch)
  | down hname hget => exact .down (h.looksUp hname) (h.directory hget)
  | follow hname hget => exact .follow (h.looksUp hname) (hget ▸ h.entry _).of_link

/-- A way that could be gone still can. -/
theorem steps {w w' : Way} (h : t.Keeps t') (hsteps : t.Steps w w') : t'.Steps w w' :=
  hsteps.lift id fun _ _ => h.step

/-- A way ends where it ended, with what is there now. -/
theorem ends {w : Way} {place : Place} (h : t.Keeps t') (hends : t.Ends w place) :
    ∃ w' place', t'.Steps w w' ∧ t'.Ends w' place' ∧ place'.location = place.location := by
  cases hends with
  | directory => exact ⟨_, _, .refl, .directory, rfl⟩
  | @file links here name content hname hget =>
    obtain ⟨content', hget'⟩ := (hget ▸ h.entry (here ++ [name])).of_file
    exact ⟨_, _, .refl, .file (h.looksUp hname) hget', rfl⟩
  | @vacant links here name hname hget =>
    have hname' := h.looksUp hname
    have hentry := h.entry (here ++ [name])
    rw [hget] at hentry
    generalize hget' : t'.get? (here ++ [name]) = b at hentry
    cases hentry with
    | same => exact ⟨_, _, .refl, .vacant hname' hget', rfl⟩
    | created => exact ⟨_, _, .refl, .file hname' hget', rfl⟩
    | made => exact ⟨_, _, .single (.down hname' hget'), .directory, rfl⟩

/-- Paths start where they started. -/
theorem start (h : t.Keeps t') (p : Path) : t'.start p = t.start p := by
  unfold FileTree.start
  rw [h.home]

/-- Ways have the outset that they had. -/
theorem outset (h : t.Keeps t') (p : Path) : t'.outset p = t.outset p := by
  rw [FileTree.outset, FileTree.outset, h.start]

/-- A path leads where it led before. -/
theorem leadsTo {p : Path} (h : t.Keeps t') (hleads : t.LeadsTo p location) :
    t'.LeadsTo p location := by
  obtain ⟨place, hresolve, rfl⟩ := leadsTo_iff.1 hleads
  obtain ⟨hcheck, w, hsteps, hends⟩ := resolve_eq_ok_iff.1 hresolve
  obtain ⟨w', place', hsteps', hends', hlocation⟩ := h.ends hends
  refine leadsTo_iff.2 ⟨place', resolve_eq_ok_iff.2 ⟨hcheck, w', ?_, hends'⟩, hlocation⟩
  rw [h.outset]
  exact (h.steps hsteps).trans hsteps'

/-- A path to a directory leads to it still. -/
theorem resolve_directory {p : Path} (h : t.Keeps t')
    (hresolve : t.resolve true p = .ok (.occupied location .directory)) :
    t'.resolve true p = .ok (.occupied location .directory) := by
  obtain ⟨hcheck, w, hsteps, hends⟩ := resolve_eq_ok_iff.1 hresolve
  cases hends with
  | @directory links =>
    refine resolve_eq_ok_iff.2 ⟨hcheck, ⟨links, location, []⟩, ?_, .directory⟩
    rw [h.outset]
    exact h.steps hsteps

/-- A path to a file leads to it still, whatever its content is now. -/
theorem resolve_file {p : Path} {content content' : Bytes} (h : t.Keeps t')
    (hresolve : t.resolve true p = .ok (.occupied location (.file content)))
    (hget : t'.get? location = some (.file content')) :
    t'.resolve true p = .ok (.occupied location (.file content')) :=
  (h.leadsTo (leadsTo_iff.2 ⟨_, hresolve, rfl⟩)).resolve_eq hget

/-- A tree without symbolic links gets none. -/
theorem linkFree (h : t.Keeps t') (hfree : t.LinkFree) : t'.LinkFree := by
  intro location target hget
  have hentry := h.entry location
  rw [hget] at hentry
  exact hfree location target hentry.eq_link

end Keeps

/-- Only files are written: everything is kept and no directory comes. -/
structure Writes (t t' : FileTree) : Prop extends t.Keeps t' where
  of_directory : ∀ location, t'.get? location = some .directory →
    t.get? location = some .directory

/-- What is at a location, as a place. -/
def placeAt (t : FileTree) (location : Location) : Place :=
  match t.get? location with
  | none => .vacant location
  | some entry => .occupied location entry

namespace Writes

/-- A tree that is left as it is is one in which only files were written. -/
theorem refl (t : FileTree) : t.Writes t :=
  ⟨.refl t, fun _ => id⟩

/-- Writing files again is only writing files. -/
theorem trans (h : t.Writes t') (h' : t'.Writes t'') : t.Writes t'' :=
  ⟨h.toKeeps.trans h'.toKeeps, fun location hget =>
    h.of_directory location (h'.of_directory location hget)⟩

/-- Where a path leads that is written to, a file is put. -/
theorem put_target {p : Path} (h : t.target p = .ok location) (content : Bytes) :
    t.Writes (t.put location (.file content)) := by
  have hadmits := target_admits h content
  have hkeeps : t.Keeps (t.put location (.file content)) := by
    rcases target_eq_ok_iff.1 h with ⟨content', h, -⟩ | ⟨h, hright⟩
    · have hget : t.get? location = some (.file content') := resolve_has h
      exact .put hadmits (hget ▸ .rewritten) fun hnone => nomatch hget.symm.trans hnone
    · have hget : t.get? location = none := (resolve_has h).1
      exact .put hadmits (hget ▸ .created) fun _ => hright
  refine ⟨hkeeps, fun key hget => ?_⟩
  rw [get?_put hadmits] at hget
  split at hget
  · cases hget
  · exact hget

/-- Whether a file can be put at a location does not change while files are written: a file that
came has all rights, and came because the directory could be written. -/
theorem fileAt_placeAt (h : t.Writes t') (location : Location) :
    t'.fileAt (t'.placeAt location) = t.fileAt (t.placeAt location) := by
  have hentry := h.entry location
  unfold placeAt
  cases hget : t.get? location with
  | some entry =>
    rw [hget] at hentry
    cases entry with
    | file content =>
      obtain ⟨content', hget'⟩ := hentry.of_file
      rw [hget']
      simp only [fileAt, h.grants]
    | directory => rw [hentry.of_directory]; rfl
    | link target => rw [hentry.of_link]; rfl
  | none =>
    rw [hget] at hentry
    generalize hget' : t'.get? location = b at hentry
    cases hentry with
    | same => simp only [fileAt, h.grants]
    | created =>
      have hright : t.grants location.dropLast .write :=
        (h.came location hget).resolve_left fun hnone => nomatch hget'.symm.trans hnone
      simp only [fileAt, h.grants, grants_of_get?_eq_none hget, hright]
    | made => cases hget.symm.trans (h.of_directory location hget')

end Writes

/-! ## Behind a directory -/

/-- Behind a slash at the end, a way that led to a directory leads there still. -/
theorem steps_to_directory_iff {p : Path} {w : Way} {links : Nat} (hahead : w.ahead = p.steps) :
    t.Steps w ⟨links, location, []⟩ ↔
      t.Steps { w with ahead := p.names } ⟨links, location, []⟩ := by
  obtain ⟨links', here, ahead⟩ := w
  obtain rfl : ahead = p.steps := hahead
  unfold Path.steps
  split
  · constructor
    · intro h
      obtain ⟨links'', here', hsteps, hbehind⟩ :=
        Steps.split (show t.Steps (Way.append ⟨links', here, p.names⟩ [[]]) _ from h)
          (Nat.zero_le _)
      rcases hbehind.cases_head with heq | ⟨v, hstep, hrest⟩
      · cases heq
      · obtain rfl : v = ⟨links'', here', []⟩ := by
          generalize hname : ([] : Name) = name at hstep
          cases hstep with
          | pass => rfl
          | stay => cases hname
          | up => cases hname
          | down hlooks | follow hlooks => exact absurd hname.symm hlooks.ne_nil
        exact hsteps.trans hrest
    · intro h
      exact (h.append [[]]).trans (.single .pass)
  · exact Iff.rfl

/-- A path leads to a directory if its names do. -/
theorem resolve_directory_iff {p : Path} :
    t.resolve true p = .ok (.occupied location .directory) ↔
      checkPath p = .ok () ∧
        ∃ links, t.Steps ⟨maxLinks, t.start p, p.names⟩ ⟨links, location, []⟩ := by
  rw [resolve_eq_ok_iff]
  refine and_congr_right fun _ => ⟨?_, ?_⟩
  · rintro ⟨w, hsteps, hends⟩
    cases hends with
    | @directory links => exact ⟨links, (steps_to_directory_iff rfl).1 hsteps⟩
  · rintro ⟨links, hsteps⟩
    exact ⟨_, (steps_to_directory_iff (w := t.outset p) rfl).2 hsteps, .directory⟩

/-- An empty path leads nowhere. -/
theorem bytes_ne_nil_of_resolve {p : Path} {place : Place} (h : t.resolve true p = .ok place) :
    p.bytes ≠ [] := by
  intro hempty
  have hcheck := (resolve_eq_ok_iff.1 h).1
  unfold checkPath at hcheck
  simp [hempty] at hcheck

/-- Whether a name can be looked up behind a path that leads to a directory. -/
def nameable (t : FileTree) (location : Location) (p : Path) (name : Name) :
    Except SystemError Unit :=
  (checkPath (p.join name)).bind fun _ =>
    if !t.grants location .search then .error .denied
    else if maxNameBytes < name.length then .error .nameTooLong
    else .ok ()

/-- Whether a file in a directory can be read by its name behind a path that leads there. -/
def readable (t : FileTree) (location : Location) (p : Path) (name : Name) :
    Except SystemError Unit :=
  (t.nameable location p name).bind fun _ =>
    if t.grants (location ++ [name]) .read then .ok () else .error .denied

/-- What can be named in a directory stays the same. -/
theorem Keeps.nameable (h : t.Keeps t') (location : Location) (p : Path) (name : Name) :
    t'.nameable location p name = t.nameable location p name := by
  rw [FileTree.nameable, FileTree.nameable, h.grants]

/-- What can be read in a directory stays the same. -/
theorem Keeps.readable (h : t.Keeps t') (location : Location) (p : Path) (name : Name) :
    t'.readable location p name = t.readable location p name := by
  rw [FileTree.readable, FileTree.readable, h.nameable, h.grants]

/-- What can be read in a directory can be named there. -/
theorem nameable_of_readable {p : Path} {name : Name} (h : t.readable location p name = .ok ()) :
    t.nameable location p name = .ok () := by
  unfold readable at h
  cases hnameable : t.nameable location p name with
  | error e =>
    rw [hnameable] at h
    cases h
  | ok _ => rfl

/-- Behind a directory, a name that is none of a link leads to what has the name there. -/
theorem resolve_join {p : Path} (h : t.resolve true p = .ok (.occupied location .directory))
    {name : Name} (hname : ProperName name)
    (hlink : ∀ target, t.get? (location ++ [name]) ≠ some (.link target)) :
    t.resolve true (p.join name) =
      (t.nameable location p name).map fun _ => t.placeAt (location ++ [name]) := by
  have hstart : t.start (p.join name) = t.start p := by
    rw [start, start, Path.isAbsolute_join (bytes_ne_nil_of_resolve h) hname.no_slash]
  have houtset : t.outset (p.join name) = Way.append ⟨maxLinks, t.start p, p.names⟩ [name] := by
    rw [outset, hstart, Path.steps_join p hname.ne_nil hname.no_slash, Way.append]
  obtain ⟨-, links, hsteps⟩ := resolve_directory_iff.1 h
  rw [resolve_eq, houtset, (hsteps.append [name]).walkOn_eq, nameable]
  show (checkPath (p.join name)).bind (fun _ => t.walk true links location [name]) = _
  cases checkPath (p.join name) with
  | error e => rfl
  | ok _ =>
    show t.walk true links location [name] = Except.map _ (ite _ _ _)
    by_cases hsearch : t.grants location .search
    · rw [if_neg (by simp [hsearch])]
      by_cases hlong : maxNameBytes < name.length
      · rw [if_pos hlong, walk, if_neg hname.ne_nil, if_neg (by simp [hsearch]),
          if_neg hname.ne_here, if_neg hname.ne_up, if_pos hlong]
        rfl
      · rw [if_neg hlong, walk_name
          ⟨hname.ne_nil, hsearch, hname.ne_here, hname.ne_up, Nat.not_lt.1 hlong⟩]
        simp only [Except.map, placeAt]
        cases hget : t.get? (location ++ [name]) with
        | none => rfl
        | some entry =>
          cases entry with
          | file => rfl
          | directory =>
            rw [walk]
          | link target => exact absurd hget (hlink target)
    · rw [if_pos (by simp [hsearch]), walk, if_neg hname.ne_nil, if_pos (by simp [hsearch])]
      rfl

section
variable {p : Path} (h : t.resolve true p = .ok (.occupied location .directory)) {name : Name}
  (hname : ProperName name)
include h hname

/-- A file behind a directory is read if it may be found and read. -/
theorem read_join {content : Bytes} (hget : t.get? (location ++ [name]) = some (.file content)) :
    t.read (p.join name) = (t.readable location p name).map fun _ => content := by
  have hresolve := resolve_join h hname fun target hlink => nomatch hget.symm.trans hlink
  unfold read readable
  rw [hresolve]
  cases t.nameable location p name with
  | error e => rfl
  | ok _ =>
    simp only [Except.map, bind, Except.bind, placeAt, hget]
    split <;> rfl

/-- A name behind a directory leads to what has that name there, if that is no link. -/
theorem leadsTo_join (hnameable : t.nameable location p name = .ok ())
    (hlink : ∀ target, t.get? (location ++ [name]) ≠ some (.link target)) :
    t.LeadsTo (p.join name) (location ++ [name]) := by
  refine leadsTo_iff.2 ⟨t.placeAt (location ++ [name]), ?_, ?_⟩
  · rw [resolve_join h hname hlink, hnameable]
    rfl
  · unfold placeAt
    split <;> rfl

/-- A file behind a directory is written if its name can be looked up and it can be put there. -/
theorem target_join (hlink : ∀ target, t.get? (location ++ [name]) ≠ some (.link target)) :
    t.target (p.join name) =
      (t.nameable location p name).bind fun _ => t.fileAt (t.placeAt (location ++ [name])) := by
  unfold target
  rw [resolve_join h hname hlink]
  cases t.nameable location p name <;> rfl

/-- Behind a directory, a name that is none of a link leads nowhere else. -/
theorem LeadsTo.eq_of_join (hlink : ∀ target, t.get? (location ++ [name]) ≠ some (.link target))
    {key : Location} (hleads : t.LeadsTo (p.join name) key) : key = location ++ [name] := by
  obtain ⟨place, hresolve, rfl⟩ := leadsTo_iff.1 hleads
  rw [resolve_join h hname hlink] at hresolve
  cases hnameable : t.nameable location p name with
  | error e =>
    rw [hnameable] at hresolve
    cases hresolve
  | ok _ =>
    rw [hnameable] at hresolve
    rw [← Except.ok.inj hresolve, placeAt]
    split <;> rfl

end

end FileTree

end Reckon
