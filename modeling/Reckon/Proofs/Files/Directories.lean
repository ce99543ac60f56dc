import Reckon.Proofs.Files.Changes
import Reckon.Proofs.Paths.Ancestors

/-!
# Making directories

A directory that was made is there (`FileTree.isDirectory_of_createDirectory`), and what is a
directory is not made again. `FileTree.makeAll` makes a directory and those above it. Whether it
succeeds or stops halfway, doing it again changes nothing more and has the same success
(`FileTree.makeAll_makeAll`), and no file comes, goes or has another content (`FileTree.Makes`).
-/

namespace Reckon

namespace FileTree

variable {t t' t'' : FileTree} {location : Location} {p q : Path}

/-- If work succeeds, so do its two parts. -/
theorem of_bind_eq_ok {ε α β : Type} {x : Except ε α} {f : α → Except ε β} {b : β}
    (h : x >>= f = .ok b) : ∃ a, x = .ok a ∧ f a = .ok b := by
  cases x with
  | error e => cases h
  | ok a => exact ⟨a, rfl, h⟩

/-! ## One directory -/

/-- A path can name something if it is not empty, holds no zero and is not too long. -/
theorem checkPath_eq_ok_iff : checkPath p = .ok () ↔
    0 ∉ p.bytes ∧ p.bytes ≠ [] ∧ p.bytes.length < maxPathBytes := by
  unfold checkPath
  by_cases hzero : 0 ∈ p.bytes
  · simp [hzero]
  by_cases hempty : p.bytes = []
  · simp [hempty]
  by_cases hlong : maxPathBytes ≤ p.bytes.length
  · simp [hzero, hempty, hlong]
  · simp [hzero, hempty, hlong, Nat.lt_of_not_le hlong]

/-- What can be named inside of something, that can be named too. -/
theorem checkPath_of_inside (h : p.Inside q) (hcheck : checkPath p = .ok ()) :
    checkPath q = .ok () := by
  obtain ⟨hzero, -, hlength⟩ := checkPath_eq_ok_iff.1 hcheck
  exact checkPath_eq_ok_iff.2 ⟨fun hmem => hzero (h.bytes.subset hmem), h.ne_nil,
    Nat.lt_of_le_of_lt h.bytes.length_le hlength⟩

/-- Something is a directory if its path leads to one. -/
theorem isDirectory_iff :
    t.isDirectory p ↔ ∃ location, t.resolve true p = .ok (.occupied location .directory) := by
  unfold isDirectory
  split
  · next location hresolve => exact ⟨fun _ => ⟨location, hresolve⟩, fun _ => rfl⟩
  · next hother =>
    refine ⟨nofun, fun ⟨location, hresolve⟩ => ?_⟩
    exact absurd hresolve (hother location)

/-- A path leads to a directory if steps along its names do. -/
theorem isDirectory_iff_steps : t.isDirectory p ↔ checkPath p = .ok () ∧
    ∃ links location, t.Steps ⟨maxLinks, t.start p, p.names⟩ ⟨links, location, []⟩ := by
  rw [isDirectory_iff]
  simp only [resolve_directory_iff]
  exact ⟨fun ⟨location, hcheck, links, hsteps⟩ => ⟨hcheck, links, location, hsteps⟩,
    fun ⟨hcheck, links, location, hsteps⟩ => ⟨location, hcheck, links, hsteps⟩⟩

/-- By a name that stands for the directory itself, a way stays in it if it may be searched. -/
theorem Steps.of_here {links : Nat} {w : Way} (h : t.Steps ⟨links, location, [hereName]⟩ w) :
    w = ⟨links, location, [hereName]⟩ ∨
      w = ⟨links, location, []⟩ ∧ t.grants location .search := by
  rcases h.cases_head with heq | ⟨v, hstep, hrest⟩
  · exact .inl heq.symm
  · obtain ⟨rfl, hsearch⟩ : v = ⟨links, location, []⟩ ∧ t.grants location .search := by
      generalize hname : hereName = name at hstep
      cases hstep with
      | pass => exact absurd hname (by decide)
      | stay hsearch => exact ⟨rfl, hsearch⟩
      | up => exact absurd hname (by decide)
      | down hlooks | follow hlooks => exact absurd hname.symm hlooks.ne_here
    rcases hrest.cases_head with heq | ⟨v, hstep, -⟩
    · exact .inr ⟨heq.symm, hsearch⟩
    · cases hstep

/-- What has to be a directory is one that may be searched, where the walk comes to a place. -/
theorem walk_here_eq_ok_iff {links : Nat} {here : Location} {names : List Name} {place : Place} :
    t.walk true links here (names ++ [hereName]) = .ok place ↔ ∃ links' location,
      t.Steps ⟨links, here, names⟩ ⟨links', location, []⟩ ∧ t.grants location .search ∧
        place = .occupied location .directory := by
  refine (walkOn_eq_ok_iff (w := ⟨links, here, names ++ [hereName]⟩)).trans ⟨?_, ?_⟩
  · rintro ⟨w, hsteps, hends⟩
    have hlength : w.ahead.length ≤ [hereName].length := by
      cases hends with
      | directory => exact Nat.zero_le _
      | file | vacant => exact Nat.le_refl _
    obtain ⟨links', location, hbefore, hbehind⟩ :=
      Steps.split (w := ⟨links, here, names⟩) hsteps hlength
    rcases hbehind.of_here with rfl | ⟨rfl, hsearch⟩
    -- the last name is none that is looked up
    · cases hends with
      | file hlooks | vacant hlooks => exact absurd rfl hlooks.ne_here
    · cases hends
      exact ⟨links', location, hbefore, hsearch, rfl⟩
  · rintro ⟨links', location, hsteps, hsearch, rfl⟩
    exact ⟨⟨links', location, []⟩, (hsteps.append [hereName]).trans (.single (.stay hsearch)),
      .directory⟩

/-- Makes a directory under a name in one that exists. -/
def makeIn (t : FileTree) (parent : Location) (name : Name) : Except SystemError FileTree :=
  if name = hereName ∨ name = upName then .error .alreadyExists
  else if maxNameBytes < name.length then .error .nameTooLong
  else
    match t.get? (parent ++ [name]) with
    | some _ => .error .alreadyExists
    | none =>
      if t.grants parent .write then .ok (t.put (parent ++ [name]) .directory)
      else .error .denied

/-- Behind names that lead to a directory, the last name of a path decides. -/
theorem createDirectory_eq {names : List Name} {name : Name} {links : Nat}
    (hcheck : checkPath p = .ok ()) (hnames : p.names = names ++ [name])
    (hsteps : t.Steps ⟨maxLinks, t.start p, names⟩ ⟨links, location, []⟩)
    (hsearch : t.grants location .search) : t.createDirectory p = t.makeIn location name := by
  unfold createDirectory
  rw [hcheck, hnames, List.getLast?_concat, List.dropLast_concat]
  show (t.walk true maxLinks (t.start p) (names ++ [hereName])).bind _ = _
  rw [walk_here_eq_ok_iff.2 ⟨links, location, hsteps, hsearch, rfl⟩]
  rfl

/-- A directory is made in one that exists. -/
theorem of_createDirectory (h : t.createDirectory p = .ok t') :
    checkPath p = .ok () ∧ ∃ names name links parent, p.names = names ++ [name] ∧
      t.Steps ⟨maxLinks, t.start p, names⟩ ⟨links, parent, []⟩ ∧ t.grants parent .search ∧
        t.makeIn parent name = .ok t' := by
  obtain ⟨_, hcheck, hbehind⟩ := of_bind_eq_ok h
  refine ⟨hcheck, ?_⟩
  split at hbehind
  · cases hbehind
  · next name hlast =>
    obtain ⟨names, hnames⟩ := List.getLast?_eq_some_iff.1 hlast
    obtain ⟨place, hwalk, -⟩ := of_bind_eq_ok hbehind
    rw [hnames, List.dropLast_concat] at hwalk
    obtain ⟨links, parent, hsteps, hsearch, -⟩ := walk_here_eq_ok_iff.1 hwalk
    refine ⟨names, name, links, parent, hnames, hsteps, hsearch, ?_⟩
    rw [← createDirectory_eq hcheck hnames hsteps hsearch, h]

/-- What is made has a name that nothing had, in a directory that may be written. -/
structure MadeIn (t : FileTree) (parent : Location) (name : Name) (t' : FileTree) : Prop where
  ne_here : name ≠ hereName
  ne_up : name ≠ upName
  length_le : name.length ≤ maxNameBytes
  get?_eq_none : t.get? (parent ++ [name]) = none
  write : t.grants parent .write
  eq_put : t' = t.put (parent ++ [name]) .directory

/-- Where a directory is made, it can be. -/
theorem madeIn_of_makeIn {parent : Location} {name : Name} (h : t.makeIn parent name = .ok t') :
    t.MadeIn parent name t' := by
  unfold makeIn at h
  split at h
  · cases h
  · next hdots =>
    rw [not_or] at hdots
    split at h
    · cases h
    · next hshort =>
      split at h
      · cases h
      · next hget =>
        obtain ⟨heq, hwrite⟩ := ite_ok_iff.1 h
        exact ⟨hdots.1, hdots.2, Nat.not_lt.1 hshort, hget, hwrite, heq.symm⟩

section
variable {parent : Location} {name : Name} (h : t.MadeIn parent name t') (hname : name ≠ [])
  (hslash : slash ∉ name) (hparent : t.get? parent = some .directory)
include h hname hslash hparent

/-- A new directory can be put where it is made. -/
theorem MadeIn.admits : Admits t.entries (parent ++ [name]) .directory :=
  admits_of_none ⟨hname, hslash, h.ne_here, h.ne_up⟩ hparent h.get?_eq_none _

/-- Everything is kept where a directory is made. -/
theorem MadeIn.keeps : t.Keeps t' := by
  rw [h.eq_put]
  refine .put (h.admits hname hslash hparent) (h.get?_eq_none ▸ .made) fun _ => ?_
  rw [List.dropLast_concat]
  exact h.write

/-- The new directory is there, and nothing else comes. -/
theorem MadeIn.get? (key : Location) :
    t'.get? key = if key = parent ++ [name] then some .directory else t.get? key := by
  rw [h.eq_put, get?_put (h.admits hname hslash hparent)]

end

/-- The directory in which another one is made is there, and the new one has a name of its path. -/
theorem made_of_createDirectory (h : t.createDirectory p = .ok t') :
    checkPath p = .ok () ∧ ∃ names name links parent, p.names = names ++ [name] ∧
      (name ≠ [] ∧ slash ∉ name) ∧
      t.Steps ⟨maxLinks, t.start p, names⟩ ⟨links, parent, []⟩ ∧ t.grants parent .search ∧
        t.get? parent = some .directory ∧ t.MadeIn parent name t' := by
  obtain ⟨hcheck, names, name, links, parent, hnames, hsteps, hsearch, hmake⟩ :=
    of_createDirectory h
  have hsound := hsteps.sound ⟨t.get?_start p, fun n hn =>
    (Path.of_mem_names (p := p) (hnames ▸ List.mem_append_left _ hn)).2⟩
  exact ⟨hcheck, names, name, links, parent, hnames,
    Path.of_mem_names (p := p) (by simp [hnames]), hsteps, hsearch, hsound.here,
    madeIn_of_makeIn hmake⟩

/-- A directory that was made is there. -/
theorem isDirectory_of_createDirectory (h : t.createDirectory p = .ok t') : t'.isDirectory p := by
  obtain ⟨hcheck, names, name, links, parent, hnames, ⟨hnil, hslash⟩, hsteps, hsearch, hparent,
    hmade⟩ := made_of_createDirectory h
  have hkeeps := hmade.keeps hnil hslash hparent
  have hlooks : t'.LooksUp parent name :=
    hkeeps.looksUp ⟨hnil, hsearch, hmade.ne_here, hmade.ne_up, hmade.length_le⟩
  have hget : t'.get? (parent ++ [name]) = some .directory := by
    rw [hmade.get? hnil hslash hparent, if_pos rfl]
  refine isDirectory_iff_steps.2 ⟨hcheck, links, parent ++ [name], ?_⟩
  rw [hkeeps.start, hnames]
  exact ((hkeeps.steps hsteps).append [name]).trans (.single (.down hlooks hget))

/-- What is a directory is not made. -/
theorem createDirectory_of_isDirectory (h : t.isDirectory p) :
    t.createDirectory p = .error .alreadyExists := by
  obtain ⟨hcheck, links, location, hsteps⟩ := isDirectory_iff_steps.1 h
  rcases List.eq_nil_or_concat p.names with hnames | ⟨names, name, hnames⟩
  · unfold createDirectory
    rw [hcheck, hnames]
    rfl
  · rw [List.concat_eq_append] at hnames
    rw [hnames] at hsteps
    obtain ⟨links', parent, hbefore, hbehind⟩ :=
      Steps.split (w := ⟨maxLinks, t.start p, names⟩) hsteps (Nat.zero_le _)
    -- the step by the last name finds something
    rcases hbehind.cases_head with heq | ⟨v, hstep, -⟩
    · cases heq
    cases hstep with
    | pass => exact absurd rfl (Path.of_mem_names (p := p) (by simp [hnames])).1
    | stay hsearch | up hsearch => rw [createDirectory_eq hcheck hnames hbefore hsearch]; rfl
    | down hlooks hget | follow hlooks hget =>
      rw [createDirectory_eq hcheck hnames hbefore hlooks.search, makeIn,
        if_neg (not_or.2 ⟨hlooks.ne_here, hlooks.ne_up⟩), if_neg (Nat.not_lt.2 hlooks.length_le),
        hget]

/-- A directory stands in a directory, and is made in one. -/
theorem isDirectory_of_inside (h : p.Inside q)
    (hp : t.isDirectory p ∨ ∃ t', t.createDirectory p = .ok t') : t.isDirectory q := by
  obtain ⟨name, hnames⟩ := h.names
  have hstart : t.start p = t.start q := by rw [start, start, h.isAbsolute]
  refine isDirectory_iff_steps.2 ?_
  rw [← hstart]
  rcases hp with hp | ⟨t', hp⟩
  · obtain ⟨hcheck, links, location, hsteps⟩ := isDirectory_iff_steps.1 hp
    have hproper : t.Steps (Way.append ⟨maxLinks, t.start p, q.names⟩ [name])
        ⟨links, location, []⟩ := by
      rw [Way.append, ← hnames]
      exact Steps.leave_out (w := ⟨maxLinks, t.start p, []⟩) hsteps
    obtain ⟨links', parent, hbefore, -⟩ := hproper.split (Nat.zero_le _)
    exact ⟨checkPath_of_inside h hcheck, links', parent, hbefore⟩
  · obtain ⟨hcheck, names, last, links, parent, hlast, -, hsteps, -, -, hmade⟩ :=
      made_of_createDirectory hp
    have hfilter : p.properNames = names.filter (· ≠ hereName) ++ [last] := by
      rw [Path.properNames, hlast, List.filter_append]
      simp [hmade.ne_here]
    have hbefore : q.names = names.filter (· ≠ hereName) :=
      List.append_inj_left' (hnames.symm.trans hfilter) rfl
    refine ⟨checkPath_of_inside h hcheck, links, parent, ?_⟩
    rw [hbefore]
    exact Steps.leave_out (w := ⟨maxLinks, t.start p, []⟩) hsteps

/-! ## What making directories changes -/

/-- Directories are made: everything is kept, and no file comes or has another content. -/
structure Makes (t t' : FileTree) : Prop extends t.Keeps t' where
  of_file : ∀ location content, t'.get? location = some (.file content) →
    t.get? location = some (.file content)

namespace Makes

/-- Nothing is made where the tree stays as it is. -/
theorem refl (t : FileTree) : t.Makes t :=
  ⟨.refl t, fun _ _ => id⟩

/-- Directories may be made one behind the other. -/
theorem trans (h : t.Makes t') (h' : t'.Makes t'') : t.Makes t'' :=
  ⟨h.toKeeps.trans h'.toKeeps, fun location content hget =>
    h.of_file location content (h'.of_file location content hget)⟩

/-- A file stays as it is. -/
theorem file {content : Bytes} (h : t.Makes t') (hget : t.get? location = some (.file content)) :
    t'.get? location = some (.file content) := by
  obtain ⟨content', hget'⟩ := (hget ▸ h.entry location).of_file
  rw [hget', ← h.of_file location content' hget', hget]

end Makes

/-- Nothing but directories comes where one is made. -/
theorem makes_of_createDirectory (h : t.createDirectory p = .ok t') : t.Makes t' := by
  obtain ⟨-, -, name, -, parent, -, ⟨hnil, hslash⟩, -, -, hparent, hmade⟩ :=
    made_of_createDirectory h
  refine ⟨hmade.keeps hnil hslash hparent, fun key content hget => ?_⟩
  rw [hmade.get? hnil hslash hparent] at hget
  split at hget
  · cases hget
  · exact hget

/-! ## A directory and those above it -/

/-- Makes a directory unless it is there. -/
def make (t : FileTree) (p : Path) : Except SystemError Unit × FileTree :=
  match t.createDirectory p with
  | .ok t' => (.ok (), t')
  | .error e => (if t.isDirectory p then .ok () else .error e, t)

/-- Makes the first of some directories, and first those behind it if they are missing. -/
def makeAll (t : FileTree) : List Path → Except SystemError Unit × FileTree
  | [] => (.ok (), t)
  | p :: above =>
    if t.createDirectory p = .error .notFound then
      match t.makeAll above with
      | (.ok (), t') => t'.make p
      | (.error e, t') => (.error e, t')
    else t.make p

/-- A directory that is there is as good as made. -/
theorem make_of_isDirectory (h : t.isDirectory p) : t.make p = (.ok (), t) := by
  simp only [make, createDirectory_of_isDirectory h, h, if_true]

/-- What was made is a directory. -/
theorem isDirectory_of_make (h : t.make p = (.ok (), t')) : t'.isDirectory p := by
  unfold make at h
  split at h
  · next hcreate =>
    cases h
    exact isDirectory_of_createDirectory hcreate
  · split at h
    · next hdirectory =>
      cases h
      exact hdirectory
    · cases h

/-- Nothing changes where a directory cannot be made. -/
theorem of_make_eq_error {e : SystemError} (h : t.make p = (.error e, t')) :
    t' = t ∧ ¬ t'.isDirectory p ∧ ∀ t'', t'.createDirectory p ≠ .ok t'' := by
  unfold make at h
  split at h
  · cases h
  · next hcreate =>
    split at h
    · cases h
    · next hdirectory =>
      cases h
      exact ⟨rfl, hdirectory, fun t'' hok => nomatch hcreate.symm.trans hok⟩

/-- Making a directory changes nothing else. -/
theorem makes_make (t : FileTree) (p : Path) : t.Makes (t.make p).2 := by
  unfold FileTree.make
  split
  · next hcreate => exact makes_of_createDirectory hcreate
  · exact .refl t

/-- Making a directory and those above it makes directories, also where it stops halfway. -/
theorem makes_makeAll (t : FileTree) (paths : List Path) : t.Makes (t.makeAll paths).2 := by
  induction paths with
  | nil => exact .refl t
  | cons p above ih =>
    rw [FileTree.makeAll]
    split
    · split
      · next t' hmake =>
        rw [hmake] at ih
        exact ih.trans (t'.makes_make p)
      · next hmake =>
        rw [hmake] at ih
        exact ih
    · exact t.makes_make p

/-- If a directory is there, those above it are not asked for. -/
theorem makeAll_of_isDirectory (h : t.isDirectory p) (above : List Path) :
    t.makeAll (p :: above) = (.ok (), t) := by
  rw [makeAll, createDirectory_of_isDirectory h, if_neg (by decide), make_of_isDirectory h]

/-- What was made with those above it is a directory. -/
theorem isDirectory_of_makeAll {above : List Path} (h : t.makeAll (p :: above) = (.ok (), t')) :
    t'.isDirectory p := by
  rw [makeAll] at h
  split at h
  · split at h
    · exact isDirectory_of_make h
    · cases h
  · exact isDirectory_of_make h

/-- Where making directories stops, the innermost is none, and it cannot be made. -/
theorem not_isDirectory_of_makeAll {above : List Path} {e : SystemError}
    (hchain : List.IsChain Path.Inside (p :: above)) (h : t.makeAll (p :: above) = (.error e, t')) :
    ¬ t'.isDirectory p ∧ ∀ t'', t'.createDirectory p ≠ .ok t'' := by
  induction above generalizing p with
  | nil =>
    simp only [makeAll, ite_self] at h
    exact (of_make_eq_error h).2
  | cons q above ih =>
    rw [makeAll] at h
    split at h
    · split at h
      · exact (of_make_eq_error h).2
      · next hstop =>
        cases h
        -- the next one is none, so nothing is inside of it
        obtain ⟨hinside, hchain⟩ := List.isChain_cons_cons.1 hchain
        have hnone := (ih hchain hstop).1
        exact ⟨fun hp => hnone (isDirectory_of_inside hinside (.inl hp)),
          fun t'' hp => hnone (isDirectory_of_inside hinside (.inr ⟨t'', hp⟩))⟩
    · exact (of_make_eq_error h).2

/-- Making directories again changes nothing, and comes to as much as before. -/
theorem makeAll_makeAll {paths : List Path} {answer : Except SystemError Unit}
    (hchain : List.IsChain Path.Inside paths) (h : t.makeAll paths = (answer, t')) :
    ∃ answer', t'.makeAll paths = (answer', t') ∧ (answer' = .ok () ↔ answer = .ok ()) := by
  induction paths generalizing t t' answer with
  | nil =>
    cases h
    exact ⟨.ok (), rfl, Iff.rfl⟩
  | cons p above ih =>
    cases answer with
    | ok =>
      have hdirectory := isDirectory_of_makeAll h
      exact ⟨.ok (), makeAll_of_isDirectory hdirectory above, Iff.rfl⟩
    | error e =>
      obtain ⟨hdirectory, hcreate⟩ := not_isDirectory_of_makeAll hchain h
      obtain ⟨e', hmake⟩ : ∃ e', t'.make p = (.error e', t') := by
        unfold make
        split
        · next hok => exact absurd hok (hcreate _)
        · next e' _ => exact ⟨e', by rw [if_neg hdirectory]⟩
      rw [makeAll]
      split
      · next hmissing =>
        -- those above are missing again only if they were tried before
        have habove : ∃ answer', t'.makeAll above = (answer', t') := by
          rw [makeAll] at h
          split at h
          · split at h
            · next t₁ hok =>
              obtain ⟨rfl, -, -⟩ := of_make_eq_error h
              obtain ⟨answer', hrerun, -⟩ := ih hchain.tail hok
              exact ⟨answer', hrerun⟩
            · next hstop =>
              cases h
              obtain ⟨answer', hrerun, -⟩ := ih hchain.tail hstop
              exact ⟨answer', hrerun⟩
          · next hother =>
            obtain ⟨rfl, -, -⟩ := of_make_eq_error h
            exact absurd hmissing hother
        obtain ⟨answer', hrerun⟩ := habove
        rw [hrerun]
        cases answer' with
        | ok => exact ⟨_, hmake, by simp⟩
        | error => exact ⟨_, rfl, by simp⟩
      · exact ⟨_, hmake, by simp⟩

end FileTree

end Reckon
