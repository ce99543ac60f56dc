import Reckon.Proofs.Files
import Reckon.Proofs.Paths

/-!
# Where paths lead

Following a path is a sequence of steps, one for each name (`FileTree.Step`): up or down to
another directory, or into a symbolic link. `FileTree.walkOn_eq_ok_iff` says that a walk leads to a
place exactly if steps lead to where it ends, and everything about walks is proved of one step and
then of all of them. Reading and writing depend on the place that a path leads to and on the rights
there, and on nothing else (`FileTree.read_eq_ok_iff`, `FileTree.target_eq_ok_iff`).
-/

namespace Reckon

namespace FileTree

variable {t t' : FileTree} {location : Location} {entry : Entry}

/-! ## Steps on the way -/

/-- A stage on the way along a path: how many links may still be followed, the directory reached,
and the names ahead. -/
structure Way where
  links : Nat
  here : Location
  ahead : List Name

/-- A name that is looked up in a directory, which may be searched. -/
structure LooksUp (t : FileTree) (here : Location) (name : Name) : Prop where
  ne_nil : name ≠ []
  search : t.grants here .search
  ne_here : name ≠ hereName
  ne_up : name ≠ upName
  length_le : name.length ≤ maxNameBytes

/-- One step along a path. -/
inductive Step (t : FileTree) : Way → Way → Prop
  | pass {links : Nat} {here : Location} {rest : List Name} :
      Step t ⟨links, here, [] :: rest⟩ ⟨links, here, rest⟩
  | stay {links : Nat} {here : Location} {rest : List Name} :
      t.grants here .search → Step t ⟨links, here, hereName :: rest⟩ ⟨links, here, rest⟩
  | up {links : Nat} {here : Location} {rest : List Name} :
      t.grants here .search → Step t ⟨links, here, upName :: rest⟩ ⟨links, here.dropLast, rest⟩
  | down {links : Nat} {here : Location} {name : Name} {rest : List Name} :
      t.LooksUp here name → t.get? (here ++ [name]) = some .directory →
      Step t ⟨links, here, name :: rest⟩ ⟨links, here ++ [name], rest⟩
  | follow {links : Nat} {here : Location} {name : Name} {rest : List Name} {target : Path} :
      t.LooksUp here name → t.get? (here ++ [name]) = some (.link target) →
      Step t ⟨links + 1, here, name :: rest⟩
        ⟨links, if target.isAbsolute then [] else here, target.steps ++ rest⟩

/-- Any number of steps along a path. -/
abbrev Steps (t : FileTree) : Way → Way → Prop :=
  Relation.ReflTransGen t.Step

/-- Where a way ends: in a directory, or at a last name that is none of a directory. -/
inductive Ends (t : FileTree) : Way → Place → Prop
  | directory {links : Nat} {here : Location} :
      Ends t ⟨links, here, []⟩ (.occupied here .directory)
  | file {links : Nat} {here : Location} {name : Name} {content : Bytes} :
      t.LooksUp here name → t.get? (here ++ [name]) = some (.file content) →
      Ends t ⟨links, here, [name]⟩ (.occupied (here ++ [name]) (.file content))
  | vacant {links : Nat} {here : Location} {name : Name} :
      t.LooksUp here name → t.get? (here ++ [name]) = none →
      Ends t ⟨links, here, [name]⟩ (.vacant (here ++ [name]))

/-- The walk from a stage on, in which a link at the end is followed. -/
def walkOn (t : FileTree) (w : Way) : Except SystemError Place :=
  t.walk true w.links w.here w.ahead

section
variable {links : Nat} {here : Location} {name : Name} {rest : List Name}

/-- A name that is looked up decides by what is there. -/
theorem walk_name (h : t.LooksUp here name) : t.walk true links here (name :: rest) =
    match t.get? (here ++ [name]) with
    | none => if rest.isEmpty then .ok (.vacant (here ++ [name])) else .error .notFound
    | some .directory => t.walk true links (here ++ [name]) rest
    | some (.file content) =>
      if rest.isEmpty then .ok (.occupied (here ++ [name]) (.file content))
      else .error .notDirectory
    | some (.link target) =>
      match links with
      | 0 => .error .tooManyLinks
      | links + 1 =>
        t.walk true links (if target.isAbsolute then [] else here) (target.steps ++ rest) := by
  rw [walk, if_neg h.ne_nil, if_neg (by simp [h.search]), if_neg h.ne_here, if_neg h.ne_up,
    if_neg (Nat.not_lt.2 h.length_le)]
  dsimp only
  cases t.get? (here ++ [name]) with
  | none => rfl
  | some entry =>
    cases entry with
    | file | directory => rfl
    | link target =>
      have hfollow : ¬ (rest.isEmpty && !true) = true := by simp
      exact if_neg hfollow

end

/-- A walk from the end of a step is the one from its beginning. -/
theorem Step.walkOn_eq {w w' : Way} (h : t.Step w w') : t.walkOn w = t.walkOn w' := by
  cases h with
  | pass => rw [walkOn, walk, if_pos rfl, walkOn]
  | stay hsearch =>
    rw [walkOn, walk, if_neg (by decide), if_neg (by simp [hsearch]), if_pos rfl, walkOn]
  | up hsearch =>
    rw [walkOn, walk, if_neg (by decide), if_neg (by simp [hsearch]), if_neg (by decide),
      if_pos rfl, walkOn]
  | down hname hget => rw [walkOn, walk_name hname, hget, walkOn]
  | follow hname hget => rw [walkOn, walk_name hname, hget, walkOn]

/-- Steps lead to where the rest of the way leads. -/
theorem Steps.walkOn_eq {w w' : Way} (h : t.Steps w w') : t.walkOn w = t.walkOn w' := by
  induction h with
  | refl => rfl
  | tail _ hstep ih => rw [ih, hstep.walkOn_eq]

/-- Where a way ends, the walk leads there. -/
theorem Ends.walkOn_eq {w : Way} {place : Place} (h : t.Ends w place) :
    t.walkOn w = .ok place := by
  cases h with
  | directory => rw [walkOn, walk]
  | file hname hget =>
    rw [walkOn, walk_name hname, hget]
    rfl
  | vacant hname hget =>
    rw [walkOn, walk_name hname, hget]
    rfl

/-- A walk leads to a place exactly if steps lead to where it ends. -/
theorem walkOn_eq_ok_iff {w : Way} {place : Place} :
    t.walkOn w = .ok place ↔ ∃ w', t.Steps w w' ∧ t.Ends w' place := by
  constructor
  · obtain ⟨links, here, ahead⟩ := w
    intro h
    rw [walkOn] at h
    have hstep {w w' : Way} (hfirst : t.Step w w')
        (h : ∃ w'', t.Steps w' w'' ∧ t.Ends w'' place) :
        ∃ w'', t.Steps w w'' ∧ t.Ends w'' place :=
      h.imp fun _ ⟨hsteps, hends⟩ => ⟨.head hfirst hsteps, hends⟩
    have hlooks {here : Location} {name : Name} (hnil : ¬ name = [])
        (hsearch : ¬ (!t.grants here .search) = true) (hhere : ¬ name = hereName)
        (hup : ¬ name = upName) (hlength : ¬ maxNameBytes < name.length) : t.LooksUp here name :=
      ⟨hnil, by simpa using hsearch, hhere, hup, Nat.not_lt.1 hlength⟩
    fun_induction walk t true links here ahead with
    | case1 links here =>
      cases h
      exact ⟨_, .refl, .directory⟩
    | case2 links here rest ih => exact hstep .pass (ih h)
    | case3 => cases h
    | case4 links here rest hsearch _ ih => exact hstep (.stay (by simpa using hsearch)) (ih h)
    | case5 links here rest hsearch _ _ ih => exact hstep (.up (by simpa using hsearch)) (ih h)
    | case6 => cases h
    | case7 links here name rest hnil hsearch hhere hup hlength location hget hrest =>
      cases h
      rw [List.isEmpty_iff.1 hrest]
      exact ⟨_, .refl, .vacant (hlooks hnil hsearch hhere hup hlength) hget⟩
    | case8 => cases h
    | case9 links here name rest hnil hsearch hhere hup hlength location hget ih =>
      exact hstep (.down (hlooks hnil hsearch hhere hup hlength) hget) (ih h)
    | case10 links here name rest hnil hsearch hhere hup hlength location content hget hrest =>
      cases h
      rw [List.isEmpty_iff.1 hrest]
      exact ⟨_, .refl, .file (hlooks hnil hsearch hhere hup hlength) hget⟩
    | case11 => cases h
    | case12 links here name rest hnil hsearch hhere hup hlength location target hget hrest =>
      simp at hrest
    | case13 => cases h
    | case14 here name rest hnil hsearch hhere hup hlength location target hget hrest links start
        ih =>
      exact hstep (.follow (hlooks hnil hsearch hhere hup hlength) hget) (ih h)
  · rintro ⟨w', hsteps, hends⟩
    rw [hsteps.walkOn_eq, hends.walkOn_eq]

/-! ## Ways -/

/-- The way with more names behind those ahead. -/
def Way.append (w : Way) (names : List Name) : Way :=
  { w with ahead := w.ahead ++ names }

/-- A step is made whatever names are behind. -/
theorem Step.append {w w' : Way} (h : t.Step w w') (names : List Name) :
    t.Step (w.append names) (w'.append names) := by
  cases h with
  | pass => exact .pass
  | stay hsearch => exact .stay hsearch
  | up hsearch => exact .up hsearch
  | down hname hget => exact .down hname hget
  | @follow links here name rest target hname hget =>
    have hstep : t.Step ⟨links + 1, here, name :: (rest ++ names)⟩ _ := .follow hname hget
    rwa [← List.append_assoc] at hstep

/-- More names ahead do not change the steps before them. -/
theorem Steps.append {w w' : Way} (h : t.Steps w w') (names : List Name) :
    t.Steps (w.append names) (w'.append names) :=
  h.lift (Way.append · names) fun _ _ hstep => hstep.append names

/-- As long as names are ahead, those behind them do not matter. -/
theorem Step.of_append {w v : Way} {names : List Name} (h : t.Step (w.append names) v)
    (hahead : w.ahead ≠ []) : ∃ w', t.Step w w' ∧ v = w'.append names := by
  obtain ⟨links, here, ahead⟩ := w
  obtain ⟨name, rest, rfl⟩ := List.exists_cons_of_ne_nil hahead
  cases h with
  | pass => exact ⟨_, .pass, rfl⟩
  | stay hsearch => exact ⟨_, .stay hsearch, rfl⟩
  | up hsearch => exact ⟨_, .up hsearch, rfl⟩
  | down hname hget => exact ⟨_, .down hname hget, rfl⟩
  | follow hname hget =>
    refine ⟨_, .follow hname hget, ?_⟩
    rw [Way.append, List.append_assoc]
    rfl

/-- A way that gets behind the first names gets to a directory with them. -/
theorem Steps.split {w v : Way} {names : List Name} (h : t.Steps (w.append names) v)
    (hlength : v.ahead.length ≤ names.length) :
    ∃ links here, t.Steps w ⟨links, here, []⟩ ∧ t.Steps ⟨links, here, names⟩ v := by
  generalize hu : w.append names = u at h
  induction h using Relation.ReflTransGen.head_induction_on generalizing w with
  | refl =>
    obtain ⟨links, here, ahead⟩ := w
    subst hu
    simp only [Way.append, List.length_append] at hlength
    obtain rfl : ahead = [] := List.eq_nil_of_length_eq_zero (by omega)
    exact ⟨links, here, .refl, .refl⟩
  | head hstep hrest ih =>
    subst hu
    by_cases hahead : w.ahead = []
    · obtain ⟨links, here, ahead⟩ := w
      obtain rfl : ahead = [] := hahead
      exact ⟨links, here, .refl, .head hstep hrest⟩
    · obtain ⟨w', hfirst, rfl⟩ := hstep.of_append hahead
      obtain ⟨links, here, hsteps, hbehind⟩ := ih rfl
      exact ⟨links, here, .head hfirst hsteps, hbehind⟩

/-- On the way to a directory, names that stand for the directory itself can be left out. -/
theorem Steps.leave_out {w : Way} {names : List Name} {links : Nat} {here : Location}
    (h : t.Steps (w.append names) ⟨links, here, []⟩) :
    t.Steps (w.append (names.filter (· ≠ hereName))) ⟨links, here, []⟩ := by
  generalize hu : w.append names = u at h
  induction h using Relation.ReflTransGen.head_induction_on generalizing w names with
  | refl =>
    obtain ⟨links', here', ahead⟩ := w
    obtain ⟨rfl, rfl, hnil⟩ : links' = links ∧ here' = here ∧ ahead ++ names = [] := by
      simpa [Way.append] using hu
    obtain ⟨rfl, rfl⟩ := List.append_eq_nil_iff.1 hnil
    exact .refl
  | head hstep hrest ih =>
    subst hu
    by_cases hahead : w.ahead = []
    · obtain ⟨links', here', ahead⟩ := w
      obtain rfl : ahead = [] := hahead
      -- the step is by the first of the names, and those behind it are left to the rest of the way
      cases hstep with
      | @pass _ _ rest =>
        rw [List.filter_cons_of_pos (by decide)]
        exact .head .pass (ih (w := ⟨links', here', []⟩) rfl)
      | @stay _ _ rest hsearch =>
        rw [List.filter_cons_of_neg (by simp)]
        exact ih (w := ⟨links', here', []⟩) rfl
      | @up _ _ rest hsearch =>
        rw [List.filter_cons_of_pos (by decide)]
        exact .head (.up hsearch) (ih (w := ⟨links', here'.dropLast, []⟩) rfl)
      | @down _ _ name rest hname hget =>
        rw [List.filter_cons_of_pos (by simpa using hname.ne_here)]
        exact .head (.down hname hget) (ih (w := ⟨links', here' ++ [name], []⟩) rfl)
      | @follow links _ name rest target hname hget =>
        rw [List.filter_cons_of_pos (by simpa using hname.ne_here)]
        exact .head (.follow hname hget) (ih (w := ⟨links, _, target.steps⟩) rfl)
    · obtain ⟨w', hfirst, rfl⟩ := hstep.of_append hahead
      exact .head (hfirst.append _) (ih rfl)

/-! ## What a way keeps -/

/-- The directory reached is one, and the names ahead hold no slashes. -/
structure Way.Sound (t : FileTree) (w : Way) : Prop where
  here : t.get? w.here = some .directory
  ahead : ∀ name ∈ w.ahead, slash ∉ name

/-- A step goes from a directory to a directory. -/
theorem Step.sound {w w' : Way} (h : t.Step w w') (hw : w.Sound t) : w'.Sound t := by
  obtain ⟨hhere, hahead⟩ := hw
  cases h with
  | pass | stay => exact ⟨hhere, (List.forall_mem_cons.1 hahead).2⟩
  | up => exact ⟨get?_dropLast hhere, (List.forall_mem_cons.1 hahead).2⟩
  | down hname hget => exact ⟨hget, (List.forall_mem_cons.1 hahead).2⟩
  | @follow links here name rest target hname hget =>
    refine ⟨?_, fun n hn => ?_⟩
    · dsimp only
      split
      · exact get?_nil t
      · exact hhere
    · rcases List.mem_append.1 hn with hn | hn
      · exact Path.no_slash_of_mem_steps hn
      · exact (List.forall_mem_cons.1 hahead).2 n hn

/-- So do any number of them. -/
theorem Steps.sound {w w' : Way} (h : t.Steps w w') (hw : w.Sound t) : w'.Sound t := by
  induction h with
  | refl => exact hw
  | tail _ hstep ih => exact hstep.sound ih

/-- A name that is looked up on a way is one that something can have. -/
theorem LooksUp.properName {here : Location} {name : Name} (h : t.LooksUp here name)
    (hslash : slash ∉ name) : ProperName name :=
  ⟨h.ne_nil, hslash, h.ne_here, h.ne_up⟩

/-! ## Where a path leads -/

/-- The beginning of the way along a path. -/
def outset (t : FileTree) (p : Path) : Way :=
  ⟨maxLinks, t.start p, p.steps⟩

/-- A path leads where its way leads, if the system takes it. -/
theorem resolve_eq (p : Path) :
    t.resolve true p = (checkPath p).bind fun _ => t.walkOn (t.outset p) :=
  rfl

/-- A path that can name something leads where steps along it lead. -/
theorem resolve_eq_ok_iff {p : Path} {place : Place} : t.resolve true p = .ok place ↔
    checkPath p = .ok () ∧ ∃ w, t.Steps (t.outset p) w ∧ t.Ends w place := by
  rw [resolve_eq]
  cases checkPath p with
  | error e =>
    refine ⟨nofun, fun h => ?_⟩
    cases h.1
  | ok _ =>
    rw [← walkOn_eq_ok_iff]
    exact ⟨fun h => ⟨rfl, h⟩, fun h => h.2⟩

/-- A path starts in a directory. -/
theorem get?_start (t : FileTree) (p : Path) : t.get? (t.start p) = some .directory := by
  unfold start
  split
  · exact get?_nil t
  · exact t.get?_home

/-- Every way begins in a directory. -/
theorem outset_sound (t : FileTree) (p : Path) : (t.outset p).Sound t :=
  ⟨t.get?_start p, fun _ hname => Path.no_slash_of_mem_steps hname⟩

/-- The place is as the tree has it. -/
def Has (t : FileTree) : Place → Prop
  | .occupied location entry => t.get? location = some entry
  | .vacant location => t.get? location = none ∧ HasPlace t.entries location

/-- What a way ends at is there. -/
theorem Ends.has {w : Way} {place : Place} (h : t.Ends w place) (hw : w.Sound t) : t.Has place := by
  cases h with
  | directory => exact hw.here
  | file _ hget => exact hget
  | vacant hname hget =>
    have hproper := hname.properName (hw.ahead _ (List.mem_singleton_self _))
    exact ⟨hget, hasPlace_iff.2 ⟨_, _, rfl, hproper, hw.here⟩⟩

/-- A path leads to what is there. -/
theorem resolve_has {p : Path} {place : Place} (h : t.resolve true p = .ok place) :
    t.Has place := by
  obtain ⟨-, w, hsteps, hends⟩ := resolve_eq_ok_iff.1 h
  exact hends.has (hsteps.sound (t.outset_sound p))

/-- A link is followed, so a path does not lead to one. -/
theorem resolve_ne_link {p : Path} {location : Location} {target : Path} :
    t.resolve true p ≠ .ok (.occupied location (.link target)) := by
  intro h
  obtain ⟨-, w, -, hends⟩ := resolve_eq_ok_iff.1 h
  cases hends

/-- A path leads to a location, whatever is there. -/
def LeadsTo (t : FileTree) (p : Path) (location : Location) : Prop :=
  (t.resolve true p).map Place.location = .ok location

instance (t : FileTree) (p : Path) (location : Location) : Decidable (t.LeadsTo p location) :=
  inferInstanceAs (Decidable (_ = _))

/-- A path leads to a location exactly if it is resolved to a place there. -/
theorem leadsTo_iff {p : Path} : t.LeadsTo p location ↔
    ∃ place, t.resolve true p = .ok place ∧ place.location = location := by
  unfold LeadsTo
  cases t.resolve true p with
  | error e => exact ⟨nofun, fun ⟨_, h, _⟩ => nomatch h⟩
  | ok place => simp [Except.map]

/-- A path leads to one location at most. -/
theorem LeadsTo.unique {p : Path} {location' : Location} (h : t.LeadsTo p location)
    (h' : t.LeadsTo p location') : location = location' :=
  Except.ok.inj (h.symm.trans h')

/-- A path that leads to something leads to it as it is there. -/
theorem LeadsTo.resolve_eq {p : Path} (h : t.LeadsTo p location)
    (hget : t.get? location = some entry) : t.resolve true p = .ok (.occupied location entry) := by
  obtain ⟨place, hplace, rfl⟩ := leadsTo_iff.1 h
  have hhas := resolve_has hplace
  cases place with
  | vacant => cases hget.symm.trans hhas.1
  | occupied location entry' =>
    obtain rfl := Option.some.inj (hhas.symm.trans hget)
    exact hplace

/-- What is answered where it may be. -/
theorem ite_ok_iff {ε α : Type} {c : Prop} [Decidable c] {a b : α} {e : ε} :
    (if c then Except.ok a else .error e) = .ok b ↔ a = b ∧ c := by
  split
  · next h => exact ⟨fun heq => ⟨Except.ok.inj heq, h⟩, fun ⟨heq, _⟩ => congrArg _ heq⟩
  · next h => exact ⟨nofun, fun ⟨_, hc⟩ => absurd hc h⟩

/-- A file is put where a path leads, to a file or to nothing, if it may be. -/
theorem target_eq_ok_iff {p : Path} : t.target p = .ok location ↔
    (∃ content, t.resolve true p = .ok (.occupied location (.file content)) ∧
        t.grants location .write) ∨
      t.resolve true p = .ok (.vacant location) ∧ t.grants location.dropLast .write := by
  unfold target
  rcases hresolve : t.resolve true p with e | (⟨place, entry⟩ | place)
  · exact iff_of_false nofun (by simp)
  · cases entry with
    | file content =>
      refine ite_ok_iff.trans ⟨?_, ?_⟩
      · rintro ⟨rfl, hright⟩
        exact .inl ⟨content, rfl, hright⟩
      · rintro (⟨_, ⟨⟩, hright⟩ | ⟨⟨⟩, -⟩)
        exact ⟨rfl, hright⟩
    | directory | link => exact iff_of_false nofun (by simp)
  · refine ite_ok_iff.trans ⟨?_, ?_⟩
    · rintro ⟨rfl, hright⟩
      exact .inr ⟨rfl, hright⟩
    · rintro (⟨_, ⟨⟩, -⟩ | ⟨⟨⟩, hright⟩)
      exact ⟨rfl, hright⟩

/-- A path that can be written leads to the location that is written. -/
theorem target_leadsTo {p : Path} (h : t.target p = .ok location) : t.LeadsTo p location := by
  rcases target_eq_ok_iff.1 h with ⟨content, h, -⟩ | ⟨h, -⟩
  · exact leadsTo_iff.2 ⟨_, h, rfl⟩
  · exact leadsTo_iff.2 ⟨_, h, rfl⟩

/-- A write puts its content where the path leads, or is refused as that place is. -/
theorem write_eq (p : Path) (content : Bytes) :
    t.write p content = (t.target p).map fun location => t.put location (.file content) := by
  unfold write
  cases t.target p <;> rfl

/-- A file is read where a path leads to it and it may be. -/
theorem read_eq_ok_iff {p : Path} {content : Bytes} : t.read p = .ok content ↔
    ∃ location, t.resolve true p = .ok (.occupied location (.file content)) ∧
      t.grants location .read := by
  unfold read
  rcases hresolve : t.resolve true p with e | (⟨place, entry⟩ | place)
  · exact iff_of_false nofun (by simp)
  · cases entry with
    | file content' =>
      refine ite_ok_iff.trans ⟨?_, ?_⟩
      · rintro ⟨rfl, hright⟩
        exact ⟨place, rfl, hright⟩
      · rintro ⟨_, ⟨⟩, hright⟩
        exact ⟨rfl, hright⟩
    | directory =>
      have hrefused : (if t.grants place .read then Except.error SystemError.isDirectory
          else .error .denied) ≠ .ok content := by split <;> exact nofun
      exact iff_of_false hrefused (by simp)
    | link => exact iff_of_false nofun (by simp)
  · exact iff_of_false nofun (by simp)

/-- A file can be put where a path leads that is written to. -/
theorem target_admits {p : Path} (h : t.target p = .ok location) (content : Bytes) :
    Admits t.entries location (.file content) := by
  rcases target_eq_ok_iff.1 h with ⟨content', h, -⟩ | ⟨h, -⟩
  · exact admits_of_file (resolve_has h) content
  · obtain ⟨hget, hplace⟩ := resolve_has h
    exact ⟨hplace, fun hdirectory => nomatch hget.symm.trans hdirectory⟩

/-! ## Trees without links -/

/-- Nothing is a symbolic link. -/
def LinkFree (t : FileTree) : Prop :=
  ∀ location target, t.get? location ≠ some (.link target)

/-- A tree is free of links if none of its entries is one. -/
theorem linkFree_of_entries (h : ∀ e ∈ t.entries, ∀ target, e.2 ≠ .link target) : t.LinkFree := by
  intro location target hget
  refine h (location, _) (mem_entries_of_get? ?_ hget) target rfl
  rintro rfl
  rw [get?_nil] at hget
  cases hget

/-- Without links, a way keeps to its names. -/
theorem Steps.suffix {w w' : Way} (h : t.Steps w w') (hfree : t.LinkFree) :
    w'.ahead <:+ w.ahead := by
  induction h with
  | refl => exact List.suffix_refl _
  | tail _ hstep ih =>
    refine List.IsSuffix.trans ?_ ih
    cases hstep with
    | pass | stay | up | down => exact List.suffix_cons ..
    | follow _ hget => exact absurd hget (hfree _ _)

/-- Without links, a path to a file ends in the name of the file. -/
theorem fileName?_of_resolve (hfree : t.LinkFree) {p : Path} {content : Bytes}
    (h : t.resolve true p = .ok (.occupied location (.file content))) :
    ∃ here name, location = here ++ [name] ∧ p.fileName? = some name := by
  obtain ⟨-, w, hsteps, hends⟩ := resolve_eq_ok_iff.1 h
  cases hends with
  | @file links here name _ hname _ =>
    obtain ⟨before, hahead⟩ := hsteps.suffix hfree
    have hnames : p.names = before ++ [name] := by
      change before ++ [name] = p.steps at hahead
      unfold Path.steps at hahead
      split at hahead
      -- behind a slash at the end, the empty name would come last
      · exact absurd (List.singleton_inj.1 (List.append_inj_right' hahead rfl)) hname.ne_nil
      · exact hahead.symm
    refine ⟨here, name, rfl, Path.fileName?_of_getLast? ?_ hname.ne_up⟩
    rw [Path.properNames, hnames]
    simp [hname.ne_here]

end FileTree

end Reckon
