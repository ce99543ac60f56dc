import Reckon.Proofs.Paths

/-!
# Paths above a path

The paths above a path go through ever fewer of its names (`Path.ancestors_eq`). So each of them is
`Path.Inside` of the next one (`Path.isChain_ancestors`), and the bytes of the next are part of its
own: what is not too long for the innermost is not too long for the others.
-/

namespace Reckon

open scoped List

/-! ## Parts of some bytes -/

/-- Between the parts of some bytes stand their slashes. -/
theorem intercalate_splitSlashes (bytes : Bytes) :
    [slash].intercalate (splitSlashes bytes) = bytes := by
  induction bytes with
  | nil => rfl
  | cons byte rest ih =>
    obtain ⟨part, parts, hrest⟩ := List.exists_cons_of_ne_nil (splitSlashes_ne_nil rest)
    rw [hrest] at ih
    by_cases hbyte : byte = slash
    · rw [splitSlashes, if_pos hbyte, hrest, List.intercalate_cons_cons, ih, hbyte]
      rfl
    · rw [splitSlashes_cons hbyte hrest]
      cases parts with
      | nil =>
        rw [List.intercalate_singleton] at ih ⊢
        rw [ih]
      | cons next parts =>
        rw [List.intercalate_cons_cons] at ih ⊢
        rw [List.cons_append, List.cons_append, ih]

/-- Fewer parts make a part of the whole. -/
theorem intercalate_sublist {parts parts' : List Bytes} (h : parts <+ parts')
    (separator : Bytes) : separator.intercalate parts <+ separator.intercalate parts' := by
  induction h with
  | slnil => exact .slnil
  | @cons parts parts' part h ih =>
    cases parts' with
    | nil =>
      cases h
      exact List.nil_sublist _
    | cons next parts' =>
      rw [List.intercalate_cons_cons]
      exact ih.trans (List.sublist_append_right _ _)
  | @cons_cons parts parts' part h ih =>
    cases parts with
    | nil =>
      rw [List.intercalate_singleton]
      cases parts' with
      | nil => rw [List.intercalate_singleton]
      | cons next parts' =>
        rw [List.intercalate_cons_cons, List.append_assoc]
        exact List.sublist_append_left _ _
    | cons first parts =>
      cases parts' with
      | nil => cases h
      | cons next parts' =>
        rw [List.intercalate_cons_cons, List.intercalate_cons_cons]
        exact .append (.refl _) ih

/-! ## First names of a path -/

namespace Path

variable {p : Path}

/-- The path through the first names of a path. -/
def above (p : Path) (count : Nat) : Path :=
  ⟨(if p.isAbsolute then [slash] else []) ++ [slash].intercalate (p.properNames.take count)⟩

/-- The paths above a path go through its first names, fewer each. -/
theorem ancestors_eq (h : p.bytes ≠ []) : p.ancestors =
    p :: ((List.range (p.properNames.length - 1)).map fun i => p.above (i + 1)).reverse := by
  have hempty : p.bytes.isEmpty = false := by simpa using h
  unfold ancestors
  dsimp only
  rw [hempty, if_neg Bool.false_ne_true]
  rfl

/-- A name that is left is none of the directory itself. -/
theorem of_mem_properNames {name : Name} (h : name ∈ p.properNames) :
    name ≠ hereName ∧ name ≠ [] ∧ slash ∉ name := by
  obtain ⟨hmem, hhere⟩ := List.mem_filter.1 h
  exact ⟨of_decide_eq_true hhere, of_mem_names hmem⟩

/-- Names that are put together are the names of what they make. -/
theorem namesOf_intercalate {names : List Name} (h : ∀ name ∈ names, name ≠ [] ∧ slash ∉ name) :
    namesOf ([slash].intercalate names) = names := by
  induction names with
  | nil => rfl
  | cons name names ih =>
    obtain ⟨⟨hnil, hslash⟩, hnames⟩ := List.forall_mem_cons.1 h
    cases names with
    | nil => exact (congrArg namesOf List.intercalate_singleton).trans (namesOf_name hnil hslash)
    | cons next names =>
      rw [List.intercalate_cons_cons, List.append_assoc, List.singleton_append, namesOf_append,
        namesOf_name hnil hslash, ih hnames]
      rfl

/-- The path through the first names has these names, and no point among them. -/
theorem names_above (p : Path) (count : Nat) :
    (p.above count).names = p.properNames.take count := by
  have hnames : namesOf ([slash].intercalate (p.properNames.take count)) =
      p.properNames.take count :=
    namesOf_intercalate fun name hname => (of_mem_properNames (List.mem_of_mem_take hname)).2
  rw [names_eq, above]
  dsimp only
  split
  · rw [List.singleton_append, ← List.nil_append (slash :: _), namesOf_append, hnames]
    rfl
  · exact hnames

/-- The path through the first names starts where the path does. -/
theorem isAbsolute_above (p : Path) (count : Nat) : (p.above count).isAbsolute = p.isAbsolute := by
  by_cases habsolute : p.isAbsolute
  · rw [habsolute, isAbsolute, above, if_pos habsolute]
    rfl
  · rw [Bool.eq_false_iff.2 habsolute, isAbsolute, above, if_neg habsolute, List.nil_append,
      decide_eq_false_iff_not]
    intro hhead
    cases hnames : p.properNames.take count with
    | nil => simp [hnames] at hhead
    | cons name names =>
      have hname : name ∈ p.properNames :=
        List.mem_of_mem_take (hnames ▸ List.mem_cons_self ..)
      obtain ⟨-, hnil, hslash⟩ := of_mem_properNames hname
      obtain ⟨byte, rest, rfl⟩ := List.exists_cons_of_ne_nil hnil
      have hbyte : byte = slash := by
        cases names <;> simpa [hnames, List.intercalate_cons_cons] using hhead
      exact hslash (by simp [hbyte])

/-- A path through fewer names is part of one through more. -/
theorem above_sublist_above (p : Path) {count count' : Nat} (h : count ≤ count') :
    (p.above count).bytes <+ (p.above count').bytes :=
  .append (.refl _) (intercalate_sublist (List.take_sublist_take_left h) _)

/-- The path through names of a path is part of the path. -/
theorem above_sublist (p : Path) (count : Nat) : (p.above count).bytes <+ p.bytes := by
  have hparts : p.properNames.take count <+ (splitSlashes p.bytes).filter (!·.isEmpty) :=
    (List.take_sublist _ _).trans List.filter_sublist
  unfold above
  dsimp only
  split
  · next habsolute =>
    obtain ⟨rest, hbytes⟩ : ∃ rest, p.bytes = slash :: rest :=
      List.head?_eq_some_iff.1 (of_decide_eq_true habsolute)
    have hsplit : splitSlashes p.bytes = [] :: splitSlashes rest := by
      rw [hbytes, splitSlashes, if_pos rfl]
    rw [hsplit, List.filter_cons_of_neg (by simp)] at hparts
    rw [hbytes]
    refine List.Sublist.cons_cons _ ?_
    have hsub := intercalate_sublist (hparts.trans List.filter_sublist) [slash]
    rwa [intercalate_splitSlashes] at hsub
  · have hsub := intercalate_sublist (hparts.trans List.filter_sublist) [slash]
    rwa [intercalate_splitSlashes] at hsub

/-! ## One above the other -/

/-- A path is directly inside of another one, which goes through no points. -/
structure Inside (p q : Path) : Prop where
  isAbsolute : p.isAbsolute = q.isAbsolute
  names : ∃ name, p.properNames = q.names ++ [name]
  bytes : q.bytes <+ p.bytes
  ne_nil : q.bytes ≠ []

/-- A path through at least one name is not empty. -/
theorem above_ne_nil (h : p.properNames ≠ []) (count : Nat) : (p.above (count + 1)).bytes ≠ [] := by
  intro hempty
  have hnames := p.names_above (count + 1)
  rw [names_eq, hempty] at hnames
  exact h ((List.take_eq_nil_iff.1 hnames.symm).resolve_left (Nat.succ_ne_zero count))

/-- A path is inside of the next one above it. -/
theorem isChain_above {q : Path} {count : Nat} (hlength : count < p.properNames.length)
    (habsolute : q.isAbsolute = p.isAbsolute)
    (hnames : q.properNames = p.properNames.take (count + 1))
    (hbytes : (p.above count).bytes <+ q.bytes) :
    List.IsChain Inside (q :: ((List.range count).map fun i => p.above (i + 1)).reverse) := by
  induction count generalizing q with
  | zero => exact .singleton _
  | succ count ih =>
    rw [List.range_succ, List.map_append, List.reverse_append]
    refine .cons_cons ⟨?_, ⟨p.properNames[count + 1], ?_⟩, hbytes, ?_⟩ (ih ?_ ?_ ?_ ?_)
    · rw [habsolute, isAbsolute_above]
    · rw [hnames, names_above, List.take_append_getElem hlength]
    · exact above_ne_nil (List.ne_nil_of_length_pos (Nat.zero_lt_of_lt hlength)) count
    · exact Nat.lt_of_succ_lt hlength
    · exact isAbsolute_above p _
    · rw [properNames, names_above, List.filter_eq_self]
      exact fun name hname => decide_eq_true (of_mem_properNames (List.mem_of_mem_take hname)).1
    · exact above_sublist_above p (Nat.le_succ count)

/-- A path and those above it are each inside of the next. -/
theorem isChain_ancestors (p : Path) : List.IsChain Inside p.ancestors := by
  by_cases hempty : p.bytes = []
  · unfold ancestors
    simp [hempty]
  rw [ancestors_eq hempty]
  by_cases hnames : p.properNames = []
  · rw [hnames]
    exact .singleton _
  have hlength : p.properNames.length ≠ 0 := by simpa using hnames
  refine isChain_above (by omega) rfl ?_ (above_sublist p _)
  rw [List.take_of_length_le (by omega)]

end Path

end Reckon
