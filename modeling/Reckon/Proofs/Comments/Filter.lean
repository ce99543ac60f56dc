import Reckon.Proofs.Comments

/-!
# Stripping comments line by line

`withoutComments` is `stripComments` on lists of characters. What it makes of a text is told by
its lines: one that ends in a line feed is kept or dropped by itself
(`withoutComments_line_feed`), and so is the last one without a line feed
(`withoutComments_of_not_mem`). Everything else follows from these two by induction on the lines,
`feed_induction`. `StartsComment` is what a comment is, without a reading of the line.
-/

namespace Reckon

/-- The first character of the line that is not white space is `#`. -/
def StartsComment (line : List Char) : Prop :=
  ∃ blanks rest, line = blanks ++ '#' :: rest ∧ ∀ c ∈ blanks, isWhiteSpace c

/-- A line is taken for a comment exactly if it starts one. -/
theorem isComment_iff (line : List Char) : isComment line ↔ StartsComment line := by
  constructor
  · intro h
    obtain ⟨rest, hrest⟩ := List.head?_eq_some_iff.1 (of_decide_eq_true h)
    refine ⟨line.takeWhile isWhiteSpace, rest, ?_, fun c hc => List.mem_takeWhile_imp hc⟩
    rw [← hrest, List.takeWhile_append_dropWhile]
  · rintro ⟨blanks, rest, rfl, hblanks⟩
    rw [isComment, List.dropWhile_append_of_pos hblanks]
    rfl

/-- The line feed behind a line is no part of what makes it a comment. -/
theorem isComment_append_feed (line : List Char) :
    isComment (line ++ ['\n']) = isComment line := by
  unfold isComment
  rw [List.dropWhile_append]
  split
  · next hempty =>
    rw [List.isEmpty_iff.1 hempty]
    rfl
  · next hempty =>
    rw [List.head?_append_of_ne_nil _ (mt List.isEmpty_iff.2 hempty)]

/-- The text without its comments. -/
def withoutComments (text : List Char) : List Char :=
  ((splitLines text).filter (!isComment ·)).flatten

/-- Stripping the comments of a text drops the lines that are comments. -/
theorem toList_stripComments (s : String) :
    (stripComments s).toList = withoutComments s.toList :=
  String.toList_ofList

section
variable {line : List Char}

/-- A text without a line feed is one line. -/
theorem withoutComments_of_not_mem (h : '\n' ∉ line) :
    withoutComments line = if isComment line then [] else line := by
  by_cases hne : line = []
  · rw [hne]
    rfl
  · rw [withoutComments, splitLines_eq, segments_of_not_mem h hne]
    cases hcomment : isComment line <;> simp [hcomment]

/-- A line with its line feed is kept or dropped by itself. -/
theorem withoutComments_line_feed (h : '\n' ∉ line) (rest : List Char) :
    withoutComments (line ++ '\n' :: rest) =
      (if isComment line then [] else line ++ ['\n']) ++ withoutComments rest := by
  rw [withoutComments, withoutComments, splitLines_eq, splitLines_eq, segments_append_feed h,
    ← isComment_append_feed line]
  cases hcomment : isComment (line ++ ['\n']) <;> simp [hcomment]

end

section
variable (text : List Char)

/-- Where a line begins, a text can be taken apart. -/
theorem withoutComments_append {before : List Char}
    (h : before = [] ∨ before.getLast? = some '\n') (behind : List Char) :
    withoutComments (before ++ behind) = withoutComments before ++ withoutComments behind := by
  simp only [withoutComments, splitLines_eq]
  rw [segments_append h, List.filter_append, List.flatten_append]

/-- What is left without comments was there before, in the same order. -/
theorem withoutComments_sublist : (withoutComments text).Sublist text := by
  induction text using feed_induction '\n' with
  | last line hline =>
    rw [withoutComments_of_not_mem hline]
    split
    · exact List.nil_sublist line
    · exact List.Sublist.refl line
  | line line rest hline ih =>
    rw [withoutComments_line_feed hline, List.append_cons line '\n' rest]
    refine List.Sublist.append ?_ ih
    split
    · exact List.nil_sublist _
    · exact List.Sublist.refl _

/-- The lines that are left are lines again, and none of them is a comment. -/
theorem withoutComments_withoutComments :
    withoutComments (withoutComments text) = withoutComments text := by
  induction text using feed_induction '\n' with
  | last line hline =>
    cases hcomment : isComment line with
    | true => simp only [withoutComments_of_not_mem hline, hcomment, if_true]; rfl
    | false => simp only [withoutComments_of_not_mem hline, hcomment, Bool.false_eq_true, if_false]
  | line line rest hline ih =>
    rw [withoutComments_line_feed hline]
    cases hcomment : isComment line with
    | true => rw [if_pos rfl, List.nil_append, ih]
    | false =>
      rw [if_neg Bool.false_ne_true, List.append_assoc, List.singleton_append,
        withoutComments_line_feed hline, ih, hcomment, if_neg Bool.false_ne_true,
        List.append_assoc, List.singleton_append]

/-- Where no line ends, the text is one line. -/
theorem splitOn_of_not_mem {line : List Char} (h : '\n' ∉ line) : line.splitOn '\n' = [line] := by
  rw [List.splitOn_eq_splitOnP]
  exact List.splitOnP_eq_singleton fun c hc => beq_eq_false_iff_ne.2 fun hfeed => h (hfeed ▸ hc)

/-- A line feed ends the first line. -/
theorem splitOn_line_feed {line : List Char} (h : '\n' ∉ line) (rest : List Char) :
    (line ++ '\n' :: rest).splitOn '\n' = line :: rest.splitOn '\n' := by
  have hsplit : (line ++ '\n' :: rest).splitOn '\n' = line.splitOn '\n' ++ rest.splitOn '\n' := by
    simp only [List.splitOn_eq_splitOnP]
    exact List.splitOnP_append_cons line rest (beq_self_eq_true '\n')
  rw [hsplit, splitOn_of_not_mem h, List.singleton_append]

/-- A text stays as it is if no line of it is a comment, and a comment that is dropped leaves it
shorter. -/
theorem withoutComments_eq_self_iff :
    withoutComments text = text ↔ ∀ line ∈ text.splitOn '\n', ¬ StartsComment line := by
  simp only [← isComment_iff, Bool.not_eq_true]
  induction text using feed_induction '\n' with
  | last line hline =>
    rw [withoutComments_of_not_mem hline, splitOn_of_not_mem hline, List.forall_mem_singleton]
    cases hcomment : isComment line with
    | true =>
      rw [if_pos rfl]
      refine iff_of_false ?_ Bool.noConfusion
      rintro rfl
      cases hcomment
    | false => exact iff_of_true (if_neg Bool.false_ne_true) rfl
  | line line rest hline ih =>
    rw [withoutComments_line_feed hline, splitOn_line_feed hline, List.forall_mem_cons, ← ih]
    cases hcomment : isComment line with
    | true =>
      rw [if_pos rfl, List.nil_append]
      refine iff_of_false (fun h => ?_) fun h => Bool.noConfusion h.1
      have hle := (withoutComments_sublist rest).length_le
      rw [h, List.length_append, List.length_cons] at hle
      omega
    | false =>
      rw [if_neg Bool.false_ne_true, List.append_cons line '\n' rest, List.append_cancel_left_eq]
      exact (and_iff_right rfl).symm

end

/-! ## Texts -/

/-- A line of its own, with a line feed behind it or without one. -/
theorem stripComments_line {line : String} (hline : '\n' ∉ line.toList) :
    stripComments line = (if isComment line.toList then "" else line) ∧
      stripComments (line ++ "\n") = if isComment line.toList then "" else line ++ "\n" := by
  constructor
  · rw [← String.toList_inj, toList_stripComments, withoutComments_of_not_mem hline]
    split <;> rfl
  · rw [← String.toList_inj, toList_stripComments, String.toList_append]
    refine (withoutComments_line_feed hline []).trans ?_
    split
    · rfl
    · rw [String.toList_append]
      exact List.append_nil _

/-- Stripping drops the lines whose first character that is not white space is `#`, and nothing
else. It can be done piece by piece where lines begin, doing it again changes nothing, and what it
does not change are the texts without such a line. A line goes up to a line feed or to the end of
the text: it is dropped or kept as a whole, with any other character that breaks lines in it, and
with a line feed behind it or without one. -/
theorem stripComments_filters :
    (∀ a b : String, (a = "" ∨ ∃ lines, a = lines ++ "\n") →
      stripComments (a ++ b) = stripComments a ++ stripComments b) ∧
    (∀ s : String, stripComments (stripComments s) = stripComments s) ∧
    (∀ s : String, stripComments s = s ↔
      ∀ line ∈ s.toList.splitOn '\n', ¬ StartsComment line) ∧
    ∀ line : String, '\n' ∉ line.toList →
      (StartsComment line.toList →
        stripComments line = "" ∧ stripComments (line ++ "\n") = "") ∧
      (¬ StartsComment line.toList →
        stripComments line = line ∧ stripComments (line ++ "\n") = line ++ "\n") := by
  refine ⟨fun a b ha => ?_, fun s => ?_, fun s => ?_, fun line hline => ?_⟩
  · have hstart : a.toList = [] ∨ a.toList.getLast? = some '\n' := by
      rcases ha with rfl | ⟨lines, rfl⟩
      · exact .inl rfl
      · rw [String.toList_append]
        exact .inr List.getLast?_concat
    rw [← String.toList_inj, toList_stripComments, String.toList_append,
      withoutComments_append hstart, String.toList_append, toList_stripComments,
      toList_stripComments]
  · rw [← String.toList_inj, toList_stripComments, toList_stripComments,
      withoutComments_withoutComments]
  · rw [← withoutComments_eq_self_iff, ← toList_stripComments, String.toList_inj]
  · obtain ⟨hlast, hended⟩ := stripComments_line hline
    rw [hlast, hended, ← isComment_iff]
    exact ⟨fun h => ⟨if_pos h, if_pos h⟩, fun h => ⟨if_neg h, if_neg h⟩⟩

/-- A carriage return and a line separator end no line, so the first line is kept with the `#`
behind them, and the second is dropped without an end. -/
theorem stripComments_filters_returns :
    stripComments ("1\r# 2\u2028# 3\n" ++ "\u0085\r# 4\u20285") =
      stripComments "1\r# 2\u2028# 3\n" ++ stripComments "\u0085\r# 4\u20285" ∧
    stripComments "\u0085\r# 4\u20285" = "" ∧
    stripComments ("1\r# 2\u2028# 3" ++ "\n") = "1\r# 2\u2028# 3" ++ "\n" := by
  obtain ⟨happend, -, -, hline⟩ := stripComments_filters
  have hkept : ¬ StartsComment "1\r# 2\u2028# 3".toList := by
    rw [← isComment_iff]
    decide +kernel
  have hdropped : StartsComment "\u0085\r# 4\u20285".toList := by
    rw [← isComment_iff]
    decide +kernel
  exact ⟨happend _ _ (.inr ⟨"1\r# 2\u2028# 3", rfl⟩), ((hline _ (by decide +kernel)).1 hdropped).1,
    ((hline _ (by decide +kernel)).2 hkept).2⟩

end Reckon
