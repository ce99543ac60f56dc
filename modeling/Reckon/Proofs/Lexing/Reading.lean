import Reckon.Proofs.Lexing

/-!
# Reading token by token

`Cursor.Reads c ts d` says that reading the tokens `ts` leads from the place `c` of a text to the
place `d`, which is the end of the last of them. Every token of a stream is read at such a place
(`Cursor.exists_reads`). What has been read stands in front of what is left
(`Cursor.Reads.exists_append`), so the text from the position of a token on is what the token is
scanned from (`Cursor.Reads.text_cases`).
-/

namespace Reckon

namespace Cursor

/-- Reading the tokens, none of which is the end, leads from one place of a text to another. -/
inductive Reads : Cursor → List Placed → Cursor → Prop
  | refl {c : Cursor} : Reads c [] c
  | step {c d : Cursor} {ts : List Placed} : c.next.1.token ≠ .finish → Reads c.next.2 ts d →
      Reads c (c.next.1 :: ts) d

/-! ## The next token -/

/-- A text is blank, or the next character is behind a gap of blanks. -/
theorem blank_or_exists_gap (text : List Char) :
    (∀ c ∈ text, isBlank c) ∨
      ∃ gap c rest, (∀ b ∈ gap, isBlank b) ∧ ¬ isBlank c ∧ gap ++ c :: rest = text := by
  have hsplit := List.takeWhile_append_dropWhile (p := isBlank) (l := text)
  cases hrest : text.dropWhile isBlank with
  | nil => exact .inl (List.dropWhile_eq_nil_iff.1 hrest)
  | cons c rest =>
    have hc : ¬ isBlank c := by
      have hhead := List.head_dropWhile_not isBlank (l := text) (by rw [hrest]; exact nofun)
      simp only [hrest, List.head_cons] at hhead
      rw [hhead]
      exact Bool.false_ne_true
    rw [hrest] at hsplit
    exact .inr ⟨_, c, rest, fun _ hb => List.mem_takeWhile_imp hb, hc, hsplit⟩

/-- Blanks in front are passed over and counted. -/
theorem nextFrom_blanks {gap : List Char} (h : ∀ b ∈ gap, isBlank b) (rest : List Char)
    (position : Nat) : nextFrom (gap ++ rest) position = nextFrom rest (position + gap.length) := by
  induction gap generalizing position with
  | nil => rfl
  | cons b gap ih =>
    obtain ⟨hb, hgap⟩ := List.forall_mem_cons.1 h
    have hskip : nextFrom (b :: gap ++ rest) position = nextFrom (gap ++ rest) (position + 1) :=
      if_pos hb
    rw [hskip, ih hgap, List.length_cons, Nat.add_assoc, Nat.add_comm 1]

/-- A token begins at the first character that is no blank. -/
theorem nextFrom_scan {c : Char} (hc : ¬ isBlank c) (rest : List Char) (position : Nat) :
    nextFrom (c :: rest) position =
      (⟨(Lexeme.scan c rest).1.token, position⟩,
        ⟨(Lexeme.scan c rest).2, position + (Lexeme.scan c rest).1.text.length⟩) :=
  if_neg hc

/-- The next token is the end behind blanks, or it is scanned behind a gap of blanks. -/
theorem next_cases (c : Cursor) :
    ((∀ b ∈ c.rest, isBlank b) ∧ c.next.1 = ⟨.finish, c.position + c.rest.length⟩) ∨
      ∃ gap first rest, (∀ b ∈ gap, isBlank b) ∧ ¬ isBlank first ∧
        gap ++ first :: rest = c.rest ∧
        c.next = (⟨(Lexeme.scan first rest).1.token, c.position + gap.length⟩,
          ⟨(Lexeme.scan first rest).2,
            c.position + gap.length + (Lexeme.scan first rest).1.text.length⟩) := by
  obtain ⟨text, position⟩ := c
  rcases blank_or_exists_gap text with hblank | ⟨gap, first, rest, hgap, hfirst, rfl⟩
  · refine .inl ⟨hblank, ?_⟩
    have hnext := nextFrom_blanks hblank [] position
    rw [List.append_nil] at hnext
    exact congrArg Prod.fst hnext
  · refine .inr ⟨gap, first, rest, hgap, hfirst, rfl, ?_⟩
    exact (nextFrom_blanks hgap _ position).trans (nextFrom_scan hfirst rest _)

/-- Behind blanks, a token that is not the end begins with a character. -/
theorem next_cases_of_ne_finish {c : Cursor} (h : c.next.1.token ≠ .finish) :
    ∃ gap first rest, (∀ b ∈ gap, isBlank b) ∧ ¬ isBlank first ∧
      gap ++ first :: rest = c.rest ∧
      c.next = (⟨(Lexeme.scan first rest).1.token, c.position + gap.length⟩,
        ⟨(Lexeme.scan first rest).2,
          c.position + gap.length + (Lexeme.scan first rest).1.text.length⟩) :=
  c.next_cases.resolve_left fun hend => h (by rw [hend.2])

/-- Behind the next token is what it leaves of the text. -/
theorem exists_append_next {c : Cursor} (h : c.next.1.token ≠ .finish) :
    ∃ front, front ++ c.next.2.rest = c.rest ∧ c.next.2.position = c.position + front.length := by
  obtain ⟨gap, first, rest, -, hfirst, htext, hnext⟩ := next_cases_of_ne_finish h
  refine ⟨gap ++ (Lexeme.scan first rest).1.text, ?_, ?_⟩
  · rw [hnext, List.append_assoc, (Lexeme.scan_stands rest hfirst).2, htext]
  · rw [hnext, List.length_append, Nat.add_assoc]

/-! ## The tokens up to a place -/

namespace Reads

variable {c d : Cursor} {ts : List Placed}

/-- What is read next comes in front of what is read from there on. -/
theorem of_next {c' : Cursor} {t : Placed} (hnext : c.next = (t, c')) (hopen : t.token ≠ .finish)
    (h : Reads c' ts d) : Reads c (t :: ts) d := by
  have hstep := step (c := c) (by rwa [hnext]) (by rwa [hnext])
  rwa [hnext] at hstep

/-- The tokens from a place on are those that are read and those from behind them on. -/
theorem tokens_eq (h : Reads c ts d) : c.tokens = ts ++ d.tokens := by
  induction h with
  | refl => rfl
  | @step c d ts hopen _ ih => rw [tokens, dif_neg hopen, ih, List.cons_append]

/-- What is read stands in front of what is left. -/
theorem exists_append (h : Reads c ts d) :
    ∃ front, front ++ d.rest = c.rest ∧ d.position = c.position + front.length := by
  induction h with
  | refl => exact ⟨[], rfl, rfl⟩
  | step hopen _ ih =>
    obtain ⟨first, hfirst, hmove⟩ := exists_append_next hopen
    obtain ⟨front, hfront, hposition⟩ := ih
    refine ⟨first ++ front, ?_, ?_⟩
    · rw [List.append_assoc, hfront, hfirst]
    · rw [hposition, hmove, List.length_append, Nat.add_assoc]

end Reads

/-- Every token of a stream is the next one at some place. -/
theorem exists_reads {c : Cursor} {before after : List Placed} {t : Placed}
    (h : c.tokens = before ++ t :: after) : ∃ d, Reads c before d ∧ d.next.1 = t := by
  induction before generalizing c with
  | nil =>
    refine ⟨c, .refl, ?_⟩
    rw [tokens] at h
    split at h <;> exact (List.cons.inj h).1
  | cons first before ih =>
    rw [tokens, List.cons_append] at h
    split at h
    · have hbehind := List.append_ne_nil_of_right_ne_nil before (List.cons_ne_nil t after)
      exact absurd (List.cons.inj h).2 hbehind.symm
    · next hopen =>
      obtain ⟨rfl, hrest⟩ := List.cons.inj h
      obtain ⟨d, hreads, hd⟩ := ih hrest
      exact ⟨d, .step hopen hreads, hd⟩

/-- The text from the next token on: nothing at the end, and else what the token is scanned from. -/
theorem Reads.text_cases {text : List Char} {ts : List Placed} {d : Cursor}
    (h : Reads (start text) ts d) :
    text.drop (d.next.1.position - 1) = [] ∨
      ∃ first rest, ¬ isBlank first ∧ text.drop (d.next.1.position - 1) = first :: rest ∧
        d.next = (⟨(Lexeme.scan first rest).1.token, d.next.1.position⟩,
          ⟨(Lexeme.scan first rest).2,
            d.next.1.position + (Lexeme.scan first rest).1.text.length⟩) := by
  obtain ⟨front, hfront, hposition⟩ := h.exists_append
  have hfront : front ++ d.rest = text := hfront
  have hposition : d.position = 1 + front.length := hposition
  rcases d.next_cases with ⟨-, hnext⟩ | ⟨gap, first, rest, -, hfirst, htext, hnext⟩
  · refine .inl (List.drop_eq_nil_iff.2 ?_)
    rw [hnext, hposition, ← hfront, List.length_append]
    dsimp only
    omega
  · refine .inr ⟨first, rest, hfirst, ?_, ?_⟩
    · have hlength : d.next.1.position - 1 = (front ++ gap).length := by
        rw [hnext, hposition, List.length_append]
        dsimp only
        omega
      rw [hlength, ← hfront, ← htext, ← List.append_assoc, List.drop_left]
    · rw [hnext]

end Cursor

end Reckon
