import Reckon.Proofs.Grammar
import Reckon.Proofs.Tiling

/-!
# The tokens of joined texts

No token reaches over a parenthesis. `Breaks rest` says that a text starts with a character that
belongs to no token in front of it, or is empty. Then every scan of a text with `rest` behind it is
the scan of the text alone, with one lemma for each of the readers, and the tokens of the two texts
are those of the first, without its end, and those of the second (`Breaks.tokens`). Where a text
starts only moves its tokens (`Cursor.tokens_add`).

`tokens_group` puts this together for a text with another one in parentheses in it.
-/

namespace Reckon

/-! ## What is read first -/

namespace Cursor

/-- What stands in front of a text that is left is its first token. -/
theorem tokens_of_scan {c : Char} {text rest : List Char} {l : Lexeme} (hc : ¬ isBlank c)
    (hscan : Lexeme.scan c text = (l, rest)) (hl : l.token ≠ .finish) (position : Nat) :
    Cursor.tokens ⟨c :: text, position⟩ =
      ⟨l.token, position⟩ :: Cursor.tokens ⟨rest, position + l.text.length⟩ := by
  have hnext : Cursor.next ⟨c :: text, position⟩ =
      (⟨l.token, position⟩, ⟨rest, position + l.text.length⟩) := by
    rw [next, nextFrom, if_neg hc, hscan]
  rw [Cursor.tokens, hnext, dif_neg hl]

/-- What is neither a digit nor a point is read as a mark. -/
theorem tokens_of_scanMark {c : Char} {text rest : List Char} {l : Lexeme} (hc : ¬ isBlank c)
    (hdigit : ¬ c.isDigit) (hpoint : c ≠ '.') (hscan : Lexeme.scanMark c text = (l, rest))
    (hl : l.token ≠ .finish) (position : Nat) :
    Cursor.tokens ⟨c :: text, position⟩ =
      ⟨l.token, position⟩ :: Cursor.tokens ⟨rest, position + l.text.length⟩ := by
  refine tokens_of_scan hc ?_ hl position
  rw [Lexeme.scan, Numeral.scan?_mark hdigit hpoint]
  exact hscan

/-- Where nothing is left, the end is the only token. -/
theorem tokens_nil (position : Nat) : Cursor.tokens ⟨[], position⟩ = [⟨.finish, position⟩] := by
  rw [Cursor.tokens]
  exact dif_pos rfl

/-- An opening parenthesis is read first. -/
theorem tokens_opening (rest : List Char) (position : Nat) :
    Cursor.tokens ⟨'(' :: rest, position⟩ =
      ⟨.opening, position⟩ :: Cursor.tokens ⟨rest, position + 1⟩ :=
  tokens_of_scanMark (by decide) (by decide) (by decide) rfl (by nofun) position

/-- A closing parenthesis is read first. -/
theorem tokens_closing (rest : List Char) (position : Nat) :
    Cursor.tokens ⟨')' :: rest, position⟩ =
      ⟨.closing, position⟩ :: Cursor.tokens ⟨rest, position + 1⟩ :=
  tokens_of_scanMark (by decide) (by decide) (by decide) rfl (by nofun) position

/-- A sign is read first. -/
theorem tokens_unary (op : UnaryOp) (rest : List Char) (position : Nat) :
    Cursor.tokens ⟨op.symbol.toList ++ rest, position⟩ =
      ⟨op.token, position⟩ :: Cursor.tokens ⟨rest, position + op.symbol.toList.length⟩ := by
  cases op <;>
    exact tokens_of_scanMark (by decide) (by decide) (by decide) rfl (by nofun) position

/-- A star is an operator of its own only if no second one follows. -/
theorem tokens_binary (op : BinaryOp) {rest : List Char} (hrest : rest.head? ≠ some '*')
    (position : Nat) :
    Cursor.tokens ⟨op.symbol.toList ++ rest, position⟩ =
      ⟨op.token, position⟩ :: Cursor.tokens ⟨rest, position + op.symbol.toList.length⟩ := by
  cases op with
  | add | sub | div | pow =>
    exact tokens_of_scanMark (by decide) (by decide) (by decide) rfl (by nofun) position
  | mul =>
    have hscan : Lexeme.scanMark '*' rest = (⟨.star, ['*']⟩, rest) := by
      cases rest with
      | nil => rfl
      | cons c rest =>
        have hc : c ≠ '*' := fun heq => hrest (congrArg some heq)
        simp [Lexeme.scanMark, hc]
    exact tokens_of_scanMark (by decide) (by decide) (by decide) hscan (by nofun) position

/-- A numeral is read as one token, if no more of it follows. -/
theorem tokens_numeral {n : Numeral} (hn : n.WellFormed) {rest : List Char}
    (hrest : Numeral.Ends rest) (position : Nat) :
    Cursor.tokens ⟨n.text ++ rest, position⟩ =
      ⟨(Lexeme.ofNumeral n).token, position⟩ ::
        Cursor.tokens ⟨rest, position + n.text.length⟩ := by
  obtain ⟨c, text, htext⟩ := List.exists_cons_of_ne_nil hn.text_ne_nil
  have hc : ¬ isBlank c := hn.not_isBlank c (htext ▸ List.mem_cons_self ..)
  have hscan : Lexeme.scan c (text ++ rest) = (Lexeme.ofNumeral n, rest) := by
    rw [Lexeme.scan, ← List.cons_append, ← htext, hn.scan?_append hrest]
  have hlexeme : (Lexeme.ofNumeral n).text = n.text ∧
      (Lexeme.ofNumeral n).token ≠ .finish := by
    unfold Lexeme.ofNumeral
    split <;> exact ⟨rfl, nofun⟩
  rw [htext, List.cons_append, tokens_of_scan hc hscan hlexeme.2 position, hlexeme.1, htext]

/-- The tokens from a place on depend on the next token and on what stands behind it. -/
theorem tokens_congr {c d : Cursor} (h : c.next = d.next) : c.tokens = d.tokens := by
  rw [tokens, h, ← tokens]

/-- There is at least the end to be read. -/
theorem tokens_ne_nil (c : Cursor) : c.tokens ≠ [] := by
  rw [tokens]
  split <;> exact List.cons_ne_nil _ _

end Cursor

/-! ## Scanning in front of a break -/

/-- Digits are split off as far as the text goes, where none follows. -/
theorem splitDigits_of_head? {rest : List Char} (h : ∀ c ∈ rest.head?, ¬ c.isDigit)
    (text : List Char) :
    (text ++ rest).takeWhile Char.isDigit = text.takeWhile Char.isDigit ∧
      (text ++ rest).dropWhile Char.isDigit = text.dropWhile Char.isDigit ++ rest := by
  induction text with
  | nil => exact splitDigits_append nofun h
  | cons c text ih =>
    by_cases hc : c.isDigit
    · rw [List.cons_append, List.takeWhile_cons_of_pos hc, List.takeWhile_cons_of_pos hc,
        List.dropWhile_cons_of_pos hc, List.dropWhile_cons_of_pos hc, ih.1]
      exact ⟨rfl, ih.2⟩
    · rw [List.cons_append, List.takeWhile_cons_of_neg hc, List.takeWhile_cons_of_neg hc,
        List.dropWhile_cons_of_neg hc, List.dropWhile_cons_of_neg hc]
      exact ⟨rfl, rfl⟩

/-- The text does not go on with a character that could belong to a token in front of it. -/
def Breaks (rest : List Char) : Prop :=
  ∀ c ∈ rest.head?, ¬ c.isDigit ∧ c ∉ ['.', 'e', 'E', '+', '-', '*']

/-- An opening parenthesis breaks what is in front of it off. -/
theorem breaks_opening (rest : List Char) : Breaks ('(' :: rest) := by
  rintro c ⟨⟩
  decide

/-- A closing parenthesis breaks what is in front of it off. -/
theorem breaks_closing (rest : List Char) : Breaks (')' :: rest) := by
  rintro c ⟨⟩
  decide

namespace Breaks

variable {rest : List Char}

/-- Digits end where they ended in front of a break. -/
theorem splitDigits (h : Breaks rest) (text : List Char) :
    (text ++ rest).takeWhile Char.isDigit = text.takeWhile Char.isDigit ∧
      (text ++ rest).dropWhile Char.isDigit = text.dropWhile Char.isDigit ++ rest :=
  splitDigits_of_head? (fun c hc => (h c hc).1) text

/-- A sign is read the same in front of a break. -/
theorem scanSign (h : Breaks rest) (text : List Char) :
    ExponentPart.scanSign (text ++ rest) =
      ((ExponentPart.scanSign text).1, (ExponentPart.scanSign text).2 ++ rest) := by
  cases text with
  | cons c text =>
    rw [List.cons_append]
    unfold ExponentPart.scanSign
    split <;> simp_all
  | nil =>
    rw [List.nil_append]
    unfold ExponentPart.scanSign
    split
    · exact absurd (h '+' rfl).2 (by decide)
    · exact absurd (h '-' rfl).2 (by decide)
    · rfl

/-- An exponent is read the same in front of a break. -/
theorem scanExponent (h : Breaks rest) (text : List Char) :
    ExponentPart.scan? (text ++ rest) =
      (ExponentPart.scan? text).map fun (e, behind) => (e, behind ++ rest) := by
  cases text with
  | nil =>
    have hends : Numeral.Ends rest := by
      intro c hc
      exact ⟨(h c hc).1, fun hmem =>
        (h c hc).2 (List.mem_append_left ['+', '-', '*'] hmem)⟩
    exact hends.scan?_exponent
  | cons mark text =>
    rw [List.cons_append, ExponentPart.scan?, ExponentPart.scan?]
    split
    · obtain ⟨htake, hdrop⟩ := h.splitDigits (ExponentPart.scanSign text).2
      simp only [h.scanSign, htake, hdrop]
      split <;> rfl
    · rfl

/-- A mantissa is read the same in front of a break. -/
theorem scanMantissa (h : Breaks rest) (text : List Char) :
    Numeral.scanMantissa (text ++ rest) =
      ((Numeral.scanMantissa text).1, (Numeral.scanMantissa text).2 ++ rest) := by
  obtain ⟨htake, hdrop⟩ := h.splitDigits text
  unfold Numeral.scanMantissa
  rw [htake, hdrop]
  cases text.dropWhile Char.isDigit with
  | nil =>
    rw [List.nil_append]
    dsimp only
    split
    · exact absurd (h '.' rfl).2 (by decide)
    · rfl
  | cons c behind =>
    rw [List.cons_append]
    by_cases hc : c = '.'
    · subst hc
      obtain ⟨htake', hdrop'⟩ := h.splitDigits behind
      simp only [htake', hdrop']
    · simp [hc]

/-- A literal is read the same in front of a break. -/
theorem scanNumeral (h : Breaks rest) (text : List Char) :
    Numeral.scan? (text ++ rest) =
      (Numeral.scan? text).map fun (n, behind) => (n, behind ++ rest) := by
  unfold Numeral.scan?
  rw [h.scanMantissa]
  dsimp only
  split
  · rw [h.scanExponent]
    cases ExponentPart.scan? (Numeral.scanMantissa text).2 <;> rfl
  · rfl

/-- A mark is read the same in front of a break. -/
theorem scanMark (h : Breaks rest) (c : Char) (text : List Char) :
    Lexeme.scanMark c (text ++ rest) =
      ((Lexeme.scanMark c text).1, (Lexeme.scanMark c text).2 ++ rest) := by
  unfold Lexeme.scanMark
  split
  case h_3 =>
    cases text with
    | cons d text =>
      rw [List.cons_append]
      split <;> simp_all
    | nil =>
      rw [List.nil_append]
      split
      · exact absurd (h '*' rfl).2 (by decide)
      · rfl
  all_goals rfl

/-- A lexeme is read the same in front of a break. -/
theorem scan (h : Breaks rest) (c : Char) (text : List Char) :
    Lexeme.scan c (text ++ rest) =
      ((Lexeme.scan c text).1, (Lexeme.scan c text).2 ++ rest) := by
  unfold Lexeme.scan
  rw [← List.cons_append, h.scanNumeral]
  cases Numeral.scan? (c :: text) with
  | some scanned => rfl
  | none => exact h.scanMark c text

/-! ## Joined texts -/

/-- The next token is that of the first text, or of the second one behind blanks only. -/
theorem nextFrom (h : Breaks rest) (text : List Char) (position : Nat) :
    ((Cursor.nextFrom text position).1.token = .finish ∧
        Cursor.nextFrom (text ++ rest) position =
          Cursor.nextFrom rest (position + text.length)) ∨
      (Cursor.nextFrom text position).1.token ≠ .finish ∧
        Cursor.nextFrom (text ++ rest) position =
          ((Cursor.nextFrom text position).1,
            ⟨(Cursor.nextFrom text position).2.rest ++ rest,
              (Cursor.nextFrom text position).2.position⟩) := by
  induction text generalizing position with
  | nil => exact .inl ⟨rfl, rfl⟩
  | cons c text ih =>
    rw [List.cons_append]
    by_cases hc : isBlank c
    · have hskip (behind : List Char) : Cursor.nextFrom (c :: behind) position =
          Cursor.nextFrom behind (position + 1) := if_pos hc
      rw [hskip, hskip, List.length_cons, Nat.add_comm text.length, ← Nat.add_assoc]
      exact ih (position + 1)
    · refine .inr ⟨?_, ?_⟩
      · rw [Cursor.nextFrom, if_neg hc]
        exact (Lexeme.scan_stands text hc).1.token_ne_finish
      · rw [Cursor.nextFrom, Cursor.nextFrom, if_neg hc, if_neg hc, h.scan]

/-- The tokens of a text go on with those of the text behind it. -/
theorem tokens_cursor (h : Breaks rest) (c : Cursor) :
    Cursor.tokens ⟨c.rest ++ rest, c.position⟩ =
      c.tokens.dropLast ++ Cursor.tokens ⟨rest, c.position + c.rest.length⟩ := by
  fun_induction Cursor.tokens c with
  | case1 c hfinish =>
    rcases h.nextFrom c.rest c.position with ⟨-, hnext⟩ | ⟨hopen, -⟩
    · exact Cursor.tokens_congr hnext
    · exact absurd hfinish hopen
  | case2 c hopen ih =>
    rcases h.nextFrom c.rest c.position with ⟨hfinish, -⟩ | ⟨-, hjoined⟩
    · exact absurd hfinish hopen
    · have hposition : c.next.2.position + c.next.2.rest.length = c.position + c.rest.length := by
        rcases Cursor.nextFrom_cases c.rest c.position with
          ⟨-, hnext⟩ | ⟨tile, behind, -, -, htext, hnext⟩
        · exact absurd (congrArg Placed.token hnext) hopen
        · rw [Cursor.next, hnext, ← htext, List.length_append, Nat.add_assoc]
      have hnext : Cursor.next ⟨c.rest ++ rest, c.position⟩ =
          (c.next.1, ⟨c.next.2.rest ++ rest, c.next.2.position⟩) := hjoined
      rw [Cursor.tokens, hnext, dif_neg hopen, ih, hposition,
        List.dropLast_cons_of_ne_nil c.next.2.tokens_ne_nil, List.cons_append]

/-- In front of a break come the tokens of the text alone, and behind it those of the rest. -/
theorem tokens (h : Breaks rest) (text : List Char) (position : Nat) :
    Cursor.tokens ⟨text ++ rest, position⟩ =
      (Cursor.tokens ⟨text, position⟩).dropLast ++
        Cursor.tokens ⟨rest, position + text.length⟩ :=
  h.tokens_cursor ⟨text, position⟩

end Breaks

/-! ## Where a text starts -/

/-- The same token, further behind. -/
def Placed.move (offset : Nat) (t : Placed) : Placed :=
  ⟨t.token, t.position + offset⟩

namespace Cursor

/-- A token that is read further on is moved as far, and so is what comes behind it. -/
theorem nextFrom_add (text : List Char) (position offset : Nat) :
    nextFrom text (position + offset) =
      ((nextFrom text position).1.move offset,
        ⟨(nextFrom text position).2.rest, (nextFrom text position).2.position + offset⟩) := by
  induction text generalizing position with
  | nil => rfl
  | cons c text ih =>
    by_cases hc : isBlank c
    · have hskip (position : Nat) : nextFrom (c :: text) position = nextFrom text (position + 1) :=
        if_pos hc
      rw [hskip, hskip, Nat.add_right_comm, ih]
    · rw [nextFrom, nextFrom, if_neg hc, if_neg hc]
      dsimp only
      rw [Nat.add_right_comm]
      rfl

/-- The tokens of a text that starts further behind are the same ones further behind. -/
theorem tokens_add (c : Cursor) (offset : Nat) :
    tokens ⟨c.rest, c.position + offset⟩ = c.tokens.map (Placed.move offset) := by
  fun_induction tokens c with
  | case1 c hfinish =>
    have hnext : next ⟨c.rest, c.position + offset⟩ =
        (c.next.1.move offset, ⟨c.next.2.rest, c.next.2.position + offset⟩) :=
      nextFrom_add c.rest c.position offset
    rw [tokens, hnext, dif_pos (by exact hfinish), List.map_singleton]
  | case2 c hopen ih =>
    have hnext : next ⟨c.rest, c.position + offset⟩ =
        (c.next.1.move offset, ⟨c.next.2.rest, c.next.2.position + offset⟩) :=
      nextFrom_add c.rest c.position offset
    rw [tokens, hnext, dif_neg (by exact hopen), ih, List.map_cons]

end Cursor

/-! ## Texts -/

/-- The end of a text has the position behind its last character. -/
theorem tokens_eq_body_append (source : String) :
    tokens source = body source ++ [⟨.finish, 1 + source.length⟩] := by
  obtain ⟨position, hbody⟩ := tokens_eq_body source
  obtain ⟨tiles, last, -, htext, htokens⟩ := (Cursor.start source.toList).exists_tiled
  have htokens : tokens source = place 1 tiles last := htokens
  have hlength : (body source).length = tiles.length := by
    have hlength := congrArg List.length (hbody.symm.trans htokens)
    rwa [length_place, List.length_append, List.length_singleton, Nat.add_right_cancel_iff]
      at hlength
  have hend : (tokens source)[tiles.length]? = some ⟨.finish, 1 + source.length⟩ := by
    rw [htokens, getElem?_place_length, htext, Cursor.start, String.length_toList]
  rw [hbody, ← hlength, List.getElem?_concat_length] at hend
  rw [hbody, Option.some.inj hend]

/-- Positions count from one. -/
theorem one_le_position_of_mem_tokens {source : String} {t : Placed} (h : t ∈ tokens source) :
    1 ≤ t.position := by
  obtain ⟨tiles, last, -, -, htokens⟩ := (Cursor.start source.toList).exists_tiled
  rw [tokens, htokens] at h
  exact le_position_of_mem_place h

/-- The tokens in front of the end stand within the text. -/
theorem position_le_of_mem_body {source : String} {t : Placed} (h : t ∈ body source) :
    t.position ≤ source.length := by
  have hsorted := pairwise_position_tokens source
  rw [tokens_eq_body_append, List.map_append, List.pairwise_append] at hsorted
  have hlt := hsorted.2.2 t.position (List.mem_map_of_mem h) _ (List.mem_singleton_self _)
  dsimp only at hlt
  omega

/-- The tokens of a text with another one in parentheses in it. -/
theorem tokens_group (before inside behind : String) :
    tokens (before ++ "(" ++ inside ++ ")" ++ behind) =
      body before ++ ⟨.opening, before.length + 1⟩ ::
        ((body inside).map (Placed.move (before.length + 1)) ++
          ⟨.closing, before.length + inside.length + 2⟩ ::
            (tokens behind).map (Placed.move (before.length + inside.length + 2))) := by
  have hmove (source : String) (offset : Nat) : Cursor.tokens ⟨source.toList, 1 + offset⟩ =
      (tokens source).map (Placed.move offset) := Cursor.tokens_add (.start source.toList) offset
  have htext : (before ++ "(" ++ inside ++ ")" ++ behind).toList =
      before.toList ++ '(' :: (inside.toList ++ ')' :: behind.toList) := by simp
  have hopening : 1 + before.length + 1 = 1 + (before.length + 1) := by omega
  have hclosing : 1 + (before.length + 1) + inside.length = before.length + inside.length + 2 := by
    omega
  rw [tokens, htext, Cursor.start, (breaks_opening _).tokens, Cursor.tokens_opening,
    (breaks_closing _).tokens, Cursor.tokens_closing, String.length_toList, String.length_toList,
    hopening, hmove, hclosing, Nat.add_comm (before.length + inside.length + 2) 1, hmove,
    ← List.map_dropLast, Nat.add_comm 1]
  rfl

end Reckon
