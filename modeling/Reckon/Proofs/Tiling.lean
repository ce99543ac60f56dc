import Reckon.Proofs.Literal
import Reckon.Proofs.Stream

/-!
# The tokens of a text tile it

A text is cut into tiles: each is a gap of blanks and, behind it, the characters of a token, and
behind the last one there are only blanks. `Lexeme.Stands` says which characters make up which
token, and `Tiled` that a list of tiles and the blanks behind them are such a cut. `place` puts the
tokens of the tiles at the positions of their first characters.

`Cursor.nextFrom_cases` is the step, one token with the gap in front of it; `Cursor.exists_tiled`
follows by induction on the stream, and `tokens_tile` says it of a text.
-/

namespace Reckon

/-! ## The characters of a token -/

/-- The lexeme is a token with its characters, where the text `behind` follows. -/
inductive Lexeme.Stands (behind : List Char) : Lexeme → Prop
  | plus : Stands behind ⟨.plus, ['+']⟩
  | minus : Stands behind ⟨.minus, ['-']⟩
  | star : behind.head? ≠ some '*' → Stands behind ⟨.star, ['*']⟩
  | power : Stands behind ⟨.power, ['*', '*']⟩
  | slash : Stands behind ⟨.slash, ['/']⟩
  | opening : Stands behind ⟨.opening, ['(']⟩
  | closing : Stands behind ⟨.closing, [')']⟩
  | number {n : Numeral} {value : Float} : n.WellFormed → n.decimal.double? = some value →
      Stands behind ⟨.number value, n.text⟩
  | infinite {n : Numeral} : n.WellFormed → n.decimal.double? = none →
      Stands behind ⟨.invalid, n.text⟩
  | other {c : Char} : ¬ isBlank c → ¬ c.isDigit → c ∉ ['+', '-', '*', '/', '(', ')'] →
      (c = '.' → ∀ d ∈ behind.head?, ¬ d.isDigit) → Stands behind ⟨.invalid, [c]⟩

/-- A digit is no blank. -/
theorem not_isBlank_of_isDigit {c : Char} (h : c.isDigit) : ¬ isBlank c := by
  intro hblank
  simp only [isBlank, Bool.or_eq_true, decide_eq_true_eq] at hblank
  rcases hblank with ((rfl | rfl) | rfl) | rfl <;> cases h

/-- A literal has no blanks in it. -/
theorem Numeral.WellFormed.not_isBlank {n : Numeral} (h : n.WellFormed) :
    ∀ c ∈ n.text, ¬ isBlank c := by
  intro c hc
  rcases h.text_cases hc with hdigit | hmark
  · exact not_isBlank_of_isDigit hdigit
  · simp only [List.mem_cons, List.not_mem_nil, or_false] at hmark
    rcases hmark with rfl | rfl | rfl | rfl | rfl <;> decide

namespace Lexeme.Stands

variable {behind : List Char} {l : Lexeme}

/-- A lexeme is not empty. -/
theorem text_ne_nil (h : Stands behind l) : l.text ≠ [] := by
  cases h with
  | number hn _ | infinite hn _ => exact hn.text_ne_nil
  | _ => exact nofun

/-- A lexeme has no blanks in it. -/
theorem not_isBlank (h : Stands behind l) : ∀ c ∈ l.text, ¬ isBlank c := by
  cases h with
  | number hn _ | infinite hn _ => exact hn.not_isBlank
  | other hblank _ _ _ => exact fun c hc => List.mem_singleton.1 hc ▸ hblank
  | _ =>
    intro c hc
    simp only [List.mem_cons, List.not_mem_nil, or_false, or_self] at hc
    rw [hc]
    decide

/-- The end of the text covers no characters, so it is no lexeme. -/
theorem token_ne_finish (h : Stands behind l) : l.token ≠ .finish := by
  cases h <;> exact nofun

end Lexeme.Stands

/-- A scan takes its lexeme off the front of the text. -/
theorem Lexeme.scan_stands {c : Char} (rest : List Char) (hc : ¬ isBlank c) :
    (scan c rest).1.Stands (scan c rest).2 ∧
      (scan c rest).1.text ++ (scan c rest).2 = c :: rest := by
  unfold scan
  split
  · next n behind hscan =>
    have hn := Numeral.scan?_wellFormed hscan
    unfold ofNumeral
    split
    · next value hvalue => exact ⟨.number hn hvalue, Numeral.scan?_append hscan⟩
    · next hvalue => exact ⟨.infinite hn hvalue, Numeral.scan?_append hscan⟩
  · next hscan =>
    obtain ⟨hdigit, hpoint⟩ := Numeral.scan?_eq_none hscan
    unfold scanMark
    split
    · exact ⟨.plus, rfl⟩
    · exact ⟨.minus, rfl⟩
    · split
      · exact ⟨.power, rfl⟩
      · next hstar =>
        refine ⟨.star fun hhead => ?_, rfl⟩
        obtain ⟨behind, hbehind⟩ := List.head?_eq_some_iff.1 hhead
        exact hstar behind hbehind
    · exact ⟨.slash, rfl⟩
    · exact ⟨.opening, rfl⟩
    · exact ⟨.closing, rfl⟩
    · next h1 h2 h3 h4 h5 h6 =>
      refine ⟨.other hc hdigit ?_ hpoint, rfl⟩
      simp only [List.mem_cons, List.not_mem_nil, or_false, not_or]
      exact ⟨h1, h2, h3, h4, h5, h6⟩

/-! ## Tiles -/

/-- A token with its characters, and the blanks in front of it. -/
structure Tile where
  gap : List Char
  lexeme : Lexeme

/-- The characters of a tile. -/
def Tile.text (tile : Tile) : List Char :=
  tile.gap ++ tile.lexeme.text

/-- The characters of tiles, and of what is left behind them. -/
def tiledText (tiles : List Tile) (last : List Char) : List Char :=
  tiles.flatMap Tile.text ++ last

/-- The tiles and the blanks `last` behind them are a cut of their text. -/
inductive Tiled (last : List Char) : List Tile → Prop
  | nil : (∀ c ∈ last, isBlank c) → Tiled last []
  | cons {tile : Tile} {tiles : List Tile} : (∀ c ∈ tile.gap, isBlank c) →
      tile.lexeme.Stands (tiledText tiles last) → Tiled last tiles → Tiled last (tile :: tiles)

/-- The tokens of tiles, whose first character is at `position`, and the end of the text. -/
def place (position : Nat) : List Tile → List Char → List Placed
  | [], last => [⟨.finish, position + last.length⟩]
  | tile :: tiles, last =>
    ⟨tile.lexeme.token, position + tile.gap.length⟩ ::
      place (position + tile.text.length) tiles last

/-- The next token is the end, behind blanks only, or a lexeme behind a gap of blanks. -/
theorem Cursor.nextFrom_cases (text : List Char) (position : Nat) :
    ((∀ c ∈ text, isBlank c) ∧
      (nextFrom text position).1 = ⟨.finish, position + text.length⟩) ∨
    ∃ tile : Tile, ∃ behind, (∀ c ∈ tile.gap, isBlank c) ∧ tile.lexeme.Stands behind ∧
      tile.text ++ behind = text ∧
      nextFrom text position = (⟨tile.lexeme.token, position + tile.gap.length⟩,
        ⟨behind, position + tile.text.length⟩) := by
  induction text generalizing position with
  | nil => exact .inl ⟨nofun, rfl⟩
  | cons c rest ih =>
    by_cases hc : isBlank c
    · have hskip : nextFrom (c :: rest) position = nextFrom rest (position + 1) := if_pos hc
      rw [hskip]
      rcases ih (position + 1) with
        ⟨hblank, hnext⟩ | ⟨⟨gap, l⟩, behind, hgap, hstands, htext, hnext⟩
      · refine .inl ⟨List.forall_mem_cons.2 ⟨hc, hblank⟩, ?_⟩
        rw [hnext, List.length_cons, Nat.add_assoc, Nat.add_comm 1]
      · refine .inr ⟨⟨c :: gap, l⟩, behind, List.forall_mem_cons.2 ⟨hc, hgap⟩, hstands, ?_, ?_⟩
        · exact congrArg (c :: ·) htext
        · rw [hnext]
          simp only [Tile.text, List.cons_append, List.length_cons, Nat.add_assoc, Nat.add_comm 1]
    · obtain ⟨hstands, htext⟩ := Lexeme.scan_stands rest hc
      exact .inr ⟨⟨[], (Lexeme.scan c rest).1⟩, (Lexeme.scan c rest).2, nofun, hstands, htext,
        if_neg hc⟩

/-- The tokens from a place on are those of tiles of the text that is left. -/
theorem Cursor.exists_tiled (c : Cursor) :
    ∃ tiles last, Tiled last tiles ∧ tiledText tiles last = c.rest ∧
      c.tokens = place c.position tiles last := by
  fun_induction Cursor.tokens c with
  | case1 c h =>
    rcases nextFrom_cases c.rest c.position with
      ⟨hblank, hnext⟩ | ⟨tile, behind, -, hstands, -, hnext⟩
    · exact ⟨[], c.rest, .nil hblank, rfl, congrArg (fun t => [t]) hnext⟩
    · rw [next, hnext] at h
      exact absurd h hstands.token_ne_finish
  | case2 c h ih =>
    rcases nextFrom_cases c.rest c.position with
      ⟨-, hnext⟩ | ⟨tile, behind, hgap, hstands, htext, hnext⟩
    · rw [next, hnext] at h
      exact absurd rfl h
    · obtain ⟨tiles, last, htiled, hcover, htokens⟩ := ih
      rw [next, hnext] at hcover htokens ⊢
      dsimp only at hcover htokens
      refine ⟨tile :: tiles, last, .cons hgap (hcover ▸ hstands) htiled, ?_, ?_⟩
      · rw [← htext, ← hcover, tiledText, List.flatMap_cons, List.append_assoc, tiledText]
      · rw [htokens, place]

/-! ## Positions -/

section
variable {position : Nat} {tiles before after : List Tile} {tile : Tile} {last : List Char}

/-- There is a token for each tile, and the end. -/
theorem length_place : (place position tiles last).length = tiles.length + 1 := by
  induction tiles generalizing position with
  | nil => rfl
  | cons tile tiles ih => rw [place, List.length_cons, ih, List.length_cons]

/-- A token has the position of its first character. -/
theorem getElem?_place (h : tiles = before ++ tile :: after) :
    (place position tiles last)[before.length]? =
      some ⟨tile.lexeme.token, position + (before.flatMap Tile.text ++ tile.gap).length⟩ := by
  subst h
  induction before generalizing position with
  | nil => rfl
  | cons first before ih =>
    rw [List.cons_append, place, List.length_cons, List.getElem?_cons_succ, ih]
    simp only [List.flatMap_cons, List.length_append, Nat.add_assoc]

/-- The end has the position behind the last character. -/
theorem getElem?_place_length : (place position tiles last)[tiles.length]? =
    some ⟨.finish, position + (tiledText tiles last).length⟩ := by
  induction tiles generalizing position with
  | nil => rfl
  | cons tile tiles ih =>
    rw [place, List.length_cons, List.getElem?_cons_succ, ih]
    simp only [tiledText, List.flatMap_cons, List.length_append, Nat.add_assoc]

/-- Tokens stand behind the place where the tiles begin. -/
theorem le_position_of_mem_place {t : Placed} (h : t ∈ place position tiles last) :
    position ≤ t.position := by
  induction tiles generalizing position with
  | nil =>
    rw [List.mem_singleton.1 h]
    exact Nat.le_add_right _ _
  | cons tile tiles ih =>
    rcases List.mem_cons.1 h with rfl | h
    · exact Nat.le_add_right _ _
    · exact Nat.le_trans (Nat.le_add_right _ _) (ih h)

end

/-! ## Cuts -/

namespace Tiled

variable {last : List Char} {tiles before after : List Tile} {tile : Tile}

/-- Behind the last tile there are only blanks. -/
theorem last_isBlank (h : Tiled last tiles) : ∀ c ∈ last, isBlank c := by
  induction h with
  | nil hblank => exact hblank
  | cons _ _ _ ih => exact ih

/-- Every tile is a gap of blanks and a lexeme, where the tiles behind it follow. -/
theorem stands (h : Tiled last tiles) (hsplit : tiles = before ++ tile :: after) :
    (∀ c ∈ tile.gap, isBlank c) ∧ tile.lexeme.Stands (tiledText after last) := by
  subst hsplit
  induction before with
  | nil =>
    cases h with
    | cons hgap hstands _ => exact ⟨hgap, hstands⟩
  | cons first before ih =>
    cases h with
    | cons _ _ hrest => exact ih hrest

/-- There are no more tiles than characters. -/
theorem length_le (h : Tiled last tiles) : tiles.length ≤ (tiledText tiles last).length := by
  induction h with
  | nil => exact Nat.zero_le _
  | @cons tile tiles _ hstands _ ih =>
    have hpos := List.length_pos_iff.2 hstands.text_ne_nil
    simp only [tiledText, List.flatMap_cons, Tile.text, List.length_append,
      List.length_cons] at ih ⊢
    omega

/-- Positions increase from token to token, since no token is without characters. -/
theorem pairwise_position (h : Tiled last tiles) (position : Nat) :
    ((place position tiles last).map Placed.position).Pairwise (· < ·) := by
  induction h generalizing position with
  | nil => exact List.pairwise_singleton _ _
  | @cons tile tiles _ hstands _ ih =>
    rw [place, List.map_cons, List.pairwise_cons]
    refine ⟨fun p hp => ?_, ih _⟩
    obtain ⟨t, ht, rfl⟩ := List.mem_map.1 hp
    have hle := le_position_of_mem_place ht
    have hpos := List.length_pos_iff.2 hstands.text_ne_nil
    rw [Tile.text, List.length_append] at hle
    dsimp only
    omega

end Tiled

/-! ## Texts -/

/-- Positions increase from token to token. -/
theorem pairwise_position_tokens (source : String) :
    ((tokens source).map Placed.position).Pairwise (· < ·) := by
  obtain ⟨tiles, last, htiled, -, htokens⟩ := (Cursor.start source.toList).exists_tiled
  rw [tokens, htokens]
  exact htiled.pairwise_position 1

/-- Of two tokens the one behind the other has the larger position. -/
theorem position_lt_of_length_lt {source : String} {before before' after after' : List Placed}
    {t t' : Placed} (h : tokens source = before ++ t :: after)
    (h' : tokens source = before' ++ t' :: after') (hlt : before.length < before'.length) :
    t.position < t'.position := by
  have hsorted := pairwise_position_tokens source
  have hget : (tokens source)[before.length]? = some t := by rw [h]; simp
  have hget' : (tokens source)[before'.length]? = some t' := by rw [h']; simp
  rw [List.pairwise_iff_getElem] at hsorted
  obtain ⟨hbound, rfl⟩ := List.getElem?_eq_some_iff.1 hget
  obtain ⟨hbound', rfl⟩ := List.getElem?_eq_some_iff.1 hget'
  have hmap := hsorted before.length before'.length (by simpa using hbound) (by simpa using hbound')
    hlt
  simpa using hmap

/-- The tokens of a text tile it. Gaps of blanks and the characters of the tokens, which are not
blank, make up the text in order; each token has the position of its first character and the end
the position behind the last one. -/
theorem tokens_tile (source : String) :
    (Lexer.ofSource source).Yields (tokens source) ∧
    ∃ tiles last,
      tiledText tiles last = source.toList ∧
      (∀ c ∈ last, isBlank c) ∧
      (∀ tile ∈ tiles, (∀ c ∈ tile.gap, isBlank c) ∧ tile.lexeme.text ≠ [] ∧
        (∀ c ∈ tile.lexeme.text, ¬ isBlank c) ∧ tile.lexeme.token ≠ .finish) ∧
      (∀ before tile after, tiles = before ++ tile :: after →
        tile.lexeme.Stands (tiledText after last) ∧
        (tokens source)[before.length]? =
          some ⟨tile.lexeme.token, 1 + (before.flatMap Tile.text ++ tile.gap).length⟩) ∧
      (tokens source).length = tiles.length + 1 ∧
      (tokens source)[tiles.length]? = some ⟨.finish, 1 + source.length⟩ ∧
      ((tokens source).map Placed.position).Pairwise (· < ·) ∧
      (tokens source).length ≤ source.length + 1 := by
  obtain ⟨tiles, last, htiled, htext, htokens⟩ := (Cursor.start source.toList).exists_tiled
  have htokens : tokens source = place 1 tiles last := htokens
  have htext : tiledText tiles last = source.toList := htext
  refine ⟨Lexer.yields_tokens source, tiles, last, htext, htiled.last_isBlank, fun tile ht => ?_,
    fun before tile after hsplit => ?_, ?_, ?_, ?_, ?_⟩
  · obtain ⟨before, after, hsplit⟩ := List.append_of_mem ht
    obtain ⟨hgap, hstands⟩ := htiled.stands hsplit
    exact ⟨hgap, hstands.text_ne_nil, hstands.not_isBlank, hstands.token_ne_finish⟩
  · rw [htokens, getElem?_place hsplit]
    exact ⟨(htiled.stands hsplit).2, rfl⟩
  · rw [htokens, length_place]
  · rw [htokens, getElem?_place_length, htext, String.length_toList]
  · rw [htokens]
    exact htiled.pairwise_position 1
  · have hle := htiled.length_le
    rw [htext, String.length_toList] at hle
    rw [htokens, length_place]
    exact Nat.succ_le_succ hle

/-- Positions count characters, blanks among them, and not bytes. -/
example : (tokens " é\t# ").map Placed.position = [2, 4, 6] := by decide +kernel

end Reckon
