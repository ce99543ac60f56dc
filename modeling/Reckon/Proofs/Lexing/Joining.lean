import Reckon.Proofs.Lexing.Reading
import Reckon.Proofs.Literal.Longest

/-!
# Texts joined between two tokens

A text may be cut where a token ends: what is read up to there is read just as well if the text ends
there (`Cursor.Reads.cut`). For that every scan has to come to the same token in the shorter text.
A literal does, since it is the longest one (`Numeral.scan?_cut`), and a mark does, since it looks
one character ahead at most (`Lexeme.scan_cut`). Blanks break a text anyway (`breaks_blanks`).

So the tokens of two texts with blanks between them, or joined at the end of a token, are those of
the first one, without its end, and those of the second one further behind.
-/

namespace Reckon

/-! ## Scanning a text that is cut -/

/-- Only a star looks at what follows. -/
theorem Lexeme.scanMark_of_ne_star {c : Char} (hc : c ≠ '*') (text rest : List Char) :
    scanMark c text = ((scanMark c rest).1, text) := by
  unfold scanMark
  split
  case h_3 => exact absurd rfl hc
  all_goals rfl

/-- A star that no other one follows is one mark. -/
theorem Lexeme.scanMark_star {text : List Char} (h : text.head? ≠ some '*') :
    scanMark '*' text = (⟨.star, ['*']⟩, text) := by
  cases text with
  | nil => rfl
  | cons c text =>
    have hc : c ≠ '*' := fun heq => h (congrArg some heq)
    simp [scanMark, hc]

/-- A mark that is scanned in front of a place is scanned also if the text ends there. -/
theorem Lexeme.scanMark_cut {c : Char} {text behind rest : List Char} {l : Lexeme}
    (h : scanMark c (text ++ rest) = (l, behind ++ rest)) : scanMark c text = (l, behind) := by
  by_cases hc : c = '*'
  · subst hc
    cases text with
    | nil =>
      -- the second star of a power would be behind the place
      have hstar : rest.head? ≠ some '*' := by
        intro hhead
        obtain ⟨more, rfl⟩ := List.head?_eq_some_iff.1 hhead
        have hlength := congrArg (·.2.length) h
        simp only [scanMark, List.nil_append, List.length_append, List.length_cons] at hlength
        omega
      rw [List.nil_append, scanMark_star hstar] at h
      obtain ⟨rfl, hrest⟩ := Prod.mk.inj h
      rw [List.self_eq_append_left.1 hrest]
      rfl
    | cons d text =>
      by_cases hd : d = '*'
      · subst hd
        obtain ⟨rfl, hrest⟩ := Prod.mk.inj h
        rw [← List.append_cancel_right hrest]
        rfl
      · have hstar (text : List Char) : (d :: text).head? ≠ some '*' :=
          fun hhead => hd (Option.some.inj hhead)
        rw [List.cons_append, scanMark_star (hstar _), ← List.cons_append] at h
        obtain ⟨rfl, hrest⟩ := Prod.mk.inj h
        rw [scanMark_star (hstar _), List.append_cancel_right hrest]
  · rw [scanMark_of_ne_star hc _ text] at h
    obtain ⟨rfl, hrest⟩ := Prod.mk.inj h
    rw [← List.append_cancel_right hrest]
    exact scanMark_of_ne_star hc _ text

/-- What is scanned in front of a place is scanned also if the text ends there. -/
theorem Lexeme.scan_cut {c : Char} {text behind rest : List Char} {l : Lexeme}
    (h : scan c (text ++ rest) = (l, behind ++ rest)) : scan c text = (l, behind) := by
  unfold scan at h ⊢
  rw [← List.cons_append] at h
  split at h
  · next n left hscan =>
    obtain ⟨rfl, rfl⟩ := Prod.mk.inj h
    rw [Numeral.scan?_cut hscan]
  · next hscan =>
    rw [Numeral.scan?_cut_none hscan]
    exact scanMark_cut h

namespace Cursor

/-- The next token is the same if the text ends somewhere behind it. -/
theorem next_cut {text behind rest : List Char} {position place : Nat} {t : Placed}
    (hnext : next ⟨text ++ rest, position⟩ = (t, ⟨behind ++ rest, place⟩))
    (hopen : t.token ≠ .finish) : next ⟨text, position⟩ = (t, ⟨behind, place⟩) := by
  obtain ⟨gap, first, more, hgap, hfirst, htext, hscan⟩ :=
    next_cases_of_ne_finish (c := ⟨text ++ rest, position⟩) (by rwa [hnext])
  rw [hscan] at hnext
  dsimp only at htext hnext
  obtain ⟨ht, hd⟩ := Prod.mk.inj hnext
  obtain ⟨hbehind, hplace⟩ := Cursor.mk.inj hd
  -- the characters of the token are in front of the place, and the first of them is `first`
  obtain ⟨hstands, hcover⟩ := Lexeme.scan_stands more hfirst
  obtain ⟨c, chars, hchars⟩ := List.exists_cons_of_ne_nil hstands.text_ne_nil
  rw [hbehind, hchars, List.cons_append] at hcover
  obtain ⟨rfl, hmore⟩ := List.cons.inj hcover
  rw [← List.append_assoc] at hmore
  have hcut : Lexeme.scan c (chars ++ behind ++ rest) =
      ((Lexeme.scan c more).1, behind ++ rest) := by
    rw [hmore, ← hbehind]
  have htext : text = gap ++ c :: (chars ++ behind) := by
    rw [← hmore, ← List.cons_append, ← List.append_assoc] at htext
    exact (List.append_cancel_right htext).symm
  rw [next, htext, nextFrom_blanks hgap, nextFrom_scan hfirst, Lexeme.scan_cut hcut, ← ht,
    ← hplace]

/-- What is read up to a place is read also if the text ends there. -/
theorem Reads.cut {text rest : List Char} {ts : List Placed} {position place : Nat}
    (h : Reads ⟨text ++ rest, position⟩ ts ⟨rest, place⟩) :
    Reads ⟨text, position⟩ ts ⟨[], place⟩ := by
  generalize hc : Cursor.mk (text ++ rest) position = c at h
  generalize hd : Cursor.mk rest place = d at h
  induction h generalizing text position with
  | refl =>
    obtain ⟨hrest, rfl⟩ := Cursor.mk.inj (hc.trans hd.symm)
    rw [List.append_left_eq_self.1 hrest]
    exact .refl
  | @step c d ts hopen hreads ih =>
    subst hd
    obtain ⟨front, hfront, -⟩ := hreads.exists_append
    have hleft : c.next = (c.next.1, ⟨front ++ rest, c.next.2.position⟩) := by
      rw [show front ++ rest = c.next.2.rest from hfront]
    have hcut : Cursor.next ⟨text, position⟩ = (c.next.1, ⟨front, c.next.2.position⟩) :=
      next_cut ((congrArg Cursor.next hc).trans hleft) hopen
    exact .of_next hcut hopen (ih (congrArg Prod.snd hleft).symm rfl)

/-- The tokens behind blanks are those of the text behind them. -/
theorem tokens_blanks {blanks : List Char} (h : ∀ c ∈ blanks, isBlank c) (rest : List Char)
    (position : Nat) :
    Cursor.tokens ⟨blanks ++ rest, position⟩ = Cursor.tokens ⟨rest, position + blanks.length⟩ :=
  tokens_congr (nextFrom_blanks h rest position)

/-- A text that starts behind other characters has the same tokens further behind. -/
theorem tokens_start_add (source : String) (offset : Nat) :
    Cursor.tokens ⟨source.toList, 1 + offset⟩ =
      (Reckon.tokens source).map (Placed.move offset) :=
  tokens_add (start source.toList) offset

end Cursor

/-! ## Joined texts -/

/-- No token reaches over a blank. -/
theorem breaks_blanks {blanks : List Char} (hne : blanks ≠ []) (h : ∀ c ∈ blanks, isBlank c)
    (rest : List Char) : Breaks (blanks ++ rest) := by
  obtain ⟨b, blanks, rfl⟩ := List.exists_cons_of_ne_nil hne
  have hb : isBlank b := h b (List.mem_cons_self ..)
  rintro c ⟨⟩
  simp only [isBlank, Bool.or_eq_true, decide_eq_true_eq] at hb
  rcases hb with ((rfl | rfl) | rfl) | rfl <;> decide

/-- Where the first text ends, a token of the two texts together ends, or all of them do. -/
def EndsToken (s t : String) : Prop :=
  t = "" ∨ ∃ ts place, ts ≠ [] ∧ (Cursor.start (s ++ t).toList).Reads ts ⟨t.toList, place⟩

section
variable {s t : String}

/-- Blanks separate the tokens of two texts. -/
theorem tokens_append_blanks {w : String} (hne : w ≠ "") (hw : ∀ c ∈ w.toList, isBlank c) :
    tokens (s ++ w ++ t) = body s ++ (tokens t).map (Placed.move (s ++ w).length) := by
  have hbreaks : Breaks (w.toList ++ t.toList) :=
    breaks_blanks (fun hnil => hne (String.toList_eq_nil_iff.1 hnil)) hw _
  rw [tokens, Cursor.start, String.toList_append, String.toList_append, List.append_assoc,
    hbreaks.tokens, Cursor.tokens_blanks hw, Nat.add_assoc, ← List.length_append,
    ← String.toList_append, String.length_toList, Cursor.tokens_start_add]
  rfl

/-- The tokens up to the end of one of them are those of the text that ends there. -/
theorem Cursor.Reads.tokens_append {ts : List Placed} {place : Nat}
    (h : (start (s ++ t).toList).Reads ts ⟨t.toList, place⟩) :
    Reckon.tokens (s ++ t) = body s ++ (Reckon.tokens t).map (Placed.move s.length) := by
  have htext : start (s ++ t).toList = ⟨s.toList ++ t.toList, 1⟩ := by
    rw [start, String.toList_append]
  have hplace : place = 1 + s.length := by
    obtain ⟨front, hfront, hposition⟩ := h.exists_append
    rw [htext] at hfront hposition
    rw [← String.length_toList, ← List.append_cancel_right hfront]
    exact hposition
  have hbody : body s = ts := by
    rw [htext] at h
    have htokens : Reckon.tokens s = ts ++ Cursor.tokens ⟨[], place⟩ := h.cut.tokens_eq
    rw [body, htokens, tokens_nil, List.dropLast_concat]
  rw [Reckon.tokens, h.tokens_eq, hbody, hplace, tokens_start_add]

/-- Texts can be joined where a token of the first ends. -/
theorem EndsToken.tokens_append (h : EndsToken s t) :
    tokens (s ++ t) = body s ++ (tokens t).map (Placed.move s.length) := by
  rcases h with rfl | ⟨ts, place, -, hreads⟩
  · have hempty : tokens "" = [⟨.finish, 1⟩] := Cursor.tokens_nil 1
    rw [String.append_empty, hempty, tokens_eq_body_append]
    rfl
  · exact hreads.tokens_append

end

/-- Lexing carries texts joined between two tokens to joined tokens. With blanks between two texts,
or where a token ends between them, the tokens are those of the first text, without its end, and
those of the second text with their positions increased by the number of characters in front of it.
So blanks behind a token change no kind and no value of a token. -/
theorem tokens_join (s t : String) :
    (∀ w : String, w ≠ "" → (∀ c ∈ w.toList, isBlank c) →
      tokens (s ++ w ++ t) = body s ++ (tokens t).map (Placed.move (s ++ w).length)) ∧
    (EndsToken s t →
      tokens (s ++ t) = body s ++ (tokens t).map (Placed.move s.length) ∧
      ∀ w : String, (∀ c ∈ w.toList, isBlank c) →
        (tokens (s ++ w ++ t)).map Placed.token = (tokens (s ++ t)).map Placed.token) := by
  refine ⟨fun w => tokens_append_blanks, fun hends => ⟨hends.tokens_append, fun w hw => ?_⟩⟩
  by_cases hne : w = ""
  · rw [hne, String.append_empty]
  · rw [tokens_append_blanks hne hw, hends.tokens_append, List.map_append, List.map_append,
      List.map_map, List.map_map]
    rfl

/-- Blanks may stand behind a mark of an exponent that is none. -/
theorem tokens_join_rejected_exponent :
    EndsToken "1e" "*2" ∧
      tokens "1e*2" = body "1e" ++ (tokens "*2").map (Placed.move 2) ∧
      (tokens "1e\r\n*2").map Placed.token = (tokens "1e*2").map Placed.token := by
  have hends : EndsToken "1e" "*2" := by
    have hnumber : Cursor.next (.start "1e*2".toList) = (⟨.number 1.0, 1⟩, ⟨"e*2".toList, 2⟩) := by
      decide +kernel
    have hmark : Cursor.next ⟨"e*2".toList, 2⟩ = (⟨.invalid, 2⟩, ⟨"*2".toList, 3⟩) := by
      decide +kernel
    have hreads := Cursor.Reads.of_next hnumber nofun (.of_next hmark nofun .refl)
    exact .inr ⟨_, 3, List.cons_ne_nil _ _, hreads⟩
  obtain ⟨hjoin, hblanks⟩ := (tokens_join "1e" "*2").2 hends
  exact ⟨hends, hjoin, hblanks "\r\n" (List.all_eq_true.1 (by decide))⟩

end Reckon
