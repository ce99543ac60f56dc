import Reckon.Session

/-!
# Token streams

`Lexer.yields_tokens` says that a reader yields the token stream of its text, and then ends.
`Session.stream` are the tokens that a session has still to take, from its look-ahead up to the end
of the text. Taking a token takes it off the stream (`Session.stream_eq_cons`), and at the start the
stream is all tokens of the text (`Session.stream_start`). `body` are the tokens of a text in front
of its end, which stands once, as the last token of all (`tokens_eq_body`).
-/

namespace Reckon

/-! ## The end of a token stream -/

/-- The tokens from a place on are tokens before the end of the text, and that end. -/
theorem Cursor.exists_tokens_eq (c : Cursor) :
    ∃ ts position, c.tokens = ts ++ [⟨.finish, position⟩] ∧ ∀ t ∈ ts, t.token ≠ .finish := by
  fun_induction Cursor.tokens c with
  | case1 c h => exact ⟨[], c.next.1.position, by rw [← h]; rfl, nofun⟩
  | case2 c h ih =>
    obtain ⟨ts, position, htokens, hts⟩ := ih
    refine ⟨c.next.1 :: ts, position, by rw [htokens]; rfl, fun t ht => ?_⟩
    rcases List.mem_cons.1 ht with rfl | ht
    · exact h
    · exact hts t ht

/-- The tokens of a text in front of its end. -/
def body (source : String) : List Placed :=
  (tokens source).dropLast

/-- The end of a text is its last token. -/
theorem tokens_eq_body (source : String) :
    ∃ position, tokens source = body source ++ [⟨.finish, position⟩] := by
  obtain ⟨ts, position, htokens, -⟩ := (Cursor.start source.toList).exists_tokens_eq
  refine ⟨position, ?_⟩
  rw [body, tokens, htokens, List.dropLast_concat]

/-- The end is none of the tokens in front of it. -/
theorem token_ne_finish_of_mem_body {source : String} {t : Placed} (h : t ∈ body source) :
    t.token ≠ .finish := by
  obtain ⟨ts, position, htokens, hts⟩ := (Cursor.start source.toList).exists_tokens_eq
  rw [body, tokens, htokens, List.dropLast_concat] at h
  exact hts t h

/-- Every text comes to its end. -/
theorem exists_finish_mem_tokens (source : String) : ∃ t ∈ tokens source, t.token = .finish := by
  obtain ⟨position, htokens⟩ := tokens_eq_body source
  exact ⟨⟨.finish, position⟩, by rw [htokens]; exact List.mem_concat_self, rfl⟩

/-- What stands before the end of a text is its body, and nothing stands behind it. -/
theorem eq_body_of_finish {source : String} {before after : List Placed} {t : Placed}
    (h : before ++ t :: after = tokens source) (ht : t.token = .finish) :
    before = body source ∧ after = [] := by
  obtain ⟨position, htokens⟩ := tokens_eq_body source
  rw [htokens] at h
  rcases List.eq_nil_or_concat after with rfl | ⟨after, u, rfl⟩
  · exact ⟨(List.append_inj' h rfl).1, rfl⟩
  · rw [List.concat_eq_append, ← List.cons_append, ← List.append_assoc] at h
    have hmem : t ∈ body source := by
      rw [← (List.append_inj' h rfl).1]
      exact List.mem_append_right _ (List.mem_cons_self ..)
    exact absurd ht (token_ne_finish_of_mem_body hmem)

/-- Any other token than the end of a text belongs to its body. -/
theorem exists_body_eq_of_ne_finish {source : String} {before after : List Placed} {t : Placed}
    (h : before ++ t :: after = tokens source) (ht : t.token ≠ .finish) :
    ∃ rest, body source = before ++ t :: rest := by
  obtain ⟨position, htokens⟩ := tokens_eq_body source
  rw [htokens] at h
  rcases List.eq_nil_or_concat after with rfl | ⟨after, u, rfl⟩
  · have hlast := (List.append_inj' h rfl).2
    injection hlast with hlast
    exact absurd (congrArg Placed.token hlast) ht
  · rw [List.concat_eq_append, ← List.cons_append, ← List.append_assoc] at h
    exact ⟨after, (List.append_inj' h rfl).1.symm⟩

/-! ## Readers -/

namespace Lexer

/-- The tokens that a reader yields one after the other until it ends. -/
inductive Yields : Lexer → List Placed → Prop
  | ended {l next : Lexer} : l.next? = (none, next) → Yields l []
  | token {l next : Lexer} {t : Placed} {ts : List Placed} : l.next? = (some t, next) →
      Yields next ts → Yields l (t :: ts)

/-- A reader that has not ended yields the tokens from its place on. -/
theorem yields_cursor (c : Cursor) (source : String) : Yields ⟨source, c, false⟩ c.tokens := by
  fun_induction Cursor.tokens c with
  | case1 c h =>
    have hnext : next? ⟨source, c, false⟩ = (some c.next.1, ⟨source, c.next.2, true⟩) := by
      simp [next?, nextToken, h]
    exact .token hnext (.ended rfl)
  | case2 c h ih =>
    have hnext : next? ⟨source, c, false⟩ = (some c.next.1, ⟨source, c.next.2, false⟩) := by
      simp [next?, nextToken, h]
    exact .token hnext ih

/-- A reader of a text yields the token stream of the text. -/
theorem yields_tokens (source : String) : (ofSource source).Yields (tokens source) :=
  yields_cursor (Cursor.start source.toList) source

end Lexer

/-! ## Sessions -/

namespace Session

/-- The tokens that a session has still to take, from its look-ahead on. -/
def stream (s : Session) : List Placed :=
  if s.lookahead.token = .finish then [s.lookahead] else s.lookahead :: s.cursor.tokens

/-- A session starts with all the tokens of its text. -/
theorem stream_start (source : String) (maxDepth : Nat) :
    (start source maxDepth).stream = tokens source := by
  rw [tokens, Cursor.tokens]
  rfl

/-- Behind a token that is not the end, the stream goes on. -/
theorem stream_eq_cons {s : Session} (h : s.lookahead.token ≠ .finish) :
    s.stream = s.lookahead :: s.advance.stream := by
  rw [stream, if_neg h, Cursor.tokens]
  rfl

/-- Behind the end, nothing comes. -/
theorem stream_finish {s : Session} (h : s.lookahead.token = .finish) :
    s.stream = [s.lookahead] :=
  if_pos h

section
variable {e next : Evaluation} {s : Session} {applied : List Application}

/-- Where an evaluation takes the look-ahead, that is not the end of the text. -/
theorem lookahead_ne_finish {verdict : Verdict} (h : e.react s.lookahead = ⟨applied, verdict⟩)
    (htake : ∀ outcome, verdict ≠ .stop outcome) : s.lookahead.token ≠ .finish := by
  intro hfinish
  obtain ⟨outcome, hstop⟩ := e.react_finish s.lookahead.position
  rw [← hfinish, h] at hstop
  exact htake outcome hstop

/-- Where the evaluation goes on, the next token is read. -/
theorem run_proceed (h : e.react s.lookahead = ⟨applied, .proceed next⟩) :
    s.run e = { s.advance.run next with
      events := applied.map .applied ++ .lexed s.advance.lookahead ::
        (s.advance.run next).events } := by
  rw [run]
  split
  · next h' =>
    cases h.symm.trans h'
    rfl
  · next h' => cases h.symm.trans h'
  · next h' => cases h.symm.trans h'

/-- Where a token is refused, it is taken, and the run ends. -/
theorem run_refuse {error : EvalError} (h : e.react s.lookahead = ⟨applied, .refuse error⟩) :
    s.run e =
      ⟨.error error, applied.map .applied ++ [.lexed s.advance.lookahead], s.advance⟩ := by
  rw [run]
  split
  · next h' => cases h.symm.trans h'
  · next h' =>
    cases h.symm.trans h'
    rfl
  · next h' => cases h.symm.trans h'

/-- Where the evaluation stops, the token is left. -/
theorem run_stop {outcome : Outcome} (h : e.react s.lookahead = ⟨applied, .stop outcome⟩) :
    s.run e = ⟨outcome, applied.map .applied, s⟩ := by
  rw [run]
  split
  · next h' => cases h.symm.trans h'
  · next h' => cases h.symm.trans h'
  · next h' =>
    cases h.symm.trans h'
    rfl

end

/-- The look-ahead is the first token of the stream. -/
theorem exists_stream_eq (s : Session) : ∃ ts, s.stream = s.lookahead :: ts := by
  by_cases h : s.lookahead.token = .finish
  · exact ⟨[], stream_finish h⟩
  · exact ⟨_, stream_eq_cons h⟩

end Session

end Reckon
