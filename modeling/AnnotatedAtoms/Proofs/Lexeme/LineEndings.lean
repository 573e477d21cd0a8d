import AnnotatedAtoms.Proofs.Lexeme.OpenQuote

/-!
# Line endings

A carriage return in front of every newline is a blank where the newline separates two pieces, the
last character of a comment where it ends one, and a character like any other in a quoted text. So
the tokens of a text and their lines do not depend on how its lines end, and quoted texts only in
that they have the carriage returns too.

* `scan_addReturns_source_append`: what becomes of a piece;
* `Scanner.scan_addReturns`: what becomes of the tokens of a text, or of its error;
* `tokenize_withReturns`: the tokens of a text with and without carriage returns.
-/

namespace AnnotatedAtoms

open Lexeme

/-! ## Texts with carriage returns -/

/-- A carriage return is added in front of every newline. -/
def addReturns (cs : List Char) : List Char :=
  cs.flatMap fun c => if c = '\n' then ['\r', '\n'] else [c]

def withReturns (text : String) : String := String.ofList (addReturns text.toList)

theorem addReturns_cons_of_ne {c : Char} (h : c ≠ '\n') (cs : List Char) :
    addReturns (c :: cs) = c :: addReturns cs := by
  rw [addReturns, List.flatMap_cons, if_neg h]
  rfl

theorem addReturns_newline (cs : List Char) :
    addReturns ('\n' :: cs) = '\r' :: '\n' :: addReturns cs := rfl

theorem addReturns_append (cs ds : List Char) :
    addReturns (cs ++ ds) = addReturns cs ++ addReturns ds := List.flatMap_append

theorem addReturns_eq_self {cs : List Char} (h : '\n' ∉ cs) : addReturns cs = cs := by
  induction cs with
  | nil => rfl
  | cons c cs ih =>
    have hc : c ≠ '\n' := Ne.symm (List.ne_of_not_mem_cons h)
    rw [addReturns_cons_of_ne hc, ih (List.not_mem_of_not_mem_cons h)]

theorem mem_addReturns {c : Char} (h : c ≠ '\r') (cs : List Char) :
    c ∈ addReturns cs ↔ c ∈ cs := by
  induction cs with
  | nil => rfl
  | cons d cs ih =>
    by_cases hd : d = '\n'
    · simp [hd, addReturns_newline, h, ih]
    · simp [addReturns_cons_of_ne hd, ih]

theorem count_newline_addReturns (cs : List Char) :
    (addReturns cs).count '\n' = cs.count '\n' := by
  induction cs with
  | nil => rfl
  | cons c cs ih =>
    by_cases hc : c = '\n'
    · simp [hc, addReturns_newline, ih]
    · simp [addReturns_cons_of_ne hc, List.count_cons, ih]

/-- What stands first in a text still does, unless it is a newline. -/
theorem head?_addReturns (cs : List Char) :
    ∀ c ∈ (addReturns cs).head?, c = '\r' ∨ c ∈ cs.head? := by
  intro c hc
  cases cs with
  | nil => cases hc
  | cons d cs =>
    by_cases hd : d = '\n'
    · rw [hd, addReturns_newline] at hc
      cases hc
      exact Or.inl rfl
    · rw [addReturns_cons_of_ne hd] at hc
      exact Or.inr hc

/-! ## Tokens and errors -/

/-- Only a quoted text has newlines. -/
def Token.withReturns (t : Token) : Token :=
  if t.quoted then .quotation (AnnotatedAtoms.withReturns t.text) else t

def tokensWithReturns (ts : List (Token × Nat)) : List (Token × Nat) :=
  ts.map fun (t, line) => (t.withReturns, line)

def ReadError.withReturns : ReadError → ReadError
  | unexpectedText text line => unexpectedText (AnnotatedAtoms.withReturns text) line
  | e => e

def resultWithReturns :
    Except ReadError (List (Token × Nat)) → Except ReadError (List (Token × Nat))
  | .ok ts => .ok (tokensWithReturns ts)
  | .error e => .error e.withReturns

theorem resultWithReturns_prepend (ts : List (Token × Nat))
    (result : Except ReadError (List (Token × Nat))) :
    resultWithReturns (prepend ts result) =
      prepend (tokensWithReturns ts) (resultWithReturns result) := by
  cases result with
  | error e => rfl
  | ok us => exact congrArg Except.ok List.map_append

/-! ## One piece -/

/-- A piece other than blanks, newlines and comments is read again as a piece with the carriage
returns in it. -/
theorem scan_addReturns_of_source_eq {l m : Lexeme} (hsource : m.source = addReturns l.source)
    (hm : m.Valid) {rest : List Char} (hreturn : m.takes '\r' = false) (hs : m.StopsAt rest)
    (line : Nat) (htokens : tokens line [m] = tokensWithReturns (tokens line [l])) :
    Scanner.scan ⟨addReturns (l.source ++ rest), line⟩ =
      prepend (tokensWithReturns (tokens line [l]))
        (Scanner.scan ⟨addReturns rest, line + l.newlines⟩) := by
  have hstops : m.StopsAt (addReturns rest) := by
    intro c hc
    rcases head?_addReturns rest c hc with rfl | hc
    · exact hreturn
    · exact hs c hc
  have hnewlines : m.newlines = l.newlines := by
    rw [newlines, hsource, count_newline_addReturns, newlines]
  rw [addReturns_append, ← hsource, Scanner.scan_source_append hm hstops, htokens, hnewlines]

/-- A carriage return makes no difference to what is read after it. -/
theorem scan_return (cs : List Char) (line : Nat) :
    Scanner.scan ⟨'\r' :: cs, line⟩ = Scanner.scan ⟨cs, line⟩ := by
  have hblank : ∀ c ∈ ['\r'], isBlank c = true := List.forall_mem_singleton.mpr rfl
  exact Scanner.scan_blanks_append hblank cs line

theorem scan_addReturns_comment {body rest : List Char} (hbody : '\n' ∉ body)
    (hs : (Lexeme.comment body).StopsAt rest) (line : Nat) :
    Scanner.scan ⟨addReturns ((Lexeme.comment body).source ++ rest), line⟩ =
      Scanner.scan ⟨addReturns rest, line⟩ := by
  have hsource : addReturns (Lexeme.comment body).source = (Lexeme.comment body).source :=
    addReturns_eq_self (List.not_mem_cons_of_ne_of_not_mem (by decide) hbody)
  rw [addReturns_append, hsource]
  cases rest with
  | nil => exact Scanner.scan_comment_append hbody hs line
  | cons c cs =>
    have hc : c = '\n' := by simpa [takes, isCommentChar] using (stopsAt_cons _ c cs).mp hs
    -- The comment ends with the carriage return now.
    have hlonger : '\n' ∉ body ++ ['\r'] := by simpa using hbody
    have hstops : (Lexeme.comment (body ++ ['\r'])).StopsAt ('\n' :: addReturns cs) :=
      (stopsAt_cons _ _ _).mpr rfl
    have htext : (Lexeme.comment body).source ++ '\r' :: '\n' :: addReturns cs =
        (Lexeme.comment (body ++ ['\r'])).source ++ '\n' :: addReturns cs := by
      simp [source]
    rw [hc, addReturns_newline, scan_return, htext]
    exact Scanner.scan_comment_append hlonger hstops line

theorem scan_addReturns_source_append {l : Lexeme} (hl : l.Valid) {rest : List Char}
    (hs : l.StopsAt rest) (line : Nat) :
    Scanner.scan ⟨addReturns (l.source ++ rest), line⟩ =
      prepend (tokensWithReturns (tokens line [l]))
        (Scanner.scan ⟨addReturns rest, line + l.newlines⟩) := by
  cases l with
  | opening => exact scan_addReturns_of_source_eq rfl hl rfl hs line rfl
  | closing => exact scan_addReturns_of_source_eq rfl hl rfl hs line rfl
  | word run =>
    have hsource : addReturns (Lexeme.word run).source = (Lexeme.word run).source :=
      addReturns_eq_self (hl.not_mem_word (by decide))
    exact scan_addReturns_of_source_eq hsource.symm hl rfl hs line rfl
  | quoted body =>
    have hsource : (Lexeme.quoted (addReturns body)).source =
        addReturns (Lexeme.quoted body).source := by
      simp [source, addReturns_append, addReturns_cons_of_ne]
      rfl
    have hvalid : (Lexeme.quoted (addReturns body)).Valid :=
      mt (mem_addReturns (by decide) body).mp hl
    have htokens : tokens line [.quoted (addReturns body)] =
        tokensWithReturns (tokens line [.quoted body]) := by
      simp [tokens, numbered, token?, tokensWithReturns, Token.withReturns, Token.quotation,
        withReturns]
    exact scan_addReturns_of_source_eq hsource hvalid rfl (fun _ _ => rfl) line htokens
  | newline =>
    have hstops : Lexeme.newline.StopsAt (addReturns rest) := fun _ _ => rfl
    exact (scan_return _ line).trans (Scanner.scan_source_append hl hstops line)
  | comment body =>
    rw [newlines_comment hl]
    exact (scan_addReturns_comment hl hs line).trans (prepend_nil _).symm
  | blanks run =>
    have hsource : addReturns run = run := addReturns_eq_self (hl.not_mem_blanks (by decide))
    rw [source, addReturns_append, hsource]
    exact Scanner.scan_blanks_source_append hl _ line

/-! ## All pieces -/

namespace Scanner

theorem scan_addReturns (s : Scanner) :
    scan ⟨addReturns s.rest, s.line⟩ = resultWithReturns s.scan := by
  fun_induction scan s with
  | case1 s h hrest =>
    rw [hrest]
    exact scan_nil s.line
  | case2 s h hrest =>
    obtain ⟨c, body, hsplit⟩ := List.exists_cons_of_ne_nil hrest
    have hnone := (next?_eq_none_iff s).mp h
    rw [hsplit] at hnone ⊢
    obtain ⟨rfl, hopen⟩ := eq_quote_of_next?_eq_none hnone
    have hopen' : '"' ∉ addReturns body := mt (mem_addReturns (by decide) body).mp hopen
    rw [addReturns_cons_of_ne (by decide), scan_open_quote _ _ hopen']
    simp [resultWithReturns, ReadError.withReturns, withReturns, addReturns_cons_of_ne]
  | case3 s l u h _ ih =>
    obtain ⟨hnext, hline⟩ := (next?_eq_some_iff s u l).mp h
    obtain ⟨hvalid, hstops⟩ := valid_next? hnext
    rw [resultWithReturns_prepend, ← ih, report_next? h, hline, ← source_next? hnext]
    exact scan_addReturns_source_append hvalid hstops s.line

end Scanner

/-- **Line endings.** With a carriage return in front of every newline a text has the same tokens on
the same lines, but for the carriage returns in its quoted texts; or it has the same error on the
same line, but for the carriage returns in the text that the error names. -/
theorem tokenize_withReturns (source : String) :
    (∀ ts, tokenize source = .ok ts → tokenize (withReturns source) =
      .ok (ts.map fun (t, line) =>
        (if t.quoted then .quotation (withReturns t.text) else t, line))) ∧
    ∀ text line, tokenize source = .error (.unexpectedText text line) →
      tokenize (withReturns source) = .error (.unexpectedText (withReturns text) line) := by
  have hscan : tokenize (withReturns source) = resultWithReturns (tokenize source) := by
    rw [tokenize_eq_scan, tokenize_eq_scan, Scanner.start, withReturns, String.toList_ofList]
    exact Scanner.scan_addReturns (Scanner.start source)
  rw [hscan]
  constructor
  · intro ts h
    rw [h]
    rfl
  · intro text line h
    rw [h]
    rfl

/-- The newlines end a word, a comment and a line, and two of them are quoted. -/
theorem tokenize_withReturns_each_role :
    tokenize "a\n;b\n\n(\"c\nd\"" = .ok [(.bare "a", 1), (.bare "(", 4), (.quotation "c\nd", 4)] ∧
    tokenize "a\r\n;b\r\n\r\n(\"c\r\nd\"" =
      .ok [(.bare "a", 1), (.bare "(", 4), (.quotation "c\r\nd", 4)] ∧
    tokenize "\n\"c\nd" = .error (.unexpectedText "\"c\nd" 2) ∧
    tokenize "\r\n\"c\r\nd" = .error (.unexpectedText "\"c\r\nd" 2) := by
  have hok : tokenize "a\n;b\n\n(\"c\nd\"" =
      .ok [(.bare "a", 1), (.bare "(", 4), (.quotation "c\nd", 4)] := by cbv
  have hquoted : withReturns "c\nd" = "c\r\nd" := by decide
  have htext : withReturns "a\n;b\n\n(\"c\nd\"" = "a\r\n;b\r\n\r\n(\"c\r\nd\"" := by decide
  have hreturns := (tokenize_withReturns _).1 _ hok
  have herror : tokenize "\n\"c\nd" = .error (.unexpectedText "\"c\nd" 2) := by cbv
  have htail : withReturns "\"c\nd" = "\"c\r\nd" := by decide
  have hfailing : withReturns "\n\"c\nd" = "\r\n\"c\r\nd" := by decide
  have herrorReturns := (tokenize_withReturns _).2 _ _ herror
  refine ⟨hok, ?_, herror, ?_⟩
  · simpa [htext, hquoted, Token.quotation, Token.bare] using hreturns
  · rwa [htail, hfailing] at herrorReturns

end AnnotatedAtoms
