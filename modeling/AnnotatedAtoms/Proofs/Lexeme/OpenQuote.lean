import AnnotatedAtoms.Proofs.Lexeme.Zone

/-!
# Open quotes

The one thing that can be wrong with the pieces of a text is a quote that no later quote answers.
Such a quote is told with everything behind it, and one more quote at the end of the text mends it.

* `tokenize_eq_ok_of_zone`: where no quoted text is open at its end, a text has tokens;
* `tokenize_open_quote`: which texts have none, what is told of them, and how they are mended.
-/

namespace AnnotatedAtoms

open Lexeme

theorem scan_eq_ok_of_zone {cs : List Char} (h : zone cs ≠ .quoted) (line : Nat) :
    Scanner.scan ⟨cs, line⟩ = .ok (tokens line (cut cs).1) := by
  have hend : Divides cs [] := ⟨h, fun c hc => nomatch hc⟩
  have hscan := scan_append hend line
  rw [List.append_nil, Scanner.scan_nil] at hscan
  rw [hscan]
  exact congrArg Except.ok (List.append_nil _)

theorem tokenize_eq_ok_of_zone {source : String} (h : zone source.toList ≠ .quoted) :
    tokenize source = .ok (tokens 1 (cut source.toList).1) := by
  rw [tokenize_eq_scan]
  exact scan_eq_ok_of_zone h 1

theorem scan_open_quote {p body : List Char} (hp : zone p = .plain) (hbody : '"' ∉ body)
    (line : Nat) :
    Scanner.scan ⟨p ++ '"' :: body, line⟩ =
      .error (.unexpectedText (String.ofList ('"' :: body)) (line + p.count '\n')) := by
  rw [scan_append (divides_plain hp (by decide) body), Scanner.scan_open_quote body _ hbody]
  rfl

theorem scan_answered_quote {p body : List Char} (hp : zone p = .plain) (hbody : '"' ∉ body)
    (line : Nat) :
    Scanner.scan ⟨p ++ '"' :: (body ++ ['"']), line⟩ =
      .ok (tokens line (cut p).1 ++
        [(.quotation (String.ofList body), line + p.count '\n')]) := by
  have hvalid : (Lexeme.quoted body).Valid := hbody
  have hread := Scanner.scan_source_append hvalid (stopsAt_nil _) (line + p.count '\n')
  rw [List.append_nil, Scanner.scan_nil] at hread
  rw [scan_append (divides_plain hp (by decide) _)]
  exact congrArg (prepend _) hread

theorem zone_ne_quoted_of_tokenize {source : String} {ts : List (Token × Nat)}
    (h : tokenize source = .ok ts) : zone source.toList ≠ .quoted := by
  intro hzone
  obtain ⟨p, body, hsplit, hp, hbody⟩ := exists_open_quote hzone
  rw [tokenize_eq_scan, Scanner.start, hsplit, scan_open_quote hp hbody] at h
  cases h

/-- A quote that lies in neither a comment nor a quoted text, and that no later quote answers. -/
structure OpenQuote (source before body : String) : Prop where
  split : source = before ++ "\"" ++ body
  plain : zone before.toList = .plain
  unanswered : '"' ∉ body.toList

/-- **Open quotes.** A text has no tokens exactly when it has an open quote. Then the text from this
quote on is the error, on the line of the quote. The text before it has tokens, and one more quote
at the end turns the error into one token after these. -/
theorem tokenize_open_quote (source : String) :
    ((∃ e, tokenize source = .error e) ↔ ∃ before body, OpenQuote source before body) ∧
    ∀ before body, OpenQuote source before body →
      tokenize source =
        .error (.unexpectedText ("\"" ++ body) (1 + before.toList.count '\n')) ∧
      ∃ ts, tokenize before = .ok ts ∧
        tokenize (source ++ "\"") =
          .ok (ts ++ [(.quotation body, 1 + before.toList.count '\n')]) := by
  have hopen : ∀ before body, OpenQuote source before body → tokenize source =
      .error (.unexpectedText ("\"" ++ body) (1 + before.toList.count '\n')) := by
    rintro before body ⟨rfl, hplain, hbody⟩
    have htext : (before ++ "\"" ++ body).toList = before.toList ++ '"' :: body.toList := by simp
    have hrest : String.ofList ('"' :: body.toList) = "\"" ++ body := by simp
    rw [tokenize_eq_scan, Scanner.start, htext, scan_open_quote hplain hbody, hrest]
  refine ⟨⟨?_, ?_⟩, ?_⟩
  · rintro ⟨e, he⟩
    have hzone : zone source.toList = .quoted := by
      by_contra hzone
      rw [tokenize_eq_ok_of_zone hzone] at he
      cases he
    obtain ⟨p, body, hsplit, hp, hbody⟩ := exists_open_quote hzone
    refine ⟨String.ofList p, String.ofList body, ?_, by simpa using hp, by simpa using hbody⟩
    simp [String.ext_iff, hsplit]
  · rintro ⟨before, body, h⟩
    exact ⟨_, hopen before body h⟩
  · intro before body h
    refine ⟨hopen before body h, _, tokenize_eq_ok_of_zone ?_, ?_⟩
    · rw [h.plain]
      decide
    · have htext : (source ++ "\"").toList =
          before.toList ++ '"' :: (body.toList ++ ['"']) := by simp [h.split]
      rw [tokenize_eq_scan, Scanner.start, htext, scan_answered_quote h.plain h.unanswered,
        String.ofList_toList]

/-- The quote in the comment opens nothing, and the newlines behind the open quote do not count. -/
theorem tokenize_open_quote_behind_comment :
    OpenQuote "a ;\"\n(\"b\n\nc" "a ;\"\n(" "b\n\nc" ∧
    tokenize "a ;\"\n(\"b\n\nc" = .error (.unexpectedText "\"b\n\nc" 2) ∧
    ∃ ts, tokenize "a ;\"\n(" = .ok ts ∧
      tokenize ("a ;\"\n(\"b\n\nc" ++ "\"") = .ok (ts ++ [(.quotation "b\n\nc", 2)]) := by
  have hopen : OpenQuote "a ;\"\n(\"b\n\nc" "a ;\"\n(" "b\n\nc" :=
    ⟨by decide, by decide, by decide⟩
  exact ⟨hopen, (tokenize_open_quote _).2 _ _ hopen⟩

end AnnotatedAtoms
