import AnnotatedAtoms.Lexeme.Basic

/-!
# Cutting a source text

A text is cut from the left into pieces that are as long as possible. Every character begins some
piece, except a quote that no later quote answers: there the cutting stops.

* `source_next?`, `source_cut`: the pieces and what is left over make up the text.
-/

namespace AnnotatedAtoms.Lexeme

/-- The first piece, and the text after it. -/
def next? : List Char → Option (Lexeme × List Char)
  | [] => none
  | c :: cs =>
    if c = '(' then some (.opening, cs)
    else if c = ')' then some (.closing, cs)
    else if c = '\n' then some (.newline, cs)
    else if c = ';' then some (.comment (cs.takeWhile isCommentChar), cs.dropWhile isCommentChar)
    else if c = '"' then
      match cs.dropWhile isQuotable with
      | [] => none
      | _ :: rest => some (.quoted (cs.takeWhile isQuotable), rest)
    else if isBlank c then some (.blanks (c :: cs.takeWhile isBlank), cs.dropWhile isBlank)
    else some (.word (c :: cs.takeWhile isWordChar), cs.dropWhile isWordChar)

/-- The run of quotable characters ends at a quote. -/
theorem eq_quote_of_dropWhile {c : Char} {cs rest : List Char}
    (h : cs.dropWhile isQuotable = c :: rest) : c = '"' := by
  have := List.head?_dropWhile_not isQuotable cs
  rw [h] at this
  simpa [isQuotable] using this

theorem source_next? {cs rest : List Char} {l : Lexeme} (h : next? cs = some (l, rest)) :
    l.source ++ rest = cs := by
  unfold next? at h
  split at h
  · exact nomatch h
  · rename_i c cs
    have split (p : Char → Bool) := List.takeWhile_append_dropWhile (p := p) (l := cs)
    have quote (c : Char) (rest : List Char) := @eq_quote_of_dropWhile c cs rest
    grind [source]

theorem source_ne_nil {cs rest : List Char} {l : Lexeme} (h : next? cs = some (l, rest)) :
    l.source ≠ [] := by
  unfold next? at h
  split at h
  · exact nomatch h
  · grind [source]

theorem length_next? {cs rest : List Char} {l : Lexeme} (h : next? cs = some (l, rest)) :
    rest.length < cs.length := by
  have := List.length_pos_iff.2 (source_ne_nil h)
  rw [← source_next? h, List.length_append]
  omega

/-- The pieces of a text, and what is left of it from the quote where the cutting stopped. -/
def cut (cs : List Char) : List Lexeme × List Char :=
  match h : next? cs with
  | none => ([], cs)
  | some (l, rest) =>
    have := length_next? h
    let (ls, remainder) := cut rest
    (l :: ls, remainder)
termination_by cs.length

theorem source_cut (cs : List Char) : (cut cs).1.flatMap source ++ (cut cs).2 = cs := by
  fun_induction cut cs with
  | case1 => rfl
  | case2 cs l rest h _ ls remainder e ih =>
    rw [e] at ih
    simpa [ih] using source_next? h

end AnnotatedAtoms.Lexeme
