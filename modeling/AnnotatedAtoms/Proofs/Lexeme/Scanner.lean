import AnnotatedAtoms.Proofs.Lexeme.Tokenize

/-!
# Reading with a line counter

A text is read piece by piece while a counter keeps the line. Only newlines and quoted texts move
the counter. A quoted text has moved it before its own line is asked for, so the line of a token is
what the counter shows less the newlines of the token.

* `next?_eq_some_iff`: what one piece does to the text that is left and to the counter;
* `tokenize_eq_scan`: reading in this way gives the tokens of the text, or the same error;
* `scan_source_append`: a first piece is taken off, and the rest is read by itself.
-/

namespace AnnotatedAtoms

/-! ## What pieces give -/

namespace Lexeme

/-- The counter behind a piece. A comment ends before its newline, and no run of blanks or of word
characters holds one. -/
def countFrom (line : Nat) : Lexeme → Nat
  | .newline => line + 1
  | .quoted body => line + (Lexeme.quoted body).newlines
  | .opening | .closing | .blanks _ | .comment _ | .word _ => line

theorem newlines_comment {body : List Char} (h : '\n' ∉ body) : (comment body).newlines = 0 :=
  List.count_eq_zero.mpr (List.not_mem_cons_of_ne_of_not_mem (by decide) h)

theorem newlines_blanks {run : List Char} (h : (blanks run).Valid) : (blanks run).newlines = 0 :=
  List.count_eq_zero.mpr (h.not_mem_blanks (by decide))

theorem newlines_word {run : List Char} (h : (word run).Valid) : (word run).newlines = 0 :=
  List.count_eq_zero.mpr (h.not_mem_word (by decide))

theorem countFrom_eq {l : Lexeme} (hl : l.Valid) (line : Nat) :
    l.countFrom line = line + l.newlines := by
  cases l with
  | opening => rfl
  | closing => rfl
  | newline => rfl
  | quoted body => rfl
  | comment body =>
    rw [newlines_comment hl]
    rfl
  | blanks run =>
    rw [newlines_blanks hl]
    rfl
  | word run =>
    rw [newlines_word hl]
    rfl

theorem lineAfter_eq (line : Nat) (ls : List Lexeme) :
    lineAfter line ls = line + (ls.flatMap source).count '\n' := by
  induction ls generalizing line with
  | nil => rfl
  | cons l ls ih =>
    have hstep : lineAfter line (l :: ls) = lineAfter (line + l.newlines) ls := rfl
    rw [hstep, ih, List.flatMap_cons, List.count_append, newlines, Nat.add_assoc]

/-- Some tokens in front of what is read after them. -/
def prepend (ts : List (Token × Nat)) (result : Except ReadError (List (Token × Nat))) :
    Except ReadError (List (Token × Nat)) := result.map (ts ++ ·)

theorem prepend_nil (result : Except ReadError (List (Token × Nat))) :
    prepend [] result = result := congrFun Except.map_id result

theorem prepend_prepend (ts us : List (Token × Nat))
    (result : Except ReadError (List (Token × Nat))) :
    prepend ts (prepend us result) = prepend (ts ++ us) result := by
  cases result with
  | error e => rfl
  | ok vs => exact congrArg Except.ok (List.append_assoc ts us vs).symm

theorem tokens_cons_eq_append (line : Nat) (l : Lexeme) (ls : List Lexeme) :
    tokens line (l :: ls) = tokens line [l] ++ tokens (line + l.newlines) ls := by
  rw [tokens_cons, tokens_cons line l [], List.append_assoc]
  rfl

/-- What some pieces of a text give when the first one begins on a given line and a remainder that
begins no piece is left over. -/
def outcome (line : Nat) (ls : List Lexeme) (remainder : List Char) :
    Except ReadError (List (Token × Nat)) :=
  if remainder = [] then .ok (tokens line ls)
  else .error (.unexpectedText (String.ofList remainder) (lineAfter line ls))

theorem outcome_cons (line : Nat) (l : Lexeme) (ls : List Lexeme) (remainder : List Char) :
    outcome line (l :: ls) remainder =
      prepend (tokens line [l]) (outcome (line + l.newlines) ls remainder) := by
  unfold outcome
  split_ifs
  · rw [tokens_cons_eq_append]
    rfl
  · rfl

end Lexeme

open Lexeme

theorem tokenize_eq_outcome (source : String) :
    tokenize source = outcome 1 (cut source.toList).1 (cut source.toList).2 := by
  unfold tokenize outcome
  split
  · rename_i ls h
    rw [h, if_pos rfl]
  · rename_i ls rest hne h
    rw [h, if_neg]
    exact hne

/-! ## The reader -/

/-- A text in the course of being read: what is left of it, and the counter. -/
structure Scanner where
  rest : List Char
  line : Nat

namespace Scanner

def start (source : String) : Scanner := ⟨source.toList, 1⟩

/-- Reads one piece. -/
def next? (s : Scanner) : Option (Lexeme × Scanner) :=
  (Lexeme.next? s.rest).map fun (l, rest) => (l, ⟨rest, l.countFrom s.line⟩)

theorem next?_eq_some_iff (s u : Scanner) (l : Lexeme) :
    s.next? = some (l, u) ↔
      Lexeme.next? s.rest = some (l, u.rest) ∧ u.line = s.line + l.newlines := by
  constructor
  · intro h
    obtain ⟨⟨m, rest⟩, hnext, heq⟩ := Option.map_eq_some_iff.mp h
    cases heq
    exact ⟨hnext, countFrom_eq (valid_next? hnext).1 s.line⟩
  · obtain ⟨rest, line⟩ := u
    rintro ⟨hnext, hline⟩
    rw [← countFrom_eq (valid_next? hnext).1] at hline
    cases hline
    rw [next?, hnext]
    rfl

theorem next?_eq_none_iff (s : Scanner) : s.next? = none ↔ Lexeme.next? s.rest = none :=
  Option.map_eq_none_iff

theorem length_rest_next? {s u : Scanner} {l : Lexeme} (h : s.next? = some (l, u)) :
    u.rest.length < s.rest.length :=
  length_next? ((next?_eq_some_iff s u l).mp h).1

/-- The token of the piece that was read last, if it is one, by the counter behind the piece. -/
def report (u : Scanner) (l : Lexeme) : List (Token × Nat) :=
  (l.token?.map fun t => (t, u.line - l.newlines)).toList

/-- Reads all pieces. Where none begins, what is left is an error on the line of the counter. -/
def scan (s : Scanner) : Except ReadError (List (Token × Nat)) :=
  match h : s.next? with
  | none =>
    if s.rest = [] then .ok []
    else .error (.unexpectedText (String.ofList s.rest) s.line)
  | some (l, u) =>
    have := length_rest_next? h
    prepend (u.report l) u.scan
termination_by s.rest.length

/-- The newlines that a piece was counted for are taken off again. -/
theorem report_next? {s u : Scanner} {l : Lexeme} (h : s.next? = some (l, u)) :
    u.report l = tokens s.line [l] := by
  have hline := ((next?_eq_some_iff s u l).mp h).2
  rw [report, hline, Nat.add_sub_cancel, tokens_cons]
  exact (List.append_nil _).symm

/-- Reading piece by piece comes to the same as cutting all pieces first. -/
theorem scan_eq_outcome (s : Scanner) :
    s.scan = outcome s.line (cut s.rest).1 (cut s.rest).2 := by
  fun_induction scan s with
  | case1 s h hrest =>
    rw [hrest, cut_nil]
    rfl
  | case2 s h hrest =>
    rw [cut_of_next?_eq_none s.rest ((next?_eq_none_iff s).mp h), outcome, if_neg hrest]
    rfl
  | case3 s l u h _ ih =>
    obtain ⟨hnext, hline⟩ := (next?_eq_some_iff s u l).mp h
    rw [ih, report_next? h, cut_of_next? hnext, outcome_cons, ← hline]

theorem scan_eq_ok_iff (s : Scanner) (ts : List (Token × Nat)) :
    s.scan = .ok ts ↔ (cut s.rest).2 = [] ∧ ts = tokens s.line (cut s.rest).1 := by
  rw [scan_eq_outcome, outcome]
  split_ifs with hrest
  · simp [hrest, eq_comm]
  · simp [hrest]

/-! ## The first piece of a text -/

theorem scan_nil (line : Nat) : scan ⟨[], line⟩ = .ok [] := by
  rw [scan_eq_outcome, cut_nil]
  rfl

/-- A quote that no later one answers is an error, whatever follows it. -/
theorem scan_open_quote (body : List Char) (line : Nat) (h : '"' ∉ body) :
    scan ⟨'"' :: body, line⟩ = .error (.unexpectedText (String.ofList ('"' :: body)) line) := by
  rw [scan_eq_outcome, cut_of_next?_eq_none _ (next?_open_quote body h)]
  rfl

/-- A piece that stops is read first. -/
theorem scan_source_append {l : Lexeme} (hl : l.Valid) {rest : List Char} (hs : l.StopsAt rest)
    (line : Nat) :
    scan ⟨l.source ++ rest, line⟩ =
      prepend (tokens line [l]) (scan ⟨rest, line + l.newlines⟩) := by
  rw [scan_eq_outcome, scan_eq_outcome, cut_source_append l rest hl hs, outcome_cons]

/-- A comment makes no difference to what is read after it. -/
theorem scan_comment_append {body rest : List Char} (hbody : '\n' ∉ body)
    (hs : (Lexeme.comment body).StopsAt rest) (line : Nat) :
    scan ⟨(Lexeme.comment body).source ++ rest, line⟩ = scan ⟨rest, line⟩ := by
  have hvalid : (Lexeme.comment body).Valid := hbody
  have hread := scan_source_append hvalid hs line
  rw [newlines_comment hbody] at hread
  exact hread.trans (prepend_nil _)

theorem scan_dropWhile_isBlank (cs : List Char) (line : Nat) :
    scan ⟨cs, line⟩ = scan ⟨cs.dropWhile isBlank, line⟩ := by
  cases cs with
  | nil => rfl
  | cons c cs =>
    cases hc : isBlank c with
    | false => rw [List.dropWhile_cons_of_neg (by simp [hc])]
    | true =>
      have hnext := next?_blank c cs hc
      obtain ⟨hvalid, hstops⟩ := valid_next? hnext
      have hnewlines := countFrom_eq hvalid line
      have hread := scan_source_append hvalid hstops line
      rw [source_next? hnext, ← hnewlines] at hread
      rw [hread, List.dropWhile_cons_of_pos hc]
      exact prepend_nil _

/-- Blanks make no difference to what is read after them. -/
theorem scan_blanks_append {run : List Char} (h : ∀ c ∈ run, isBlank c = true) (cs : List Char)
    (line : Nat) : scan ⟨run ++ cs, line⟩ = scan ⟨cs, line⟩ := by
  rw [scan_dropWhile_isBlank, List.dropWhile_append_of_pos h, ← scan_dropWhile_isBlank]

/-- Blanks may go on in the text after them. -/
theorem scan_blanks_source_append {run : List Char} (hl : (Lexeme.blanks run).Valid)
    (rest : List Char) (line : Nat) :
    scan ⟨(Lexeme.blanks run).source ++ rest, line⟩ =
      prepend (tokens line [.blanks run])
        (scan ⟨rest, line + (Lexeme.blanks run).newlines⟩) := by
  have hrun : ∀ c ∈ run, isBlank c = true := fun c hc => (isBlank_iff c).mpr (hl.2 c hc)
  rw [newlines_blanks hl]
  exact (scan_blanks_append hrun rest line).trans (prepend_nil _).symm

end Scanner

theorem tokenize_eq_scan (source : String) : tokenize source = (Scanner.start source).scan := by
  rw [tokenize_eq_outcome, Scanner.scan_eq_outcome]
  rfl

end AnnotatedAtoms
