import AnnotatedAtoms.Proofs.Lexeme.OpenQuote

/-!
# Lines

The line of a token is one more than the number of newlines in front of it. What the counter shows
is one more than the number of newlines that have been read, so nothing is ever taken from it that
it has not counted. A text that follows a newline has its tokens to itself, on later lines.

* `Run.rest_and_line`: what any number of pieces does to the text that is left and to the counter;
* `getElem?_tokens`: the tokens among some pieces, by number;
* `tokenize_lines`: the lines of tokens, and the counter in every run;
* `tokenize_append_newline`: the tokens of two texts with a newline between them.
-/

namespace AnnotatedAtoms

open Lexeme

/-! ## The counter -/

namespace Scanner

/-- Some pieces are read one after the other. -/
inductive Run : Scanner → List Lexeme → Scanner → Prop
  | stop (s : Scanner) : Run s [] s
  | read {s t u : Scanner} {l : Lexeme} {ls : List Lexeme} (first : s.next? = some (l, t))
      (more : Run t ls u) : Run s (l :: ls) u

/-- One piece is read: its newlines are counted. -/
theorem rest_and_line_of_next? {s u : Scanner} {l : Lexeme} (h : s.next? = some (l, u)) :
    l.source ++ u.rest = s.rest ∧ u.line = s.line + l.source.count '\n' := by
  obtain ⟨hnext, hline⟩ := (next?_eq_some_iff s u l).mp h
  exact ⟨source_next? hnext, hline⟩

theorem Run.rest_and_line {s u : Scanner} {ls : List Lexeme} (h : Run s ls u) :
    ls.flatMap Lexeme.source ++ u.rest = s.rest ∧
      u.line = s.line + (ls.flatMap Lexeme.source).count '\n' := by
  induction h with
  | stop s => exact ⟨rfl, rfl⟩
  | read first _ ih =>
    obtain ⟨hrest, hline⟩ := rest_and_line_of_next? first
    obtain ⟨ihrest, ihline⟩ := ih
    constructor
    · rw [List.flatMap_cons, List.append_assoc, ihrest, hrest]
    · rw [ihline, hline, List.flatMap_cons, List.count_append, Nat.add_assoc]

end Scanner

/-! ## The lines of tokens -/

namespace Lexeme

theorem tokens_append (line : Nat) (ls ms : List Lexeme) :
    tokens line (ls ++ ms) = tokens line ls ++ tokens (lineAfter line ls) ms := by
  rw [tokens, numbered_append, List.filterMap_append]
  rfl

theorem length_tokens (line : Nat) (ls : List Lexeme) :
    (tokens line ls).length = (ls.filterMap token?).length := by
  rw [← map_fst_tokens line, List.length_map]

/-- A token is found at the place of its piece among the pieces that are tokens. -/
theorem getElem?_tokens (line i n : Nat) (ls : List Lexeme) (t : Token) :
    (tokens line ls)[i]? = some (t, n) ↔ ∃ before l behind, ls = before ++ l :: behind ∧
      (before.filterMap token?).length = i ∧ l.token? = some t ∧
      n = line + (before.flatMap source).count '\n' := by
  constructor
  · intro h
    induction ls generalizing line i with
    | nil => cases h
    | cons l ls ih =>
      have hcount (before : List Lexeme) : line + l.newlines + (before.flatMap source).count '\n' =
          line + ((l :: before).flatMap source).count '\n' := by
        rw [List.flatMap_cons, List.count_append, newlines, Nat.add_assoc]
      rw [tokens_cons] at h
      cases htoken : l.token? with
      | none =>
        rw [htoken] at h
        obtain ⟨before, m, behind, rfl, hi, hm, hn⟩ := ih _ _ h
        refine ⟨l :: before, m, behind, rfl, ?_, hm, hn.trans (hcount before)⟩
        rw [List.filterMap_cons_none htoken, hi]
      | some t' =>
        rw [htoken] at h
        cases i with
        | zero =>
          cases h
          exact ⟨[], l, ls, rfl, rfl, htoken, rfl⟩
        | succ i =>
          obtain ⟨before, m, behind, rfl, hi, hm, hn⟩ := ih _ _ h
          refine ⟨l :: before, m, behind, rfl, ?_, hm, hn.trans (hcount before)⟩
          rw [List.filterMap_cons_some htoken, List.length_cons, hi]
  · rintro ⟨before, l, behind, rfl, rfl, htoken, rfl⟩
    rw [tokens_append, ← length_tokens line, List.getElem?_append_right (Nat.le_refl _),
      Nat.sub_self, tokens_cons, htoken, lineAfter_eq]
    rfl

theorem le_of_mem_tokens {line : Nat} {ls : List Lexeme} {p : Token × Nat}
    (h : p ∈ tokens line ls) : line ≤ p.2 := by
  obtain ⟨i, hi⟩ := List.getElem?_of_mem h
  obtain ⟨before, l, behind, -, -, -, hline⟩ := (getElem?_tokens line i p.2 ls p.1).mp hi
  omega

theorem pairwise_tokens (line : Nat) (ls : List Lexeme) :
    ((tokens line ls).map Prod.snd).Pairwise (· ≤ ·) := by
  induction ls generalizing line with
  | nil => exact List.Pairwise.nil
  | cons l ls ih =>
    rw [tokens_cons, List.map_append, List.pairwise_append]
    refine ⟨?_, ih _, ?_⟩
    · cases l.token? with
      | none => exact List.Pairwise.nil
      | some t => exact List.pairwise_singleton ..
    · intro m hm n hn
      obtain ⟨p, hp, rfl⟩ := List.mem_map.mp hn
      have hle := le_of_mem_tokens hp
      have hline : m = line := by
        cases htoken : l.token? with
        | none =>
          rw [htoken] at hm
          cases hm
        | some t =>
          rw [htoken] at hm
          exact List.mem_singleton.mp hm
      omega

end Lexeme

/-- **Lines.** The line of a token is one more than the number of newlines in the pieces in front of
its own, so lines never decrease. In every run of the reader, whether it ends with an error or not,
the counter shows one more than the number of newlines read so far, and a piece never has as many
newlines as the counter shows behind it. -/
theorem tokenize_lines (source : String) :
    (∀ ts, tokenize source = .ok ts →
      (∃ ls, Cuts source.toList ls [] ∧ ∀ i t line, ts[i]? = some (t, line) ↔
        ∃ before l behind, ls = before ++ l :: behind ∧ (before.filterMap token?).length = i ∧
          l.token? = some t ∧ line = 1 + (before.flatMap Lexeme.source).count '\n') ∧
      (ts.map Prod.snd).Pairwise (· ≤ ·)) ∧
    tokenize source = (Scanner.start source).scan ∧
    ∀ ls s, Scanner.Run (Scanner.start source) ls s →
      ls.flatMap Lexeme.source ++ s.rest = source.toList ∧
      s.line = 1 + (ls.flatMap Lexeme.source).count '\n' ∧
      ∀ l u, s.next? = some (l, u) → l.newlines < u.line := by
  refine ⟨?_, tokenize_eq_scan source, ?_⟩
  · intro ts h
    obtain ⟨hrest, rfl⟩ := (tokenize_eq_ok_iff source ts).mp h
    have hcuts := (cut_eq_iff source.toList _ _).mp rfl
    rw [hrest] at hcuts
    exact ⟨⟨_, hcuts, fun i t line => getElem?_tokens 1 i line _ t⟩, pairwise_tokens 1 _⟩
  · intro ls s h
    obtain ⟨hrest, hline⟩ := h.rest_and_line
    refine ⟨hrest, hline, ?_⟩
    intro l u hnext
    have hcount := (Scanner.rest_and_line_of_next? hnext).2
    have hpos : 1 ≤ s.line := by
      rw [hline]
      exact Nat.le_add_right ..
    rw [hcount, newlines]
    omega

/-- The quoted text is on the line of its first quote, and the counter comes back to that line after
it has gone on to the next one. -/
theorem tokenize_lines_quoted :
    tokenize "a\n\"b\nc\" d" = .ok [(.bare "a", 1), (.quotation "b\nc", 2), (.bare "d", 3)] ∧
    (∃ before l behind, Cuts "a\n\"b\nc\" d".toList (before ++ l :: behind) [] ∧
      (before.filterMap token?).length = 1 ∧ l.token? = some (.quotation "b\nc") ∧
      2 = 1 + (before.flatMap Lexeme.source).count '\n') ∧
    [1, 2, 3].Pairwise (· ≤ ·) ∧
    ∃ s u, Scanner.Run (Scanner.start "a\n\"b\nc\" d") [.word ['a'], .newline] s ∧
      s.line = 2 ∧ s.next? = some (.quoted ['b', '\n', 'c'], u) ∧ 1 < u.line := by
  have htokens : tokenize "a\n\"b\nc\" d" =
      .ok [(.bare "a", 1), (.quotation "b\nc", 2), (.bare "d", 3)] := by cbv
  have hrun : Scanner.Run (Scanner.start "a\n\"b\nc\" d") [.word ['a'], .newline]
      ⟨"\"b\nc\" d".toList, 2⟩ := .read (by rfl) (.read (by rfl) (.stop _))
  obtain ⟨hlines, -, hcounter⟩ := tokenize_lines "a\n\"b\nc\" d"
  obtain ⟨⟨ls, hcuts, hplaces⟩, hsorted⟩ := hlines _ htokens
  obtain ⟨before, l, behind, rfl, hbefore, hl, hline⟩ := (hplaces 1 (.quotation "b\nc") 2).mp rfl
  obtain ⟨-, hread, hback⟩ := hcounter _ _ hrun
  exact ⟨htokens, ⟨before, l, behind, hcuts, hbefore, hl, hline⟩, hsorted, _, _, hrun, hread, rfl,
    hback _ _ rfl⟩

/-! ## Two texts and a newline between them -/

namespace Lexeme

theorem tokens_add (line k : Nat) (ls : List Lexeme) :
    tokens (line + k) ls = (tokens line ls).map fun p => (p.1, p.2 + k) := by
  induction ls generalizing line with
  | nil => rfl
  | cons l ls ih =>
    have hline : line + k + l.newlines = line + l.newlines + k := by omega
    rw [tokens_cons, tokens_cons, hline, ih, List.map_append]
    cases l.token? <;> rfl

end Lexeme

namespace Scanner

/-- A text that begins on a later line has its tokens on later lines. -/
theorem scan_add_of_ok {cs : List Char} {line : Nat} {ts : List (Token × Nat)}
    (h : scan ⟨cs, line⟩ = .ok ts) (k : Nat) :
    scan ⟨cs, line + k⟩ = .ok (ts.map fun p => (p.1, p.2 + k)) := by
  obtain ⟨hrest, rfl⟩ := (scan_eq_ok_iff _ _).mp h
  exact (scan_eq_ok_iff _ _).mpr ⟨hrest, (tokens_add ..).symm⟩

theorem scan_add_of_error {cs : List Char} {line n : Nat} {text : String}
    (h : scan ⟨cs, line⟩ = .error (.unexpectedText text n)) (k : Nat) :
    scan ⟨cs, line + k⟩ = .error (.unexpectedText text (n + k)) := by
  rw [scan_eq_outcome, outcome, lineAfter_eq] at h ⊢
  split_ifs at h ⊢ with hrest
  cases h
  rw [Nat.add_right_comm]

theorem scan_newline (cs : List Char) (line : Nat) :
    scan ⟨'\n' :: cs, line⟩ = scan ⟨cs, line + 1⟩ := by
  have hvalid : Lexeme.newline.Valid := trivial
  have hstops : Lexeme.newline.StopsAt cs := fun _ _ => rfl
  exact (scan_source_append hvalid hstops line).trans (prepend_nil _)

end Scanner

/-- **Two texts and a newline between them.** Behind a text that has tokens and a newline, the tokens
of any text are what they are without that, or it has the same error, but as many lines later as
the first text and the newline take. -/
theorem tokenize_append_newline {a : String} {ts : List (Token × Nat)} (h : tokenize a = .ok ts)
    (b : String) :
    (∀ us, tokenize b = .ok us → tokenize (a ++ "\n" ++ b) =
      .ok (ts ++ us.map fun p => (p.1, p.2 + (1 + a.toList.count '\n')))) ∧
    ∀ text line, tokenize b = .error (.unexpectedText text line) → tokenize (a ++ "\n" ++ b) =
      .error (.unexpectedText text (line + (1 + a.toList.count '\n'))) := by
  have hdivides : Divides a.toList ('\n' :: b.toList) := by
    refine ⟨zone_ne_quoted_of_tokenize h, ?_⟩
    intro c hc
    cases hc
    exact Or.inl rfl
  have htext : (a ++ "\n" ++ b).toList = a.toList ++ '\n' :: b.toList := by simp
  have hline : 1 + a.toList.count '\n' + 1 = 1 + (1 + a.toList.count '\n') := by omega
  have hparts : tokenize (a ++ "\n" ++ b) =
      prepend ts (Scanner.scan ⟨b.toList, 1 + (1 + a.toList.count '\n')⟩) := by
    rw [tokenize_eq_scan, Scanner.start, htext, scan_append hdivides, Scanner.scan_newline, hline,
      ((tokenize_eq_ok_iff a ts).mp h).2]
  rw [hparts]
  constructor
  · intro us hus
    rw [tokenize_eq_scan] at hus
    rw [Scanner.scan_add_of_ok hus]
    rfl
  · intro text line herror
    rw [tokenize_eq_scan] at herror
    rw [Scanner.scan_add_of_error herror]
    rfl

/-- The quoted text in front takes two lines, and the quote in the comment opens nothing. -/
theorem tokenize_append_newline_behind_comment :
    tokenize "\"x\ny\" z;\"" = .ok [(.quotation "x\ny", 1), (.bare "z", 2)] ∧
    tokenize "(\n\"open" = .error (.unexpectedText "\"open" 2) ∧
    tokenize ("\"x\ny\" z;\"" ++ "\n" ++ "(\n\"open") = .error (.unexpectedText "\"open" 4) := by
  have hfirst : tokenize "\"x\ny\" z;\"" = .ok [(.quotation "x\ny", 1), (.bare "z", 2)] := by cbv
  have hsecond : tokenize "(\n\"open" = .error (.unexpectedText "\"open" 2) := by cbv
  exact ⟨hfirst, hsecond, (tokenize_append_newline hfirst "(\n\"open").2 "\"open" 2 hsecond⟩

end AnnotatedAtoms
