import AnnotatedAtoms.Proofs.Lexeme.Zone
import AnnotatedAtoms.Proofs.Reading.Atoms

/-!
# Layout

Comments, parentheses and blanks do nothing but keep the atoms of a text apart, so the text can be
laid out anew: comments are deleted, and parentheses and runs of blanks are replaced by other
blanks, in any number of places. Only newlines have to stay where they are. Then the same atoms are
read on the same lines, or the same error.

* `readAll_eq_scanTexts`: reading depends on nothing but the tokens that are not parentheses;
* `scanTexts_append_congr`: what comes before a change can be read first;
* `Relaid.scanTexts_eq`: one change after the other keeps these tokens;
* `readAll_relaid`: reading does not depend on the layout.
-/

namespace AnnotatedAtoms

open Lexeme Atom

/-- Two texts that begin in the same zone and are the same but for their layout. In plain text a
comment may be left out, a blank may stand for a parenthesis, and one run of blanks for another,
which need not be maximal. All other characters are kept, among them those of the quoted texts and
of the comments that stay, and so everything behind an open quote. -/
inductive Relaid : Zone → List Char → List Char → Prop
  | done (z : Zone) : Relaid z [] []
  | keep {z : Zone} {cs ds : List Char} (c : Char) (more : Relaid (z.next c) cs ds) :
      Relaid z (c :: cs) (c :: ds)
  | comment {body cs ds : List Char} (hbody : '\n' ∉ body) (hend : ∀ c ∈ cs.head?, c = '\n')
      (more : Relaid .plain cs ds) : Relaid .plain (';' :: body ++ cs) ds
  | parenthesis {c b : Char} {cs ds : List Char} (hc : c = '(' ∨ c = ')') (hb : b ∈ blankChars)
      (more : Relaid .plain cs ds) : Relaid .plain (c :: cs) (b :: ds)
  | blanks {run run' cs ds : List Char} (hrun : run ≠ [] ∧ ∀ c ∈ run, c ∈ blankChars)
      (hrun' : run' ≠ [] ∧ ∀ c ∈ run', c ∈ blankChars) (more : Relaid .plain cs ds) :
      Relaid .plain (run ++ cs) (run' ++ ds)

/-! ## The tokens that are not parentheses -/

/-- The tokens but for parentheses of a text that begins on a given line, or its error. -/
def scanTexts (line : Nat) (cs : List Char) : Except ReadError (List (Token × Nat)) :=
  (Scanner.scan ⟨cs, line⟩).map textTokens

theorem readAll_eq_scanTexts (source : String) :
    readAll source = (scanTexts 1 source.toList).bind placeAll := by
  rw [readAll_eq, tokenize_eq_scan, scanTexts, Scanner.start]
  cases Scanner.scan ⟨source.toList, 1⟩ <;> rfl

theorem map_textTokens_prepend (ts : List (Token × Nat))
    (result : Except ReadError (List (Token × Nat))) :
    (prepend ts result).map textTokens = prepend (textTokens ts) (result.map textTokens) := by
  cases result with
  | error e => rfl
  | ok us => exact congrArg Except.ok (List.filter_append ..)

theorem scanTexts_append {p rest : List Char} (h : Divides p rest) (line : Nat) :
    scanTexts line (p ++ rest) =
      prepend (textTokens (tokens line (cut p).1)) (scanTexts (line + p.count '\n') rest) := by
  rw [scanTexts, scan_append h, map_textTokens_prepend, scanTexts]

/-- Behind a division a text may be exchanged for one that is read in the same way. -/
theorem scanTexts_append_congr {p cs ds : List Char} (hcs : Divides p cs) (hds : Divides p ds)
    (h : ∀ line, scanTexts line cs = scanTexts line ds) (line : Nat) :
    scanTexts line (p ++ cs) = scanTexts line (p ++ ds) := by
  rw [scanTexts_append hcs, scanTexts_append hds, h]

/-! ## One change -/

/-- A piece that is neither a newline nor read as an atom makes no difference. -/
theorem scanTexts_source_append {l : Lexeme} (hl : l.Valid) {rest : List Char}
    (hs : l.StopsAt rest) (line : Nat) (hnewlines : l.newlines = 0)
    (htexts : textTokens (tokens line [l]) = []) :
    scanTexts line (l.source ++ rest) = scanTexts line rest := by
  rw [scanTexts, Scanner.scan_source_append hl hs, map_textTokens_prepend, htexts, prepend_nil,
    hnewlines]
  rfl

theorem scanTexts_comment {body cs : List Char} (hbody : '\n' ∉ body)
    (hend : ∀ c ∈ cs.head?, c = '\n') (line : Nat) :
    scanTexts line (';' :: body ++ cs) = scanTexts line cs := by
  have hvalid : (Lexeme.comment body).Valid := hbody
  have hstops : (Lexeme.comment body).StopsAt cs := by
    intro c hc
    rw [hend c hc]
    rfl
  exact scanTexts_source_append hvalid hstops line (newlines_comment hbody) rfl

theorem scanTexts_parenthesis {c : Char} (hc : c = '(' ∨ c = ')') (cs : List Char) (line : Nat) :
    scanTexts line (c :: cs) = scanTexts line cs := by
  rcases hc with rfl | rfl
  · exact scanTexts_source_append (l := .opening) trivial (fun _ _ => rfl) line rfl rfl
  · exact scanTexts_source_append (l := .closing) trivial (fun _ _ => rfl) line rfl rfl

theorem scanTexts_blanks {run : List Char} (hrun : ∀ c ∈ run, c ∈ blankChars) (cs : List Char)
    (line : Nat) : scanTexts line (run ++ cs) = scanTexts line cs := by
  have hblank : ∀ c ∈ run, isBlank c = true := fun c hc => (isBlank_iff c).mpr (hrun c hc)
  rw [scanTexts, Scanner.scan_blanks_append hblank, scanTexts]

theorem divides_blanks {p run : List Char} (hp : zone p = .plain)
    (hrun : run ≠ [] ∧ ∀ c ∈ run, c ∈ blankChars) (cs : List Char) : Divides p (run ++ cs) := by
  obtain ⟨c, run, rfl⟩ := List.exists_cons_of_ne_nil hrun.1
  exact divides_plain hp (List.mem_append_left _ (hrun.2 c (List.mem_cons_self ..))) _

theorem zone_append_blanks {p run : List Char} (hp : zone p = .plain)
    (hrun : run ≠ [] ∧ ∀ c ∈ run, c ∈ blankChars) : zone (p ++ run) = .plain := by
  have hvalid : (Lexeme.blanks run).Valid := hrun
  rw [zone_append, hp]
  exact zone_source hvalid

/-! ## All changes -/

/-- Behind any text that leads to the zone where two texts begin that differ in their layout only,
the same is read from both. -/
theorem Relaid.scanTexts_eq {z : Zone} {cs ds : List Char} (h : Relaid z cs ds) {p : List Char}
    (hp : zone p = z) (line : Nat) : scanTexts line (p ++ cs) = scanTexts line (p ++ ds) := by
  induction h generalizing p with
  | done z => rfl
  | keep c more ih =>
    have hnext : zone (p ++ [c]) = _ := (zone_concat p c).trans (congrArg (Zone.next · c) hp)
    have hrest := ih hnext
    rwa [List.append_assoc, List.append_assoc] at hrest
  | @comment body cs ds hbody hend more ih =>
    have hmark : Divides p (';' :: (body ++ cs)) := divides_plain hp (by decide) _
    have hcs : Divides p cs := ⟨hmark.not_quoted, fun c hc => Or.inl (hend c hc)⟩
    have hchange := scanTexts_append_congr hmark hcs (scanTexts_comment hbody hend) line
    exact hchange.trans (ih hp)
  | @parenthesis c b cs ds hc hb more ih =>
    have hblank : [b] ≠ [] ∧ ∀ x ∈ [b], x ∈ blankChars :=
      ⟨List.cons_ne_nil b [], List.forall_mem_singleton.mpr hb⟩
    have hspecial : c ∈ specialChars := by
      rcases hc with rfl | rfl
      · decide
      · decide
    have hread : ∀ line, scanTexts line (c :: cs) = scanTexts line ([b] ++ cs) := fun line =>
      (scanTexts_parenthesis hc cs line).trans (scanTexts_blanks hblank.2 cs line).symm
    calc
      scanTexts line (p ++ c :: cs) = scanTexts line (p ++ ([b] ++ cs)) :=
        scanTexts_append_congr (divides_plain hp hspecial cs) (divides_blanks hp hblank cs) hread
          line
      _ = scanTexts line (p ++ [b] ++ cs) := by rw [List.append_assoc]
      _ = scanTexts line (p ++ [b] ++ ds) := ih (zone_append_blanks hp hblank)
      _ = scanTexts line (p ++ b :: ds) := by rw [List.append_assoc]; rfl
  | @blanks run run' cs ds hrun hrun' more ih =>
    have hread : ∀ line, scanTexts line (run ++ cs) = scanTexts line (run' ++ cs) := fun line =>
      (scanTexts_blanks hrun.2 cs line).trans (scanTexts_blanks hrun'.2 cs line).symm
    calc
      scanTexts line (p ++ (run ++ cs)) = scanTexts line (p ++ (run' ++ cs)) :=
        scanTexts_append_congr (divides_blanks hp hrun cs) (divides_blanks hp hrun' cs) hread line
      _ = scanTexts line (p ++ run' ++ cs) := by rw [List.append_assoc]
      _ = scanTexts line (p ++ run' ++ ds) := ih (zone_append_blanks hp hrun')
      _ = scanTexts line (p ++ (run' ++ ds)) := by rw [List.append_assoc]

/-- **Layout.** What is read from a text does not depend on its layout: neither the atoms and their
lines nor the error, where there is one. -/
theorem readAll_relaid {source source' : String}
    (h : Relaid .plain source.toList source'.toList) : readAll source' = readAll source := by
  have hstart : zone [] = .plain := rfl
  have htexts := h.scanTexts_eq hstart 1
  rw [List.nil_append, List.nil_append] at htexts
  rw [readAll_eq_scanTexts, readAll_eq_scanTexts, htexts]

/-- The open quote ends the part whose layout may change, and the quote in the comment does not. -/
theorem readAll_relaid_open_quote :
    Relaid .plain "(a;\"c\n  b)\"x(".toList "\ta\n\tb \"x(".toList ∧
    readAll "(a;\"c\n  b)\"x(" = .error (.unexpectedText "\"x(" 2) ∧
    readAll "\ta\n\tb \"x(" = readAll "(a;\"c\n  b)\"x(" := by
  have hrest : Relaid .plain [')', '"', 'x', '('] [' ', '"', 'x', '('] :=
    .parenthesis (.inr rfl) (by decide) (.keep '"' (.keep 'x' (.keep '(' (.done _))))
  have hsecond : Relaid .plain ([' ', ' '] ++ ['b', ')', '"', 'x', '('])
      (['\t'] ++ ['b', ' ', '"', 'x', '(']) :=
    .blanks (by simp [blankChars]) (by simp [blankChars]) (.keep 'b' hrest)
  have hcomment : Relaid .plain (';' :: ['"', 'c'] ++ ['\n', ' ', ' ', 'b', ')', '"', 'x', '('])
      ['\n', '\t', 'b', ' ', '"', 'x', '('] :=
    .comment (by simp) (by simp) (.keep '\n' hsecond)
  have hlayout : Relaid .plain "(a;\"c\n  b)\"x(".toList "\ta\n\tb \"x(".toList :=
    .parenthesis (.inl rfl) (by decide) (.keep 'a' hcomment)
  exact ⟨hlayout, by cbv, readAll_relaid hlayout⟩

end AnnotatedAtoms
