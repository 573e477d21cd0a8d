import AnnotatedAtoms.Proofs.Lexeme.Scanner
import Mathlib.Data.List.Induction

/-!
# Comments, quoted texts and the rest

Whether a place in a text lies in a comment, in a quoted text or in neither is told here by walking
there character by character, without cutting the text into pieces.

* `zone_source`, `zone_source_append`: a piece leads through the zones;
* `exists_open_quote`: a text that ends in a quoted text has a quote that no later one answers;
* `scan_append`: where a text can be divided, its parts are read one after the other.
-/

namespace AnnotatedAtoms

/-- Where a place in a text lies. In front of the mark that begins a comment or a quoted text, the
text is still plain. -/
inductive Zone where
  | plain
  | comment
  | quoted
  deriving DecidableEq

namespace Zone

def next : Zone → Char → Zone
  | .plain, c => if c = ';' then .comment else if c = '"' then .quoted else .plain
  | .comment, c => if c = '\n' then .plain else .comment
  | .quoted, c => if c = '"' then .plain else .quoted

/-- The zone behind a text that begins in a given zone. -/
def after (z : Zone) (cs : List Char) : Zone := cs.foldl next z

theorem after_append (z : Zone) (cs ds : List Char) :
    z.after (cs ++ ds) = (z.after cs).after ds := List.foldl_append

theorem after_eq_self {z : Zone} {cs : List Char} (h : ∀ c ∈ cs, z.next c = z) :
    z.after cs = z := by
  induction cs with
  | nil => rfl
  | cons c cs ih =>
    have hstep : z.after (c :: cs) = (z.next c).after cs := rfl
    rw [hstep, h c (List.mem_cons_self ..)]
    exact ih fun x hx => h x (List.mem_cons_of_mem c hx)

theorem after_plain {cs : List Char} (hs : ';' ∉ cs) (hq : '"' ∉ cs) : plain.after cs = plain := by
  apply after_eq_self
  intro c hc
  rw [next, if_neg (ne_of_mem_of_not_mem hc hs), if_neg (ne_of_mem_of_not_mem hc hq)]

theorem after_comment {cs : List Char} (h : '\n' ∉ cs) : comment.after cs = comment :=
  after_eq_self fun _ hc => if_neg (ne_of_mem_of_not_mem hc h)

theorem after_quoted {cs : List Char} (h : '"' ∉ cs) : quoted.after cs = quoted :=
  after_eq_self fun _ hc => if_neg (ne_of_mem_of_not_mem hc h)

end Zone

/-- The zone at the end of a text. -/
def zone (cs : List Char) : Zone := Zone.plain.after cs

theorem zone_append (cs ds : List Char) : zone (cs ++ ds) = (zone cs).after ds :=
  Zone.after_append ..

theorem zone_concat (cs : List Char) (c : Char) : zone (cs ++ [c]) = (zone cs).next c :=
  zone_append cs [c]

namespace Lexeme

/-- Only a comment goes on until its end is seen. -/
def endZone : Lexeme → Zone
  | .comment _ => .comment
  | .opening | .closing | .newline | .blanks _ | .quoted _ | .word _ => .plain

theorem zone_source {l : Lexeme} (hl : l.Valid) : zone l.source = l.endZone := by
  cases l with
  | opening => rfl
  | closing => rfl
  | newline => rfl
  | comment body => exact Zone.after_comment hl
  | quoted body =>
    have hclosed : zone (Lexeme.quoted body).source = (Zone.quoted.after body).after ['"'] :=
      Zone.after_append ..
    rw [hclosed, Zone.after_quoted hl]
    rfl
  | blanks run =>
    exact Zone.after_plain (hl.not_mem_blanks (by decide)) (hl.not_mem_blanks (by decide))
  | word run =>
    exact Zone.after_plain (hl.not_mem_word (by decide)) (hl.not_mem_word (by decide))

/-- A piece that stops leaves no trace in the zone behind the text after it. -/
theorem zone_source_append {l : Lexeme} (hl : l.Valid) {rest : List Char} (hs : l.StopsAt rest)
    (hne : rest ≠ []) : zone (l.source ++ rest) = zone rest := by
  rw [zone_append, zone_source hl]
  cases l with
  | comment body =>
    obtain ⟨c, cs, rfl⟩ := List.exists_cons_of_ne_nil hne
    have hc : c = '\n' := by simpa [takes, isCommentChar] using (stopsAt_cons _ c cs).mp hs
    rw [hc]
    rfl
  | opening => rfl
  | closing => rfl
  | newline => rfl
  | blanks run => rfl
  | quoted body => rfl
  | word run => rfl

/-- Where the cutting stops before the end, a quote is left that no later one answers. -/
theorem eq_quote_of_next?_eq_none {c : Char} {cs : List Char} (h : next? (c :: cs) = none) :
    c = '"' ∧ '"' ∉ cs := by
  rw [next?] at h
  split_ifs at h with ho hc hn hs hq hb
  split at h
  · rename_i hrest
    exact ⟨hq, (all_isQuotable_iff cs).mp (List.dropWhile_eq_nil_iff.mp hrest)⟩
  · cases h

end Lexeme

open Lexeme

/-! ## Open quotes -/

theorem zone_open_quote {p body : List Char} (hp : zone p = .plain) (hbody : '"' ∉ body) :
    zone (p ++ '"' :: body) = .quoted := by
  rw [zone_append, hp]
  exact Zone.after_quoted hbody

/-- A text that ends in a quoted text has a quote, outside of comments and quoted texts, that no
later one answers. -/
theorem exists_open_quote {cs : List Char} (h : zone cs = .quoted) :
    ∃ p body, cs = p ++ '"' :: body ∧ zone p = .plain ∧ '"' ∉ body := by
  induction cs using List.reverseRecOn with
  | nil => cases h
  | append_singleton cs c ih =>
    rw [zone_concat] at h
    cases hz : zone cs with
    | plain =>
      have hc : c = '"' := by
        rw [hz, Zone.next] at h
        split_ifs at h with hs hq
        exact hq
      rw [hc]
      exact ⟨cs, [], rfl, hz, List.not_mem_nil⟩
    | comment =>
      rw [hz, Zone.next] at h
      split_ifs at h
    | quoted =>
      have hc : c ≠ '"' := by
        rintro rfl
        rw [hz] at h
        cases h
      obtain ⟨p, body, rfl, hp, hbody⟩ := ih hz
      refine ⟨p, body ++ [c], by rw [List.append_assoc]; rfl, hp, ?_⟩
      simpa [hbody] using hc.symm

/-! ## Dividing a text -/

/-- A text can be divided in front of a newline that is not quoted, and in plain text also in front
of any other character that no word holds. Then only blanks may go on behind the division. -/
structure Divides (p rest : List Char) : Prop where
  not_quoted : zone p ≠ .quoted
  boundary : ∀ c ∈ rest.head?, c = '\n' ∨ zone p = .plain ∧ c ∈ specialChars

theorem divides_plain {p : List Char} (hp : zone p = .plain) {c : Char} (hc : c ∈ specialChars)
    (cs : List Char) : Divides p (c :: cs) := by
  constructor
  · rw [hp]
    decide
  · intro d hd
    cases hd
    exact Or.inr ⟨hp, hc⟩

/-- At a division the first part may end with any piece. -/
theorem scan_source_of_divides {l : Lexeme} (hl : l.Valid) {rest : List Char}
    (h : Divides l.source rest) (line : Nat) :
    Scanner.scan ⟨l.source ++ rest, line⟩ =
      prepend (tokens line [l]) (Scanner.scan ⟨rest, line + l.newlines⟩) := by
  have hboundary := h.boundary
  rw [zone_source hl] at hboundary
  cases l with
  | opening => exact Scanner.scan_source_append hl (fun _ _ => rfl) line
  | closing => exact Scanner.scan_source_append hl (fun _ _ => rfl) line
  | newline => exact Scanner.scan_source_append hl (fun _ _ => rfl) line
  | quoted body => exact Scanner.scan_source_append hl (fun _ _ => rfl) line
  | word run =>
    apply Scanner.scan_source_append hl
    intro c hc
    have hspecial : c ∈ specialChars := by
      rcases hboundary c hc with rfl | ⟨-, hspecial⟩
      · decide
      · exact hspecial
    rw [takes, Bool.eq_false_iff, ne_eq, isWordChar_iff]
    exact not_not_intro hspecial
  | comment body =>
    apply Scanner.scan_source_append hl
    intro c hc
    rcases hboundary c hc with rfl | ⟨hzone, -⟩
    · rfl
    · cases hzone
  | blanks run => exact Scanner.scan_blanks_source_append hl rest line

/-- **Division.** What is read behind a division depends on nothing in front of it but the line. -/
theorem scan_append {p rest : List Char} (h : Divides p rest) (line : Nat) :
    Scanner.scan ⟨p ++ rest, line⟩ =
      prepend (tokens line (cut p).1) (Scanner.scan ⟨rest, line + p.count '\n'⟩) := by
  -- Piece by piece through the first part; only the last piece of it meets the division.
  fun_induction cut p generalizing line with
  | case1 p hnone =>
    cases p with
    | nil => exact (prepend_nil _).symm
    | cons c cs =>
      obtain ⟨rfl, hopen⟩ := eq_quote_of_next?_eq_none hnone
      exact absurd (zone_open_quote (p := []) rfl hopen) h.not_quoted
  | case2 p l tail hnext _ ls remainder e ih =>
    obtain ⟨hl, hstops⟩ := valid_next? hnext
    have hsplit := source_next? hnext
    subst hsplit
    rw [e] at ih
    rw [tokens_cons_eq_append, ← prepend_prepend]
    cases tail with
    | nil =>
      rw [cut_nil] at e
      cases e
      have hempty : tokens (line + l.newlines) [] = [] := rfl
      rw [List.append_nil] at h ⊢
      rw [hempty, prepend_nil, scan_source_of_divides hl h, newlines]
    | cons c cs =>
      have hzone := zone_source_append hl hstops (List.cons_ne_nil c cs)
      have hdiv : Divides (c :: cs) rest := ⟨hzone ▸ h.not_quoted, hzone ▸ h.boundary⟩
      have hstops' : l.StopsAt (c :: cs ++ rest) := hstops
      rw [List.append_assoc, Scanner.scan_source_append hl hstops', ih hdiv, newlines,
        List.count_append, Nat.add_assoc]

end AnnotatedAtoms
