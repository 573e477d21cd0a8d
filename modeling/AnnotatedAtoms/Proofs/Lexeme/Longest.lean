import AnnotatedAtoms.Lexeme.Cut
import AnnotatedAtoms.Proofs.Runs

/-!
# The longest pieces

The rules of the pieces are said here without the cutting: which characters a piece of each kind
may hold. A text is then cut by taking, again and again, the longest piece that any rule allows.

* `next?_eq_some_iff`, `next?_eq_none_iff`: the first piece is the longest valid one, and there is
  none only where no valid piece begins;
* `cut_eq_iff`: cutting a text is taking longest pieces until none begins;
* `cut_flatMap_source`: valid pieces that do not go on into the text after them are cut off again.
-/

namespace AnnotatedAtoms

/-- Space, tab, form feed and carriage return. -/
def blankChars : List Char := [' ', '\t', '\x0c', '\r']

/-- The characters that no word holds. -/
def specialChars : List Char := blankChars ++ ['\n', '(', ')', '"', ';']

theorem isBlank_iff (c : Char) : isBlank c = true ↔ c ∈ blankChars := by
  simp [isBlank, blankChars, or_assoc]

theorem isWordChar_iff (c : Char) : isWordChar c = true ↔ c ∉ specialChars := by
  simp [isWordChar, isSpecial, isBlank, specialChars, blankChars, and_assoc]

theorem isCommentChar_iff (c : Char) : isCommentChar c = true ↔ c ≠ '\n' := by
  simp [isCommentChar]

theorem isQuotable_iff (c : Char) : isQuotable c = true ↔ c ≠ '"' := by
  simp [isQuotable]

theorem all_isQuotable_iff (cs : List Char) : (∀ c ∈ cs, isQuotable c = true) ↔ '"' ∉ cs := by
  simp only [isQuotable_iff, ne_eq, List.forall_mem_ne']

theorem all_isCommentChar_iff (cs : List Char) :
    (∀ c ∈ cs, isCommentChar c = true) ↔ '\n' ∉ cs := by
  simp only [isCommentChar_iff, ne_eq, List.forall_mem_ne']

theorem all_isWordChar_iff (cs : List Char) :
    cs.all isWordChar = true ↔ ∀ c ∈ cs, c ∉ specialChars := by
  simp only [List.all_eq_true, isWordChar_iff]

/-- A word character is none of the characters that begin another kind of piece. -/
theorem isBlank_eq_false_of_isWordChar {c : Char} (h : isWordChar c = true) :
    isBlank c = false := by
  have hc := (isWordChar_iff c).mp h
  rw [Bool.eq_false_iff]
  intro hb
  exact hc (List.mem_append_left _ ((isBlank_iff c).mp hb))

namespace Lexeme

/-- The rules of the seven kinds of pieces. -/
def Valid : Lexeme → Prop
  | .opening | .closing | .newline => True
  | .blanks run => run ≠ [] ∧ ∀ c ∈ run, c ∈ blankChars
  | .comment body => '\n' ∉ body
  | .quoted body => '"' ∉ body
  | .word run => run ≠ [] ∧ ∀ c ∈ run, c ∉ specialChars

/-- A piece at the beginning of a text, and the text after it. No rule allows a longer one. -/
structure Longest (cs : List Char) (l : Lexeme) (rest : List Char) : Prop where
  valid : l.Valid
  split : l.source ++ rest = cs
  longest : ∀ (m : Lexeme) (tail : List Char), m.Valid → m.source ++ tail = cs →
    m.source.length ≤ l.source.length

/-- Pieces are taken from a text until no valid one begins at what is left. -/
inductive Cuts : List Char → List Lexeme → List Char → Prop
  | stop {cs : List Char} (h : ∀ (l : Lexeme) (rest : List Char), l.Valid →
      l.source ++ rest ≠ cs) : Cuts cs [] cs
  | take {cs mid rest : List Char} {l : Lexeme} {ls : List Lexeme}
      (first : Longest cs l mid) (more : Cuts mid ls rest) : Cuts cs (l :: ls) rest

/-- Whether a piece would go on with a character that follows it. -/
def takes : Lexeme → Char → Bool
  | .blanks _ => isBlank
  | .comment _ => isCommentChar
  | .word _ => isWordChar
  | _ => fun _ => false

/-- A piece stops where the text ends or goes on with a character that it does not take. -/
def StopsAt (l : Lexeme) (rest : List Char) : Prop := ∀ c ∈ rest.head?, l.takes c = false

theorem stopsAt_nil (l : Lexeme) : l.StopsAt [] := by
  intro c hc
  simp at hc

theorem stopsAt_cons (l : Lexeme) (c : Char) (cs : List Char) :
    l.StopsAt (c :: cs) ↔ l.takes c = false := by
  simp [StopsAt]

/-! ## The first piece, by its first character -/

theorem next?_semicolon (cs : List Char) :
    next? (';' :: cs) = some (.comment (cs.takeWhile isCommentChar), cs.dropWhile isCommentChar) :=
  rfl

theorem next?_quote (body rest : List Char) (h : '"' ∉ body) :
    next? ('"' :: (body ++ '"' :: rest)) = some (.quoted body, rest) := by
  have hbody := (all_isQuotable_iff body).mpr h
  have hrest : ∀ c ∈ ('"' :: rest).head?, isQuotable c = false := by simp [isQuotable]
  obtain ⟨ht, hd⟩ := span_run isQuotable body ('"' :: rest) hbody hrest
  simp [next?, ht, hd]

/-- A quote that no later one answers begins no piece. -/
theorem next?_open_quote (cs : List Char) (h : '"' ∉ cs) : next? ('"' :: cs) = none := by
  have hcs := List.dropWhile_eq_nil_iff.mpr ((all_isQuotable_iff cs).mpr h)
  simp [next?, hcs]

theorem next?_blank (c : Char) (cs : List Char) (h : isBlank c = true) :
    next? (c :: cs) = some (.blanks (c :: cs.takeWhile isBlank), cs.dropWhile isBlank) := by
  have hc := (isBlank_iff c).mp h
  simp only [blankChars, List.mem_cons, List.not_mem_nil, or_false] at hc
  rcases hc with rfl | rfl | rfl | rfl <;> rfl

theorem next?_wordChar (c : Char) (cs : List Char) (h : isWordChar c = true) :
    next? (c :: cs) = some (.word (c :: cs.takeWhile isWordChar), cs.dropWhile isWordChar) := by
  have hb := isBlank_eq_false_of_isWordChar h
  have hc := (isWordChar_iff c).mp h
  simp only [specialChars, List.mem_append, List.mem_cons, List.not_mem_nil, or_false,
    not_or] at hc
  obtain ⟨-, hn, ho, hcl, hq, hs⟩ := hc
  simp [next?, hn, ho, hcl, hq, hs, hb]

/-! ## The first piece is valid, and the longest -/

/-- What is cut off obeys the rules and does not stop before it has to. -/
theorem valid_next? {cs rest : List Char} {l : Lexeme} (h : next? cs = some (l, rest)) :
    l.Valid ∧ l.StopsAt rest := by
  unfold next? at h
  split at h
  · cases h
  · rename_i c cs
    have hrun (p : Char → Bool) : ∀ x ∈ cs.takeWhile p, p x = true :=
      fun x hx => List.mem_takeWhile_imp hx
    split_ifs at h with ho hc hn hs hq hb
    · cases h
      exact ⟨trivial, fun _ _ => rfl⟩
    · cases h
      exact ⟨trivial, fun _ _ => rfl⟩
    · cases h
      exact ⟨trivial, fun _ _ => rfl⟩
    · cases h
      exact ⟨(all_isCommentChar_iff _).mp (hrun _), head?_dropWhile_stops _ _⟩
    · split at h
      · cases h
      · cases h
        exact ⟨(all_isQuotable_iff _).mp (hrun _), fun _ _ => rfl⟩
    · cases h
      refine ⟨⟨List.cons_ne_nil _ _, ?_⟩, head?_dropWhile_stops _ _⟩
      intro x hx
      rw [← isBlank_iff]
      rcases List.mem_cons.mp hx with rfl | hx
      · exact hb
      · exact hrun _ x hx
    · cases h
      have hw : isWordChar c = true := by
        simp [isWordChar, isSpecial, ho, hc, hn, hs, hq, hb]
      refine ⟨⟨List.cons_ne_nil _ _, ?_⟩, head?_dropWhile_stops _ _⟩
      intro x hx
      rw [← isWordChar_iff]
      rcases List.mem_cons.mp hx with rfl | hx
      · exact hw
      · exact hrun _ x hx

theorem Valid.blanks_eq_cons {run : List Char} (h : (Lexeme.blanks run).Valid) :
    ∃ c cs, run = c :: cs ∧ isBlank c = true ∧ ∀ x ∈ cs, isBlank x = true :=
  exists_cons_of_run isBlank h.1 fun c hc => (isBlank_iff c).mpr (h.2 c hc)

theorem Valid.word_eq_cons {run : List Char} (h : (Lexeme.word run).Valid) :
    ∃ c cs, run = c :: cs ∧ isWordChar c = true ∧ ∀ x ∈ cs, isWordChar x = true :=
  exists_cons_of_run isWordChar h.1 fun c hc => (isWordChar_iff c).mpr (h.2 c hc)

theorem Valid.not_mem_blanks {run : List Char} (h : (Lexeme.blanks run).Valid) {c : Char}
    (hc : c ∉ blankChars) : c ∉ run := fun hrun => hc (h.2 c hrun)

theorem Valid.not_mem_word {run : List Char} (h : (Lexeme.word run).Valid) {c : Char}
    (hc : c ∈ specialChars) : c ∉ run := fun hrun => h.2 c hrun hc

/-- A valid piece that stops is the first piece of the text that it begins. -/
theorem next?_source_append (l : Lexeme) (rest : List Char) (hl : l.Valid) (hs : l.StopsAt rest) :
    next? (l.source ++ rest) = some (l, rest) := by
  cases l with
  | opening => rfl
  | closing => rfl
  | newline => rfl
  | comment body =>
    obtain ⟨ht, hd⟩ := span_run isCommentChar body rest ((all_isCommentChar_iff body).mpr hl) hs
    rw [source, List.cons_append, next?_semicolon, ht, hd]
  | quoted body => simpa [source] using next?_quote body rest hl
  | blanks run =>
    obtain ⟨c, cs, rfl, hc, hcs⟩ := hl.blanks_eq_cons
    obtain ⟨ht, hd⟩ := span_run isBlank cs rest hcs hs
    rw [source, List.cons_append, next?_blank c _ hc, ht, hd]
  | word run =>
    obtain ⟨c, cs, rfl, hc, hcs⟩ := hl.word_eq_cons
    obtain ⟨ht, hd⟩ := span_run isWordChar cs rest hcs hs
    rw [source, List.cons_append, next?_wordChar c _ hc, ht, hd]

/-- Where some valid piece begins, the first piece is no shorter. -/
theorem exists_next?_of_valid (l : Lexeme) (rest : List Char) (hl : l.Valid) :
    ∃ m tail, next? (l.source ++ rest) = some (m, tail) ∧ l.source.length ≤ m.source.length := by
  cases l with
  | opening => exact ⟨_, _, rfl, Nat.le_refl _⟩
  | closing => exact ⟨_, _, rfl, Nat.le_refl _⟩
  | newline => exact ⟨_, _, rfl, Nat.le_refl _⟩
  | comment body =>
    refine ⟨_, _, next?_semicolon _, ?_⟩
    have h := length_le_takeWhile isCommentChar body rest ((all_isCommentChar_iff body).mpr hl)
    simpa [source] using h
  | quoted body =>
    exact ⟨_, _, next?_source_append (.quoted body) rest hl (fun _ _ => rfl), Nat.le_refl _⟩
  | blanks run =>
    obtain ⟨c, cs, rfl, hc, hcs⟩ := hl.blanks_eq_cons
    refine ⟨_, _, next?_blank c _ hc, ?_⟩
    have h := length_le_takeWhile isBlank cs rest hcs
    simpa [source] using h
  | word run =>
    obtain ⟨c, cs, rfl, hc, hcs⟩ := hl.word_eq_cons
    refine ⟨_, _, next?_wordChar c _ hc, ?_⟩
    have h := length_le_takeWhile isWordChar cs rest hcs
    simpa [source] using h

/-- Two valid pieces with the same characters are the same piece. -/
theorem eq_of_source_eq {l m : Lexeme} (hl : l.Valid) (hm : m.Valid) (h : l.source = m.source) :
    l = m := by
  have el := next?_source_append l [] hl (stopsAt_nil l)
  have em := next?_source_append m [] hm (stopsAt_nil m)
  rw [h, em] at el
  cases el
  rfl

theorem next?_eq_some_iff (cs rest : List Char) (l : Lexeme) :
    next? cs = some (l, rest) ↔ Longest cs l rest := by
  constructor
  · intro h
    refine ⟨(valid_next? h).1, source_next? h, ?_⟩
    rintro m tail hm rfl
    obtain ⟨m', tail', h', hle⟩ := exists_next?_of_valid m tail hm
    rw [h] at h'
    cases h'
    exact hle
  · rintro ⟨hl, rfl, hlong⟩
    obtain ⟨m, tail, h, hle⟩ := exists_next?_of_valid l rest hl
    have hm := (valid_next? h).1
    have hsplit := source_next? h
    have hlen := Nat.le_antisymm (hlong m tail hm hsplit) hle
    obtain ⟨hsource, rfl⟩ := List.append_inj hsplit hlen
    rw [h, eq_of_source_eq hm hl hsource]

theorem next?_eq_none_iff (cs : List Char) :
    next? cs = none ↔ ∀ (l : Lexeme) (rest : List Char), l.Valid → l.source ++ rest ≠ cs := by
  constructor
  · rintro h l rest hl rfl
    obtain ⟨m, tail, hm, -⟩ := exists_next?_of_valid l rest hl
    rw [h] at hm
    cases hm
  · intro h
    rw [Option.eq_none_iff_forall_ne_some]
    rintro ⟨l, rest⟩ hl
    exact h l rest (valid_next? hl).1 (source_next? hl)

/-! ## All pieces -/

theorem cut_of_next?_eq_none (cs : List Char) (h : next? cs = none) : cut cs = ([], cs) := by
  unfold cut
  split
  · rfl
  · rename_i h'
    rw [h] at h'
    cases h'

theorem cut_of_next? {cs rest : List Char} {l : Lexeme} (h : next? cs = some (l, rest)) :
    cut cs = (l :: (cut rest).1, (cut rest).2) := by
  rw [cut]
  split
  · rename_i h'
    rw [h] at h'
    cases h'
  · rename_i h'
    rw [h] at h'
    cases h'
    rfl

theorem cut_nil : cut [] = ([], []) := cut_of_next?_eq_none [] rfl

/-- The pieces of a text are the longest ones, taken until none begins. -/
theorem cut_eq_iff (cs rest : List Char) (ls : List Lexeme) :
    cut cs = (ls, rest) ↔ Cuts cs ls rest := by
  constructor
  · intro h
    induction ls generalizing cs with
    | nil =>
      cases hn : next? cs with
      | none =>
        rw [cut_of_next?_eq_none cs hn] at h
        cases h
        exact .stop ((next?_eq_none_iff _).mp hn)
      | some p =>
        rw [cut_of_next? hn] at h
        cases h
    | cons l ls ih =>
      cases hn : next? cs with
      | none =>
        rw [cut_of_next?_eq_none cs hn] at h
        cases h
      | some p =>
        rw [cut_of_next? hn] at h
        cases h
        exact .take ((next?_eq_some_iff _ _ _).mp hn) (ih _ rfl)
  · intro h
    induction h with
    | @stop cs h => exact cut_of_next?_eq_none cs ((next?_eq_none_iff cs).mpr h)
    | take first _ ih => rw [cut_of_next? ((next?_eq_some_iff _ _ _).mpr first), ih]

/-- A valid piece that stops is cut off, and the text after it is cut as if it stood alone. -/
theorem cut_source_append (l : Lexeme) (rest : List Char) (hl : l.Valid) (hs : l.StopsAt rest) :
    cut (l.source ++ rest) = (l :: (cut rest).1, (cut rest).2) :=
  cut_of_next? (next?_source_append l rest hl hs)

/-- Every one of some pieces stops at the text after it, which ends with a given text. -/
def Separated : List Lexeme → List Char → Prop
  | [], _ => True
  | l :: ls, rest => l.StopsAt (ls.flatMap source ++ rest) ∧ Separated ls rest

theorem cut_flatMap_source (ls : List Lexeme) (rest : List Char) (hvalid : ∀ l ∈ ls, l.Valid)
    (hsep : Separated ls rest) :
    cut (ls.flatMap source ++ rest) = (ls ++ (cut rest).1, (cut rest).2) := by
  induction ls with
  | nil => rfl
  | cons l ls ih =>
    obtain ⟨hstop, hsep⟩ := hsep
    have hl := hvalid l (List.mem_cons_self ..)
    have hls := ih (fun m hm => hvalid m (List.mem_cons_of_mem l hm)) hsep
    rw [List.flatMap_cons, List.append_assoc, cut_source_append l _ hl hstop, hls, List.cons_append]

theorem Cuts.valid {cs rest : List Char} {ls : List Lexeme} (h : Cuts cs ls rest) :
    ∀ l ∈ ls, l.Valid := by
  induction h with
  | stop => simp
  | take first _ ih =>
    intro l hl
    rcases List.mem_cons.mp hl with rfl | hl
    · exact first.valid
    · exact ih l hl

/-- Nothing is skipped, and nothing is used twice. -/
theorem Cuts.source_eq {cs rest : List Char} {ls : List Lexeme} (h : Cuts cs ls rest) :
    ls.flatMap source ++ rest = cs := by
  rw [← source_cut cs, (cut_eq_iff cs rest ls).mpr h]

theorem valid_of_mem_cut {cs : List Char} {l : Lexeme} (h : l ∈ (cut cs).1) : l.Valid :=
  ((cut_eq_iff cs _ _).mp rfl).valid l h

theorem Valid.source_ne_nil {l : Lexeme} (h : l.Valid) : l.source ≠ [] :=
  Lexeme.source_ne_nil (next?_source_append l [] h (stopsAt_nil l))

end Lexeme

end AnnotatedAtoms
