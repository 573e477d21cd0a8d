import AnnotatedAtoms.Proofs.Lexeme.Tokenize

/-!
# Joined tokens

Tokens that are written one after another, with one space between any two of them, are the tokens
of the text that this makes.

* `separated_spaced`: the spaces keep the pieces of such tokens apart;
* `tokenize_join`: the tokens of a joined text, with their lines.
-/

namespace AnnotatedAtoms

namespace Token

/-- The piece that a word or a quoted text is cut from. -/
def piece (t : Token) : Lexeme := if t.quoted then .quoted t.text.toList else .word t.text.toList

def written (t : Token) : String := String.ofList t.spelling

theorem source_piece (t : Token) : t.piece.source = t.spelling := by
  unfold piece spelling
  split_ifs <;> rfl

theorem token?_piece (t : Token) : t.piece.token? = some t := by
  obtain ⟨text, quoted⟩ := t
  cases quoted with
  | false => exact congrArg (fun s => some (Token.bare s)) String.ofList_toList
  | true => exact congrArg (fun s => some (Token.quotation s)) String.ofList_toList

theorem isToken_piece (t : Token) : t.piece.isToken = true :=
  (Lexeme.spelling_of_token? t.token?_piece).1

theorem valid_piece_iff (t : Token) :
    t.piece.Valid ↔ if t.quoted then '"' ∉ t.text.toList
      else t.text.toList ≠ [] ∧ ∀ c ∈ t.text.toList, c ∉ specialChars := by
  unfold piece
  split_ifs <;> rfl

/-- Parentheses are not words. -/
theorem isDelimiter_of_valid_piece {t : Token} (h : t.piece.Valid) : t.isDelimiter = false := by
  obtain ⟨text, quoted⟩ := t
  cases quoted with
  | true => rfl
  | false =>
    obtain ⟨-, hword⟩ := h
    rw [Bool.eq_false_iff]
    intro hd
    simp only [isDelimiter, Bool.not_false, Bool.true_and, Bool.or_eq_true, beq_iff_eq] at hd
    rcases hd with rfl | rfl
    · exact hword '(' (by decide) (by decide)
    · exact hword ')' (by decide) (by decide)

/-- A token of a text is cut from the text again, unless it is a parenthesis. -/
theorem valid_piece_of_token? {l : Lexeme} {t : Token} (hl : l.Valid) (ht : l.token? = some t)
    (hd : t.isDelimiter = false) : t.piece.Valid := by
  cases l with
  | newline => cases ht
  | blanks run => cases ht
  | comment body => cases ht
  | opening =>
    cases ht
    exact absurd hd (by decide)
  | closing =>
    cases ht
    exact absurd hd (by decide)
  | quoted body =>
    cases ht
    simpa [piece, quotation] using hl
  | word run =>
    cases ht
    simpa [piece, bare] using hl

end Token

/-- The lines on which some texts begin, when the first one begins on a given line and no newline
stands between them. -/
def beginLines (line : Nat) : List String → List Nat
  | [] => []
  | s :: ss => line :: beginLines (line + s.toList.count '\n') ss

theorem length_beginLines (line : Nat) (ss : List String) :
    (beginLines line ss).length = ss.length := by
  induction ss generalizing line with
  | nil => rfl
  | cons s ss ih => rw [beginLines, List.length_cons, List.length_cons, ih]

namespace Lexeme

/-! ## Spaces between pieces -/

/-- Some pieces with one space between any two of them. -/
def spaced (ls : List Lexeme) : List Lexeme := ls.intersperse (.blanks [' '])

theorem spaced_cons_cons (l m : Lexeme) (ls : List Lexeme) :
    spaced (l :: m :: ls) = l :: .blanks [' '] :: spaced (m :: ls) := rfl

theorem exists_spaced_eq_cons (l : Lexeme) (ls : List Lexeme) :
    ∃ tail, spaced (l :: ls) = l :: tail := by
  cases ls with
  | nil => exact ⟨[], rfl⟩
  | cons m ls => exact ⟨_, spaced_cons_cons l m ls⟩

theorem flatMap_source_spaced (ls : List Lexeme) :
    (spaced ls).flatMap source = [' '].intercalate (ls.map source) := by
  induction ls with
  | nil => rfl
  | cons l ls ih =>
    cases ls with
    | nil => simp [spaced]
    | cons m ls =>
      simp only [List.map_cons] at ih ⊢
      rw [spaced_cons_cons, List.flatMap_cons, List.flatMap_cons, ih, List.intercalate_cons_cons,
        List.append_assoc]
      rfl

theorem valid_of_mem_spaced {ls : List Lexeme} (h : ∀ l ∈ ls, l.Valid) :
    ∀ l ∈ spaced ls, l.Valid := by
  induction ls with
  | nil => simp [spaced]
  | cons l ls ih =>
    cases ls with
    | nil => simpa [spaced] using h
    | cons m ls =>
      intro k hk
      rw [spaced_cons_cons, List.mem_cons, List.mem_cons] at hk
      rcases hk with rfl | rfl | hk
      · exact h k (List.mem_cons_self ..)
      · exact ⟨List.cons_ne_nil _ _, by simp [blankChars]⟩
      · exact ih (fun x hx => h x (List.mem_cons_of_mem l hx)) k hk

/-- No token goes on with a space. -/
theorem takes_space {l : Lexeme} (h : l.isToken = true) : l.takes ' ' = false := by
  cases l with
  | comment body => cases h
  | blanks run => cases h
  | newline => cases h
  | opening => rfl
  | closing => rfl
  | quoted body => rfl
  | word run => rfl

/-- No token begins with a blank. -/
theorem head?_source_not_blank {l : Lexeme} (hl : l.Valid) (h : l.isToken = true)
    (rest : List Char) : ∀ c ∈ (l.source ++ rest).head?, isBlank c = false := by
  intro c hc
  cases l with
  | comment body => cases h
  | blanks run => cases h
  | newline => cases h
  | opening =>
    cases hc
    rfl
  | closing =>
    cases hc
    rfl
  | quoted body =>
    cases hc
    rfl
  | word run =>
    obtain ⟨c', cs, rfl, hword, -⟩ := hl.word_eq_cons
    cases hc
    exact isBlank_eq_false_of_isWordChar hword

theorem separated_spaced {ls : List Lexeme} (hvalid : ∀ l ∈ ls, l.Valid)
    (htoken : ∀ l ∈ ls, l.isToken = true) : Separated (spaced ls) [] := by
  induction ls with
  | nil => trivial
  | cons l ls ih =>
    cases ls with
    | nil => exact ⟨stopsAt_nil l, trivial⟩
    | cons m ls =>
      rw [spaced_cons_cons]
      refine ⟨?_, ?_, ih (fun x hx => hvalid x (List.mem_cons_of_mem l hx))
        (fun x hx => htoken x (List.mem_cons_of_mem l hx))⟩
      · exact (stopsAt_cons l ' ' _).mpr (takes_space (htoken l (List.mem_cons_self ..)))
      · have hm : m ∈ l :: m :: ls := List.mem_cons_of_mem l (List.mem_cons_self ..)
        obtain ⟨tail, htail⟩ := exists_spaced_eq_cons m ls
        rw [htail, List.flatMap_cons, List.append_assoc]
        exact head?_source_not_blank (hvalid m hm) (htoken m hm) _

/-- The spaces are no tokens and begin no line. -/
theorem tokens_spaced (line : Nat) (ls : List Lexeme) :
    tokens line (spaced ls) = tokens line ls := by
  induction ls generalizing line with
  | nil => rfl
  | cons l ls ih =>
    cases ls with
    | nil => rfl
    | cons m ls =>
      have hspace : tokens (line + l.newlines) (.blanks [' '] :: spaced (m :: ls)) =
          tokens (line + l.newlines) (spaced (m :: ls)) := tokens_cons ..
      rw [spaced_cons_cons, tokens_cons, hspace, ih, tokens_cons line l]

theorem tokens_map_piece (line : Nat) (ts : List Token) :
    tokens line (ts.map Token.piece) = ts.zip (beginLines line (ts.map Token.written)) := by
  induction ts generalizing line with
  | nil => rfl
  | cons t ts ih =>
    have hlines : t.piece.newlines = t.written.toList.count '\n' := by
      rw [newlines, Token.source_piece, Token.written, String.toList_ofList]
    rw [List.map_cons, List.map_cons, tokens_cons, Token.token?_piece, ih, hlines, beginLines,
      List.zip_cons_cons]
    rfl

end Lexeme

open Lexeme

/-- A joined text has the tokens that it was made of. -/
theorem tokenize_join (ts : List Token) (h : ∀ t ∈ ts, t.piece.Valid) :
    tokenize (" ".intercalate (ts.map Token.written)) =
      .ok (ts.zip (beginLines 1 (ts.map Token.written))) := by
  have hvalid : ∀ l ∈ ts.map Token.piece, l.Valid := List.forall_mem_map.mpr h
  have htoken : ∀ l ∈ ts.map Token.piece, l.isToken = true :=
    List.forall_mem_map.mpr fun t _ => t.isToken_piece
  have hsources : (ts.map Token.written).map String.toList =
      (ts.map Token.piece).map Lexeme.source := by
    rw [List.map_map, List.map_map]
    apply List.map_congr_left
    intro t _
    exact String.toList_ofList.trans t.source_piece.symm
  have htext : (" ".intercalate (ts.map Token.written)).toList =
      (spaced (ts.map Token.piece)).flatMap Lexeme.source ++ [] := by
    rw [String.toList_intercalate, hsources, List.append_nil, flatMap_source_spaced]
    rfl
  have hcut := cut_flatMap_source _ [] (valid_of_mem_spaced hvalid)
    (separated_spaced hvalid htoken)
  rw [tokenize_eq_ok_iff, htext, hcut, cut_nil, List.append_nil, tokens_spaced, tokens_map_piece]
  exact ⟨rfl, rfl⟩

end AnnotatedAtoms
